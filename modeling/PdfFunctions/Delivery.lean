import PdfFunctions.Error

namespace PdfFunctions

inductive Delivery where
  | data (bytes : Bytes)
  -- a failure after which reading goes on
  | interrupted
  | failure (reason : String)
deriving DecidableEq

namespace Delivery

def readSize : Nat := 4096

/-- Cuts `bs` into pieces of `n` bytes and a shorter last one; `fuel` bounds their number. -/
def pieces (n : Nat) : Nat → Bytes → List Bytes
  | 0, bs => [bs]
  | fuel + 1, bs =>
    if bs.length ≤ n then [bs] else bs.take n :: pieces n fuel (bs.drop n)

def reads : Delivery → List Delivery
  | data bs => (pieces readSize bs.length bs).map data
  | d => [d]

/-- The bytes of these reads after the reversed `found`. -/
def gather (found : Bytes) : List Delivery → Except Error Bytes
  -- a read without bytes ends the text, whatever is in store behind it
  | [] | data [] :: _ => .ok found.reverse
  | data bs :: ds => gather (bs.reverse ++ found) ds
  | interrupted :: ds => gather found ds
  | failure reason :: _ => .error (.unreadable reason)

def readAll (ds : List Delivery) : Except Error Bytes :=
  gather [] (ds.flatMap reads)

end Delivery

end PdfFunctions
