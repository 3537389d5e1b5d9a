import PdfFunctions.Binary64
import PdfFunctions.Error

namespace PdfFunctions

/-- The keys of a dictionary are distinct. -/
inductive Object where
  | null
  | bool (b : Bool)
  | int (n : Int)
  | real (x : Float)
  | name (s : String)
  | string (bytes : Bytes)
  | array (items : List Object)
  | dict (entries : List (String × Object))
  | stream (entries : List (String × Object)) (data : Bytes)

abbrev Entries := List (String × Object)

namespace Object

def typeName : Object → String
  | null => "null"
  | bool _ => "bool"
  | int _ => "int"
  | real _ => "real"
  | name _ => "name"
  | string _ => "string"
  | array _ => "array"
  | dict _ => "dict"
  | stream .. => "stream"

def isNull : Object → Bool
  | null => true
  | _ => false

def wrongType {α : Type} (expected : String) (o : Object) : Except Error α :=
  .error (.typeMismatch expected o.typeName)

def ofNumbers (xs : List Float) : Object := array (xs.map real)

def getBool : Object → Except Error Bool
  | bool b => .ok b
  | o => o.wrongType "bool"

/-- The integer that a real of at most 63 bits equals. -/
def integral? (x : Float) : Option Int := do
  let n ← Binary64.toInt? x
  if Binary64.isIntegral x ∧ n.natAbs < 0x8000000000000000 then some n else none

def getInt : Object → Except Error Int
  | int n => .ok n
  | real x => (integral? x).elim (wrongType "int" (real x)) .ok
  | o => o.wrongType "int"

def getNumber : Object → Except Error Float
  | int n => .ok (Binary64.ofInt n)
  | real x => .ok x
  | o => o.wrongType "number"

def getName : Object → Except Error String
  | name s => .ok s
  | o => o.wrongType "name"

def getArray : Object → Except Error (List Object)
  | array items => .ok items
  | o => o.wrongType "array"

def getNumbers (o : Object) : Except Error (List Float) := do
  (← o.getArray).mapM getNumber

def getDict : Object → Except Error Entries
  | dict entries => .ok entries
  | o => o.wrongType "dict"

def getStream : Object → Except Error (Entries × Bytes)
  | stream entries data => .ok (entries, data)
  | o => o.wrongType "stream"

end Object

namespace Entries

def get? (d : Entries) (key : String) : Option Object := d.lookup key

def contains (d : Entries) (key : String) : Bool := (d.get? key).isSome

def required (d : Entries) (key : String) : Except Error Object :=
  (d.get? key).elim (.error (.missingKey key)) .ok

def numbers? (d : Entries) (key : String) : Except Error (Option (List Float)) :=
  match d.get? key with
  -- here a null entry is none
  | none | some .null => .ok none
  | some o => some <$> o.getNumbers

end Entries

end PdfFunctions
