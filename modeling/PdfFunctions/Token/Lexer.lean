import PdfFunctions.Token.Numeral
import PdfFunctions.Decimal.Style

namespace PdfFunctions

inductive Token where
  | number (x : Float)
  | bool (b : Bool)
  | name (bytes : Bytes)
  | opening
  | closing
  -- a span that starts like a number and is none
  | malformed (bytes : Bytes)
deriving DecidableEq

namespace Token

def isBlank (b : UInt8) : Bool :=
  b == 0x20 || b == 0x09 || b == 0x0D || b == 0x0A || b == 0x00 || b == 0x0C

def isLineEnd (b : UInt8) : Bool := b == 0x0D || b == 0x0A

def endsSpan (b : UInt8) : Bool :=
  isBlank b || b == 0x7B || b == 0x7D || b == 0x25

def ofSpan (bs : Bytes) : Token :=
  match bs with
  | [0x74, 0x72, 0x75, 0x65] => .bool true
  | [0x66, 0x61, 0x6C, 0x73, 0x65] => .bool false
  | b :: _ =>
    if b < 0x41 then (Numeral.read? bs).elim (.malformed bs) .number
    else .name bs
  | [] => .name []

def text : Token → String
  | number x => Decimal.text x
  | bool b => if b then "true" else "false"
  | name bs | malformed bs => bs.latin1
  | opening => "\x7b"
  | closing => "\x7d"

end Token

/-- A token with the positions of its first byte and of the byte after it. -/
structure Item where
  token : Token
  start : Nat
  stop : Nat
deriving DecidableEq

/-- A position in a text and the bytes from there on. -/
structure Lexer where
  position : Nat
  rest : Bytes
deriving DecidableEq

namespace Lexer

def ofText (text : Bytes) : Lexer := ⟨0, text⟩

def seek (text : Bytes) (n : Nat) : Lexer :=
  ⟨min n text.length, text.drop n⟩

def skip : Bool → Nat → Bytes → Lexer
  | _, p, [] => ⟨p, []⟩
  -- a comment runs up to a line end
  | true, p, b :: bs => skip (!Token.isLineEnd b) (p + 1) bs
  | false, p, b :: bs =>
    if b == 0x25 then skip true (p + 1) bs
    else if Token.isBlank b then skip false (p + 1) bs
    else ⟨p, b :: bs⟩

/-- The next token, and the lexer after it. Without one, the lexer is at the end. -/
def next (l : Lexer) : Option Item × Lexer :=
  match skip false l.position l.rest with
  | ⟨p, []⟩ => (none, ⟨p, []⟩)
  | ⟨p, b :: bs⟩ =>
    if b == 0x7B then (some ⟨.opening, p, p + 1⟩, ⟨p + 1, bs⟩)
    else if b == 0x7D then (some ⟨.closing, p, p + 1⟩, ⟨p + 1, bs⟩)
    else
      let (span, rest) := (b :: bs).span (!Token.endsSpan ·)
      let stop := p + span.length
      (some ⟨.ofSpan span, p, stop⟩, ⟨stop, rest⟩)

/-- Up to `fuel` further tokens, in front of which the reversed `found` stand. -/
def collect : Nat → Lexer → List Item → List Item
  | 0, _, found => found.reverse
  | fuel + 1, l, found =>
    match l.next with
    | (none, _) => found.reverse
    | (some i, l') => collect fuel l' (i :: found)

def items (l : Lexer) : List Item :=
  -- each token takes a byte at least
  collect (l.rest.length + 1) l []

end Lexer

def tokenize (text : Bytes) : List Item := (Lexer.ofText text).items

end PdfFunctions
