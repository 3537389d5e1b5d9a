import PdfFunctions.Error
import PdfFunctions.Operator

namespace PdfFunctions

inductive Value where
  | number (x : Float)
  | bool (b : Bool)
  | operator (op : Operator)
  | opening
  | closing
deriving DecidableEq

namespace Value

def typeName : Value → String
  | number _ => "number"
  | bool _ => "boolean"
  | operator _ => "operator"
  | opening | closing => "procedure marker"

def getNumber : Value → Except Error Float
  | number x => .ok x
  | v => .error (.typeMismatch "number" v.typeName)

def getBool : Value → Except Error Bool
  | bool b => .ok b
  | v => .error (.typeMismatch "boolean" v.typeName)

/-- Only pending bodies hold operators and braces. -/
def isCode : Value → Bool
  | operator _ | opening | closing => true
  | _ => false

def text : Value → String
  | number x => Decimal.text x
  | bool b => if b then "true" else "false"
  | operator op => op.name
  | opening => "\x7b"
  | closing => "\x7d"

end Value

end PdfFunctions
