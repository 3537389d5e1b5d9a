import PdfFunctions.CommandLine.Arguments
import PdfFunctions.Value

namespace PdfFunctions.CommandLine

def plainReport (vs : List Value) : String :=
  String.join (vs.map fun v => v.text ++ "\n")

def jsonValue : Value → String
  | .number x => Decimal.Style.json.render x
  | .bool b => if b then "true" else "false"
  -- operators and braces are strings, and need no escapes
  | v => "\"" ++ v.text ++ "\""

def jsonList (vs : List Value) : String :=
  if vs.isEmpty then "[]"
  else "[\n" ++ ",\n".intercalate (vs.map fun v => "    " ++ jsonValue v) ++ "\n  ]"

def jsonReport (vs : List Value) : String :=
  "\x7b\n  \"outputs\": " ++ jsonList vs ++ "\n\x7d\n"

def report : Format → List Value → String
  | .text, vs => plainReport vs
  | .json, vs => jsonReport vs

end PdfFunctions.CommandLine
