import PdfFunctions.CommandLine.Report
import PdfFunctions.Delivery
import PdfFunctions.Function.Calculator
import PdfFunctions.Function.Exponential
import PdfFunctions.Text.Quoted
import PdfFunctions.Text.Words

namespace PdfFunctions.CommandLine

inductive Source where
  | stdin
  | file (path : String)
deriving DecidableEq

inductive Content where
  | bytes (bs : Bytes)
  -- it cannot be opened
  | closed (reason : String)
  -- it can be opened and not read
  | broken (reason : String)
deriving DecidableEq

/-- The outermost message first. -/
abbrev Failure := List String

def Failure.text : Failure → String
  | [] => ""
  | [message] => "Error: " ++ message
  | [message, cause] => "Error: " ++ message ++ "\n\nCaused by:\n    " ++ cause
  | message :: causes =>
    "Error: " ++ message ++ "\n\nCaused by:\n" ++
      "\n".intercalate (causes.mapIdx fun i cause => s!"    {i}: {cause}")

structure Outcome where
  exit : Nat
  stdout : String := ""
  stderr : String := ""
deriving DecidableEq

def ofError {α : Type} (x : Except Error α) : Except Failure α :=
  x.mapError fun e => [e.message]

def within {α : Type} (message : String) (x : Except Error α) : Except Failure α :=
  x.mapError fun e => [message, e.message]

def numbers (what text : String) : Except Failure (List Float) :=
  (Text.words text).mapM fun s =>
    (readFloat? s).elim
      (.error [s!"invalid number {Text.quoted s} in {what}", "invalid float literal"]) .ok

def intervals (what text : String) : Except Failure (Intervals Float) := do
  within s!"invalid {what}" (Intervals.ofFlat (← numbers what text))

def result {α : Type} (x : EStateM Error Log α) : Except Failure α :=
  match x [] with
  -- the events of the evaluation are not shown
  | .ok a _ => .ok a
  | .error e _ => .error [e.message]

namespace CalcArguments

def source? (a : CalcArguments) : Option Source :=
  a.file.map fun path => if path == "-" then .stdin else .file path

def text (a : CalcArguments) (read : Source → Content) : Except Failure Bytes :=
  match a.program, a.source? with
  | some s, none => .ok (Bytes.ofText s)
  | none, some source =>
    let (name, opened) := match source with
      | .stdin => ("stdin", "stdin")
      | .file path => (path, path)
    match read source with
    | .bytes bs => .ok bs
    | .closed reason => .error ["failed to open " ++ opened, reason]
    | .broken reason =>
      .error ["failed to read " ++ name, (Error.unreadable reason).message, reason]
  | _, _ => .error ["give a program or --file"]

def run (a : CalcArguments) (read : Source → Content) : Except Failure (List Value) := do
  if a.maxStack = 0 then throw ["--max-stack must be at least 1"]
  let program ← a.text read
  let inputs ← numbers "inputs" a.inputs
  let range ← intervals "range" a.range
  let f ← ofError (Calculator.make program range)
  let domain ← a.domain.mapM (intervals "domain")
  let f := { f with domain, limits := { maxStack := a.maxStack, strict := a.strict } }
  if a.stack then return (← result (f.run inputs)).contents
  else return (← result (f.evaluate inputs)).map .number

end CalcArguments

def ExpArguments.run (a : ExpArguments) : Except Failure (List Value) := do
  let c0 ← a.c0.mapM (numbers "c0")
  let c1 ← a.c1.mapM (numbers "c1")
  let f ← ofError (Exponential.make c0 c1 a.exponent)
  let range ← a.range.mapM (intervals "range")
  return (← result ({ f with range }.evaluate [a.input])).map .number

def Command.run (read : Source → Content) : Command → Except Failure (List Value)
  | .calc a => a.run read
  | .exp a => a.run

def Command.source? : Command → Option Source
  | .calc a => a.source?
  | .exp _ => none

def versionText : String := "pdfcalc 0.3.0\n"

def usage : String :=
  "Evaluate PDF functions\n\nUsage: pdfcalc [OPTIONS] <COMMAND>\n\nCommands:\n" ++
  "  calc  Evaluate a Type 4 (PostScript calculator) program\n" ++
  "  exp   Evaluate a Type 2 (exponential interpolation) function\n" ++
  "  help  Print this message or the help of the given subcommand(s)\n\nOptions:\n" ++
  "  -d, --debug                      Use debug logging level\n" ++
  "  -o, --output-type <OUTPUT_TYPE>  Output format [default: text] [possible values: text, json]\n" ++
  "  -h, --help                       Print help\n" ++
  "  -V, --version                    Print version\n"

def Stop.outcome : Stop → Outcome
  | .help => { exit := 0, stdout := usage }
  | .version => { exit := 0, stdout := versionText }
  | .misuse => { exit := 2, stderr := usage }

def Command.outcome (format : Format) (read : Source → Content) (c : Command) : Outcome :=
  match c.run read with
  | .ok vs => { exit := 0, stdout := report format vs }
  | .error failure => { exit := 1, stderr := failure.text }

/-- The outcome of the whole command line, where `read` gives what the sources hold. -/
def run (args : List String) (read : Source → Content) : Outcome :=
  match parse args with
  | .ok (format, command) => command.outcome format read
  | .error stop => stop.outcome

end PdfFunctions.CommandLine
