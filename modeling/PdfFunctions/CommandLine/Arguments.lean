import PdfFunctions.Decimal.Literal

namespace PdfFunctions.CommandLine

inductive Format where
  | text | json
deriving DecidableEq

inductive Key where
  | help | version | debug | output
  | program | file | inputs | range | domain | strict | maxStack | stack
  | exponent | c0 | c1 | input
deriving DecidableEq

/-- An option. A value that may start with a hyphen may be anything. -/
structure Opt where
  key : Key
  short : Option Char := none
  long : String
  takesValue : Bool := true
  anyValue : Bool := false

structure Level where
  options : List Opt
  -- the one argument that is no option
  positional : Option Key := none
  anyPositional : Bool := false
  subcommands : List String := []

inductive Stop where
  | help | version | misuse
deriving DecidableEq

def helpOption : Opt := ⟨.help, 'h', "help", false, false⟩

def sharedOptions : List Opt :=
  [⟨.debug, 'd', "debug", false, false⟩, ⟨.output, 'o', "output-type", true, false⟩]

def topLevel : Level where
  options := helpOption :: ⟨.version, 'V', "version", false, false⟩ :: sharedOptions
  subcommands := ["calc", "exp", "help"]

def calcLevel : Level where
  options := helpOption :: sharedOptions ++
    [⟨.file, 'f', "file", true, false⟩, ⟨.inputs, 'i', "inputs", true, true⟩,
      ⟨.range, 'r', "range", true, true⟩, ⟨.domain, none, "domain", true, true⟩,
      ⟨.strict, none, "strict", false, false⟩, ⟨.maxStack, none, "max-stack", true, false⟩,
      ⟨.stack, none, "stack", false, false⟩]
  positional := some .program

def expLevel : Level where
  options := helpOption :: sharedOptions ++
    [⟨.exponent, none, "n", true, true⟩, ⟨.c0, none, "c0", true, true⟩,
      ⟨.c1, none, "c1", true, true⟩, ⟨.range, 'r', "range", true, true⟩]
  positional := some .input
  anyPositional := true

def readFloat? (s : String) : Option Float := Decimal.parse? (Bytes.ofText s)

/-- A count of at most 64 bits, which may carry a plus sign. -/
def readCount? (s : String) : Option Nat := do
  let bs := match Bytes.ofText s with
    | 0x2B :: bs => bs
    | bs => bs
  let n ← Decimal.Literal.digits? bs
  if n < 0x10000000000000000 then some n else none

def readFormat? (s : String) : Option Format :=
  if s == "text" then some .text else if s == "json" then some .json else none

def accepts (k : Key) (value : String) : Bool :=
  match k with
  | .output => (readFormat? value).isSome
  | .file => value != ""
  | .maxStack => (readCount? value).isSome
  | .exponent | .input => (readFloat? value).isSome
  | _ => true

structure Reading where
  -- each key once, the latest first; a flag has an empty value
  found : List (Key × String) := []
  -- the key whose value is awaited, or not yet looked at
  pending : Option (Key × Option String) := none
  -- after `--` there are no options
  trailing : Bool := false
  -- the positional argument has been given
  filled : Bool := false

namespace Reading

def get? (r : Reading) (k : Key) : Option String := r.found.lookup k

def has (r : Reading) (k : Key) : Bool := (r.get? k).isSome

def add (r : Reading) (k : Key) (value : String) : Except Stop Reading :=
  if r.has k then .error .misuse else .ok { r with found := (k, value) :: r.found }

def resolve (r : Reading) : Except Stop Reading :=
  match r.pending with
  | none => .ok r
  | some (_, none) => .error .misuse
  -- a value is looked at only when something else follows it
  | some (k, some value) =>
    if accepts k value then { r with pending := none }.add k value else .error .misuse

def flag (r : Reading) (k : Key) : Except Stop Reading := do
  let r ← r.resolve
  match k with
  | .help => throw .help
  | .version => throw .version
  | k => r.add k ""

def option (r : Reading) (k : Key) (value : Option String) : Except Stop Reading := do
  let r ← r.resolve
  match value with
  | none => return { r with pending := some (k, none) }
  | some value => resolve { r with pending := some (k, some value) }

def positional (l : Level) (r : Reading) (value : String) : Except Stop Reading := do
  match l.positional, r.filled with
  | some k, false =>
    let r ← r.resolve
    return { r with pending := some (k, some value), filled := true }
  | _, _ => throw .misuse

/-- The next argument may be the positional one whatever it looks like. -/
def takesAny (l : Level) (r : Reading) : Bool := l.anyPositional && !r.filled

def long (l : Level) (r : Reading) (cs : List Char) : Except Stop Reading :=
  let (name, rest) := cs.span (· != '=')
  let value := match rest with
    | _ :: value => some (String.ofList value)
    | [] => none
  match l.options.find? (·.long == String.ofList name) with
  | some o =>
    if o.takesValue then r.option o.key value
    else if value.isSome then .error .misuse
    else r.flag o.key
  | none =>
    if r.takesAny l then r.positional l (String.ofList ('-' :: '-' :: cs)) else .error .misuse

/-- Short options in one argument. One that takes a value takes what is left, if anything is. -/
def short (l : Level) (r : Reading) : List Char → Except Stop Reading
  | [] => .ok r
  | c :: cs =>
    match l.options.find? (·.short == some c) with
    | none => .error .misuse
    | some o =>
      if o.takesValue then
        let value := match cs with
          | [] => none
          | '=' :: value | value => some (String.ofList value)
        r.option o.key value
      else do
        short l (← r.flag o.key) cs

def awaiting? (l : Level) (r : Reading) : Option Opt :=
  match r.pending with
  | some (k, none) => l.options.find? (·.key == k)
  | _ => none

def argument (l : Level) (r : Reading) (arg : String) : Except Stop Reading :=
  if r.trailing then r.positional l arg
  else
    match r.awaiting? l, arg.toList with
    | some o, cs =>
      if o.anyValue || cs == ['-'] || cs.head? != some '-' then
        .ok { r with pending := some (o.key, some arg) }
      else .error .misuse
    | none, ['-', '-'] => .ok { r with trailing := true }
    | none, '-' :: '-' :: cs => r.long l cs
    | none, '-' :: c :: cs =>
      if r.takesAny l && (c :: cs).any fun c => !l.options.any (·.short == some c) then
        r.positional l arg
      else r.short l (c :: cs)
    | none, _ => r.positional l arg

/-- A subcommand ends its level, unless a value is awaited. -/
def isSubcommand (l : Level) (r : Reading) (arg : String) : Bool :=
  !r.trailing && (r.awaiting? l).isNone && l.subcommands.contains arg

end Reading

def readLevel (l : Level) (r : Reading) :
    List String → Except Stop (Reading × Option (String × List String))
  | [] => .ok (r, none)
  | arg :: args =>
    if r.isSubcommand l arg then .ok (r, some (arg, args))
    else do readLevel l (← r.argument l arg) args

structure CalcArguments where
  program : Option String
  file : Option String
  inputs : String
  range : String
  domain : Option String
  strict : Bool
  maxStack : Nat
  stack : Bool
deriving DecidableEq

structure ExpArguments where
  exponent : Float
  c0 : Option String
  c1 : Option String
  range : Option String
  input : Float
deriving DecidableEq

inductive Command where
  | calc (args : CalcArguments)
  | exp (args : ExpArguments)
deriving DecidableEq

def orMisuse {α : Type} (x : Option α) : Except Stop α := x.elim (.error .misuse) .ok

def calcArguments (r : Reading) : Except Stop CalcArguments := do
  let range ← orMisuse (r.get? .range)
  if r.has .program && r.has .file then throw .misuse
  return {
    program := r.get? .program
    file := r.get? .file
    inputs := (r.get? .inputs).getD ""
    range
    domain := r.get? .domain
    strict := r.has .strict
    maxStack := ((r.get? .maxStack).bind readCount?).getD 100
    stack := r.has .stack }

def expArguments (r : Reading) : Except Stop ExpArguments := do
  return {
    exponent := ← orMisuse ((r.get? .exponent).bind readFloat?)
    c0 := r.get? .c0
    c1 := r.get? .c1
    range := r.get? .range
    input := ← orMisuse ((r.get? .input).bind readFloat?) }

def subcommand (name : String) (args : List String) : Except Stop (Reading × Command) := do
  if name == "calc" then
    let (r, _) ← readLevel calcLevel {} args
    let r ← r.resolve
    return (r, .calc (← calcArguments r))
  else if name == "exp" then
    let (r, _) ← readLevel expLevel {} args
    let r ← r.resolve
    return (r, .exp (← expArguments r))
  else
    match args with
    | [] => throw .help
    | [topic] => throw (if topLevel.subcommands.contains topic then .help else .misuse)
    | _ => throw .misuse

/-- The command and the format of its report. The format next to the subcommand wins. -/
def parse (args : List String) : Except Stop (Format × Command) := do
  let (top, rest) ← readLevel topLevel {} args
  let (name, rest) ← orMisuse rest
  let (sub, command) ← subcommand name rest
  let top ← top.resolve
  let format := (sub.get? .output <|> top.get? .output).bind readFormat?
  return (format.getD .text, command)

end PdfFunctions.CommandLine
