import PdfFunctions.Stack.Arithmetic
import PdfFunctions.Stack.Body
import PdfFunctions.Stack.Rearrangement
import PdfFunctions.Stack.Relational
import PdfFunctions.Event
import PdfFunctions.Limits
import PdfFunctions.Token.Lexer

namespace PdfFunctions

/-- A body that runs: what is left of it, and the brace depth outside it. -/
structure Call where
  rest : List Value
  depth : Nat
deriving DecidableEq

structure Machine where
  stack : Stack
  -- open braces
  depth : Nat := 0
  -- the innermost first
  calls : List Call := []
  log : Log := []
deriving DecidableEq

abbrev MachineM := EStateM Error Machine

namespace Machine

def onStack {α : Type} (x : StackM α) : MachineM α := fun m =>
  match x m.stack with
  | .ok a s => .ok a { m with stack := s }
  | .error e s => .error e { m with stack := s }

def note (e : Event) : MachineM Unit := modify fun m => { m with log := e :: m.log }

def enter (body : List Value) : MachineM Unit :=
  -- a body runs as if inside the outermost braces of the program
  modify fun m => { m with calls := ⟨body, m.depth⟩ :: m.calls, depth := 1 }

def control (op : Operator) : MachineM Unit :=
  let name := op.name
  match op with
  | .pushTrue => onStack (StackM.push (.bool true))
  | .pushFalse => onStack (StackM.push (.bool false))
  | .runIf => do
    let body ← onStack (Body.pop name)
    if ← onStack (StackM.popBool name) then enter body
  | .runIfElse => do
    let otherwise ← onStack (Body.pop name)
    let body ← onStack (Body.pop name)
    if ← onStack (StackM.popBool name) then enter body else enter otherwise
  | _ => throw (.typeMismatch "control operator" name)

def execute (op : Operator) : MachineM Unit :=
  match op.category with
  | .arithmetic => onStack (Arithmetic.apply op)
  | .comparison | .boolean => onStack (Relational.apply op)
  | .stackManipulation => onStack (Rearrangement.apply op)
  | .control => control op

def operate (op : Operator) : MachineM Unit := do
  note (.execute op (← get).stack.size)
  onStack (StackM.require op.name op.inputs)
  execute op

def defer (l : Limits) (v : Value) : MachineM Unit :=
  onStack (StackM.defer v l.maxBodies)

def setDepth (n : Nat) : MachineM Unit := modify fun m => { m with depth := n }

def openBrace (l : Limits) : MachineM Unit := do
  let depth := (← get).depth
  if l.maxNesting ≤ depth then throw (.nestingTooDeep l.maxNesting)
  setDepth (depth + 1)
  match depth with
  -- the outermost braces are stepped over, and the brace of a body is a live operand
  | 0 => pure ()
  | 1 => onStack (StackM.push .opening)
  | _ => defer l .opening

def closeBrace (l : Limits) : MachineM Unit := do
  match (← get).depth with
  | 0 => note .unmatchedClosing
  | 1 => setDepth 0
  | depth + 1 =>
    defer l .closing
    setDepth depth

/-- Takes in one value: runs it, pushes it, or defers it. -/
def accept (l : Limits) (v : Value) : MachineM Unit := do
  match v with
  | .opening => openBrace l
  | .closing => closeBrace l
  | .operator op => if (← get).depth ≤ 1 then operate op else defer l v
  | _ => if (← get).depth ≤ 1 then onStack (StackM.push v) else defer l v

/-- One step of the innermost call: its next value, or the return from it. -/
def step (l : Limits) : MachineM Unit := fun m =>
  match m.calls with
  | [] => .ok () m
  | ⟨[], depth⟩ :: calls => .ok () { m with depth, calls }
  | ⟨v :: rest, depth⟩ :: calls => accept l v { m with calls := ⟨rest, depth⟩ :: calls }

/-- Steps until no call is open. Bodies that run without end have no result. -/
def settle? (l : Limits) (m : Machine) : Option (EStateM.Result Error Machine Unit) :=
  match m.calls with
  | [] => some (.ok () m)
  | _ :: _ =>
    match step l m with
    -- named by `apply`, the call does not carry its place in the file into the definition
    | .ok _ m => (by apply settle? : Limits → Machine → Option _) l m
    | .error e m => some (.error e m)
partial_fixpoint

def unwind (m : Machine) : Machine :=
  match m.calls.getLast? with
  -- the outermost call knows the depth outside all calls
  | some c => { m with depth := c.depth, calls := [] }
  | none => m

/-- Does `x` and all that the calls it opens ask for. A failure leaves them. -/
def complete (l : Limits) (x : MachineM Unit) : MachineM Unit := fun m =>
  match x m with
  | .ok _ m =>
    match settle? l m with
    | some (.ok _ m) => .ok () m
    | some (.error e m) => .error e m.unwind
    | none => .error .outOfSteps m.unwind
  | .error e m => .error e m.unwind

def feed (l : Limits) (v : Value) : MachineM Unit := complete l (accept l v)

def perform (l : Limits) (op : Operator) : MachineM Unit := complete l (operate op)

def call (l : Limits) (body : List Value) : MachineM Unit := complete l (enter body)

def reject (l : Limits) (e : Error) (event : Event) : MachineM Unit :=
  -- a lenient run skips the token
  if l.strict then throw e else note event

def feedItem (l : Limits) (i : Item) : MachineM Unit :=
  match i.token with
  | .number x => feed l (.number x)
  | .bool b => feed l (.bool b)
  | .opening => feed l .opening
  | .closing => feed l .closing
  | .name bs =>
    match Operator.ofName? bs with
    | some op => feed l (.operator op)
    | none => reject l (.unknownOperator i.start bs) (.unknownOperator i.start bs)
  | .malformed bs => reject l (.malformedToken i.start bs) (.malformedToken i.start bs)

def feedItems (l : Limits) : List Item → MachineM Unit
  | [] => pure ()
  | i :: is => fun m =>
    match feedItem l i m with
    | .ok _ m => feedItems l is m
    | .error e m => .error e m

/-- Runs a program text. Braces may stay open for the next one. -/
def run (l : Limits) (text : Bytes) : MachineM Unit := do
  feedItems l (tokenize text)
  let depth := (← get).depth
  if 0 < depth then note (.unterminated depth)

end Machine

def evaluateText (l : Limits) (text : Bytes) (s : Stack) : EStateM Error Log Stack := fun log =>
  match Machine.run l text { stack := s, log } with
  | .ok _ m => .ok m.stack m.log
  | .error e m => .error e m.log

end PdfFunctions
