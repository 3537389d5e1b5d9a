import PdfFunctions.Bytes

namespace PdfFunctions

inductive Operator where
  | add | sub | mul | div | idiv | mod | neg | abs | ceiling | floor | round | truncate
  | sqrt | sin | cos | atan | exp | ln | log | cvi | cvr
  | eq | ne | gt | ge | lt | le
  | and | or | xor | not | bitshift
  | dup | pop | exch | copy | index | roll
  | runIf | runIfElse | pushTrue | pushFalse
deriving DecidableEq

namespace Operator

inductive Category where
  | arithmetic | comparison | boolean | stackManipulation | control
deriving DecidableEq

/-- What kind of values an operator leaves. -/
inductive Result where
  | number | boolean | sameAsOperands | operands | procedure
deriving DecidableEq

/-- A row of the operator table. Where the counts depend on the operands, `varies` is set and
`inputs` is the least number of them. -/
structure Entry where
  name : String
  category : Category
  inputs : Nat
  outputs : Nat
  varies : Bool
  result : Result
deriving DecidableEq

def entry : Operator → Entry
  | add => ⟨"add", .arithmetic, 2, 1, false, .number⟩
  | sub => ⟨"sub", .arithmetic, 2, 1, false, .number⟩
  | mul => ⟨"mul", .arithmetic, 2, 1, false, .number⟩
  | div => ⟨"div", .arithmetic, 2, 1, false, .number⟩
  | idiv => ⟨"idiv", .arithmetic, 2, 1, false, .number⟩
  | mod => ⟨"mod", .arithmetic, 2, 1, false, .number⟩
  | neg => ⟨"neg", .arithmetic, 1, 1, false, .number⟩
  | abs => ⟨"abs", .arithmetic, 1, 1, false, .number⟩
  | ceiling => ⟨"ceiling", .arithmetic, 1, 1, false, .number⟩
  | floor => ⟨"floor", .arithmetic, 1, 1, false, .number⟩
  | round => ⟨"round", .arithmetic, 1, 1, false, .number⟩
  | truncate => ⟨"truncate", .arithmetic, 1, 1, false, .number⟩
  | sqrt => ⟨"sqrt", .arithmetic, 1, 1, false, .number⟩
  | sin => ⟨"sin", .arithmetic, 1, 1, false, .number⟩
  | cos => ⟨"cos", .arithmetic, 1, 1, false, .number⟩
  | atan => ⟨"atan", .arithmetic, 2, 1, false, .number⟩
  | exp => ⟨"exp", .arithmetic, 2, 1, false, .number⟩
  | ln => ⟨"ln", .arithmetic, 1, 1, false, .number⟩
  | log => ⟨"log", .arithmetic, 1, 1, false, .number⟩
  | cvi => ⟨"cvi", .arithmetic, 1, 1, false, .number⟩
  | cvr => ⟨"cvr", .arithmetic, 1, 1, false, .number⟩
  | eq => ⟨"eq", .comparison, 2, 1, false, .boolean⟩
  | ne => ⟨"ne", .comparison, 2, 1, false, .boolean⟩
  | gt => ⟨"gt", .comparison, 2, 1, false, .boolean⟩
  | ge => ⟨"ge", .comparison, 2, 1, false, .boolean⟩
  | lt => ⟨"lt", .comparison, 2, 1, false, .boolean⟩
  | le => ⟨"le", .comparison, 2, 1, false, .boolean⟩
  | and => ⟨"and", .boolean, 2, 1, false, .sameAsOperands⟩
  | or => ⟨"or", .boolean, 2, 1, false, .sameAsOperands⟩
  | xor => ⟨"xor", .boolean, 2, 1, false, .sameAsOperands⟩
  | not => ⟨"not", .boolean, 1, 1, false, .sameAsOperands⟩
  | bitshift => ⟨"bitshift", .boolean, 2, 1, false, .number⟩
  | dup => ⟨"dup", .stackManipulation, 1, 2, false, .operands⟩
  | pop => ⟨"pop", .stackManipulation, 1, 0, false, .operands⟩
  | exch => ⟨"exch", .stackManipulation, 2, 2, false, .operands⟩
  | copy => ⟨"copy", .stackManipulation, 1, 0, true, .operands⟩
  | index => ⟨"index", .stackManipulation, 1, 0, true, .operands⟩
  | roll => ⟨"roll", .stackManipulation, 2, 0, true, .operands⟩
  | runIf => ⟨"if", .control, 2, 0, true, .procedure⟩
  | runIfElse => ⟨"ifelse", .control, 3, 0, true, .procedure⟩
  | pushTrue => ⟨"true", .control, 0, 1, false, .boolean⟩
  | pushFalse => ⟨"false", .control, 0, 1, false, .boolean⟩

def name (op : Operator) : String := op.entry.name
def category (op : Operator) : Category := op.entry.category
def inputs (op : Operator) : Nat := op.entry.inputs

def all : List Operator :=
  [add, sub, mul, div, idiv, mod, neg, abs, ceiling, floor, round, truncate,
    sqrt, sin, cos, atan, exp, ln, log, cvi, cvr,
    eq, ne, gt, ge, lt, le,
    and, or, xor, not, bitshift,
    dup, pop, exch, copy, index, roll,
    runIf, runIfElse, pushTrue, pushFalse]

def place (op : Operator) : Nat := all.idxOf op

def spellings : List (Bytes × Operator) :=
  all.map fun op => (op.name.toList.map Char.toUInt8, op)

def ofName? (bs : Bytes) : Option Operator := spellings.lookup bs

end Operator

end PdfFunctions
