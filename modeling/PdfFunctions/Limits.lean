namespace PdfFunctions

structure Limits where
  maxStack : Nat := 100
  -- most values of pending bodies that the stack holds, opening braces apart
  maxBodies : Nat := 65536
  maxNesting : Nat := 64
  -- a malformed token or an unknown name is an error, and is skipped otherwise
  strict : Bool := false
deriving DecidableEq

namespace Limits

inductive Fault where
  | zeroStack | zeroBodies | zeroNesting
deriving DecidableEq

def Fault.message : Fault → String
  | zeroStack => "max_stack_depth must be at least 1"
  | zeroBodies => "max_procedure_size must be at least 1"
  | zeroNesting => "max_nesting must be at least 1"

def withStrict (l : Limits) (strict : Bool) : Limits := { l with strict }

def withMaxStack (l : Limits) (n : Nat) : Except Fault Limits :=
  if n = 0 then .error .zeroStack else .ok { l with maxStack := n }

def withMaxBodies (l : Limits) (n : Nat) : Except Fault Limits :=
  if n = 0 then .error .zeroBodies else .ok { l with maxBodies := n }

def withMaxNesting (l : Limits) (n : Nat) : Except Fault Limits :=
  if n = 0 then .error .zeroNesting else .ok { l with maxNesting := n }

def of (maxStack maxNesting : Nat) (strict : Bool) : Except Fault Limits := do
  let l ← ({ strict } : Limits).withMaxStack maxStack
  l.withMaxNesting maxNesting

end Limits

end PdfFunctions
