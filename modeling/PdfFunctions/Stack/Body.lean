import PdfFunctions.Stack

namespace PdfFunctions.Body

open StackM

/-- Splits the values below a closing brace at the matching opening one: the body in its own
order, and the rest. `depth` closing braces are still unmatched and `body` is what was passed. -/
def split : Nat → List Value → List Value → Option (List Value × List Value)
  | _, _, [] => none
  | 0, body, .opening :: rest => some (body, rest)
  | depth + 1, body, .opening :: rest => split depth (.opening :: body) rest
  | depth, body, .closing :: rest => split (depth + 1) (.closing :: body) rest
  | depth, body, v :: rest => split depth (v :: body) rest

theorem split_length {depth : Nat} {passed vs body rest : List Value}
    (h : split depth passed vs = some (body, rest)) :
    body.length + rest.length + 1 = passed.length + vs.length := by
  fun_induction split depth passed vs <;> simp_all <;> omega

/-- Takes a body off the stack. Its values are no longer deferred; the opening brace never was.
Where no brace matches, nothing is left. -/
def pop (op : String) : StackM (List Value) := do
  match ← StackM.pop op with
  | .closing => fun s =>
    match h : split 0 [] s.values with
    | some (body, rest) =>
      let taken := body.length + 1
      .ok body { s with
        values := rest
        size := s.size - taken
        deferred := s.deferred - taken
        size_eq := by have := split_length h; simp only [List.length_nil] at this; grind [s.size_eq] }
    | none =>
      let s := { s with values := [], size := 0, size_eq := rfl }
      .error (s.underflow op 1) s
  | v => throw (.typeMismatch "procedure" v.typeName)

end PdfFunctions.Body
