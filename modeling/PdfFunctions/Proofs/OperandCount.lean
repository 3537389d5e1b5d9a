import PdfFunctions.Proofs.PendingBodies

namespace PdfFunctions

open Braces

/-- The operands on a stack, the top first. A complete body is one, and so is any other value. -/
def operandCount : List Value → Nat
  | [] => 0
  | .closing :: vs =>
    match _h : Body.split 0 [] vs with
    | some (_, rest) => operandCount rest + 1
    | none => operandCount vs + 1
  | _ :: vs => operandCount vs + 1
termination_by vs => vs.length
decreasing_by
  · have := Body.split_length _h
    simp only [List.length_nil, List.length_cons] at this ⊢
    omega
  all_goals simp

/-- What is below the `n` innermost open bodies. -/
def outside : Nat → List Value → List Value
  | 0, vs => vs
  | _ + 1, [] => []
  | n + 1, .opening :: vs => outside n vs
  | n + 1, .closing :: vs => outside (n + 2) vs
  | n + 1, _ :: vs => outside (n + 1) vs

def Machine.operands (m : Machine) : Nat :=
  operandCount (outside (m.depth - 1) m.stack.values) + if 2 ≤ m.depth then 1 else 0

/-- The braces of the open body are passed from the innermost one out. -/
theorem outside_append {c d : Nat} {w : List Value} (hw : climb c w = some d) (vs : List Value) :
    outside (d + 1) (w.reverse ++ vs) = outside (c + 1) vs := by
  -- the stack holds the word reversed, so the count meets its last value first
  induction w using List.reverseRecOn generalizing d with
  | nil =>
    obtain rfl : c = d := Option.some.inj hw
    rfl
  | append_singleton w v ih =>
    obtain ⟨k, hk, hv⟩ := climb_concat_eq_some.1 hw
    rw [List.reverse_append, List.append_assoc, ← ih hk]
    cases v with
    | opening =>
      obtain rfl : k + 1 = d := Option.some.inj hv
      rfl
    | closing =>
      simp only [level, Option.ite_none_left_eq_some, Option.some.injEq] at hv
      obtain rfl : k = d + 1 := by omega
      rfl
    | _ =>
      obtain rfl : k = d := Option.some.inj hv
      rfl

/-- The values of complete bodies, their opening braces left out. -/
def inside (vs : List Value) : Nat := vs.length - operandCount vs

theorem operandCount_cons {v : Value} (hv : v ≠ .closing) (vs : List Value) :
    operandCount (v :: vs) = operandCount vs + 1 := by
  cases v with
  | closing => exact absurd rfl hv
  | _ => simp [operandCount]

theorem operandCount_body {w : List Value} (hw : Balanced w) (vs : List Value) :
    operandCount (.closing :: (w.reverse ++ .opening :: vs)) = operandCount vs + 1 := by
  have hsplit : Body.split 0 [] (w.reverse ++ .opening :: vs) = some (w, vs) :=
    split_eq_some_iff.2 ⟨rfl, hw⟩
  rw [operandCount]
  split
  · rename_i u rest hu
    rw [hsplit] at hu
    obtain ⟨rfl, rfl⟩ := Prod.mk.inj (Option.some.inj hu)
    rfl
  · rename_i hu
    simp [hsplit] at hu

theorem operandCount_le_length (vs : List Value) : operandCount vs ≤ vs.length := by
  fun_induction operandCount vs with
  | case1 => exact Nat.le_refl 0
  | case2 vs u rest hsplit ih =>
    have := Body.split_length hsplit
    simp only [List.length_nil, List.length_cons] at this ⊢
    omega
  | case3 vs hsplit ih =>
    simp only [List.length_cons]
    omega
  | case4 v vs hv ih =>
    simp only [List.length_cons]
    omega

theorem operandCount_add_inside (vs : List Value) :
    operandCount vs + inside vs = vs.length :=
  Nat.add_sub_of_le (operandCount_le_length vs)

/-- Values that close no brace outside leave the operands below what they are. -/
theorem operandCount_le_append {d : Nat} {w : List Value} (hw : climb 0 w = some d)
    (vs : List Value) : operandCount vs ≤ operandCount (w.reverse ++ vs) := by
  induction hn : w.length using Nat.strongRecOn generalizing w d with
  | _ n ih =>
    rcases List.eq_nil_or_concat w with rfl | ⟨u, v, rfl⟩
    · exact Nat.le_refl _
    · rw [List.concat_eq_append] at hw hn ⊢
      rw [List.length_append, List.length_singleton] at hn
      rw [List.reverse_append, List.append_assoc]
      obtain ⟨k, hu, hv⟩ := climb_concat_eq_some.1 hw
      by_cases hc : v = .closing
      · subst hc
        -- the brace and the body that it closes count as one operand
        obtain ⟨e, rfl⟩ : ∃ e, k = e + 1 := by
          simp only [level, Option.ite_none_left_eq_some] at hv
          exact ⟨k - 1, by omega⟩
        obtain ⟨u₁, w', rfl, hu₁, hw'⟩ := exists_last_open hu
        have hle := ih u₁.length (by simp at hn; omega) hu₁ rfl
        have hbody := operandCount_body hw' (u₁.reverse ++ vs)
        simp only [List.reverse_append, List.reverse_cons, List.append_assoc, List.reverse_nil,
          List.nil_append, List.cons_append] at hbody ⊢
        omega
      · have hle := ih u.length (by omega) hu rfl
        have hcons := operandCount_cons hc (u.reverse ++ vs)
        simp only [List.reverse_singleton, List.singleton_append]
        omega

theorem inside_cons {v : Value} (hv : v ≠ .closing) (vs : List Value) :
    inside (v :: vs) = inside vs := by
  rw [inside, inside, operandCount_cons hv, List.length_cons, Nat.add_sub_add_right]

theorem inside_cons_plain {v : Value} (hv : v.Plain) (vs : List Value) :
    inside (v :: vs) = inside vs :=
  inside_cons (by rintro rfl; simp at hv) vs

theorem inside_append_plain {p : List Value} (hp : ∀ v ∈ p, v.Plain) (vs : List Value) :
    inside (p ++ vs) = inside vs := by
  induction p with
  | nil => rfl
  | cons v p ih =>
    obtain ⟨hv, hp⟩ := List.forall_mem_cons.1 hp
    rw [List.cons_append, inside_cons_plain hv, ih hp]

theorem inside_body {w : List Value} (hw : Balanced w) (vs : List Value) :
    inside (.closing :: (w.reverse ++ .opening :: vs)) = inside vs + (w.length + 1) := by
  have hle := operandCount_le_length vs
  rw [inside, inside, operandCount_body hw]
  simp only [List.length_cons, List.length_append, List.length_reverse]
  omega

/-- No value on top takes values out of bodies. -/
theorem inside_le_cons (v : Value) (vs : List Value) : inside vs ≤ inside (v :: vs) := by
  by_cases hv : v = .closing
  · subst hv
    cases hsplit : Body.split 0 [] vs with
    | some p =>
      obtain ⟨w, rest⟩ := p
      obtain ⟨rfl, hw⟩ := split_eq_some_iff.1 hsplit
      have hle := operandCount_le_append hw (.opening :: rest)
      rw [operandCount_cons (by simp)] at hle
      have hlen := operandCount_le_length rest
      rw [inside_body hw, inside, inside]
      simp only [List.length_append, List.length_cons, List.length_reverse]
      omega
    | none =>
      -- a brace that closes nothing is an operand of its own
      have hcount : operandCount (.closing :: vs) = operandCount vs + 1 := by
        rw [operandCount]
        split
        · rename_i h
          simp [hsplit] at h
        · rfl
      have hinside : inside (.closing :: vs) = inside vs := by
        rw [inside, inside, hcount, List.length_cons, Nat.add_sub_add_right]
      exact Nat.le_of_eq hinside.symm
  · exact Nat.le_of_eq (inside_cons hv vs).symm

theorem inside_le_append (q vs : List Value) : inside vs ≤ inside (q ++ vs) := by
  induction q with
  | nil => exact Nat.le_refl _
  | cons v q ih => exact Nat.le_trans ih (inside_le_cons v (q ++ vs))

end PdfFunctions
