import Mathlib.Data.List.Induction
import PdfFunctions.Stack.Body

namespace PdfFunctions.Braces

def level (d : Nat) : Value → Option Nat
  | .opening => some (d + 1)
  | .closing => if d = 0 then none else some (d - 1)
  | _ => some d

/-- The brace depth after `w`, which never closes a brace it has not opened above depth 0. -/
def climb (d : Nat) (w : List Value) : Option Nat := w.foldlM level d

/-- As many closing braces as opening ones, and in no prefix more closing than opening ones. -/
def Balanced (w : List Value) : Prop := climb 0 w = some 0

/-- The brace depth after one value, where a closing brace without an open one is ignored. -/
def depthAfter (d : Nat) : Value → Nat
  | .opening => d + 1
  | .closing => d - 1
  | _ => d

/-- The greatest brace depth from `d` on. -/
def nesting (d : Nat) : List Value → Nat
  | [] => d
  | v :: w => max d (nesting (depthAfter d v) w)

def braced (w : List Value) : List Value := .opening :: (w ++ [.closing])

@[simp] theorem climb_nil (d : Nat) : climb d [] = some d := rfl

theorem climb_cons (d : Nat) (v : Value) (w : List Value) :
    climb d (v :: w) = (level d v).bind fun e => climb e w := rfl

theorem climb_append (d : Nat) (u w : List Value) :
    climb d (u ++ w) = (climb d u).bind fun e => climb e w := by
  simp only [climb, List.foldlM_append]
  rfl

theorem climb_append_eq_some {d e : Nat} {u w : List Value} :
    climb d (u ++ w) = some e ↔ ∃ k, climb d u = some k ∧ climb k w = some e := by
  rw [climb_append, Option.bind_eq_some_iff]

theorem climb_cons_eq_some {d e : Nat} {v : Value} {w : List Value} :
    climb d (v :: w) = some e ↔ ∃ k, level d v = some k ∧ climb k w = some e := by
  rw [climb_cons, Option.bind_eq_some_iff]

theorem climb_concat_eq_some {d e : Nat} {v : Value} {w : List Value} :
    climb d (w ++ [v]) = some e ↔ ∃ k, climb d w = some k ∧ level k v = some e := by
  simp only [climb_append_eq_some, climb_cons_eq_some, climb_nil, Option.some.injEq,
    exists_eq_right]

theorem level_of_ne (d : Nat) {v : Value} (ho : v ≠ .opening) (hc : v ≠ .closing) :
    level d v = some d := by
  cases v with
  | opening => exact absurd rfl ho
  | closing => exact absurd rfl hc
  | _ => rfl

theorem level_shift {d e : Nat} {v : Value} (h : level d v = some e) (k : Nat) :
    level (d + k) v = some (e + k) := by
  cases v with
  | opening => simp only [level, Option.some.injEq] at h ⊢; omega
  | closing =>
    simp only [level, Option.ite_none_left_eq_some, Option.some.injEq] at h ⊢
    omega
  | _ => simp only [level, Option.some.injEq] at h ⊢; omega

theorem climb_shift {d e : Nat} {w : List Value} (h : climb d w = some e) (k : Nat) :
    climb (d + k) w = some (e + k) := by
  induction w generalizing d with
  | nil => simp only [climb_nil, Option.some.injEq] at h ⊢; omega
  | cons v w ih =>
    obtain ⟨c, hv, hw⟩ := climb_cons_eq_some.1 h
    exact climb_cons_eq_some.2 ⟨c + k, level_shift hv k, ih hw⟩

theorem depthAfter_of_level {d e : Nat} {v : Value} (h : level d v = some e) :
    depthAfter d v = e := by
  cases v with
  | closing =>
    simp only [level, Option.ite_none_left_eq_some, Option.some.injEq] at h
    exact h.2
  | _ => simpa only [level, depthAfter, Option.some.injEq] using h

theorem foldl_depthAfter {d e : Nat} {w : List Value} (h : climb d w = some e) :
    w.foldl depthAfter d = e := by
  induction w generalizing d with
  | nil => exact Option.some.inj h
  | cons v w ih =>
    obtain ⟨k, hv, hw⟩ := climb_cons_eq_some.1 h
    rw [List.foldl_cons, depthAfter_of_level hv, ih hw]

theorem balanced_braced {w : List Value} (h : Balanced w) : Balanced (braced w) :=
  climb_cons_eq_some.2 ⟨1, rfl, climb_concat_eq_some.2 ⟨1, climb_shift h 1, rfl⟩⟩

theorem balanced_append {u w : List Value} (hu : Balanced u) (hw : Balanced w) :
    Balanced (u ++ w) := climb_append_eq_some.2 ⟨0, hu, hw⟩

theorem balanced_cons {v : Value} {w : List Value} (hv : level 0 v = some 0) (hw : Balanced w) :
    Balanced (v :: w) := climb_cons_eq_some.2 ⟨0, hv, hw⟩

/-- Where braces are open, what follows the last opening one is balanced. -/
theorem exists_last_open {d : Nat} {u : List Value} (h : climb 0 u = some (d + 1)) :
    ∃ u₁ w, u = u₁ ++ .opening :: w ∧ climb 0 u₁ = some d ∧ Balanced w := by
  induction hn : u.length using Nat.strongRecOn generalizing u d with
  | _ n ih =>
    rcases List.eq_nil_or_concat u with rfl | ⟨x, v, rfl⟩
    · simp at h
    · rw [List.concat_eq_append] at h hn ⊢
      rw [List.length_append, List.length_singleton] at hn
      obtain ⟨k, hx, hv⟩ := climb_concat_eq_some.1 h
      cases v with
      | opening =>
        obtain rfl : k = d := by simpa only [level, Option.some.injEq, Nat.add_right_cancel_iff] using hv
        exact ⟨x, [], rfl, hx, rfl⟩
      | closing =>
        obtain rfl : k = d + 2 := by
          simp only [level, Option.ite_none_left_eq_some, Option.some.injEq] at hv
          omega
        -- the closing brace answers the last opening one, and the one before that is open
        obtain ⟨y, w', rfl, hy, hw'⟩ := ih x.length (by omega) hx rfl
        rw [List.length_append, List.length_cons] at hn
        obtain ⟨u₁, w, rfl, hu₁, hw⟩ := ih y.length (by omega) hy rfl
        exact ⟨u₁, w ++ braced w', by simp [braced], hu₁,
          balanced_append hw (balanced_braced hw')⟩
      | _ =>
        obtain rfl : k = d + 1 := Option.some.inj hv
        obtain ⟨u₁, w, rfl, hu₁, hw⟩ := ih x.length (by omega) hx rfl
        exact ⟨u₁, w ++ [_], List.append_assoc u₁ (.opening :: w) [_], hu₁,
          climb_concat_eq_some.2 ⟨0, hw, rfl⟩⟩

theorem le_nesting (d : Nat) (w : List Value) : d ≤ nesting d w := by
  cases w with
  | nil => exact Nat.le_refl d
  | cons v w => exact Nat.le_max_left _ _

theorem depthAfter_le_nesting (d : Nat) (v : Value) (w : List Value) :
    nesting (depthAfter d v) w ≤ nesting d (v :: w) := Nat.le_max_right _ _

theorem depthAfter_mono {d e : Nat} (h : d ≤ e) (v : Value) : depthAfter d v ≤ depthAfter e v := by
  cases v <;> simp only [depthAfter] <;> omega

theorem nesting_mono {d e : Nat} (h : d ≤ e) (w : List Value) : nesting d w ≤ nesting e w := by
  induction w generalizing d e with
  | nil => exact h
  | cons v w ih =>
    have hw := ih (depthAfter_mono h v)
    simp only [nesting]
    omega

theorem foldl_depthAfter_le_nesting (d : Nat) (w : List Value) :
    w.foldl depthAfter d ≤ nesting d w := by
  induction w generalizing d with
  | nil => exact Nat.le_refl d
  | cons v w ih => exact Nat.le_trans (ih (depthAfter d v)) (depthAfter_le_nesting d v w)

theorem nesting_append (d : Nat) (u w : List Value) :
    nesting d (u ++ w) = max (nesting d u) (nesting (u.foldl depthAfter d) w) := by
  induction u generalizing d with
  | nil =>
    have := le_nesting d w
    simp only [List.nil_append, nesting, List.foldl_nil]
    omega
  | cons v u ih => simp only [List.cons_append, nesting, ih, List.foldl_cons, Nat.max_assoc]

/-- Balanced values leave the depth for what follows. -/
theorem nesting_append_of_balanced (d : Nat) {u : List Value} (hu : Balanced u) (w : List Value) :
    nesting d (u ++ w) = max (nesting d u) (nesting d w) := by
  have h := climb_shift hu d
  rw [Nat.zero_add] at h
  rw [nesting_append, foldl_depthAfter h]

theorem nesting_le_braced (d : Nat) (w : List Value) : nesting (d + 1) w ≤ nesting d (braced w) := by
  have h := depthAfter_le_nesting d .opening (w ++ [.closing])
  rw [depthAfter, nesting_append] at h
  exact Nat.le_trans (Nat.le_max_left _ _) h

theorem nesting_shift {d e : Nat} {w : List Value} (h : climb d w = some e) (k : Nat) :
    nesting (d + k) w = nesting d w + k := by
  induction w generalizing d with
  | nil => rfl
  | cons v w ih =>
    obtain ⟨c, hv, hw⟩ := climb_cons_eq_some.1 h
    simp only [nesting, depthAfter_of_level hv, depthAfter_of_level (level_shift hv k), ih hw]
    omega

/-- The scan down from a closing brace passes whatever leaves its count of open braces above
zero, so it stops at the first opening brace that no passed closing brace answers. -/
theorem split_reverse_append {d : Nat} {u : List Value} (hu : climb 0 u = some d)
    (passed rest : List Value) :
    Body.split d passed (u.reverse ++ .opening :: rest) = some (u ++ passed, rest) := by
  induction u using List.reverseRecOn generalizing d passed with
  | nil =>
    obtain rfl : 0 = d := Option.some.inj hu
    simp only [List.reverse_nil, List.nil_append, Body.split]
  | append_singleton u v ih =>
    -- the scan goes down the stack, so it meets the last value of `u` first
    obtain ⟨k, hk, hv⟩ := climb_concat_eq_some.1 hu
    have hs := ih hk (v :: passed)
    rw [List.append_assoc, List.reverse_append, List.append_assoc]
    change Body.split d passed (v :: (u.reverse ++ .opening :: rest)) = some (u ++ v :: passed, rest)
    cases v with
    | opening =>
      obtain rfl : k + 1 = d := Option.some.inj hv
      simpa only [Body.split] using hs
    | closing =>
      simp only [level, Option.ite_none_left_eq_some, Option.some.injEq] at hv
      obtain rfl : k = d + 1 := by omega
      simpa only [Body.split] using hs
    | _ =>
      obtain rfl : k = d := Option.some.inj hv
      simpa only [Body.split] using hs

theorem exists_of_split_eq_some {d : Nat} {passed vs body rest : List Value}
    (h : Body.split d passed vs = some (body, rest)) :
    ∃ u, climb 0 u = some d ∧ vs = u.reverse ++ .opening :: rest ∧ body = u ++ passed := by
  fun_induction Body.split d passed vs with
  | case1 => simp at h
  | case2 passed rest' =>
    obtain ⟨rfl, rfl⟩ := Prod.mk.inj (Option.some.inj h)
    exact ⟨[], rfl, rfl, rfl⟩
  | case3 d passed vs ih =>
    obtain ⟨u, hu, rfl, rfl⟩ := ih h
    exact ⟨u ++ [.opening], climb_concat_eq_some.2 ⟨d, hu, rfl⟩, by simp, by simp⟩
  | case4 d passed vs ih =>
    obtain ⟨u, hu, rfl, rfl⟩ := ih h
    exact ⟨u ++ [.closing], climb_concat_eq_some.2 ⟨d + 1, hu, by simp [level]⟩, by simp, by simp⟩
  | case5 d passed v vs hzero hsucc hc ih =>
    obtain ⟨u, hu, rfl, rfl⟩ := ih h
    -- an opening brace ends the scan at depth zero and is counted above
    have ho : v ≠ .opening := by cases d with
      | zero => exact hzero rfl
      | succ d => exact hsucc d rfl
    exact ⟨u ++ [v], climb_concat_eq_some.2 ⟨d, hu, level_of_ne d ho hc⟩, by simp, by simp⟩

theorem split_eq_some_iff {vs w rest : List Value} :
    Body.split 0 [] vs = some (w, rest) ↔ vs = w.reverse ++ .opening :: rest ∧ Balanced w := by
  constructor
  · intro h
    obtain ⟨u, hu, rfl, rfl⟩ := exists_of_split_eq_some h
    rw [List.append_nil]
    exact ⟨rfl, hu⟩
  · rintro ⟨rfl, hw⟩
    rw [split_reverse_append hw, List.append_nil]

end PdfFunctions.Braces
