import Mathlib
import PdfFunctions.Proofs.PendingBodies

namespace PdfFunctions

open Braces Machine Moment

inductive Operand where
  | plain (v : Value) (h : v.Plain)
  -- a complete body, without its braces
  | body (w : List Value) (h : Balanced w)

namespace Operand

def values : Operand → List Value
  | plain v _ => [v]
  | body w _ => braced w

/-- How many of the values are deferred. The opening brace stands for the whole body. -/
def hidden : Operand → Nat
  | plain _ _ => 0
  | body w _ => w.length + 1

theorem values_length (x : Operand) : x.values.length = x.hidden + 1 := by
  cases x with
  | plain => rfl
  | body w =>
    simp only [values, braced, hidden, List.length_append, List.length_cons, List.length_nil]

end Operand

structure Layout where
  -- the lowest first
  operands : List Operand
  -- what has been read of the open body, if there is one
  unfinished : Option (List Value)

namespace Layout

def values (y : Layout) : List Value :=
  y.operands.flatMap Operand.values ++
    match y.unfinished with
    | none => []
    | some w => .opening :: w

def hidden (y : Layout) : Nat :=
  (y.operands.map Operand.hidden).sum + (y.unfinished.map List.length).getD 0

def count (y : Layout) : Nat := y.operands.length + y.unfinished.toList.length

/-- The stack of `m` is made up as `y` says, and its counts agree. There is an open body exactly
inside two braces or more, and all but two of them were opened in it. -/
structure Describes (y : Layout) (m : Machine) : Prop where
  contents : m.stack.contents = y.values
  unfinished : match y.unfinished with
    | none => m.depth ≤ 1
    | some w => 2 ≤ m.depth ∧ climb 0 w = some (m.depth - 2)
  deferred : m.stack.deferred = y.hidden
  live : m.stack.live = y.count
  room : y.count ≤ m.stack.limit

end Layout

/-- The stack operators handle numbers and booleans only. -/
def handlesPlain : Rule := fun op s _ => ∀ v ∈ Rearrangement.handled op s.values, v.Plain

instance (op : Operator) (s t : Stack) : Decidable (handlesPlain op s t) :=
  inferInstanceAs (Decidable (∀ _ ∈ _, _))

def MadeUp (vs : List Value) (k : Nat) : Prop :=
  ∃ xs : List Operand, vs.reverse = xs.flatMap Operand.values ∧ k = (xs.map Operand.hidden).sum

theorem madeUp_concat {xs : List Operand} (x : Operand) {vs : List Value}
    (h : vs.reverse = xs.flatMap Operand.values) :
    MadeUp (x.values.reverse ++ vs) ((xs.map Operand.hidden).sum + x.hidden) := by
  refine ⟨xs ++ [x], ?_, by simp⟩
  rw [List.reverse_append, List.reverse_reverse, List.flatMap_append, h]
  simp

/-- The operand on top of a stack that is not empty. -/
theorem exists_top_of_madeUp {v : Value} {vs : List Value} {k : Nat} (h : MadeUp (v :: vs) k) :
    ∃ (xs : List Operand) (x : Operand) (b : List Value), v :: vs = x.values.reverse ++ b ∧
      b.reverse = xs.flatMap Operand.values ∧ k = (xs.map Operand.hidden).sum + x.hidden := by
  obtain ⟨xs, hvs, hk⟩ := h
  rcases List.eq_nil_or_concat xs with rfl | ⟨ys, x, rfl⟩
  · simp at hvs
  · refine ⟨ys, x, (ys.flatMap Operand.values).reverse, ?_, List.reverse_reverse _, ?_⟩
    · rw [← List.reverse_append, ← List.reverse_reverse (v :: vs), hvs, List.concat_eq_append,
        List.flatMap_append]
      simp
    · rw [hk]
      simp

theorem madeUp_take {v : Value} {vs : List Value} {k : Nat} (hv : v.Plain)
    (h : MadeUp (v :: vs) k) : MadeUp vs k := by
  obtain ⟨xs, x, b, hvs, hb, hk⟩ := exists_top_of_madeUp h
  cases x with
  | plain u hu =>
    obtain ⟨-, rfl⟩ := List.cons.inj hvs
    exact ⟨xs, hb, hk⟩
  | body w hw =>
    -- a body ends in its closing brace
    have hclosing : v = .closing := by
      simpa [Operand.values, braced] using congrArg List.head? hvs
    exact absurd hv (by simp [hclosing])

/-- The body on top is the one that is lifted: its opening brace is the only one that fits. -/
theorem madeUp_lift {w vs : List Value} {k : Nat} (hw : Balanced w)
    (h : MadeUp (.closing :: (w.reverse ++ .opening :: vs)) k) :
    MadeUp vs (k - (w.length + 1)) := by
  obtain ⟨xs, x, b, hvs, hb, hk⟩ := exists_top_of_madeUp h
  cases x with
  | plain u hu =>
    obtain ⟨rfl, -⟩ := List.cons.inj hvs
    exact absurd hu (by simp)
  | body u hu =>
    have he : w.reverse ++ .opening :: vs = u.reverse ++ .opening :: b := by
      simpa [Operand.values, braced] using hvs
    have hsplit := split_eq_some_iff.2 ⟨he, hu⟩
    rw [split_eq_some_iff.2 ⟨rfl, hw⟩] at hsplit
    obtain ⟨rfl, rfl⟩ := Prod.mk.inj (Option.some.inj hsplit)
    refine ⟨xs, hb, ?_⟩
    rw [hk, Operand.hidden, Nat.add_sub_cancel]

theorem madeUp_put {v : Value} {vs : List Value} {k : Nat} (hv : v.Plain) (h : MadeUp vs k) :
    MadeUp (v :: vs) k := by
  obtain ⟨xs, hvs, rfl⟩ := h
  exact madeUp_concat (.plain v hv) hvs

theorem madeUp_close {w vs : List Value} {k : Nat} (hw : Balanced w) (h : MadeUp vs k) :
    MadeUp (.closing :: (w.reverse ++ .opening :: vs)) (k + (w.length + 1)) := by
  obtain ⟨xs, hvs, rfl⟩ := h
  simpa [Operand.values, braced, Operand.hidden] using madeUp_concat (.body w hw) hvs

theorem stable_madeUp : Stable handlesPlain MadeUp where
  put := madeUp_put
  take := madeUp_take
  close := madeUp_close
  lift := madeUp_lift
  act {op s t u} h hok hs := by
    obtain ⟨p, q, hr, hp, hq⟩ := Operator.effect_act h
    obtain ⟨b, hsv, htv⟩ := hr.values
    rw [hsv] at hs
    rw [htv, hr.deferred]
    have hb := take_all madeUp_take (fun v hv => (hp v hv).elim id fun h => hok v h.2) hs
    exact put_all madeUp_put (fun v hv => (hq v hv).elim id (hok v)) hb

theorem madeUp_numbers (xs : List Float) : MadeUp (xs.map Value.number).reverse 0 := by
  have h : MadeUp [] 0 := ⟨[], rfl, rfl⟩
  have hp : ∀ v ∈ (xs.map Value.number).reverse, v.Plain := by
    intro v hv
    obtain ⟨x, -, rfl⟩ := List.mem_map.1 (List.mem_reverse.1 hv)
    exact Value.plain_number x
  simpa only [List.append_nil] using put_all madeUp_put hp h

theorem length_flatMap_values (xs : List Operand) :
    (xs.flatMap Operand.values).length = (xs.map Operand.hidden).sum + xs.length := by
  induction xs with
  | nil => rfl
  | cons x xs ih =>
    simp only [List.flatMap_cons, List.length_append, x.values_length, ih, List.map_cons,
      List.sum_cons, List.length_cons]
    omega

theorem Layout.length_values (y : Layout) : y.values.length = y.hidden + y.count := by
  obtain ⟨xs, u⟩ := y
  have hxs := length_flatMap_values xs
  cases u with
  | none => simpa [values, hidden, count] using hxs
  | some w =>
    simp only [values, hidden, count, List.length_append, hxs, List.length_cons, Option.map_some,
      Option.getD_some, Option.toList_some, List.length_nil]
    omega

theorem exists_describes {m : Machine} (h : Pending MadeUp (m.depth - 1) m.stack) {n : Nat}
    (hroom : m.stack.Within n) : ∃ y : Layout, y.Describes m := by
  obtain ⟨y, hc, hu, hd⟩ : ∃ y : Layout, m.stack.contents = y.values ∧
      (match y.unfinished with
        | none => m.depth ≤ 1
        | some w => 2 ≤ m.depth ∧ climb 0 w = some (m.depth - 2)) ∧
      m.stack.deferred = y.hidden := by
    cases hn : m.depth - 1 with
    | zero =>
      rw [hn] at h
      obtain ⟨xs, hvs, hk⟩ := h
      have hd : m.depth ≤ 1 := by omega
      exact ⟨⟨xs, none⟩, by simpa [Layout.values, Stack.contents] using hvs, hd, hk⟩
    | succ n =>
      rw [hn] at h
      -- above the operands lies what has been read of the open body
      obtain ⟨w, vs, k, hw, hs, hk, xs, hvs, rfl⟩ := h
      refine ⟨⟨xs, some w⟩, ?_, ⟨by omega, ?_⟩, hk⟩
      · rw [Stack.contents, hs, Layout.values, ← hvs]
        simp
      · rw [hw, show m.depth - 2 = n by omega]
  have hlive : m.stack.live = y.count := by
    have hl := congrArg List.length hc
    rw [y.length_values, Stack.contents, List.length_reverse] at hl
    rw [Stack.live_eq, hl, hd, Nat.add_sub_cancel_left]
  exact ⟨y, hc, hu, hd, hlive, hlive ▸ hroom.1.symm ▸ hroom.2⟩

/-- At every moment up to which the stack operators have handled plain values only. -/
theorem exists_layout {l : Limits} {text : Bytes} {limit : Nat} {xs : List Float} {s : Stack}
    {log : Log} {μ : Moment} (hs : Stack.ofNumbers limit xs = .ok s)
    (h : Reaches l handlesPlain (start { stack := s, log } text) μ) :
    ∃ y : Layout, y.Describes μ.machine := by
  obtain ⟨hv, hl, hd, hroom⟩ := Stack.of_ofNumbers hs
  refine exists_describes (pending_of_reaches stable_madeUp h rfl ?_)
    (within_of_reaches h rfl ⟨hl, hl ▸ hroom⟩)
  change MadeUp s.values s.deferred
  rw [hv, hd]
  exact madeUp_numbers xs

/-- Inside an open body of a running one. -/
theorem exists_layout_in_call : ∃ s μ, Stack.ofNumbers 3 [1] = .ok s ∧
    Reaches {} handlesPlain (start { stack := s }
      (Bytes.ofText "\x7b true \x7b dup pop \x7b false \x7d pop \x7d if \x7d")) μ ∧
    (μ.machine.calls.length, μ.machine.depth) = (1, 2) ∧ ∃ y : Layout, y.Describes μ.machine := by
  have hs : Stack.ofNumbers 3 [1] = .ok { limit := 3, values := [.number 1] } := rfl
  have hrun : (after {} handlesPlain 15 (start { stack := { limit := 3, values := [.number 1] } }
      (Bytes.ofText "\x7b true \x7b dup pop \x7b false \x7d pop \x7d if \x7d"))).map
      (fun μ => (μ.machine.calls.length, μ.machine.depth)) = some (1, 2) := by decide +kernel
  obtain ⟨μ, hμ, hd⟩ := Option.map_eq_some_iff.1 hrun
  have hr := reaches_of_after hμ
  exact ⟨_, μ, hs, hr, hd, exists_layout hs hr⟩

end PdfFunctions
