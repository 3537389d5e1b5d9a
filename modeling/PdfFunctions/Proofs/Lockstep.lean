import PdfFunctions.Proofs.BodyCapture
import PdfFunctions.Proofs.OperatorParts

namespace PdfFunctions

section agree

variable {σ α β : Type} {R : σ → σ → Prop} {cut : Error → Prop}

/-- The second result is the first one in a related state. Nothing is said where the first is an
error in `cut`. -/
def Agree (R : σ → σ → Prop) (cut : Error → Prop) (r r' : EStateM.Result Error σ α) : Prop :=
  match r with
  | .ok a s => ∃ t, r' = .ok a t ∧ R s t
  | .error e s => cut e ∨ ∃ t, r' = .error e t ∧ R s t

def Lockstep (R : σ → σ → Prop) (cut : Error → Prop) (x y : EStateM Error σ α) : Prop :=
  ∀ ⦃s t⦄, R s t → Agree R cut (x s) (y t)

namespace Lockstep

theorem pure (a : α) : Lockstep R cut (pure a) (pure a) :=
  fun _ t h => ⟨t, rfl, h⟩

theorem throw (e : Error) : Lockstep (α := α) R cut (throw e) (throw e) :=
  fun _ t h => .inr ⟨t, rfl, h⟩

theorem modify {f g : σ → σ} (h : ∀ ⦃s t⦄, R s t → R (f s) (g t)) :
    Lockstep R cut (modify f) (modify g) :=
  fun _ t hst => ⟨g t, rfl, h hst⟩

theorem bind {x y : EStateM Error σ α} {f g : α → EStateM Error σ β} (hx : Lockstep R cut x y)
    (hf : ∀ a, Lockstep R cut (f a) (g a)) : Lockstep R cut (x >>= f) (y >>= g) := by
  intro s t hst
  have h := hx hst
  cases hxs : x s with
  | ok a s' =>
    rw [hxs] at h
    obtain ⟨t', hy, hst'⟩ := h
    rw [bind_of_ok hxs, bind_of_ok hy]
    exact hf a hst'
  | error e s' =>
    rw [hxs] at h
    rw [bind_of_error hxs]
    rcases h with hcut | ⟨t', hy, hst'⟩
    · exact .inl hcut
    · rw [bind_of_error hy]
      exact .inr ⟨t', rfl, hst'⟩

end Lockstep

end agree

namespace Error

/-- The errors that larger limits can avert. -/
def OfLimit : Error → Prop
  | stackOverflow _ | bodiesTooLarge _ | nestingTooDeep _ => True
  | _ => False

def Averted (b : List Value) (e : Error) : Prop := b ≠ [] ∨ e.OfLimit

end Error

open Error StackM

variable {b : List Value} {k : Nat}

/-- `t` holds what `s` does with the values `b`, the first lowest, underneath. It has room for them
and for `k` values more. -/
structure Stack.Widened (b : List Value) (k : Nat) (s t : Stack) : Prop where
  values : t.values = s.values ++ b.reverse
  limit : t.limit = s.limit + b.length + k
  deferred : t.deferred = s.deferred

namespace Stack.Widened

variable {s t : Stack}

theorem length (h : s.Widened b k t) : t.values.length = s.values.length + b.length := by
  rw [h.values, List.length_append, List.length_reverse]

/-- Values below and room for them leave room where there was some. -/
theorem live_lt (h : s.Widened b k t) (hs : s.live < s.limit) : t.live < t.limit := by
  have hl := h.length
  have hd := h.deferred
  rw [live_eq] at hs ⊢
  rw [h.limit]
  omega

theorem cons (h : s.Widened b k t) (v : Value) : (s.cons v).Widened b k (t.cons v) where
  values := by rw [values_cons, values_cons, h.values, List.cons_append]
  limit := h.limit
  deferred := h.deferred

theorem take (h : s.Widened b k t) {n : Nat} (hn : n ≤ s.values.length) :
    t.values.take n = s.values.take n := by
  rw [h.values, List.take_append_of_le_length hn]

theorem drop (h : s.Widened b k t) {n : Nat} (hn : n ≤ s.values.length) :
    t.values.drop n = s.values.drop n ++ b.reverse := by
  rw [h.values, List.drop_append_of_le_length hn]

/-- Where nothing is below, an underflow stays what it is. -/
theorem agree_underflow {α : Type} (h : s.Widened b k t) {op : String} {n : Nat}
    {r : EStateM.Result Error Stack α} (hr : b = [] → r = .error (t.underflow op n) t) :
    Agree (Widened b k) (Averted b) (.error (s.underflow op n) s) r := by
  by_cases hb : b = []
  · have hl := h.length
    rw [hb, List.length_nil, Nat.add_zero] at hl
    refine .inr ⟨t, ?_, h⟩
    rw [hr hb, Stack.underflow, Stack.underflow, t.size_eq, s.size_eq, hl]
  · exact .inl (.inl hb)

end Stack.Widened

open Braces Stack

namespace StackM

section operations

variable (op : String)

theorem lockstep_push (v : Value) : Lockstep (Widened b k) (Averted b) (push v) (push v) := by
  intro s t h
  by_cases hs : s.live < s.limit
  · rw [push_of_lt hs]
    exact ⟨_, push_of_lt (h.live_lt hs), h.cons v⟩
  · rw [push, if_pos (Nat.le_of_not_lt hs)]
    exact .inl (.inr trivial)

theorem lockstep_pop : Lockstep (Widened b k) (Averted b) (pop op) (pop op) := by
  intro s t h
  cases hs : s.values with
  | nil =>
    rw [pop_of_nil hs]
    refine h.agree_underflow fun hb => pop_of_nil ?_
    rw [h.values, hs, hb]
    rfl
  | cons v vs =>
    have ht : t.values = v :: (vs ++ b.reverse) := by rw [h.values, hs, List.cons_append]
    rw [pop_of_cons hs]
    exact ⟨_, pop_of_cons ht, rfl, h.limit, h.deferred⟩

theorem lockstep_look (n : Nat) : Lockstep (Widened b k) (Averted b) (look op n) (look op n) := by
  intro s t h
  have hl := h.length
  by_cases hn : n ≤ s.values.length
  · rw [look_of_le hn]
    exact ⟨t, by rw [look_of_le (by omega), h.take hn], h⟩
  · rw [look_of_lt (Nat.lt_of_not_le hn)]
    refine h.agree_underflow fun hb => look_of_lt ?_
    rw [hb, List.length_nil] at hl
    omega

theorem lockstep_rearrange (n : Nat) (f : List Value → List Value)
    (hf : ∀ vs, (f vs).length = vs.length) :
    Lockstep (Widened b k) (Averted b) (rearrange op n f hf) (rearrange op n f hf) := by
  intro s t h
  have hl := h.length
  by_cases hn : n ≤ s.values.length
  · have hn' : n ≤ t.values.length := by omega
    rw [rearrange_of_le op hf hn]
    refine ⟨_, rearrange_of_le op hf hn', ?_, h.limit, h.deferred⟩
    simp only [values_holding, h.take hn, h.drop hn, List.append_assoc]
  · rw [rearrange, bind_of_error (require_of_lt (Nat.lt_of_not_le hn))]
    refine h.agree_underflow fun hb => bind_of_error (require_of_lt ?_)
    rw [hb, List.length_nil] at hl
    omega

theorem lockstep_lift : Lockstep (Widened b k) (Averted b) (Body.pop op) (Body.pop op) := by
  intro s t h
  cases hs : s.values with
  | nil =>
    rw [Body.pop, bind_of_error (pop_of_nil hs)]
    refine h.agree_underflow fun hb => bind_of_error (pop_of_nil ?_)
    rw [h.values, hs, hb]
    rfl
  | cons v vs =>
    have ht : t.values = v :: (vs ++ b.reverse) := by rw [h.values, hs, List.cons_append]
    by_cases hv : v = .closing
    · subst hv
      cases hsplit : Body.split 0 [] vs with
      | some p =>
        obtain ⟨w, rest⟩ := p
        -- the brace that matches is found before the values below are reached
        have hsplit' : Body.split 0 [] (vs ++ b.reverse) = some (w, rest ++ b.reverse) := by
          obtain ⟨rfl, hw⟩ := split_eq_some_iff.1 hsplit
          exact split_eq_some_iff.2 ⟨by rw [List.append_assoc, List.cons_append], hw⟩
        rw [Body.pop_of_matched hs hsplit]
        exact ⟨_, Body.pop_of_matched ht hsplit', rfl, h.limit, by simp only [h.deferred]⟩
      | none =>
        rw [Body.pop_of_unmatched hs hsplit]
        by_cases hb : b = []
        · subst hb
          rw [List.reverse_nil, List.append_nil] at ht
          exact .inr ⟨_, Body.pop_of_unmatched ht hsplit, rfl, h.limit, h.deferred⟩
        · exact .inl (.inl hb)
    · rw [Body.pop_of_ne_closing hv hs]
      exact .inr ⟨_, Body.pop_of_ne_closing hv ht, rfl, h.limit, h.deferred⟩

end operations

/-- What the single operations have in common, all sequences of them have. -/
theorem Composed.lockstep {α : Type} {x : StackM α} (hx : Composed x) :
    Lockstep (Widened b k) (Averted b) x x := by
  induction hx with
  | pure a => exact .pure a
  | throw => exact .throw _
  | push v => exact lockstep_push v
  | pop op => exact lockstep_pop op
  | look op n => exact lockstep_look op n
  | rearrange op n f hf => exact lockstep_rearrange op n f hf
  | lift op => exact lockstep_lift op
  | bind _ _ hx hf => exact hx.bind hf

/-- What a limit on the bodies lets in, a larger one lets in. -/
theorem lockstep_defer {n n' : Nat} (hn : n ≤ n') (v : Value) :
    Lockstep (Widened b k) (Averted b) (defer v n) (defer v n') := by
  intro s t h
  by_cases hs : s.deferred < n
  · have ht : t.deferred < n' := by
      rw [h.deferred]
      omega
    rw [defer, defer, if_neg (Nat.not_le.2 hs), if_neg (Nat.not_le.2 ht)]
    refine ⟨_, rfl, ?_, h.limit, by simp only [h.deferred]⟩
    simp [h.values]
  · rw [defer, if_pos (Nat.le_of_not_lt hs)]
    exact .inl (.inr trivial)

end StackM

end PdfFunctions
