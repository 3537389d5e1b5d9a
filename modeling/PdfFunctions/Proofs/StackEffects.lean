import PdfFunctions.Machine
import PdfFunctions.Proofs.Outcome

namespace PdfFunctions

namespace Value

/-- Numbers and booleans, as opposed to the values of pending bodies. -/
def Plain (v : Value) : Prop := v.isCode = false

instance (v : Value) : Decidable v.Plain := inferInstanceAs (Decidable (_ = _))

@[simp] theorem plain_number (x : Float) : (number x).Plain := rfl
@[simp] theorem plain_bool (b : Bool) : (bool b).Plain := rfl
@[simp] theorem not_plain_operator (op : Operator) : ¬ (operator op).Plain := Bool.noConfusion
@[simp] theorem not_plain_opening : ¬ opening.Plain := Bool.noConfusion
@[simp] theorem not_plain_closing : ¬ closing.Plain := Bool.noConfusion

theorem getNumber_eq_ok {v : Value} {x : Float} : v.getNumber = .ok x ↔ v = .number x := by
  cases v <;> simp [getNumber]

theorem getBool_eq_ok {v : Value} {b : Bool} : v.getBool = .ok b ↔ v = .bool b := by
  cases v <;> simp [getBool]

end Value

namespace Stack

theorem ext {s t : Stack} (hv : s.values = t.values) (hl : s.limit = t.limit)
    (hd : s.deferred = t.deferred) : s = t := by
  obtain ⟨vs, n, l, d, hs⟩ := s
  obtain ⟨ws, k, l', d', ht⟩ := t
  subst hs ht hv hl hd
  rfl

@[simp] theorem values_cons (s : Stack) (v : Value) : (s.cons v).values = v :: s.values := rfl
@[simp] theorem limit_cons (s : Stack) (v : Value) : (s.cons v).limit = s.limit := rfl
@[simp] theorem deferred_cons (s : Stack) (v : Value) : (s.cons v).deferred = s.deferred := rfl

def holding (s : Stack) (vs : List Value) : Stack where
  values := vs
  limit := s.limit
  deferred := s.deferred

@[simp] theorem values_holding (s : Stack) (vs : List Value) : (s.holding vs).values = vs := rfl
@[simp] theorem limit_holding (s : Stack) (vs : List Value) : (s.holding vs).limit = s.limit := rfl
@[simp] theorem deferred_holding (s : Stack) (vs : List Value) :
    (s.holding vs).deferred = s.deferred := rfl

theorem live_eq (s : Stack) : s.live = s.values.length - s.deferred := by
  rw [live, s.size_eq]

/-- The values `p` on top of `s` have given way to `q`. -/
structure Replaced (p q : List Value) (s t : Stack) : Prop where
  values : ∃ b, s.values = p ++ b ∧ t.values = q ++ b
  limit : t.limit = s.limit
  deferred : t.deferred = s.deferred
  room : s.live ≤ s.limit → t.live ≤ t.limit

theorem Replaced.rfl (s : Stack) : Replaced [] [] s s :=
  ⟨⟨s.values, by simp, by simp⟩, by simp, by simp, id⟩

theorem Replaced.taken {p : List Value} {s t : Stack} (hs : s.values = p ++ t.values)
    (hl : t.limit = s.limit) (hd : t.deferred = s.deferred) : Replaced p [] s t := by
  refine ⟨⟨t.values, hs, (List.nil_append _).symm⟩, hl, hd, fun hlive => ?_⟩
  -- the live count may stay at zero, but it never grows
  simp only [live_eq, hs, List.length_append, hl, hd] at hlive ⊢
  omega

/-- What is taken first lies above what is taken next. -/
theorem Replaced.trans_take {p p' q : List Value} {s t u : Stack} (h : Replaced p [] s t)
    (h' : Replaced p' q t u) : Replaced (p ++ p') q s u := by
  obtain ⟨b, hs, ht⟩ := h.values
  obtain ⟨b', ht', hu⟩ := h'.values
  refine ⟨⟨b', ?_, hu⟩, h'.limit.trans h.limit, h'.deferred.trans h.deferred,
    h'.room ∘ h.room⟩
  rw [hs, List.append_assoc, ← ht', ht, List.nil_append]

/-- What is put first lies below what is put next. -/
theorem Replaced.trans_put {p q q' : List Value} {s t u : Stack} (h : Replaced p q s t)
    (h' : Replaced [] q' t u) : Replaced p (q' ++ q) s u := by
  obtain ⟨b, hs, ht⟩ := h.values
  obtain ⟨b', ht', hu⟩ := h'.values
  refine ⟨⟨b, hs, ?_⟩, h'.limit.trans h.limit, h'.deferred.trans h.deferred,
    h'.room ∘ h.room⟩
  rw [hu, List.append_assoc, ← ht, ht', List.nil_append]

end Stack

namespace StackM

open Stack

theorem push_eq_ok {v : Value} {s t : Stack} {u : Unit} :
    push v s = .ok u t ↔ s.live < s.limit ∧ t = s.cons v := by
  unfold push
  split
  · simp; omega
  · simp only [EStateM.Result.ok.injEq, true_and]
    constructor
    · intro h; exact ⟨by omega, h.symm⟩
    · intro h; exact h.2.symm

theorem push_of_lt {v : Value} {s : Stack} (h : s.live < s.limit) :
    push v s = .ok () (s.cons v) := push_eq_ok.2 ⟨h, rfl⟩

theorem defer_eq_ok {v : Value} {most : Nat} {s t : Stack} {u : Unit} :
    defer v most s = .ok u t ↔
      s.deferred < most ∧ t = { s.cons v with deferred := s.deferred + 1 } := by
  unfold defer
  split
  · simp; omega
  · simp only [EStateM.Result.ok.injEq, true_and]
    constructor
    · intro h; exact ⟨by omega, h.symm⟩
    · intro h; exact h.2.symm

theorem require_eq_ok {op : String} {n : Nat} {s t : Stack} {u : Unit} :
    require op n s = .ok u t ↔ n ≤ s.values.length ∧ s = t := by
  unfold require
  rw [← s.size_eq]
  split
  · simp; omega
  · simp only [EStateM.Result.ok.injEq, true_and]
    constructor
    · intro h; exact ⟨by omega, h⟩
    · intro h; exact h.2

theorem require_of_le {op : String} {n : Nat} {s : Stack} (h : n ≤ s.values.length) :
    require op n s = .ok () s := require_eq_ok.2 ⟨h, rfl⟩

theorem require_of_lt {op : String} {n : Nat} {s : Stack} (h : s.values.length < n) :
    require op n s = .error (s.underflow op n) s := by
  rw [require, s.size_eq, if_pos h]

theorem replaced_of_push {v : Value} {s t : Stack} {u : Unit} (h : push v s = .ok u t) :
    Replaced [] [v] s t := by
  obtain ⟨hl, rfl⟩ := push_eq_ok.1 h
  refine ⟨⟨s.values, rfl, rfl⟩, rfl, rfl, fun _ => ?_⟩
  rw [live_eq] at hl ⊢
  simp only [values_cons, List.length_cons, deferred_cons, limit_cons]
  omega

theorem replaced_of_pushAll {vs : List Value} {s t : Stack} {u : Unit}
    (h : pushAll vs s = .ok u t) : Replaced [] vs.reverse s t := by
  induction vs generalizing s with
  | nil =>
    obtain ⟨-, rfl⟩ := pure_eq_ok.1 h
    exact .rfl s
  | cons v vs ih =>
    obtain ⟨_, s', hv, hvs⟩ := bind_eq_ok.1 h
    simpa only [List.reverse_cons] using (replaced_of_push hv).trans_put (ih hvs)

theorem pop_eq_ok {op : String} {v : Value} {s t : Stack} :
    pop op s = .ok v t ↔
      s.values = v :: t.values ∧ t.limit = s.limit ∧ t.deferred = s.deferred := by
  unfold pop
  split
  · rename_i hs
    simp [hs]
  · rename_i w ws hs
    constructor
    · intro h
      obtain ⟨rfl, rfl⟩ := EStateM.Result.ok.inj h
      exact ⟨hs, rfl, rfl⟩
    · rintro ⟨hv, hl, hd⟩
      obtain ⟨rfl, hws⟩ := List.cons.inj (hs.symm.trans hv)
      rw [EStateM.Result.ok.injEq]
      exact ⟨rfl, Stack.ext hws hl.symm hd.symm⟩

theorem pop_of_nil {op : String} {s : Stack} (h : s.values = []) :
    pop op s = .error (s.underflow op 1) s := by
  unfold pop
  split
  · rfl
  · rename_i hs
    simp [h] at hs

theorem pop_of_cons {op : String} {v : Value} {vs : List Value} {s : Stack}
    (h : s.values = v :: vs) :
    pop op s = .ok v (s.holding vs) := pop_eq_ok.2 ⟨h, rfl, rfl⟩

theorem replaced_of_pop {op : String} {v : Value} {s t : Stack} (h : pop op s = .ok v t) :
    Replaced [v] [] s t := by
  obtain ⟨hv, hl, hd⟩ := pop_eq_ok.1 h
  exact .taken hv hl hd

theorem replaced_of_popNumber {op : String} {x : Float} {s t : Stack}
    (h : popNumber op s = .ok x t) : Replaced [.number x] [] s t := by
  obtain ⟨v, t', hv, h⟩ := bind_eq_ok.1 h
  obtain ⟨hx, rfl⟩ := ofExcept_eq_ok.1 h
  rw [← Value.getNumber_eq_ok.1 hx]
  exact replaced_of_pop hv

theorem replaced_of_popBool {op : String} {b : Bool} {s t : Stack}
    (h : popBool op s = .ok b t) : Replaced [.bool b] [] s t := by
  obtain ⟨v, t', hv, h⟩ := bind_eq_ok.1 h
  obtain ⟨hb, rfl⟩ := ofExcept_eq_ok.1 h
  rw [← Value.getBool_eq_ok.1 hb]
  exact replaced_of_pop hv

theorem toInt_of_integer {op : String} {x : Float} {n : Int} (h : integer op x = .ok n) :
    Binary64.toInt? x = some n := by
  unfold integer at h
  split at h
  · split at h
    · rwa [← Except.ok.inj h]
    · simp at h
  · simp at h

theorem rangeCheck_of_integer {op : String} {x : Float} {e : Error}
    (h : integer op x = .error e) : e = .rangeCheck op (.notAnInteger x) := by
  unfold integer at h
  split at h
  · split at h
    · simp at h
    · exact (Except.error.inj h).symm
  · exact (Except.error.inj h).symm

theorem replaced_of_popInt {op : String} {n : Int} {s t : Stack} (h : popInt op s = .ok n t) :
    ∃ x, integer op x = .ok n ∧ Replaced [.number x] [] s t := by
  obtain ⟨x, t', hx, h⟩ := bind_eq_ok.1 h
  obtain ⟨hn, rfl⟩ := ofExcept_eq_ok.1 h
  exact ⟨x, hn, replaced_of_popNumber hx⟩

end StackM

namespace Stack

/-- A stack of numbers defers nothing. -/
theorem of_ofNumbers {limit : Nat} {xs : List Float} {s : Stack}
    (h : ofNumbers limit xs = .ok s) :
    s.values = (xs.map Value.number).reverse ∧ s.limit = limit ∧ s.deferred = 0 ∧
      s.live ≤ s.limit := by
  unfold ofNumbers ofValues at h
  split at h
  · rename_i t ht
    obtain rfl := Except.ok.inj h
    have hr := StackM.replaced_of_pushAll ht
    obtain ⟨b, hb, hs⟩ := hr.values
    -- the numbers were pushed onto an empty stack
    obtain rfl : b = [] := hb.symm
    rw [List.append_nil] at hs
    exact ⟨hs, hr.limit, hr.deferred, hr.room (Nat.zero_le _)⟩
  · simp at h

end Stack

end PdfFunctions
