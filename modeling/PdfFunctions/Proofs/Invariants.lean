import PdfFunctions.Proofs.MachineParts

namespace PdfFunctions

section keeps

variable {σ α β : Type} {P : σ → Prop}

/-- `x` keeps `P`, also where it fails, and fails only as a value can. -/
def Keeps (P : σ → Prop) (x : EStateM Error σ α) : Prop :=
  ∀ ⦃s⦄, P s → match x s with
    | .ok _ t => P t
    | .error e t => P t ∧ e.OfValue

namespace Keeps

theorem of_ok {x : EStateM Error σ α} {s t : σ} {a : α} (hx : Keeps P x) (hs : P s)
    (h : x s = .ok a t) : P t := by
  have ht := hx hs
  rwa [h] at ht

theorem of_error {x : EStateM Error σ α} {s t : σ} {e : Error} (hx : Keeps P x) (hs : P s)
    (h : x s = .error e t) : P t ∧ e.OfValue := by
  have ht := hx hs
  rwa [h] at ht

theorem pure (a : α) : Keeps P (pure a) := fun _ hs => hs

theorem throw {e : Error} (he : e.OfValue) : Keeps (α := α) P (throw e) :=
  fun _ hs => ⟨hs, he⟩

theorem modify {f : σ → σ} (h : ∀ ⦃s⦄, P s → P (f s)) : Keeps P (modify f) := fun _ hs => h hs

theorem bind {x : EStateM Error σ α} {f : α → EStateM Error σ β} (hx : Keeps P x)
    (hf : ∀ a, Keeps P (f a)) : Keeps P (x >>= f) := by
  intro s hs
  cases hxs : x s with
  | ok a t =>
    rw [bind_of_ok hxs]
    exact hf a (hx.of_ok hs hxs)
  | error e t =>
    rw [bind_of_error hxs]
    exact hx.of_error hs hxs

end Keeps

end keeps

/-- What the single operations keep. Only the numbers of values and of deferred ones matter; no
more than `most` are deferred anew. -/
structure Robust (most : Nat) (P : Stack → Prop) : Prop where
  push : ∀ {v s}, s.live < s.limit → P s → P (s.cons v)
  defer : ∀ {v s}, s.deferred < most → P s → P { s.cons v with deferred := s.deferred + 1 }
  holding : ∀ {vs s}, vs.length ≤ s.values.length → P s → P (s.holding vs)
  lift : ∀ {w vs : List Value} {s}, vs.length + w.length + 2 = s.values.length → P s →
    P { s.holding vs with deferred := s.deferred - (w.length + 1) }

/-- Nothing at all is kept by everything. -/
theorem robust_true (most : Nat) : Robust most fun _ => True :=
  ⟨fun _ _ => trivial, fun _ _ => trivial, fun _ _ => trivial, fun _ _ => trivial⟩

variable {most : Nat} {P : Stack → Prop}

namespace StackM

theorem keeps_push (hP : Robust most P) (v : Value) : Keeps P (push v) := by
  intro s hs
  by_cases hl : s.live < s.limit
  · rw [push_of_lt hl]
    exact hP.push hl hs
  · rw [push, if_pos (Nat.le_of_not_lt hl)]
    exact ⟨hs, trivial⟩

theorem keeps_defer (hP : Robust most P) (v : Value) : Keeps P (defer v most) := by
  intro s hs
  by_cases hd : s.deferred < most
  · rw [defer, if_neg (Nat.not_le.2 hd)]
    exact hP.defer hd hs
  · rw [defer, if_pos (Nat.le_of_not_lt hd)]
    exact ⟨hs, trivial⟩

theorem keeps_pop (hP : Robust most P) (op : String) : Keeps P (pop op) := by
  intro s hs
  cases hv : s.values with
  | nil =>
    rw [pop_of_nil hv]
    exact ⟨hs, trivial⟩
  | cons v vs =>
    rw [pop_of_cons hv]
    exact hP.holding (by simp [hv]) hs

theorem keeps_look (op : String) (n : Nat) : Keeps P (look op n) := by
  intro s hs
  by_cases hn : n ≤ s.values.length
  · rw [look_of_le hn]
    exact hs
  · rw [look_of_lt (Nat.lt_of_not_le hn)]
    exact ⟨hs, trivial⟩

theorem keeps_rearrange (hP : Robust most P) (op : String) (n : Nat)
    (f : List Value → List Value) (hf : ∀ vs, (f vs).length = vs.length) :
    Keeps P (rearrange op n f hf) := by
  intro s hs
  by_cases hn : n ≤ s.values.length
  · rw [rearrange_of_le op hf hn]
    refine hP.holding ?_ hs
    simp only [List.length_append, hf, List.length_take, List.length_drop]
    omega
  · rw [rearrange, bind_of_error (require_of_lt (Nat.lt_of_not_le hn))]
    exact ⟨hs, trivial⟩

theorem keeps_lift (hP : Robust most P) (op : String) : Keeps P (Body.pop op) := by
  intro s hs
  cases hv : s.values with
  | nil =>
    rw [Body.pop, bind_of_error (pop_of_nil hv)]
    exact ⟨hs, trivial⟩
  | cons v vs =>
    by_cases hc : v = .closing
    · subst hc
      cases hsplit : Body.split 0 [] vs with
      | some p =>
        have hl := Body.split_length hsplit
        rw [List.length_nil] at hl
        rw [Body.pop_of_matched hv hsplit]
        refine hP.lift ?_ hs
        rw [hv, List.length_cons]
        omega
      | none =>
        -- without its opening brace the whole stack is searched, and what is popped stays popped
        rw [Body.pop_of_unmatched hv hsplit]
        exact ⟨hP.holding (Nat.zero_le _) hs, trivial⟩
    · rw [Body.pop_of_ne_closing hc hv]
      exact ⟨hP.holding (by simp [hv]) hs, trivial⟩

theorem Composed.keeps (hP : Robust most P) {α : Type} {x : StackM α} (hx : Composed x) :
    Keeps P x := by
  induction hx with
  | pure a => exact .pure a
  | throw he => exact .throw he
  | push v => exact keeps_push hP v
  | pop op => exact keeps_pop hP op
  | look op n => exact keeps_look op n
  | rearrange op n f hf => exact keeps_rearrange hP op n f hf
  | lift op => exact keeps_lift hP op
  | bind _ _ hx hf => exact hx.bind hf

end StackM

namespace Machine

open StackM

def OnStack (P : Stack → Prop) (m : Machine) : Prop := P m.stack

theorem keeps_onStack {α : Type} {x : StackM α} (hx : Keeps P x) :
    Keeps (OnStack P) (onStack x) := by
  intro m hm
  cases h : x m.stack with
  | ok a t =>
    rw [onStack_of_ok h]
    exact hx.of_ok hm h
  | error e t =>
    rw [onStack_of_error h]
    exact hx.of_error hm h

variable {l : Limits}

theorem Alike.keeps (hP : Robust l.maxBodies P) {l' : Limits} {α : Type} {x y : MachineM α}
    (h : Alike l l' x y) : Keeps (OnStack P) x := by
  induction h with
  | pure a => exact .pure a
  | throw he => exact .throw he
  | onStack hx => exact keeps_onStack (hx.keeps hP)
  | defer v => exact keeps_onStack (keeps_defer hP v)
  | note | setDepth | enter => exact .modify fun _ hm => hm
  | nest d =>
    split
    · exact .throw trivial
    · exact .pure ()
  | byDepth _ ih =>
    intro m hm
    rw [atDepth, get_bind]
    exact ih m.depth hm
  | bind _ _ hx hf => exact hx.bind hf

/-- No value that a machine takes in breaks what the single operations keep. -/
theorem keeps_accept (hP : Robust l.maxBodies P) (v : Value) : Keeps (OnStack P) (accept l v) :=
  (alike_accept l l v).keeps hP

theorem keeps_step (hP : Robust l.maxBodies P) : Keeps (OnStack P) (step l) := by
  intro m hm
  unfold step
  match m.calls with
  | [] => exact hm
  | ⟨[], d⟩ :: cs => exact hm
  | ⟨v :: vs, d⟩ :: cs => exact keeps_accept hP v (s := { m with calls := ⟨vs, d⟩ :: cs }) hm

end Machine

end PdfFunctions
