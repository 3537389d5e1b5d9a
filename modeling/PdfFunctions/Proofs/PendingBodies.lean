import PdfFunctions.Proofs.OpenCalls

namespace PdfFunctions

open Braces Machine Moment

variable {P : List Value → Nat → Prop} {ok : Rule} {l : Limits}

/-- `P` holds of the values and of the number of deferred ones, those of the open body left out.
`n` braces of that body are open, its own included. -/
def Pending (P : List Value → Nat → Prop) : Nat → Stack → Prop
  | 0, s => P s.values s.deferred
  | n + 1, s => ∃ w vs k, climb 0 w = some n ∧ s.values = w.reverse ++ .opening :: vs ∧
      s.deferred = k + w.length ∧ P vs k

structure Stable (ok : Rule) (P : List Value → Nat → Prop) : Prop where
  put : ∀ {v vs k}, v.Plain → P vs k → P (v :: vs) k
  take : ∀ {v vs k}, v.Plain → P (v :: vs) k → P vs k
  close : ∀ {w vs k}, Balanced w → P vs k →
    P (.closing :: (w.reverse ++ .opening :: vs)) (k + (w.length + 1))
  lift : ∀ {w vs k}, Balanced w → P (.closing :: (w.reverse ++ .opening :: vs)) k →
    P vs (k - (w.length + 1))
  act : ∀ {op s t u}, op.act s = .ok u t → ok op s t → P s.values s.deferred →
    P t.values t.deferred

theorem put_all (put : ∀ {v vs k}, v.Plain → P vs k → P (v :: vs) k) {q vs : List Value}
    {k : Nat} (hq : ∀ v ∈ q, v.Plain) (h : P vs k) : P (q ++ vs) k := by
  induction q with
  | nil => exact h
  | cons v q ih =>
    obtain ⟨hv, hq⟩ := List.forall_mem_cons.1 hq
    exact put hv (ih hq)

theorem take_all (take : ∀ {v vs k}, v.Plain → P (v :: vs) k → P vs k) {p vs : List Value}
    {k : Nat} (hp : ∀ v ∈ p, v.Plain) (h : P (p ++ vs) k) : P vs k := by
  induction p with
  | nil => exact h
  | cons v p ih =>
    obtain ⟨hv, hp⟩ := List.forall_mem_cons.1 hp
    exact ih hp (take hv h)

namespace Stable

theorem lifted (hP : Stable ok P) {w : List Value} {s t : Stack} (hw : Body.Lifted w s t)
    (h : P s.values s.deferred) : P t.values t.deferred := by
  rw [hw.values] at h
  rw [hw.deferred]
  exact hP.lift hw.balanced h

theorem condition (hP : Stable ok P) {op : String} {b : Bool} {s t : Stack}
    (hb : StackM.popBool op s = .ok b t) (h : P s.values s.deferred) : P t.values t.deferred := by
  have hr := StackM.replaced_of_popBool hb
  obtain ⟨vs, hs, ht⟩ := hr.values
  rw [hs] at h
  rw [ht, hr.deferred]
  exact hP.take (by simp) h

theorem picks (hP : Stable ok P) {op : Operator} {w : List Value} {s t : Stack}
    (hp : Picks op s w t) (h : P s.values s.deferred) : P t.values t.deferred := by
  cases hp with
  | single hw hb => exact hP.condition hb (hP.lifted hw h)
  | first hw' hw hb | second hw' hw hb => exact hP.condition hb (hP.lifted hw (hP.lifted hw' h))

end Stable

/-- One more value of an open body, which may be the one that completes it. -/
theorem pending_of_defer (hP : Stable ok P) {v : Value} {d most : Nat} {s t : Stack}
    (hd : 2 ≤ d) (ht : StackM.defer v most s = .ok () t) (h : Pending P (d - 1) s) :
    Pending P (depthAfter d v - 1) t := by
  obtain ⟨-, rfl⟩ := StackM.defer_eq_ok.1 ht
  obtain ⟨n, rfl⟩ : ∃ n, d = n + 2 := ⟨d - 2, by omega⟩
  obtain ⟨w, vs, k, hw, hs, hk, hvs⟩ := h
  by_cases hv : v = .closing ∧ n = 0
  · obtain ⟨rfl, rfl⟩ := hv
    -- the brace completes the body
    have hclosed := hP.close hw hvs
    change P (.closing :: s.values) (s.deferred + 1)
    rwa [hs, hk, Nat.add_assoc]
  · -- the body stays open
    obtain ⟨e, he, hed⟩ : ∃ e, level n v = some e ∧ depthAfter (n + 2) v = e + 2 := by
      cases v with
      | closing =>
        have hn : n ≠ 0 := fun hn => hv ⟨rfl, hn⟩
        exact ⟨n - 1, if_neg hn, by simp only [depthAfter]; omega⟩
      | _ => exact ⟨_, rfl, rfl⟩
    rw [hed]
    refine ⟨w ++ [v], vs, k, climb_concat_eq_some.2 ⟨n, hw, he⟩, ?_, ?_, hvs⟩
    · simp [hs]
    · simp only [hk, List.length_append, List.length_singleton]
      omega

/-- One value keeps whatever is stable. -/
theorem pending_of_accepts (hP : Stable ok P) {m m' : Machine} {v : Value}
    (h : Accepts l m v m')
    (hok : ∀ op, v = .operator op → m.depth ≤ 1 → ok op m.stack m'.stack)
    (hp : Pending P (m.depth - 1) m.stack) : Pending P (m'.depth - 1) m'.stack := by
  -- at depth 0 and 1 no body is pending, and the invariant is about the stack itself
  have outside : m.depth ≤ 1 → P m.stack.values m.stack.deferred := by
    intro hd
    rwa [show m.depth - 1 = 0 by omega] at hp
  have inside {m' : Machine} (hd : m'.depth ≤ 1) (h : P m'.stack.values m'.stack.deferred) :
      Pending P (m'.depth - 1) m'.stack := by
    rwa [show m'.depth - 1 = 0 by omega]
  cases h with
  | wrapperOpens hd => exact outside (by omega)
  | bodyOpens hd hn ht =>
    obtain ⟨-, rfl⟩ := StackM.push_eq_ok.1 ht
    exact ⟨[], _, _, rfl, rfl, rfl, outside (by omega)⟩
  | wrapperCloses hd => exact outside (by omega)
  | ignored hd => exact inside (by simp only [hd]; omega) (outside (by omega))
  | deferred hd hn ht => exact pending_of_defer hP hd ht hp
  | pushed hd hv ht =>
    obtain ⟨-, rfl⟩ := StackM.push_eq_ok.1 ht
    exact inside hd (hP.put hv (outside hd))
  | acted hd hop ht => exact inside hd (hP.act ht (hok _ rfl hd) (outside hd))
  | skipped hd hw hb => exact inside hd (hP.condition hb (hP.lifted hw (outside hd)))
  | entered hd hp => exact hP.picks hp (outside hd)

theorem pending_of_reaches (hP : Stable ok P) {m : Machine} {text : Bytes} {μ : Moment}
    (h : Reaches l ok (start m text) μ) (hc : m.calls = [])
    (hm : Pending P (m.depth - 1) m.stack) :
    Pending P (μ.machine.depth - 1) μ.machine.stack :=
  (h.invariant (pending_of_accepts hP) hc hm).1

def Stack.Within (n : Nat) (s : Stack) : Prop := s.limit = n ∧ s.live ≤ n

variable {n : Nat}

theorem Stack.Replaced.within {p q : List Value} {s t : Stack} (h : Replaced p q s t)
    (hs : s.Within n) : t.Within n := by
  obtain ⟨rfl, hs⟩ := hs
  exact ⟨h.limit, h.limit ▸ h.room hs⟩

theorem Body.Lifted.within {w : List Value} {s t : Stack} (hw : Body.Lifted w s t)
    (h : s.Within n) : t.Within n := by
  have hl := hw.length
  have hd := hw.deferred
  refine ⟨hw.limit.trans h.1, ?_⟩
  have hlive := h.2
  rw [Stack.live_eq] at hlive ⊢
  omega

theorem within_of_picks {op : Operator} {w : List Value} {s t : Stack} (hp : Picks op s w t)
    (h : s.Within n) : t.Within n := by
  cases hp with
  | single hw hb => exact (StackM.replaced_of_popBool hb).within (hw.within h)
  | first hw' hw hb | second hw' hw hb =>
    exact (StackM.replaced_of_popBool hb).within (hw.within (hw'.within h))

/-- The live count of the stack itself never passes the limit, whatever the operators do. -/
theorem within_of_accepts {m m' : Machine} {v : Value} (h : Accepts l m v m')
    (hm : m.stack.Within n) : m'.stack.Within n := by
  cases h with
  | wrapperOpens | wrapperCloses | ignored => exact hm
  | bodyOpens _ _ ht | pushed _ _ ht => exact (StackM.replaced_of_push ht).within hm
  | deferred _ _ ht =>
    obtain ⟨-, rfl⟩ := StackM.defer_eq_ok.1 ht
    -- one more value, and one more of them deferred
    refine ⟨hm.1, ?_⟩
    have hlive := hm.2
    simp only [Stack.live_eq, Stack.values_cons, List.length_cons] at hlive ⊢
    omega
  | acted _ _ ht =>
    obtain ⟨_, _, hr, -⟩ := Operator.effect_act ht
    exact hr.within hm
  | skipped _ hw hb => exact (StackM.replaced_of_popBool hb).within (hw.within hm)
  | entered _ hp => exact within_of_picks hp hm

theorem within_of_reaches {m : Machine} {text : Bytes} {μ : Moment}
    (h : Reaches l ok (start m text) μ) (hc : m.calls = []) (hm : m.stack.Within n) :
    μ.machine.stack.Within n :=
  (h.invariant (J := fun _ s => s.Within n) (fun h _ => within_of_accepts h) hc hm).1

end PdfFunctions
