import PdfFunctions.Proofs.Calculations

namespace PdfFunctions

open Stack StackM

namespace Rearrangement

def countOf : Value → Nat
  | .number x => ((Binary64.toInt? x).getD 0).toNat
  | _ => 0

/-- The values on top that a stack operator removes, copies or moves, its counts included. -/
def handled (op : Operator) (vs : List Value) : List Value :=
  match op, vs with
  | .dup, vs | .pop, vs => vs.take 1
  | .exch, vs => vs.take 2
  | .copy, n :: vs => n :: vs.take (countOf n)
  | .index, n :: vs => n :: vs[countOf n]?.toList
  | .roll, j :: n :: vs => j :: n :: vs.take (countOf n)
  | _, _ => []

theorem handled_subset (op : Operator) (vs : List Value) : handled op vs ⊆ vs := by
  have htake := List.take_subset (α := Value)
  cases op with
  | dup | pop | exch => exact htake _ vs
  | copy =>
    match vs with
    | [] => exact List.nil_subset _
    | n :: vs => exact List.cons_subset_cons n (htake _ vs)
  | index =>
    match vs with
    | [] => exact List.nil_subset _
    | n :: vs =>
      exact List.cons_subset_cons n fun v hv => List.mem_of_getElem? (Option.mem_toList.1 hv)
  | roll =>
    match vs with
    | [] | [_] => exact List.nil_subset _
    | j :: n :: vs => exact List.cons_subset_cons j (List.cons_subset_cons n (htake _ vs))
  | _ => exact List.nil_subset _

def displaces : Operator → Bool
  | .pop | .exch | .roll => true
  | _ => false

theorem replaced_of_popCount {op : String} {n : Nat} {s t : Stack} (h : popCount op s = .ok n t) :
    ∃ x, countOf (.number x) = n ∧ Replaced [.number x] [] s t := by
  obtain ⟨k, t', hk, h⟩ := bind_eq_ok.1 h
  obtain ⟨x, hx, hp⟩ := replaced_of_popInt hk
  refine ⟨x, ?_⟩
  split at h
  · obtain ⟨_, _, hb, -⟩ := bind_eq_ok.1 h
    simp [throw_apply] at hb
  · obtain ⟨rfl, rfl⟩ := pure_eq_ok.1 h
    rw [countOf, toInt_of_integer hx]
    exact ⟨rfl, hp⟩

theorem replaced_of_duplicate {op : String} {n : Nat} {s t : Stack} {u : Unit}
    (h : duplicate op n s = .ok u t) : Replaced [] (s.values.take n) s t := by
  obtain ⟨_, s', hs, h⟩ := bind_eq_ok.1 h
  obtain ⟨-, rfl⟩ := require_eq_ok.1 hs
  obtain ⟨_, _, hg, h⟩ := bind_eq_ok.1 h
  obtain ⟨rfl, rfl⟩ := EStateM.Result.ok.inj hg
  simpa only [List.reverse_reverse] using replaced_of_pushAll h

theorem replaced_of_rearrange {op : String} {n : Nat} {f : List Value → List Value}
    (hf : ∀ vs, (f vs).length = vs.length) {s t : Stack} {u : Unit}
    (h : rearrange op n f hf s = .ok u t) :
    Replaced (s.values.take n) (f (s.values.take n)) s t := by
  obtain ⟨_, s', hs, h⟩ := bind_eq_ok.1 h
  obtain ⟨-, rfl⟩ := require_eq_ok.1 hs
  obtain ⟨-, rfl⟩ := EStateM.Result.ok.inj h
  exact ⟨⟨s.values.drop n, (List.take_append_drop n s.values).symm, rfl⟩, rfl, rfl, id⟩

/-- Values have given way to others. Only the operators that displace values take others than
plain ones away, and what comes in is plain or handled. -/
def Effect (op : Operator) (s t : Stack) : Prop :=
  ∃ p q, Replaced p q s t ∧
    (∀ v ∈ p, v.Plain ∨ displaces op ∧ v ∈ handled op s.values) ∧
    ∀ v ∈ q, v.Plain ∨ v ∈ handled op s.values

theorem effect_copy {s t : Stack} {name : String} {u : Unit} (h : copy name s = .ok u t) :
    Effect .copy s t := by
  obtain ⟨n, s', hn, h⟩ := bind_eq_ok.1 h
  obtain ⟨x, rfl, hx⟩ := replaced_of_popCount hn
  obtain ⟨b, hs, hb⟩ := hx.values
  refine ⟨_, _, hx.trans_put (replaced_of_duplicate h), by simp, fun v hv => .inr ?_⟩
  rw [List.append_nil, hb, List.nil_append] at hv
  rw [hs]
  exact List.mem_cons_of_mem _ hv

theorem effect_index {s t : Stack} {name : String} {u : Unit} (h : index name s = .ok u t) :
    Effect .index s t := by
  obtain ⟨n, s', hn, h⟩ := bind_eq_ok.1 h
  obtain ⟨x, rfl, hx⟩ := replaced_of_popCount hn
  obtain ⟨b, hs, hb⟩ := hx.values
  obtain ⟨_, _, hg, h⟩ := bind_eq_ok.1 h
  obtain ⟨rfl, rfl⟩ := EStateM.Result.ok.inj hg
  cases hw : peek? s' (countOf (.number x)) with
  | none => simp [hw, throw_apply] at h
  | some w =>
    simp only [hw] at h
    refine ⟨_, _, hx.trans_put (replaced_of_push h), by simp, fun v hv => .inr ?_⟩
    rw [List.append_nil, List.mem_singleton] at hv
    rw [peek?, hb, List.nil_append] at hw
    rw [hs]
    exact List.mem_cons_of_mem _ (by simp [hv, hw])

theorem effect_roll {s t : Stack} {name : String} {u : Unit} (h : roll name s = .ok u t) :
    Effect .roll s t := by
  obtain ⟨j, s₁, hj, h⟩ := bind_eq_ok.1 h
  obtain ⟨y, -, hy⟩ := replaced_of_popInt hj
  obtain ⟨n, s₂, hn, h⟩ := bind_eq_ok.1 h
  obtain ⟨x, rfl, hx⟩ := replaced_of_popCount hn
  -- the two counts are off, and they say which values roll
  have hp := hy.trans_take hx
  obtain ⟨b, hs, hb⟩ := hp.values
  split at h
  · have hr := hp.trans_take (replaced_of_rearrange (length_rotate _) h)
    rw [hb, List.nil_append] at hr
    refine ⟨_, _, hr, fun v hv => .inr ⟨rfl, ?_⟩, fun v hv => .inr ?_⟩
    · rw [hs]
      exact hv
    · rw [hs]
      simp only [rotate, List.mem_append] at hv
      exact List.mem_cons_of_mem _ (List.mem_cons_of_mem _
        (hv.elim List.mem_of_mem_drop List.mem_of_mem_take))
  · obtain ⟨-, rfl⟩ := pure_eq_ok.1 h
    exact ⟨_, _, hp, by simp, by simp⟩

theorem effect_apply {op : Operator} {s t : Stack} {u : Unit} (h : apply op s = .ok u t) :
    Effect op s t := by
  cases op with
  | dup => exact ⟨_, _, replaced_of_duplicate h, by simp, fun v hv => .inr hv⟩
  | pop =>
    obtain ⟨v, hv, -⟩ := map_eq_ok.1 h
    have hp := replaced_of_pop hv
    obtain ⟨b, hs, -⟩ := hp.values
    exact ⟨_, _, hp, fun w hw => .inr ⟨rfl, by rw [hs]; exact hw⟩, by simp⟩
  | exch =>
    have hr := replaced_of_rearrange (fun _ => List.length_reverse) h
    exact ⟨_, _, hr, fun v hv => .inr ⟨rfl, hv⟩, fun v hv => .inr (List.mem_reverse.1 hv)⟩
  | copy => exact effect_copy h
  | index => exact effect_index h
  | roll => exact effect_roll h
  | _ => simp [apply, throw_apply] at h

end Rearrangement

namespace Operator

open Rearrangement

/-- A calculation takes plain values off the stack and puts a plain one there. -/
theorem effect_calculation {op : Operator} (hop : op.category.calculates = true) {s t : Stack}
    {u : Unit} (hn : op.inputs ≤ s.values.length) (h : execute op s = .ok u t) : Effect op s t := by
  have hp : (s.values.take op.inputs).length = op.inputs := List.length_take_of_le hn
  have hs := (List.take_append_drop op.inputs s.values).symm
  rw [execute_eq_calculation hop] at h
  obtain ⟨v, s', hv, h⟩ := bind_eq_ok.1 h
  obtain ⟨hsuits, hkind, rfl⟩ := (consumes_calculation hop hp).of_ok hs hv
  have htaken : Replaced _ [] s (s.holding _) := .taken hs rfl rfl
  have hplain := hsuits.plain hop
  have hne : s.values.take op.inputs ≠ [] := by
    rw [← List.length_pos_iff, hp]
    exact inputs_pos_of_calculates hop
  have hresult := hkind.plain hne hplain
  exact ⟨_, _, htaken.trans_put (replaced_of_push h), fun w hw => .inl (hplain w hw),
    fun w hw => .inl (hresult w (List.append_nil [v] ▸ hw))⟩

theorem effect_pushConstant {op : Operator} {s t : Stack} {u : Unit}
    (h : pushConstant op s = .ok u t) : Effect op s t := by
  unfold pushConstant at h
  split at h
  · exact ⟨_, _, replaced_of_push h, by simp, by simp⟩
  · exact ⟨_, _, replaced_of_push h, by simp, by simp⟩
  · simp [throw_apply] at h

theorem effect_act {op : Operator} {s t : Stack} {u : Unit} (h : act op s = .ok u t) :
    Effect op s t := by
  obtain ⟨_, s', hs, h⟩ := bind_eq_ok.1 h
  obtain ⟨hn, rfl⟩ := require_eq_ok.1 hs
  cases hc : op.category with
  | arithmetic | comparison | boolean => exact effect_calculation (by rw [hc]; rfl) hn h
  | stackManipulation =>
    rw [execute, hc] at h
    exact effect_apply h
  | control =>
    rw [execute, hc] at h
    exact effect_pushConstant h

theorem act_counts {op : Operator} {s t : Stack} {u : Unit} (h : act op s = .ok u t) :
    t.limit = s.limit ∧ t.deferred = s.deferred := by
  obtain ⟨p, q, hr, -⟩ := effect_act h
  exact ⟨hr.limit, hr.deferred⟩

end Operator

end PdfFunctions
