import Mathlib.Data.List.Perm.Subperm
import PdfFunctions.Proofs.Moments

namespace PdfFunctions

open Machine Moment Rearrangement Stack StackM

def Value.runsBody : Value → Bool
  | operator op => op.runsBody
  | _ => false

def Item.runsBody (i : Item) : Bool := i.value?.any Value.runsBody

def branches (vs : List Value) : Nat := vs.countP Value.runsBody

@[simp] theorem branches_nil : branches [] = 0 := rfl

@[simp] theorem branches_append (vs ws : List Value) :
    branches (vs ++ ws) = branches vs + branches ws := List.countP_append

@[simp] theorem branches_reverse (vs : List Value) : branches vs.reverse = branches vs :=
  List.countP_reverse

theorem branches_cons (v : Value) (vs : List Value) :
    branches (v :: vs) = branches [v] + branches vs := branches_append [v] vs

@[simp] theorem branches_cons_opening (vs : List Value) :
    branches (.opening :: vs) = branches vs := rfl

@[simp] theorem branches_cons_closing (vs : List Value) :
    branches (.closing :: vs) = branches vs := rfl

theorem branches_of_plain {vs : List Value} (h : ∀ v ∈ vs, v.Plain) : branches vs = 0 := by
  refine List.countP_eq_zero.2 fun v hv => ?_
  have hplain := h v hv
  cases v with
  | operator op => simp at hplain
  | _ => simp [Value.runsBody]

theorem branches_of_runsBody {op : Operator} (h : op.runsBody = true) :
    branches [.operator op] = 1 := List.countP_singleton.trans (if_pos h)

theorem countP_cons_of_value {i : Item} {v : Value} (hv : i.value? = some v) (is : List Item) :
    (i :: is).countP Item.runsBody = is.countP Item.runsBody + branches [v] := by
  rw [List.countP_cons, branches, List.countP_singleton, Item.runsBody, hv, Option.any_some]

theorem countP_cons_of_no_value {i : Item} (hv : i.value? = none) (is : List Item) :
    (i :: is).countP Item.runsBody = is.countP Item.runsBody :=
  List.countP_cons_of_neg (by simp [Item.runsBody, hv])

namespace Rearrangement

def copies : Operator → Bool
  | .dup | .copy | .index => true
  | _ => false

theorem handled_eq_nil {op : Operator} (hd : displaces op = false) (hc : copies op = false)
    (vs : List Value) : handled op vs = [] := by
  cases op with
  | dup | copy | index => simp [copies] at hc
  | pop | exch | roll => simp [displaces] at hd
  | _ => rfl

theorem rotate_perm (n : Nat) (vs : List Value) : (rotate n vs).Perm vs := by
  have h : (vs.drop n ++ vs.take n).Perm (vs.take n ++ vs.drop n) := List.perm_append_comm
  rwa [List.take_append_drop] at h

theorem subperm_roll {s t : Stack} {name : String} {u : Unit} (h : roll name s = .ok u t) :
    ∃ p q, Replaced p q s t ∧ q.Subperm p := by
  obtain ⟨j, s₁, hj, h⟩ := bind_eq_ok.1 h
  obtain ⟨y, -, hy⟩ := replaced_of_popInt hj
  obtain ⟨n, s₂, hn, h⟩ := bind_eq_ok.1 h
  obtain ⟨x, -, hx⟩ := replaced_of_popCount hn
  have hp := hy.trans_take hx
  split at h
  · have hr := hp.trans_take (replaced_of_rearrange (length_rotate _) h)
    refine ⟨_, _, hr, ?_⟩
    exact (rotate_perm _ _).subperm.trans (List.sublist_append_right _ _).subperm
  · obtain ⟨-, rfl⟩ := pure_eq_ok.1 h
    exact ⟨_, _, hp, List.nil_subperm⟩

/-- What the operators that displace values put back is some of what they have taken. -/
theorem subperm_of_displaces {op : Operator} {s t : Stack} {u : Unit} (hd : displaces op = true)
    (h : apply op s = .ok u t) : ∃ p q, Replaced p q s t ∧ q.Subperm p := by
  cases op with
  | pop =>
    obtain ⟨v, hv, -⟩ := map_eq_ok.1 h
    exact ⟨_, _, replaced_of_pop hv, List.nil_subperm⟩
  | exch =>
    have hr := replaced_of_rearrange (fun _ => List.length_reverse) h
    exact ⟨_, _, hr, (List.reverse_perm _).subperm⟩
  | roll => exact subperm_roll h
  | _ => simp [displaces] at hd

end Rearrangement

/-- Copies are made of numbers and booleans only. -/
def copiesPlain : Rule := fun op s _ => copies op = true → ∀ v ∈ handled op s.values, v.Plain

instance (op : Operator) (s t : Stack) : Decidable (copiesPlain op s t) :=
  inferInstanceAs (Decidable (_ → _))

theorem branches_le_of_replaced {p q : List Value} {s t : Stack} (hr : Replaced p q s t)
    (h : branches q ≤ branches p) : branches t.values ≤ branches s.values := by
  obtain ⟨b, hs, ht⟩ := hr.values
  rw [hs, ht, branches_append, branches_append]
  omega

theorem branches_act {op : Operator} {s t : Stack} {u : Unit} (h : op.act s = .ok u t)
    (hok : copiesPlain op s t) : branches t.values ≤ branches s.values := by
  cases hd : displaces op with
  | true =>
    obtain ⟨_, s', hs, h⟩ := bind_eq_ok.1 h
    obtain ⟨-, rfl⟩ := require_eq_ok.1 hs
    have hexecute : op.execute = Rearrangement.apply op := by
      cases op with
      | pop | exch | roll => rfl
      | _ => simp [displaces] at hd
    rw [hexecute] at h
    obtain ⟨p, q, hr, hqp⟩ := subperm_of_displaces hd h
    exact branches_le_of_replaced hr (hqp.countP_le _)
  | false =>
    obtain ⟨p, q, hr, -, hq⟩ := Operator.effect_act h
    -- what comes in is plain, because only plain values are copied
    have hplain : ∀ v ∈ q, v.Plain := by
      intro v hv
      rcases hq v hv with hv | hv
      · exact hv
      · cases hc : copies op with
        | true => exact hok hc v hv
        | false => simp [handled_eq_nil hd hc] at hv
    exact branches_le_of_replaced hr (by simp [branches_of_plain hplain])

theorem branches_of_lifted {w : List Value} {s t : Stack} (hw : Body.Lifted w s t) :
    branches s.values = branches w + branches t.values := by
  simp only [hw.values, branches_cons_closing, branches_append, branches_reverse,
    branches_cons_opening]

theorem branches_of_popBool {op : String} {b : Bool} {s t : Stack}
    (h : popBool op s = .ok b t) : branches t.values ≤ branches s.values :=
  branches_le_of_replaced (replaced_of_popBool h) (Nat.zero_le _)

theorem Machine.Picks.runsBody {op : Operator} {w : List Value} {s t : Stack}
    (h : Picks op s w t) : op.runsBody = true := by
  cases h <;> rfl

theorem branches_of_picks {op : Operator} {w : List Value} {s t : Stack}
    (h : Picks op s w t) : branches w + branches t.values ≤ branches s.values := by
  cases h with
  | single hw hb =>
    have hcondition := branches_of_popBool hb
    rw [branches_of_lifted hw]
    omega
  | first hw' hw hb | second hw' hw hb =>
    have hcondition := branches_of_popBool hb
    rw [branches_of_lifted hw', branches_of_lifted hw]
    omega

namespace Machine

/-- The `if`s and `ifelse`s on the stack and in what the open bodies have yet to read. -/
def branchesLeft (m : Machine) : Nat :=
  branches m.stack.values + branches (m.calls.flatMap Call.rest)

variable {l : Limits} {m m' : Machine} {v : Value}

/-- What is taken in adds what it holds, and a body that is entered takes one away. -/
theorem branchesLeft_of_accepts (h : Accepts l m v m')
    (hok : ∀ op, v = .operator op → m.depth ≤ 1 → copiesPlain op m.stack m'.stack) :
    m'.branchesLeft + (m'.calls.length - m.calls.length) ≤ m.branchesLeft + branches [v] := by
  -- a value brings its own branches; only a copy and a body that is entered could add more
  cases h with
  | wrapperOpens | wrapperCloses | ignored => simp [branchesLeft]
  | bodyOpens _ _ ht =>
    obtain ⟨-, rfl⟩ := push_eq_ok.1 ht
    simp [branchesLeft]
  | deferred _ _ ht =>
    obtain ⟨-, rfl⟩ := defer_eq_ok.1 ht
    simp only [branchesLeft, values_cons, branches_cons v m.stack.values]
    omega
  | pushed _ _ ht =>
    obtain ⟨-, rfl⟩ := push_eq_ok.1 ht
    simp only [branchesLeft, values_cons, branches_cons v m.stack.values]
    omega
  | acted hd _ ht =>
    have hact := branches_act ht (hok _ rfl hd)
    simp only [branchesLeft]
    omega
  | skipped _ hw hb =>
    have hbody := branches_of_lifted hw
    have hcondition := branches_of_popBool hb
    simp only [branchesLeft]
    omega
  | entered _ hp =>
    have hbody := branches_of_picks hp
    have hop := branches_of_runsBody hp.runsBody
    simp only [branchesLeft, List.flatMap_cons, branches_append, List.length_cons]
    omega

theorem calls_of_accepts (h : Accepts l m v m') :
    m'.calls = m.calls ∨ m.calls.length < m'.calls.length := by
  cases h with
  | entered => exact .inr (Nat.lt_succ_self _)
  | _ => exact .inl rfl

end Machine

end PdfFunctions
