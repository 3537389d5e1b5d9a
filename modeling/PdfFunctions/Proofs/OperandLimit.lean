import PdfFunctions.Proofs.LastMoment
import PdfFunctions.Proofs.OperandCount

namespace PdfFunctions

open Braces Machine Moment Rearrangement

variable {l : Limits}

/-- The operators that take values of pending bodies away leave no more values counted as deferred
than there are in complete bodies. -/
def keepsCount : Rule := fun op _ t => displaces op → t.deferred ≤ inside t.values

instance (op : Operator) (s t : Stack) : Decidable (keepsCount op s t) :=
  inferInstanceAs (Decidable (_ → _))

theorem act_keepsCount {op : Operator} {s t : Stack} {u : Unit} (h : op.act s = .ok u t)
    (hok : keepsCount op s t) (hs : s.deferred ≤ inside s.values) :
    t.deferred ≤ inside t.values := by
  by_cases hd : displaces op
  · exact hok hd
  · obtain ⟨p, q, hr, hp, -⟩ := Operator.effect_act h
    have hplain : ∀ v ∈ p, v.Plain := fun v hv => (hp v hv).elim id fun h => absurd h.1 hd
    obtain ⟨b, hsv, htv⟩ := hr.values
    calc t.deferred = s.deferred := hr.deferred
      _ ≤ inside s.values := hs
      _ = inside b := by rw [hsv, inside_append_plain hplain]
      _ ≤ inside t.values := htv ▸ inside_le_append q b

theorem stable_inside : Stable keepsCount fun vs k => k ≤ inside vs where
  put {v vs k} _ h := Nat.le_trans h (inside_le_cons v vs)
  take {v vs k} hv h := by rwa [inside_cons_plain hv] at h
  close {w vs k} hw h := by
    rw [inside_body hw]
    omega
  lift {w vs k} hw h := by
    rw [inside_body hw] at h
    omega
  act := act_keepsCount

/-- The length fits the limit and the deferred values, so the operands fit the limit where these
are inside bodies. -/
theorem operandCount_le_of_deferred {n : Nat} {s : Stack} (hs : s.Within n)
    (h : s.deferred ≤ inside s.values) : operandCount s.values ≤ n := by
  have hlive := hs.2
  have hlen := operandCount_add_inside s.values
  rw [Stack.live_eq] at hlive
  omega

theorem operands_le_of_pending {n : Nat} {m : Machine} (hs : m.stack.Within n)
    (h : Pending (fun vs k => k ≤ inside vs) (m.depth - 1) m.stack) : m.operands ≤ n := by
  unfold Machine.operands
  cases hd : m.depth - 1 with
  | zero =>
    rw [hd] at h
    rw [if_neg (by omega), outside]
    exact operandCount_le_of_deferred hs h
  | succ k =>
    rw [hd] at h
    obtain ⟨w, vs, j, hw, hv, hj, hle⟩ := h
    have hlive := hs.2
    have hlen := operandCount_add_inside vs
    rw [if_pos (by omega), hv, outside_append hw, outside, outside]
    rw [Stack.live_eq, hv, hj] at hlive
    simp only [List.length_append, List.length_reverse, List.length_cons] at hlive
    omega

/-- The limit holds, and would hold however many numbers or booleans came next. -/
def Moment.LimitHolds (n : Nat) (μ : Moment) : Prop :=
  μ.machine.operands ≤ n ∧ (μ.machine.depth ≤ 1 → ∀ vs t, (∀ v ∈ vs, v.Plain) →
    StackM.pushAll vs μ.machine.stack = .ok () t → operandCount t.values ≤ n)

theorem values_of_pushAll {vs : List Value} {s t : Stack} {u : Unit}
    (h : StackM.pushAll vs s = .ok u t) :
    t.values = vs.reverse ++ s.values ∧ t.deferred = s.deferred := by
  have hr := StackM.replaced_of_pushAll h
  obtain ⟨b, hs, ht⟩ := hr.values
  rw [List.nil_append] at hs
  exact ⟨hs ▸ ht, hr.deferred⟩

/-- As long as the limit lets them, values can be pushed. -/
theorem exists_pushAll {vs : List Value} {s : Stack} (hl : 0 < s.limit)
    (h : s.values.length + vs.length ≤ s.limit + s.deferred) :
    ∃ t, StackM.pushAll vs s = .ok () t := by
  induction vs generalizing s with
  | nil => exact ⟨s, rfl⟩
  | cons v vs ih =>
    rw [List.length_cons] at h
    have hlive : s.live < s.limit := by
      rw [Stack.live_eq]
      omega
    have hv : StackM.push v s = .ok () (s.cons v) := StackM.push_eq_ok.2 ⟨hlive, rfl⟩
    have hlen : (s.cons v).values.length + vs.length ≤ (s.cons v).limit + (s.cons v).deferred := by
      simp only [Stack.values_cons, List.length_cons, Stack.limit_cons, Stack.deferred_cons]
      omega
    obtain ⟨t, ht⟩ := ih (s := s.cons v) hl hlen
    exact ⟨t, (bind_of_ok hv).trans ht⟩

/-- Where the deferred values are not all in bodies, the limit lets too many operands in. -/
theorem deferred_le_inside {n : Nat} {s : Stack} (hn : 0 < n) (hs : s.Within n)
    (h : ∀ vs t, (∀ v ∈ vs, v.Plain) → StackM.pushAll vs s = .ok () t →
      operandCount t.values ≤ n) : s.deferred ≤ inside s.values := by
  have hlive := hs.2
  rw [Stack.live_eq] at hlive
  -- as many booleans as the stack takes
  let vs := List.replicate (n + s.deferred - s.values.length) (Value.bool true)
  have hvs : ∀ v ∈ vs, v.Plain := fun v hv => List.eq_of_mem_replicate hv ▸ Value.plain_bool true
  have hlen : vs.length = n + s.deferred - s.values.length := List.length_replicate
  obtain ⟨t, ht⟩ : ∃ t, StackM.pushAll vs s = .ok () t :=
    exists_pushAll (hs.1.symm ▸ hn) (by rw [hs.1]; omega)
  have hcount := h vs t hvs ht
  obtain ⟨hv, hd⟩ := values_of_pushAll ht
  have hinside : inside t.values = inside s.values := by
    rw [hv]
    exact inside_append_plain (by simpa using hvs) s.values
  have htotal := operandCount_add_inside t.values
  rw [hinside, hv, List.length_append, List.length_reverse, hlen] at htotal
  rw [hv] at hcount
  omega

theorem inputs_le_of_act {op : Operator} {s t : Stack} {u : Unit} (h : op.act s = .ok u t) :
    op.inputs ≤ s.values.length := by
  obtain ⟨_, _, hr, -⟩ := bind_eq_ok.1 h
  exact (StackM.require_eq_ok.1 hr).1

theorem length_eq_zero_of_operandCount {vs : List Value} (h : operandCount vs = 0) :
    vs.length = 0 := by
  cases vs with
  | nil => rfl
  | cons v vs =>
    by_cases hv : v = .closing
    · subst hv
      rw [operandCount] at h
      split at h <;> simp at h
    · rw [operandCount_cons hv] at h
      simp at h

variable {text : Bytes} {xs : List Float} {s : Stack} {log : Log} {μ : Moment}

theorem limitHolds_of_reaches (hs : Stack.ofNumbers l.maxStack xs = .ok s)
    (h : Reaches l keepsCount (start { stack := s, log } text) μ) :
    μ.LimitHolds l.maxStack := by
  obtain ⟨-, hl, hd, hroom⟩ := Stack.of_ofNumbers hs
  have hin : μ.machine.stack.Within l.maxStack := within_of_reaches h rfl ⟨hl, hl ▸ hroom⟩
  have hstart : s.deferred ≤ inside s.values := by omega
  have hp := pending_of_reaches stable_inside h rfl hstart
  refine ⟨operands_le_of_pending hin hp, fun hdepth vs t _ ht => ?_⟩
  rw [show μ.machine.depth - 1 = 0 by omega] at hp
  obtain ⟨hv, hdt⟩ := values_of_pushAll ht
  refine operandCount_le_of_deferred ((StackM.replaced_of_pushAll ht).within hin) ?_
  calc t.deferred = μ.machine.stack.deferred := hdt
    _ ≤ inside μ.machine.stack.values := hp
    _ ≤ inside t.values := hv ▸ inside_le_append _ _

theorem keepsCount_of_limitHolds (hs : Stack.ofNumbers l.maxStack xs = .ok s)
    (h : ∀ μ, Reaches l anything (start { stack := s, log } text) μ → μ.LimitHolds l.maxStack) :
    Obeys l keepsCount (start { stack := s, log } text) := by
  intro μ μ' op hμ hadv hop hdisplaces
  obtain ⟨-, hl, -, hroom⟩ := Stack.of_ofNumbers hs
  have hb : op.runsBody = false := by cases op <;> first | rfl | simp [displaces] at hdisplaces
  obtain ⟨hact, hdepth, hle⟩ := act_of_advance hadv hop hb
  have hμ' := hμ.tail ⟨hadv, fun _ _ => trivial⟩
  rcases Nat.eq_zero_or_pos l.maxStack with hzero | hpos
  · -- there is nothing on the stack to displace
    have hcount := (h μ hμ).2 hle [] μ.machine.stack (by simp) rfl
    rw [hzero] at hcount
    have hlen := length_eq_zero_of_operandCount (Nat.le_zero.1 hcount)
    have hinputs := inputs_le_of_act hact
    have : 0 < op.inputs := by cases op <;> first | decide | simp [displaces] at hdisplaces
    omega
  · have hin : μ'.machine.stack.Within l.maxStack := within_of_reaches hμ' rfl ⟨hl, hl ▸ hroom⟩
    exact deferred_le_inside hpos hin ((h μ' hμ').2 (hdepth ▸ hle))

/-- The limit holds at every moment exactly if `pop`, `exch` and `roll` never leave values counted
as deferred that are no longer in a body. The final stack is the one at the last moment. -/
theorem limitHolds_iff_keepsCount (hs : Stack.ofNumbers l.maxStack xs = .ok s) :
    ((∀ μ, Reaches l anything (start { stack := s, log } text) μ → μ.LimitHolds l.maxStack) ↔
      Obeys l keepsCount (start { stack := s, log } text)) ∧
    ∀ t log', evaluateText l text s log = .ok t log' →
      ∃ μ, Reaches l anything (start { stack := s, log } text) μ ∧ advance l μ = none ∧
        μ.machine.stack = t :=
  ⟨⟨keepsCount_of_limitHolds hs, fun hok _ h => limitHolds_of_reaches hs (hok.reaches h)⟩,
    fun _ _ h => exists_last_moment h⟩

/-- A program that drops numbers and runs a body. -/
theorem limitHolds_of_kept_body : ∃ s, Stack.ofNumbers 2 [1] = .ok s ∧
    ∀ μ, Reaches { maxStack := 2 } anything (start { stack := s }
      (Bytes.ofText "\x7b pop true \x7b 2 3 pop \x7d if \x7d")) μ → μ.LimitHolds 2 := by
  have hs : Stack.ofNumbers 2 [1] = .ok { limit := 2, values := [.number 1] } := rfl
  refine ⟨_, hs, (limitHolds_iff_keepsCount hs).1.2 ?_⟩
  have hrun : (after { maxStack := 2 } keepsCount 14
      (start { stack := { limit := 2, values := [.number 1] } }
        (Bytes.ofText "\x7b pop true \x7b 2 3 pop \x7d if \x7d"))).map
      (fun μ => (advance { maxStack := 2 } μ).isNone) = some true := by decide +kernel
  obtain ⟨μ, hμ, hend⟩ := Option.map_eq_some_iff.1 hrun
  exact obeys_of_after hμ (Option.isNone_iff_eq_none.1 hend)

/-- The body is popped value by value, and then five numbers fit a limit of one. -/
theorem operands_exceed_limit : ∃ s μ, Stack.ofNumbers 1 [] = .ok s ∧
    Reaches { maxStack := 1 } anything (start { stack := s }
      (Bytes.ofText "\x7b \x7b 1 2 3 \x7d pop pop pop pop pop 1 2 3 4 5 \x7d")) μ ∧
    advance { maxStack := 1 } μ = none ∧ μ.machine.operands = 5 := by
  have hs : Stack.ofNumbers 1 [] = .ok { limit := 1 } := rfl
  have hrun : (after { maxStack := 1 } anything 17 (start { stack := { limit := 1 } }
      (Bytes.ofText "\x7b \x7b 1 2 3 \x7d pop pop pop pop pop 1 2 3 4 5 \x7d"))).map
      (fun μ => ((advance { maxStack := 1 } μ).isNone, μ.machine.operands)) = some (true, 5) := by
    decide +kernel
  obtain ⟨μ, hμ, he⟩ := Option.map_eq_some_iff.1 hrun
  obtain ⟨hend, hcount⟩ := Prod.mk.inj he
  exact ⟨_, μ, hs, reaches_of_after hμ, Option.isNone_iff_eq_none.1 hend, hcount⟩

end PdfFunctions
