import PdfFunctions.Proofs.BodyCapture
import PdfFunctions.Proofs.OperatorEffects

namespace PdfFunctions.Machine

open Braces

/-- `op` takes its bodies and its condition off `s` and leaves `t`, with `w` as the body to run. -/
inductive Picks : Operator → Stack → List Value → Stack → Prop where
  | single {w : List Value} {s s₁ t : Stack} (hw : Body.Lifted w s s₁)
      (hb : StackM.popBool "if" s₁ = .ok true t) : Picks .runIf s w t
  | first {w w' : List Value} {s s₁ s₂ t : Stack} (hw' : Body.Lifted w' s s₁)
      (hw : Body.Lifted w s₁ s₂) (hb : StackM.popBool "ifelse" s₂ = .ok true t) :
      Picks .runIfElse s w t
  | second {w w' : List Value} {s s₁ s₂ t : Stack} (hw' : Body.Lifted w' s s₁)
      (hw : Body.Lifted w s₁ s₂) (hb : StackM.popBool "ifelse" s₂ = .ok false t) :
      Picks .runIfElse s w' t

abbrev logged (m : Machine) (op : Operator) : Log := .execute op m.stack.size :: m.log

inductive Accepts (l : Limits) (m : Machine) : Value → Machine → Prop where
  | wrapperOpens (hd : m.depth = 0) (hn : 0 < l.maxNesting) :
      Accepts l m .opening { m with depth := 1 }
  | bodyOpens {t : Stack} (hd : m.depth = 1) (hn : 1 < l.maxNesting)
      (ht : StackM.push .opening m.stack = .ok () t) :
      Accepts l m .opening { m with depth := 2, stack := t }
  | wrapperCloses (hd : m.depth = 1) : Accepts l m .closing { m with depth := 0 }
  | ignored (hd : m.depth = 0) :
      Accepts l m .closing { m with log := .unmatchedClosing :: m.log }
  | deferred {v : Value} {t : Stack} (hd : 2 ≤ m.depth)
      (hn : v = .opening → m.depth < l.maxNesting)
      (ht : StackM.defer v l.maxBodies m.stack = .ok () t) :
      Accepts l m v { m with depth := depthAfter m.depth v, stack := t }
  | pushed {v : Value} {t : Stack} (hd : m.depth ≤ 1) (hv : v.Plain)
      (ht : StackM.push v m.stack = .ok () t) : Accepts l m v { m with stack := t }
  | acted {op : Operator} {t : Stack} (hd : m.depth ≤ 1) (hop : op.runsBody = false)
      (ht : op.act m.stack = .ok () t) :
      Accepts l m (.operator op) { m with stack := t, log := m.logged op }
  | skipped {w : List Value} {s t : Stack} (hd : m.depth ≤ 1) (hw : Body.Lifted w m.stack s)
      (hb : StackM.popBool "if" s = .ok false t) :
      Accepts l m (.operator .runIf) { m with stack := t, log := m.logged .runIf }
  | entered {op : Operator} {w : List Value} {t : Stack} (hd : m.depth ≤ 1)
      (hp : Picks op m.stack w t) :
      Accepts l m (.operator op)
        { m with stack := t, log := m.logged op, depth := 1, calls := ⟨w, m.depth⟩ :: m.calls }

theorem onStack_of_ok {α : Type} {x : StackM α} {m : Machine} {a : α} {t : Stack}
    (h : x m.stack = .ok a t) : onStack x m = .ok a { m with stack := t } := by
  rw [onStack, h]

theorem onStack_of_error {α : Type} {x : StackM α} {m : Machine} {e : Error} {t : Stack}
    (h : x m.stack = .error e t) : onStack x m = .error e { m with stack := t } := by
  rw [onStack, h]

theorem onStack_eq_ok {α : Type} {x : StackM α} {m m' : Machine} {a : α} :
    onStack x m = .ok a m' ↔ ∃ t, x m.stack = .ok a t ∧ m' = { m with stack := t } := by
  cases h : x m.stack with
  | ok b t =>
    rw [onStack_of_ok h]
    constructor
    · rintro ⟨⟩
      exact ⟨t, rfl, rfl⟩
    · rintro ⟨_, ⟨⟩, rfl⟩
      rfl
  | error e t => simp [onStack_of_error h]

theorem onStack_bind {α β : Type} (x : StackM α) (f : α → StackM β) :
    onStack (x >>= f) = onStack x >>= fun a => onStack (f a) := by
  funext m
  cases h : x m.stack with
  | ok a t =>
    rw [bind_of_ok (onStack_of_ok h)]
    simp only [onStack, bind_of_ok h]
  | error e t => rw [bind_of_error (onStack_of_error h), onStack_of_error (bind_of_error h)]

theorem control_eq_onStack {op : Operator} (hc : op.category = .control)
    (hop : op.runsBody = false) :
    control op = onStack op.pushConstant := by
  cases op with
  | pushTrue | pushFalse => rfl
  | runIf | runIfElse => exact absurd hop (by decide)
  | _ => exact absurd hc (by decide)

theorem execute_eq_onStack {op : Operator} (hop : op.runsBody = false) :
    execute op = onStack op.execute := by
  rw [execute, Operator.execute]
  cases hc : op.category with
  | control => exact control_eq_onStack hc hop
  | _ => rfl

theorem execute_of_control {op : Operator} (hc : op.category = .control) :
    execute op = control op := by
  rw [execute, hc]

theorem operate_apply (op : Operator) (m : Machine) :
    operate op m = (onStack (StackM.require op.name op.inputs) >>= fun _ => execute op)
      { m with log := m.logged op } := rfl

/-- An operator that runs no body does to the machine what it does to the stack. -/
theorem operate_eq_act {op : Operator} (hop : op.runsBody = false) (m : Machine) :
    operate op m = onStack op.act { m with log := m.logged op } := by
  rw [operate_apply, execute_eq_onStack hop, Operator.act, onStack_bind]

/-- A control operator that finds enough values on the stack. -/
theorem operate_of_enough {op : Operator} (hc : op.category = .control) {m : Machine}
    (hn : op.inputs ≤ m.stack.values.length) :
    operate op m = control op { m with log := m.logged op } := by
  have hr : StackM.require op.name op.inputs m.stack = .ok () m.stack :=
    StackM.require_eq_ok.2 ⟨hn, rfl⟩
  rw [operate_apply, bind_of_ok (onStack_of_ok (m := { m with log := m.logged op }) hr),
    execute_of_control hc]

theorem enough_of_operate {op : Operator} {m m' : Machine} {u : Unit}
    (h : operate op m = .ok u m') : op.inputs ≤ m.stack.values.length := by
  rw [operate_apply] at h
  obtain ⟨_, _, hr, -⟩ := bind_eq_ok.1 h
  obtain ⟨_, hr, -⟩ := onStack_eq_ok.1 hr
  exact (StackM.require_eq_ok.1 hr).1

theorem openBrace_apply (l : Limits) (m : Machine) :
    openBrace l m =
      if l.maxNesting ≤ m.depth then .error (.nestingTooDeep l.maxNesting) m
      else match m.depth with
        | 0 => .ok () { m with depth := 1 }
        | 1 => onStack (StackM.push .opening) { m with depth := 2 }
        | d + 2 => defer l .opening { m with depth := d + 3 } := by
  obtain ⟨s, d, cs, log⟩ := m
  refine (get_bind _ _).trans ?_
  dsimp only
  split
  · rfl
  · match d with
    | 0 => rfl
    | 1 => rfl
    | d + 2 => rfl

theorem closeBrace_apply (l : Limits) (m : Machine) :
    closeBrace l m =
      match m.depth with
      | 0 => .ok () { m with log := .unmatchedClosing :: m.log }
      | 1 => .ok () { m with depth := 0 }
      | d + 2 => (defer l .closing >>= fun _ => setDepth (d + 1)) m := by
  obtain ⟨s, d, cs, log⟩ := m
  match d with
  | 0 => rfl
  | 1 => rfl
  | d + 2 => rfl

theorem accept_operator (l : Limits) (op : Operator) {m : Machine} (hd : m.depth ≤ 1) :
    accept l (.operator op) m = operate op m := by
  refine (get_bind _ _).trans ?_
  rw [if_pos hd]

theorem accept_operator_deferred (l : Limits) (op : Operator) {m : Machine} (hd : 2 ≤ m.depth) :
    accept l (.operator op) m = defer l (.operator op) m := by
  refine (get_bind _ _).trans ?_
  rw [if_neg (by omega)]

theorem accept_plain (l : Limits) {v : Value} (hv : v.Plain) {m : Machine} (hd : m.depth ≤ 1) :
    accept l v m = onStack (StackM.push v) m := by
  cases v with
  | number | bool =>
    refine (get_bind _ _).trans ?_
    rw [if_pos hd]
  | _ => simp at hv

theorem accept_plain_deferred (l : Limits) {v : Value} (hv : v.Plain) {m : Machine}
    (hd : 2 ≤ m.depth) : accept l v m = defer l v m := by
  cases v with
  | number | bool =>
    refine (get_bind _ _).trans ?_
    rw [if_neg (by omega)]
  | _ => simp at hv

theorem control_runIf_eq : control .runIf = onStack (Body.pop "if") >>= fun body =>
    onStack (StackM.popBool "if") >>= fun b => if b then enter body else pure () := rfl

theorem control_runIfElse_eq : control .runIfElse = onStack (Body.pop "ifelse") >>= fun otherwise =>
    onStack (Body.pop "ifelse") >>= fun body => onStack (StackM.popBool "ifelse") >>= fun b =>
      if b then enter body else enter otherwise := rfl

/-- With the body and the condition of `if` lifted, the condition decides. -/
theorem control_runIf {m : Machine} {w : List Value} {s t : Stack} {b : Bool}
    (hw : Body.Lifted w m.stack s) (hb : StackM.popBool "if" s = .ok b t) :
    control .runIf m = (if b then enter w else pure ()) { m with stack := t } := by
  rw [control_runIf_eq, bind_of_ok (onStack_of_ok (Body.pop_eq_ok.2 hw)),
    bind_of_ok (onStack_of_ok (m := { m with stack := s }) hb)]

theorem control_runIf_error {m : Machine} {w : List Value} {s t : Stack} {e : Error}
    (hw : Body.Lifted w m.stack s) (hb : StackM.popBool "if" s = .error e t) :
    control .runIf m = .error e { m with stack := t } := by
  rw [control_runIf_eq, bind_of_ok (onStack_of_ok (Body.pop_eq_ok.2 hw)),
    bind_of_error (onStack_of_error (m := { m with stack := s }) hb)]

theorem control_runIfElse {m : Machine} {w w' : List Value} {s₁ s₂ t : Stack} {b : Bool}
    (hw' : Body.Lifted w' m.stack s₁) (hw : Body.Lifted w s₁ s₂)
    (hb : StackM.popBool "ifelse" s₂ = .ok b t) :
    control .runIfElse m = (if b then enter w else enter w') { m with stack := t } := by
  rw [control_runIfElse_eq, bind_of_ok (onStack_of_ok (Body.pop_eq_ok.2 hw')),
    bind_of_ok (onStack_of_ok (m := { m with stack := s₁ }) (Body.pop_eq_ok.2 hw)),
    bind_of_ok (onStack_of_ok (m := { m with stack := s₂ }) hb)]

theorem control_runIfElse_error {m : Machine} {w w' : List Value} {s₁ s₂ t : Stack} {e : Error}
    (hw' : Body.Lifted w' m.stack s₁) (hw : Body.Lifted w s₁ s₂)
    (hb : StackM.popBool "ifelse" s₂ = .error e t) :
    control .runIfElse m = .error e { m with stack := t } := by
  rw [control_runIfElse_eq, bind_of_ok (onStack_of_ok (Body.pop_eq_ok.2 hw')),
    bind_of_ok (onStack_of_ok (m := { m with stack := s₁ }) (Body.pop_eq_ok.2 hw)),
    bind_of_error (onStack_of_error (m := { m with stack := s₂ }) hb)]

theorem enough_of_lifted {w : List Value} {s t : Stack} (hw : Body.Lifted w s t) :
    Operator.runIf.inputs ≤ s.values.length := by
  have hl := hw.length
  change 2 ≤ s.values.length
  omega

theorem enough_of_lifted_two {w w' : List Value} {s s₁ t : Stack} (hw' : Body.Lifted w' s s₁)
    (hw : Body.Lifted w s₁ t) : Operator.runIfElse.inputs ≤ s.values.length := by
  have hl := hw.length
  have hl' := hw'.length
  change 3 ≤ s.values.length
  omega

theorem lifted_of_control_runIf {m m' : Machine} {u : Unit} (h : control .runIf m = .ok u m') :
    ∃ w s b t, Body.Lifted w m.stack s ∧ StackM.popBool "if" s = .ok b t := by
  rw [control_runIf_eq] at h
  obtain ⟨w, m₁, hw, h⟩ := bind_eq_ok.1 h
  obtain ⟨s, hs, rfl⟩ := onStack_eq_ok.1 hw
  obtain ⟨b, m₂, hb, -⟩ := bind_eq_ok.1 h
  obtain ⟨t, ht, -⟩ := onStack_eq_ok.1 hb
  exact ⟨w, s, b, t, Body.pop_eq_ok.1 hs, ht⟩

theorem lifted_of_control_runIfElse {m m' : Machine} {u : Unit}
    (h : control .runIfElse m = .ok u m') :
    ∃ w' s₁ w s₂ b t, Body.Lifted w' m.stack s₁ ∧ Body.Lifted w s₁ s₂ ∧
      StackM.popBool "ifelse" s₂ = .ok b t := by
  rw [control_runIfElse_eq] at h
  obtain ⟨w', m₁, hw', h⟩ := bind_eq_ok.1 h
  obtain ⟨s₁, hs₁, rfl⟩ := onStack_eq_ok.1 hw'
  obtain ⟨w, m₂, hw, h⟩ := bind_eq_ok.1 h
  obtain ⟨s₂, hs₂, rfl⟩ := onStack_eq_ok.1 hw
  obtain ⟨b, m₃, hb, -⟩ := bind_eq_ok.1 h
  obtain ⟨t, ht, -⟩ := onStack_eq_ok.1 hb
  exact ⟨w', s₁, w, s₂, b, t, Body.pop_eq_ok.1 hs₁, Body.pop_eq_ok.1 hs₂, ht⟩

theorem accepts_of_operate {l : Limits} {op : Operator} {m m' : Machine} {u : Unit}
    (hd : m.depth ≤ 1) (h : operate op m = .ok u m') : Accepts l m (.operator op) m' := by
  cases hop : op.runsBody with
  | false =>
    rw [operate_eq_act hop] at h
    obtain ⟨t, ht, rfl⟩ := onStack_eq_ok.1 h
    exact .acted hd hop ht
  | true =>
    -- the operands were counted before the bodies are lifted
    have hn := enough_of_operate h
    cases op with
    | runIf =>
      rw [operate_of_enough rfl hn] at h
      obtain ⟨w, s, b, t, hw, hb⟩ := lifted_of_control_runIf h
      rw [control_runIf hw hb] at h
      cases b with
      | true =>
        obtain ⟨-, rfl⟩ := EStateM.Result.ok.inj h
        exact .entered hd (.single hw hb)
      | false =>
        obtain ⟨-, rfl⟩ := EStateM.Result.ok.inj h
        exact .skipped hd hw hb
    | runIfElse =>
      rw [operate_of_enough rfl hn] at h
      obtain ⟨w', s₁, w, s₂, b, t, hw', hw, hb⟩ := lifted_of_control_runIfElse h
      rw [control_runIfElse hw' hw hb] at h
      cases b with
      | true =>
        obtain ⟨-, rfl⟩ := EStateM.Result.ok.inj h
        exact .entered hd (.first hw' hw hb)
      | false =>
        obtain ⟨-, rfl⟩ := EStateM.Result.ok.inj h
        exact .entered hd (.second hw' hw hb)
    | _ => exact absurd hop (by decide)

theorem accepts_of_openBrace {l : Limits} {m m' : Machine} {u : Unit}
    (h : openBrace l m = .ok u m') : Accepts l m .opening m' := by
  obtain ⟨s, d, cs, log⟩ := m
  rw [openBrace_apply] at h
  split at h
  · simp at h
  · rename_i hn
    match d with
    | 0 =>
      obtain ⟨-, rfl⟩ := EStateM.Result.ok.inj h
      exact .wrapperOpens rfl (Nat.lt_of_not_le hn)
    | 1 =>
      obtain ⟨t, ht, rfl⟩ := onStack_eq_ok.1 h
      exact .bodyOpens rfl (Nat.lt_of_not_le hn) ht
    | d + 2 =>
      obtain ⟨t, ht, rfl⟩ := onStack_eq_ok.1 h
      exact .deferred (by simp) (fun _ => Nat.lt_of_not_le hn) ht

theorem accepts_of_closeBrace {l : Limits} {m m' : Machine} {u : Unit}
    (h : closeBrace l m = .ok u m') : Accepts l m .closing m' := by
  obtain ⟨s, d, cs, log⟩ := m
  rw [closeBrace_apply] at h
  match d with
  | 0 =>
    obtain ⟨-, rfl⟩ := EStateM.Result.ok.inj h
    exact .ignored rfl
  | 1 =>
    obtain ⟨-, rfl⟩ := EStateM.Result.ok.inj h
    exact .wrapperCloses rfl
  | d + 2 =>
    obtain ⟨_, m₁, hs, h⟩ := bind_eq_ok.1 h
    obtain ⟨t, ht, rfl⟩ := onStack_eq_ok.1 hs
    obtain ⟨-, rfl⟩ := EStateM.Result.ok.inj h
    exact .deferred (by simp) (by simp) ht

theorem accepts_of_defer {l : Limits} {v : Value} {m m' : Machine} {u : Unit}
    (hd : 2 ≤ m.depth) (ho : v ≠ .opening) (hc : v ≠ .closing) (h : defer l v m = .ok u m') :
    Accepts l m v m' := by
  obtain ⟨t, ht, rfl⟩ := onStack_eq_ok.1 h
  -- no brace, so the depth stays
  have hv : depthAfter m.depth v = m.depth := depthAfter_of_level (level_of_ne _ ho hc)
  have hm : { m with stack := t } = { m with depth := depthAfter m.depth v, stack := t } := by
    rw [hv]
  rw [hm]
  exact .deferred hd (fun h => absurd h ho) ht

theorem accepts_of_accept {l : Limits} {v : Value} {m m' : Machine} {u : Unit}
    (h : accept l v m = .ok u m') : Accepts l m v m' := by
  cases v with
  | opening => exact accepts_of_openBrace h
  | closing => exact accepts_of_closeBrace h
  | operator op =>
    by_cases hd : m.depth ≤ 1
    · rw [accept_operator l op hd] at h
      exact accepts_of_operate hd h
    · rw [accept_operator_deferred l op (by omega)] at h
      exact accepts_of_defer (by omega) (by simp) (by simp) h
  | number | bool =>
    by_cases hd : m.depth ≤ 1
    · rw [accept_plain l (by simp) hd] at h
      obtain ⟨t, ht, rfl⟩ := onStack_eq_ok.1 h
      exact .pushed hd (by simp) ht
    · rw [accept_plain_deferred l (by simp) (by omega)] at h
      exact accepts_of_defer (by omega) (by simp) (by simp) h

theorem accept_of_deferred {l : Limits} {v : Value} {m : Machine} {t : Stack}
    (hd : 2 ≤ m.depth) (hn : v = .opening → m.depth < l.maxNesting)
    (ht : StackM.defer v l.maxBodies m.stack = .ok () t) :
    accept l v m = .ok () { m with depth := depthAfter m.depth v, stack := t } := by
  obtain ⟨s, d, cs, log⟩ := m
  match d, hd with
  | d + 2, hd =>
    cases v with
    | opening =>
      refine (openBrace_apply _ _).trans ?_
      rw [if_neg (Nat.not_le.2 (hn rfl))]
      exact onStack_of_ok (m := ⟨s, d + 3, cs, log⟩) ht
    | closing =>
      refine (closeBrace_apply _ _).trans ?_
      exact (bind_of_ok (onStack_of_ok (m := ⟨s, d + 2, cs, log⟩) ht)).trans rfl
    | operator op => exact (accept_operator_deferred l op hd).trans (onStack_of_ok ht)
    | number | bool =>
      exact (accept_plain_deferred l (by simp) hd).trans (onStack_of_ok ht)

theorem operate_of_picks {op : Operator} {m : Machine} {w : List Value} {t : Stack}
    (hp : Picks op m.stack w t) :
    operate op m = .ok ()
      { m with stack := t, log := m.logged op, depth := 1, calls := ⟨w, m.depth⟩ :: m.calls } := by
  cases hp with
  | single hw hb =>
    rw [operate_of_enough rfl (enough_of_lifted hw)]
    exact control_runIf (m := { m with log := m.logged .runIf }) hw hb
  | first hw' hw hb | second hw' hw hb =>
    rw [operate_of_enough rfl (enough_of_lifted_two hw' hw)]
    exact control_runIfElse (m := { m with log := m.logged .runIfElse }) hw' hw hb

theorem operate_of_skipped {m : Machine} {w : List Value} {s t : Stack}
    (hw : Body.Lifted w m.stack s) (hb : StackM.popBool "if" s = .ok false t) :
    operate .runIf m = .ok () { m with stack := t, log := m.logged .runIf } := by
  rw [operate_of_enough rfl (enough_of_lifted hw)]
  exact control_runIf (m := { m with log := m.logged .runIf }) hw hb

theorem accept_of_accepts {l : Limits} {v : Value} {m m' : Machine} (h : Accepts l m v m') :
    accept l v m = .ok () m' := by
  cases h with
  | wrapperOpens hd hn =>
    refine (openBrace_apply _ _).trans ?_
    rw [hd, if_neg (Nat.not_le.2 hn)]
  | bodyOpens hd hn ht =>
    refine (openBrace_apply _ _).trans ?_
    rw [hd, if_neg (Nat.not_le.2 hn)]
    exact onStack_of_ok (m := { m with depth := 2 }) ht
  | wrapperCloses hd =>
    refine (closeBrace_apply _ _).trans ?_
    rw [hd]
  | ignored hd =>
    refine (closeBrace_apply _ _).trans ?_
    rw [hd]
  | deferred hd hn ht => exact accept_of_deferred hd hn ht
  | pushed hd hv ht => exact (accept_plain l hv hd).trans (onStack_of_ok ht)
  | acted hd hop ht =>
    rw [accept_operator l _ hd, operate_eq_act hop]
    exact onStack_of_ok (m := { m with log := m.logged _ }) ht
  | skipped hd hw hb => exact (accept_operator l _ hd).trans (operate_of_skipped hw hb)
  | entered hd hp => exact (accept_operator l _ hd).trans (operate_of_picks hp)

theorem accept_eq_ok_iff {l : Limits} {v : Value} {m m' : Machine} :
    accept l v m = .ok () m' ↔ Accepts l m v m' :=
  ⟨accepts_of_accept, accept_of_accepts⟩

end PdfFunctions.Machine
