import PdfFunctions.Proofs.CountedOperators
import PdfFunctions.Proofs.Defects

namespace PdfFunctions

open Stack StackM Value Rearrangement

/-- Both have come to the same, or both have missed the same number of operands and left the
same. -/
inductive SameEffect {σ τ : Type} (view : σ → τ) :
    EStateM.Result Error σ Unit → EStateM.Result Error σ Unit → Prop where
  | ok {s t : σ} (h : view s = view t) : SameEffect view (.ok () s) (.ok () t)
  | underflow {op op' : String} {needed available : Nat} {s t : σ} (h : view s = view t) :
    SameEffect view (.error (.stackUnderflow op needed available) s)
      (.error (.stackUnderflow op' needed available) t)

/-- Where there has been room for all that was pushed, the outcomes are the same. -/
def Equivalent {σ τ : Type} (view : σ → τ) (r r' : EStateM.Result Error σ Unit) : Prop :=
  HasRoom r → HasRoom r' → SameEffect view r r'

section identities

variable {n : Nat} {s : Stack}

theorem sameEffect_push {v : Value} (h : HasRoom (push v s)) :
    SameEffect id (push v s) (push v s) := by
  rw [push_of_hasRoom h]
  exact .ok rfl

theorem sameEffect_pushAll {vs : List Value} (h : HasRoom (pushAll vs s)) :
    SameEffect id (pushAll vs s) (pushAll vs s) := by
  induction vs generalizing s with
  | nil => exact .ok rfl
  | cons v vs ih =>
    have hpush := push_of_hasRoom h.first
    rw [pushAll, bind_of_ok hpush]
    exact ih (h.rest hpush)

def doublings : List (List Value) :=
  [[.operator .dup], [ofInt 0, .operator .index], [ofInt 1, .operator .copy]]

theorem underflow_of_nil (hs : s.values = []) (op : String) (needed : Nat) :
    s.underflow op needed = .stackUnderflow op needed 0 := by
  rw [underflow, s.size_eq, hs, List.length_nil]

theorem duplicate_of_nil (op : String) (hs : s.values = []) :
    duplicate op 1 s = .error (.stackUnderflow op 1 0) s := by
  rw [duplicate_of_lt (by rw [hs]; exact Nat.one_pos), underflow_of_nil hs]

theorem duplicate_of_cons (op : String) {v : Value} {b : List Value} (hs : s.values = v :: b) :
    duplicate op 1 s = push v s := by
  rw [duplicate_of_le (by rw [hs]; exact Nat.succ_pos _), hs]
  exact congrFun (bind_pure_unit (x := push v)) s

theorem act_dup_of_nil (hs : s.values = []) :
    Operator.dup.act s = .error (.stackUnderflow "dup" 1 0) s := by
  rw [← underflow_of_nil hs]
  exact bind_of_error (require_of_lt (by rw [hs]; exact Nat.one_pos))

/-- Each of them pushes the topmost value, or misses it. -/
theorem doubling_eq {vs : List Value} (hvs : vs ∈ doublings) (h : HasRoom (enactAll vs s)) :
    (∃ op, s.values = [] ∧ enactAll vs s = .error (.stackUnderflow op 1 0) s) ∨
      ∃ v b, s.values = v :: b ∧ enactAll vs s = push v s := by
  have hindex (h : HasRoom (enactAll [ofInt 0, .operator .index] s)) :
      enactAll [ofInt 0, .operator .index] s = fetch 0 s :=
    (enactAll_index (n := 0) (by decide) h).trans (congrFun (bind_pure_unit (x := fetch 0)) s)
  have hcopy : HasRoom (enactAll [ofInt 1, .operator .copy] s) →
      enactAll [ofInt 1, .operator .copy] s = duplicate "copy" 1 s :=
    enactAll_copy (n := 1) (by decide)
  simp only [doublings, List.mem_cons, List.not_mem_nil, or_false] at hvs
  cases hs : s.values with
  | nil =>
    refine .inl ?_
    rcases hvs with rfl | rfl | rfl
    · exact ⟨"dup", rfl, by rw [enactAll_singleton]; exact act_dup_of_nil hs⟩
    · refine ⟨"index", rfl, (hindex h).trans ?_⟩
      rw [fetch_of_le (by rw [hs]; exact Nat.zero_le _), underflow_of_nil hs]
    · exact ⟨"copy", rfl, (hcopy h).trans (duplicate_of_nil _ hs)⟩
  | cons v b =>
    refine .inr ⟨v, b, rfl, ?_⟩
    rcases hvs with rfl | rfl | rfl
    · rw [enactAll_singleton, enact, Operator.act_of_enough (by rw [hs]; exact Nat.succ_pos _)]
      exact duplicate_of_cons _ hs
    · exact (hindex h).trans (fetch_of_getElem? (by rw [hs]; rfl))
    · exact (hcopy h).trans (duplicate_of_cons _ hs)

theorem equivalent_doublings {vs ws : List Value} (hvs : vs ∈ doublings)
    (hws : ws ∈ doublings) : Equivalent id (enactAll vs s) (enactAll ws s) := by
  intro hv hw
  rcases doubling_eq hvs hv with ⟨op, hs, hr⟩ | ⟨v, b, hs, hr⟩ <;>
    rcases doubling_eq hws hw with ⟨op', hs', hr'⟩ | ⟨v', b', hs', hr'⟩
  · rw [hr, hr']
    exact .underflow rfl
  · cases hs.symm.trans hs'
  · cases hs.symm.trans hs'
  · obtain ⟨rfl, -⟩ := List.cons.inj (hs.symm.trans hs')
    rw [hr] at hv
    rw [hr, hr']
    exact sameEffect_push hv

def fetches (m : Int) (k : Nat) : List Value :=
  (List.replicate k [ofInt m, .operator .index]).flatten

theorem fetches_succ (m : Int) (k : Nat) :
    fetches m (k + 1) = ofInt m :: .operator .index :: fetches m k := rfl

/-- As what has been fetched lies on top, the next fetch at the same depth is of the value above
the last one. -/
theorem enactAll_fetches {m : Nat} (hm : m < 2 ^ 53) {us : List Value} (hus : m < us.length)
    {p q : List Value} {t : Stack} (ht : t.values = p.reverse ++ us)
    (hparts : (us.take (m + 1)).reverse = p ++ q) (h : HasRoom (enactAll (fetches m q.length) t)) :
    enactAll (fetches m q.length) t = pushAll q t := by
  have htake : (us.take (m + 1)).length = m + 1 := List.length_take_of_le hus
  -- p has been fetched already: with each value on top the next one wanted is at the same index
  induction q generalizing p t with
  | nil => rfl
  | cons v q ih =>
    have hlength : m + 1 = p.length + (q.length + 1) := by
      rw [← htake, ← List.length_reverse, hparts, List.length_append, List.length_cons]
    have hv : us[m - p.length]? = some v := by
      have hat : (us.take (m + 1)).reverse[p.length]? = some v := by
        rw [hparts, List.getElem?_append_right (Nat.le_refl _), Nat.sub_self]
        rfl
      rwa [List.getElem?_reverse (by omega), htake, Nat.add_sub_cancel,
        List.getElem?_take_of_lt (by omega)] at hat
    have hfetch : fetch m t = push v t := by
      apply fetch_of_getElem?
      rw [ht, List.getElem?_append_right (by rw [List.length_reverse]; omega),
        List.length_reverse, hv]
    rw [List.length_cons, fetches_succ] at h ⊢
    have hfirst := enactAll_index hm h
    rw [hfirst] at h ⊢
    have hpush := push_of_hasRoom (hfetch ▸ h.first)
    have hok := hfetch.trans hpush
    rw [bind_of_ok hok, pushAll, bind_of_ok hpush]
    refine ih (p := p ++ [v]) ?_ ?_ (h.rest hok)
    · rw [values_cons, ht, List.reverse_concat, List.cons_append]
    · rw [hparts, List.append_assoc]
      rfl

theorem equivalent_copies (hn : n < 2 ^ 52) :
    Equivalent id (enactAll [ofInt n, .operator .copy] s) (enactAll (fetches (n - 1) n) s) := by
  intro hcopy hfetch
  have hdup := enactAll_copy (by omega) hcopy
  rw [hdup] at hcopy ⊢
  cases n with
  | zero => exact .ok rfl
  | succ m =>
    have hm : ((m + 1 : Nat) : Int) - 1 = m := by omega
    rw [hm] at hfetch ⊢
    by_cases hle : m < s.values.length
    · have hlength : (s.values.take (m + 1)).reverse.length = m + 1 := by
        rw [List.length_reverse, List.length_take_of_le hle]
      have hall := enactAll_fetches (p := []) (q := (s.values.take (m + 1)).reverse) (t := s)
        (by omega) hle rfl rfl
      rw [hlength] at hall
      rw [duplicate_of_le hle] at hcopy ⊢
      rw [hall hfetch]
      exact sameEffect_pushAll hcopy
    · have hle := Nat.le_of_not_lt hle
      rw [fetches_succ] at hfetch ⊢
      rw [duplicate_of_lt (by omega), enactAll_index (by omega) hfetch,
        bind_of_error (fetch_of_le hle)]
      exact .underflow rfl

def rolling (n : Nat) (j : Int) : List Value := [ofInt n, ofInt j, .operator .roll]

theorem enactAll_rolling {j : Int} (hn : n < 2 ^ 53) (hj : j.natAbs < 2 ^ 53)
    (h : HasRoom (enactAll (rolling n j) s)) : enactAll (rolling n j) s = rollBy n j s :=
  (enactAll_roll hn hj h).trans (congrFun (bind_pure_unit (x := rollBy n j)) s)

/-- Two rolls of one group in a row. -/
theorem enactAll_rolling_rolling {j k : Int} (hn : n < 2 ^ 53) (hj : j.natAbs < 2 ^ 53)
    (hk : k.natAbs < 2 ^ 53) (h : HasRoom (enactAll (rolling n j ++ rolling n k) s)) :
    enactAll (rolling n j ++ rolling n k) s = rollBy n (j + k) s := by
  have hfirst : enactAll (rolling n j ++ rolling n k) s =
      (rollBy n j >>= fun _ => enactAll (rolling n k)) s := enactAll_roll hn hj h
  rw [hfirst] at h ⊢
  by_cases hle : n ≤ s.values.length
  · have hroll := rollBy_of_le j hle
    have hle' : n ≤ (s.holding (rolled n j s.values)).values.length := by
      rwa [values_holding, length_rolled]
    rw [bind_of_ok hroll, enactAll_rolling hn hk (h.rest hroll), rollBy_of_le k hle',
      rollBy_of_le _ hle, values_holding, rolled_rolled j k hle]
    rfl
  · have hlt := Nat.lt_of_not_le hle
    rw [bind_of_error (rollBy_of_lt j hlt), rollBy_of_lt _ hlt]

/-- A roll comes to an end, or misses values that it should move. -/
theorem sameEffect_rollBy (j : Int) : SameEffect id (rollBy n j s) (rollBy n j s) := by
  by_cases hle : n ≤ s.values.length
  · rw [rollBy_of_le j hle]
    exact .ok rfl
  · rw [rollBy_of_lt j (Nat.lt_of_not_le hle)]
    exact .underflow rfl

theorem equivalent_rolls {j k : Int} (hn : n < 2 ^ 52) (hj : j.natAbs < 2 ^ 52)
    (hk : k.natAbs < 2 ^ 52) :
    Equivalent id (enactAll (rolling n j ++ rolling n k) s) (enactAll (rolling n (j + k)) s) := by
  intro h h'
  rw [enactAll_rolling_rolling (by omega) (by omega) (by omega) h,
    enactAll_rolling (by omega) (by omega) h']
  exact sameEffect_rollBy _

theorem equivalent_exchange :
    Equivalent id (enactAll [.operator .exch] s) (enactAll (rolling 2 1) s) := by
  intro _ h
  rw [enactAll_rolling (by decide) (by decide) h, enactAll_singleton]
  change SameEffect id (Operator.exch.act s) _
  by_cases hle : 2 ≤ s.values.length
  · rw [Operator.act_of_enough (show Operator.exch.inputs ≤ _ from hle), rollBy_of_le 1 hle]
    have hexch : Operator.exch.execute s =
        .ok () (s.holding ((s.values.take 2).reverse ++ s.values.drop 2)) :=
      rearrange_of_le _ (fun _ => List.length_reverse) hle
    obtain ⟨a, b, c, hs⟩ : ∃ a b c, s.values = a :: b :: c := by
      match h : s.values with
      | [] | [_] =>
        rw [h] at hle
        simp at hle
      | a :: b :: c => exact ⟨a, b, c, rfl⟩
    rw [hexch, hs]
    exact .ok rfl
  · have hlt := Nat.lt_of_not_le hle
    rw [rollBy_of_lt 1 hlt]
    have hexch : Operator.exch.act s = .error (s.underflow "exch" 2) s :=
      bind_of_error (require_of_lt hlt)
    rw [hexch]
    exact .underflow rfl

theorem rollBy_zero (n : Nat) (s : Stack) :
    rollBy n 0 s = if n ≤ s.size then .ok () s else .error (.stackUnderflow "roll" n s.size) s := by
  by_cases hle : n ≤ s.size
  · rw [if_pos hle, rollBy_of_le 0 (by rwa [← s.size_eq]), rolled_zero]
    exact congrArg _ (holding_self s)
  · rw [if_neg hle, rollBy_of_lt 0 (by rw [← s.size_eq]; omega)]
    rfl

theorem popCount_eq_ok {op : String} {t : Stack} (h : popCount op s = .ok n t) :
    ∃ x, integer op x = .ok (n : Int) ∧ Replaced [.number x] [] s t := by
  obtain ⟨k, s', hk, h⟩ := bind_eq_ok.1 h
  obtain ⟨x, hx, hr⟩ := replaced_of_popInt hk
  split at h
  · cases h
  · obtain ⟨rfl, rfl⟩ := pure_eq_ok.1 h
    exact ⟨x, by rw [hx, Int.toNat_of_nonneg (by omega)], hr⟩

/-- A roll that succeeds, whatever its operands. -/
theorem act_roll_eq_ok {t : Stack} {u : Unit} (h : Operator.roll.act s = .ok u t) :
    ∃ x y j n vs, s.values = .number y :: .number x :: vs ∧ integer "roll" y = .ok j ∧
      integer "roll" x = .ok (n : Nat) ∧ n ≤ vs.length ∧ t = s.holding (rolled n j vs) := by
  obtain ⟨_, s', hrequire, h⟩ := bind_eq_ok.1 h
  obtain ⟨-, rfl⟩ := require_eq_ok.1 hrequire
  change roll "roll" s = .ok u t at h
  obtain ⟨j, s₁, hj, h⟩ := bind_eq_ok.1 h
  obtain ⟨y, hy, hyr⟩ := replaced_of_popInt hj
  obtain ⟨n, s₂, hn, h⟩ := bind_eq_ok.1 h
  obtain ⟨x, hx, hxr⟩ := popCount_eq_ok hn
  change rollBy n j s₂ = .ok u t at h
  -- both operands are off the stack before the count is compared with what is left
  have htaken := hyr.trans_take hxr
  obtain ⟨vs, hs, hvs⟩ := htaken.values
  rw [List.nil_append] at hvs
  refine ⟨x, y, j, n, vs, hs, hy, hx, ?_⟩
  by_cases hle : n ≤ s₂.values.length
  · rw [rollBy_of_le j hle, hvs] at h
    obtain ⟨-, rfl⟩ := EStateM.Result.ok.inj h
    exact ⟨hvs ▸ hle, Stack.ext rfl htaken.limit htaken.deferred⟩
  · rw [rollBy_of_lt j (Nat.lt_of_not_le hle)] at h
    cases h

end identities

namespace Machine

variable {l : Limits} {m : Machine} {vs ws : List Value}

/-- Takes in values one after the other. Calls that are open stay open. -/
def acceptAll (l : Limits) : List Value → MachineM Unit
  | [] => pure ()
  | v :: vs => accept l v >>= fun _ => acceptAll l vs

def carry (m : Machine) (log : Log) : EStateM.Result Error Stack Unit →
    EStateM.Result Error Machine Unit
  | .ok u s => .ok u { m with stack := s, log }
  | .error e s => .error e { m with stack := s, log }

theorem onStack_eq_carry (x : StackM Unit) (m : Machine) :
    onStack x m = carry m m.log (x m.stack) := by
  rw [onStack]
  cases x m.stack <;> rfl

theorem accept_direct (l : Limits) {v : Value} (hv : v.Direct) (hd : m.depth ≤ 1) :
    ∃ log, accept l v m = carry m log (v.enact m.stack) := by
  cases v with
  | operator op =>
    refine ⟨m.logged op, ?_⟩
    rw [accept_operator l op hd, operate_eq_act hv, onStack_eq_carry]
    rfl
  | number | bool =>
    refine ⟨m.log, ?_⟩
    rw [accept_plain l hv hd, onStack_eq_carry, enact_of_plain hv]
  | opening | closing => simp [Direct] at hv

theorem acceptAll_direct (l : Limits) (hvs : ∀ v ∈ vs, v.Direct) (hd : m.depth ≤ 1) :
    ∃ log, acceptAll l vs m = carry m log (enactAll vs m.stack) := by
  induction vs generalizing m with
  | nil => exact ⟨m.log, rfl⟩
  | cons v vs ih =>
    rw [List.forall_mem_cons] at hvs
    obtain ⟨log, hv⟩ := accept_direct l hvs.1 hd
    cases hs : v.enact m.stack with
    | ok u s =>
      rw [hs] at hv
      obtain ⟨log', hrest⟩ := ih hvs.2 (m := { m with stack := s, log }) hd
      refine ⟨log', ?_⟩
      rw [acceptAll, bind_of_ok hv, hrest, enactAll, bind_of_ok hs]
      rfl
    | error e s =>
      rw [hs] at hv
      exact ⟨log, by rw [acceptAll, bind_of_error hv, enactAll, bind_of_error hs]; rfl⟩

/-- Between values that open no call, nothing else is run. -/
theorem feedAll_eq_acceptAll (l : Limits) (hvs : ∀ v ∈ vs, v.Direct) (hd : m.depth ≤ 1)
    (hc : m.calls = []) : feedAll l vs m = acceptAll l vs m := by
  induction vs generalizing m with
  | nil => rfl
  | cons v vs ih =>
    rw [List.forall_mem_cons] at hvs
    obtain ⟨log, hv⟩ := accept_direct l hvs.1 hd
    cases hs : v.enact m.stack with
    | ok u s =>
      rw [hs] at hv
      have hfeed : feed l v m = .ok u { m with stack := s, log } :=
        feed_of_ok hv (settle_of_nil (m := { m with stack := s, log }) hc)
      rw [feedAll, acceptAll, bind_of_ok hfeed, bind_of_ok hv]
      exact ih hvs.2 (m := { m with stack := s, log }) hd hc
    | error e s =>
      rw [hs] at hv
      have hfeed : feed l v m = .error e { m with stack := s, log } := by
        rw [feed_of_accept_error hv, unwind]
        simp only [hc, List.getLast?_nil]
      rw [feedAll, acceptAll, bind_of_error hfeed, bind_of_error hv]

theorem hasRoom_of_carry {log : Log} {r : EStateM.Result Error Stack Unit}
    (h : HasRoom (carry m log r)) : HasRoom r := by
  rintro limit s rfl
  exact h limit _ rfl

theorem sameEffect_carry {log log' : Log} {r r' : EStateM.Result Error Stack Unit}
    (h : SameEffect id r r') : SameEffect unlogged (carry m log r) (carry m log' r') := by
  cases h with
  | ok h =>
    obtain rfl : _ = _ := h
    exact .ok rfl
  | underflow h =>
    obtain rfl : _ = _ := h
    exact .underflow rfl

/-- What is the same on the stack is the same in the machine, the log apart. -/
theorem equivalent_acceptAll (l : Limits) (hd : m.depth ≤ 1) (hvs : ∀ v ∈ vs, v.Direct)
    (hws : ∀ v ∈ ws, v.Direct)
    (h : Equivalent id (enactAll vs m.stack) (enactAll ws m.stack)) :
    Equivalent unlogged (acceptAll l vs m) (acceptAll l ws m) := by
  obtain ⟨log, hv⟩ := acceptAll_direct l hvs hd
  obtain ⟨log', hw⟩ := acceptAll_direct l hws hd
  rw [hv, hw]
  exact fun hroom hroom' => sameEffect_carry (h (hasRoom_of_carry hroom) (hasRoom_of_carry hroom'))

/-- The values leave the machine as it was, the log apart: where the top `n` values are there, and
where they are missed too. -/
def Restores (l : Limits) (n : Nat) (vs : List Value) (m : Machine) : Prop :=
  HasRoom (acceptAll l vs m) → ∃ m' : Machine, m'.unlogged = m.unlogged ∧
    acceptAll l vs m =
      if n ≤ m.stack.size then .ok () m' else .error (.stackUnderflow "roll" n m.stack.size) m'

theorem restores_of_rollBy (l : Limits) {n : Nat} (hd : m.depth ≤ 1) (hvs : ∀ v ∈ vs, v.Direct)
    (h : HasRoom (enactAll vs m.stack) → enactAll vs m.stack = rollBy n 0 m.stack) :
    Restores l n vs m := by
  intro hroom
  obtain ⟨log, hv⟩ := acceptAll_direct l hvs hd
  rw [hv] at hroom ⊢
  rw [h (hasRoom_of_carry hroom), rollBy_zero]
  refine ⟨{ m with log }, rfl, ?_⟩
  split <;> rfl

/-- Below the two operands of `m` there are values `us`. In `m'` the operands are off, and each of
these values has moved up by `j`, those at the top coming in again from below. Apart from the log
nothing else has changed. -/
def Rolls (m m' : Machine) : Prop :=
  ∃ (x y : Float) (j : Int) (us ws below : List Value),
    m.stack.values = .number y :: .number x :: (us ++ below) ∧
    integer "roll" y = .ok j ∧ integer "roll" x = .ok us.length ∧ ws.length = us.length ∧
    (∀ i < us.length, ws.reverse[((i + j) % us.length).toNat]? = us.reverse[i]?) ∧
    m'.unlogged = { m with stack := m.stack.holding (ws ++ below) }.unlogged

theorem rolls_of_accept {m' : Machine} (hd : m.depth ≤ 1)
    (h : accept l (.operator .roll) m = .ok () m') : m.Rolls m' := by
  rw [accept_operator l .roll hd, operate_eq_act rfl] at h
  obtain ⟨t, ht, rfl⟩ := onStack_eq_ok.1 h
  obtain ⟨x, y, j, n, vs, hs, hy, hx, hn, rfl⟩ := act_roll_eq_ok ht
  have hlength : (vs.take n).length = n := List.length_take_of_le hn
  refine ⟨x, y, j, vs.take n, (rolled n j vs).take n, vs.drop n, ?_, hy, ?_, ?_, ?_, ?_⟩
  · rw [List.take_append_drop]
    exact hs
  · rw [hlength, hx]
  · rw [List.length_take, List.length_take, length_rolled]
  · rw [hlength]
    exact fun i hi => getElem?_rolled j hn hi
  · rw [← drop_rolled j hn, List.take_append_drop]
    rfl

theorem direct_rolling (n : Nat) (j : Int) : ∀ v ∈ rolling n j, v.Direct := by
  simp [rolling, Direct, ofInt, Operator.runsBody]

theorem direct_fetches (n : Int) (k : Nat) : ∀ v ∈ fetches n k, v.Direct := by
  induction k with
  | zero => simp [fetches]
  | succ k ih => simpa [fetches_succ, Direct, ofInt, Operator.runsBody] using ih

theorem direct_doublings : ∀ vs ∈ doublings, ∀ v ∈ vs, v.Direct := by
  simp [doublings, Direct, ofInt, Operator.runsBody]

/-- Where operators are run, and where there is room for all that is pushed: the three ways to
double the topmost value come to the same, or all of them miss it; `exch` is a roll of two by one;
`n copy` is `n` fetches at depth `n - 1`; rolls of one group add up, so that a roll by 0 and a roll
with its inverse change nothing. Every roll that succeeds moves the values of its group in a cycle,
and keeps what lies below. Without an open call, values that open none are fed as they are
accepted. -/
theorem stack_identities (l : Limits) (hd : m.depth ≤ 1) {n : Nat} {j k : Int} (hn : n < 2 ^ 52)
    (hj : j.natAbs < 2 ^ 52) (hk : k.natAbs < 2 ^ 52) :
    (∀ vs ∈ doublings, ∀ ws ∈ doublings,
      Equivalent unlogged (acceptAll l vs m) (acceptAll l ws m)) ∧
    Equivalent unlogged (acceptAll l [.operator .exch] m) (acceptAll l (rolling 2 1) m) ∧
    Equivalent unlogged (acceptAll l [ofInt n, .operator .copy] m)
      (acceptAll l (fetches (n - 1) n) m) ∧
    Equivalent unlogged (acceptAll l (rolling n j ++ rolling n k) m)
      (acceptAll l (rolling n (j + k)) m) ∧
    Restores l n (rolling n 0) m ∧
    Restores l n (rolling n j ++ rolling n (-j)) m ∧
    (∀ m', accept l (.operator .roll) m = .ok () m' → m.Rolls m') ∧
    (m.calls = [] → ∀ vs, (∀ v ∈ vs, v.Direct) → feedAll l vs m = acceptAll l vs m) := by
  have htwice (j k : Int) : ∀ v ∈ rolling n j ++ rolling n k, v.Direct :=
    List.forall_mem_append.2 ⟨direct_rolling n j, direct_rolling n k⟩
  refine ⟨fun vs hvs ws hws => ?_, ?_, ?_, ?_, ?_, ?_, fun m' h => rolls_of_accept hd h,
    fun hc vs hvs => feedAll_eq_acceptAll l hvs hd hc⟩
  · exact equivalent_acceptAll l hd (direct_doublings vs hvs) (direct_doublings ws hws)
      (equivalent_doublings hvs hws)
  · exact equivalent_acceptAll l hd (by simp [Direct, Operator.runsBody]) (direct_rolling 2 1)
      equivalent_exchange
  · exact equivalent_acceptAll l hd (by simp [Direct, ofInt, Operator.runsBody])
      (direct_fetches _ n) (equivalent_copies hn)
  · exact equivalent_acceptAll l hd (htwice j k) (direct_rolling n (j + k))
      (equivalent_rolls hn hj hk)
  · exact restores_of_rollBy l hd (direct_rolling n 0) (enactAll_rolling (by omega) (by decide))
  · refine restores_of_rollBy l hd (htwice j (-j)) fun h => ?_
    rw [enactAll_rolling_rolling (by omega) (by omega) (by omega) h, Int.add_right_neg]

/-- On the stack of `{ 1 } 2`, a roll that takes markers along and the roll that takes them back,
with just the room for their counts. -/
theorem stack_identities_of_markers :
    let m : Machine := { stack :=
      { values := [ofInt 2, .closing, ofInt 1, .opening], limit := 4, deferred := 2 } }
    m.depth ≤ 1 ∧ 3 < 2 ^ 52 ∧ (-4 : Int).natAbs < 2 ^ 52 ∧ (4 : Int).natAbs < 2 ^ 52 ∧
      HasRoom (acceptAll {} (rolling 3 (-4) ++ rolling 3 4) m) ∧
      ∃ m' : Machine, m'.unlogged = m.unlogged ∧
        acceptAll {} (rolling 3 (-4) ++ rolling 3 4) m = .ok () m' := by
  intro m
  have hdepth : m.depth ≤ 1 := by decide
  have hpasses : passes (fun _ => true)
      (acceptAll {} (rolling 3 (-4) ++ rolling 3 4) m) = true := by decide +kernel
  obtain ⟨_, _, hok, -⟩ := exists_of_passes hpasses
  have hroom : HasRoom (acceptAll {} (rolling 3 (-4) ++ rolling 3 4) m) :=
    fun _ _ h => nomatch hok.symm.trans h
  obtain ⟨-, -, -, -, -, hrestores, -⟩ := stack_identities {} hdepth (n := 3) (j := -4) (k := 4)
    (by decide) (by decide) (by decide)
  exact ⟨hdepth, by decide, by decide, by decide, hroom, hrestores hroom⟩

end Machine

end PdfFunctions
