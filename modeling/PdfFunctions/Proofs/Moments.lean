import Mathlib.Logic.Relation
import PdfFunctions.Proofs.MachineSteps

namespace PdfFunctions

/-- The value that a token stands for. Malformed numbers and unknown names stand for none. -/
def Item.value? (i : Item) : Option Value :=
  match i.token with
  | .number x => some (.number x)
  | .bool b => some (.bool b)
  | .opening => some .opening
  | .closing => some .closing
  | .name bs => (Operator.ofName? bs).map .operator
  | .malformed _ => none

namespace Machine

def refuse (l : Limits) (i : Item) : MachineM Unit :=
  match i.token with
  | .name bs => reject l (.unknownOperator i.start bs) (.unknownOperator i.start bs)
  | .malformed bs => reject l (.malformedToken i.start bs) (.malformedToken i.start bs)
  | _ => pure ()

theorem feedItem_of_value {l : Limits} {i : Item} {v : Value} (h : i.value? = some v) :
    feedItem l i = feed l v := by
  obtain ⟨token, start, stop⟩ := i
  cases token with
  | name bs =>
    obtain ⟨op, hop, rfl⟩ := Option.map_eq_some_iff.1 h
    simp only [feedItem, hop]
  | malformed bs => simp [Item.value?] at h
  | _ =>
    obtain rfl := Option.some.inj h
    rfl

theorem feedItem_of_no_value {l : Limits} {i : Item} (h : i.value? = none) :
    feedItem l i = refuse l i := by
  obtain ⟨token, start, stop⟩ := i
  cases token with
  | name bs =>
    have hop := Option.map_eq_none_iff.1 h
    simp only [feedItem, hop, refuse]
  | malformed bs => rfl
  | _ => simp [Item.value?] at h

theorem logged_of_refuse {l : Limits} {i : Item} {m m' : Machine} {u : Unit}
    (h : refuse l i m = .ok u m') : ∃ log, m' = { m with log := log } := by
  have hr : ∀ e event, reject l e event m = .ok u m' → ∃ log, m' = { m with log := log } := by
    intro e event h
    unfold reject at h
    split at h
    · simp [throw_apply] at h
    · obtain ⟨-, rfl⟩ := EStateM.Result.ok.inj h
      exact ⟨_, rfl⟩
  obtain ⟨token, start, stop⟩ := i
  cases token with
  | name bs | malformed bs => exact hr _ _ h
  | _ =>
    obtain ⟨-, rfl⟩ := pure_eq_ok.1 h
    exact ⟨_, rfl⟩

end Machine

structure Moment where
  machine : Machine
  -- what is left of the text
  rest : List Item
  -- the values read from the text so far
  read : List Value := []
  -- the bodies of the open calls as they were lifted, the innermost first
  bodies : List (List Value) := []
  -- the depth of the most deeply nested opening brace so far
  peak : Nat

namespace Moment

open Machine

def start (m : Machine) (text : Bytes) : Moment where
  machine := m
  rest := tokenize text
  peak := m.depth

/-- The open bodies when the machine has become `m`. -/
def bodiesAt (μ : Moment) (m : Machine) : List (List Value) :=
  (m.calls.take (m.calls.length - μ.machine.calls.length)).map Call.rest ++
    μ.bodies.drop (μ.machine.calls.length - m.calls.length)

def next? (μ : Moment) : Option Value :=
  match μ.machine.calls, μ.rest with
  | ⟨v :: _, _⟩ :: _, _ => some v
  | [], i :: _ => i.value?
  | _, _ => none

def move (μ : Moment) (m : Machine) : Moment where
  machine := m
  rest := μ.rest
  read := μ.read
  bodies := μ.bodiesAt m
  peak := if μ.next? = some .opening then max μ.peak m.depth else μ.peak

def readItem (l : Limits) (μ : Moment) (i : Item) (rest : List Item) : Option Moment :=
  match i.value? with
  | some v =>
    match accept l v μ.machine with
    | .ok _ m => some { μ.move m with rest, read := μ.read ++ [v] }
    | .error .. => none
  | none =>
    match refuse l i μ.machine with
    | .ok _ m => some { μ with machine := m, rest }
    | .error .. => none

/-- The next moment. There is none at the end of the text and where an error ends it. -/
def advance (l : Limits) (μ : Moment) : Option Moment :=
  match μ.machine.calls, μ.rest with
  | _ :: _, _ =>
    match step l μ.machine with
    | .ok _ m => some (μ.move m)
    | .error .. => none
  | [], i :: is => μ.readItem l i is
  | [], [] => none

def operator? (μ : Moment) : Option Operator :=
  match μ.next? with
  | some (.operator op) => if μ.machine.depth ≤ 1 then some op else none
  | _ => none

theorem advance_of_step {l : Limits} {μ : Moment} {m : Machine} {c : Call} {cs : List Call}
    {u : Unit} (hc : μ.machine.calls = c :: cs) (hs : step l μ.machine = .ok u m) :
    advance l μ = some (μ.move m) := by
  rw [advance, hc]
  simp only [hs]

/-- All that can happen between a moment and the next. -/
inductive Advances (l : Limits) (μ : Moment) : Moment → Prop where
  | read {i : Item} {is : List Item} {v : Value} {m : Machine} (hc : μ.machine.calls = [])
      (hr : μ.rest = i :: is) (hv : i.value? = some v) (hm : Accepts l μ.machine v m) :
      Advances l μ { μ.move m with rest := is, read := μ.read ++ [v] }
  | refused {i : Item} {is : List Item} {log : Log} (hc : μ.machine.calls = [])
      (hr : μ.rest = i :: is) (hv : i.value? = none) :
      Advances l μ { μ with machine := { μ.machine with log := log }, rest := is }
  | ran {v : Value} {vs : List Value} {d : Nat} {cs : List Call} {m : Machine}
      (hc : μ.machine.calls = ⟨v :: vs, d⟩ :: cs)
      (hm : Accepts l { μ.machine with calls := ⟨vs, d⟩ :: cs } v m) :
      Advances l μ (μ.move m)
  | returned {d : Nat} {cs : List Call} {m : Machine} (hc : μ.machine.calls = ⟨[], d⟩ :: cs)
      (hm : m = { μ.machine with depth := d, calls := cs }) :
      Advances l μ (μ.move m)

theorem advances_of_readItem {l : Limits} {μ μ' : Moment} {i : Item} {is : List Item}
    (hc : μ.machine.calls = []) (hr : μ.rest = i :: is) (h : μ.readItem l i is = some μ') :
    Advances l μ μ' := by
  unfold readItem at h
  split at h
  · rename_i v hv
    split at h
    · rename_i m hm
      obtain rfl := Option.some.inj h
      exact .read hc hr hv (accepts_of_accept hm)
    · simp at h
  · rename_i hv
    split at h
    · rename_i m hm
      obtain rfl := Option.some.inj h
      obtain ⟨log, rfl⟩ := logged_of_refuse hm
      exact .refused hc hr hv
    · simp at h

theorem advances_of_advance {l : Limits} {μ μ' : Moment} (h : advance l μ = some μ') :
    Advances l μ μ' := by
  unfold advance at h
  split at h
  · rename_i c cs hc
    split at h
    · rename_i m hm
      obtain rfl := Option.some.inj h
      obtain ⟨rest, d⟩ := c
      unfold step at hm
      rw [hc] at hm
      cases rest with
      | nil =>
        obtain ⟨-, rfl⟩ := EStateM.Result.ok.inj hm
        exact .returned hc rfl
      | cons v vs => exact .ran hc (accepts_of_accept hm)
    · simp at h
  · rename_i hc hr
    exact advances_of_readItem hc hr h
  · simp at h

abbrev Rule := Operator → Stack → Stack → Prop

/-- `μ'` follows `μ`, and an operator run in between has kept the rule `ok`. -/
def Follows (l : Limits) (ok : Rule) (μ μ' : Moment) : Prop :=
  advance l μ = some μ' ∧
    ∀ op, μ.operator? = some op → ok op μ.machine.stack μ'.machine.stack

def Reaches (l : Limits) (ok : Rule) : Moment → Moment → Prop :=
  Relation.ReflTransGen (Follows l ok)

def anything : Rule := fun _ _ _ => True

instance (op : Operator) (s t : Stack) : Decidable (anything op s t) := instDecidableTrue

/-- The moment `n` steps later, if the operators run until then keep the rule. -/
def after (l : Limits) (ok : Rule) [∀ op s t, Decidable (ok op s t)] : Nat → Moment → Option Moment
  | 0, μ => some μ
  | n + 1, μ =>
    match advance l μ with
    | some μ' =>
      if ∀ op ∈ μ.operator?, ok op μ.machine.stack μ'.machine.stack then after l ok n μ' else none
    | none => none

theorem follows_of_after {l : Limits} {ok : Rule} [∀ op s t, Decidable (ok op s t)] {n : Nat}
    {μ μ' : Moment} (h : after l ok (n + 1) μ = some μ') :
    ∃ μ₁, Follows l ok μ μ₁ ∧ after l ok n μ₁ = some μ' := by
  rw [after] at h
  split at h
  · rename_i μ₁ hadv
    split at h
    · rename_i hok
      exact ⟨μ₁, ⟨hadv, hok⟩, h⟩
    · simp at h
  · simp at h

theorem reaches_of_after {l : Limits} {ok : Rule} [∀ op s t, Decidable (ok op s t)] {n : Nat}
    {μ μ' : Moment} (h : after l ok n μ = some μ') : Reaches l ok μ μ' := by
  induction n generalizing μ with
  | zero =>
    obtain rfl := Option.some.inj h
    exact .refl
  | succ n ih =>
    obtain ⟨μ₁, hf, h⟩ := follows_of_after h
    exact .head hf (ih h)

theorem operator_of_read {μ : Moment} {i : Item} {is : List Item} {op : Operator}
    (hc : μ.machine.calls = []) (hr : μ.rest = i :: is) (hv : i.value? = some (.operator op))
    (hd : μ.machine.depth ≤ 1) : μ.operator? = some op := by
  simp only [operator?, next?, hc, hr, hv, hd, if_true]

theorem operator_of_ran {μ : Moment} {vs : List Value} {d : Nat} {cs : List Call} {op : Operator}
    (hc : μ.machine.calls = ⟨.operator op :: vs, d⟩ :: cs) (hd : μ.machine.depth ≤ 1) :
    μ.operator? = some op := by
  simp only [operator?, next?, hc, hd, if_true]

def Obeys (l : Limits) (ok : Rule) (μ₀ : Moment) : Prop :=
  ∀ μ μ' op, Reaches l anything μ₀ μ → advance l μ = some μ' → μ.operator? = some op →
    ok op μ.machine.stack μ'.machine.stack

theorem Obeys.reaches {l : Limits} {ok : Rule} {μ₀ μ : Moment} (hok : Obeys l ok μ₀)
    (h : Reaches l anything μ₀ μ) : Reaches l ok μ₀ μ := by
  induction h with
  | refl => exact .refl
  | tail h hf ih => exact ih.tail ⟨hf.1, fun op hop => hok _ _ op h hf.1 hop⟩

/-- One run to the end decides what all moments have in common. -/
theorem obeys_of_after {l : Limits} {ok : Rule} [∀ op s t, Decidable (ok op s t)] {n : Nat}
    {μ₀ μ₁ : Moment} (h : after l ok n μ₀ = some μ₁) (hend : advance l μ₁ = none) :
    Obeys l ok μ₀ := by
  intro μ μ' op hμ hadv hop
  induction n generalizing μ₀ with
  | zero =>
    obtain rfl := Option.some.inj h
    rcases hμ.cases_head with rfl | ⟨μ₂, hf, -⟩
    · simp [hend] at hadv
    · exact absurd (hend.symm.trans hf.1) (by simp)
  | succ n ih =>
    obtain ⟨μ₂, hf, h⟩ := follows_of_after h
    -- there is only one next moment
    rcases hμ.cases_head with rfl | ⟨μ₃, hf', hrest⟩
    · obtain rfl := Option.some.inj (hf.1.symm.trans hadv)
      exact hf.2 op hop
    · obtain rfl := Option.some.inj (hf.1.symm.trans hf'.1)
      exact ih h hrest

/-- An operator that runs no body acts on the stack and leaves the depth. -/
theorem act_of_advance {l : Limits} {μ μ' : Moment} {op : Operator} (h : advance l μ = some μ')
    (hop : μ.operator? = some op) (hb : op.runsBody = false) :
    op.act μ.machine.stack = .ok () μ'.machine.stack ∧ μ'.machine.depth = μ.machine.depth ∧
      μ.machine.depth ≤ 1 := by
  have acts {m m' : Machine} (hm : Accepts l m (.operator op) m') (hd : m.depth ≤ 1) :
      op.act m.stack = .ok () m'.stack ∧ m'.depth = m.depth ∧ m.depth ≤ 1 := by
    cases hm with
    | deferred hd' => omega
    | pushed _ hv => simp at hv
    | acted _ _ ht => exact ⟨ht, rfl, hd⟩
    | skipped => simp [Operator.runsBody] at hb
    | entered _ hp => cases hp <;> simp [Operator.runsBody] at hb
  -- the operator comes from the text or from the innermost body
  unfold operator? at hop
  split at hop
  · rename_i op' hnext
    obtain ⟨hd, he⟩ := Option.ite_none_right_eq_some.1 hop
    obtain rfl := Option.some.inj he
    cases advances_of_advance h with
    | read hc hr hv hm =>
      obtain rfl := Option.some.inj (hv.symm.trans (by simpa only [next?, hc, hr] using hnext))
      exact acts hm hd
    | refused hc hr hv => simp [next?, hc, hr, hv] at hnext
    | ran hc hm =>
      simp only [next?, hc, Option.some.injEq] at hnext
      subst hnext
      have hacts := acts hm hd
      exact hacts
    | returned hc => simp [next?, hc] at hnext
  · simp at hop

end Moment

end PdfFunctions
