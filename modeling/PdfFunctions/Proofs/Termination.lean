import PdfFunctions.Proofs.BranchBudget
import PdfFunctions.Proofs.Endings

namespace PdfFunctions

open Machine

namespace Moment

variable {l : Limits} {μ μ' : Moment}

def budget (μ : Moment) : Nat := μ.rest.countP Item.runsBody + μ.machine.branchesLeft

/-- The values that the open bodies have yet to read, and their returns. -/
def work (μ : Moment) : Nat := (μ.machine.calls.flatMap Call.rest).length + μ.machine.calls.length

def entries (μ μ' : Moment) : Nat := μ'.machine.calls.length - μ.machine.calls.length

/-- The bodies that are entered within the next `n` moments. -/
def entered (l : Limits) : Nat → Moment → Nat
  | 0, _ => 0
  | n + 1, μ =>
    match advance l μ with
    | some μ' => entries μ μ' + entered l n μ'
    | none => 0

theorem Obeys.follows {ok : Rule} (hok : Obeys l ok μ) (h : advance l μ = some μ') :
    Follows l ok μ μ' := ⟨h, fun op hop => hok _ _ op .refl h hop⟩

theorem Obeys.next {ok : Rule} (hok : Obeys l ok μ) (h : advance l μ = some μ') :
    Obeys l ok μ' := fun _ _ op hr hadv hop =>
  hok _ _ op (.head ⟨h, fun _ _ => trivial⟩ hr) hadv hop

/-- A body that is entered is paid for. -/
theorem budget_of_follows (h : Follows l copiesPlain μ μ') :
    μ'.budget + entries μ μ' ≤ μ.budget := by
  obtain ⟨hadv, hok⟩ := h
  -- a token read pays for the entry it makes; inside a body the branches left over pay
  cases advances_of_advance hadv with
  | @read i is v m hc hr hv hm =>
    have hleft := branchesLeft_of_accepts hm fun op hop hd =>
      hok op (operator_of_read hc hr (hop ▸ hv) hd)
    have htext := countP_cons_of_value hv is
    simp only [budget, entries, move, hr, htext]
    omega
  | refused hc hr hv =>
    have htext := countP_cons_of_no_value hv
    simp only [budget, entries, hr, htext, branchesLeft]
    omega
  | @ran v vs d cs m hc hm =>
    have hleft := branchesLeft_of_accepts hm fun op hop hd =>
      hok op (operator_of_ran (hop ▸ hc) hd)
    have hcons := branches_cons v vs
    simp only [branchesLeft, List.flatMap_cons, branches_append, List.length_cons] at hleft
    simp only [budget, entries, branchesLeft, move, hc, List.flatMap_cons, branches_append,
      List.length_cons, hcons]
    omega
  | @returned d cs m hc hm =>
    subst hm
    simp only [budget, entries, branchesLeft, move, hc, List.flatMap_cons, List.nil_append,
      List.length_cons]
    omega

/-- Where no body is entered, a value is read from the text or an open body comes closer to its
end. -/
theorem progress_of_advance (h : advance l μ = some μ') : 0 < entries μ μ' ∨
    μ'.rest.length < μ.rest.length ∨ μ'.rest = μ.rest ∧ μ'.work < μ.work := by
  cases advances_of_advance h with
  | @read i is v m hc hr hv hm => exact .inr (.inl (by simp [hr]))
  | refused hc hr hv => exact .inr (.inl (by simp [hr]))
  | @ran v vs d cs m hc hm =>
    rcases calls_of_accepts hm with hcalls | hlt
    · refine .inr (.inr ⟨rfl, ?_⟩)
      simp [work, move, hc, hcalls]
    · refine .inl ?_
      simp only [entries, move, hc]
      exact Nat.sub_pos_of_lt hlt
  | @returned d cs m hc hm =>
    subst hm
    refine .inr (.inr ⟨rfl, ?_⟩)
    simp [work, move, hc]

/-- The budget decreases with every body, the rest of the text with every value of it, and the work
with everything else. -/
theorem decreases_of_follows (h : Follows l copiesPlain μ μ') : μ'.budget < μ.budget ∨
    μ'.budget = μ.budget ∧ (μ'.rest.length < μ.rest.length ∨
      μ'.rest.length = μ.rest.length ∧ μ'.work < μ.work) := by
  have hbudget := budget_of_follows h
  rcases progress_of_advance h.1 with hentry | hread | ⟨hrest, hwork⟩
  · exact .inl (by omega)
  · omega
  · rw [hrest]
    omega

theorem exists_last {μ : Moment} (hok : Obeys l copiesPlain μ) :
    ∃ μ', Reaches l anything μ μ' ∧ advance l μ' = none := by
  cases h : advance l μ with
  | none => exact ⟨μ, .refl, h⟩
  | some μ₁ =>
    have hdecreases := decreases_of_follows (hok.follows h)
    obtain ⟨μ', hμ', hend⟩ := exists_last (hok.next h)
    exact ⟨μ', .head ⟨h, fun _ _ => trivial⟩ hμ', hend⟩
termination_by (μ.budget, μ.rest.length, μ.work)
decreasing_by
  simpa only [Prod.lex_def] using hdecreases

theorem entered_le (hok : Obeys l copiesPlain μ) (n : Nat) : entered l n μ ≤ μ.budget := by
  induction n generalizing μ with
  | zero => exact Nat.zero_le _
  | succ n ih =>
    cases h : advance l μ with
    | none =>
      rw [entered, h]
      exact Nat.zero_le _
    | some μ₁ =>
      have hbudget := budget_of_follows (hok.follows h)
      have hrest := ih (hok.next h)
      simp only [entered, h]
      omega

variable {text : Bytes} {xs : List Float} {s : Stack} {log : Log} {limit : Nat}

theorem budget_start (hs : Stack.ofNumbers limit xs = .ok s) :
    (start { stack := s, log } text).budget = (tokenize text).countP Item.runsBody := by
  obtain ⟨hv, -⟩ := Stack.of_ofNumbers hs
  have hplain : branches s.values = 0 := branches_of_plain (by simp [hv])
  simp [budget, start, branchesLeft, hplain]

/-- Where no code is copied, the evaluation ends, and it runs at most one body for each `if` and
`ifelse` of the text. -/
theorem terminates_of_copiesPlain (hs : Stack.ofNumbers limit xs = .ok s)
    (hok : Obeys l copiesPlain (start { stack := s, log } text)) :
    (∃ μ, Reaches l anything (start { stack := s, log } text) μ ∧ advance l μ = none) ∧
    (∀ log', evaluateText l text s log ≠ .error .outOfSteps log') ∧
    ∀ n, entered l n (start { stack := s, log } text) ≤
      (tokenize text).countP Item.runsBody := by
  obtain ⟨μ, hμ, hend⟩ := exists_last hok
  refine ⟨⟨μ, hμ, hend⟩, fun log' => evaluateText_ne_outOfSteps hμ hend, fun n => ?_⟩
  rw [← budget_start hs]
  exact entered_le hok n

/-- A body is taken apart and put together again before it runs, and only a number is copied. -/
theorem terminates_of_rolled_body : ∃ s, Stack.ofNumbers 9 [2] = .ok s ∧
    (∃ μ, Reaches {} anything (start { stack := s }
        (Bytes.ofText "\x7b dup true \x7b add \x7d 3 1 roll 3 2 roll if \x7d")) μ ∧
      advance {} μ = none) ∧
    (∀ log', evaluateText {} (Bytes.ofText "\x7b dup true \x7b add \x7d 3 1 roll 3 2 roll if \x7d")
      s [] ≠ .error .outOfSteps log') ∧
    ∀ n, entered {} n (start { stack := s }
      (Bytes.ofText "\x7b dup true \x7b add \x7d 3 1 roll 3 2 roll if \x7d")) ≤ 1 := by
  have hs : Stack.ofNumbers 9 [2] = .ok { limit := 9, values := [.number 2] } := rfl
  have hrun : (after {} copiesPlain 16 (start { stack := { limit := 9, values := [.number 2] } }
      (Bytes.ofText "\x7b dup true \x7b add \x7d 3 1 roll 3 2 roll if \x7d"))).map
      (fun μ => (advance {} μ).isNone) = some true := by decide +kernel
  have hbranches : (tokenize (Bytes.ofText
      "\x7b dup true \x7b add \x7d 3 1 roll 3 2 roll if \x7d")).countP Item.runsBody = 1 := by
    decide +kernel
  obtain ⟨μ, hμ, hend⟩ := Option.map_eq_some_iff.1 hrun
  have hok := obeys_of_after hμ (Option.isNone_iff_eq_none.1 hend)
  rw [← hbranches]
  exact ⟨_, hs, terminates_of_copiesPlain hs hok⟩

end Moment

end PdfFunctions
