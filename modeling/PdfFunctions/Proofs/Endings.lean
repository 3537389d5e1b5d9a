import PdfFunctions.Proofs.Invariants
import PdfFunctions.Proofs.LastMoment
import PdfFunctions.Proofs.ValueRuns

namespace PdfFunctions

variable {l : Limits} {m m' : Machine}

theorem bind_congr_result {ε σ α β : Type} {x y : EStateM ε σ α} {s t : σ} (h : x s = y t)
    (f : α → EStateM ε σ β) : (x >>= f) s = (y >>= f) t := by
  cases hy : y t with
  | ok a u => rw [bind_of_ok hy, bind_of_ok (h.trans hy)]
  | error e u => rw [bind_of_error hy, bind_of_error (h.trans hy)]

namespace Machine

theorem complete_of_ok {x : MachineM Unit} (h : x m = .ok () m') :
    complete l x m = complete l (pure ()) m' := by
  rw [complete_apply, complete_apply, bind_of_ok h, bind_of_ok (pure_apply () m')]

theorem complete_of_error {x : MachineM Unit} {e : Error} (h : x m = .error e m') :
    complete l x m = .error e m'.unwind := by
  rw [complete_apply, bind_of_error h]

theorem complete_of_settle_error {e : Error} (h : settle? l m = some (.error e m')) :
    complete l (pure ()) m = .error e m'.unwind := by
  rw [complete_apply, bind_of_ok (pure_apply () m), settled_of_some h]

theorem complete_of_calls (hc : m.calls = []) : complete l (pure ()) m = .ok () m := by
  rw [complete_apply, bind_of_ok (pure_apply () m), settled_of_some (settle_of_nil hc)]

theorem complete_congr (h : settle? l m = settle? l m') (hs : settle? l m' ≠ none) :
    complete l (pure ()) m = complete l (pure ()) m' := by
  obtain ⟨r, hr⟩ := Option.ne_none_iff_exists'.1 hs
  rw [complete_apply, complete_apply, bind_of_ok (pure_apply () m), bind_of_ok (pure_apply () m'),
    settled_of_some (h.trans hr), settled_of_some hr]

theorem refuse_cases (l : Limits) (i : Item) : refuse l i = pure () ∨
    (∃ e, e ≠ .outOfSteps ∧ refuse l i = throw e) ∨ ∃ event, refuse l i = note event := by
  unfold refuse reject
  cases i.token with
  | name bs | malformed bs =>
    refine .inr ?_
    cases l.strict with
    | true => exact .inl ⟨_, by simp, rfl⟩
    | false => exact .inr ⟨_, rfl⟩
  | _ => exact .inl rfl

theorem refuse_ne {i : Item} {e : Error} (h : refuse l i m = .error e m') : e ≠ .outOfSteps := by
  rcases refuse_cases l i with hi | ⟨e', he', hi⟩ | ⟨event, hi⟩
  · rw [hi, pure_apply] at h
    cases h
  · rw [hi, throw_apply] at h
    cases h
    exact he'
  · rw [hi] at h
    cases h

theorem ofValue_of_settle {e : Error} (h : settle? l m = some (.error e m')) : e.OfValue := by
  let motive (_ : Machine) (r : EStateM.Result Error Machine Unit) : Prop :=
    ∀ e m', r = .error e m' → e.OfValue
  refine settle?.partial_correctness l motive ?_ m _ h e m' rfl
  intro settle ih m r hr
  split at hr
  · obtain rfl := Option.some.inj hr
    rintro e m' ⟨⟩
  · split at hr
    · exact ih _ r hr
    · rename_i hm
      obtain rfl := Option.some.inj hr
      rintro e m' ⟨⟩
      exact ((keeps_step (robust_true _)).of_error trivial hm).2

/-- A value does not fail as a defect of the text does. -/
theorem ofValue_of_feed {v : Value} {e : Error} (h : feed l v m = .error e m') :
    e.OfValue ∨ e = .outOfSteps := by
  cases ha : accept l v m with
  | error e' m₁ =>
    rw [feed_of_accept_error ha] at h
    cases h
    exact .inl ((keeps_accept (robust_true _) v).of_error trivial ha).2
  | ok u m₁ =>
    cases hs : settle? l m₁ with
    | none =>
      simp only [feed, complete, ha, hs] at h
      cases h
      exact .inr rfl
    | some r =>
      cases r with
      | ok u m₂ =>
        rw [feed_of_ok ha hs] at h
        cases h
      | error e' m₂ =>
        rw [feed_of_settle_error ha hs] at h
        cases h
        exact .inl (ofValue_of_settle hs)

/-- The note about braces left open changes nothing but the log. -/
theorem run_of_feedItems {text : Bytes} (h : feedItems l (tokenize text) m = .ok () m') :
    ∃ log, run l text m = .ok () { m' with log := log } := by
  rw [run, bind_of_ok h, get_bind]
  split
  · exact ⟨_, rfl⟩
  · exact ⟨_, rfl⟩

end Machine

open Machine

namespace Moment

variable {ok : Rule} {μ μ' : Moment}

def finish (l : Limits) (μ : Moment) : EStateM.Result Error Machine Unit :=
  (complete l (pure ()) >>= fun _ => feedItems l μ.rest) μ.machine

theorem finish_of_calls (hc : μ.machine.calls = []) :
    finish l μ = feedItems l μ.rest μ.machine := by
  rw [finish, bind_of_ok (complete_of_calls hc)]

/-- To go on to the next moment does not change what the evaluation comes to. -/
theorem finish_of_advance (h : advance l μ = some μ') (hs : settle? l μ'.machine ≠ none) :
    settle? l μ.machine ≠ none ∧ finish l μ = finish l μ' := by
  -- a step inside a body leaves the text alone; outside bodies the next item is read
  cases hc : μ.machine.calls with
  | cons c cs =>
    simp only [advance, hc] at h
    split at h
    · rename_i m hm
      obtain rfl := Option.some.inj h
      have hsettle := settle_of_step hc hm
      exact ⟨fun hn => hs (hsettle.symm.trans hn), bind_congr_result (complete_congr hsettle hs) _⟩
    · simp at h
  | nil =>
    refine ⟨by simp [settle_of_nil hc], ?_⟩
    rw [finish_of_calls hc]
    cases hr : μ.rest with
    | nil => simp [advance, hc, hr] at h
    | cons i is =>
      simp only [advance, hc, hr, readItem] at h
      rw [feedItems_cons]
      split at h
      · rename_i v hv
        split at h
        · rename_i m hm
          obtain rfl := Option.some.inj h
          rw [feedItem_of_value hv]
          exact bind_congr_result (complete_of_ok hm) _
        · simp at h
      · rename_i hv
        split at h
        · rename_i m hm
          obtain rfl := Option.some.inj h
          rw [feedItem_of_no_value hv, bind_of_ok hm]
          have hcalls : m.calls = [] := by
            obtain ⟨log, rfl⟩ := logged_of_refuse hm
            exact hc
          exact (finish_of_calls (l := l) (μ := { μ with machine := m, rest := is }) hcalls).symm
        · simp at h

theorem finish_of_reaches (h : Reaches l ok μ μ') (hs : settle? l μ'.machine ≠ none) :
    settle? l μ.machine ≠ none ∧ finish l μ = finish l μ' := by
  induction h using Relation.ReflTransGen.head_induction_on with
  | refl => exact ⟨hs, rfl⟩
  | head hf _ ih =>
    obtain ⟨hs₁, hfinish⟩ := finish_of_advance hf.1 ih.1
    exact ⟨hs₁, hfinish.trans ih.2⟩

/-- There is no next moment either because nothing is left or because of an error. -/
theorem finish_of_last (h : advance l μ = none) : settle? l μ.machine ≠ none ∧
    (finish l μ = .ok () μ.machine ∨ ∃ e m, finish l μ = .error e m ∧ e ≠ .outOfSteps) := by
  cases hc : μ.machine.calls with
  | cons c cs =>
    simp only [advance, hc] at h
    split at h
    · simp at h
    · rename_i e m hm
      have hsettle := settle_of_step_error hc hm
      -- one step never reports that the steps ran out: only a run that does not end does
      have hne := ((keeps_step (robust_true _)).of_error trivial hm).2.ne_outOfSteps
      exact ⟨by simp [hsettle], .inr ⟨e, m.unwind,
        bind_of_error (complete_of_settle_error hsettle), hne⟩⟩
  | nil =>
    refine ⟨by simp [settle_of_nil hc], ?_⟩
    rw [finish_of_calls hc]
    cases hr : μ.rest with
    | nil => exact .inl rfl
    | cons i is =>
      simp only [advance, hc, hr, readItem] at h
      rw [feedItems_cons]
      refine .inr ?_
      split at h
      · rename_i v hv
        split at h
        · simp at h
        · rename_i e m hm
          have hne := ((keeps_accept (robust_true _) v).of_error trivial hm).2.ne_outOfSteps
          rw [feedItem_of_value hv]
          exact ⟨e, _, bind_of_error (complete_of_error hm), hne⟩
      · rename_i hv
        split at h
        · simp at h
        · rename_i e m hm
          rw [feedItem_of_no_value hv]
          exact ⟨e, _, bind_of_error hm, refuse_ne hm⟩

theorem feedItems_of_last {text : Bytes} (hc : m.calls = []) (h : Reaches l ok (start m text) μ)
    (hend : advance l μ = none) : feedItems l (tokenize text) m = finish l μ :=
  (finish_of_calls (μ := start m text) hc).symm.trans
    (finish_of_reaches h (finish_of_last hend).1).2

/-- Where nothing is left, the evaluation has succeeded with the machine of that moment. -/
theorem run_of_finished {text : Bytes} (hc : m.calls = []) (h : Reaches l ok (start m text) μ)
    (hcalls : μ.machine.calls = []) (hrest : μ.rest = []) :
    ∃ log, run l text m = .ok () { μ.machine with log := log } := by
  have hfeed := feedItems_of_last hc h (by rw [advance, hcalls, hrest])
  rw [finish_of_calls hcalls, hrest] at hfeed
  exact run_of_feedItems hfeed

/-- A fixed run, gone through moment by moment. -/
theorem run_of_after {text : Bytes} {n d : Nat} {s : Stack} (hc : m.calls = [])
    (h : (after l anything n (start m text)).map
      (fun μ => (μ.machine.stack, μ.machine.depth, μ.machine.calls, μ.rest.length)) =
        some (s, d, [], 0)) :
    ∃ log, run l text m = .ok () { stack := s, depth := d, log := log } := by
  obtain ⟨⟨⟨s, d, cs, log⟩, rest, read, bodies, peak⟩, hμ, he⟩ := Option.map_eq_some_iff.1 h
  obtain ⟨rfl, rfl, rfl, hrest⟩ := by simpa only [Prod.mk.injEq] using he
  exact run_of_finished hc (reaches_of_after hμ) rfl (List.length_eq_zero_iff.1 hrest)

/-- A fixed run that an error inside a body ends. -/
theorem run_of_after_error {text : Bytes} {n : Nat} {e : Error} (hc : m.calls = [])
    (h : (after l anything n (start m text)).map
      (fun μ => match step l μ.machine with | .ok .. => none | .error e _ => some e) =
        some (some e)) : ∃ m', run l text m = .error e m' := by
  obtain ⟨μ, hμ, he⟩ := Option.map_eq_some_iff.1 h
  split at he
  · simp at he
  · rename_i e' m' hm
    obtain rfl := Option.some.inj he
    cases hcalls : μ.machine.calls with
    | nil => simp [step, hcalls] at hm
    | cons c cs =>
      have hend : advance l μ = none := by simp only [advance, hcalls, hm]
      have hfeed := feedItems_of_last hc (reaches_of_after hμ) hend
      have herror := complete_of_settle_error (settle_of_step_error hcalls hm)
      rw [finish, bind_of_error herror] at hfeed
      exact ⟨_, bind_of_error hfeed⟩

/-- An evaluation with a last moment does not fail for want of steps. -/
theorem evaluateText_ne_outOfSteps {text : Bytes} {s : Stack} {log log' : Log}
    (h : Reaches l ok (start { stack := s, log } text) μ) (hend : advance l μ = none) :
    evaluateText l text s log ≠ .error .outOfSteps log' := by
  have hfeed := feedItems_of_last rfl h hend
  rw [evaluateText]
  rcases (finish_of_last hend).2 with hfinish | ⟨e, m, hfinish, hne⟩
  · obtain ⟨log₁, hrun⟩ := run_of_feedItems (hfeed.trans hfinish)
    rw [hrun]
    simp
  · rw [run, bind_of_error (hfeed.trans hfinish)]
    simp [hne]

end Moment

end PdfFunctions
