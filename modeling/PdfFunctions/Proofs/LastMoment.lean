import PdfFunctions.Proofs.Moments

namespace PdfFunctions

open Machine Moment

variable {l : Limits} {m m' : Machine}

/-- To run the open calls is to go from moment to moment until none is left. -/
theorem reaches_of_settle (h : settle? l m = some (.ok () m')) (μ : Moment)
    (hm : μ.machine = m) : ∃ μ', Reaches l anything μ μ' ∧ μ'.machine = m' ∧
      μ'.rest = μ.rest ∧ m'.calls = [] := by
  -- failures are left out: no evaluation that succeeds has one
  let motive (m : Machine) (r : EStateM.Result Error Machine Unit) : Prop :=
    ∀ m', r = .ok () m' → ∀ μ : Moment, μ.machine = m → ∃ μ', Reaches l anything μ μ' ∧
      μ'.machine = m' ∧ μ'.rest = μ.rest ∧ m'.calls = []
  refine settle?.partial_correctness l motive ?_ m _ h m' rfl μ hm
  intro settle ih m r hr m' he μ hm
  subst he hm
  split at hr
  · rename_i hc
    obtain ⟨-, rfl⟩ := EStateM.Result.ok.inj (Option.some.inj hr)
    exact ⟨μ, .refl, rfl, rfl, hc⟩
  · rename_i c cs hc
    split at hr
    · rename_i m₁ hstep
      have hadv : advance l μ = some (μ.move m₁) := advance_of_step hc hstep
      obtain ⟨μ', hμ', hm', hrest, hcalls⟩ := ih m₁ _ hr m' rfl (μ.move m₁) rfl
      exact ⟨μ', .head ⟨hadv, fun _ _ => trivial⟩ hμ', hm', hrest, hcalls⟩
    · simp at hr

theorem accept_of_feed {v : Value} {u : Unit} (h : feed l v m = .ok u m') :
    ∃ m₁, accept l v m = .ok () m₁ ∧ settle? l m₁ = some (.ok () m') := by
  unfold feed complete at h
  split at h
  · rename_i m₁ hacc
    split at h
    · rename_i m₂ hsettle
      obtain ⟨-, rfl⟩ := EStateM.Result.ok.inj h
      exact ⟨m₁, hacc, hsettle⟩
    · simp at h
    · simp at h
  · simp at h

theorem reaches_of_feedItem {i : Item} {is : List Item} {u : Unit} {μ : Moment}
    (h : feedItem l i μ.machine = .ok u m') (hc : μ.machine.calls = []) (hr : μ.rest = i :: is) :
    ∃ μ', Reaches l anything μ μ' ∧ μ'.machine = m' ∧ μ'.rest = is ∧ m'.calls = [] := by
  have hadv : advance l μ = μ.readItem l i is := by rw [advance, hc, hr]
  cases hv : i.value? with
  | some v =>
    rw [feedItem_of_value hv] at h
    obtain ⟨m₁, hacc, hsettle⟩ := accept_of_feed h
    -- the moment right after the value, with the calls that it opened
    let μ₁ : Moment := { μ.move m₁ with rest := is, read := μ.read ++ [v] }
    have hread : advance l μ = some μ₁ := by
      rw [hadv, readItem, hv]
      simp only [hacc]
      rfl
    obtain ⟨μ', hμ', hm', hrest, hcalls⟩ := reaches_of_settle hsettle μ₁ rfl
    exact ⟨μ', .head ⟨hread, fun _ _ => trivial⟩ hμ', hm', hrest, hcalls⟩
  | none =>
    rw [feedItem_of_no_value hv] at h
    have hread : advance l μ = some { μ with machine := m', rest := is } := by
      rw [hadv, readItem, hv]
      simp only [h]
    obtain ⟨log, hlog⟩ := logged_of_refuse h
    exact ⟨_, .single ⟨hread, fun _ _ => trivial⟩, rfl, rfl, by rw [hlog]; exact hc⟩

theorem reaches_of_feedItems {is : List Item} {u : Unit} {μ : Moment}
    (h : feedItems l is μ.machine = .ok u m') (hc : μ.machine.calls = []) (hr : μ.rest = is) :
    ∃ μ', Reaches l anything μ μ' ∧ μ'.machine = m' ∧ μ'.rest = [] ∧ m'.calls = [] := by
  induction is generalizing μ with
  | nil =>
    obtain ⟨-, rfl⟩ := pure_eq_ok.1 h
    exact ⟨μ, .refl, rfl, hr, hc⟩
  | cons i is ih =>
    simp only [feedItems] at h
    split at h
    · rename_i m₁ hi
      obtain ⟨μ₁, hμ₁, rfl, hrest, hcalls⟩ := reaches_of_feedItem hi hc hr
      obtain ⟨μ', hμ', hm'⟩ := ih h hcalls hrest
      exact ⟨μ', hμ₁.trans hμ', hm'⟩
    · simp at h

/-- The final stack is the one at the last moment. -/
theorem exists_last_moment {text : Bytes} {s t : Stack} {log log' : Log}
    (h : evaluateText l text s log = .ok t log') :
    ∃ μ, Reaches l anything (start { stack := s, log } text) μ ∧ advance l μ = none ∧
      μ.machine.stack = t := by
  unfold evaluateText at h
  split at h
  · rename_i m hrun
    obtain ⟨rfl, rfl⟩ := EStateM.Result.ok.inj h
    obtain ⟨_, m₁, hfeed, hnote⟩ := bind_eq_ok.1 hrun
    obtain ⟨μ, hμ, rfl, hrest, hcalls⟩ :=
      reaches_of_feedItems (μ := start { stack := s, log } text) hfeed rfl rfl
    refine ⟨μ, hμ, by rw [advance, hcalls, hrest], ?_⟩
    -- a note about braces left open does not touch the stack
    obtain ⟨m₂, m₃, hget, hnote⟩ := bind_eq_ok.1 hnote
    obtain ⟨rfl, rfl⟩ := EStateM.Result.ok.inj hget
    split at hnote
    · obtain ⟨-, rfl⟩ := EStateM.Result.ok.inj hnote
      rfl
    · obtain ⟨-, rfl⟩ := pure_eq_ok.1 hnote
      rfl
  · simp at h

end PdfFunctions
