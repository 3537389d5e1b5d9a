import PdfFunctions.Proofs.Endings
import PdfFunctions.Proofs.LockstepRuns

namespace PdfFunctions.Machine

variable {l : Limits}

def unlogged (m : Machine) : Machine := { m with log := [] }

def ending : EStateM.Result Error Machine Unit → Option Error × Machine
  | .ok _ m => (none, m.unlogged)
  | .error e m => (some e, m.unlogged)

def SameButLog (m n : Machine) : Prop := ∃ log, n = { m with log := log }

theorem SameButLog.refl (m : Machine) : SameButLog m m := ⟨m.log, rfl⟩

abbrev Matches {α : Type} (x y : MachineM α) : Prop := Lockstep SameButLog (fun _ => False) x y

theorem matches_onStack {α : Type} (x : StackM α) : Matches (onStack x) (onStack x) := by
  rintro m _ ⟨log, rfl⟩
  cases hx : x m.stack with
  | ok a s =>
    rw [onStack_of_ok hx]
    exact ⟨_, onStack_of_ok (m := { m with log := log }) hx, log, rfl⟩
  | error e s =>
    rw [onStack_of_error hx]
    exact .inr ⟨_, onStack_of_error (m := { m with log := log }) hx, log, rfl⟩

theorem Alike.matches {strict : Bool} {α : Type} {x y : MachineM α}
    (h : Alike l (l.withStrict strict) x y) : Matches x y := by
  induction h with
  | pure a => exact .pure a
  | throw => exact .throw _
  | onStack hx => exact matches_onStack _
  | defer v => exact matches_onStack _
  | note f =>
    rintro m _ ⟨log, rfl⟩
    exact ⟨_, rfl, _, rfl⟩
  | setDepth d =>
    rintro m _ ⟨log, rfl⟩
    exact ⟨_, rfl, log, rfl⟩
  | enter w =>
    rintro m _ ⟨log, rfl⟩
    exact ⟨_, rfl, log, rfl⟩
  | nest d =>
    change Matches (if l.maxNesting ≤ d then _ else _) (if l.maxNesting ≤ d then _ else _)
    split
    · exact .throw _
    · exact .pure ()
  | byDepth _ ih =>
    rintro m _ ⟨log, rfl⟩
    exact ih m.depth ⟨log, rfl⟩
  | bind _ _ hx hf => exact hx.bind hf

theorem parallel_withStrict (l : Limits) (strict : Bool) :
    Parallel l (l.withStrict strict) SameButLog fun _ => False where
  depth := by
    rintro m _ ⟨log, rfl⟩
    rfl
  calls := by
    rintro m _ ⟨log, rfl⟩
    rfl
  leave := by
    rintro m _ d cs ⟨log, rfl⟩
    exact ⟨log, rfl⟩
  alike h := h.matches

theorem Matches.ending {x y : MachineM Unit} (h : Matches x y) {m n : Machine}
    (hmn : SameButLog m n) : ending (x m) = ending (y n) := by
  have hr := h hmn
  cases hx : x m with
  | ok u m₁ =>
    rw [hx] at hr
    obtain ⟨_, hy, log, rfl⟩ := hr
    rw [hy]
    rfl
  | error e m₁ =>
    rw [hx] at hr
    obtain hr | ⟨_, hy, log, rfl⟩ := hr
    · exact hr.elim
    · rw [hy]
      rfl

/-- A further note makes no difference. -/
theorem ending_run (l : Limits) (text : Bytes) (m : Machine) :
    ending (run l text m) = ending (feedItems l (tokenize text) m) := by
  cases h : feedItems l (tokenize text) m with
  | ok u m₁ =>
    obtain ⟨log, hrun⟩ := run_of_feedItems h
    rw [hrun]
    rfl
  | error e m₁ => rw [run, bind_of_error h]

end PdfFunctions.Machine
