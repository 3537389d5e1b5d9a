import PdfFunctions.Function.Calculator
import PdfFunctions.Proofs.Clipping
import PdfFunctions.Proofs.Defects

namespace PdfFunctions

open Intervals

open Machine

variable {l : Limits}

namespace Error

def OfProgram (e : Error) : Prop := e.OfValue ∨ e = .outOfSteps ∨ ∃ i : Item, i.defect? = some e

theorem OfProgram.ne_inputCount {e : Error} (h : e.OfProgram) (k n : Nat) :
    e ≠ .inputCount k n := by
  rintro rfl
  rcases h with hvalue | hsteps | ⟨⟨token, start, stop⟩, hdefect⟩
  · exact hvalue
  · cases hsteps
  · cases token <;> simp [Item.defect?] at hdefect

end Error

namespace Machine

variable {m m' : Machine} {e : Error}

theorem defect_of_refuse {i : Item} (hv : i.value? = none) (h : refuse l i m = .error e m') :
    i.defect? = some e := by
  have hreject (e' : Error) (event : Event) (h : reject l e' event m = .error e m') : e = e' := by
    unfold reject at h
    split at h
    · cases h
      rfl
    · cases h
  obtain ⟨token, start, stop⟩ := i
  cases token with
  | name bs =>
    have hop : Operator.ofName? bs = none := Option.map_eq_none_iff.1 hv
    rw [hreject _ _ h, Item.defect?]
    exact if_pos hop
  | malformed bs =>
    rw [hreject _ _ h]
    rfl
  | _ => cases hv

theorem ofProgram_of_feedItems {is : List Item} (h : feedItems l is m = .error e m') :
    e.OfProgram := by
  induction is generalizing m with
  | nil => cases h
  | cons i is ih =>
    rw [feedItems_cons] at h
    rcases bind_eq_error.1 h with h | ⟨_, m₁, -, h⟩
    · cases hv : i.value? with
      | some v =>
        rw [feedItem_of_value hv] at h
        rcases ofValue_of_feed h with hvalue | hsteps
        · exact .inl hvalue
        · exact .inr (.inl hsteps)
      | none =>
        rw [feedItem_of_no_value hv] at h
        exact .inr (.inr ⟨i, defect_of_refuse hv h⟩)
    · exact ih h

theorem ofProgram_of_evaluateText {text : Bytes} {s : Stack} {log log' : Log}
    (h : evaluateText l text s log = .error e log') : e.OfProgram := by
  unfold evaluateText at h
  split at h
  · cases h
  · rename_i e' m hrun
    cases h
    rw [run] at hrun
    rcases bind_eq_error.1 hrun with hfeed | ⟨_, m₁, hfeed, hnote⟩
    · exact ofProgram_of_feedItems hfeed
    · rw [get_bind] at hnote
      split at hnote <;> cases hnote

end Machine

theorem Stack.ofProgram_of_ofNumbers {limit : Nat} {xs : List Float} {e : Error}
    (h : ofNumbers limit xs = .error e) : e.OfProgram := by
  unfold ofNumbers ofValues at h
  split at h
  · cases h
  · rename_i e' s hpush
    cases h
    have hkeeps := (StackM.Composed.pushAll (xs.map .number)).keeps (robust_true 0)
    exact .inl (hkeeps.of_error trivial hpush).2

theorem length_of_mapM_eq_ok {ε α β : Type} {g : α → Except ε β} {xs : List α} {ys : List β}
    (h : xs.mapM g = .ok ys) : ys.length = xs.length := by
  induction xs generalizing ys with
  | nil =>
    cases h
    rfl
  | cons x xs ih =>
    rw [List.mapM_cons] at h
    obtain ⟨y, -, h⟩ := except_bind_eq_ok.1 h
    obtain ⟨ys', hys, h⟩ := except_bind_eq_ok.1 h
    cases h
    rw [List.length_cons, List.length_cons, ih hys]

theorem exists_of_mapM_eq_error {ε α β : Type} {g : α → Except ε β} {xs : List α} {e : ε}
    (h : xs.mapM g = .error e) : ∃ x ∈ xs, g x = .error e := by
  induction xs with
  | nil => cases h
  | cons x xs ih =>
    rw [List.mapM_cons] at h
    cases hx : g x with
    | error e' =>
      rw [hx] at h
      cases h
      exact ⟨x, List.mem_cons_self, hx⟩
    | ok y =>
      cases hxs : xs.mapM g with
      | error e' =>
        rw [hx, hxs] at h
        cases h
        obtain ⟨z, hz, hg⟩ := ih hxs
        exact ⟨z, List.mem_cons_of_mem _ hz, hg⟩
      | ok ys =>
        rw [hx, hxs] at h
        cases h

namespace Calculator

variable {f : Calculator} {log log' : Log}

theorem run_of_misfit {is : Intervals Float} (hd : f.domain = some is) {xs : List Float}
    (hxs : xs.length ≠ is.length) (log : Log) :
    f.run xs log = .error (.inputCount is.length xs.length) log := by
  rw [run, hd, Option.elim_some, fit_of_ne hxs]
  rfl

theorem blame_of_run {xs : List Float} {k n : Nat}
    (h : f.run xs log = .error (.inputCount k n) log') :
    ∃ is, f.domain = some is ∧ is.length = k ∧ xs.length ≠ k := by
  rw [run] at h
  rcases bind_eq_error.1 h with hfit | ⟨ys, log₁, -, h⟩
  · cases hd : f.domain with
    | none =>
      rw [hd] at hfit
      cases hfit
    | some is =>
      rw [hd, Option.elim_some] at hfit
      by_cases hxs : xs.length = is.length
      · rw [fit_of_length hxs] at hfit
        cases hfit
      · rw [fit_of_ne hxs] at hfit
        cases hfit
        exact ⟨is, rfl, rfl, hxs⟩
  · rcases bind_eq_error.1 h with hpush | ⟨s, log₂, -, h⟩
    · have herror := Stack.ofProgram_of_ofNumbers (ofExcept_eq_error.1 hpush).1
      exact absurd rfl (herror.ne_inputCount k n)
    · exact absurd rfl ((ofProgram_of_evaluateText h).ne_inputCount k n)

/-- With enough values on the stack the lowest are taken, and more of them are only reported. -/
theorem outputs_of_enough {s : Stack} (h : f.range.length ≤ s.size) (log : Log) :
    ∃ log₁, f.outputs s log =
      (ofExcept ((s.contents.take f.range.length).mapM Value.getNumber) >>= fun ys =>
        pure (f.range.clip ys) : EStateM Error Log (List Float)) log₁ := by
  unfold outputs
  dsimp only
  rw [if_neg (Nat.not_lt.2 h)]
  split
  · exact ⟨_, rfl⟩
  · exact ⟨log, rfl⟩

theorem outputs_of_few {s : Stack} (h : s.size < f.range.length) (log : Log) :
    f.outputs s log = .error (.malformed (.tooFewResults s.size f.range.length)) log := by
  unfold outputs
  dsimp only
  rw [if_pos h]
  rfl

theorem of_outputs {s : Stack} {ys : List Float} (h : f.outputs s log = .ok ys log') :
    ∃ zs, zs.length = f.range.length ∧ ys = f.range.clip zs := by
  by_cases hsize : s.size < f.range.length
  · cases h.symm.trans (outputs_of_few hsize log)
  · have henough := Nat.le_of_not_lt hsize
    obtain ⟨log₁, houtputs⟩ := outputs_of_enough henough log
    obtain ⟨zs, log₂, hzs, hclip⟩ := bind_eq_ok.1 (houtputs.symm.trans h)
    have hlength := length_of_mapM_eq_ok (ofExcept_eq_ok.1 hzs).1
    refine ⟨zs, ?_, (pure_eq_ok.1 hclip).1.symm⟩
    rw [hlength, List.length_take, Stack.contents, List.length_reverse, ← s.size_eq]
    omega

theorem ne_inputCount_of_outputs {s : Stack} {e : Error} (h : f.outputs s log = .error e log')
    (k n : Nat) : e ≠ .inputCount k n := by
  by_cases hsize : s.size < f.range.length
  · cases h.symm.trans (outputs_of_few hsize log)
    simp
  · obtain ⟨log₁, houtputs⟩ := outputs_of_enough (Nat.le_of_not_lt hsize) log
    rcases bind_eq_error.1 (houtputs.symm.trans h) with hnumbers | ⟨zs, log₂, -, hclip⟩
    · obtain ⟨v, -, hv⟩ := exists_of_mapM_eq_error (ofExcept_eq_error.1 hnumbers).1
      rintro rfl
      exact StackM.ofValue_of_getNumber hv
    · cases hclip

end Calculator

end PdfFunctions
