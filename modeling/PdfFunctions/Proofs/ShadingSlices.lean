import PdfFunctions.Proofs.Clipping
import PdfFunctions.Proofs.ColorConversion

namespace PdfFunctions

namespace Exponential

variable (f : Exponential)

/-- The output `j`, which has the coefficients `c`, as a function of its own. -/
def slice (j : Nat) (c : Float × Float) : Exponential :=
  { f with terms := [c], range := f.range.bind fun is => is[j]?.map ([·]) }

/-- A slice is what its own coefficients make. -/
theorem exists_make_slice (hn : f.exponent.isFinite = true) (j : Nat) (c : Float × Float) :
    ∃ g, make (some [c.1]) (some [c.2]) f.exponent = .ok g ∧ f.slice j c =
      { g with domain := f.domain, range := f.range.bind fun is => is[j]?.map ([·]) } := by
  refine ⟨{ terms := [c], exponent := f.exponent }, ?_, rfl⟩
  rw [make]
  simp only [hn]
  rfl

def slices : List Exponential := f.terms.mapIdx f.slice

def power (x : Float) : Float := Float.pow (f.domain.elim x (·.clip x)) f.exponent

def output (x : Float) (j : Nat) (c : Float × Float) : Float :=
  (f.range.bind (·[j]?)).elim (term (f.power x) c) (·.clip (term (f.power x) c))

def remarks (x : Float) : Log := (remark? (f.domain.elim x (·.clip x)) f.exponent).toList

theorem evaluate_singleton (x : Float) (log : Log) :
    f.evaluate [x] log = .ok (f.terms.mapIdx (f.output x)) (f.remarks x ++ log) := by
  -- the intervals of a range stand by their numbers, so the two lists are compared entry by entry
  have houtputs : f.terms.mapIdx (f.output x) =
      f.range.elim (f.terms.map (term (f.power x))) (·.clip (f.terms.map (term (f.power x)))) := by
    refine List.ext_getElem? fun j => ?_
    rw [List.getElem?_mapIdx]
    unfold output
    cases f.range with
    | none => simp
    | some is =>
      cases hi : is[j]? with
      | none => simp [Intervals.getElem?_clip_of_none hi, hi]
      | some i => simp [Intervals.getElem?_clip hi, hi, Function.comp_def]
  rw [houtputs]
  rfl

theorem evaluate_slice (j : Nat) (c : Float × Float) (x : Float) (log : Log) :
    (f.slice j c).evaluate [x] log = .ok [f.output x j c] (f.remarks x ++ log) := by
  rw [evaluate_singleton]
  have hinterval : (f.slice j c).range.bind (·[0]?) = f.range.bind (·[j]?) := by
    unfold slice
    cases f.range with
    | none => rfl
    | some is => cases h : is[j]? <;> simp [h]
  have houtput : (f.slice j c).output x 0 c = f.output x j c := by
    rw [output, hinterval]
    rfl
  simp only [slice, List.mapIdx_cons, List.mapIdx_nil, ← houtput]
  rfl

theorem evaluate_of_length_ne {xs : List Float} (hxs : xs.length ≠ 1) (log : Log) :
    f.evaluate xs log = .error (.inputCount 1 xs.length) log := by
  cases xs with
  | nil => rfl
  | cons x xs =>
    cases xs with
    | nil => exact absurd rfl hxs
    | cons => rfl

end Exponential

namespace Shading

variable (f : Exponential)

theorem evaluate_single_of_one (x : Float) (log : Log) :
    (single (.exponential f)).evaluate [x] log =
      .ok (f.terms.mapIdx (f.output x)) (f.remarks x ++ log) := by
  rw [evaluate, Function.evaluate, f.evaluate_singleton]

/-- The slices with any numbers, one after the other. Each reports what the whole function reports
once. -/
theorem singles_slices (x : Float) (cs : List ((Float × Float) × Nat)) (log : Log) :
    ∃ log', Singles [x] (cs.map fun c => .exponential (f.slice c.2 c.1))
      (cs.map fun c => f.output x c.2 c.1) log log' := by
  induction cs generalizing log with
  | nil => exact ⟨log, .nil log⟩
  | cons c cs ih =>
    obtain ⟨log', hcs⟩ := ih (f.remarks x ++ log)
    have hc : (Function.exponential (f.slice c.2 c.1)).evaluate [x] log =
        .ok [f.output x c.2 c.1] (f.remarks x ++ log) := by
      rw [Function.evaluate, f.evaluate_slice]
    exact ⟨log', .cons hc hcs⟩

theorem outcome_slices_of_one (x : Float) (log : Log) :
    ((perComponent (f.slices.map .exponential)).evaluate [x]).outcome log =
      .ok (f.terms.mapIdx (f.output x)) := by
  obtain ⟨log', hcs⟩ := singles_slices f x f.terms.zipIdx log
  rw [Exponential.slices, List.mapIdx_eq_zipIdx_map, List.mapIdx_eq_zipIdx_map, List.map_map]
  exact EvalM.outcome_of_ok hcs.evaluate

theorem outcome_slices_of_length_ne (hf : f.terms ≠ []) {xs : List Float} (hxs : xs.length ≠ 1)
    (log : Log) : ((perComponent (f.slices.map .exponential)).evaluate xs).outcome log =
      .error (.inputCount 1 xs.length) := by
  obtain ⟨c, cs, hcs⟩ := List.exists_cons_of_ne_nil hf
  have hfirst : (Function.exponential (f.slice 0 c)).evaluate xs log =
      .error (.inputCount 1 xs.length) log := by
    rw [Function.evaluate, (f.slice 0 c).evaluate_of_length_ne hxs]
  rw [Exponential.slices, hcs, List.mapIdx_cons, List.map_cons]
  exact EvalM.outcome_of_error (Stops.fails _ hfirst).evaluate

/-- An exponential function and the functions for its single outputs come to the same in a shading,
and give the same colour in every space. -/
theorem slices_agree (hf : f.terms ≠ []) (xs : List Float) (space : ColorSpace) (log : Log) :
    ((perComponent (f.slices.map .exponential)).evaluate xs).outcome log =
        ((single (.exponential f)).evaluate xs).outcome log ∧
      ((perComponent (f.slices.map .exponential)).color space xs log).1 =
        ((single (.exponential f)).color space xs log).1 := by
  have houtcome : ((perComponent (f.slices.map .exponential)).evaluate xs).outcome log =
      ((single (.exponential f)).evaluate xs).outcome log := by
    by_cases hxs : xs.length = 1
    · obtain ⟨x, rfl⟩ := List.length_eq_one_iff.1 hxs
      rw [outcome_slices_of_one, EvalM.outcome_of_ok (evaluate_single_of_one f x log)]
    · have hwhole : (single (.exponential f)).evaluate xs log =
          .error (.inputCount 1 xs.length) log := by
        rw [evaluate, Function.evaluate, f.evaluate_of_length_ne hxs]
      rw [outcome_slices_of_length_ne f hf hxs, EvalM.outcome_of_error hwhole]
  refine ⟨houtcome, ?_⟩
  rw [color, color, Color.orBlack_fst, Color.orBlack_fst, houtcome]

/-- Two outputs, each with an interval, are too few for three components either way. -/
theorem slices_agree_of_two : ∃ f : Exponential, f.slices.length = 2 ∧
    ((perComponent (f.slices.map .exponential)).evaluate [0.5]).outcome [] =
      .ok (f.terms.mapIdx (f.output 0.5)) ∧
    ((perComponent (f.slices.map .exponential)).color ⟨"DeviceRGB", 3⟩ [0.5] []).1 =
      .rgb 0 0 0 := by
  let unit : Interval Float := ⟨0, 1, by decide +kernel⟩
  let f : Exponential :=
    { domain := some unit, range := some [unit, unit], terms := [(0, 1), (1, 0)], exponent := 2 }
  have hf : f.terms ≠ [] := by simp [f]
  obtain ⟨houtcome, hcolor⟩ := slices_agree f hf [0.5] ⟨"DeviceRGB", 3⟩ []
  have hwhole := evaluate_single_of_one f 0.5 []
  refine ⟨f, rfl, houtcome.trans (EvalM.outcome_of_ok hwhole), hcolor.trans ?_⟩
  rw [color, Color.orBlack_of_misfit hwhole (by simp [f])]
  rfl

end Shading

end PdfFunctions
