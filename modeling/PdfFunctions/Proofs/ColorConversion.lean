import PdfFunctions.Color
import PdfFunctions.Proofs.EvaluationReports

namespace PdfFunctions

variable {f : Function} {fs : List Function} {xs ys : List Float} {space : ColorSpace}
  {event : Error → Event} {e : Error} {log log' log₁ log₂ : Log}

def EvalM.Returns {α : Type} (x : EvalM α) (log : Log) : Prop :=
  ∀ log', x log ≠ .error .outOfSteps log'

/-- What an evaluation comes to, apart from what it reports. -/
def EvalM.outcome {α : Type} (x : EvalM α) (log : Log) : Except Error α :=
  match x log with
  | .ok a _ => .ok a
  | .error e _ => .error e

theorem EvalM.outcome_of_ok {α : Type} {x : EvalM α} {a : α} (h : x log = .ok a log₁) :
    x.outcome log = .ok a := by
  rw [outcome, h]

theorem EvalM.outcome_of_error {α : Type} {x : EvalM α} (h : x log = .error e log₁) :
    x.outcome log = .error e := by
  rw [outcome, h]

namespace Color

theorem length_components_black (hspace : space.components ∈ [1, 3, 4]) :
    (black space).components.length = space.components := by
  simp only [List.mem_cons, List.not_mem_nil, or_false] at hspace
  rcases hspace with h | h | h <;> rw [black, h] <;> rfl

theorem inSpace_of_length (hspace : space.components ∈ [1, 3, 4])
    (hys : ys.length = space.components) : ∃ c, inSpace space ys = .ok c ∧ c.components = ys := by
  rw [inSpace, if_pos hys]
  rw [← hys] at hspace
  match ys with
  | [g] => exact ⟨.gray g, rfl, rfl⟩
  | [r, g, b] => exact ⟨.rgb r g b, rfl, rfl⟩
  | [c, m, y, k] => exact ⟨.cmyk c m y k, rfl, rfl⟩
  | [] | [_, _] | _ :: _ :: _ :: _ :: _ :: _ => simp at hspace

def misfit (space : ColorSpace) (ys : List Float) : Error :=
  .malformed (.spaceComponents ys.length space.name space.components)

theorem inSpace_of_ne (hys : ys.length ≠ space.components) :
    inSpace space ys = .error (misfit space ys) :=
  if_neg hys

/-- Black has taken the place of a colour because of `e`. The evaluation has turned the log `log`
into `log₁`, and one warning follows. -/
structure Replaced (space : ColorSpace) (event : Error → Event) (log : Log) (e : Error) (log₁ : Log)
    (p : Color × Log) : Prop where
  color : p.1 = black space
  report : p.2 = event e :: log₁
  warning : (event e).level = .warn
  once : p.2.replacements = log.replacements + 1
  ended : e ≠ .outOfSteps

/-- What `r` comes to as a colour of `space`. -/
structure Converted (space : ColorSpace) (event : Error → Event) (log : Log)
    (r : EStateM.Result Error Log (List Float)) (p : Color × Log) : Prop where
  count : p.1.components.length = space.components
  fits : ∀ ys log₁, r = .ok ys log₁ → ys.length = space.components →
    p.1.components = ys ∧ p.2 = log₁ ∧ log₁.replacements = log.replacements
  misfits : ∀ ys log₁, r = .ok ys log₁ → ys.length ≠ space.components →
    Replaced space event log (misfit space ys) log₁ p
  fails : ∀ e log₁, r = .error e log₁ → Replaced space event log e log₁ p

section orBlack

variable {x : EvalM (List Float)}

theorem orBlack_of_error (h : x log = .error e log₁) :
    orBlack space event x log = (black space, event e :: log₁) := by
  rw [orBlack, bind_of_error h]

theorem orBlack_of_misfit (h : x log = .ok ys log₁) (hys : ys.length ≠ space.components) :
    orBlack space event x log = (black space, event (misfit space ys) :: log₁) := by
  rw [orBlack, bind_of_ok h, inSpace_of_ne hys]
  rfl

theorem orBlack_of_fit {c : Color} (h : x log = .ok ys log₁) (hc : inSpace space ys = .ok c) :
    orBlack space event x log = (c, log₁) := by
  rw [orBlack, bind_of_ok h, hc]
  rfl

/-- An evaluation that returns becomes a colour of the space. -/
theorem converted_orBlack (hspace : space.components ∈ [1, 3, 4])
    (hevent : ∀ e, (event e).level = .warn ∧ (event e).replacesColor = true)
    (hx : NeverReplaces id x) (hreturns : x.Returns log) :
    Converted space event log (x log) (orBlack space event x log) := by
  have replaced {e : Error} {log₁ : Log} (he : e ≠ .outOfSteps)
      (hlog : log₁.replacements = log.replacements) :
      Replaced space event log e log₁ (black space, event e :: log₁) := by
    obtain ⟨hlevel, hreplaces⟩ := hevent e
    refine ⟨rfl, rfl, hlevel, ?_, he⟩
    rw [← hlog]
    exact List.countP_cons_of_pos hreplaces
  -- three outcomes: the part fails, its values fit the space, or there are too many or too few
  cases h : x log with
  | error e log₁ =>
    rw [orBlack_of_error h]
    refine ⟨length_components_black hspace, nofun, nofun, ?_⟩
    rintro _ _ ⟨⟩
    refine replaced ?_ (hx.of_error h)
    rintro rfl
    exact hreturns log₁ h
  | ok ys log₁ =>
    by_cases hys : ys.length = space.components
    · obtain ⟨c, hc, hcomponents⟩ := inSpace_of_length hspace hys
      rw [orBlack_of_fit h hc]
      refine ⟨by rw [hcomponents, hys], ?_, ?_, nofun⟩
      · rintro _ _ ⟨⟩ -
        exact ⟨hcomponents, rfl, hx.of_ok h⟩
      · rintro _ _ ⟨⟩ hne
        exact absurd hys hne
    · rw [orBlack_of_misfit h hys]
      refine ⟨length_components_black hspace, ?_, ?_, nofun⟩
      · rintro _ _ ⟨⟩ heq
        exact absurd heq hys
      · rintro _ _ ⟨⟩ -
        exact replaced (by simp [misfit]) (hx.of_ok h)

def ofOutcome (space : ColorSpace) (r : Except Error (List Float)) : Color :=
  match r >>= inSpace space with
  | .ok c => c
  | .error _ => black space

/-- Neither what is reported before nor the event for a failure has any influence on the colour. -/
theorem orBlack_fst (event : Error → Event) (x : EvalM (List Float)) (log : Log) :
    (orBlack space event x log).1 = ofOutcome space (x.outcome log) := by
  cases hx : x log with
  | error e log₁ =>
    rw [orBlack_of_error hx, EvalM.outcome_of_error hx]
    rfl
  | ok ys log₁ =>
    have hcolor : ofOutcome space (.ok ys) = match inSpace space ys with
      | .ok c => c
      | .error _ => black space := rfl
    rw [orBlack, bind_of_ok hx, EvalM.outcome_of_ok hx, hcolor]
    cases inSpace space ys <;> rfl

end orBlack

end Color

namespace Shading

theorem component_of_ok {y : Float} (h : f.evaluate xs log = .ok [y] log₁) :
    component xs f log = .ok y log₁ := by
  rw [component, bind_of_ok h]
  rfl

theorem component_of_count (h : f.evaluate xs log = .ok ys log₁) (hys : ys.length ≠ 1) :
    component xs f log = .error (.malformed (.componentResults ys.length)) log₁ := by
  rw [component, bind_of_ok h]
  cases ys with
  | nil => rfl
  | cons y ys =>
    cases ys with
    | nil => exact absurd rfl hys
    | cons => rfl

theorem component_of_error (h : f.evaluate xs log = .error e log₁) :
    component xs f log = .error e log₁ :=
  bind_of_error h

inductive Singles (xs : List Float) : List Function → List Float → Log → Log → Prop where
  | nil (log : Log) : Singles xs [] [] log log
  | cons {f : Function} {fs : List Function} {y : Float} {ys : List Float} {log log₁ log₂ : Log}
      (hf : f.evaluate xs log = .ok [y] log₁) (hfs : Singles xs fs ys log₁ log₂) :
      Singles xs (f :: fs) (y :: ys) log log₂

/-- The first function that fails or has another number of outputs than one ends the evaluation. -/
inductive Stops (xs : List Float) : List Function → Error → Log → Log → Prop where
  | fails {f : Function} {e : Error} {log log₁ : Log} (fs : List Function)
      (hf : f.evaluate xs log = .error e log₁) : Stops xs (f :: fs) e log log₁
  | misfits {f : Function} {ys : List Float} {log log₁ : Log} (fs : List Function)
      (hf : f.evaluate xs log = .ok ys log₁) (hys : ys.length ≠ 1) :
      Stops xs (f :: fs) (.malformed (.componentResults ys.length)) log log₁
  | later {f : Function} {fs : List Function} {y : Float} {e : Error} {log log₁ log₂ : Log}
      (hf : f.evaluate xs log = .ok [y] log₁) (hfs : Stops xs fs e log₁ log₂) :
      Stops xs (f :: fs) e log log₂

theorem evaluate_perComponent_cons (f : Function) (fs : List Function) (xs : List Float) :
    (perComponent (f :: fs)).evaluate xs = component xs f >>= fun y =>
      (perComponent fs).evaluate xs >>= fun ys => pure (y :: ys) :=
  List.mapM_cons

theorem Singles.evaluate (h : Singles xs fs ys log log') :
    (perComponent fs).evaluate xs log = .ok ys log' := by
  induction h with
  | nil => rfl
  | cons hf _ ih =>
    rw [evaluate_perComponent_cons, bind_of_ok (component_of_ok hf), bind_of_ok ih]
    rfl

theorem Stops.evaluate (h : Stops xs fs e log log') :
    (perComponent fs).evaluate xs log = .error e log' := by
  induction h with
  | fails fs hf => rw [evaluate_perComponent_cons, bind_of_error (component_of_error hf)]
  | misfits fs hf hys => rw [evaluate_perComponent_cons, bind_of_error (component_of_count hf hys)]
  | later hf _ ih =>
    rw [evaluate_perComponent_cons, bind_of_ok (component_of_ok hf), bind_of_error ih]

theorem singles_or_stops (fs : List Function) (xs : List Float) (log : Log) :
    (∃ ys log', Singles xs fs ys log log') ∨ ∃ e log', Stops xs fs e log log' := by
  induction fs generalizing log with
  | nil => exact .inl ⟨_, _, .nil log⟩
  | cons f fs ih =>
    cases hf : f.evaluate xs log with
    | error e log₁ => exact .inr ⟨_, _, .fails fs hf⟩
    | ok ys log₁ =>
      by_cases hys : ys.length = 1
      · obtain ⟨y, rfl⟩ := List.length_eq_one_iff.1 hys
        rcases ih log₁ with ⟨zs, log₂, hfs⟩ | ⟨e, log₂, hfs⟩
        · exact .inl ⟨_, _, .cons hf hfs⟩
        · exact .inr ⟨_, _, .later hf hfs⟩
      · exact .inr ⟨_, _, .misfits fs hf hys⟩

theorem evaluate_perComponent_eq_ok :
    (perComponent fs).evaluate xs log = .ok ys log' ↔ Singles xs fs ys log log' := by
  refine ⟨fun h => ?_, Singles.evaluate⟩
  rcases singles_or_stops fs xs log with ⟨zs, log₁, hfs⟩ | ⟨e, log₁, hfs⟩
  · cases hfs.evaluate.symm.trans h
    exact hfs
  · cases hfs.evaluate.symm.trans h

theorem evaluate_perComponent_eq_error :
    (perComponent fs).evaluate xs log = .error e log' ↔ Stops xs fs e log log' := by
  refine ⟨fun h => ?_, Stops.evaluate⟩
  rcases singles_or_stops fs xs log with ⟨zs, log₁, hfs⟩ | ⟨e', log₁, hfs⟩
  · cases hfs.evaluate.symm.trans h
  · cases hfs.evaluate.symm.trans h
    exact hfs

/-- Functions that return on their own return together. -/
theorem returns_perComponent (h : ∀ f ∈ fs, ∀ log, (f.evaluate xs).Returns log) (log : Log) :
    ((perComponent fs).evaluate xs).Returns log := by
  have hne {fs : List Function} {e : Error} {log log' : Log} (hstops : Stops xs fs e log log') :
      (∀ f ∈ fs, ∀ log, (f.evaluate xs).Returns log) → e ≠ .outOfSteps := by
    induction hstops with
    | fails fs hf =>
      rintro h rfl
      exact h _ List.mem_cons_self _ _ hf
    | misfits => simp
    | later _ _ ih => exact fun h => ih fun f hf => h f (List.mem_cons_of_mem _ hf)
  intro log' herror
  exact hne (evaluate_perComponent_eq_error.1 herror) h rfl

theorem neverReplaces_component (f : Function) (xs : List Float) :
    NeverReplaces id (component xs f) := by
  refine (f.neverReplaces_evaluate xs).bind fun ys => ?_
  split
  · exact .pure _
  · exact .throw _

theorem neverReplaces_evaluate (s : Shading) (xs : List Float) :
    NeverReplaces id (s.evaluate xs) := by
  cases s with
  | single f => exact f.neverReplaces_evaluate xs
  | perComponent fs =>
    induction fs with
    | nil => exact .pure _
    | cons f fs ih =>
      rw [evaluate_perComponent_cons]
      exact (neverReplaces_component f xs).bind fun y => ih.bind fun ys => .pure _

end Shading

open Color Shading

/-- A function gives the same colour as a tint transformation and in a shading. The colour has the
components of the space: the outputs if they are as many, and else black with one warning. Functions
for each component are converted alike, from their single outputs in order; the first that fails or
has another number of outputs ends their evaluation. -/
theorem conversions_agree (hspace : space.components ∈ [1, 3, 4]) (xs : List Float) (log : Log) :
    (∀ f : Function, (f.evaluate xs).Returns log →
      (Tint.color ⟨space, f⟩ xs log).1 = ((single f).color space xs log).1 ∧
      Converted space (.tintReplaced space.name) log (f.evaluate xs log)
        (Tint.color ⟨space, f⟩ xs log) ∧
      Converted space (.colorReplaced space.name) log (f.evaluate xs log)
        ((single f).color space xs log)) ∧
    ∀ fs : List Function, ((perComponent fs).evaluate xs).Returns log →
      Converted space (.colorReplaced space.name) log ((perComponent fs).evaluate xs log)
        ((perComponent fs).color space xs log) ∧
      (∀ ys log', (perComponent fs).evaluate xs log = .ok ys log' ↔ Singles xs fs ys log log') ∧
      ∀ e log', (perComponent fs).evaluate xs log = .error e log' ↔ Stops xs fs e log log' := by
  refine ⟨fun f hf => ⟨(orBlack_fst _ _ log).trans (orBlack_fst _ _ log).symm, ?_, ?_⟩,
    fun fs hfs => ⟨?_, fun _ _ => evaluate_perComponent_eq_ok,
      fun _ _ => evaluate_perComponent_eq_error⟩⟩
  · exact converted_orBlack hspace (fun _ => ⟨rfl, rfl⟩) (f.neverReplaces_evaluate xs) hf
  · exact converted_orBlack hspace (fun _ => ⟨rfl, rfl⟩) (f.neverReplaces_evaluate xs) hf
  · exact converted_orBlack hspace (fun _ => ⟨rfl, rfl⟩)
      ((perComponent fs).neverReplaces_evaluate xs) hfs

/-- A function of one input that is given two. -/
theorem conversions_agree_of_ramp : ∃ ramp : Function,
    ramp.evaluate [0, 1] [] = .error (.inputCount 1 2) [] ∧
    (single ramp).color ⟨"DeviceRGB", 3⟩ [0, 1] [] =
      (.rgb 0 0 0, [.colorReplaced "DeviceRGB" (.inputCount 1 2)]) ∧
    (Tint.color ⟨⟨"DeviceRGB", 3⟩, ramp⟩ [0, 1] []).1 = .rgb 0 0 0 ∧
    ((perComponent [ramp]).color ⟨"DeviceRGB", 3⟩ [0, 1] []).1 = .rgb 0 0 0 := by
  let ramp : Function := .exponential { terms := [(0, 1)], exponent := 1 }
  have hramp : ramp.evaluate [0, 1] [] = .error (.inputCount 1 2) [] := rfl
  have hparts : (perComponent [ramp]).evaluate [0, 1] [] = .error (.inputCount 1 2) [] := rfl
  have hspace : (⟨"DeviceRGB", 3⟩ : ColorSpace).components ∈ [1, 3, 4] := by decide
  obtain ⟨hwhole, hper⟩ := conversions_agree hspace [0, 1] []
  obtain ⟨hagree, -, hsingle⟩ := hwhole ramp (by rw [EvalM.Returns, hramp]; simp)
  obtain ⟨hpart, -⟩ := hper [ramp] (by rw [EvalM.Returns, hparts]; simp)
  have hreplaced := hsingle.fails _ _ hramp
  exact ⟨ramp, hramp, Prod.ext hreplaced.color hreplaced.report, hagree.trans hreplaced.color,
    (hpart.fails _ _ hparts).color⟩

end PdfFunctions
