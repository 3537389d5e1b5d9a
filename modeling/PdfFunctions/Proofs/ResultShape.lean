import PdfFunctions.Proofs.AcceptedTables
import PdfFunctions.Proofs.Clipping
import PdfFunctions.Proofs.ProgramErrors
import PdfFunctions.Proofs.SoundFunctions

namespace PdfFunctions

namespace Function

def declared? : Function → Nat → Option (Interval Float)
  | sampled f, j => f.channels[j]?.map Channel.interval
  | exponential f, j => f.range.bind (·[j]?)
  | stitched s _, j => s.range.bind (·[j]?)
  | calculated f, j => f.range[j]?

/-- The output `j` of `f` may be `y`: it fits the interval that `f` declares for it. Where a
stitched function declares none, the declarations of its parts count. -/
inductive Admits : Function → Nat → Float → Prop where
  | declared {f : Function} {j : Nat} {y : Float} {i : Interval Float}
      (hi : f.declared? j = some i) (hy : i.Admits y) : Admits f j y
  | free {f : Function} {j : Nat} {y : Float} (hi : f.declared? j = none)
      (hf : ∀ s parts, f ≠ stitched s parts) : Admits f j y
  | part {s : Stitching Float} {parts : List Function} {p : Function} {j : Nat} {y : Float}
      (hi : (stitched s parts).declared? j = none) (hp : p ∈ parts) (hy : p.Admits j y) :
      Admits (stitched s parts) j y

inductive Within : Function → Function → Prop where
  | self (f : Function) : Within f f
  | part {s : Stitching Float} {parts : List Function} {p q : Function} (hp : p ∈ parts)
      (hq : Within q p) : Within q (stitched s parts)

structure Shaped (f : Function) : Prop where
  arity : ∀ {k xs log}, f.inputs? = some k → xs.length ≠ k →
    f.evaluate xs log = .error (.inputCount k xs.length) log
  blame : ∀ {xs k n log log'}, f.evaluate xs log = .error (.inputCount k n) log' →
    f.inputs? = some k ∧ xs.length ≠ k
  count : ∀ {xs ys log log'}, f.evaluate xs log = .ok ys log' → ys.length = f.outputCount
  range : ∀ {xs ys log log'}, f.evaluate xs log = .ok ys log' →
    ∀ j y, ys[j]? = some y → f.Admits j y
  total : (∀ c, ¬ Within (calculated c) f) → ∀ xs log, f.inputs? = some xs.length →
    ∃ ys log', f.evaluate xs log = .ok ys log'

end Function

open Intervals

namespace Sampled

theorem admits_output (f : Sampled Float) (ks : List (Corner Float)) (j : Nat)
    (c : Channel Float) : c.interval.Admits (f.output ks j c) :=
  c.interval.admits_clip _

end Sampled

namespace Function

variable {f : Function}

/-- A function that always succeeds on `n` inputs. -/
theorem shaped_of_total {n : Nat} (hn : f.inputs? = some n)
    (hok : ∀ xs log, xs.length = n → ∃ ys log', f.evaluate xs log = .ok ys log' ∧
      ys.length = f.outputCount ∧ ∀ j y, ys[j]? = some y → f.Admits j y)
    (hne : ∀ xs log, xs.length ≠ n → f.evaluate xs log = .error (.inputCount n xs.length) log) :
    f.Shaped := by
  -- for a total function the number of inputs alone decides the outcome
  have hresult {xs ys : List Float} {log log' : Log} (h : f.evaluate xs log = .ok ys log') :
      ys.length = f.outputCount ∧ ∀ j y, ys[j]? = some y → f.Admits j y := by
    by_cases hxs : xs.length = n
    · obtain ⟨zs, log₁, hzs, hshape⟩ := hok xs log hxs
      cases h.symm.trans hzs
      exact hshape
    · cases h.symm.trans (hne xs log hxs)
  refine ⟨?_, ?_, fun h => (hresult h).1, fun h => (hresult h).2, ?_⟩
  · intro k xs log hk hxs
    obtain rfl := Option.some.inj (hn.symm.trans hk)
    exact hne xs log hxs
  · intro xs k m log log' h
    by_cases hxs : xs.length = n
    · obtain ⟨zs, log₁, hzs, -⟩ := hok xs log hxs
      cases h.symm.trans hzs
    · cases h.symm.trans (hne xs log hxs)
      exact ⟨hn, hxs⟩
  · intro _ xs log hxs
    have hlength : xs.length = n := Option.some.inj (hxs.symm.trans hn)
    obtain ⟨ys, log', hys, -⟩ := hok xs log hlength
    exact ⟨ys, log', hys⟩

theorem shaped_sampled (f : Sampled Float) : (sampled f).Shaped := by
  refine shaped_of_total rfl ?_ ?_
  · intro xs log hxs
    have heval := Sampled.evaluate_of_length hxs
    refine ⟨f.channels.mapIdx _, log, by rw [evaluate, heval]; rfl, ?_, ?_⟩
    · rw [List.length_mapIdx, outputCount]
    · intro j y hy
      rw [List.getElem?_mapIdx, Option.map_eq_some_iff] at hy
      obtain ⟨c, hc, rfl⟩ := hy
      refine .declared (i := c.interval) ?_ (f.admits_output _ j c)
      rw [declared?, hc, Option.map_some]
  · intro xs log hxs
    rw [evaluate, Sampled.evaluate_of_ne hxs]
    rfl

/-- Clipping to an optional range keeps the number of values, and fits them to what is declared. -/
theorem admits_of_clip {range : Option (Intervals Float)} {ys : List Float} {j : Nat} {y : Float}
    (hdeclared : f.declared? j = range.bind (·[j]?)) (hy : (range.elim ys (·.clip ys))[j]? = some y)
    (hfree : f.declared? j = none → ys[j]? = some y → f.Admits j y) : f.Admits j y := by
  cases range with
  | none => exact hfree hdeclared hy
  | some is =>
    have hy : (is.clip ys)[j]? = some y := hy
    cases hi : is[j]? with
    | some i => exact .declared (hdeclared.trans hi) (Intervals.admits_of_clip hi hy)
    | none =>
      rw [getElem?_clip_of_none hi] at hy
      exact hfree (hdeclared.trans hi) hy

theorem length_clip_range (range : Option (Intervals Float)) (ys : List Float) :
    (range.elim ys (·.clip ys)).length = ys.length := by
  cases range with
  | none => rfl
  | some is => exact length_clip is ys

theorem shaped_exponential (f : Exponential) : (exponential f).Shaped := by
  refine shaped_of_total rfl ?_ ?_
  · intro xs log hxs
    obtain ⟨x, rfl⟩ := List.length_eq_one_iff.1 hxs
    let power := Float.pow (f.domain.elim x (·.clip x)) f.exponent
    let ys := f.terms.map (Exponential.term power)
    refine ⟨f.range.elim ys (·.clip ys), _, by rw [evaluate]; rfl, ?_, ?_⟩
    · rw [length_clip_range, List.length_map, outputCount]
    · intro j y hy
      refine admits_of_clip rfl hy fun hi _ => .free hi ?_
      simp
  · intro xs log hxs
    rw [evaluate]
    match xs with
    | [] => rfl
    | [_] => exact absurd rfl hxs
    | _ :: _ :: _ => rfl

theorem shaped_calculated (f : Calculator) : (calculated f).Shaped := by
  have happly (xs : List Float) : (calculated f).evaluate xs = f.run xs >>= f.outputs := by
    rw [evaluate, Calculator.evaluate]
  have houtputs {xs ys : List Float} {log log' : Log}
      (h : (calculated f).evaluate xs log = .ok ys log') :
      ∃ zs, zs.length = f.range.length ∧ ys = f.range.clip zs := by
    rw [happly] at h
    obtain ⟨s, log₁, -, h⟩ := bind_eq_ok.1 h
    exact Calculator.of_outputs h
  refine ⟨?_, ?_, ?_, ?_, ?_⟩
  · intro k xs log hk hxs
    obtain ⟨is, hd, rfl⟩ := Option.map_eq_some_iff.1 hk
    rw [happly, bind_of_error (Calculator.run_of_misfit hd hxs log)]
  · intro xs k n log log' h
    rw [happly] at h
    rcases bind_eq_error.1 h with hrun | ⟨s, log₁, -, h⟩
    · obtain ⟨is, hd, rfl, hxs⟩ := Calculator.blame_of_run hrun
      exact ⟨by rw [inputs?, hd, Option.map_some], hxs⟩
    · exact absurd rfl (Calculator.ne_inputCount_of_outputs h k n)
  · intro xs ys log log' h
    obtain ⟨zs, hzs, rfl⟩ := houtputs h
    rw [length_clip, hzs, outputCount]
  · intro xs ys log log' h j y hy
    obtain ⟨zs, -, rfl⟩ := houtputs h
    have hy : ((some f.range).elim zs (·.clip zs))[j]? = some y := hy
    refine admits_of_clip rfl hy fun hi _ => .free hi ?_
    simp
  · intro hprogram
    exact absurd (.self _) (hprogram f)

/-- Only programs may leave their inputs undeclared. -/
theorem exists_program_of_inputs {p : Function} (h : p.inputs? = none) :
    ∃ c, p = calculated c := by
  cases p with
  | calculated c => exact ⟨c, rfl⟩
  | _ => cases h

/-- A stitched function hands its input, mapped, to one of its parts. -/
theorem exists_evaluate_stitched {s : Stitching Float} {parts : List Function}
    (h : Stitchable s.partition parts s.encode) {xs : List Float} (hxs : xs.length = 1) :
    ∃ p ∈ parts, ∃ y, ∀ log, (stitched s parts).evaluate xs log =
      (p.evaluate [y] >>= fun ys => pure (s.range.elim ys (·.clip ys))) log := by
  obtain ⟨x, rfl⟩ := List.length_eq_one_iff.1 hxs
  obtain ⟨i, y, hroute, hi⟩ := h.exists_route x
  refine ⟨parts[i], List.getElem_mem hi, y, fun log => ?_⟩
  rw [evaluate, hroute]
  simp only [evaluateAt_eq hi]

theorem evaluate_stitched_of_ne (s : Stitching Float) (parts : List Function) {xs : List Float}
    (hxs : xs.length ≠ 1) (log : Log) :
    (stitched s parts).evaluate xs log = .error (.inputCount 1 xs.length) log := by
  rw [evaluate]
  · rfl
  · rintro x rfl
    exact hxs rfl

theorem shaped_stitched {s : Stitching Float} {parts : List Function}
    (h : Stitchable s.partition parts s.encode) (hparts : ∀ p ∈ parts, p.Shaped) :
    (stitched s parts).Shaped := by
  have hresult {xs ys : List Float} {log log' : Log}
      (hys : (stitched s parts).evaluate xs log = .ok ys log') :
      ∃ p ∈ parts, ∃ x zs log₁, p.evaluate [x] log = .ok zs log₁ ∧
        ys = s.range.elim zs (·.clip zs) := by
    by_cases hxs : xs.length = 1
    · obtain ⟨p, hp, y, heval⟩ := exists_evaluate_stitched h hxs
      obtain ⟨zs, log₁, hzs, hclip⟩ := bind_eq_ok.1 ((heval log).symm.trans hys)
      exact ⟨p, hp, y, zs, log₁, hzs, (pure_eq_ok.1 hclip).1.symm⟩
    · cases hys.symm.trans (evaluate_stitched_of_ne s parts hxs log)
  refine ⟨?_, ?_, ?_, ?_, ?_⟩
  · intro k xs log hk hxs
    obtain rfl := Option.some.inj hk
    exact evaluate_stitched_of_ne s parts hxs log
  · intro xs k n log log' herror
    by_cases hxs : xs.length = 1
    · obtain ⟨p, hp, y, heval⟩ := exists_evaluate_stitched h hxs
      rcases bind_eq_error.1 ((heval log).symm.trans herror) with herror | ⟨zs, log₁, -, hclip⟩
      · -- the part was given one input, which is what it takes
        obtain ⟨hk, hne⟩ := (hparts p hp).blame herror
        rcases h.inputs p hp with hnone | hone
        · cases hk.symm.trans hnone
        · exact absurd (Option.some.inj (hone.symm.trans hk)) hne
      · cases hclip
    · cases herror.symm.trans (evaluate_stitched_of_ne s parts hxs log)
      exact ⟨rfl, hxs⟩
  · intro xs ys log log' hys
    obtain ⟨p, hp, x, zs, log₁, hzs, rfl⟩ := hresult hys
    rw [length_clip_range, (hparts p hp).count hzs, h.outputs p hp, outputCount]
  · intro xs ys log log' hys j y hy
    obtain ⟨p, hp, x, zs, log₁, hzs, rfl⟩ := hresult hys
    exact admits_of_clip rfl hy fun hi hz => .part hi hp ((hparts p hp).range hzs j y hz)
  · intro hprogram xs log hk
    have hxs : xs.length = 1 := (Option.some.inj hk).symm
    obtain ⟨p, hp, y, heval⟩ := exists_evaluate_stitched h hxs
    have hwithout : ∀ c, ¬ Within (calculated c) p := fun c hc => hprogram c (.part hp hc)
    have hone : p.inputs? = some 1 := by
      rcases h.inputs p hp with hnone | hone
      · obtain ⟨c, rfl⟩ := exists_program_of_inputs hnone
        exact absurd (.self _) (hwithout c)
      · exact hone
    obtain ⟨zs, log₁, hzs⟩ := (hparts p hp).total hwithout [y] log hone
    exact ⟨_, log₁, by rw [heval, bind_of_ok hzs]; rfl⟩

theorem shaped_of_sound {f : Function} (hf : f.Sound) : f.Shaped := by
  induction hf with
  | sampled f => exact shaped_sampled f
  | exponential f => exact shaped_exponential f
  | calculated f => exact shaped_calculated f
  | stitched h _ ih => exact shaped_stitched h ih

theorem sound_of_within {f p : Function} (h : Within p f) (hf : f.Sound) : p.Sound := by
  induction h with
  | self => exact hf
  | part hp _ ih =>
    cases hf with
    | stitched _ hparts => exact ih (hparts _ hp)

/-- However a function has been built or loaded, it refuses any other number of inputs than it
declares. Its results have the declared number of values, each in its interval, and without
programs in it there is always a result. The parts of a stitched function, at any depth, are never
given a wrong number of inputs. -/
theorem evaluate_shape {d : Declaration} {log log' : Log} {f : Function}
    (h : d.build log = .ok f log') (xs : List Float) (log₁ : Log) :
    (∀ k, f.inputs? = some k → xs.length ≠ k →
      f.evaluate xs log₁ = .error (.inputCount k xs.length) log₁) ∧
    (∀ ys log₂, f.evaluate xs log₁ = .ok ys log₂ →
      ys.length = f.outputCount ∧ ∀ j y, ys[j]? = some y → f.Admits j y) ∧
    ((∀ c, ¬ Within (calculated c) f) → f.inputs? = some xs.length →
      ∃ ys log₂, f.evaluate xs log₁ = .ok ys log₂) ∧
    ∀ s parts p x k n log₂, Within (stitched s parts) f → p ∈ parts →
      p.evaluate [x] log₁ ≠ .error (.inputCount k n) log₂ := by
  have hsound := Declaration.sound_of_build h
  have hshape := shaped_of_sound hsound
  refine ⟨fun k hk hxs => hshape.arity hk hxs, ?_,
    fun hprogram => hshape.total hprogram xs log₁, ?_⟩
  · intro ys log₂ hys
    exact ⟨hshape.count hys, hshape.range hys⟩
  · intro s parts p x k n log₂ hwithin hp herror
    cases sound_of_within hwithin hsound with
    | stitched hchecks hparts =>
      obtain ⟨hk, hne⟩ := (shaped_of_sound (hparts p hp)).blame herror
      rcases hchecks.inputs p hp with hnone | hone
      · cases hk.symm.trans hnone
      · exact hne (Option.some.inj (hone.symm.trans hk))

def ramps : Declaration :=
  .stitched (0, 1)
    [.exponential 1 none none none (some [0, 1]),
      .stitched (0, 1) [.exponential 2 none none none none] [] [0, 1] none]
    [0.5] [0, 1, 0, 1] none

theorem evaluate_shape_of_ramps : ∃ f log, ramps.build [] = .ok f log ∧
    (∀ x y, f.evaluate [x, y] [] = .error (.inputCount 1 2) []) ∧
    ∀ x ys log', f.evaluate [x] [] = .ok ys log' → ys.length = 1 := by
  have hbuild : passes (fun f => f.inputs? = some 1 ∧ f.outputCount = 1) (ramps.build []) := by
    decide +kernel
  obtain ⟨f, log, h, hshape⟩ := exists_of_passes hbuild
  obtain ⟨hinputs, houtputs⟩ := of_decide_eq_true hshape
  refine ⟨f, log, h, fun x y => ?_, fun x ys log' hys => ?_⟩
  · exact (evaluate_shape h [x, y] []).1 1 hinputs (by simp)
  · rw [((evaluate_shape h [x] []).2.1 ys log' hys).1, houtputs]

end Function

end PdfFunctions
