import PdfFunctions.Function.Declaration
import PdfFunctions.Proofs.StitchedParts

namespace PdfFunctions

theorem exists_of_mapM_eq_ok {ε σ α β : Type} {g : α → EStateM ε σ β} {xs : List α} {ys : List β}
    {s t : σ} (h : xs.mapM g s = .ok ys t) : ∀ y ∈ ys, ∃ x ∈ xs, ∃ s t, g x s = .ok y t := by
  induction xs generalizing ys s t with
  | nil =>
    obtain ⟨rfl, -⟩ := pure_eq_ok.1 h
    simp
  | cons x xs ih =>
    rw [List.mapM_cons] at h
    obtain ⟨y, s₁, hy, h⟩ := bind_eq_ok.1 h
    obtain ⟨ys', s₂, hys, h⟩ := bind_eq_ok.1 h
    obtain ⟨rfl, -⟩ := pure_eq_ok.1 h
    intro z hz
    rcases List.mem_cons.1 hz with rfl | hz
    · exact ⟨x, List.mem_cons_self, s, s₁, hy⟩
    · obtain ⟨x', hx', hg⟩ := ih hys z hz
      exact ⟨x', List.mem_cons_of_mem _ hx', hg⟩

namespace Function

open Object

inductive Sound : Function → Prop where
  | sampled (f : Sampled Float) : Sound (.sampled f)
  | exponential (f : Exponential) : Sound (.exponential f)
  | calculated (f : Calculator) : Sound (.calculated f)
  | stitched {s : Stitching Float} {parts : List Function}
      (h : Stitchable s.partition parts s.encode) (hparts : ∀ p ∈ parts, p.Sound) :
      Sound (.stitched s parts)

theorem sound_of_stitch {domain : Interval Float} {parts : List Function}
    {bounds encode : List Float} {range : Option (Intervals Float)} {f : Function}
    (h : stitch domain parts bounds encode range = .ok f) (hparts : ∀ p ∈ parts, p.Sound) :
    f.Sound := by
  obtain ⟨ps, -, hchecks, rfl⟩ := stitch_eq_ok_iff.1 h
  exact .stitched hchecks hparts

def loadType (limits : Limits) (room : Nat) (type : Int) (d : Entries) (data : Option Bytes)
    (domain range : Option (Intervals Float)) : EvalM Function :=
  if type = 0 then loadSampled d data domain range
  else if type = 2 then ofExcept (loadExponential d domain range)
  else if type = 3 then do
    let some domain := domain | throw (.missingKey "Domain")
    let items ← ofExcept (d.required "Functions" >>= getArray)
    let parts ← items.mapM (load limits room)
    let bounds ← ofExcept (d.required "Bounds" >>= getNumbers)
    let encode ← ofExcept (d.required "Encode" >>= getNumbers)
    ofExcept do stitch (← single domain) parts bounds encode range
  else if type = 4 then ofExcept (loadCalculator limits data domain range)
  else throw (.unsupportedType type)

theorem load_succ (limits : Limits) (room : Nat) (o : Object) :
    load limits (room + 1) o = ofExcept (dictionary o) >>= fun (d, data) =>
      ofExcept (d.required "FunctionType" >>= getInt) >>= fun type =>
      modify (.loading type (maxDepth - room) :: ·) >>= fun _ =>
      ofExcept (intervals? d "Domain") >>= fun domain =>
      ofExcept (intervals? d "Range") >>= fun range =>
      loadType limits room type d data domain range := rfl

theorem loadType_of_load {limits : Limits} {room : Nat} {o : Object} {log log' : Log}
    {f : Function} (h : load limits (room + 1) o log = .ok f log') :
    ∃ type d data domain range log₁,
      loadType limits room type d data domain range log₁ = .ok f log' := by
  rw [load_succ] at h
  obtain ⟨⟨d, data⟩, log₁, -, h⟩ := bind_eq_ok.1 h
  obtain ⟨type, log₂, -, h⟩ := bind_eq_ok.1 h
  obtain ⟨_, log₃, -, h⟩ := bind_eq_ok.1 h
  obtain ⟨domain, log₄, -, h⟩ := bind_eq_ok.1 h
  obtain ⟨range, log₅, -, h⟩ := bind_eq_ok.1 h
  exact ⟨type, d, data, domain, range, log₅, h⟩

section load

variable {limits : Limits} {d : Entries} {data : Option Bytes}
  {domain range : Option (Intervals Float)} {log log' : Log} {f : Function}

theorem sound_of_loadSampled (h : loadSampled d data domain range log = .ok f log') :
    f.Sound := by
  unfold loadSampled at h
  cases data with
  | none => simp [throw_apply] at h
  | some data =>
    obtain ⟨sizes, log₁, -, h⟩ := bind_eq_ok.1 h
    obtain ⟨bits, log₂, -, h⟩ := bind_eq_ok.1 h
    obtain ⟨g, log₃, -, h⟩ := bind_eq_ok.1 h
    obtain ⟨encode, log₄, -, h⟩ := bind_eq_ok.1 h
    obtain ⟨g, log₅, -, h⟩ := bind_eq_ok.1 h
    obtain ⟨decode, log₆, -, h⟩ := bind_eq_ok.1 h
    obtain ⟨g, log₇, -, h⟩ := bind_eq_ok.1 h
    cases ho : d.get? "Order" with
    | none =>
      rw [ho] at h
      obtain ⟨rfl, -⟩ := pure_eq_ok.1 h
      exact .sampled g
    | some o =>
      rw [ho] at h
      obtain ⟨order, log₈, -, h⟩ := bind_eq_ok.1 h
      obtain ⟨g, -, rfl⟩ := map_eq_ok.1 h
      exact .sampled g

theorem sound_of_loadExponential (h : loadExponential d domain range = .ok f) : f.Sound := by
  obtain ⟨n, -, h⟩ := except_bind_eq_ok.1 h
  obtain ⟨c0, -, h⟩ := except_bind_eq_ok.1 h
  obtain ⟨c1, -, h⟩ := except_bind_eq_ok.1 h
  obtain ⟨g, -, h⟩ := except_bind_eq_ok.1 h
  obtain ⟨domain, -, h⟩ := except_bind_eq_ok.1 h
  obtain rfl := Except.ok.inj h
  exact .exponential _

theorem sound_of_loadCalculator (h : loadCalculator limits data domain range = .ok f) :
    f.Sound := by
  unfold loadCalculator at h
  cases data with
  | none => cases h
  | some data =>
    cases range with
    | none => cases h
    | some range =>
      obtain ⟨g, -, h⟩ := except_bind_eq_ok.1 h
      obtain rfl := Except.ok.inj h
      exact .calculated _

theorem sound_of_load {room : Nat} {o : Object} (h : load limits room o log = .ok f log') :
    f.Sound := by
  -- a part is loaded with one level less, so the room carries the induction
  induction room generalizing o log log' f with
  | zero => simp [load, throw_apply] at h
  | succ room ih =>
    obtain ⟨type, d, data, domain, range, log₁, h⟩ := loadType_of_load h
    unfold loadType at h
    split at h
    · exact sound_of_loadSampled h
    split at h
    · exact sound_of_loadExponential (ofExcept_eq_ok.1 h).1
    split at h
    · cases domain with
      | none => simp [throw_apply] at h
      | some domain =>
        obtain ⟨items, log₂, -, h⟩ := bind_eq_ok.1 h
        obtain ⟨parts, log₃, hparts, h⟩ := bind_eq_ok.1 h
        obtain ⟨bounds, log₄, -, h⟩ := bind_eq_ok.1 h
        obtain ⟨encode, log₅, -, h⟩ := bind_eq_ok.1 h
        obtain ⟨domain, -, h⟩ := except_bind_eq_ok.1 (ofExcept_eq_ok.1 h).1
        refine sound_of_stitch h fun p hp => ?_
        obtain ⟨o, -, log₆, log₇, ho⟩ := exists_of_mapM_eq_ok hparts p hp
        exact ih ho
    split at h
    · exact sound_of_loadCalculator (ofExcept_eq_ok.1 h).1
    · simp [throw_apply] at h

end load

end Function

namespace Declaration

open PdfFunctions.Function

/-- The parts are built, stitched without a range, and given the range then. -/
theorem of_build_stitched {domain : Float × Float} {parts : List Declaration}
    {bounds encode : List Float} {range : Option (List Float)} {log log' : Log} {f : Function}
    (h : (stitched domain parts bounds encode range).build log = .ok f log') :
    ∃ i fs ps is, Interval.make domain.1 domain.2 = .ok i ∧ buildAll parts log = .ok fs log' ∧
      pairs encode = .ok ps ∧ Stitchable ⟨i, bounds⟩ fs ps ∧
      range.mapM Intervals.ofFlat = .ok is ∧ f = .stitched ⟨⟨i, bounds⟩, ps, is⟩ fs := by
  obtain ⟨lo, hi⟩ := domain
  rw [build] at h
  obtain ⟨i, log₁, hdomain, h⟩ := bind_eq_ok.1 h
  obtain ⟨hmake, rfl⟩ := ofExcept_eq_ok.1 hdomain
  obtain ⟨fs, log₂, hfs, h⟩ := bind_eq_ok.1 h
  obtain ⟨hf, rfl⟩ := ofExcept_eq_ok.1 h
  obtain ⟨g, hg, h⟩ := except_bind_eq_ok.1 hf
  obtain ⟨ps, hps, hchecks, rfl⟩ := stitch_eq_ok_iff.1 hg
  cases range with
  | none =>
    obtain rfl := Except.ok.inj h
    exact ⟨i, fs, ps, none, hmake, hfs, hps, hchecks, rfl, rfl⟩
  | some range =>
    obtain ⟨is, his, h⟩ := except_bind_eq_ok.1 h
    obtain rfl := Except.ok.inj h
    refine ⟨i, fs, ps, some is, hmake, hfs, hps, hchecks, ?_, rfl⟩
    rw [Option.mapM_some, his]
    rfl

theorem of_buildAll_cons {d : Declaration} {ds : List Declaration} {log log' : Log}
    {fs : List Function} (h : buildAll (d :: ds) log = .ok fs log') :
    ∃ f fs' log₁, d.build log = .ok f log₁ ∧ buildAll ds log₁ = .ok fs' log' ∧ fs = f :: fs' := by
  rw [buildAll] at h
  obtain ⟨f, log₁, hf, h⟩ := bind_eq_ok.1 h
  obtain ⟨fs', log₂, hfs, h⟩ := bind_eq_ok.1 h
  obtain ⟨rfl, rfl⟩ := pure_eq_ok.1 h
  exact ⟨f, fs', log₁, hf, hfs, rfl⟩

mutual

theorem sound_of_build {log log' : Log} {f : Function} :
    ∀ {d : Declaration}, d.build log = .ok f log' → f.Sound
  | .sampled domain range sizes bits data encode decode order, h => by
    rw [build] at h
    obtain ⟨g, log₁, -, h⟩ := bind_eq_ok.1 h
    cases order with
    | none =>
      obtain ⟨rfl, -⟩ := pure_eq_ok.1 h
      exact .sampled g
    | some order =>
      obtain ⟨g, -, rfl⟩ := map_eq_ok.1 h
      exact .sampled g
  | .exponential exponent c0 c1 domain range, h => by
    rw [build] at h
    obtain ⟨g, -, rfl⟩ := except_map_eq_ok.1 (ofExcept_eq_ok.1 h).1
    exact .exponential g
  | .stitched domain parts bounds encode range, h => by
    obtain ⟨i, fs, ps, is, -, hfs, -, hchecks, -, rfl⟩ := of_build_stitched h
    exact .stitched hchecks (sound_of_buildAll hfs)
  | .calculated program range domain limits, h => by
    rw [build] at h
    obtain ⟨g, -, rfl⟩ := except_map_eq_ok.1 (ofExcept_eq_ok.1 h).1
    exact .calculated g
  | .object o limits, h => sound_of_load h

theorem sound_of_buildAll {log log' : Log} {fs : List Function} :
    ∀ {ds : List Declaration}, buildAll ds log = .ok fs log' → ∀ f ∈ fs, f.Sound
  | [], h => by
    obtain ⟨rfl, -⟩ := pure_eq_ok.1 h
    simp
  | d :: ds, h => by
    obtain ⟨f, fs', log₁, hf, hfs, rfl⟩ := of_buildAll_cons h
    exact List.forall_mem_cons.2 ⟨sound_of_build hf, sound_of_buildAll hfs⟩

end

end Declaration

end PdfFunctions
