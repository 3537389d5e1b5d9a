import PdfFunctions.Proofs.LoadedKinds

namespace PdfFunctions

namespace Declaration

open PdfFunctions.Function Entries

/-- A tree of declarations without objects in it, of which each program runs within `limits`. -/
inductive Constructed (limits : Limits) : Declaration → Prop where
  | sampled {domain range : List Float} {sizes : List Nat} {bits : Nat} {data : Bytes}
      {encode decode : Option (List Float)} {order : Option Nat}
      (hsizes : ∀ n ∈ sizes, n < 0x8000000000000000) :
      Constructed limits (.sampled domain range sizes bits data encode decode order)
  | exponential (exponent : Float) (c0 c1 : Option (List Float))
      (domain : Option (Float × Float)) (range : Option (List Float)) :
      Constructed limits (.exponential exponent c0 c1 domain range)
  | stitched {domain : Float × Float} {parts : List Declaration} {bounds encode : List Float}
      {range : Option (List Float)} (hparts : ∀ p ∈ parts, Constructed limits p) :
      Constructed limits (.stitched domain parts bounds encode range)
  | calculated {program : Bytes} {range : List Float} {domain : Option (List Float)}
      {limits? : Option Limits} (hlimits : limits?.getD {} = limits) :
      Constructed limits (.calculated program range domain limits?)

/-- The object for `d` loads as `f` where there is room for it, and is too deep elsewhere. -/
structure Loads (limits : Limits) (d : Declaration) (f : Function) : Prop where
  wellFormed : d.written.WellFormed
  within {room : Nat} (h : d.stitches < room) (log : Log) :
    ∃ log', load limits room d.written log = .ok f log'
  beyond {room : Nat} (h : room ≤ d.stitches) (log : Log) :
    ∃ log', load limits room d.written log = .error (.malformed .tooDeep) log'

section leaf

variable {limits : Limits} {log log' : Log} {f : Function}

theorem Loads.of_leaf {d : Declaration} (hleaf : d.stitches = 0) (hwf : d.written.WellFormed)
    (hload : ∀ room log, ∃ log', load limits (room + 1) d.written log = .ok f log') :
    Loads limits d f := by
  refine ⟨hwf, ?_, ?_⟩
  · intro room h log
    obtain ⟨room, rfl⟩ := Nat.exists_eq_succ_of_ne_zero (Nat.ne_zero_of_lt h)
    exact hload room log
  · intro room h log
    have hroom : room = 0 := by omega
    rw [hroom]
    exact ⟨log, rfl⟩

theorem loads_sampled {domain range : List Float} {sizes : List Nat} {bits : Nat} {data : Bytes}
    {encode decode : Option (List Float)} {order : Option Nat}
    (hsizes : ∀ n ∈ sizes, n < 0x8000000000000000)
    (h : (sampled domain range sizes bits data encode decode order).build log = .ok f log') :
    Loads limits (sampled domain range sizes bits data encode decode order) f := by
  obtain ⟨g, hg, horder, hbuild⟩ := of_build_sampled h
  have hbits : bits ≤ 32 := bits_le_of_table hg
  have hfields : FieldsWellFormed (tableFields domain range sizes bits encode decode order) := by
    apply tableFields_wellFormed hsizes
    · omega
    · intro n hn
      have := horder n hn
      omega
  refine Loads.of_leaf rfl (hfields.wellFormed_stream data) fun room log => ?_
  have horder' : ∀ n ∈ order, n ≤ 255 := fun n hn => Nat.le_trans (horder n hn) (by omega)
  obtain ⟨log₂, hlog₂⟩ := hbuild (.loading 0 (maxDepth - room) :: log)
  refine ⟨log₂, ?_⟩
  rw [← hlog₂]
  exact load_sampled hfields.records hg horder' room log

theorem loads_exponential {exponent : Float} {c0 c1 : Option (List Float)}
    {domain : Option (Float × Float)} {range : Option (List Float)}
    (h : (exponential exponent c0 c1 domain range).build log = .ok f log') :
    Loads limits (exponential exponent c0 c1 domain range) f := by
  obtain ⟨g, hg, rfl⟩ := except_map_eq_ok.1 (ofExcept_eq_ok.1 h).1
  have hfields := exponentialFields_wellFormed exponent c0 c1 domain range
  refine Loads.of_leaf rfl hfields.wellFormed_dict fun room log => ?_
  exact load_exponential hfields.records hg room log

theorem loads_calculated {program : Bytes} {range : List Float} {domain : Option (List Float)}
    {limits? : Option Limits} (hlimits : limits?.getD {} = limits)
    (h : (calculated program range domain limits?).build log = .ok f log') :
    Loads limits (calculated program range domain limits?) f := by
  obtain ⟨g, hg, rfl⟩ := except_map_eq_ok.1 (ofExcept_eq_ok.1 h).1
  have hfields := calculatedFields_wellFormed range domain
  refine Loads.of_leaf rfl (hfields.wellFormed_stream program) fun room log => ?_
  exact load_calculated hfields.records hlimits hg room log

end leaf

section parts

variable {limits : Limits} {ds : List Declaration} {fs : List Function} {room : Nat}

theorem mapM_load_within (h : List.Forall₂ (Loads limits) ds fs)
    (hroom : ∀ d ∈ ds, d.stitches < room) (log : Log) :
    ∃ log', (writtenAll ds).mapM (load limits room) log = .ok fs log' := by
  induction h generalizing log with
  | nil => exact ⟨log, rfl⟩
  | cons hd _ ih =>
    obtain ⟨hroom₁, hroom₂⟩ := List.forall_mem_cons.1 hroom
    obtain ⟨log₁, h₁⟩ := hd.within hroom₁ log
    obtain ⟨log₂, h₂⟩ := ih hroom₂ log₁
    refine ⟨log₂, ?_⟩
    rw [writtenAll, List.mapM_cons, bind_of_ok h₁, bind_of_ok h₂]
    rfl

/-- The first part that is too deep ends the loading; those before it load. -/
theorem mapM_load_beyond (h : List.Forall₂ (Loads limits) ds fs)
    (hroom : ∃ d ∈ ds, room ≤ d.stitches) (log : Log) :
    ∃ log', (writtenAll ds).mapM (load limits room) log = .error (.malformed .tooDeep) log' := by
  induction h generalizing log with
  | nil =>
    obtain ⟨d, hd, -⟩ := hroom
    cases hd
  | @cons d f ds fs hd _ ih =>
    rw [writtenAll, List.mapM_cons]
    -- the first part that is too deep ends the loading; those before it load
    by_cases hdeep : room ≤ d.stitches
    · obtain ⟨log₁, h₁⟩ := hd.beyond hdeep log
      exact ⟨log₁, bind_of_error h₁⟩
    · have hrest : ∃ d ∈ ds, room ≤ d.stitches := by
        simpa [hdeep] using hroom
      obtain ⟨log₁, h₁⟩ := hd.within (Nat.lt_of_not_le hdeep) log
      obtain ⟨log₂, h₂⟩ := ih hrest log₁
      refine ⟨log₂, ?_⟩
      rw [bind_of_ok h₁, bind_of_error h₂]

theorem wellFormed_of_mem_writtenAll (h : List.Forall₂ (Loads limits) ds fs) :
    ∀ o ∈ writtenAll ds, o.WellFormed := by
  induction h with
  | nil => simp [writtenAll]
  | cons hd _ ih => exact List.forall_mem_cons.2 ⟨hd.wellFormed, ih⟩

theorem forall₂_loads_of_buildAll {log log' : Log} (h : buildAll ds log = .ok fs log')
    (hloads : ∀ d ∈ ds, ∀ f log log', d.build log = .ok f log' → Loads limits d f) :
    List.Forall₂ (Loads limits) ds fs := by
  induction ds generalizing log fs with
  | nil =>
    obtain ⟨rfl, -⟩ := pure_eq_ok.1 h
    exact .nil
  | cons d ds ih =>
    obtain ⟨f, fs', log₁, hf, hfs, rfl⟩ := of_buildAll_cons h
    obtain ⟨hd, hds⟩ := List.forall_mem_cons.1 hloads
    exact .cons (hd f log log₁ hf) (ih hfs hds)

theorem loads_stitched {domain : Float × Float} {bounds encode : List Float}
    {range : Option (List Float)} {log log' : Log} {f : Function}
    (h : (stitched domain ds bounds encode range).build log = .ok f log')
    (hloads : ∀ d ∈ ds, ∀ f log log', d.build log = .ok f log' → Loads limits d f) :
    Loads limits (stitched domain ds bounds encode range) f := by
  obtain ⟨i, fs, ps, is?, hi, hfs, hps, hchecks, his, rfl⟩ := of_build_stitched h
  have hparts : List.Forall₂ (Loads limits) ds fs := forall₂_loads_of_buildAll hfs hloads
  have hfields : FieldsWellFormed (stitchedFields domain (writtenAll ds) bounds encode range) :=
    stitchedFields_wellFormed (wellFormed_of_mem_writtenAll hparts)
  refine ⟨hfields.wellFormed_dict, ?_, ?_⟩
  · intro room hroom log
    rw [stitches] at hroom
    obtain ⟨room, rfl⟩ := Nat.exists_eq_succ_of_ne_zero (Nat.ne_zero_of_lt hroom)
    have hdeep : ∀ d ∈ ds, d.stitches < room := by
      intro d hd
      have hle := stitches_le_mostStitches hd
      omega
    obtain ⟨log₂, hlog₂⟩ := mapM_load_within hparts hdeep (.loading 3 (maxDepth - room) :: log)
    have hstitch : stitch i fs bounds encode is? =
        .ok (.stitched ⟨⟨i, bounds⟩, ps, is?⟩ fs) := stitch_eq_ok_iff.2 ⟨ps, hps, hchecks, rfl⟩
    refine ⟨log₂, ?_⟩
    rw [written, load_stitched hfields.records hi his, bind_of_ok hlog₂, hstitch]
    rfl
  · intro room hroom log
    rw [stitches] at hroom
    cases room with
    | zero => exact ⟨log, rfl⟩
    | succ room =>
      -- the checks have found a part, so the deepest part is as deep as `stitches` says
      have hne : ds ≠ [] := by
        intro hnil
        rw [hnil] at hparts
        cases hparts
        exact hchecks.nonempty rfl
      obtain ⟨d, hd, hmost⟩ := exists_stitches_eq_mostStitches hne
      have hdeep : ∃ d ∈ ds, room ≤ d.stitches := ⟨d, hd, by omega⟩
      obtain ⟨log₂, hlog₂⟩ := mapM_load_beyond hparts hdeep (.loading 3 (maxDepth - room) :: log)
      refine ⟨log₂, ?_⟩
      rw [written, load_stitched hfields.records hi his, bind_of_error hlog₂]

end parts

theorem Constructed.loads {limits : Limits} {d : Declaration} (hd : d.Constructed limits)
    {log log' : Log} {f : Function} (h : d.build log = .ok f log') : Loads limits d f := by
  induction hd generalizing log log' f with
  | sampled hsizes => exact loads_sampled hsizes h
  | exponential => exact loads_exponential h
  | stitched _ ih => exact loads_stitched h fun d hd f log log' h => ih d hd h
  | calculated hlimits => exact loads_calculated hlimits h

/-- A function that has been built from its parameters, without objects and with `limits` for each
program, is also what the object with the same parameters loads as, if stitched functions lie at
most 16 deep in each other. If they lie deeper, the object is malformed. -/
theorem ofObject_written {limits : Limits} {d : Declaration} (hd : d.Constructed limits)
    {log log' : Log} {f : Function} (h : d.build log = .ok f log') (log₁ : Log) :
    d.written.WellFormed ∧
      (d.stitches ≤ 16 → ∃ log₂, ofObject limits d.written log₁ = .ok f log₂) ∧
      (16 < d.stitches →
        ∃ log₂, ofObject limits d.written log₁ = .error (.malformed .tooDeep) log₂) := by
  have hloads := hd.loads h
  refine ⟨hloads.wellFormed, ?_, ?_⟩
  · intro hdepth
    exact hloads.within (Nat.lt_succ_of_le hdepth) log₁
  · intro hdepth
    exact hloads.beyond hdepth log₁

def nested : Nat → Declaration
  | 0 => .calculated [] [0, 1] none (some { strict := true })
  | n + 1 =>
    .stitched (0, 1) [nested n, .sampled [0, 1] [0, 1] [2] 8 [0, 255] none (some [0, 2]) (some 3)]
      [0.5] [0, 1, 0, 1] none

theorem constructed_nested (n : Nat) : (nested n).Constructed { strict := true } := by
  induction n with
  | zero => exact .calculated rfl
  | succ n ih =>
    apply Constructed.stitched
    intro p hp
    rcases List.mem_pair.1 hp with rfl | rfl
    · exact ih
    · exact .sampled (by simp)

theorem stitches_nested (n : Nat) : (nested n).stitches = n := by
  induction n with
  | zero => rfl
  | succ n ih => simp [nested, stitches, mostStitches, ih]

theorem ofObject_written_of_nested :
    (∃ f log log', (nested 16).build [] = .ok f log ∧
      ofObject { strict := true } (nested 16).written [] = .ok f log') ∧
    ∃ log', ofObject { strict := true } (nested 17).written [] =
      .error (.malformed .tooDeep) log' := by
  have hbuild : ∀ n ∈ [16, 17], passes (fun _ => true) ((nested n).build []) := by decide +kernel
  obtain ⟨f, log, hf, -⟩ := exists_of_passes (hbuild 16 (by simp))
  obtain ⟨g, log₁, hg, -⟩ := exists_of_passes (hbuild 17 (by simp))
  have hwithin := (ofObject_written (constructed_nested 16) hf []).2.1
  have hbeyond := (ofObject_written (constructed_nested 17) hg []).2.2
  obtain ⟨log', hlog'⟩ := hwithin (Nat.le_of_eq (stitches_nested 16))
  exact ⟨⟨f, log, log', hf, hlog'⟩, hbeyond (by rw [stitches_nested]; omega)⟩

end Declaration

end PdfFunctions
