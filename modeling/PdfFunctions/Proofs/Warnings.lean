import PdfFunctions.Proofs.CallDepth
import PdfFunctions.Proofs.Defects
import PdfFunctions.Proofs.Endings

namespace PdfFunctions

open Braces Machine Moment

def Log.warnings (log : Log) : Nat := log.countP fun e => e.level = .warn

theorem Log.warnings_cons (e : Event) (log : Log) :
    Log.warnings (e :: log) = log.warnings + if e.level = .warn then 1 else 0 := by
  simp only [Log.warnings, List.countP_cons, decide_eq_true_eq]

namespace Braces

/-- One for a closing brace at depth 0, and nothing for other values. -/
def stray (d : Nat) (v : Value) : Nat := if d = 0 ∧ v = .closing then 1 else 0

/-- How many closing braces are met at depth 0, from depth `d` on. -/
def unmatched (d : Nat) : List Value → Nat
  | [] => 0
  | v :: vs => stray d v + unmatched (depthAfter d v) vs

theorem stray_of_pos {d : Nat} (hd : 0 < d) (v : Value) : stray d v = 0 :=
  if_neg fun h => Nat.ne_of_gt hd h.1

theorem stray_of_ne (d : Nat) {v : Value} (hv : v ≠ .closing) : stray d v = 0 :=
  if_neg fun h => hv h.2

theorem unmatched_append (d : Nat) (u w : List Value) :
    unmatched d (u ++ w) = unmatched d u + unmatched (u.foldl depthAfter d) w := by
  induction u generalizing d with
  | nil => simp [unmatched]
  | cons v u ih =>
    simp only [List.cons_append, unmatched, ih, List.foldl_cons]
    omega

theorem level_eq_some_iff {d e : Nat} {v : Value} :
    level d v = some e ↔ stray d v = 0 ∧ depthAfter d v = e := by
  cases v with
  | closing => simp [level, stray, depthAfter]
  | _ => simp [level, stray, depthAfter]

/-- A list of values climbs exactly if no closing brace in it is unmatched. -/
theorem climb_eq_some_iff {d e : Nat} {w : List Value} :
    climb d w = some e ↔ unmatched d w = 0 ∧ w.foldl depthAfter d = e := by
  induction w generalizing d with
  | nil => simp [unmatched]
  | cons v w ih =>
    rw [climb_cons_eq_some, unmatched, Nat.add_eq_zero_iff, List.foldl_cons]
    constructor
    · rintro ⟨k, hv, hw⟩
      obtain ⟨hstray, rfl⟩ := level_eq_some_iff.1 hv
      obtain ⟨hclosed, hend⟩ := ih.1 hw
      exact ⟨⟨hstray, hclosed⟩, hend⟩
    · rintro ⟨⟨hstray, hclosed⟩, hend⟩
      exact ⟨_, level_eq_some_iff.2 ⟨hstray, rfl⟩, ih.2 ⟨hclosed, hend⟩⟩

end Braces

variable {l : Limits} {text : Bytes}

/-- A value is warned about only where it is a closing brace at depth 0. -/
theorem Machine.warnings_of_accepts {m m' : Machine} {v : Value} (h : Accepts l m v m') :
    m'.log.warnings = m.log.warnings + stray m.depth v := by
  cases h with
  | wrapperOpens | bodyOpens => rw [stray_of_ne _ (by simp), Nat.add_zero]
  | wrapperCloses hd => rw [stray_of_pos (by omega), Nat.add_zero]
  | ignored hd =>
    rw [hd]
    exact Log.warnings_cons _ _
  | deferred hd => rw [stray_of_pos (by omega), Nat.add_zero]
  | pushed _ hv =>
    have hne : v ≠ .closing := by
      rintro rfl
      simp at hv
    rw [stray_of_ne _ hne, Nat.add_zero]
  | acted | skipped | entered =>
    rw [stray_of_ne _ (by simp)]
    exact Log.warnings_cons _ _

theorem Item.isSome_defect {i : Item} : i.defect?.isSome ↔ i.value? = none := by
  constructor
  · intro h
    obtain ⟨e, he⟩ := Option.isSome_iff_exists.1 h
    exact no_value_of_defect he
  · intro hv
    by_contra h
    obtain ⟨v, hregular⟩ := value_of_regular (Option.not_isSome_iff_eq_none.1 h)
    simp [hregular] at hv

namespace Machine

theorem refuse_lenient {i : Item} (hv : i.value? = none) :
    ∃ event : Event, event.level = .warn ∧ refuse (l.withStrict false) i = note event := by
  obtain ⟨token, start, stop⟩ := i
  cases token with
  | name bs | malformed bs => exact ⟨_, rfl, rfl⟩
  | _ => simp [Item.value?] at hv

end Machine

namespace Moment

variable {μ μ' : Moment}

theorem refused_of_advance {i : Item} {is : List Item} (h : advance l μ = some μ')
    (hc : μ.machine.calls = []) (hr : μ.rest = i :: is) (hv : i.value? = none) :
    ∃ m, refuse l i μ.machine = .ok () m ∧ μ' = { μ with machine := m, rest := is } := by
  simp only [advance, hc, hr, readItem, hv] at h
  split at h
  · rename_i m hm
    exact ⟨m, hm, (Option.some.inj h).symm⟩
  · simp at h

/-- Inside a body the brace depth is never 0, so no brace in it is unmatched. -/
theorem warnings_of_ran {c : Call} {cs : List Call} (h : advance l μ = some μ')
    (hc : μ.machine.calls = c :: cs) (ha : Aligned μ.machine.depth μ.machine.calls) :
    μ'.machine.log.warnings = μ.machine.log.warnings := by
  have hpos : 0 < μ.machine.depth := by
    rw [hc] at ha
    exact ha.1
  cases advances_of_advance h with
  | read hnil => simp [hc] at hnil
  | refused hnil => simp [hc] at hnil
  | ran _ hm => exact (warnings_of_accepts hm).trans (by rw [stray_of_pos hpos, Nat.add_zero])
  | returned _ hm =>
    subst hm
    rfl

/-- The tokens read so far have been warned about, on top of `n` earlier warnings. -/
def Noted (text : Bytes) (n : Nat) (μ : Moment) : Prop :=
  ∃ done, tokenize text = done ++ μ.rest ∧ μ.read = done.filterMap Item.value? ∧
    μ.machine.log.warnings = n + done.countP (·.defect?.isSome) + unmatched 0 μ.read

theorem Noted.keep {n : Nat} (hn : Noted text n μ) (hrest : μ'.rest = μ.rest)
    (hread : μ'.read = μ.read) (hlog : μ'.machine.log.warnings = μ.machine.log.warnings) :
    Noted text n μ' := by
  obtain ⟨done, htext, hdone, hcount⟩ := hn
  exact ⟨done, by rw [hrest, htext], by rw [hread, hdone], by rw [hread, hlog, hcount]⟩

theorem noted_of_advance {n : Nat} (h : advance (l.withStrict false) μ = some μ') (ht : Traced μ)
    (ha : Aligned μ.machine.depth μ.machine.calls) (hn : Noted text n μ) : Noted text n μ' := by
  -- the text read so far is split off, and its defects and stray braces are what the log counts
  cases advances_of_advance h with
  | @read i is v m hc hr hv hm =>
    obtain ⟨done, htext, hdone, hcount⟩ := hn
    have hdepth : μ.machine.depth = μ.read.foldl depthAfter 0 := by
      simpa only [hc, textDepth] using ht.depth
    have hregular : ¬ i.defect?.isSome := by simp [Item.isSome_defect, hv]
    refine ⟨done ++ [i], by rw [htext, hr, List.append_assoc]; rfl, ?_, ?_⟩
    · change μ.read ++ [v] = _
      rw [List.filterMap_append, ← hdone, List.filterMap_cons_some hv, List.filterMap_nil]
    · change m.log.warnings = n + _ + unmatched 0 (μ.read ++ [v])
      rw [warnings_of_accepts hm, hcount, hdepth, unmatched_append, List.countP_append,
        List.countP_singleton, if_neg hregular]
      simp only [unmatched]
      omega
  | @refused i is log hc hr hv =>
    obtain ⟨m, hm, he⟩ := refused_of_advance h hc hr hv
    obtain ⟨event, hlevel, hnote⟩ := refuse_lenient (l := l) hv
    rw [hnote] at hm
    obtain ⟨-, rfl⟩ := EStateM.Result.ok.inj hm
    rw [he]
    obtain ⟨done, htext, hdone, hcount⟩ := hn
    have hdefect : i.defect?.isSome := Item.isSome_defect.2 hv
    refine ⟨done ++ [i], by rw [htext, hr, List.append_assoc]; rfl, ?_, ?_⟩
    · change μ.read = _
      rw [List.filterMap_append, ← hdone, List.filterMap_cons_none hv, List.filterMap_nil,
        List.append_nil]
    · change Log.warnings (event :: μ.machine.log) = n + _ + unmatched 0 μ.read
      rw [Log.warnings_cons, if_pos hlevel, hcount, List.countP_append, List.countP_singleton,
        if_pos hdefect]
      omega
  | ran hc | returned hc => exact hn.keep rfl rfl (warnings_of_ran h hc ha)

theorem aligned_of_reaches {ok : Rule} {s : Stack} {log : Log}
    (h : Reaches l ok (start { stack := s, log } text) μ) :
    Aligned μ.machine.depth μ.machine.calls :=
  (Reaches.invariant (J := fun _ _ => True) (fun _ _ _ => trivial) h rfl trivial).2

theorem noted_of_reaches {s : Stack} {log : Log}
    (h : Reaches (l.withStrict false) anything (start { stack := s, log } text) μ) :
    Noted text log.warnings μ := by
  induction h with
  | refl => exact ⟨[], rfl, rfl, rfl⟩
  | tail h hf ih => exact noted_of_advance hf.1 (traced_of_reaches h) (aligned_of_reaches h) ih

/-- When all tokens are taken in, the warnings are those of the text, and the depth is the one that
its braces lead to. -/
theorem noted_of_feedItems {s : Stack} {log : Log} {m : Machine}
    (h : feedItems (l.withStrict false) (tokenize text) { stack := s, log } = .ok () m) :
    let vs := (tokenize text).filterMap Item.value?
    m.log.warnings =
      log.warnings + (tokenize text).countP (·.defect?.isSome) + unmatched 0 vs ∧
    m.depth = vs.foldl depthAfter 0 := by
  intro vs
  obtain ⟨μ, hμ, rfl, hrest, hcalls⟩ :=
    reaches_of_feedItems (μ := start { stack := s, log } text) h rfl rfl
  obtain ⟨done, htext, hread, hcount⟩ := noted_of_reaches hμ
  rw [hrest, List.append_nil] at htext
  rw [← htext] at hread hcount
  have hdepth := (traced_of_reaches hμ).depth
  rw [hcalls, textDepth, hread] at hdepth
  rw [hread] at hcount
  exact ⟨hcount, hdepth⟩

end Moment

namespace Machine

/-- A run takes in its tokens, and then notes the braces left open. -/
theorem feedItems_of_run {m m' : Machine} {u : Unit} (h : run l text m = .ok u m') :
    ∃ m₁, feedItems l (tokenize text) m = .ok () m₁ ∧
      m'.log = if 0 < m₁.depth then .unterminated m₁.depth :: m₁.log else m₁.log := by
  obtain ⟨_, m₁, hfeed, h⟩ := bind_eq_ok.1 h
  refine ⟨m₁, hfeed, ?_⟩
  rw [get_bind] at h
  split at h
  · rename_i hopen
    obtain ⟨-, rfl⟩ := EStateM.Result.ok.inj h
    exact (if_pos hopen).symm
  · rename_i hclosed
    obtain ⟨-, rfl⟩ := pure_eq_ok.1 h
    exact (if_neg hclosed).symm

/-- A lenient run that succeeds warns once of each malformed number, each unknown name and each
closing brace at depth 0, and once more if braces are left open. While bodies run there is no
warning. So there is none at all exactly if every token is in order and the braces balance. -/
theorem warnings_of_run {s : Stack} {log : Log} {m' : Machine}
    (h : run (l.withStrict false) text { stack := s, log } = .ok () m') :
    let vs := (tokenize text).filterMap Item.value?
    m'.log.warnings = log.warnings + (tokenize text).countP (·.defect?.isSome) + unmatched 0 vs +
      (if 0 < vs.foldl depthAfter 0 then 1 else 0) ∧
    (∀ μ μ', Reaches (l.withStrict false) anything (start { stack := s, log } text) μ →
      advance (l.withStrict false) μ = some μ' → μ.machine.calls ≠ [] →
      μ'.machine.log.warnings = μ.machine.log.warnings) ∧
    (m'.log.warnings = log.warnings ↔
      (∀ i ∈ tokenize text, i.defect? = none) ∧ Balanced vs) := by
  intro vs
  obtain ⟨m₁, hfeed, hlog⟩ := feedItems_of_run h
  obtain ⟨hcount, hdepth⟩ := noted_of_feedItems hfeed
  have htotal : m'.log.warnings = log.warnings + (tokenize text).countP (·.defect?.isSome) +
      unmatched 0 vs + (if 0 < vs.foldl depthAfter 0 then 1 else 0) := by
    rw [hlog, ← hcount, ← hdepth]
    split
    · exact Log.warnings_cons _ _
    · rfl
  have hregular : (tokenize text).countP (·.defect?.isSome) = 0 ↔
      ∀ i ∈ tokenize text, i.defect? = none := by
    simp [List.countP_eq_zero]
  have hbalanced : Balanced vs ↔ unmatched 0 vs = 0 ∧ vs.foldl depthAfter 0 = 0 :=
    climb_eq_some_iff
  refine ⟨htotal, fun μ μ' hμ hadv hc => ?_, ?_⟩
  · obtain ⟨c, cs, hcalls⟩ := List.exists_cons_of_ne_nil hc
    exact warnings_of_ran hadv hcalls (aligned_of_reaches hμ)
  · rw [htotal, ← hregular, hbalanced]
    split <;> omega

/-- A closing brace too many, an unknown name and a malformed number in a body, and a brace left
open. -/
theorem warnings_of_run_four :
    let text := Bytes.ofText "\x7d \x7b true \x7b foo 1.2.3 \x7d if \x7d \x7b"
    ∃ m', run (({} : Limits).withStrict false) text { stack := { limit := 9 } } = .ok () m' ∧
      m'.log.warnings = 4 := by
  intro text
  have hend : (after (({} : Limits).withStrict false) anything 11
      (start { stack := { limit := 9 } } text)).map
      (fun μ => (μ.machine.stack, μ.machine.depth, μ.machine.calls, μ.rest.length)) =
        some ({ limit := 9 }, 1, [], 0) := by decide +kernel
  obtain ⟨log, hrun⟩ := run_of_after rfl hend
  exact ⟨_, hrun, (warnings_of_run hrun).1.trans (by decide +kernel)⟩

end Machine

end PdfFunctions
