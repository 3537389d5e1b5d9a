import Mathlib
import PdfFunctions.Proofs.Clipping
import PdfFunctions.Proofs.Interpolation
import PdfFunctions.Proofs.StitchedParts

namespace PdfFunctions

open Scalar

/-- Among proper numbers the comparisons are those of a linear order, and no other number is
found in order. -/
structure OrderedBy {α γ : Type} [Scalar α] [LinearOrder γ] (proper : α → Prop) (rank : α → γ) :
    Prop where
  lt_iff : ∀ {x y}, proper x → proper y → (lt x y ↔ rank x < rank y)
  le_iff : ∀ {x y}, proper x → proper y → (le x y ↔ rank x ≤ rank y)
  eq_iff : ∀ {x y}, proper x → proper y → (eq x y ↔ rank x = rank y)
  proper_of_le : ∀ {x y}, le x y → proper x ∧ proper y

theorem orderedBy_rat : OrderedBy (fun _ : ℚ => True) id where
  lt_iff _ _ := decide_eq_true_iff
  le_iff _ _ := decide_eq_true_iff
  eq_iff _ _ := beq_iff_eq
  proper_of_le _ := ⟨trivial, trivial⟩

section doubles

open Float.Model (UnpackedFloat)

def rank : UnpackedFloat → ℤ ×ₗ ℤ ×ₗ ℤ
  | .infinity .negative => toLex (-2, toLex (0, 0))
  | .finite .negative m e _ => toLex (-1, toLex (-e, -m))
  | .zero _ => toLex (0, toLex (0, 0))
  | .finite .positive m e _ => toLex (1, toLex (e, m))
  | .infinity .positive => toLex (2, toLex (0, 0))
  | .notANumber => toLex (0, toLex (0, 0))

theorem compare_eq_lt_iff {a b : UnpackedFloat} (ha : ¬ a.isNaN) (hb : ¬ b.isNaN) :
    a.compare b = some .lt ↔ rank a < rank b := by
  rcases a with ⟨_ | _⟩ | _ | _ | ⟨_ | _, m, e⟩ <;>
    rcases b with ⟨_ | _⟩ | _ | _ | ⟨_ | _, m', e'⟩ <;>
    first
    | exact absurd rfl ha
    | exact absurd rfl hb
    | exact iff_of_true rfl (by decide)
    | simp [UnpackedFloat.compare, rank, Prod.Lex.toLex_lt_toLex, Ordering.swap_then,
        Ordering.then_eq_lt, compare_lt_iff_lt, compare_gt_iff_gt]

theorem compare_eq_cmp {a b : UnpackedFloat} (ha : ¬ a.isNaN) (hb : ¬ b.isNaN) :
    a.compare b = some (cmp (rank a) (rank b)) := by
  rcases lt_trichotomy (rank a) (rank b) with hlt | heq | hgt
  · rw [(compare_eq_lt_iff ha hb).2 hlt, (cmp_eq_lt_iff _ _).2 hlt]
  · have hlt := mt (compare_eq_lt_iff ha hb).1 heq.not_lt
    have hgt := mt (compare_eq_lt_iff hb ha).1 heq.not_gt
    rw [(cmp_eq_eq_iff _ _).2 heq]
    cases hc : a.compare b with
    | none => exact absurd (compare_eq_none_iff.1 hc) (not_or.2 ⟨ha, hb⟩)
    | some o =>
      rw [← compare_swap, hc] at hgt
      rw [hc] at hlt
      cases o with
      | eq => rfl
      | lt => exact absurd rfl hlt
      | gt => exact absurd rfl hgt
  · rw [← compare_swap, (compare_eq_lt_iff hb ha).2 hgt, (cmp_eq_gt_iff _ _).2 hgt]
    rfl

theorem orderedBy_float :
    OrderedBy (fun x : Float => ¬ x.isNaN) (fun x => rank x.toModel.unpack) where
  lt_iff hx hy := by
    rw [lt_eq, UnpackedFloat.lt, beq_iff_eq, compare_eq_lt_iff hx hy]
  le_iff hx hy := by
    rw [le_eq, UnpackedFloat.le, compare_eq_cmp hx hy, Option.any_some, ← not_lt,
      ← cmp_eq_gt_iff, Ordering.isLE_iff_ne_gt]
  eq_iff {x y} hx hy := by
    change (x.toModel.unpack.compare y.toModel.unpack == some .eq) = true ↔ _
    rw [compare_eq_cmp hx hy, beq_iff_eq, Option.some.injEq, cmp_eq_eq_iff]
  proper_of_le := not_isNaN_of_le

end doubles

theorem Interval.clip_within {α γ : Type} [Scalar α] [LinearOrder γ] {proper : α → Prop}
    {rank : α → γ} (hrank : OrderedBy proper rank) (i : Interval α) {x : α} (hx : proper x) :
    le i.lo (i.clip x) ∧ le (i.clip x) i.hi := by
  obtain ⟨hlo, hhi⟩ := hrank.proper_of_le i.ordered
  rw [Interval.clip, clamp]
  split
  · exact ⟨(hrank.le_iff hlo hlo).2 le_rfl, i.ordered⟩
  · rename_i hbelow
    split
    · exact ⟨i.ordered, (hrank.le_iff hhi hhi).2 le_rfl⟩
    · rename_i habove
      exact ⟨(hrank.le_iff hlo hx).2 (not_lt.1 (mt (hrank.lt_iff hx hlo).2 hbelow)),
        (hrank.le_iff hx hhi).2 (not_lt.1 (mt (hrank.lt_iff hhi hx).2 habove))⟩

namespace Partition

section search

variable {α γ : Type} [Scalar α] [LinearOrder γ] {proper : α → Prop} {rank : α → γ}

/-- The number `x` lies between the ends with number `i`. The right end belongs only to the last. -/
def Between (starts ends : List α) (x : α) (i : ℕ) : Prop :=
  ∃ lo hi, starts[i]? = some lo ∧ ends[i]? = some hi ∧ le lo x ∧
    (lt x hi ∨ i + 1 = ends.length ∧ le x hi)

theorem between_zero {lo hi x : α} {starts ends : List α} :
    Between (lo :: starts) (hi :: ends) x 0 ↔ le lo x ∧ (lt x hi ∨ ends = [] ∧ le x hi) := by
  simp [Between]

theorem between_succ {lo hi x : α} {starts ends : List α} {i : ℕ} :
    Between (lo :: starts) (hi :: ends) x (i + 1) ↔ Between starts ends x i := by
  simp [Between]

theorem faultFrom?_cons_eq_none {last previous b : α} {bs : List α} :
    faultFrom? last previous (b :: bs) = none ↔
      le previous b ∧ faultFrom? last b bs = none := by
  rw [faultFrom?]
  split <;> simp_all

theorem proper_of_ordered (hrank : OrderedBy proper rank) {last lo : α} {bounds : List α}
    (h : faultFrom? last lo bounds = none) : proper lo := by
  cases bounds with
  | nil =>
    rw [faultFrom?] at h
    split at h
    · exact (hrank.proper_of_le ‹_›).1
    · cases h
  | cons b bs => exact (hrank.proper_of_le (faultFrom?_cons_eq_none.1 h).1).1

/-- Bounds in order have each piece start at `lo` or later. -/
theorem rank_le_of_ordered (hrank : OrderedBy proper rank) {last lo c : α} {bounds : List α}
    (h : faultFrom? last lo bounds = none) (hc : c ∈ lo :: bounds) :
    proper c ∧ rank lo ≤ rank c := by
  induction bounds generalizing lo with
  | nil =>
    obtain rfl := List.mem_singleton.1 hc
    exact ⟨proper_of_ordered hrank h, le_rfl⟩
  | cons b bs ih =>
    rcases List.mem_cons.1 hc with rfl | hc
    · exact ⟨proper_of_ordered hrank h, le_rfl⟩
    · obtain ⟨hb, h⟩ := faultFrom?_cons_eq_none.1 h
      obtain ⟨hlo, hproper⟩ := hrank.proper_of_le hb
      obtain ⟨hc, hle⟩ := ih h hc
      exact ⟨hc, ((hrank.le_iff hlo hproper).1 hb).trans hle⟩

theorem pieceFrom_holds (hrank : OrderedBy proper rank) {last x lo : α} {bounds : List α}
    (h : faultFrom? last lo bounds = none) (hlo : le lo x) (hhi : le x last) (n : ℕ) :
    ∃ i l r, pieceFrom last x n lo bounds = ⟨n + i, l, r⟩ ∧ (lo :: bounds)[i]? = some l ∧
      (bounds ++ [last])[i]? = some r ∧ le l x ∧ le x r ∧
      ∀ j, Between (lo :: bounds) (bounds ++ [last]) x j ↔ j = i := by
  have hx := (hrank.proper_of_le hlo).2
  induction bounds generalizing lo n with
  | nil =>
    refine ⟨0, lo, last, rfl, rfl, rfl, hlo, hhi, fun j => ?_⟩
    cases j with
    | zero => exact iff_of_true (between_zero.2 ⟨hlo, .inr ⟨rfl, hhi⟩⟩) rfl
    | succ j => simp [Between]
  | cons b bs ih =>
    obtain ⟨-, hbs⟩ := faultFrom?_cons_eq_none.1 h
    have hb := proper_of_ordered hrank hbs
    rw [pieceFrom]
    by_cases hlt : lt x b
    · rw [if_pos hlt]
      have hle : le x b := (hrank.le_iff hx hb).2 ((hrank.lt_iff hx hb).1 hlt).le
      refine ⟨0, lo, b, rfl, rfl, rfl, hlo, hle, fun j => ?_⟩
      cases j with
      | zero => exact iff_of_true (between_zero.2 ⟨hlo, .inl hlt⟩) rfl
      | succ j =>
        refine iff_of_false (fun hj => ?_) (Nat.succ_ne_zero j)
        -- the other pieces start at `b` or later
        obtain ⟨l, r, hl, -, hle, -⟩ := between_succ.1 hj
        obtain ⟨hproper, hrankle⟩ := rank_le_of_ordered hrank hbs (List.mem_of_getElem? hl)
        have habove := hrankle.trans ((hrank.le_iff hproper hx).1 hle)
        exact habove.not_gt ((hrank.lt_iff hx hb).1 hlt)
    · rw [if_neg hlt]
      have hle : le b x := (hrank.le_iff hb hx).2 (not_lt.1 (mt (hrank.lt_iff hx hb).2 hlt))
      obtain ⟨i, l, r, hpiece, hl, hr, hlx, hxr, hiff⟩ := ih hbs hle (n + 1)
      refine ⟨i + 1, l, r, ?_, hl, hr, hlx, hxr, fun j => ?_⟩
      · rw [hpiece, Nat.add_assoc, Nat.add_comm 1]
      cases j with
      | zero =>
        refine iff_of_false (fun hj => ?_) (Nat.succ_ne_zero i).symm
        rcases (between_zero.1 hj).2 with hj | ⟨hnil, -⟩
        · exact hlt hj
        · simp at hnil
      | succ j =>
        exact between_succ.trans ((hiff j).trans Nat.succ_inj.symm)

def starts (p : Partition α) : List α := p.domain.lo :: p.bounds

def ends (p : Partition α) : List α := p.bounds ++ [p.domain.hi]

/-- Sub-domain `i` holds `x`: its left end belongs to it, and only for the last its right end.
Where the first bound is the start of the domain, that point belongs to the first alone. -/
def Holds (p : Partition α) (i : ℕ) (x : α) : Prop :=
  if (p.bounds.head?.any (eq · p.domain.lo) && eq x p.domain.lo) = true then i = 0
  else Between p.starts p.ends x i

theorem piece_holds (hrank : OrderedBy proper rank) {p : Partition α} {x : α}
    (h : p.fault? = none) (hlo : le p.domain.lo x) (hhi : le x p.domain.hi) :
    p.starts[(p.piece x).index]? = some (p.piece x).lo ∧
      p.ends[(p.piece x).index]? = some (p.piece x).hi ∧
      le (p.piece x).lo x ∧ le x (p.piece x).hi ∧
      ∀ j, p.Holds j x ↔ j = (p.piece x).index := by
  obtain ⟨i, l, r, hpiece, hl, hr, hlx, hxr, hiff⟩ := pieceFrom_holds hrank h hlo hhi 0
  rw [Nat.zero_add] at hpiece
  obtain ⟨domain, bounds⟩ := p
  cases bounds with
  | nil =>
    have hsearch : (⟨domain, []⟩ : Partition α).piece x = ⟨i, l, r⟩ := hpiece
    rw [hsearch]
    exact ⟨hl, hr, hlx, hxr, hiff⟩
  | cons b bs =>
    -- a first piece that is a single point is tested before the search
    by_cases hpoint : (eq b domain.lo && eq x domain.lo) = true
    · have hsearch : (⟨domain, b :: bs⟩ : Partition α).piece x = ⟨0, domain.lo, b⟩ := if_pos hpoint
      rw [hsearch]
      have hx := (Bool.and_eq_true_iff.1 hpoint).2
      have hxb : le x b := by
        have hlob := (faultFrom?_cons_eq_none.1 h).1
        obtain ⟨hproper, hproperb⟩ := hrank.proper_of_le hlob
        have hproperx := (hrank.proper_of_le hlo).2
        rw [hrank.le_iff hproperx hproperb, (hrank.eq_iff hproperx hproper).1 hx]
        exact (hrank.le_iff hproper hproperb).1 hlob
      exact ⟨rfl, rfl, hlo, hxb, fun j => iff_of_eq (if_pos hpoint)⟩
    · have hsearch : (⟨domain, b :: bs⟩ : Partition α).piece x = ⟨i, l, r⟩ :=
        (if_neg hpoint).trans hpiece
      rw [hsearch]
      exact ⟨hl, hr, hlx, hxr, fun j => (iff_of_eq (if_neg hpoint)).trans (hiff j)⟩

end search

end Partition

namespace Stitching

variable {α γ : Type} [Scalar α] [LinearOrder γ] {proper : α → Prop} {rank : α → γ}

structure Accepted (s : Stitching α) (k : ℕ) : Prop where
  bounds : s.partition.bounds.length + 1 = k
  ordered : s.partition.fault? = none
  encode : s.encode.length = k

/-- For the input `x`, part `i` is given `y`: of all sub-domains only the one with number `i` holds
the clipped input, which is mapped from its ends onto its pair. -/
structure Selects (s : Stitching α) (x : α) (i : ℕ) (pair : α × α) (y : α) : Prop where
  holds : ∀ j, s.partition.Holds j (s.partition.domain.clip x) ↔ j = i
  encode : s.encode[i]? = some pair
  between : ∃ lo hi, s.partition.starts[i]? = some lo ∧ s.partition.ends[i]? = some hi ∧
    le lo (s.partition.domain.clip x) ∧ le (s.partition.domain.clip x) hi ∧
    y = interpolate (s.partition.domain.clip x) lo hi pair.1 pair.2
  route : s.route x = some (i, y)

theorem exists_selects (hrank : OrderedBy proper rank) {s : Stitching α} {k : ℕ}
    (h : s.Accepted k) {x : α} (hx : proper x) : ∃ i pair y, i < k ∧ s.Selects x i pair y := by
  obtain ⟨hlo, hhi⟩ := s.partition.domain.clip_within hrank hx
  obtain ⟨hl, hr, hlx, hxr, hiff⟩ := Partition.piece_holds hrank h.ordered hlo hhi
  have hindex := Partition.index_piece_le s.partition (s.partition.domain.clip x)
  have hi : (s.partition.piece (s.partition.domain.clip x)).index < k := by
    have := h.bounds
    omega
  have hpair := List.getElem?_eq_getElem (h.encode.symm ▸ hi)
  refine ⟨_, _, _, hi, hiff, hpair, ⟨_, _, hl, hr, hlx, hxr, rfl⟩, ?_⟩
  simp only [route, hpair, Option.map_some]

theorem interpolate_mem_uIcc {x lo hi : ℚ} (hlo : lo ≤ x) (hhi : x ≤ hi) (y0 y1 : ℚ) :
    interpolate x lo hi y0 y1 ∈ Set.uIcc y0 y1 := by
  rw [interpolate_eq]
  split
  · exact Set.left_mem_uIcc
  · rename_i hne
    have hpos : 0 < hi - lo := sub_pos.2 (lt_of_le_of_ne (hlo.trans hhi) (Ne.symm hne))
    have hshare : 0 ≤ (x - lo) / (hi - lo) := div_nonneg (sub_nonneg.2 hlo) hpos.le
    have hshare1 : (x - lo) / (hi - lo) ≤ 1 := (div_le_one hpos).2 (by linarith)
    rw [mul_div_right_comm, Set.mem_uIcc]
    rcases le_total y0 y1 with h | h
    · exact .inl ⟨by nlinarith, by nlinarith⟩
    · exact .inr ⟨by nlinarith, by nlinarith⟩

/-- With exact numbers the part is given a number between the ends of its pair, and the first end
where the sub-domain is a point. -/
theorem Selects.mem_uIcc {s : Stitching ℚ} {x y : ℚ} {i : ℕ} {pair : ℚ × ℚ}
    (h : s.Selects x i pair y) :
    y ∈ Set.uIcc pair.1 pair.2 ∧ (s.partition.starts[i]? = s.partition.ends[i]? → y = pair.1) := by
  obtain ⟨lo, hi, hl, hr, hlo, hhi, rfl⟩ := h.between
  refine ⟨interpolate_mem_uIcc (of_decide_eq_true hlo) (of_decide_eq_true hhi) _ _,
    fun hpoint => ?_⟩
  rw [hl, hr, Option.some.injEq] at hpoint
  rw [interpolate_eq, if_pos hpoint.symm]

end Stitching

namespace Function

open Stitching

theorem Stitchable.accepted {s : Stitching Float} {parts : List Function}
    (h : Stitchable s.partition parts s.encode) : s.Accepted parts.length :=
  ⟨h.bounds, h.ordered, h.encode⟩

theorem evaluate_of_selects {s : Stitching Float} {parts : List Function} {x y : Float} {i : ℕ}
    {pair : Float × Float} (h : s.Selects x i pair y) (hi : i < parts.length) :
    (stitched s parts).evaluate [x] =
      parts[i].evaluate [y] >>= fun ys => pure (s.range.elim ys (·.clip ys)) := by
  rw [evaluate, h.route, ← evaluateAt_eq hi]

/-- Exactly one sub-domain holds the clipped input, and the part with its number is applied to
what its pair makes of the input: with exact numbers, a number between the ends of the pair, and
the first end where the sub-domain is a point. No number of a bound or of a pair is out of range. -/
theorem stitched_selects :
    (∀ (s : Stitching ℚ) (k : ℕ) (x : ℚ), s.Accepted k →
      ∃ i pair y, i < k ∧ s.Selects x i pair y ∧ y ∈ Set.uIcc pair.1 pair.2 ∧
        (s.partition.starts[i]? = s.partition.ends[i]? → y = pair.1)) ∧
    ∀ domain parts bounds encode range f, stitch domain parts bounds encode range = .ok f →
      ∃ ps, pairs encode = .ok ps ∧
        let s : Stitching Float := ⟨⟨domain, bounds⟩, ps, range⟩
        f = .stitched s parts ∧ s.Accepted parts.length ∧
        ∀ x, ¬ x.isNaN → ∃ i pair y, ∃ hi : i < parts.length, s.Selects x i pair y ∧
          f.evaluate [x] = parts[i].evaluate [y] >>= fun ys =>
            pure (s.range.elim ys (·.clip ys)) := by
  refine ⟨fun s k x h => ?_, fun domain parts bounds encode range f h => ?_⟩
  · obtain ⟨i, pair, y, hi, hselects⟩ := exists_selects orderedBy_rat h (x := x) trivial
    exact ⟨i, pair, y, hi, hselects, hselects.mem_uIcc⟩
  · obtain ⟨ps, hps, hchecks, rfl⟩ := stitch_eq_ok_iff.1 h
    have haccepted := Stitchable.accepted (s := ⟨⟨domain, bounds⟩, ps, range⟩) hchecks
    refine ⟨ps, hps, rfl, haccepted, fun x hx => ?_⟩
    obtain ⟨i, pair, y, hi, hselects⟩ := exists_selects orderedBy_float haccepted hx
    exact ⟨i, pair, y, hi, hselects, evaluate_of_selects hselects hi⟩

theorem ordered_unit : le (0 : ℚ) 1 = true := by decide

def steps : Stitching ℚ :=
  ⟨⟨⟨0, 1, ordered_unit⟩, [0, 1 / 2, 1 / 2, 1]⟩, [(3, 2), (1, 0), (0, 1), (9, 5), (5, 7)], none⟩

theorem steps_accepted : steps.Accepted 5 := ⟨rfl, by decide +kernel, rfl⟩

def line : Function := .exponential { terms := [(0, 1)], exponent := 1 }

theorem stitched_selects_of_steps :
    [0, 1 / 4, 1 / 2, 3 / 4, 1].map steps.route =
      [some (0, 3), some (1, 1 / 2), some (3, 9), some (3, 7), some (4, 5)] ∧
    (steps.Accepted 5 ∧ ∃ y, steps.route (3 / 4) = some (3, y) ∧ y ∈ Set.uIcc 9 5) ∧
    ∃ f, stitch ⟨0, 1, by decide +kernel⟩ [line, line] [0.5] [0, 1, 1, 0] none = .ok f ∧
      ∃ y, f.evaluate [0.75] = line.evaluate [y] := by
  refine ⟨by decide +kernel, ⟨steps_accepted, ?_⟩, ?_⟩
  · obtain ⟨i, pair, y, -, hselects, hy, -⟩ := stitched_selects.1 steps 5 (3 / 4) steps_accepted
    have hroute : steps.route (3 / 4) = some (3, 7) := by decide +kernel
    obtain ⟨rfl, rfl⟩ := Prod.mk.inj (Option.some.inj (hselects.route.symm.trans hroute))
    have hpair : steps.encode[3]? = some (9, 5) := rfl
    obtain rfl := Option.some.inj (hselects.encode.symm.trans hpair)
    exact ⟨7, hroute, hy⟩
  · have hordered : (⟨⟨0, 1, by decide +kernel⟩, [0.5]⟩ : Partition Float).fault? = none := by
      decide +kernel
    have hstitch : stitch ⟨0, 1, by decide +kernel⟩ [line, line] [0.5] [0, 1, 1, 0] none =
        .ok (.stitched ⟨⟨⟨0, 1, by decide +kernel⟩, [0.5]⟩, [(0, 1), (1, 0)], none⟩ [line, line]) :=
      stitch_eq_ok_iff.2 ⟨_, rfl, ⟨nofun, rfl, hordered, rfl, by simp [line, inputs?],
        by simp [firstOutputCount]⟩, rfl⟩
    refine ⟨_, hstitch, ?_⟩
    obtain ⟨ps, -, -, -, hselects⟩ := stitched_selects.2 _ _ _ _ _ _ hstitch
    obtain ⟨i, pair, y, hi, -, heval⟩ := hselects 0.75 (by decide +kernel)
    have hline : ([line, line] : List Function)[i] = line :=
      List.mem_pair.1 (List.getElem_mem hi) |>.elim id id
    rw [hline] at heval
    exact ⟨y, heval.trans (bind_pure _)⟩

end Function

end PdfFunctions
