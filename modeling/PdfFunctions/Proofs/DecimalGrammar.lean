import PdfFunctions.Proofs.NumberSpans

namespace PdfFunctions.Decimal

open Bytes

namespace Literal

/-- An optional sign: true is minus. -/
inductive IsSign : Bytes → Bool → Prop where
  | absent : IsSign [] false
  | plus : IsSign [0x2B] false
  | minus : IsSign [0x2D] true

def withSign (negative : Bool) (n : ℕ) : ℤ := if negative then -n else n

/-- `d+ (. d*)? | . d+`, with the digits before and after the point. -/
inductive IsMantissa : Bytes → Bytes → Bytes → Prop where
  | whole {ds : Bytes} (hne : ds ≠ []) : IsMantissa ds ds []
  | point {ds fs : Bytes} (hne : ds ≠ []) : IsMantissa (ds ++ 0x2E :: fs) ds fs
  | fraction {fs : Bytes} (hne : fs ≠ []) : IsMantissa (0x2E :: fs) [] fs

/-- `([eE] [+-]? d+)?` -/
inductive IsExponent : Bytes → ℤ → Prop where
  | absent : IsExponent [] 0
  | present {b : UInt8} {sign ds : Bytes} {negative : Bool} {n : ℕ} (hb : b = 0x65 ∨ b = 0x45)
      (hsign : IsSign sign negative) (hds : Positional 10 ds n) :
      IsExponent (b :: (sign ++ ds)) (withSign negative n)

inductive IsText : Bytes → Literal → Prop where
  | intro {sign mantissa whole places exponent : Bytes} {negative : Bool} {n : ℕ} {e : ℤ}
      (hsign : IsSign sign negative) (hmantissa : IsMantissa mantissa whole places)
      (hdigits : Positional 10 (whole ++ places) n) (hexponent : IsExponent exponent e) :
      IsText (sign ++ (mantissa ++ exponent)) ⟨negative, n, e - places.length⟩

def toRat (l : Literal) : ℚ :=
  (if l.negative then -1 else 1) * (l.coefficient * 10 ^ l.exponent)

def isSignByte (b : UInt8) : Bool := b == 0x2B || b == 0x2D

section sign

variable {bs rest s : Bytes} {negative : Bool}

theorem sign_append (hs : IsSign s negative) (hrest : ∀ b ∈ rest.head?, isSignByte b = false) :
    sign (s ++ rest) = (negative, rest) := by
  cases hs with
  | absent =>
    rw [List.nil_append]
    unfold sign
    split
    · exact absurd (hrest _ rfl) (by decide)
    · exact absurd (hrest _ rfl) (by decide)
    · rfl
  | plus => rfl
  | minus => rfl

theorem exists_isSign (bs : Bytes) :
    ∃ s, IsSign s (sign bs).1 ∧ bs = s ++ (sign bs).2 := by
  unfold sign
  split
  · exact ⟨_, .minus, rfl⟩
  · exact ⟨_, .plus, rfl⟩
  · exact ⟨_, .absent, rfl⟩

theorem not_isSignByte {b : UInt8} (hb : isDigit b = true) : isSignByte b = false := by
  rw [isSignByte, Bool.or_eq_false_iff, beq_eq_false_iff_ne, beq_eq_false_iff_ne]
  constructor <;> rintro rfl <;> exact absurd hb (by decide)

end sign

/-- Digits before something else are split off as they are. -/
theorem span_digits {ds rest : Bytes} (hds : ∀ b ∈ ds, isDigit b = true)
    (hrest : ∀ b ∈ rest.head?, isDigit b = false) : (ds ++ rest).span isDigit = (ds, rest) :=
  Span.Maximal.span_append ⟨hds, hrest⟩

structure Division where
  negative : Bool
  whole : Bytes
  places : Bytes
  rest : Bytes

def divide (bs : Bytes) : Division :=
  let (negative, bs) := sign bs
  let (whole, bs) := bs.span Bytes.isDigit
  let (places, bs) := fraction bs
  ⟨negative, whole, places, bs⟩

theorem read?_eq (bs : Bytes) :
    read? bs = do
      let coefficient ← digits? ((divide bs).whole ++ (divide bs).places)
      let exponent ← exponent? (divide bs).rest
      return ⟨(divide bs).negative, coefficient, exponent - (divide bs).places.length⟩ := rfl

section divide

variable {s ds fs ex m whole places bs : Bytes} {negative : Bool} {n : ℕ} {e : ℤ}

theorem divide_whole (hs : IsSign s negative) (hne : ds ≠ [])
    (hds : ∀ b ∈ ds, Bytes.isDigit b = true)
    (hex : ∀ b ∈ ex.head?, Bytes.isDigit b = false ∧ b ≠ 0x2E) :
    divide (s ++ (ds ++ ex)) = ⟨negative, ds, [], ex⟩ := by
  have hhead : ∀ b ∈ (ds ++ ex).head?, isSignByte b = false := by
    rw [List.head?_append_of_ne_nil _ hne]
    exact fun b hb => not_isSignByte (hds b (List.mem_of_mem_head? hb))
  have hfraction : fraction ex = ([], ex) := by
    unfold fraction
    split
    · exact absurd rfl (hex _ rfl).2
    · rfl
  simp only [divide, sign_append hs hhead, span_digits hds fun b hb => (hex b hb).1, hfraction]

theorem divide_point (hs : IsSign s negative) (hds : ∀ b ∈ ds, Bytes.isDigit b = true)
    (hfs : ∀ b ∈ fs, Bytes.isDigit b = true) (hex : ∀ b ∈ ex.head?, Bytes.isDigit b = false) :
    divide (s ++ (ds ++ 0x2E :: (fs ++ ex))) = ⟨negative, ds, fs, ex⟩ := by
  have hpoint : ∀ b ∈ (0x2E :: (fs ++ ex) : Bytes).head?, Bytes.isDigit b = false := by
    rintro b ⟨⟩
    rfl
  have hhead : ∀ b ∈ (ds ++ 0x2E :: (fs ++ ex)).head?, isSignByte b = false := by
    cases ds with
    | nil =>
      rintro b ⟨⟩
      rfl
    | cons d ds =>
      rintro b ⟨⟩
      exact not_isSignByte (hds d (List.mem_cons_self ..))
  simp only [divide, sign_append hs hhead, span_digits hds hpoint, fraction, span_digits hfs hex]

theorem IsExponent.head (h : IsExponent ex e) :
    ∀ b ∈ ex.head?, Bytes.isDigit b = false ∧ b ≠ 0x2E := by
  cases h with
  | absent => simp
  | present hb =>
    rintro b ⟨⟩
    rcases hb with rfl | rfl <;> decide

theorem isExponent_cons_iff {b : UInt8} :
    IsExponent (b :: bs) e ↔
      (b = 0x65 ∨ b = 0x45) ∧ ∃ n, Positional 10 (sign bs).2 n ∧ e = withSign (sign bs).1 n := by
  constructor
  · intro h
    cases h with
    | present hb hsign hds =>
      rw [sign_append hsign fun b hb =>
        not_isSignByte (hds.all_isDigit b (List.mem_of_mem_head? hb))]
      exact ⟨hb, _, hds, rfl⟩
  · rintro ⟨hb, n, hds, rfl⟩
    obtain ⟨s, hs, hbs⟩ := exists_isSign bs
    generalize sign bs = d at *
    rw [hbs]
    exact .present hb hs hds

theorem IsExponent.unique {e' : ℤ} (h : IsExponent ex e) (h' : IsExponent ex e') : e = e' := by
  cases ex with
  | nil =>
    cases h
    cases h'
    rfl
  | cons b bs =>
    obtain ⟨-, n, hn, rfl⟩ := isExponent_cons_iff.1 h
    obtain ⟨-, n', hn', rfl⟩ := isExponent_cons_iff.1 h'
    rw [hn.unique hn']

/-- The only division that the grammar allows. -/
theorem divide_append (hsign : IsSign s negative) (hm : IsMantissa m whole places)
    (hdigits : Positional 10 (whole ++ places) n) (hexponent : IsExponent ex e) :
    divide (s ++ (m ++ ex)) = ⟨negative, whole, places, ex⟩ := by
  have hwhole : ∀ b ∈ whole, Bytes.isDigit b = true :=
    fun b hb => hdigits.all_isDigit b (List.mem_append_left _ hb)
  have hplaces : ∀ b ∈ places, Bytes.isDigit b = true :=
    fun b hb => hdigits.all_isDigit b (List.mem_append_right _ hb)
  have hex := fun b hb => (hexponent.head b hb).1
  cases hm with
  | whole hne => exact divide_whole hsign hne hwhole hexponent.head
  | point =>
    rw [List.append_assoc]
    exact divide_point hsign hwhole hplaces hex
  | fraction => exact (divide_point hsign hwhole hplaces hex :)

/-- A text is its parts, with a point before the places. -/
theorem exists_mantissa (bs : Bytes) (hdigits : (divide bs).whole ++ (divide bs).places ≠ []) :
    ∃ s m, IsSign s (divide bs).negative ∧ IsMantissa m (divide bs).whole (divide bs).places ∧
      bs = s ++ (m ++ (divide bs).rest) := by
  obtain ⟨s, hs, hbs⟩ := exists_isSign bs
  have hcut := List.takeWhile_append_dropWhile (p := Bytes.isDigit) (l := (sign bs).2)
  simp only [divide, List.span_eq_takeWhile_dropWhile] at hdigits ⊢
  generalize (sign bs).2.takeWhile Bytes.isDigit = whole at *
  generalize (sign bs).2.dropWhile Bytes.isDigit = rest at *
  rw [← hcut] at hbs
  unfold fraction at hdigits ⊢
  split at hdigits
  · rename_i rest
    have hpoint := List.takeWhile_append_dropWhile (p := Bytes.isDigit) (l := rest)
    simp only [List.span_eq_takeWhile_dropWhile] at hdigits ⊢
    -- with no digit before the point the grammar wants one after it
    cases whole with
    | nil =>
      refine ⟨s, _, hs, .fraction hdigits, ?_⟩
      rw [hbs, List.nil_append, List.cons_append, hpoint]
    | cons d ds =>
      refine ⟨s, _, hs, .point (List.cons_ne_nil _ _), ?_⟩
      rw [hbs, List.append_assoc, @List.cons_append _ _ (rest.takeWhile _), hpoint]
  · rw [List.append_nil] at hdigits
    exact ⟨s, _, hs, .whole hdigits, hbs⟩

theorem isText_iff {bs : Bytes} {l : Literal} :
    IsText bs l ↔ ∃ n e, Positional 10 ((divide bs).whole ++ (divide bs).places) n ∧
      IsExponent (divide bs).rest e ∧
      l = ⟨(divide bs).negative, n, e - (divide bs).places.length⟩ := by
  constructor
  · rintro ⟨hsign, hm, hdigits, hexponent⟩
    rw [divide_append hsign hm hdigits hexponent]
    exact ⟨_, _, hdigits, hexponent, rfl⟩
  · rintro ⟨n, e, hdigits, hexponent, rfl⟩
    obtain ⟨s, m, hs, hm, hbs⟩ := exists_mantissa bs hdigits.ne_nil
    generalize divide bs = d at *
    rw [hbs]
    exact .intro hs hm hdigits hexponent

/-- A text is one literal only. -/
theorem IsText.unique {l l' : Literal} (h : IsText bs l) (h' : IsText bs l') : l = l' := by
  obtain ⟨n, e, hn, he, rfl⟩ := isText_iff.1 h
  obtain ⟨n', e', hn', he', rfl⟩ := isText_iff.1 h'
  rw [hn.unique hn', he.unique he']

end divide

/-- Two exponents agree, or both are out of reach on the same side. -/
def Alike (e e' : ℤ) : Prop :=
  e = e' ∨ exponentBound ≤ e ∧ exponentBound ≤ e' ∨ e ≤ -exponentBound ∧ e' ≤ -exponentBound

section exponent

variable {bs ex : Bytes} {e : ℤ} {l : Literal}

/-- Once the bound is reached, the digits that follow only raise the number. -/
theorem foldl_appendDigit (ds : Bytes) {m n : ℕ} (h : m = n ∨ exponentBound ≤ m ∧ m ≤ n) :
    ds.foldl appendDigit m = ds.foldl (fun n b => 10 * n + (b.toNat - 0x30)) n ∨
      exponentBound ≤ ds.foldl appendDigit m ∧
        ds.foldl appendDigit m ≤ ds.foldl (fun n b => 10 * n + (b.toNat - 0x30)) n := by
  induction ds generalizing m n with
  | nil => exact h
  | cons b ds ih =>
    rw [List.foldl_cons, List.foldl_cons]
    refine ih ?_
    rw [appendDigit]
    split
    · rcases h with rfl | ⟨hm, -⟩
      · exact .inl rfl
      · omega
    · omega

theorem alike_withSign (negative : Bool) (ds : Bytes) :
    Alike (withSign negative (decimalValue ds)) (withSign negative (ds.foldl appendDigit 0)) := by
  have h := foldl_appendDigit ds (.inl (rfl : 0 = 0))
  rw [← decimalValue] at h
  unfold Alike withSign
  cases negative
  · simp only [Bool.false_eq_true, if_false]
    omega
  · simp only [if_true]
    omega

theorem exponent?_cons {b : UInt8} (hb : b = 0x65 ∨ b = 0x45) :
    exponent? (b :: bs) =
      if (sign bs).2.isEmpty || !(sign bs).2.all Bytes.isDigit then none
      else some (withSign (sign bs).1 ((sign bs).2.foldl appendDigit 0)) := by
  rw [exponent?, if_pos hb]
  rfl

theorem exponent?_of_isExponent (h : IsExponent ex e) :
    ∃ e', exponent? ex = some e' ∧ Alike e e' := by
  cases ex with
  | nil =>
    cases h
    exact ⟨0, rfl, .inl rfl⟩
  | cons b bs =>
    obtain ⟨hb, n, hn, rfl⟩ := isExponent_cons_iff.1 h
    obtain ⟨hne, hds, rfl⟩ := positional_ten_iff.1 hn
    have hempty : (sign bs).2.isEmpty = false := by simpa using hne
    rw [exponent?_cons hb, hempty, List.all_eq_true.2 hds]
    exact ⟨_, rfl, alike_withSign ..⟩

theorem exists_isExponent {e' : ℤ} (h : exponent? ex = some e') : ∃ e, IsExponent ex e := by
  cases ex with
  | nil => exact ⟨0, .absent⟩
  | cons b bs =>
    by_cases hb : b = 0x65 ∨ b = 0x45
    · rw [exponent?_cons hb] at h
      split at h
      · cases h
      · rename_i hdigits
        simp only [Bool.or_eq_true, List.isEmpty_iff, Bool.not_eq_true', not_or, Bool.not_eq_false,
          List.all_eq_true] at hdigits
        exact ⟨_, isExponent_cons_iff.2
          ⟨hb, _, positional_ten_iff.2 ⟨hdigits.1, hdigits.2, rfl⟩, rfl⟩⟩
    · rw [exponent?, if_neg hb] at h
      cases h

/-- The reader takes exactly the texts of the grammar, with an exponent like the one written. -/
theorem read?_of_isText (h : IsText bs l) :
    ∃ e e', IsExponent (divide bs).rest e ∧ Alike e e' ∧
      l.exponent = e - (divide bs).places.length ∧
      read? bs = some { l with exponent := e' - (divide bs).places.length } := by
  obtain ⟨n, e, hn, he, rfl⟩ := isText_iff.1 h
  obtain ⟨e', he', halike⟩ := exponent?_of_isExponent he
  refine ⟨e, e', he, halike, rfl, ?_⟩
  rw [read?_eq, digits?_eq_some_iff.2 hn, he']
  rfl

theorem read?_isSome_iff : (read? bs).isSome ↔ ∃ l, IsText bs l := by
  constructor
  · intro h
    obtain ⟨l, hl⟩ := Option.isSome_iff_exists.1 h
    rw [read?_eq] at hl
    simp only [Option.bind_eq_bind, Option.bind_eq_some_iff] at hl
    obtain ⟨n, hn, e', he', -⟩ := hl
    obtain ⟨e, he⟩ := exists_isExponent he'
    exact ⟨_, isText_iff.2 ⟨n, e, digits?_eq_some_iff.1 hn, he, rfl⟩⟩
  · rintro ⟨l, hl⟩
    obtain ⟨e, e', -, -, -, hread⟩ := read?_of_isText hl
    rw [hread]
    rfl

end exponent

end Literal

end PdfFunctions.Decimal
