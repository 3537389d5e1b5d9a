import PdfFunctions.Proofs.DecimalGrammar

namespace PdfFunctions.Decimal

open Bytes

namespace Literal

section value

variable {bs : Bytes} {l : Literal}

/-- A literal is converted to the nearest double. -/
theorem nearest_value (l : Literal) : Binary64.Nearest l.toRat l.value := by
  have h := (Binary64.rounded_ofDecimal l.negative l.coefficient l.exponent).nearest (by positivity)
  obtain ⟨negative, n, e⟩ := l
  cases negative
  · exact h
  · exact h

open Binary64 in
/-- Far enough out an exponent no longer matters. -/
theorem ofScientific_of_large {n : ℕ} (hn : 0 < n) {e : ℤ} (he : 2 ^ 11 < e) :
    ofScientific n e = packed (.infinity .positive) := by
  rw [ofScientific_eq]
  split
  · rfl
  · rw [Float.Model.UnpackedFloat.ofScientific, dif_neg hn.ne', if_pos he]

open Binary64 in
theorem ofScientific_of_small {n : ℕ} {e : ℤ} (he : n = 0 ∨ e < -(2 ^ 11 + n.log2)) :
    ofScientific n e = packed (.zero .positive) := by
  rw [ofScientific_eq, if_neg]
  · rw [Float.Model.UnpackedFloat.ofScientific]
    split
    · rfl
    · rename_i hn
      have he := he.resolve_left hn
      rw [if_neg (by change ¬ 2 ^ 11 < e; omega), if_pos he]
  -- so small a number cannot be in the range that overflows, which is tested first
  · rw [Bool.and_eq_true, decide_eq_true_eq, decide_eq_true_eq]
    rintro ⟨hbig, hlarge⟩
    have hone (k : ℕ) : 1 ≤ 1 <<< k := by
      rw [Nat.one_shiftLeft]
      exact Nat.one_le_two_pow
    rcases he with rfl | he
    · exact absurd (hone 1024) (by omega)
    · have hlt : n < 10 ^ (-e).toNat :=
        calc n < 2 ^ (n.log2 + 1) := Nat.lt_log2_self
          _ ≤ 2 ^ (-e).toNat := Nat.pow_le_pow_right (by decide) (by omega)
          _ ≤ 10 ^ (-e).toNat := Nat.pow_le_pow_left (by decide) _
      have hle := Nat.mul_le_mul_right (10 ^ (-e).toNat) (hone 1024)
      change 1 <<< 1024 * 10 ^ (-e).toNat ≤ n at hlarge
      omega

/-- A decimal digit is less than four binary ones. -/
theorem log2_le_of_positional {ds : Bytes} {n : ℕ} (h : Positional 10 ds n) :
    n.log2 ≤ 4 * ds.length := by
  obtain ⟨ns, hns, rfl⟩ := h.digits
  have hlt := Nat.ofDigits_lt_base_pow_length (b := 10) (l := ns.reverse) (by decide) ?_
  · rw [List.length_reverse, ← hns.length_eq] at hlt
    rcases Nat.eq_zero_or_pos (Nat.ofDigits 10 ns.reverse) with hzero | hpos
    · rw [hzero, Nat.log2_zero]
      exact Nat.zero_le _
    · refine Nat.le_of_lt ((Nat.log2_lt hpos.ne').2 (hlt.trans_le ?_))
      rw [pow_mul]
      exact Nat.pow_le_pow_left (by decide) _
  · intro d hd
    obtain ⟨i, hi, rfl⟩ := List.getElem_of_mem (List.mem_reverse.1 hd)
    exact ((List.forall₂_iff_get.1 hns).2 i (hns.length_eq ▸ hi) hi).2

theorem ofScientific_of_alike {n k : ℕ} {e e' : ℤ} (h : Alike e e') (hk : k ≤ 15000)
    (hn : n.log2 ≤ 60000) :
    Binary64.ofScientific n (e - k) = Binary64.ofScientific n (e' - k) := by
  have hbound : (exponentBound : ℤ) = 65536 := rfl
  rcases Nat.eq_zero_or_pos n with hzero | hpos
  · rw [ofScientific_of_small (.inl hzero), ofScientific_of_small (.inl hzero)]
  · rcases h with rfl | ⟨he, he'⟩ | ⟨he, he'⟩
    · rfl
    · rw [ofScientific_of_large hpos (by omega), ofScientific_of_large hpos (by omega)]
    · rw [ofScientific_of_small (.inr (by omega)), ofScientific_of_small (.inr (by omega))]

theorem IsMantissa.length_le {m whole places : Bytes} (h : IsMantissa m whole places) :
    (whole ++ places).length ≤ m.length := by
  cases h <;> simp

theorem length_digits_le (h : IsText bs l) :
    ((divide bs).whole ++ (divide bs).places).length ≤ bs.length := by
  obtain ⟨n, e, hn, -, -⟩ := isText_iff.1 h
  obtain ⟨s, m, -, hm, hbs⟩ := exists_mantissa bs hn.ne_nil
  have hlength := congrArg List.length hbs
  rw [List.length_append, List.length_append] at hlength
  exact hm.length_le.trans (by omega)

/-- Without an exponent mark there is no exponent. -/
theorem exponent_eq_zero (h : IsText bs l) (hbs : 0x65 ∉ bs ∧ 0x45 ∉ bs) {e : ℤ}
    (he : IsExponent (divide bs).rest e) : e = 0 := by
  obtain ⟨n, -, hn, -, -⟩ := isText_iff.1 h
  obtain ⟨s, m, -, -, heq⟩ := exists_mantissa bs hn.ne_nil
  have hrest {b : UInt8} (hb : b ∈ (divide bs).rest) : b ∈ bs := by
    rw [heq]
    exact List.mem_append_right _ (List.mem_append_right _ hb)
  cases hr : (divide bs).rest with
  | nil =>
    rw [hr] at he
    cases he
    rfl
  | cons b ds =>
    rw [hr] at he hrest
    obtain ⟨rfl | rfl, -⟩ := isExponent_cons_iff.1 he
    · exact absurd (hrest (List.mem_cons_self ..)) hbs.1
    · exact absurd (hrest (List.mem_cons_self ..)) hbs.2

def Moderate (bs : Bytes) : Prop := bs.length ≤ 15000 ∨ 0x65 ∉ bs ∧ 0x45 ∉ bs

/-- The reader cuts long exponents, but the double is that of the exponent as written. -/
theorem read?_map_value (h : IsText bs l) (hbs : Moderate bs) :
    (read? bs).map value = some l.value := by
  obtain ⟨e, e', hexponent, halike, hl, hread⟩ := read?_of_isText h
  have hsame : Binary64.ofScientific l.coefficient (e - (divide bs).places.length) =
      Binary64.ofScientific l.coefficient (e' - (divide bs).places.length) := by
    rcases hbs with hlength | hmark
    · have hdigits := length_digits_le h
      obtain ⟨n, -, hn, -, rfl⟩ := isText_iff.1 h
      have hlog := log2_le_of_positional hn
      rw [List.length_append] at hdigits hlog
      exact ofScientific_of_alike halike (by omega) (by dsimp only; omega)
    · obtain rfl := exponent_eq_zero h hmark hexponent
      obtain rfl : e' = 0 := by
        unfold Alike at halike
        have hbound : (exponentBound : ℤ) = 65536 := rfl
        omega
      rfl
  rw [hread, Option.map_some, value, value, Binary64.ofDecimal, Binary64.ofDecimal, hl, hsame]

end value

end Literal

open Literal

/-- A word in place of a number, in any case. -/
inductive IsWord : Bytes → Prop where
  | intro {sign word : Bytes} {negative : Bool} (hsign : IsSign sign negative)
      (hword : latin1 (word.map toLower) ∈ ["inf", "infinity", "nan"]) : IsWord (sign ++ word)

/-- What is documented of a reader of decimal texts: it takes the grammar and the words, and rounds
correctly. -/
structure DocumentedAt (reader : Bytes → Option Float) (bs : Bytes) : Prop where
  takes : (reader bs).isSome ↔ (∃ l, IsText bs l) ∨ IsWord bs
  nearest : ∀ l x, IsText bs l → reader bs = some x → Binary64.Nearest l.toRat x

def isNumberByte (b : UInt8) : Bool :=
  Bytes.isDigit b || b == 0x2B || b == 0x2D || b == 0x2E || b == 0x65 || b == 0x45

section reader

variable {bs : Bytes}

theorem isNumberByte_of_isDigit {b : UInt8} (h : Bytes.isDigit b = true) :
    isNumberByte b = true := by
  simp [isNumberByte, h]

theorem isNumberByte_of_isSign {s : Bytes} {negative : Bool} (h : IsSign s negative) :
    ∀ b ∈ s, isNumberByte b = true := by
  cases h with
  | absent => exact fun b hb => absurd hb List.not_mem_nil
  | _ =>
    intro b hb
    rw [List.mem_singleton.1 hb]
    rfl

theorem isNumberByte_of_isMantissa {m whole places : Bytes} (h : IsMantissa m whole places)
    (hdigits : ∀ b ∈ whole ++ places, Bytes.isDigit b = true) : ∀ b ∈ m, isNumberByte b = true := by
  have hmem (b : UInt8) (hb : b ∈ m) : b = 0x2E ∨ b ∈ whole ++ places := by
    cases h with
    | whole => exact .inr (List.mem_append_left _ hb)
    | point =>
      rw [List.mem_append, List.mem_cons, or_left_comm] at hb
      rwa [List.mem_append]
    | fraction => exact List.mem_cons.1 hb
  intro b hb
  rcases hmem b hb with rfl | hdigit
  · rfl
  · exact isNumberByte_of_isDigit (hdigits b hdigit)

theorem isNumberByte_of_isExponent {ex : Bytes} {e : ℤ} (h : IsExponent ex e) :
    ∀ b ∈ ex, isNumberByte b = true := by
  cases h with
  | absent => exact fun b hb => absurd hb List.not_mem_nil
  | present hmark hsign hds =>
    intro b hb
    rcases List.mem_cons.1 hb with rfl | hb
    · rcases hmark with rfl | rfl <;> rfl
    · rcases List.mem_append.1 hb with hb | hb
      · exact isNumberByte_of_isSign hsign b hb
      · exact isNumberByte_of_isDigit (hds.all_isDigit b hb)

theorem all_isNumberByte {l : Literal} (h : IsText bs l) : bs.all isNumberByte = true := by
  obtain ⟨hsign, hm, hdigits, hexponent⟩ := h
  rw [List.all_append, List.all_append, Bool.and_eq_true, Bool.and_eq_true]
  exact ⟨List.all_eq_true.2 (isNumberByte_of_isSign hsign),
    List.all_eq_true.2 (isNumberByte_of_isMantissa hm hdigits.all_isDigit),
    List.all_eq_true.2 (isNumberByte_of_isExponent hexponent)⟩

/-- A word starts with a letter that no number has. -/
theorem exists_letter {word : Bytes}
    (hword : latin1 (word.map toLower) ∈ ["inf", "infinity", "nan"]) :
    ∃ c cs, word = c :: cs ∧ isNumberByte c = false := by
  have hletter (c : UInt8) (hc : Char.ofNat (toLower c).toNat = 'i' ∨
      Char.ofNat (toLower c).toNat = 'n') : isNumberByte c = false := by
    revert c
    decide +kernel
  cases word with
  | nil => exact absurd hword (by decide +kernel)
  | cons c cs =>
    refine ⟨c, cs, rfl, hletter c ?_⟩
    have hhead : ∀ s ∈ ["inf", "infinity", "nan"], s.toList.head? = some 'i' ∨
        s.toList.head? = some 'n' := by decide +kernel
    have h := hhead _ hword
    rw [latin1, String.toList_ofList, List.map_cons, List.map_cons, List.head?_cons] at h
    exact h.imp Option.some.inj Option.some.inj

theorem IsWord.not_all (h : IsWord bs) : bs.all isNumberByte = false := by
  obtain ⟨-, hword⟩ := h
  obtain ⟨c, cs, rfl, hc⟩ := exists_letter hword
  rw [List.all_append, List.all_cons, hc, Bool.false_and, Bool.and_false]

theorem word?_isSome : (word? bs).isSome ↔
    latin1 ((sign bs).2.map toLower) ∈ ["inf", "infinity", "nan"] := by
  simp only [word?, List.mem_cons, List.not_mem_nil, or_false]
  split
  · rename_i h
    simp only [Option.isSome_some, true_iff]
    exact h.imp_right .inl
  · rename_i h
    rw [not_or] at h
    split
    · rename_i h'
      simp [h']
    · rename_i h'
      simp [h, h']

theorem word?_isSome_iff : (word? bs).isSome ↔ IsWord bs := by
  rw [word?_isSome]
  constructor
  · intro h
    obtain ⟨s, hs, hbs⟩ := exists_isSign bs
    rw [hbs]
    exact .intro hs h
  · rintro ⟨hsign, hword⟩
    rw [sign_append hsign]
    · exact hword
    · obtain ⟨c, cs, rfl, hc⟩ := exists_letter hword
      rintro b ⟨⟩
      rw [isSignByte]
      simp only [isNumberByte, Bool.or_eq_false_iff] at hc
      rw [hc.1.1.1.1.2, hc.1.1.1.2]
      rfl

/-- The reader of this library is such a reader on texts of moderate length. -/
theorem documentedAt_parse? (hbs : Moderate bs) : DocumentedAt parse? bs where
  takes := by
    rw [parse?, ← read?_isSome_iff, ← word?_isSome_iff]
    cases Literal.read? bs <;> simp
  nearest l x hl hx := by
    rw [parse?, read?_map_value hl hbs] at hx
    obtain rfl := Option.some.inj hx
    exact nearest_value l

/-- On the bytes of numbers the words are never asked for. -/
theorem map_read?_eq (bs : Bytes) :
    (Literal.read? bs).map value = if bs.all isNumberByte then parse? bs else none := by
  cases hall : bs.all isNumberByte with
  | true =>
    have hword : word? bs = none := by
      rw [← Option.not_isSome_iff_eq_none, word?_isSome_iff]
      intro h
      rw [h.not_all] at hall
      cases hall
    rw [if_pos rfl, parse?, hword]
    cases Literal.read? bs <;> rfl
  | false =>
    have hread : Literal.read? bs = none := by
      rw [← Option.not_isSome_iff_eq_none, read?_isSome_iff]
      rintro ⟨l, hl⟩
      rw [all_isNumberByte hl] at hall
      cases hall
    rw [hread]
    rfl

end reader

end PdfFunctions.Decimal

namespace PdfFunctions

open Decimal Literal

/-- Reads a whole span as a number. What has no `#` is left to `reader`, if all of it can be part of
a decimal literal. -/
def Numeral.readBy (reader : Bytes → Option Float) (bs : Bytes) : Option Float :=
  match bs.span (· != 0x23) with
  | (base, _ :: digits) => (radix? base digits).map Binary64.ofNat
  | (_, []) => if bs.all isNumberByte then reader bs else none

def Token.ofSpanBy (reader : Bytes → Option Float) (bs : Bytes) : Token :=
  (Numeral.readBy reader bs).elim (.malformed bs) .number

section spans

variable {reader : Bytes → Option Float} {bs : Bytes}

theorem Numeral.read?_eq_readBy (bs : Bytes) : Numeral.read? bs = readBy parse? bs := by
  rw [Numeral.read?, readBy]
  rcases bs.span (· != 0x23) with ⟨base, _ | ⟨c, digits⟩⟩
  · exact map_read?_eq bs
  · rfl

theorem Numeral.readBy_of_notMem (hmark : 0x23 ∉ bs) :
    readBy reader bs = if bs.all isNumberByte then reader bs else none := by
  have hmaximal : Span.Maximal (· != 0x23) bs [] := Span.maximal_mark hmark (by simp)
  have hspan := hmaximal.span_append
  rw [List.append_nil] at hspan
  rw [readBy, hspan]

/-- From the lexer such a reader takes the grammar and nothing else. -/
theorem Decimal.DocumentedAt.readBy_isSome_iff (h : DocumentedAt reader bs) (hmark : 0x23 ∉ bs) :
    (Numeral.readBy reader bs).isSome ↔ ∃ l, IsText bs l := by
  rw [Numeral.readBy_of_notMem hmark]
  cases hall : bs.all isNumberByte with
  | true =>
    rw [if_pos rfl, h.takes, or_iff_left]
    intro hword
    rw [hword.not_all] at hall
    cases hall
  | false =>
    rw [if_neg Bool.false_ne_true]
    refine iff_of_false Bool.false_ne_true ?_
    rintro ⟨l, hl⟩
    rw [all_isNumberByte hl] at hall
    cases hall

theorem Decimal.DocumentedAt.readAs (h : DocumentedAt reader bs) (hmark : 0x23 ∉ bs) (p q : ℕ) :
    Item.ReadAs IsText toRat bs ⟨.ofSpanBy reader bs, p, q⟩ := by
  have hiff := h.readBy_isSome_iff hmark
  unfold Token.ofSpanBy
  cases hread : Numeral.readBy reader bs with
  | some x =>
    rw [hread] at hiff
    obtain ⟨l, hl⟩ := hiff.1 rfl
    rw [Numeral.readBy_of_notMem hmark, all_isNumberByte hl, if_pos rfl] at hread
    exact .inl ⟨l, x, hl, rfl, h.nearest l x hl hread⟩
  | none =>
    rw [hread] at hiff
    exact .inr ⟨fun l hl => Bool.false_ne_true (hiff.2 ⟨l, hl⟩), rfl⟩

/-- The acceptance of the lexer needs no assumption. -/
theorem Numeral.readBy_parse?_isSome_iff (hmark : 0x23 ∉ bs) :
    (readBy parse? bs).isSome ↔ ∃ l, IsText bs l := by
  rw [readBy_of_notMem hmark, ← map_read?_eq, Option.isSome_map, read?_isSome_iff]

theorem Token.exists_number_iff (hmark : 0x23 ∉ bs) :
    (∃ x, Token.ofSpanBy parse? bs = .number x) ↔ ∃ l, IsText bs l := by
  rw [← Numeral.readBy_parse?_isSome_iff hmark, ofSpanBy]
  cases Numeral.readBy parse? bs <;> simp

theorem Item.error?_of_not_isText (hmark : 0x23 ∉ bs) (h : ∀ l, ¬ IsText bs l) (p q : ℕ) :
    (⟨.ofSpanBy parse? bs, p, q⟩ : Item).error? = some (.malformedToken p bs) := by
  unfold Token.ofSpanBy
  cases hread : Numeral.readBy parse? bs with
  | none => rfl
  | some x =>
    obtain ⟨l, hl⟩ := (Numeral.readBy_parse?_isSome_iff hmark).1 (by rw [hread]; rfl)
    exact absurd hl (h l)

end spans

namespace Lexer

/-- A span without `#` that starts below `A` is read as a decimal literal, or refused at its start
with the lexer behind it. The value is rounded to the nearest double, by any reader that does what
is documented. -/
theorem next_decimal {bs after : Bytes} (hspan : (Span.run bs).Before after)
    (hfirst : ∀ b ∈ bs.head?, b < 0x41) (hmark : 0x23 ∉ bs) (p : ℕ) :
    ∃ i, next ⟨p, bs ++ after⟩ = (some i, ⟨i.stop, after⟩) ∧
      i.start = p ∧ i.stop = p + bs.length ∧ i.token = .ofSpanBy parse? bs ∧
      ((∃ x, i.token = .number x) ↔ ∃ l, IsText bs l) ∧
      ((∀ l, ¬ IsText bs l) → i.error? = some (.malformedToken p bs)) ∧
      (Moderate bs → i.ReadAs IsText toRat bs) ∧
      ∀ reader, DocumentedAt reader bs →
        Item.ReadAs IsText toRat bs ⟨.ofSpanBy reader bs, p, i.stop⟩ := by
  have hne : bs ≠ [] := by
    cases hspan with
    | run hne => exact hne
  have htoken : Token.ofSpan bs = .ofSpanBy parse? bs := by
    rw [Token.ofSpan_of_lt hne hfirst, Numeral.read?_eq_readBy]
    rfl
  refine ⟨⟨.ofSpan bs, p, p + bs.length⟩, next_run hspan p, rfl, rfl, ?_⟩
  rw [htoken]
  exact ⟨rfl, Token.exists_number_iff hmark, fun h => Item.error?_of_not_isText hmark h _ _,
    fun hbs => (documentedAt_parse? hbs).readAs hmark _ _, fun _ h => h.readAs hmark _ _⟩

theorem next_decimal_exponent :
    ∃ i x, next (ofText (Bytes.ofText "-2.5E-1")) = (some i, ⟨7, []⟩) ∧ i.start = 0 ∧
      i.token = .number x ∧ Binary64.Nearest (-1 / 4) x := by
  have htext : Bytes.ofText "-2.5E-1" = [0x2D, 0x32, 0x2E, 0x35, 0x45, 0x2D, 0x31] := by
    decide +kernel
  have hmantissa : IsMantissa ([0x32] ++ 0x2E :: [0x35]) [0x32] [0x35] := .point (by decide)
  have hdigits : Bytes.Positional 10 [0x32, 0x35] 25 := Bytes.positional_iff.2 ⟨by decide, rfl⟩
  have hexponent : IsExponent [0x45, 0x2D, 0x31] (withSign true 1) :=
    .present (.inr rfl) .minus (Bytes.positional_iff.2 ⟨by decide, rfl⟩)
  have hliteral : IsText [0x2D, 0x32, 0x2E, 0x35, 0x45, 0x2D, 0x31] ⟨true, 25, -1 - 1⟩ :=
    .intro .minus hmantissa hdigits hexponent
  have hmoderate : Moderate [0x2D, 0x32, 0x2E, 0x35, 0x45, 0x2D, 0x31] := .inl (by decide)
  have hspan : (Span.run [0x2D, 0x32, 0x2E, 0x35, 0x45, 0x2D, 0x31]).Before [] :=
    .run (by decide) ⟨by decide +kernel, by simp⟩
  rw [htext]
  obtain ⟨i, hnext, hstart, hstop, htoken, -, -, -, hread⟩ :=
    next_decimal hspan (by decide +kernel) (by decide) 0
  rw [hstop] at hnext
  rcases hread parse? (documentedAt_parse? hmoderate) with ⟨l, x, hl, hx, hnear⟩ | ⟨hno, -⟩
  · obtain rfl := hl.unique hliteral
    refine ⟨i, x, hnext, hstart, htoken.trans hx, ?_⟩
    norm_num [toRat] at hnear ⊢
    exact hnear
  · exact absurd hliteral (hno _)

end Lexer

end PdfFunctions
