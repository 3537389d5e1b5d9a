import PdfFunctions.Proofs.NumberSpans

namespace PdfFunctions

open Bytes

/-- `base#digits` with the value `v`. -/
inductive RadixLiteral : Bytes → ℕ → Prop where
  | intro {base digits : Bytes} {b v : ℕ} (hbase : Positional 10 base b) (hlo : 2 ≤ b)
      (hhi : b ≤ 36) (hdigits : Positional b digits v) (hmax : v ≤ 2 ^ 63 - 1) :
      RadixLiteral (base ++ 0x23 :: digits) v

def RadixLiteral.Accepted (bs : Bytes) (v : ℕ) : Prop :=
  RadixLiteral bs v ∨ ∃ ds, bs = 0x2B :: ds ∧ RadixLiteral ds v

namespace Numeral

section parts

variable {base digits : Bytes} {b v : ℕ}

/-- The number that a digit string gives, if it can be a base. -/
theorem range_eq_some_iff {ds : Bytes} :
    (do
      let base ← Decimal.Literal.digits? ds
      if 2 ≤ base ∧ base ≤ 36 then some base else none) = some b ↔
        Positional 10 ds b ∧ 2 ≤ b ∧ b ≤ 36 := by
  rw [← digits?_eq_some_iff]
  cases Decimal.Literal.digits? ds with
  | none => simp
  | some n =>
    simp only [Option.bind_eq_bind, Option.bind_some, Option.ite_none_right_eq_some,
      Option.some.injEq]
    constructor
    · rintro ⟨h, rfl⟩
      exact ⟨rfl, h⟩
    · rintro ⟨rfl, h⟩
      exact ⟨h, rfl⟩

theorem plus_notMem (h : Positional 10 base b) : 0x2B ∉ base := by
  intro hplus
  obtain ⟨d, hd⟩ := h.mem hplus
  exact absurd (isDigitOf_ten.1 hd).1 (by decide)

theorem mark_notMem {n : ℕ} (h : Positional n digits v) : 0x23 ∉ digits := by
  intro hmark
  obtain ⟨d, hd, -⟩ := h.mem hmark
  exact absurd hd (by decide +revert)

/-- A plus sign may stand before the base. -/
theorem base?_eq_some_iff :
    base? base = some b ↔
      (Positional 10 base b ∨ ∃ ds, base = 0x2B :: ds ∧ Positional 10 ds b) ∧ 2 ≤ b ∧ b ≤ 36 := by
  by_cases hplus : ∃ ds, base = 0x2B :: ds
  · obtain ⟨ds, rfl⟩ := hplus
    have hno : ¬ Positional 10 (0x2B :: ds) b := fun h => plus_notMem h (List.mem_cons_self ..)
    rw [or_iff_right hno]
    refine range_eq_some_iff.trans (and_congr_left' ⟨fun h => ⟨ds, rfl, h⟩, ?_⟩)
    rintro ⟨ds', heq, h⟩
    obtain rfl := (List.cons.inj heq).2
    exact h
  · have hno : ¬ ∃ ds, base = 0x2B :: ds ∧ Positional 10 ds b := fun ⟨ds, h, _⟩ => hplus ⟨ds, h⟩
    rw [or_iff_left hno, ← range_eq_some_iff]
    unfold base?
    split
    · exact absurd ⟨_, rfl⟩ hplus
    · rfl

theorem radix?_eq_some_iff :
    radix? base digits = some v ↔
      ∃ b, base? base = some b ∧ Positional b digits v ∧ v ≤ 2 ^ 63 - 1 := by
  simp only [radix?, Option.bind_eq_bind, Option.bind_eq_some_iff, positional_iff]
  refine exists_congr fun b => and_congr_right fun _ => ?_
  cases digits with
  | nil => simp
  | cons c cs =>
    simp only [List.isEmpty_cons, Bool.false_eq_true, if_false, Option.bind_eq_some_iff,
      Option.ite_none_right_eq_some, Option.some.injEq, ne_eq, reduceCtorEq, not_false_eq_true,
      true_and]
    constructor
    · rintro ⟨n, hn, hmax, rfl⟩
      exact ⟨hn, hmax⟩
    · rintro ⟨hn, hmax⟩
      exact ⟨v, hn, hmax, rfl⟩

theorem read?_mark (hmark : 0x23 ∉ base) :
    read? (base ++ 0x23 :: digits) = (radix? base digits).map Binary64.ofNat := by
  have hmaximal : Span.Maximal (· != 0x23) base (0x23 :: digits) :=
    Span.maximal_mark hmark fun c hc => (Option.some.inj hc).symm
  rw [read?, hmaximal.span_append]

end parts

end Numeral

namespace RadixLiteral

open Numeral

variable {base digits bs : Bytes} {v : ℕ}

theorem iff_parts : RadixLiteral (base ++ 0x23 :: digits) v ↔
    ∃ b, Positional 10 base b ∧ 2 ≤ b ∧ b ≤ 36 ∧ Positional b digits v ∧ v ≤ 2 ^ 63 - 1 := by
  constructor
  · intro h
    generalize hbs : base ++ 0x23 :: digits = bs at h
    obtain ⟨hbase, hlo, hhi, hdigits, hmax⟩ := h
    obtain ⟨rfl, -, rfl⟩ := (List.append_cons_inj_of_notMem (mark_notMem hbase)
      (mark_notMem hdigits)).1 hbs.symm
    exact ⟨_, hbase, hlo, hhi, hdigits, hmax⟩
  · rintro ⟨b, hbase, hlo, hhi, hdigits, hmax⟩
    exact .intro hbase hlo hhi hdigits hmax

/-- No literal starts with a sign. -/
theorem not_plus {ds : Bytes} : ¬ RadixLiteral (0x2B :: ds) v := by
  generalize hbs : 0x2B :: ds = bs
  rintro ⟨hbase, -⟩
  obtain ⟨c, cs, rfl⟩ := List.exists_cons_of_ne_nil hbase.ne_nil
  obtain rfl := (List.cons.inj hbs).1
  exact plus_notMem hbase (List.mem_cons_self ..)

theorem unique {v' : ℕ} (h : RadixLiteral bs v) (h' : RadixLiteral bs v') : v = v' := by
  obtain ⟨hbase, -, -, hdigits, -⟩ := h
  obtain ⟨b', hbase', -, -, hdigits', -⟩ := iff_parts.1 h'
  obtain rfl := hbase.unique hbase'
  exact hdigits.unique hdigits'

/-- What is accepted is what the parts on either side of the first `#` give. -/
theorem accepted_iff : Accepted (base ++ 0x23 :: digits) v ↔ radix? base digits = some v := by
  simp only [radix?_eq_some_iff, base?_eq_some_iff]
  constructor
  · rintro (h | ⟨ds, heq, h⟩)
    · obtain ⟨b, hbase, hlo, hhi, hdigits, hmax⟩ := iff_parts.1 h
      exact ⟨b, ⟨.inl hbase, hlo, hhi⟩, hdigits, hmax⟩
    · cases base with
      | nil => exact absurd (List.cons.inj heq).1 (by decide)
      | cons c base =>
        obtain ⟨rfl, rfl⟩ := List.cons.inj heq
        obtain ⟨b, hbase, hlo, hhi, hdigits, hmax⟩ := iff_parts.1 h
        exact ⟨b, ⟨.inr ⟨base, rfl, hbase⟩, hlo, hhi⟩, hdigits, hmax⟩
  · rintro ⟨b, ⟨hbase | ⟨ds, rfl, hbase⟩, hlo, hhi⟩, hdigits, hmax⟩
    · exact .inl (.intro hbase hlo hhi hdigits hmax)
    · exact .inr ⟨_, rfl, .intro hbase hlo hhi hdigits hmax⟩

theorem read?_eq_some_iff (hmark : 0x23 ∈ bs) {x : Float} :
    read? bs = some x ↔ ∃ v, Accepted bs v ∧ x = Binary64.ofNat v := by
  obtain ⟨base, digits, rfl, hbase⟩ := List.eq_append_cons_of_mem hmark
  simp only [read?_mark hbase, Option.map_eq_some_iff, accepted_iff, eq_comm (a := x)]

/-- The lexer takes exactly what is accepted, and its value is rounded to the nearest double. -/
theorem readAs_accepted (hfirst : ∀ b ∈ bs.head?, b < 0x41) (hmark : 0x23 ∈ bs) (p q : ℕ) :
    Item.ReadAs Accepted Nat.cast bs ⟨.ofSpan bs, p, q⟩ := by
  have htoken := Token.ofSpan_of_lt (List.ne_nil_of_mem hmark) hfirst
  cases hread : read? bs with
  | some x =>
    obtain ⟨v, hv, rfl⟩ := (read?_eq_some_iff hmark).1 hread
    rw [hread] at htoken
    exact .inl ⟨v, _, hv, htoken, Binary64.nearest_ofNat v⟩
  | none =>
    rw [hread] at htoken
    refine .inr ⟨fun v hv => ?_, ?_⟩
    · rw [(read?_eq_some_iff hmark).2 ⟨v, hv, rfl⟩] at hread
      cases hread
    · rw [Item.error?, htoken, Option.elim_none]

/-- The plus sign is the only difference between what is a literal and what is accepted. -/
theorem readAs_iff {i : Item} (h : i.ReadAs Accepted Nat.cast bs) :
    i.ReadAs RadixLiteral Nat.cast bs ↔ ¬ ∃ ds v, bs = 0x2B :: ds ∧ RadixLiteral ds v := by
  constructor
  · rintro hread ⟨ds, v, rfl, hv⟩
    rcases hread with ⟨v', -, hv', -⟩ | ⟨-, herror⟩
    · exact not_plus hv'
    · rcases h with ⟨v', x, -, htoken, -⟩ | ⟨hno, -⟩
      · rw [Item.error?, htoken] at herror
        cases herror
      · exact hno v (.inr ⟨ds, rfl, hv⟩)
  · intro hplus
    have hsame (v : ℕ) : Accepted bs v ↔ RadixLiteral bs v :=
      or_iff_left fun ⟨ds, hds, hv⟩ => hplus ⟨ds, v, hds, hv⟩
    simpa only [Item.ReadAs, hsame] using h

end RadixLiteral

namespace Numeral

def unsigned? (bs : Bytes) : Option ℕ :=
  let digits := match bs with
    | 0x2B :: ds => ds
    | ds => ds
  (Decimal.Literal.digits? digits).filter (· < 2 ^ 32)

/-- A signed number of 64 bits in `base`. The conversion is undefined if there are no digits for
that base. -/
def signed? (base : ℕ) (bs : Bytes) : Option (Option ℤ) :=
  if 2 ≤ base ∧ base ≤ 36 then
    let (negative, digits) := Decimal.Literal.sign bs
    let magnitude := if digits.isEmpty then none else digits.natural? base
    some ((magnitude.map fun (n : ℕ) => if negative then -(n : ℤ) else n).filter
      fun n => -2 ^ 63 ≤ n ∧ n < 2 ^ 63)
  else none

/-- A radix literal step by step: the base, the class of the digits, the range of the base, and
only then the conversion. -/
def radixSteps? (base digits : Bytes) : Option (Option ℤ) :=
  match unsigned? base with
  | none => some none
  | some b =>
    let alphanumeric := !digits.isEmpty && digits.all fun c => (digitValue? c).isSome
    if !(2 ≤ b && b ≤ 36) || !alphanumeric then some none else signed? b digits

/-- A number that can be a base fits 32 bits. -/
theorem base?_eq_filter (base : Bytes) :
    base? base = (unsigned? base).filter fun b => 2 ≤ b && b ≤ 36 := by
  simp only [base?, unsigned?]
  generalize Decimal.Literal.digits? _ = n
  cases n with
  | none => rfl
  | some n =>
    simp only [Option.bind_eq_bind, Option.bind_some, Option.filter_some, decide_eq_true_eq]
    split
    · rename_i hrange
      rw [if_pos (by omega), Option.filter_some, if_pos (by simpa using hrange)]
    · rename_i hrange
      split
      · rw [Option.filter_some, if_neg (by simpa using hrange)]
      · rfl

theorem natural?_eq_none {base : ℕ} {digits : Bytes}
    (h : ¬ digits.all fun c => (digitValue? c).isSome) : digits.natural? base = none := by
  rw [Option.eq_none_iff_forall_ne_some]
  intro n hn
  obtain ⟨ds, hds, -⟩ := natural?_eq_some_iff.1 hn
  refine h (List.all_eq_true.2 fun c hc => ?_)
  obtain ⟨d, hd⟩ := exists_isDigitOf hds hc
  rw [hd.1]
  rfl

/-- Letters and digits carry no sign. -/
theorem sign_of_alphanumeric {digits : Bytes} (h : digits.all fun c => (digitValue? c).isSome) :
    Decimal.Literal.sign digits = (false, digits) := by
  unfold Decimal.Literal.sign
  split
  · exact absurd h (by simp +decide)
  · exact absurd h (by simp +decide)
  · rfl

theorem bind_ite_eq_filter (n : Option ℕ) (p : ℕ → Prop) [DecidablePred p] :
    (do let n ← n; if p n then some n else none) = n.filter (p ·) := by
  cases n with
  | none => rfl
  | some n => simp [Option.filter_some]

theorem signed?_of_alphanumeric {base : ℕ} {digits : Bytes} (hlo : 2 ≤ base) (hhi : base ≤ 36)
    (hne : digits.isEmpty = false) (h : digits.all fun c => (digitValue? c).isSome) :
    signed? base digits =
      some (((digits.natural? base).filter (· ≤ maxRadixValue)).map Nat.cast) := by
  have hfits (n : ℕ) : -2 ^ 63 ≤ (n : ℤ) ∧ (n : ℤ) < 2 ^ 63 ↔ n ≤ maxRadixValue := by
    rw [maxRadixValue]
    omega
  simp only [signed?, if_pos (And.intro hlo hhi), sign_of_alphanumeric h, hne, Bool.false_eq_true,
    if_false, Option.filter_map, Function.comp_def, hfits]

/-- The conversion is always defined, and gives what is read in one step. -/
theorem radixSteps?_eq (base digits : Bytes) :
    radixSteps? base digits = some ((radix? base digits).map Nat.cast) := by
  simp only [radixSteps?, radix?, base?_eq_filter, bind_ite_eq_filter]
  cases unsigned? base with
  | none => rfl
  | some b =>
    cases hrange : decide (2 ≤ b) && decide (b ≤ 36) with
    | false =>
      simp only [Option.filter_some, hrange]
      rfl
    | true =>
      obtain ⟨hlo, hhi⟩ : 2 ≤ b ∧ b ≤ 36 := by simpa using hrange
      simp only [Option.filter_some, hrange, if_true, Option.bind_eq_bind, Option.bind_some,
        Bool.not_true, Bool.false_or]
      cases hempty : digits.isEmpty with
      | true => rfl
      | false =>
        -- once all bytes are alphanumeric no sign is left for the signed reading to take
        by_cases halpha : digits.all fun c => (digitValue? c).isSome
        · simp [halpha, signed?_of_alphanumeric hlo hhi hempty halpha]
        · simp [halpha, natural?_eq_none halpha]

end Numeral

namespace Lexer

/-- A span with `#` that starts below `A` is read as a radix literal, or refused at its start with
the lexer behind it. A literal with a plus sign before it is read as well, and this is the only
exception. The conversion of the digits is always defined. -/
theorem next_radix {bs after : Bytes} (hspan : (Span.run bs).Before after)
    (hfirst : ∀ b ∈ bs.head?, b < 0x41) (hmark : 0x23 ∈ bs) (p : ℕ) :
    ∃ i, next ⟨p, bs ++ after⟩ = (some i, ⟨i.stop, after⟩) ∧
      i.start = p ∧ i.stop = p + bs.length ∧
      i.ReadAs RadixLiteral.Accepted Nat.cast bs ∧
      (i.ReadAs RadixLiteral Nat.cast bs ↔ ¬ ∃ ds v, bs = 0x2B :: ds ∧ RadixLiteral ds v) ∧
      ∀ base digits, Numeral.radixSteps? base digits =
        some ((Numeral.radix? base digits).map Nat.cast) := by
  have h := RadixLiteral.readAs_accepted hfirst hmark p (p + bs.length)
  exact ⟨_, next_run hspan p, rfl, rfl, h, RadixLiteral.readAs_iff h, Numeral.radixSteps?_eq⟩

theorem next_radix_hexadecimal :
    ∃ i x, next (ofText (Bytes.ofText "16#FF")) = (some i, ⟨5, []⟩) ∧ i.start = 0 ∧
      i.token = .number x ∧ Binary64.Nearest (255 : ℕ) x := by
  have htext : Bytes.ofText "16#FF" = [0x31, 0x36] ++ 0x23 :: [0x46, 0x46] := by decide +kernel
  have hliteral : RadixLiteral ([0x31, 0x36] ++ 0x23 :: [0x46, 0x46]) 255 :=
    .intro (b := 16) (positional_iff.2 ⟨by decide, rfl⟩) (by omega) (by omega)
      (positional_iff.2 ⟨by decide, rfl⟩) (by omega)
  have hspan : (Span.run ([0x31, 0x36] ++ 0x23 :: [0x46, 0x46])).Before [] :=
    .run (by decide) ⟨by decide +kernel, by simp⟩
  rw [htext]
  obtain ⟨i, hnext, hstart, hstop, -, hread, -⟩ :=
    next_radix hspan (by decide +kernel) (by decide) 0
  have hplus : ¬ ∃ ds v, [0x31, 0x36] ++ 0x23 :: [0x46, 0x46] = 0x2B :: ds ∧ RadixLiteral ds v := by
    rintro ⟨ds, v, h, -⟩
    exact absurd (List.cons.inj h).1 (by decide)
  rw [hstop] at hnext
  rcases hread.2 hplus with ⟨v, x, hv, hx, hnear⟩ | ⟨hno, -⟩
  · obtain rfl := hv.unique hliteral
    exact ⟨i, x, hnext, hstart, hx, hnear⟩
  · exact absurd hliteral (hno 255)

/-- A plus sign before the base is no digit of it, yet the span is read as a number. -/
theorem plus_radix_accepted :
    ∃ i, next (ofText (Bytes.ofText "+16#FF")) = (some i, ⟨6, []⟩) ∧
      i.token = .number (Binary64.ofNat 255) ∧
      ¬ i.ReadAs RadixLiteral Nat.cast (Bytes.ofText "+16#FF") := by
  have htext : Bytes.ofText "+16#FF" = [0x2B, 0x31, 0x36, 0x23, 0x46, 0x46] := by decide +kernel
  rw [htext]
  refine ⟨⟨.number (Binary64.ofNat 255), 0, 6⟩, rfl, rfl, ?_⟩
  rintro (⟨v, -, hv, -⟩ | ⟨-, herror⟩)
  · exact RadixLiteral.not_plus hv
  · cases herror

end Lexer

end PdfFunctions
