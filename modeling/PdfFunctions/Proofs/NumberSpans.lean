import PdfFunctions.Proofs.Lexing
import PdfFunctions.Proofs.Rounding

namespace PdfFunctions

namespace Bytes

def IsDigitOf (base : ℕ) (b : UInt8) (d : ℕ) : Prop := digitValue? b = some d ∧ d < base

/-- One or more digits of `base`, the leading one first, that stand for `n`. -/
structure Positional (base : ℕ) (bs : Bytes) (n : ℕ) : Prop where
  ne_nil : bs ≠ []
  digits : ∃ ds, List.Forall₂ (IsDigitOf base) bs ds ∧ Nat.ofDigits base ds.reverse = n

theorem IsDigitOf.unique {base : ℕ} {b : UInt8} {d d' : ℕ} (h : IsDigitOf base b d)
    (h' : IsDigitOf base b d') : d = d' :=
  Option.some.inj (h.1.symm.trans h'.1)

theorem isDigitOf_ten {b : UInt8} {d : ℕ} :
    IsDigitOf 10 b d ↔ isDigit b = true ∧ d = b.toNat - 0x30 := by
  unfold IsDigitOf digitValue?
  split
  · rename_i hdigit
    have hle : b.toNat ≤ 0x39 := by
      simp only [isDigit, Bool.and_eq_true, decide_eq_true_eq] at hdigit
      exact hdigit.2
    simp only [Option.some.injEq, hdigit, true_and]
    omega
  · rename_i hdigit
    simp only [hdigit, Bool.false_eq_true, false_and, iff_false, not_and, not_lt]
    split
    · rintro ⟨⟩
      omega
    · split
      · rintro ⟨⟩
        omega
      · rintro ⟨⟩

def appendDigit? (base : ℕ) (g : Growing) (b : UInt8) : Option Growing := do
  let d ← digitValue? b
  if d < base then some (g.append base d) else none

theorem appendDigit?_of_isDigitOf {base : ℕ} {b : UInt8} {d : ℕ} (h : IsDigitOf base b d)
    (g : Growing) : appendDigit? base g b = some (g.append base d) := by
  simp [appendDigit?, h.1, h.2]

theorem appendDigit?_eq_none {base : ℕ} {b : UInt8} (h : ∀ d, ¬ IsDigitOf base b d)
    (g : Growing) : appendDigit? base g b = none := by
  rw [appendDigit?]
  cases hvalue : digitValue? b with
  | none => rfl
  | some d => exact if_neg fun hlt => h d ⟨hvalue, hlt⟩

/-- Digit by digit, the accumulated number is that of the digits so far. -/
theorem exists_foldlM_append {base : ℕ} {bs : Bytes} {g : Growing} {n : ℕ} :
    (∃ g', bs.foldlM (appendDigit? base) g = some g' ∧ g'.value = n) ↔
      ∃ ds, List.Forall₂ (IsDigitOf base) bs ds ∧ ds.foldl (base * · + ·) g.value = n := by
  induction bs generalizing g with
  | nil => simp
  | cons b bs ih =>
    simp only [List.foldlM_cons, List.forall₂_cons_left_iff]
    -- a byte that is no digit ends the reading on both sides, and a digit has one value only
    by_cases hb : ∃ d, IsDigitOf base b d
    · obtain ⟨d, hd⟩ := hb
      rw [appendDigit?_of_isDigitOf hd, Option.bind_eq_bind, Option.bind_some, ih,
        Growing.value_append]
      constructor
      · rintro ⟨ds, hds, hvalue⟩
        exact ⟨d :: ds, ⟨d, ds, hd, hds, rfl⟩, hvalue⟩
      · rintro ⟨-, ⟨d', ds, hd', hds, rfl⟩, hvalue⟩
        obtain rfl := hd.unique hd'
        exact ⟨ds, hds, hvalue⟩
    · rw [appendDigit?_eq_none fun d hd => hb ⟨d, hd⟩, Option.bind_eq_bind, Option.bind_none]
      constructor
      · rintro ⟨_, ⟨⟩, _⟩
      · rintro ⟨-, ⟨d, ds, hd, -⟩, -⟩
        exact absurd ⟨d, hd⟩ hb

/-- The leading digit has been read first. -/
theorem ofDigits_reverse (base : ℕ) (ds : List ℕ) :
    Nat.ofDigits base ds.reverse = ds.foldl (base * · + ·) 0 := by
  rw [Nat.ofDigits_eq_foldr, List.foldr_reverse]
  simp [add_comm]

theorem natural?_eq_some_iff {base : ℕ} {bs : Bytes} {n : ℕ} :
    natural? base bs = some n ↔
      ∃ ds, List.Forall₂ (IsDigitOf base) bs ds ∧ Nat.ofDigits base ds.reverse = n := by
  simp only [ofDigits_reverse]
  refine Iff.trans ?_ (exists_foldlM_append (g := {}))
  exact Option.map_eq_some_iff

theorem positional_iff {base : ℕ} {bs : Bytes} {n : ℕ} :
    Positional base bs n ↔ bs ≠ [] ∧ natural? base bs = some n := by
  rw [natural?_eq_some_iff]
  exact ⟨fun h => ⟨h.ne_nil, h.digits⟩, fun ⟨hne, hdigits⟩ => ⟨hne, hdigits⟩⟩

theorem Positional.unique {base : ℕ} {bs : Bytes} {n n' : ℕ} (h : Positional base bs n)
    (h' : Positional base bs n') : n = n' :=
  Option.some.inj ((positional_iff.1 h).2.symm.trans (positional_iff.1 h').2)

theorem digits?_eq_some_iff {bs : Bytes} {n : ℕ} :
    Decimal.Literal.digits? bs = some n ↔ Positional 10 bs n := by
  rw [Decimal.Literal.digits?, positional_iff]
  cases bs <;> simp

theorem exists_isDigitOf {base : ℕ} {bs : Bytes} {ds : List ℕ}
    (h : List.Forall₂ (IsDigitOf base) bs ds) {b : UInt8} (hb : b ∈ bs) :
    ∃ d, IsDigitOf base b d := by
  obtain ⟨i, hi, rfl⟩ := List.getElem_of_mem hb
  have hi' : i < ds.length := h.length_eq ▸ hi
  exact ⟨ds[i], (List.forall₂_iff_get.1 h).2 i hi hi'⟩

/-- What is not the digit of any base is in no digit string. -/
theorem Positional.mem {base : ℕ} {bs : Bytes} {n : ℕ} (h : Positional base bs n) {b : UInt8}
    (hb : b ∈ bs) : ∃ d, IsDigitOf base b d := by
  obtain ⟨ds, hds, -⟩ := h.digits
  exact exists_isDigitOf hds hb

theorem Positional.all_isDigit {ds : Bytes} {n : ℕ} (h : Positional 10 ds n) :
    ∀ b ∈ ds, isDigit b = true := by
  intro b hb
  obtain ⟨d, hd⟩ := h.mem hb
  exact (isDigitOf_ten.1 hd).1

def decimalValue (ds : Bytes) : ℕ := ds.foldl (fun n b => 10 * n + (b.toNat - 0x30)) 0

theorem positional_ten_iff {ds : Bytes} {n : ℕ} :
    Positional 10 ds n ↔ ds ≠ [] ∧ (∀ b ∈ ds, isDigit b = true) ∧ n = decimalValue ds := by
  have h (hne : ds ≠ []) (hds : ∀ b ∈ ds, isDigit b = true) :
      Positional 10 ds (decimalValue ds) := by
    refine ⟨hne, ds.map fun b => b.toNat - 0x30, ?_, ?_⟩
    · rw [List.forall₂_map_right_iff, List.forall₂_same]
      exact fun b hb => isDigitOf_ten.2 ⟨hds b hb, rfl⟩
    · rw [ofDigits_reverse, List.foldl_map]
      rfl
  constructor
  · intro hn
    have hds := hn.all_isDigit
    exact ⟨hn.ne_nil, hds, hn.unique (h hn.ne_nil hds)⟩
  · rintro ⟨hne, hds, rfl⟩
    exact h hne hds

end Bytes

namespace Span

variable {bs after : Bytes}

theorem Maximal.span_append {p : UInt8 → Bool} (h : Maximal p bs after) :
    (bs ++ after).span p = (bs, after) := by
  rw [List.span_eq_takeWhile_dropWhile, h.takeWhile_append, h.dropWhile_append]

/-- Nothing before the first `#` is one. -/
theorem maximal_mark (hmark : 0x23 ∉ bs) (hafter : ∀ b ∈ after.head?, b = 0x23) :
    Maximal (· != 0x23) bs after := by
  constructor
  · intro b hb
    rw [bne_iff_ne]
    rintro rfl
    exact hmark hb
  · intro b hb
    rw [hafter b hb]
    rfl

end Span

/-- The error that the lexer gives in place of a token, with the start of the span. -/
def Item.error? (i : Item) : Option Error :=
  match i.token with
  | .malformed bs => some (.malformedToken i.start bs)
  | _ => none

namespace Token

/-- What starts below `A` is a number or nothing. -/
theorem ofSpan_of_lt {bs : Bytes} (hne : bs ≠ []) (hfirst : ∀ b ∈ bs.head?, b < 0x41) :
    ofSpan bs = (Numeral.read? bs).elim (.malformed bs) .number := by
  generalize hread : ofSpan bs = t
  have h := Span.isRead_ofSpan hne
  rw [hread] at h
  cases h with
  | number hb hx => rw [hx, Option.elim_some]
  | malformed hb hx => rw [hx, Option.elim_none]
  | isTrue => exact absurd (hfirst 0x74 (by decide +kernel)) (by decide)
  | isFalse => exact absurd (hfirst 0x66 (by decide +kernel)) (by decide)
  | name hb => exact absurd (hfirst _ rfl) (UInt8.not_lt.2 hb)

end Token

/-- The lexer reads a run of bytes and stops behind it. -/
theorem Lexer.next_run {bs after : Bytes} (h : (Span.run bs).Before after) (p : ℕ) :
    next ⟨p, bs ++ after⟩ =
      (some ⟨.ofSpan bs, p, p + bs.length⟩, ⟨p + bs.length, after⟩) :=
  next_of_token h rfl p

/-- The item is a number that `literal` gives for `bs`, rounded to the nearest double. If there is
none, it is an error at its start. -/
def Item.ReadAs {α : Type} (literal : Bytes → α → Prop) (value : α → ℚ) (bs : Bytes)
    (i : Item) : Prop :=
  (∃ v x, literal bs v ∧ i.token = .number x ∧ Binary64.Nearest (value v) x) ∨
    (∀ v, ¬ literal bs v) ∧ i.error? = some (.malformedToken i.start bs)

end PdfFunctions
