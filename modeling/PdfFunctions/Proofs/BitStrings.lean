import Mathlib.Algebra.Ring.Nat
import Mathlib.Data.List.Induction
import PdfFunctions.Bytes

namespace PdfFunctions

namespace Bits

/-- The lowest `width` bits of a number. -/
def spell : Nat → Nat → List Bool
  | 0, _ => []
  | width + 1, n => spell width (n / 2) ++ [n.testBit 0]

def number (bs : List Bool) : Nat := bs.foldl (fun n b => 2 * n + b.toNat) 0

/-- Numbers back to back, each as `width` bits. -/
def spellAll (width : Nat) (ns : List Nat) : List Bool := ns.flatMap (spell width)

theorem length_spell (width n : ℕ) : (spell width n).length = width := by
  induction width generalizing n with
  | zero => rfl
  | succ width ih => rw [spell, List.length_append, ih, List.length_singleton]

theorem number_append_singleton (bs : List Bool) (b : Bool) :
    number (bs ++ [b]) = 2 * number bs + b.toNat := by
  rw [number, List.foldl_append]
  rfl

theorem number_spell (width n : ℕ) : number (spell width n) = n % 2 ^ width := by
  induction width generalizing n with
  | zero =>
    rw [Nat.pow_zero, Nat.mod_one]
    rfl
  | succ width ih =>
    rw [spell, number_append_singleton, ih, Nat.toNat_testBit, Nat.pow_zero, Nat.div_one,
      Nat.pow_succ', Nat.mod_mul, Nat.add_comm]

theorem number_spell_of_lt {width n : ℕ} (h : n < 2 ^ width) : number (spell width n) = n := by
  rw [number_spell, Nat.mod_eq_of_lt h]

/-- With one bit more on the right. -/
theorem spell_double_add {b : ℕ} (hb : b < 2) (width n : ℕ) :
    spell (width + 1) (2 * n + b) = spell width n ++ [b.testBit 0] := by
  have hrest : (2 * n + b) / 2 = n := by omega
  have hlast : (2 * n + b).testBit 0 = b.testBit 0 := by
    rw [Nat.testBit_zero, Nat.testBit_zero, Nat.mul_add_mod]
  rw [spell, hrest, hlast]

theorem spell_number (bs : List Bool) : spell bs.length (number bs) = bs := by
  induction bs using List.reverseRecOn with
  | nil => rfl
  | append_singleton bs b ih =>
    have hlast : b.toNat.testBit 0 = b := by cases b <;> rfl
    rw [List.length_append, List.length_singleton, number_append_singleton,
      spell_double_add b.toNat_lt, ih, hlast]

theorem number_lt (bs : List Bool) : number bs < 2 ^ bs.length := by
  induction bs using List.reverseRecOn with
  | nil => exact Nat.one_pos
  | append_singleton bs b ih =>
    have := b.toNat_le
    rw [number_append_singleton, List.length_append, List.length_singleton, Nat.pow_succ]
    omega

theorem getElem?_spell {width n i : ℕ} (h : i < width) :
    (spell width n)[i]? = some (n.testBit (width - 1 - i)) := by
  induction width generalizing n with
  | zero => exact absurd h (Nat.not_lt_zero i)
  | succ width ih =>
    rw [spell, List.getElem?_append, length_spell]
    split
    · rename_i hi
      have hindex : width + 1 - 1 - i = width - 1 - i + 1 := by omega
      rw [ih hi, Nat.testBit_div_two, hindex]
    · have hi : i = width := by omega
      subst hi
      simp

theorem spellAll_cons (width n : ℕ) (ns : List ℕ) :
    spellAll width (n :: ns) = spell width n ++ spellAll width ns := rfl

theorem spellAll_append (width : ℕ) (ns ms : List ℕ) :
    spellAll width (ns ++ ms) = spellAll width ns ++ spellAll width ms := List.flatMap_append

theorem length_spellAll (width : ℕ) (ns : List ℕ) :
    (spellAll width ns).length = ns.length * width := by
  induction ns with
  | nil => exact (Nat.zero_mul width).symm
  | cons n ns ih =>
    rw [spellAll_cons, List.length_append, length_spell, ih, List.length_cons, Nat.succ_mul,
      Nat.add_comm]

theorem getElem?_spellAll {width : ℕ} (hwidth : 0 < width) (ns : List ℕ) (i : ℕ) :
    (spellAll width ns)[i]? = ns[i / width]?.map (·.testBit (width - 1 - i % width)) := by
  induction ns generalizing i with
  | nil => rfl
  | cons n ns ih =>
    rw [spellAll_cons, List.getElem?_append, length_spell]
    split
    · rename_i hi
      rw [getElem?_spell hi, Nat.div_eq_of_lt hi, Nat.mod_eq_of_lt hi]
      rfl
    · rename_i hi
      have hle := Nat.not_lt.1 hi
      rw [ih, Nat.div_eq_sub_div hwidth hle, Nat.mod_eq_sub_mod hle]
      rfl

/-- Numbers that fit the width are known from their bits. -/
theorem spellAll_inj {width : ℕ} {ns ms : List ℕ} (hlength : ns.length = ms.length)
    (hns : ∀ n ∈ ns, n < 2 ^ width) (hms : ∀ m ∈ ms, m < 2 ^ width)
    (h : spellAll width ns = spellAll width ms) : ns = ms := by
  induction ns generalizing ms with
  | nil => exact (List.eq_nil_of_length_eq_zero hlength.symm).symm
  | cons n ns ih =>
    obtain ⟨m, ms, rfl⟩ := List.exists_cons_of_length_eq_add_one hlength.symm
    obtain ⟨hn, hns⟩ := List.forall_mem_cons.1 hns
    obtain ⟨hm, hms⟩ := List.forall_mem_cons.1 hms
    obtain ⟨hfirst, hrest⟩ := List.append_inj h (by rw [length_spell, length_spell])
    have heq : n = m := by
      rw [← number_spell_of_lt hn, hfirst, number_spell_of_lt hm]
    rw [heq, ih (Nat.succ.inj hlength) hns hms hrest]

end Bits

namespace Bytes

open Bits

def toBits (data : Bytes) : List Bool := spellAll 8 (data.map UInt8.toNat)

/-- Eight bits to a byte. Fewer at the end are dropped. -/
def ofBits : List Bool → Bytes
  | b₇ :: b₆ :: b₅ :: b₄ :: b₃ :: b₂ :: b₁ :: b₀ :: bs =>
    UInt8.ofNat (number [b₇, b₆, b₅, b₄, b₃, b₂, b₁, b₀]) :: ofBits bs
  | _ => []

theorem length_toBits (data : Bytes) : data.toBits.length = 8 * data.length := by
  rw [toBits, length_spellAll, List.length_map, Nat.mul_comm]

theorem toBits_cons (b : UInt8) (data : Bytes) :
    toBits (b :: data) = spell 8 b.toNat ++ data.toBits := rfl

theorem toBits_append (data rest : Bytes) : toBits (data ++ rest) = data.toBits ++ rest.toBits := by
  rw [toBits, List.map_append, spellAll_append]
  rfl

theorem toBits_take (data : Bytes) (n : ℕ) : toBits (data.take n) = data.toBits.take (8 * n) := by
  rcases Nat.le_total n data.length with h | h
  · have hlength : (toBits (data.take n)).length = 8 * n := by
      rw [length_toBits, List.length_take, Nat.min_eq_left h]
    conv_rhs => rw [← List.take_append_drop n data, toBits_append]
    rw [← hlength, List.take_left]
  · rw [List.take_of_length_le h, List.take_of_length_le]
    rw [length_toBits]
    exact Nat.mul_le_mul_left 8 h

theorem ofBits_append {byte : List Bool} (h : byte.length = 8) (bs : List Bool) :
    ofBits (byte ++ bs) = UInt8.ofNat (number byte) :: ofBits bs :=
  match byte, h with
  | [_, _, _, _, _, _, _, _], _ => rfl

theorem ofBits_of_lt {bs : List Bool} (h : bs.length < 8) : ofBits bs = [] := by
  unfold ofBits
  split
  · simp only [List.length_cons] at h
    omega
  · rfl

/-- Bytes are made up again from their bits. -/
theorem ofBits_toBits_append (data : Bytes) {bs : List Bool} (h : bs.length < 8) :
    ofBits (data.toBits ++ bs) = data := by
  induction data with
  | nil => exact ofBits_of_lt h
  | cons b data ih =>
    rw [toBits_cons, List.append_assoc, ofBits_append (length_spell 8 _), ih,
      number_spell_of_lt b.toNat_lt, UInt8.ofNat_toNat]

/-- Bits are those of the bytes made of them, and fewer than eight more. -/
theorem exists_toBits_ofBits_append (bs : List Bool) :
    ∃ rest, rest.length < 8 ∧ (ofBits bs).toBits ++ rest = bs := by
  -- eight bits at a time, so the induction is on the length
  induction h : bs.length using Nat.strongRecOn generalizing bs with
  | ind n ih =>
    by_cases hshort : bs.length < 8
    · exact ⟨bs, hshort, by rw [ofBits_of_lt hshort]; rfl⟩
    · have hbyte : (bs.take 8).length = 8 := by
        rw [List.length_take]
        omega
      have hdrop : (bs.drop 8).length < n := by
        rw [List.length_drop]
        omega
      obtain ⟨rest, hrest, heq⟩ := ih _ hdrop (bs.drop 8) rfl
      have hlt := number_lt (bs.take 8)
      rw [hbyte] at hlt
      have hspell := spell_number (bs.take 8)
      rw [hbyte] at hspell
      refine ⟨rest, hrest, ?_⟩
      conv_lhs => rw [← List.take_append_drop 8 bs]
      rw [ofBits_append hbyte, toBits_cons, UInt8.toNat_ofNat_of_lt' hlt, hspell, List.append_assoc,
        heq, List.take_append_drop]

/-- Seven bits more are enough for whole bytes. -/
theorem prefix_toBits_ofBits (bs : List Bool) {fill : List Bool} (h : fill.length = 7) :
    bs <+: (ofBits (bs ++ fill)).toBits := by
  obtain ⟨rest, hrest, hbits⟩ := exists_toBits_ofBits_append (bs ++ fill)
  have hlength := congrArg List.length hbits
  rw [List.length_append, List.length_append] at hlength
  refine List.prefix_of_prefix_length_le (List.prefix_append _ _)
    (hbits ▸ List.prefix_append _ _) ?_
  omega

/-- Data that begin with some bits are bytes made of these and seven bits more, and what follows. -/
theorem exists_ofBits_of_prefix {bs : List Bool} {data : Bytes} (h : bs <+: data.toBits) :
    ∃ fill further, fill.length = 7 ∧ data = ofBits (bs ++ fill) ++ further := by
  obtain ⟨rest, hbits⟩ := h
  have hlength := congrArg List.length hbits
  rw [List.length_append, length_toBits] at hlength
  -- the bytes that hold the bits, and how many bits are left in the last of them
  let count := (bs.length + 7) / 8
  let room := 8 * count - bs.length
  have htaken : (rest.take room).length = room := by
    rw [List.length_take]
    omega
  have htake : toBits (data.take count) = bs ++ rest.take room := by
    rw [toBits_take, ← hbits, List.take_append, List.take_of_length_le (by omega)]
  have hzeros : (List.replicate (7 - room) false).length < 8 := by
    rw [List.length_replicate]
    omega
  refine ⟨rest.take room ++ List.replicate (7 - room) false, data.drop count, ?_, ?_⟩
  · rw [List.length_append, htaken, List.length_replicate]
    omega
  · rw [← List.append_assoc, ← htake, ofBits_toBits_append _ hzeros, List.take_append_drop]

end Bytes

end PdfFunctions
