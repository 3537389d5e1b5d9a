import Mathlib
import PdfFunctions.Stack

namespace PdfFunctions

open Float.Model (UnpackedFloat Format totalExponent)
open Float.Model.UnpackedFloat (Sign pack unpack packComponents unpackSign unpackExponent
  unpackMantissa)

theorem ofBitVec_toBitVec (s : Sign) : Sign.ofBitVec s.toBitVec = s := by
  cases s <;> rfl

theorem unpackSign_packComponents {spec : Format} {s : Sign}
    {exponent : BitVec spec.exponentBits} {mantissa : BitVec spec.mantissaBitsWithoutImplicit} :
    unpackSign (packComponents spec s exponent mantissa) = s.toBitVec := by
  ext i hi
  obtain rfl : i = 0 := by omega
  simp [unpackSign, packComponents, BitVec.getLsbD_append, BitVec.getElem_append]

/-- The leading bit is not stored. -/
theorem toNat_implicit {m : Nat} (hlo : 2 ^ 52 ≤ m) (hhi : m < 2 ^ 53) :
    (1#1 ++ BitVec.ofNat 52 m).toNat = m := by
  rw [BitVec.toNat_append, ← Nat.shiftLeft_add_eq_or_of_lt (BitVec.isLt _), BitVec.toNat_ofNat]
  change 2 ^ 52 + m % 2 ^ 52 = m
  omega

theorem log2_eq {m : Nat} (hlo : 2 ^ 52 ≤ m) (hhi : m < 2 ^ 53) : m.log2 = 52 := by
  have hne : m ≠ 0 := by omega
  exact (Nat.log2_eq_iff hne).2 ⟨hlo, hhi⟩

/-- A mantissa of 53 bits comes back, with an exponent in range. -/
theorem unpack_pack {s : Sign} {m : Nat} {e : Int} (hm : 0 < m) (hlo : 2 ^ 52 ≤ m)
    (hhi : m < 2 ^ 53) (helo : -1075 < e) (hehi : e < 972) :
    unpack Format.binary64 (pack Format.binary64 (.finite s m e hm)) = .finite s m e hm := by
  obtain ⟨b, hb⟩ : ∃ b : Nat, e + 1075 = b := ⟨(e + 1075).toNat, by omega⟩
  have hbiased : (e + Format.binary64.exponentBias +
      Format.binary64.mantissaBitsWithoutImplicit).toNat = b := by
    change (e + 1023 + 52).toNat = b
    omega
  have hexponent : (BitVec.ofNat 11 b).toNat = b := Nat.mod_eq_of_lt (by omega)
  have hnormal : m.log2 + 1 = Format.binary64.mantissaBits := congrArg (· + 1) (log2_eq hlo hhi)
  have hfits : ¬ 2 ^ Format.binary64.exponentBits ≤ b + 1 := by
    change ¬ 2048 ≤ b + 1
    omega
  have hne (c : BitVec 11) (h : b ≠ c.toNat) : BitVec.ofNat 11 b ≠ c := by
    rintro rfl
    exact h hexponent.symm
  -- the two exponents that mean something else: infinity or NaN, and zero or subnormal
  have hones : BitVec.ofNat 11 b ≠ -1#_ := hne _ (show b ≠ 2047 by omega)
  have hzero : BitVec.ofNat 11 b ≠ 0#_ := hne _ (show b ≠ 0 by omega)
  simp only [pack, hbiased, if_neg hfits, if_pos hnormal, unpack,
    UnpackedFloat.unpackMantissa_packComponents, UnpackedFloat.unpackExponent_packComponents,
    unpackSign_packComponents, ofBitVec_toBitVec, if_neg hones, if_neg hzero,
    toNat_implicit hlo hhi, hexponent, UnpackedFloat.finite.injEq, true_and]
  change (b : Int) - (1023 + 52) = e
  omega

theorem targetExponent_eq {t : Int} (ht : -1021 ≤ t) :
    Format.binary64.targetExponent t = t - 53 := by
  change max (t - 53) (3 - 1024 - 53) = t - 53
  omega

/-- A mantissa of 53 bits is not shifted. -/
theorem shiftToTargetExponent_eq {m : Nat} {e : Int} (hlog : m.log2 = 52) (he : -1074 ≤ e) :
    UnpackedFloat.shiftToTargetExponent Format.binary64 m e .exact = (⟨m, false, false⟩, e) := by
  have htarget : Format.binary64.targetExponent (totalExponent m e) = e := by
    rw [totalExponent, hlog, targetExponent_eq (by omega)]
    omega
  rw [UnpackedFloat.shiftToTargetExponent, htarget, UnpackedFloat.shiftToExponent, Int.sub_self]
  simp only [Int.toNat_zero, Int.ofNat_zero, Int.add_zero]
  rfl

def normalShift (n : Nat) : Nat := 52 - n.log2

theorem log2_le {n : Nat} (hn : n ≠ 0) (hlt : n < 2 ^ 53) : n.log2 ≤ 52 :=
  Nat.le_of_lt_succ ((Nat.log2_lt hn).2 hlt)

theorem mantissa_of_normalShift {n : Nat} (hn : n ≠ 0) (hlt : n < 2 ^ 53) :
    2 ^ 52 ≤ n <<< normalShift n ∧ n <<< normalShift n < 2 ^ 53 := by
  have hle := log2_le hn hlt
  obtain ⟨hlo, hhi⟩ := (Nat.log2_eq_iff hn).1 (rfl : n.log2 = n.log2)
  rw [normalShift, Nat.shiftLeft_eq]
  constructor
  · calc 2 ^ 52 = 2 ^ n.log2 * 2 ^ (52 - n.log2) := by rw [← Nat.pow_add]; congr 1; omega
      _ ≤ n * 2 ^ (52 - n.log2) := Nat.mul_le_mul_right _ hlo
  · calc n * 2 ^ (52 - n.log2) < 2 ^ (n.log2 + 1) * 2 ^ (52 - n.log2) :=
          Nat.mul_lt_mul_of_pos_right hhi (Nat.two_pow_pos _)
      _ = 2 ^ 53 := by rw [← Nat.pow_add]; congr 1; omega

theorem round_eq {n : Nat} (hn : n ≠ 0) (hlt : n < 2 ^ 53) (s : Sign) :
    ∃ hm, UnpackedFloat.round Format.binary64 s n 0 =
      .finite s (n <<< normalShift n) (-normalShift n) hm := by
  obtain ⟨hlo, hhi⟩ := mantissa_of_normalShift hn hlt
  have hle := log2_le hn hlt
  have htarget : Format.binary64.targetExponent (totalExponent n 0) = -(normalShift n : Int) := by
    rw [totalExponent, targetExponent_eq (by omega), normalShift]
    omega
  have hshift : UnpackedFloat.decreaseExponent n 0 (-(normalShift n : Int)) =
      (n <<< normalShift n, -(normalShift n : Int)) := by
    simp [UnpackedFloat.decreaseExponent]
  -- the significand has its full length already, so nothing is shifted out
  have hexact := shiftToTargetExponent_eq (e := -(normalShift n : Int)) (log2_eq hlo hhi)
    (by rw [normalShift]; omega)
  have hrounded : UnpackedFloat.ExtendedMantissa.roundedMantissa
      ⟨n <<< normalShift n, false, false⟩ = n <<< normalShift n := rfl
  have hm : n <<< normalShift n ≠ 0 := by omega
  refine ⟨Nat.pos_of_ne_zero hm, ?_⟩
  simp only [UnpackedFloat.round, htarget, hshift, UnpackedFloat.roundWithAccuracy, hexact,
    hrounded, dif_neg hm]

theorem unpack_pack_round {n : Nat} (hn : n ≠ 0) (hlt : n < 2 ^ 53) (s : Sign) :
    ∃ hm, unpack Format.binary64 (pack Format.binary64
      (UnpackedFloat.round Format.binary64 s n 0)) =
        .finite s (n <<< normalShift n) (-normalShift n) hm := by
  obtain ⟨hm, hround⟩ := round_eq hn hlt s
  obtain ⟨hlo, hhi⟩ := mantissa_of_normalShift hn hlt
  have hshift : normalShift n ≤ 52 := Nat.sub_le _ _
  rw [hround]
  exact ⟨hm, unpack_pack hm hlo hhi (by omega) (by omega)⟩

theorem wholePart_normalShift (n : Nat) :
    Binary64.wholePart (n <<< normalShift n) (-normalShift n) = n := by
  rw [Binary64.wholePart]
  split
  · have hzero : normalShift n = 0 := by omega
    rw [hzero]
    rfl
  · rw [Int.neg_neg, Int.toNat_natCast, Nat.shiftLeft_shiftRight]

namespace Binary64

theorem unpack_ofInt (n : Int) :
    (ofInt n).toModel.unpack = unpack Format.binary64
      (pack Format.binary64 (UnpackedFloat.ofInt Format.binary64 n)) := rfl

/-- Integers of at most 53 bits are doubles. -/
theorem toInt?_ofInt {n : Int} (hn : n.natAbs < 2 ^ 53) : toInt? (ofInt n) = some n := by
  rw [toInt?, unpack_ofInt, UnpackedFloat.ofInt, UnpackedFloat.normalize]
  rcases Int.lt_trichotomy n 0 with hneg | rfl | hpos
  · obtain ⟨hm, hround⟩ := unpack_pack_round (n := (-n).toNat) (by omega) (by omega) .negative
    simp only [Int.compare_eq_lt.2 hneg, hround, wholePart_normalShift]
    exact congrArg some (by omega)
  · rfl
  · obtain ⟨hm, hround⟩ := unpack_pack_round (n := n.toNat) (by omega) (by omega) .positive
    simp only [Int.compare_eq_gt.2 hpos, hround, wholePart_normalShift]
    exact congrArg some (by omega)

end Binary64

/-- An operand that stands for an integer of at most 53 bits. -/
theorem Stack.integer_ofInt (op : String) {n : Int} (hn : n.natAbs < 2 ^ 53) :
    Stack.integer op (Binary64.ofInt n) = .ok n := by
  rw [Stack.integer, Binary64.toInt?_ofInt hn]
  exact if_pos (by omega)

end PdfFunctions
