import PdfFunctions.Proofs.IntegerOperands
import PdfFunctions.Proofs.StackIdentities

namespace PdfFunctions

open Stack StackM Value

namespace Relational

/-- `v` with `s` zeros more on the right, or its 32 bits with `-s` fewer. -/
def scaled (v s : ℤ) : ℤ :=
  if 0 ≤ s then v * 2 ^ s.toNat else v % 2 ^ 32 / 2 ^ (-s).toNat

def Fits (n : ℤ) : Prop := -2 ^ 31 ≤ n ∧ n < 2 ^ 31

instance (n : ℤ) : Decidable (Fits n) := inferInstanceAs (Decidable (_ ∧ _))

def shiftedBits (v s : ℤ) : BitVec 32 :=
  if 0 ≤ s then BitVec.ofInt 32 v <<< s.toNat else BitVec.ofInt 32 v >>> (-s).toNat

variable (v : ℤ) {s : ℤ}

theorem shiftedBits_of_nonneg (hs : 0 ≤ s) :
    shiftedBits v s = BitVec.ofInt 32 v <<< s.toNat := if_pos hs

theorem shiftedBits_of_nonpos (hs : s ≤ 0) :
    shiftedBits v s = BitVec.ofInt 32 v >>> (-s).toNat := by
  rcases hs.lt_or_eq with hneg | rfl
  · exact if_neg (by omega)
  · simp [shiftedBits]

/-- Beyond the cut-offs at 32 no bit would be left anyway. -/
theorem shift_eq_toInt (v s : ℤ) : shift v s = (shiftedBits v s).toInt := by
  rw [shift]
  refine congrArg BitVec.toInt ?_
  by_cases hfar : 32 ≤ s ∨ s ≤ -32
  · rw [if_pos hfar]
    rcases hfar with hleft | hright
    · rw [shiftedBits_of_nonneg v (by omega), BitVec.shiftLeft_eq_zero (by omega)]
      rfl
    · rw [shiftedBits_of_nonpos v (by omega), BitVec.ushiftRight_eq_zero (by omega)]
      rfl
  · rw [if_neg hfar, shiftedBits]

theorem ofInt_shiftLeft (v : ℤ) (k : ℕ) :
    BitVec.ofInt 32 v <<< k = BitVec.ofInt 32 (v * 2 ^ k) := by
  have htwo : BitVec.twoPow 32 k = BitVec.ofInt 32 (2 ^ k) := by
    apply BitVec.eq_of_toNat_eq
    rw [BitVec.toNat_twoPow, BitVec.toNat_ofInt]
    norm_cast
  rw [BitVec.shiftLeft_eq_mul_twoPow, htwo, ← BitVec.ofInt_mul]

theorem ofInt_ushiftRight (v : ℤ) (k : ℕ) :
    BitVec.ofInt 32 v >>> k = BitVec.ofInt 32 (v % 2 ^ 32 / 2 ^ k) := by
  obtain ⟨n, hn⟩ := Int.eq_ofNat_of_zero_le (Int.emod_nonneg v (by decide : (2 : ℤ) ^ 32 ≠ 0))
  have hlt : n < 2 ^ 32 := by omega
  have hdiv : n / 2 ^ k < 2 ^ 32 := (Nat.div_le_self _ _).trans_lt hlt
  have hbits : (BitVec.ofInt 32 v).toNat = n := (BitVec.toNat_ofInt v).trans (congrArg _ hn)
  have hquotient : (n : ℤ) / 2 ^ k = (n / 2 ^ k : ℕ) := by
    push_cast
    rfl
  apply BitVec.eq_of_toNat_eq
  rw [BitVec.toNat_ushiftRight, hbits, hn, hquotient, BitVec.ofInt_natCast, BitVec.toNat_ofNat,
    Nat.mod_eq_of_lt hdiv, Nat.shiftRight_eq_div_pow]

theorem shiftedBits_eq (v s : ℤ) : shiftedBits v s = BitVec.ofInt 32 (scaled v s) := by
  rw [shiftedBits, scaled]
  split
  · exact ofInt_shiftLeft v _
  · exact ofInt_ushiftRight v _

theorem shift_eq_bmod (v s : ℤ) : shift v s = (scaled v s).bmod (2 ^ 32) := by
  rw [shift_eq_toInt, shiftedBits_eq, BitVec.toInt_ofInt]

theorem fits_shift (v s : ℤ) : Fits (shift v s) := by
  rw [shift_eq_toInt]
  exact ⟨BitVec.le_toInt _, BitVec.toInt_lt⟩

/-- The first result is read as an integer with a sign, but what is shifted next are its bits
again. -/
theorem shift_shift {a b : ℤ} (hsign : 0 ≤ a ∧ 0 ≤ b ∨ a ≤ 0 ∧ b ≤ 0) :
    shift (shift v a) b = shift v (a + b) := by
  have hbits : BitVec.ofInt 32 (shift v a) = shiftedBits v a := by
    rw [shift_eq_toInt, BitVec.ofInt_toInt]
  rw [shift_eq_toInt _ b, shift_eq_toInt _ (a + b)]
  refine congrArg BitVec.toInt ?_
  rcases hsign with ⟨ha, hb⟩ | ⟨ha, hb⟩
  · have hadd : (a + b).toNat = a.toNat + b.toNat := by omega
    rw [shiftedBits_of_nonneg _ hb, shiftedBits_of_nonneg _ (by omega), hbits,
      shiftedBits_of_nonneg _ ha, hadd, BitVec.shiftLeft_add]
  · have hadd : (-(a + b)).toNat = (-a).toNat + (-b).toNat := by omega
    rw [shiftedBits_of_nonpos _ hb, shiftedBits_of_nonpos _ (by omega), hbits,
      shiftedBits_of_nonpos _ ha, hadd, BitVec.shiftRight_add]

def amount? (s : Int64) : Option UInt32 :=
  if 0 ≤ s ∧ s < 32 then some (UInt32.ofNat s.toInt.toNat) else none

def negated? (s : Int64) : Option Int64 := if s = Int64.minValue then none else some (-s)

/-- The shift in machine words. It has no result where a step of it would overflow. -/
def shiftWords? (v : Int32) (s : Int64) : Option Int32 :=
  let bits := v.toUInt32
  let shifted? : Option UInt32 :=
    if 32 ≤ s ∨ s ≤ -32 then some 0
    else if 0 ≤ s then (amount? s).map (bits <<< ·)
    else (negated? s).bind fun n => (amount? n).map (bits >>> ·)
  shifted?.map UInt32.toInt32

theorem amount?_eq {s : Int64} (hnonneg : 0 ≤ s.toInt) (hlt : s.toInt < 32) :
    amount? s = some (UInt32.ofNat s.toInt.toNat) :=
  if_pos ⟨Int64.le_iff_toInt_le.2 hnonneg, Int64.lt_iff_toInt_lt.2 hlt⟩

theorem negated?_eq {s : Int64} (hlower : -32 < s.toInt) (hneg : s.toInt < 0) :
    ∃ n, negated? s = some n ∧ n.toInt = -s.toInt := by
  refine ⟨-s, if_neg ?_, ?_⟩
  · rintro rfl
    revert hlower
    decide
  · rw [Int64.toInt_neg, Int.bmod_eq_of_le (by omega) (by omega)]

theorem toNat_amount {k : ℕ} (hk : k < 32) : ((UInt32.ofNat k).toBitVec % 32).toNat = k := by
  rw [BitVec.toNat_umod, UInt32.toBitVec_ofNat', BitVec.toNat_ofNat,
    Nat.mod_eq_of_lt (hk.trans (by decide))]
  exact Nat.mod_eq_of_lt hk

/-- The cut-offs come before the negation and before the shifts, so that neither overflows. -/
theorem shiftWords?_eq (v : Int32) (s : Int64) :
    shiftWords? v s = some (Int32.ofInt (shift v.toInt s.toInt)) := by
  have hbits : v.toUInt32.toBitVec = BitVec.ofInt 32 v.toInt := BitVec.ofInt_toInt.symm
  have hread (y : UInt32) : y.toInt32 = Int32.ofInt y.toBitVec.toInt :=
    congrArg (fun b => Int32.ofUInt32 ⟨b⟩) BitVec.ofInt_toInt.symm
  have hcut : 32 ≤ s ∨ s ≤ -32 ↔ 32 ≤ s.toInt ∨ s.toInt ≤ -32 :=
    or_congr Int64.le_iff_toInt_le Int64.le_iff_toInt_le
  have hsign : 0 ≤ s ↔ 0 ≤ s.toInt := Int64.le_iff_toInt_le
  rw [shiftWords?, shift]
  -- the amount is cut off first, so neither the negation nor the conversion can overflow
  by_cases hfar : 32 ≤ s.toInt ∨ s.toInt ≤ -32
  · rw [if_pos hfar, if_pos (hcut.2 hfar)]
    rfl
  · rw [if_neg hfar, if_neg (mt hcut.1 hfar)]
    by_cases hs : 0 ≤ s.toInt
    · have hamount := toNat_amount (k := s.toInt.toNat) (by omega)
      rw [if_pos hs, if_pos (hsign.2 hs), amount?_eq hs (by omega), ← hbits]
      simp only [Option.map_some, hread, UInt32.toBitVec_shiftLeft, BitVec.shiftLeft_eq', hamount]
    · have hamount := toNat_amount (k := (-s.toInt).toNat) (by omega)
      obtain ⟨n, hn, hvalue⟩ := negated?_eq (s := s) (by omega) (by omega)
      rw [if_neg hs, if_neg (mt hsign.1 hs), hn, Option.bind_some,
        amount?_eq (by omega) (by omega), ← hbits, hvalue]
      simp only [Option.map_some, hread, UInt32.toBitVec_shiftRight, BitVec.ushiftRight_eq',
        hamount]

variable {v} {x y : Float}

def shifted (op : String) (x y : Float) : Except Error Value := do
  let (v, s) ← integers op x y
  if -0x80000000 ≤ v ∧ v < 0x80000000 then return ofInt (shift v s)
  else throw (.rangeCheck op (.tooWide v))

theorem framed_bitshift (op : String) (x y : Float) :
    Framed (bitshift op) [.number y, .number x] (spent (shifted op x y)) := by
  refine (framed_popInts op x y).bind_spent fun (v, s) => ?_
  dsimp only
  split
  · exact .pure _ []
  · exact .throw _ []

theorem shifted_of_standsFor (op : String) (hx : StandsFor x v) (hv : Fits v)
    (hy : StandsFor y s) : shifted op x y = .ok (ofInt (shift v s)) := by
  rw [shifted, integers_of_standsFor op hx hy]
  exact if_pos hv

theorem standsFor_of_fits {n : ℤ} (hn : Fits n) : StandsFor (Binary64.ofInt n) n := by
  obtain ⟨hlower, hlt⟩ := hn
  exact ⟨Binary64.toInt?_eq_some_iff.1 (Binary64.toInt?_ofInt (by omega)), by omega, by omega⟩

variable {t : Stack} {b : List Value}

/-- Shifts what is on top, once by each operand. -/
def shifts (ys : List Float) : List Value :=
  ys.flatMap fun y => [.number y, .operator .bitshift]

theorem direct_shifts (ys : List Float) : ∀ v ∈ shifts ys, v.Direct := by
  refine List.forall_mem_flatMap.2 fun y _ => ?_
  simp [Direct, Operator.runsBody]

theorem act_bitshift (hs : t.values = .number y :: .number x :: b)
    (hlimit : 1 ≤ t.limit) (hlive : t.live ≤ t.limit) (hx : StandsFor x v) (hv : Fits v)
    (hy : StandsFor y s) :
    Operator.bitshift.act t = .ok () (t.holding (ofInt (shift v s) :: b)) := by
  have hframed := framed_bitshift "bitshift" x y
  rw [shifted_of_standsFor _ hx hv hy] at hframed
  have hsettled : Operator.bitshift.Settled _ _ :=
    Operator.settled_of_ok rfl hframed rfl
  have h := hsettled t b hs hlimit hlive
  rwa [if_neg fun hfull => absurd hfull.1 (by decide)] at h

/-- A step of the chain. There is no more on the stack after it than before. -/
theorem enactAll_shifts_cons (ys : List Float) (hs : t.values = .number x :: b)
    (hroom : t.live < t.limit) (hx : StandsFor x v) (hv : Fits v) (hy : StandsFor y s) :
    enactAll (shifts (y :: ys)) t =
      enactAll (shifts ys) (t.holding (ofInt (shift v s) :: b)) := by
  have hlive : (t.cons (.number y)).live ≤ t.limit := by
    rw [live_eq] at hroom ⊢
    simp only [values_cons, List.length_cons, deferred_cons]
    omega
  have hshift := act_bitshift (t := t.cons (.number y)) (congrArg _ hs)
    (Nat.one_le_of_lt hroom) hlive hx hv hy
  exact (bind_of_ok (push_of_lt hroom)).trans (bind_of_ok hshift)

theorem enactAll_shifts {ys : List Float} {ss : List ℤ} (hys : List.Forall₂ StandsFor ys ss)
    (hroom : t.live < t.limit) (hs : t.values = ofInt v :: b) (hv : Fits v) :
    enactAll (shifts ys) t = .ok () (t.holding (ofInt (ss.foldl shift v) :: b)) := by
  induction hys generalizing t v with
  | nil =>
    rw [List.foldl_nil, ← hs, holding_self]
    rfl
  | cons hy hys ih =>
    rw [enactAll_shifts_cons _ hs hroom (standsFor_of_fits hv) hv hy]
    refine ih ?_ rfl (fits_shift _ _)
    rw [live_eq] at hroom ⊢
    rwa [hs] at hroom

end Relational

namespace Machine

open Relational

variable {m : Machine} {b : List Value} {x y : Float} {v s : ℤ}

def ShiftedTo (n : ℤ) (b : List Value) (m : Machine) (r : EStateM.Result Error Machine Unit) :
    Prop :=
  ∃ log, r = .ok () { m with stack := m.stack.holding (ofInt n :: b), log }

theorem shiftedTo_of_chain (l : Limits) (hd : m.depth ≤ 1) (hs : m.stack.values = .number x :: b)
    (hroom : m.stack.live < m.stack.limit) (hx : StandsFor x v) (hv : Fits v)
    (hy : StandsFor y s) {ys : List Float} {ss : List ℤ} (hys : List.Forall₂ StandsFor ys ss) :
    ShiftedTo (ss.foldl shift (shift v s)) b m (acceptAll l (shifts (y :: ys)) m) := by
  have hroom' : (m.stack.holding (ofInt (shift v s) :: b)).live < m.stack.limit := by
    rw [live_eq] at hroom ⊢
    rwa [hs] at hroom
  obtain ⟨log, h⟩ := acceptAll_direct l (direct_shifts (y :: ys)) hd
  rw [enactAll_shifts_cons ys hs hroom hx hv hy,
    enactAll_shifts hys hroom' rfl (fits_shift _ _)] at h
  exact ⟨log, h⟩

/-- On a machine that runs what it takes in, with a 32-bit integer on top and room for one operand
more, shifts by 64-bit integers go through one after the other. Each of them gives the low 32 bits
of the product or quotient, as an integer of 32 bits again, and on machine words no step of it
overflows. Two shifts in one direction are one shift by the sum. -/
theorem shifts_compose (l : Limits) (hd : m.depth ≤ 1) (hs : m.stack.values = .number x :: b)
    (hroom : m.stack.live < m.stack.limit) (hx : StandsFor x v) (hv : Fits v) :
    (∀ s, shift v s = (scaled v s).bmod (2 ^ 32) ∧ Fits (shift v s)) ∧
    (∀ s : Int64, shiftWords? (Int32.ofInt v) s = some (Int32.ofInt (shift v s.toInt))) ∧
    (∀ {y : Float} {s : ℤ} {ys : List Float} {ss : List ℤ}, StandsFor y s →
      List.Forall₂ StandsFor ys ss →
      ShiftedTo (ss.foldl shift (shift v s)) b m (acceptAll l (shifts (y :: ys)) m)) ∧
    (∀ {c d : ℤ}, 0 ≤ c ∧ 0 ≤ d ∨ c ≤ 0 ∧ d ≤ 0 → shift (shift v c) d = shift v (c + d) ∧
      ∀ {y z w : Float}, StandsFor y c → StandsFor z d → StandsFor w (c + d) →
        SameEffect unlogged (acceptAll l (shifts [y, z]) m) (acceptAll l (shifts [w]) m)) := by
  refine ⟨fun s => ⟨shift_eq_bmod v s, fits_shift v s⟩, fun s => ?_,
    fun hy hys => shiftedTo_of_chain l hd hs hroom hx hv hy hys,
    fun hsign => ⟨shift_shift v hsign, fun hy hz hw => ?_⟩⟩
  · rw [shiftWords?_eq, Int32.toInt_ofInt_of_le hv.1 hv.2]
  · obtain ⟨log, htwo⟩ := shiftedTo_of_chain l hd hs hroom hx hv hy (.cons hz .nil)
    obtain ⟨log', hone⟩ := shiftedTo_of_chain l hd hs hroom hx hv hw .nil
    rw [List.foldl_cons, List.foldl_nil, shift_shift v hsign] at htwo
    rw [htwo, hone]
    exact .ok rfl

/-- All bits set, shifted to the right by 20 and by 20 again. -/
theorem shifts_compose_of_ones :
    let m : Machine := { stack := { values := [ofInt (-1)], limit := 2 } }
    let y := Binary64.ofInt (-20)
    let w := Binary64.ofInt (-40)
    ShiftedTo 4095 [] m (acceptAll {} (shifts [y]) m) ∧
      ShiftedTo 0 [] m (acceptAll {} (shifts [y, y]) m) ∧
      SameEffect unlogged (acceptAll {} (shifts [y, y]) m) (acceptAll {} (shifts [w]) m) := by
  intro m y w
  have hx := standsFor_of_fits (n := -1) (by decide)
  have hy := standsFor_of_fits (n := -20) (by decide)
  have hw := standsFor_of_fits (n := -40) (by decide)
  obtain ⟨-, -, hchain, hadd⟩ :=
    shifts_compose {} (m := m) (by decide) rfl (by decide) hx (by decide)
  exact ⟨hchain hy .nil, hchain hy (.cons hy .nil), (hadd (.inr (by decide))).2 hy hy hw⟩

end Machine

end PdfFunctions
