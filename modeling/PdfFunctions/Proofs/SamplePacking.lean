import PdfFunctions.Proofs.BitStrings
import PdfFunctions.Proofs.TableBounds

namespace PdfFunctions

open Bits Bytes

namespace Bytes

/-- Values back to back, each as `width` bits. Of the seven bits of `fill`, the last byte takes as
many as it has room for. -/
def pack (width : Nat) (values : List Nat) (fill : Nat) : Bytes :=
  ofBits (spellAll width values ++ spell 7 fill)

/-- What is packed begins with the bits of the values, whatever follows. -/
theorem spellAll_prefix_pack (width : ℕ) (values : List ℕ) (fill : ℕ) (further : Bytes) :
    spellAll width values <+: toBits (pack width values fill ++ further) := by
  rw [toBits_append]
  exact (prefix_toBits_ofBits _ (length_spell 7 fill)).trans (List.prefix_append _ _)

/-- Packed values, and any bytes after them, are the data that begin with the bits of the values. -/
theorem exists_pack_iff {width : ℕ} {values : List ℕ} {data : Bytes} :
    (∃ fill further, data = pack width values fill ++ further) ↔
      spellAll width values <+: data.toBits := by
  constructor
  · rintro ⟨fill, further, rfl⟩
    exact spellAll_prefix_pack width values fill further
  · intro h
    obtain ⟨fill, further, hfill, rfl⟩ := exists_ofBits_of_prefix h
    refine ⟨number fill, further, ?_⟩
    rw [pack, ← hfill, spell_number]

end Bytes

namespace Sampled

variable {α : Type} [Scalar α] {f g : Sampled α}

theorem bitAt_lt_two (data : Array UInt8) (i : ℕ) : bitAt data i < 2 := Nat.mod_lt _ Nat.two_pos

theorem bitsAt_lt (data : Array UInt8) (first count : ℕ) : bitsAt data first count < 2 ^ count := by
  induction count with
  | zero => exact Nat.one_pos
  | succ count ih =>
    have := bitAt_lt_two data (first + count)
    rw [bitsAt, Nat.pow_succ]
    omega

theorem getElem?_toBits {data : Array UInt8} {i : ℕ} (h : i < 8 * data.size) :
    (toBits data.toList)[i]? = some ((bitAt data i).testBit 0) := by
  rw [toBits, getElem?_spellAll (by decide), List.getElem?_map, Array.getElem?_toList,
    getElem?_byte h, Option.map_some, Option.map_some, bitAt, Nat.testBit_zero, Nat.mod_mod,
    ← Nat.testBit_zero, Nat.testBit_shiftRight]
  rfl

/-- What is read spells the bits that it is read from. -/
theorem spell_bitsAt {data : Array UInt8} {first count : ℕ} (h : first + count ≤ 8 * data.size) :
    spell count (bitsAt data first count) = ((toBits data.toList).drop first).take count := by
  induction count with
  | zero => rfl
  | succ count ih =>
    rw [bitsAt, spell_double_add (bitAt_lt_two data _), ih (by omega), List.take_add_one,
      List.getElem?_drop, getElem?_toBits (by omega), Option.toList_some]

def numbersAt (data : Array UInt8) (width count : Nat) : List Nat :=
  (List.range count).map fun k => bitsAt data (k * width) width

theorem spellAll_numbersAt {data : Array UInt8} {width count : ℕ}
    (h : count * width ≤ 8 * data.size) :
    spellAll width (numbersAt data width count) = (toBits data.toList).take (count * width) := by
  induction count with
  | zero => simp [numbersAt, spellAll]
  | succ count ih =>
    rw [Nat.succ_mul] at h ⊢
    have hlast : spellAll width [bitsAt data (count * width) width] =
        ((toBits data.toList).drop (count * width)).take width := by
      rw [← spell_bitsAt h]
      exact List.append_nil _
    rw [List.take_add, ← ih (by omega), ← hlast, ← spellAll_append, numbersAt, List.range_succ,
      List.map_append]
    rfl

def appendBit (data : Array UInt8) (word : UInt32) (i : Nat) : UInt32 :=
  word <<< 1 ||| ((data.getD (i / 8) 0 >>> (7 - i % 8).toUInt8) &&& 1).toUInt32

/-- The sample as it is read, bit by bit into a word of 32 bits. -/
def sampleWord (f : Sampled α) (index j : Nat) : UInt32 :=
  let first := (index * f.channels.length + j) * f.bits
  (List.range' first f.bits).foldl (appendBit f.samples) 0

theorem toNat_bit (data : Array UInt8) (i : ℕ) :
    ((data.getD (i / 8) 0 >>> (7 - i % 8).toUInt8) &&& 1).toUInt32.toNat = bitAt data i := by
  have hshift : ((7 - i % 8).toUInt8).toNat % 8 = 7 - i % 8 := by
    have hlt : 7 - i % 8 < 2 ^ 8 := by omega
    rw [Nat.toUInt8, UInt8.toNat_ofNat_of_lt' hlt]
    omega
  rw [UInt8.toNat_toUInt32, UInt8.toNat_and, UInt8.toNat_shiftRight, hshift]
  exact Nat.and_one_is_mod _

/-- While the highest bit of the word is free, nothing is lost. -/
theorem toNat_appendBit {data : Array UInt8} {word : UInt32} (h : word.toNat < 2 ^ 31) (i : ℕ) :
    (appendBit data word i).toNat = 2 * word.toNat + bitAt data i := by
  have hdouble : (word <<< 1).toNat = word.toNat <<< 1 := by
    have hlt : word.toNat <<< 1 < 2 ^ 32 := by
      rw [Nat.shiftLeft_eq]
      omega
    exact (UInt32.toNat_shiftLeft word 1).trans (Nat.mod_eq_of_lt hlt)
  rw [appendBit, UInt32.toNat_or, toNat_bit, hdouble,
    ← Nat.shiftLeft_add_eq_or_of_lt (bitAt_lt_two data i), Nat.shiftLeft_eq, Nat.mul_comm]

theorem toNat_foldl_appendBit (data : Array UInt8) (first : ℕ) {count : ℕ} (h : count ≤ 32) :
    ((List.range' first count).foldl (appendBit data) 0).toNat = bitsAt data first count := by
  induction count with
  | zero => rfl
  | succ count ih =>
    have hword := ih (by omega)
    have hfree : bitsAt data first count < 2 ^ 31 :=
      (bitsAt_lt data first count).trans_le (Nat.pow_le_pow_right Nat.two_pos (by omega))
    rw [List.range'_1_concat, List.foldl_append, List.foldl_cons, List.foldl_nil,
      toNat_appendBit (hword ▸ hfree), hword]
    rfl

theorem toNat_sampleWord (hf : f.Sound) (index j : ℕ) :
    (f.sampleWord index j).toNat = f.sample index j := by
  have hwidth : ∀ bits ∈ sampleWidths, bits ≤ 32 := by decide
  exact toNat_foldl_appendBit _ _ (hwidth _ hf.width)

def entries (f : Sampled α) : Nat := (f.axes.map Axis.size).prod

def readings (f : Sampled α) : List Nat :=
  numbersAt f.samples f.bits (f.entries * f.channels.length)

theorem length_readings (f : Sampled α) :
    f.readings.length = f.entries * f.channels.length := by
  simp [readings, numbersAt]

theorem lt_of_mem_readings {v : ℕ} (hv : v ∈ f.readings) : v < 2 ^ f.bits := by
  obtain ⟨k, -, rfl⟩ := List.mem_map.1 hv
  exact bitsAt_lt _ _ _

theorem getElem?_readings {index j : ℕ} (hindex : index < f.entries)
    (hj : j < f.channels.length) :
    f.readings[index * f.channels.length + j]? = some (f.sample index j) := by
  have hlt : index * f.channels.length + j < f.entries * f.channels.length := by
    rw [Nat.add_comm, Nat.mul_comm f.entries]
    exact add_mul_lt hj hindex
  rw [readings, numbersAt, List.getElem?_map, List.getElem?_range hlt]
  rfl

/-- Values in the order of the table are the readings if they are the samples. -/
theorem eq_readings_iff {values : List ℕ}
    (hvalues : values.length = f.entries * f.channels.length) :
    values = f.readings ↔ ∀ index < f.entries, ∀ j < f.channels.length,
      values[index * f.channels.length + j]? = some (f.sample index j) := by
  constructor
  · rintro rfl index hindex j hj
    exact getElem?_readings hindex hj
  · intro h
    refine List.ext_getElem? fun k => ?_
    by_cases hk : k < f.entries * f.channels.length
    · have hpos : 0 < f.channels.length :=
        Nat.pos_of_ne_zero fun h0 => by simp [h0] at hk
      have hindex : k / f.channels.length < f.entries :=
        Nat.div_lt_of_lt_mul (by rwa [Nat.mul_comm])
      have hj := Nat.mod_lt k hpos
      -- position k is channel k mod n of entry k div n, n being the number of channels
      have hsplit : k / f.channels.length * f.channels.length + k % f.channels.length = k :=
        Nat.div_add_mod' k _
      rw [← hsplit, h _ hindex _ hj, getElem?_readings hindex hj]
    · rw [List.getElem?_eq_none (by omega), List.getElem?_eq_none]
      rw [length_readings]
      omega

/-- The bits of the table are those of its samples. -/
theorem spellAll_readings (hf : f.Accepted) :
    spellAll f.bits f.readings =
      (toBits f.samples.toList).take (f.entries * f.channels.length * f.bits) := by
  refine spellAll_numbersAt ?_
  rw [Nat.mul_comm f.entries]
  exact hf.backed.bits_le

/-- The data begin with given values exactly if these are read from them. -/
theorem exists_pack_iff_eq_readings (hf : f.Accepted) {values : List ℕ}
    (hlength : values.length = f.entries * f.channels.length)
    (hvalues : ∀ v ∈ values, v < 2 ^ f.bits) :
    (∃ fill further, f.samples.toList = pack f.bits values fill ++ further) ↔
      values = f.readings := by
  have htable := spellAll_readings hf
  rw [exists_pack_iff, List.prefix_iff_eq_take, length_spellAll, hlength, ← htable]
  constructor
  · exact spellAll_inj (hlength.trans (length_readings f).symm) hvalues
      fun v hv => lt_of_mem_readings hv
  · rintro rfl
    rfl

/-- Tables of one shape with the same samples have the same bits. -/
theorem take_toBits_eq_iff (hf : f.Accepted) (hg : g.Accepted) (hbits : g.bits = f.bits)
    (hentries : g.entries = f.entries) (hchannels : g.channels.length = f.channels.length) :
    let used := f.entries * f.channels.length * f.bits
    (toBits f.samples.toList).take used = (toBits g.samples.toList).take used ↔
      ∀ index < f.entries, ∀ j < f.channels.length, f.sample index j = g.sample index j := by
  have hlength : f.readings.length = g.entries * g.channels.length := by
    rw [length_readings, hentries, hchannels]
  have hspell := spellAll_readings hg
  rw [hbits, hentries, hchannels] at hspell
  intro used
  rw [← spellAll_readings hf, ← hspell]
  -- at one width the spelling is injective, since every reading fits it
  have hsame : spellAll f.bits f.readings = spellAll f.bits g.readings ↔
      f.readings = g.readings := by
    refine ⟨spellAll_inj (hlength.trans (length_readings g).symm) ?_ ?_, congrArg _⟩
    · exact fun v hv => lt_of_mem_readings hv
    · exact hbits ▸ fun v hv => lt_of_mem_readings hv
  rw [hsame, eq_readings_iff hlength, hentries, hchannels]
  refine forall₂_congr fun index hindex => forall₂_congr fun j hj => ?_
  rw [getElem?_readings hindex hj, Option.some.injEq]

theorem of_make {domain range : Intervals α} {sizes : List ℕ} {bits : ℕ} {samples : Array UInt8}
    (h : make domain range sizes bits samples = .ok f) :
    f.samples = samples ∧ f.bits = bits ∧ f.channels.length = range.length ∧
      f.entries = sizes.prod := by
  obtain ⟨hchecks, rfl⟩ := make_eq_ok_iff.1 h
  refine ⟨rfl, rfl, List.length_map _, ?_⟩
  rw [entries, map_size_start hchecks.sizes_length]

/-- A table over packed values is accepted if its bits can be counted in 64 bits, and its samples
are the values then. The data of an accepted table begin with given values exactly if these are its
samples, so that tables of one shape with the same samples have the same bits. A word of 32 bits is
enough for each sample. -/
theorem sample_pack {α : Type} [Scalar α] :
    (∀ {domain range : Intervals α} {sizes : List ℕ} {bits : ℕ} {values : List ℕ} (fill : ℕ)
      (further : Bytes), Shape domain range sizes bits →
      values.length = sizes.prod * range.length → (∀ v ∈ values, v < 2 ^ bits) →
      let data := (pack bits values fill ++ further).toArray
      ((∃ f, make domain range sizes bits data = .ok f) ↔
        range.length * sizes.prod * bits < 2 ^ 64) ∧
      ∀ f, make domain range sizes bits data = .ok f →
        ∀ index < sizes.prod, ∀ j < range.length,
          values[index * range.length + j]? = some (f.sample index j)) ∧
    (∀ {f : Sampled α}, f.Accepted →
      (∀ index j, (f.sampleWord index j).toNat = f.sample index j) ∧
      ∀ {values : List ℕ}, values.length = f.entries * f.channels.length →
        (∀ v ∈ values, v < 2 ^ f.bits) →
        ((∃ fill further, f.samples.toList = pack f.bits values fill ++ further) ↔
          ∀ index < f.entries, ∀ j < f.channels.length,
            values[index * f.channels.length + j]? = some (f.sample index j))) ∧
    ∀ {f g : Sampled α}, f.Accepted → g.Accepted → g.bits = f.bits → g.entries = f.entries →
      g.channels.length = f.channels.length →
      let used := f.entries * f.channels.length * f.bits
      ((toBits f.samples.toList).take used = (toBits g.samples.toList).take used ↔
        ∀ index < f.entries, ∀ j < f.channels.length, f.sample index j = g.sample index j) := by
  refine ⟨fun {domain range sizes bits values} fill further hshape hlength hvalues => ?_,
    fun {f} hf => ⟨toNat_sampleWord hf.sound, fun hlength hvalues => ?_⟩,
    fun hf hg => take_toBits_eq_iff hf hg⟩
  · refine ⟨?_, fun f hf => ?_⟩
    · have hle := (spellAll_prefix_pack bits values fill further).length_le
      rw [length_spellAll, length_toBits, hlength, Nat.mul_comm sizes.prod] at hle
      exact (exists_make_iff hshape).trans (and_iff_left hle)
    · obtain ⟨hsamples, rfl, hchannels, hentries⟩ := of_make hf
      rw [← hchannels, ← hentries] at hlength ⊢
      rw [← eq_readings_iff hlength, ← exists_pack_iff_eq_readings (.make hf) hlength hvalues]
      exact ⟨fill, further, by rw [hsamples]⟩
  · rw [exists_pack_iff_eq_readings hf hlength hvalues, eq_readings_iff hlength]

/-- Nine values of twelve bits fill thirteen bytes and a half. -/
theorem sample_pack_of_twelve_bits :
    let values := [0xABC, 0x123, 0xFFF, 0, 1, 0x800, 0x7FF, 0x555, 0xDEF]
    values.length = 3 * 3 ∧ (∀ v ∈ values, v < 2 ^ 12) ∧
      pack 12 values 0 =
        [0xAB, 0xC1, 0x23, 0xFF, 0xF0, 0, 0, 0x18, 0, 0x7F, 0xF5, 0x55, 0xDE, 0xF0] ∧
      ∃ (domain range : Intervals Float) (f g : Sampled Float), Shape domain range [3] 12 ∧
        make domain range [3] 12 (pack 12 values 0).toArray = .ok f ∧
        make domain range [3] 12 (pack 12 values 127 ++ [7]).toArray = .ok g ∧
        f.Accepted ∧ g.Accepted ∧ f.sample 2 1 = 0x555 ∧ (f.sampleWord 2 1).toNat = 0x555 ∧
        (∃ fill further, g.samples.toList = pack g.bits values fill ++ further) ∧
        (toBits f.samples.toList).take 108 = (toBits g.samples.toList).take 108 := by
  intro values
  have hvalues : ∀ v ∈ values, v < 2 ^ 12 := by decide
  let unit : Interval Float := ⟨0, 1, by decide +kernel⟩
  have hshape : Shape [unit] [unit, unit, unit] [3] 12 :=
    ⟨by decide, by decide, rfl, by decide, by decide⟩
  obtain ⟨hpacked, hread, hbits⟩ := sample_pack (α := Float)
  obtain ⟨hmake, hsamples⟩ := hpacked 0 [] hshape rfl hvalues
  obtain ⟨hmake', hsamples'⟩ := hpacked 127 [7] hshape rfl hvalues
  obtain ⟨f, hf⟩ := hmake.2 (by decide)
  obtain ⟨g, hg⟩ := hmake'.2 (by decide)
  have hsample := Option.some.inj (hsamples f hf 2 (by decide) 1 (by decide))
  obtain ⟨-, hbitsf, hchannelsf, hentriesf⟩ := of_make hf
  obtain ⟨-, hbitsg, hchannelsg, hentriesg⟩ := of_make hg
  have hsame := (hbits (.make hf) (.make hg) (hbitsg.trans hbitsf.symm)
    (hentriesg.trans hentriesf.symm) (hchannelsg.trans hchannelsf.symm)).2
  rw [hbitsf, hchannelsf, hentriesf] at hsame
  refine ⟨rfl, hvalues, by decide, [unit], [unit, unit, unit], f, g, hshape, hf, hg, .make hf,
    .make hg, hsample.symm, ((hread (.make hf)).1 2 1).trans hsample.symm, ?_, ?_⟩
  · refine ((hread (.make hg)).2 ?_ ?_).2 ?_
    · rw [hchannelsg, hentriesg]
      rfl
    · rwa [hbitsg]
    · rw [hchannelsg, hentriesg]
      exact hsamples' g hg
  · refine hsame fun index hindex j hj => Option.some.inj ?_
    exact (hsamples f hf index hindex j hj).symm.trans (hsamples' g hg index hindex j hj)

end Sampled

end PdfFunctions
