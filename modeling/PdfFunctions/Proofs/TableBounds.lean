import Mathlib.Algebra.Order.BigOperators.GroupWithZero.List
import PdfFunctions.Proofs.SampledTable

namespace PdfFunctions

open Scalar

variable {α : Type} [Scalar α]

def word? (n : Nat) : Option Nat := if n < 2 ^ 64 then some n else none

theorem word?_of_lt {n : Nat} (h : n < 2 ^ 64) : word? n = some n := if_pos h

theorem word?_eq_some_iff {n k : Nat} : word? n = some k ↔ n < 2 ^ 64 ∧ n = k := by
  rw [word?, Option.ite_none_right_eq_some, Option.some.injEq]

namespace Cell

def corner? (stride place : Nat) (share : α) (k : Corner α) : Option (Corner α) := do
  let offset ← word? (place * stride)
  let index ← word? (k.index + offset)
  return ⟨k.weight * share, index⟩

def low? (c : Cell α) (stride : Nat) : Corner α → Option (Corner α) :=
  corner? stride c.lower (ofNat 1 - c.share)

def high? (c : Cell α) (stride : Nat) : Corner α → Option (Corner α) :=
  corner? stride c.upper c.share

end Cell

namespace Sampled

def tableBits? (outputs : Nat) (sizes : List Nat) (bits : Nat) : Option Nat := do
  let count ← sizes.foldlM (fun product n => word? (product * n)) outputs
  word? (count * bits)

def corners? : List (Axis α) → List α → Nat → List (Corner α) → Option (List (Corner α))
  | a :: as, x :: xs, stride, ks => do
    let c := a.cell x
    let below ← ks.mapM (c.low? stride)
    let above ← ks.mapM (c.high? stride)
    let next ← word? (stride * a.size)
    corners? as xs next (below ++ above)
  | _, _, _, ks => some ks

def bitAt? (data : Array UInt8) (i : Nat) : Option Nat := do
  let byte ← data[i / 8]?
  return (byte.toNat >>> (7 - i % 8)) % 2

def bitsAt? (data : Array UInt8) (first : Nat) : Nat → Option Nat
  | 0 => some 0
  | count + 1 => do
    let high ← bitsAt? data first count
    let bit ← bitAt? data (first + count)
    return 2 * high + bit

def sample? (f : Sampled α) (index j : Nat) : Option Nat := do
  let row ← word? (index * f.channels.length)
  let entry ← word? (row + j)
  let first ← word? (entry * f.bits)
  let last ← word? (first + f.bits)
  bitsAt? f.samples first (last - first)

def cornersAt (f : Sampled α) (xs : List α) : List (Corner α) :=
  corners f.axes (f.domain.clip xs) 1 [⟨ofNat 1, 0⟩]

def cornersAt? (f : Sampled α) (xs : List α) : Option (List (Corner α)) :=
  corners? f.axes (f.domain.clip xs) 1 [⟨ofNat 1, 0⟩]

theorem prod_pos_of_notMem {sizes : List Nat} (h : 0 ∉ sizes) : 0 < sizes.prod :=
  List.prod_pos fun _ hn => Nat.pos_of_ne_zero fun h0 => h (h0 ▸ hn)

theorem foldlM_word?_eq {sizes : List Nat} (h : 0 ∉ sizes) {outputs : Nat}
    (hlt : outputs * sizes.prod < 2 ^ 64) :
    sizes.foldlM (fun product n => word? (product * n)) outputs =
      some (outputs * sizes.prod) := by
  induction sizes generalizing outputs with
  | nil => simp
  | cons n sizes ih =>
    obtain ⟨-, h⟩ := not_or.1 (List.mem_cons.not.1 h)
    rw [List.prod_cons, ← Nat.mul_assoc] at hlt ⊢
    have hfirst : outputs * n < 2 ^ 64 :=
      Nat.lt_of_le_of_lt (Nat.le_mul_of_pos_right _ (prod_pos_of_notMem h)) hlt
    rw [List.foldlM_cons, word?_of_lt hfirst]
    exact ih h hlt

theorem eq_of_foldlM_word? {sizes : List Nat} {outputs count : Nat}
    (h : sizes.foldlM (fun product n => word? (product * n)) outputs = some count) :
    count = outputs * sizes.prod := by
  induction sizes generalizing outputs with
  | nil =>
    obtain rfl := Option.some.inj h
    simp
  | cons n sizes ih =>
    rw [List.foldlM_cons] at h
    obtain ⟨product, hproduct, h⟩ := Option.bind_eq_some_iff.1 h
    obtain ⟨-, rfl⟩ := word?_eq_some_iff.1 hproduct
    rw [ih h, List.prod_cons, Nat.mul_assoc]

/-- Where the whole product fits 64 bits, every product on the way does. -/
theorem tableBits?_eq_some_iff {outputs : Nat} {sizes : List Nat} {bits : Nat} (h : 0 ∉ sizes)
    (hbits : bits ≠ 0) :
    tableBits? outputs sizes bits = some (outputs * sizes.prod * bits) ↔
      outputs * sizes.prod * bits < 2 ^ 64 := by
  constructor
  · intro hsome
    obtain ⟨count, hcount, hword⟩ := Option.bind_eq_some_iff.1 hsome
    rw [eq_of_foldlM_word? hcount] at hword
    exact (word?_eq_some_iff.1 hword).1
  · intro hlt
    have hcount := foldlM_word?_eq h (Nat.lt_of_le_of_lt
      (Nat.le_mul_of_pos_right _ (Nat.pos_of_ne_zero hbits)) hlt)
    rw [tableBits?, hcount]
    exact word?_of_lt hlt

theorem tableBits_eq (outputs : Nat) (sizes : List Nat) (bits : Nat) :
    tableBits outputs sizes bits = outputs * sizes.prod * bits := by
  suffices h : sizes.foldl (· * ·) outputs = outputs * sizes.prod by rw [tableBits, h]
  induction sizes generalizing outputs with
  | nil => simp
  | cons n sizes ih => rw [List.foldl_cons, ih, List.prod_cons, Nat.mul_assoc]

structure Shape (domain range : Intervals α) (sizes : List Nat) (bits : Nat) : Prop where
  intervals : domain.length ≠ 0 ∧ range.length ≠ 0
  inputs_le : domain.length ≤ mostInputs
  sizes_length : sizes.length = domain.length
  zero_notMem : 0 ∉ sizes
  width : bits ∈ sampleWidths

theorem Checked.shape {domain range : Intervals α} {sizes : List Nat} {bits : Nat}
    {samples : Array UInt8} (h : Checked domain range sizes bits samples) :
    Shape domain range sizes bits :=
  ⟨not_or.1 h.intervals, h.inputs_le, h.sizes_length, h.zero_notMem, h.width⟩

theorem exists_make_iff {domain range : Intervals α} {sizes : List Nat} {bits : Nat}
    {samples : Array UInt8} (h : Shape domain range sizes bits) :
    (∃ f, make domain range sizes bits samples = .ok f) ↔
      range.length * sizes.prod * bits < 2 ^ 64 ∧
        range.length * sizes.prod * bits ≤ 8 * samples.size := by
  rw [← tableBits_eq]
  constructor
  · rintro ⟨f, hf⟩
    have hchecks := (make_eq_ok_iff.1 hf).1
    have hbytes := hchecks.bytes_le
    exact ⟨hchecks.bits_lt, by omega⟩
  · rintro ⟨hlt, hle⟩
    refine ⟨_, make_eq_ok_iff.2 ⟨⟨?_, h.inputs_le, h.sizes_length, h.zero_notMem, h.width, hlt, ?_⟩,
      rfl⟩⟩
    · exact not_or.2 h.intervals
    · omega

theorem map_size_start {domain : Intervals α} {sizes : List Nat}
    (h : sizes.length = domain.length) :
    (List.zipWith Axis.start domain sizes).map Axis.size = sizes := by
  apply List.ext_getElem
  · simp [h]
  · intro i _ _
    simp [Axis.start]

/-- The bits of the table can be counted in 64 bits, and the data have them all. -/
structure Backed (f : Sampled α) : Prop where
  inputs_le : f.axes.length ≤ mostInputs
  outputs_pos : 0 < f.channels.length
  bits_lt : f.channels.length * (f.axes.map Axis.size).prod * f.bits < 2 ^ 64
  bits_le : f.channels.length * (f.axes.map Axis.size).prod * f.bits ≤ 8 * f.samples.size

theorem Accepted.backed {f : Sampled α} (h : f.Accepted) : f.Backed := by
  induction h with
  | @make domain range sizes bits samples f h =>
    have hshape := (make_eq_ok_iff.1 h).1
    have hbits := (exists_make_iff hshape.shape).1 ⟨f, h⟩
    obtain ⟨-, rfl⟩ := make_eq_ok_iff.1 h
    have hsizes := map_size_start (α := α) hshape.sizes_length
    have houtputs : (range.map fun i => (⟨i, i.ends⟩ : Channel α)).length = range.length :=
      List.length_map _
    rw [← hsizes, ← houtputs] at hbits
    refine ⟨?_, houtputs ▸ Nat.pos_of_ne_zero hshape.shape.intervals.2, hbits.1, hbits.2⟩
    rw [List.length_zipWith]
    exact Nat.le_trans (Nat.min_le_left _ _) hshape.inputs_le
  | @encode f g flat _ h ih =>
    obtain ⟨ps, hps, rfl⟩ := of_withEncode h
    have hsizes : (List.zipWith (fun a p => { a with encode := p }) f.axes ps).map Axis.size =
        f.axes.map Axis.size := by
      apply List.ext_getElem
      · simp [hps]
      · intro i _ _
        simp
    have hlt := ih.bits_lt
    have hle := ih.bits_le
    rw [← hsizes] at hlt hle
    refine ⟨?_, ih.outputs_pos, hlt, hle⟩
    rw [List.length_zipWith]
    exact Nat.le_trans (Nat.min_le_left _ _) ih.inputs_le
  | decode _ h ih =>
    obtain ⟨cs, hcs, rfl⟩ := of_withDecode h
    have hlt := ih.bits_lt
    have hle := ih.bits_le
    rw [← hcs] at hlt hle
    exact ⟨ih.inputs_le, hcs ▸ ih.outputs_pos, hlt, hle⟩
  | order _ h ih =>
    rw [of_withOrder h]
    exact ⟨ih.inputs_le, ih.outputs_pos, ih.bits_lt, ih.bits_le⟩

theorem getElem?_byte {data : Array UInt8} {i : Nat} (h : i < 8 * data.size) :
    data[i / 8]? = some (data.getD (i / 8) 0) := by
  have hi : i / 8 < data.size := by omega
  simp [hi]

theorem bitAt?_eq {data : Array UInt8} {i : Nat} (h : i < 8 * data.size) :
    bitAt? data i = some (bitAt data i) := by
  rw [bitAt?, getElem?_byte h]
  rfl

theorem bitsAt?_eq {data : Array UInt8} {first count : Nat} (h : first + count ≤ 8 * data.size) :
    bitsAt? data first count = some (bitsAt data first count) := by
  induction count with
  | zero => rfl
  | succ count ih =>
    have hbit : first + count < 8 * data.size := by omega
    rw [bitsAt?, ih (by omega), bitAt?_eq hbit]
    rfl

/-- The bits of a sample are among the bits of the table. -/
theorem sample_end_le {f : Sampled α} {index j : Nat} (hindex : index < (f.axes.map Axis.size).prod)
    (hj : j < f.channels.length) :
    (index * f.channels.length + j) * f.bits + f.bits ≤
      f.channels.length * (f.axes.map Axis.size).prod * f.bits := by
  have hentry : index * f.channels.length + j + 1 ≤
      f.channels.length * (f.axes.map Axis.size).prod :=
    calc index * f.channels.length + j + 1
      _ ≤ index * f.channels.length + f.channels.length := by omega
      _ = f.channels.length * (index + 1) := by rw [Nat.mul_comm, Nat.mul_succ]
      _ ≤ f.channels.length * (f.axes.map Axis.size).prod := Nat.mul_le_mul_left _ hindex
  rw [← Nat.succ_mul]
  exact Nat.mul_le_mul_right f.bits hentry

theorem sample?_eq {f : Sampled α} (hf : f.Backed) (hbits : f.bits ≠ 0) {index j : Nat}
    (hindex : index < (f.axes.map Axis.size).prod) (hj : j < f.channels.length) :
    f.sample? index j = some (f.sample index j) := by
  have hend := sample_end_le hindex hj
  have hlast := Nat.lt_of_le_of_lt hend hf.bits_lt
  -- each number on the way is at most the next one
  have hentry : index * f.channels.length + j ≤ (index * f.channels.length + j) * f.bits :=
    Nat.le_mul_of_pos_right _ (Nat.pos_of_ne_zero hbits)
  have hrow := word?_of_lt (n := index * f.channels.length) (by omega)
  have hentry := word?_of_lt (n := index * f.channels.length + j) (by omega)
  have hfirst := word?_of_lt (n := (index * f.channels.length + j) * f.bits) (by omega)
  simp only [sample?, hrow, hentry, hfirst, word?_of_lt hlast, Option.bind_eq_bind,
    Option.bind_some, Nat.add_sub_cancel_left]
  exact bitsAt?_eq (Nat.le_trans hend hf.bits_le)

end Sampled

/-- Below `size` places of `stride` each. -/
theorem add_mul_lt {index place stride size : Nat} (hindex : index < stride) (hplace : place < size) :
    index + place * stride < stride * size :=
  calc index + place * stride
    _ < stride + place * stride := Nat.add_lt_add_right hindex _
    _ = stride * (place + 1) := by rw [Nat.mul_succ, Nat.mul_comm, Nat.add_comm]
    _ ≤ stride * size := Nat.mul_le_mul_left _ hplace

theorem Cell.corner?_eq {stride place size : Nat} {share : α} {k : Corner α}
    (hk : k.index < stride) (hplace : place < size) (hsize : stride * size < 2 ^ 64) :
    Cell.corner? stride place share k = some ⟨k.weight * share, k.index + place * stride⟩ := by
  have hlt := add_mul_lt hk hplace
  have hoffset := word?_of_lt (n := place * stride) (by omega)
  have hindex := word?_of_lt (n := k.index + place * stride) (by omega)
  simp only [corner?, hoffset, Option.bind_eq_bind, Option.bind_some, hindex]
  rfl

/-- The places of a cell are on the axis. -/
theorem Axis.cell_lt {a : Axis ℚ} (ha : 0 < a.size) (x : ℚ) :
    (a.cell (a.interval.clip x)).lower < a.size ∧ (a.cell (a.interval.clip x)).upper < a.size := by
  rcases Nat.eq_or_lt_of_le ha with one | more
  · rw [cell_of_size_one one.symm]
    exact ⟨ha, ha⟩
  · obtain ⟨lower, hcell, hlower, -⟩ := exists_cell more x
    rw [hcell]
    exact ⟨Nat.lt_of_succ_lt hlower, hlower⟩

theorem mapM_eq_some_map {β γ : Type} {f : β → Option γ} {g : β → γ} {bs : List β}
    (h : ∀ b ∈ bs, f b = some (g b)) : bs.mapM f = some (bs.map g) := by
  induction bs with
  | nil => rfl
  | cons b bs ih =>
    obtain ⟨hb, hbs⟩ := List.forall_mem_cons.1 h
    rw [List.mapM_cons, hb, ih hbs]
    rfl

namespace Sampled

theorem corners?_cons {a : Axis α} {as : List (Axis α)} {x : α} {xs : List α} {stride next : Nat}
    {ks below above : List (Corner α)} (hbelow : ks.mapM ((a.cell x).low? stride) = some below)
    (habove : ks.mapM ((a.cell x).high? stride) = some above)
    (hnext : word? (stride * a.size) = some next) :
    corners? (a :: as) (x :: xs) stride ks = corners? as xs next (below ++ above) := by
  simp only [corners?, hbelow, habove, hnext, Option.bind_eq_bind, Option.bind_some]

/-- A walk over axes that are not empty: with every axis come twice as many corners, all of them
below the number of table entries so far. -/
theorem corners?_eq {as : List (Axis ℚ)} (has : ∀ a ∈ as, 0 < a.size) {xs : List ℚ}
    (hxs : xs.length = as.length) {stride : ℕ} {ks : List (Corner ℚ)}
    (hks : ∀ k ∈ ks, k.index < stride) (hsize : stride * (as.map Axis.size).prod < 2 ^ 64) :
    let cs := corners as (Intervals.clip (as.map Axis.interval) xs) stride ks
    corners? as (Intervals.clip (as.map Axis.interval) xs) stride ks = some cs ∧
      cs.length = 2 ^ as.length * ks.length ∧
      ∀ k ∈ cs, k.index < stride * (as.map Axis.size).prod := by
  induction as generalizing xs stride ks with
  | nil => simpa [corners, corners?] using hks
  | cons a as ih =>
    obtain ⟨x, xs, rfl⟩ := List.exists_cons_of_length_eq_add_one hxs
    obtain ⟨ha, has⟩ := List.forall_mem_cons.1 has
    let c := a.cell (a.interval.clip x)
    obtain ⟨hlower, hupper⟩ : c.lower < a.size ∧ c.upper < a.size := a.cell_lt ha x
    have hprod : stride * ((a :: as).map Axis.size).prod =
        stride * a.size * (as.map Axis.size).prod := by
      rw [List.map_cons, List.prod_cons, Nat.mul_assoc]
    rw [hprod] at hsize
    -- no axis is empty, so a partial product of the sizes never exceeds the whole
    have hnext : stride * a.size < 2 ^ 64 := by
      have hrest : 0 < (as.map Axis.size).prod := by
        apply List.prod_pos
        simpa using has
      exact Nat.lt_of_le_of_lt (Nat.le_mul_of_pos_right _ hrest) hsize
    have hbelow : ks.mapM (c.low? stride) = some (ks.map (c.low stride)) :=
      mapM_eq_some_map fun k hk => Cell.corner?_eq (hks k hk) hlower hnext
    have habove : ks.mapM (c.high? stride) = some (ks.map (c.high stride)) :=
      mapM_eq_some_map fun k hk => Cell.corner?_eq (hks k hk) hupper hnext
    have hstep : ∀ k ∈ ks.map (c.low stride) ++ ks.map (c.high stride),
        k.index < stride * a.size := by
      intro k hk
      rcases List.mem_append.1 hk with hk | hk
      · obtain ⟨k, hmem, rfl⟩ := List.mem_map.1 hk
        exact add_mul_lt (hks k hmem) hlower
      · obtain ⟨k, hmem, rfl⟩ := List.mem_map.1 hk
        exact add_mul_lt (hks k hmem) hupper
    obtain ⟨hwalk, hlength, hindex⟩ := ih has (Nat.succ.inj hxs) hstep hsize
    refine ⟨?_, hlength.trans ?_, ?_⟩
    · exact (corners?_cons hbelow habove (word?_of_lt hnext)).trans hwalk
    · simp only [List.length_append, List.length_map, List.length_cons, Nat.pow_succ]
      ring
    · rw [hprod]
      exact hindex

theorem cornersAt?_eq {f : Sampled ℚ} (hf : f.Sound) (hsize : (f.axes.map Axis.size).prod < 2 ^ 64)
    {xs : List ℚ} (hxs : xs.length = f.axes.length) :
    f.cornersAt? xs = some (f.cornersAt xs) ∧ (f.cornersAt xs).length = 2 ^ f.axes.length ∧
      ∀ k ∈ f.cornersAt xs, k.index < (f.axes.map Axis.size).prod := by
  have hfirst : ∀ k ∈ [(⟨ofNat 1, 0⟩ : Corner ℚ)], k.index < 1 := by simp
  have hstride : 1 * (f.axes.map Axis.size).prod < 2 ^ 64 := by rwa [Nat.one_mul]
  have h := corners?_eq hf.size_pos hxs hfirst hstride
  simp only [Nat.one_mul, List.length_singleton, Nat.mul_one] at h
  exact h

/-- There are at most as many entries as bits. -/
theorem Backed.entries_lt {f : Sampled α} (hf : f.Backed) (hbits : f.bits ≠ 0) :
    (f.axes.map Axis.size).prod < 2 ^ 64 :=
  calc (f.axes.map Axis.size).prod
    _ ≤ f.channels.length * (f.axes.map Axis.size).prod :=
        Nat.le_mul_of_pos_left _ hf.outputs_pos
    _ ≤ f.channels.length * (f.axes.map Axis.size).prod * f.bits :=
        Nat.le_mul_of_pos_right _ (Nat.pos_of_ne_zero hbits)
    _ < 2 ^ 64 := hf.bits_lt

/-- A table of proper shape is accepted exactly if its bits can be counted in 64 bits, product by
product, and the data have them all. At all inputs the evaluation of an accepted table then stays
below the number of entries and within the data, and the checks change nothing. -/
theorem reads_within_table :
    (∀ {α : Type} [Scalar α] (domain range : Intervals α) (sizes : List Nat) (bits : Nat)
      (samples : Array UInt8), Shape domain range sizes bits →
      ((∃ f, make domain range sizes bits samples = .ok f) ↔
        range.length * sizes.prod * bits < 2 ^ 64 ∧
          range.length * sizes.prod * bits ≤ 8 * samples.size) ∧
      (tableBits? range.length sizes bits = some (range.length * sizes.prod * bits) ↔
        range.length * sizes.prod * bits < 2 ^ 64)) ∧
    ∀ (f : Sampled ℚ) (xs : List ℚ), f.Accepted → xs.length = f.axes.length →
      f.evaluate xs = .ok (f.channels.mapIdx (f.output (f.cornersAt xs))) ∧
      f.cornersAt? xs = some (f.cornersAt xs) ∧
      (f.cornersAt xs).length = 2 ^ f.axes.length ∧ f.axes.length ≤ mostInputs ∧
      ∀ k ∈ f.cornersAt xs, k.index < (f.axes.map Axis.size).prod ∧
        ∀ j < f.channels.length, f.sample? k.index j = some (f.sample k.index j) ∧
          ∀ i < f.bits,
            (k.index * f.channels.length + j) * f.bits + i < 8 * f.samples.size := by
  refine ⟨fun domain range sizes bits samples h => ?_, fun f xs hf hxs => ?_⟩
  · exact ⟨exists_make_iff h, tableBits?_eq_some_iff h.zero_notMem (ne_zero_of_width h.width)⟩
  have hsound := hf.sound
  have hbacked := hf.backed
  have hbits := hsound.bits_ne_zero
  obtain ⟨hwalk, hlength, hindex⟩ := cornersAt?_eq hsound (hbacked.entries_lt hbits) hxs
  refine ⟨evaluate_of_length hxs, hwalk, hlength, hbacked.inputs_le, fun k hk => ?_⟩
  have hk := hindex k hk
  refine ⟨hk, fun j hj => ⟨sample?_eq hbacked hbits hk hj, fun i hi => ?_⟩⟩
  have hend := sample_end_le hk hj
  have hdata := hbacked.bits_le
  omega

/-- A table of six bytes, read around a place in its last cell. -/
theorem reads_within_table_of_reversed :
    let domain : Intervals ℚ := [⟨0, 1, by decide⟩, ⟨-1, 1, by decide⟩]
    let range : Intervals ℚ := [⟨0, 1, by decide⟩]
    let f := reversedTable
    let xs : List ℚ := [1 / 4, 1 / 2]
    Shape domain range [3, 2] 8 ∧ (∃ g, make domain range [3, 2] 8 f.samples = .ok g) ∧
      f.Accepted ∧ xs.length = f.axes.length ∧
      (f.cornersAt xs).map Corner.index = [1, 2, 4, 5] ∧
      ∀ k ∈ f.cornersAt xs, k.index < 6 ∧ f.sample? k.index 0 = some (f.sample k.index 0) := by
  intro domain range f xs
  have hshape : Shape domain range [3, 2] 8 :=
    ⟨by decide, by decide, rfl, by decide, by decide⟩
  have hmake := (reads_within_table.1 domain range [3, 2] 8 f.samples hshape).1.2 (by decide)
  obtain ⟨-, -, -, -, hcorners⟩ := reads_within_table.2 f xs reversedTable_accepted rfl
  refine ⟨hshape, hmake, reversedTable_accepted, rfl, by decide +kernel, ?_⟩
  intro k hk
  exact ⟨(hcorners k hk).1, ((hcorners k hk).2 0 (by decide)).1⟩

end Sampled

end PdfFunctions
