import Mathlib.Tactic.Common
import PdfFunctions.Function.Sampled
import PdfFunctions.Proofs.Clipping
import PdfFunctions.Proofs.Outcome

namespace PdfFunctions.Sampled

variable {α : Type} [Scalar α] {f g : Sampled α}

structure Checked (domain range : Intervals α) (sizes : List Nat) (bits : Nat)
    (samples : Array UInt8) : Prop where
  intervals : ¬(domain.length = 0 ∨ range.length = 0)
  inputs_le : domain.length ≤ mostInputs
  sizes_length : sizes.length = domain.length
  zero_notMem : 0 ∉ sizes
  width : bits ∈ sampleWidths
  bits_lt : tableBits range.length sizes bits < 0x10000000000000000
  bytes_le : (tableBits range.length sizes bits + 7) / 8 ≤ samples.size

theorem make_eq_ok_iff {domain range : Intervals α} {sizes : List Nat} {bits : Nat}
    {samples : Array UInt8} :
    make domain range sizes bits samples = .ok f ↔
      Checked domain range sizes bits samples ∧
        f = { axes := List.zipWith Axis.start domain sizes
              channels := range.map fun i => ⟨i, i.ends⟩
              bits, order := 1, samples } := by
  unfold make
  simp only [bind, Except.bind, pure, Except.pure]
  constructor
  · intro h
    repeat' split at h
    all_goals cases h
    rename_i intervals inputs count zero width bits bytes
    exact ⟨⟨intervals, Nat.not_lt.mp inputs, not_not.mp count, zero, not_not.mp width,
      Nat.not_le.mp bits, Nat.not_lt.mp bytes⟩, rfl⟩
  · rintro ⟨h, rfl⟩
    rw [if_neg h.intervals, if_neg (Nat.not_lt.mpr h.inputs_le),
      if_neg (not_not.mpr h.sizes_length), if_neg h.zero_notMem, if_neg (not_not.mpr h.width),
      if_neg (Nat.not_le.mpr h.bits_lt), if_neg (Nat.not_lt.mpr h.bytes_le)]

theorem of_withEncode {flat : List α} (h : f.withEncode flat = .ok g) :
    ∃ ps, ps.length = f.axes.length ∧
      g = { f with axes := List.zipWith (fun a p => { a with encode := p }) f.axes ps } := by
  obtain ⟨ps, -, h⟩ := except_bind_eq_ok.mp h
  split at h
  · cases h
  · rename_i hlen
    exact ⟨ps, not_not.mp hlen, (Except.ok.inj h).symm⟩

theorem of_withDecode {flat : List α} (h : f.withDecode flat = .ok g) :
    ∃ cs, cs.length = f.channels.length ∧ g = { f with channels := cs } := by
  obtain ⟨ps, -, h⟩ := except_bind_eq_ok.mp h
  split at h
  · cases h
  · rename_i hlen
    refine ⟨_, ?_, (Except.ok.inj h).symm⟩
    rw [List.length_zipWith, not_not.mp hlen, Nat.min_self]

theorem of_withOrder {order : Nat} {log log' : Log} (h : f.withOrder order log = .ok g log') :
    g = { f with order } := by
  unfold withOrder at h
  split at h
  · cases h
    rfl
  · split at h <;> cases h
    rfl

/-- A table that passes the checks, with any later change that passes them too. -/
inductive Accepted : Sampled α → Prop
  | make {domain range : Intervals α} {sizes : List Nat} {bits : Nat} {samples : Array UInt8}
      {f : Sampled α} (h : Sampled.make domain range sizes bits samples = .ok f) : Accepted f
  | encode {f g : Sampled α} {flat : List α} (hf : Accepted f)
      (h : f.withEncode flat = .ok g) : Accepted g
  | decode {f g : Sampled α} {flat : List α} (hf : Accepted f)
      (h : f.withDecode flat = .ok g) : Accepted g
  | order {f g : Sampled α} {order : Nat} {log log' : Log} (hf : Accepted f)
      (h : f.withOrder order log = .ok g log') : Accepted g

structure Sound (f : Sampled α) : Prop where
  size_pos : ∀ a ∈ f.axes, 0 < a.size
  width : f.bits ∈ sampleWidths

theorem ne_zero_of_width {bits : Nat} (h : bits ∈ sampleWidths) : bits ≠ 0 := by
  rintro rfl
  exact absurd h (by decide)

theorem Sound.bits_ne_zero (h : f.Sound) : f.bits ≠ 0 := ne_zero_of_width h.width

theorem Accepted.sound (h : f.Accepted) : f.Sound := by
  -- every later change keeps the sizes and the width, so both are settled where the table is made
  induction h with
  | make h =>
    obtain ⟨hchecks, rfl⟩ := make_eq_ok_iff.mp h
    refine ⟨?_, hchecks.width⟩
    intro a ha
    rw [← List.map_uncurry_zip_eq_zipWith] at ha
    obtain ⟨⟨i, size⟩, hmem, rfl⟩ := List.mem_map.mp ha
    have hsize : size ∈ _ := (List.of_mem_zip hmem).2
    exact Nat.pos_of_ne_zero fun h0 => hchecks.zero_notMem (h0 ▸ hsize)
  | encode _ h ih =>
    obtain ⟨ps, -, rfl⟩ := of_withEncode h
    refine ⟨?_, ih.width⟩
    intro a ha
    rw [← List.map_uncurry_zip_eq_zipWith] at ha
    obtain ⟨⟨b, p⟩, hmem, rfl⟩ := List.mem_map.mp ha
    exact ih.size_pos b (List.of_mem_zip hmem).1
  | decode _ h ih =>
    obtain ⟨cs, -, rfl⟩ := of_withDecode h
    exact ⟨ih.size_pos, ih.width⟩
  | order _ h ih =>
    rw [of_withOrder h]
    exact ⟨ih.size_pos, ih.width⟩

theorem length_domain (f : Sampled α) : f.domain.length = f.axes.length := by
  rw [domain, List.length_map]

theorem evaluate_of_length {xs : List α} (h : xs.length = f.axes.length) :
    f.evaluate xs =
      .ok (f.channels.mapIdx
        (f.output (corners f.axes (f.domain.clip xs) 1 [⟨Scalar.ofNat 1, 0⟩]))) := by
  rw [evaluate, Intervals.fit_of_length (h.trans (length_domain f).symm)]
  rfl

theorem evaluate_of_ne {xs : List α} (h : xs.length ≠ f.axes.length) :
    f.evaluate xs = .error (.inputCount f.axes.length xs.length) := by
  rw [← length_domain f] at h ⊢
  rw [evaluate, Intervals.fit_of_ne h]
  rfl

end PdfFunctions.Sampled
