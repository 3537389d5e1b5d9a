import PdfFunctions.Proofs.Moments

namespace PdfFunctions

open Braces Machine

/-- Each open call still has to read what closes its own braces, and it was entered by an operator
that was not deferred. -/
def Aligned : Nat → List Call → Prop
  | _, [] => True
  | d, ⟨rest, outer⟩ :: cs => 1 ≤ d ∧ climb (d - 1) rest = some 0 ∧ outer ≤ 1 ∧ Aligned outer cs

def putBack (v : Value) : List Call → List Call
  | [] => []
  | ⟨rest, outer⟩ :: cs => ⟨v :: rest, outer⟩ :: cs

theorem balanced_of_picks {op : Operator} {s t : Stack} {w : List Value} (h : Picks op s w t) :
    Balanced w := by
  cases h with
  | single hw => exact hw.balanced
  | first _ hw => exact hw.balanced
  | second hw' => exact hw'.balanced

theorem depthAfter_of_plain {v : Value} (hv : v.Plain) (d : Nat) : depthAfter d v = d := by
  cases v with
  | number | bool => rfl
  | _ => simp at hv

/-- A value moves the depth by its own brace, or it runs a body. -/
theorem depth_of_accepts {l : Limits} {m m' : Machine} {v : Value} (h : Accepts l m v m') :
    m'.calls = m.calls ∧ m'.depth = depthAfter m.depth v ∨
      ∃ op w, v = .operator op ∧ m.depth ≤ 1 ∧ Balanced w ∧ m'.depth = 1 ∧
        m'.calls = ⟨w, m.depth⟩ :: m.calls := by
  cases h with
  | wrapperOpens hd | bodyOpens hd | wrapperCloses hd | ignored hd =>
    refine .inl ⟨rfl, ?_⟩
    simp only [hd, depthAfter]
  | pushed hd hv => exact .inl ⟨rfl, (depthAfter_of_plain hv _).symm⟩
  | deferred | acted | skipped => exact .inl ⟨rfl, rfl⟩
  | entered hd hp => exact .inr ⟨_, _, rfl, hd, balanced_of_picks hp, rfl, rfl⟩

theorem aligned_of_accepts {l : Limits} {m m' : Machine} {v : Value} (h : Accepts l m v m')
    (ha : Aligned m.depth (putBack v m.calls)) : Aligned m'.depth m'.calls := by
  rcases depth_of_accepts h with ⟨hc, hd⟩ | ⟨op, w, rfl, hle, hw, hd, hc⟩
  · rw [hc, hd]
    cases hcs : m.calls with
    | nil => trivial
    | cons c cs =>
      obtain ⟨rest, outer⟩ := c
      rw [hcs] at ha
      obtain ⟨hpos, hclimb, houter, hcalls⟩ := ha
      obtain ⟨k, hv, hrest⟩ := climb_cons_eq_some.1 hclimb
      -- the call on top has one value less to read
      have hk : depthAfter m.depth v = k + 1 := by
        have := depthAfter_of_level (level_shift hv 1)
        rwa [Nat.sub_add_cancel hpos] at this
      rw [hk]
      exact ⟨by omega, hrest, houter, hcalls⟩
  · rw [hc, hd]
    -- the new call is balanced, and the call below it has read an operator
    refine ⟨by omega, hw, hle, ?_⟩
    cases hcs : m.calls with
    | nil => trivial
    | cons c cs =>
      obtain ⟨rest, outer⟩ := c
      rw [hcs] at ha
      obtain ⟨hpos, hclimb, houter, hcalls⟩ := ha
      obtain ⟨k, hv, hrest⟩ := climb_cons_eq_some.1 hclimb
      obtain rfl : m.depth - 1 = k := Option.some.inj hv
      exact ⟨hpos, hrest, houter, hcalls⟩

namespace Moment

/-- What every value keeps, as long as the operators keep the rule, holds all along a run. The
invariant may speak of the pending braces, but not of those around the program, which running
bodies leave out of account. -/
theorem Reaches.invariant {l : Limits} {ok : Rule} {J : Nat → Stack → Prop}
    (step : ∀ {m v m'}, Accepts l m v m' →
      (∀ op, v = .operator op → m.depth ≤ 1 → ok op m.stack m'.stack) →
      J (m.depth - 1) m.stack → J (m'.depth - 1) m'.stack)
    {m : Machine} {text : Bytes} {μ : Moment} (h : Reaches l ok (start m text) μ)
    (hc : m.calls = []) (hm : J (m.depth - 1) m.stack) :
    J (μ.machine.depth - 1) μ.machine.stack ∧ Aligned μ.machine.depth μ.machine.calls := by
  induction h with
  | refl => exact ⟨hm, by rw [start, hc]; trivial⟩
  | @tail μ₁ _ _ hf ih =>
    obtain ⟨hJ, ha⟩ := ih
    obtain ⟨hadv, hok⟩ := hf
    cases advances_of_advance hadv with
    | read hcs hr hv hacc =>
      refine ⟨step hacc ?_ hJ, aligned_of_accepts hacc (by rw [hcs]; trivial)⟩
      rintro op rfl hd
      exact hok op (operator_of_read hcs hr hv hd)
    | refused hcs hr hv => exact ⟨hJ, ha⟩
    | ran hcs hacc =>
      refine ⟨step hacc ?_ hJ, aligned_of_accepts hacc (by rw [hcs] at ha; exact ha)⟩
      rintro op rfl hd
      exact hok op (operator_of_ran hcs hd)
    | @returned d cs m' hcs hm =>
      subst hm
      rw [hcs] at ha
      obtain ⟨hpos, hclimb, houter, hcalls⟩ := ha
      -- neither the body at its end nor the machine around it has a brace pending
      have hend : μ₁.machine.depth - 1 = 0 := Option.some.inj hclimb
      refine ⟨?_, hcalls⟩
      change J (d - 1) μ₁.machine.stack
      rwa [show d - 1 = 0 by omega, ← hend]

end Moment

end PdfFunctions
