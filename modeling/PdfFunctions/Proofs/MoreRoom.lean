import PdfFunctions.Proofs.Endings
import PdfFunctions.Proofs.LockstepRuns

namespace PdfFunctions

open Machine Moment

variable {l l' : Limits} {s t : Stack}

namespace Stack

theorem widened_of_contents {b : List Value} (hv : t.contents = b ++ s.contents)
    (hl : t.limit = s.limit + b.length) (hd : t.deferred = s.deferred) : s.Widened b 0 t where
  values := by
    rw [← List.reverse_reverse t.values, ← contents, hv, List.reverse_append, contents,
      List.reverse_reverse]
  limit := hl
  deferred := hd

theorem Widened.contents {b : List Value} {k : Nat} (h : s.Widened b k t) :
    t.contents = b ++ s.contents := by
  rw [Stack.contents, h.values, List.reverse_append, List.reverse_reverse, Stack.contents]

theorem widened_of_limit (hv : t.values = s.values) (hd : t.deferred = s.deferred)
    (hl : s.limit ≤ t.limit) : s.Widened [] (t.limit - s.limit) t where
  values := by rw [hv, List.reverse_nil, List.append_nil]
  limit := by
    rw [List.length_nil]
    omega
  deferred := hd

end Stack

namespace Machine

/-- The values `b` underneath, with room for them, stay where they are and make no difference to a
program that succeeds without them. -/
theorem run_framed {text : Bytes} {d : Nat} {log log' : Log} {m : Machine} {b : List Value}
    (hv : t.contents = b ++ s.contents) (hl : t.limit = s.limit + b.length)
    (hd : t.deferred = s.deferred)
    (h : run l text { stack := s, depth := d, log } = .ok () m) :
    ∃ n, run l text { stack := t, depth := d, log := log' } = .ok () n ∧
      n.stack.contents = b ++ m.stack.contents ∧ n.depth = m.depth ∧
      n.stack.deferred = m.stack.deferred := by
  have hw : Widened b 0 { stack := s, depth := d, log } { stack := t, depth := d, log := log' } :=
    ⟨Stack.widened_of_contents hv hl hd, rfl, rfl⟩
  have hr := lockstep_run (.refl l) text hw
  rw [h] at hr
  obtain ⟨n, hn, hmn⟩ := hr
  exact ⟨n, hn, hmn.stack.contents, hmn.depth, hmn.stack.deferred⟩

/-- A program exchanges its two operands and runs a body, above a boolean and a lone brace. -/
theorem run_framed_of_body : ∃ n,
    run {} (Bytes.ofText "\x7b 2 1 roll true \x7b sub \x7d if \x7d")
      { stack := { limit := 8, values := [.number 7, .number 4, .closing, .bool true] } } =
        .ok () n ∧
    n.stack.contents = [.bool true, .closing, .number 3] ∧ n.depth = 0 ∧
      n.stack.deferred = 0 := by
  let s : Stack := { limit := 6, values := [.number 7, .number 4] }
  let t : Stack := { limit := 8, values := [.number 7, .number 4, .closing, .bool true] }
  have hv : t.contents = [.bool true, .closing] ++ s.contents := rfl
  have hafter : ∃ log, run {} (Bytes.ofText "\x7b 2 1 roll true \x7b sub \x7d if \x7d")
      { stack := s } = .ok () { stack := { limit := 6, values := [.number 3] }, log } :=
    run_of_after (n := 12) rfl (by decide +kernel)
  obtain ⟨log, hrun⟩ := hafter
  exact run_framed hv rfl rfl hrun

/-- Limits cut runs off and change nothing else. What succeeds under lower limits succeeds under
higher ones, and what fails for another reason fails for the same. -/
theorem run_looser {text : Bytes} {d : Nat} {log log' : Log} (hl : l.Looser l')
    (hv : t.values = s.values) (hd : t.deferred = s.deferred) (hs : s.limit ≤ t.limit) :
    (∀ m, run l text { stack := s, depth := d, log } = .ok () m →
      ∃ n, run l' text { stack := t, depth := d, log := log' } = .ok () n ∧
        n.stack.values = m.stack.values ∧ n.stack.deferred = m.stack.deferred ∧
        n.depth = m.depth) ∧
    (∀ e m, run l text { stack := s, depth := d, log } = .error e m → ¬ e.OfLimit →
      ∃ n, run l' text { stack := t, depth := d, log := log' } = .error e n ∧
        n.stack.values = m.stack.values ∧ n.stack.deferred = m.stack.deferred ∧
        n.depth = m.depth) := by
  have hw : Widened [] (t.limit - s.limit) { stack := s, depth := d, log }
      { stack := t, depth := d, log := log' } := ⟨Stack.widened_of_limit hv hd hs, rfl, rfl⟩
  have hr := lockstep_run hl text hw
  have same {m n : Machine} (h : m.Widened [] (t.limit - s.limit) n) :
      n.stack.values = m.stack.values ∧ n.stack.deferred = m.stack.deferred ∧
        n.depth = m.depth := by
    have hvalues := h.stack.values
    rw [List.reverse_nil, List.append_nil] at hvalues
    exact ⟨hvalues, h.stack.deferred, h.depth⟩
  constructor
  · intro m h
    rw [h] at hr
    obtain ⟨n, hn, hmn⟩ := hr
    exact ⟨n, hn, same hmn⟩
  · intro e m h he
    rw [h] at hr
    rcases hr with (hb | hcut) | ⟨n, hn, hmn⟩
    · exact absurd rfl hb
    · exact absurd hcut he
    · exact ⟨n, hn, same hmn⟩

/-- Bodies of two values and three operands just fit the lower limits, and there is nothing to
pop under any. -/
theorem run_looser_of_fitting :
    (∃ n, run {} (Bytes.ofText "\x7b 2 1 roll true \x7b sub \x7d if \x7d")
        { stack := { limit := 100, values := [.number 7, .number 4] } } = .ok () n ∧
      n.stack.values = [.number 3] ∧ n.stack.deferred = 0 ∧ n.depth = 0) ∧
    ∃ n, run {} (Bytes.ofText "\x7b true \x7b pop \x7d if \x7d") { stack := { limit := 100 } } =
      .error (.stackUnderflow "pop" 1 0) n := by
  let l : Limits := { maxStack := 4, maxBodies := 2, maxNesting := 2 }
  let s : Stack := { limit := 4, values := [.number 7, .number 4] }
  let t : Stack := { limit := 100, values := [.number 7, .number 4] }
  have hl : l.Looser {} := ⟨by decide, by decide, rfl⟩
  have hfits : ∃ log, run l (Bytes.ofText "\x7b 2 1 roll true \x7b sub \x7d if \x7d")
      { stack := s } = .ok () { stack := { limit := 4, values := [.number 3] }, log } :=
    run_of_after (n := 12) rfl (by decide +kernel)
  have hfails : ∃ m, run l (Bytes.ofText "\x7b true \x7b pop \x7d if \x7d")
      { stack := { limit := 4 } } = .error (.stackUnderflow "pop" 1 0) m :=
    run_of_after_error (n := 6) rfl (by decide +kernel)
  obtain ⟨log, hrun⟩ := hfits
  obtain ⟨m, hpop⟩ := hfails
  have hvalues : t.values = s.values := rfl
  have hreason : ¬ (Error.stackUnderflow "pop" 1 0).OfLimit := id
  constructor
  · exact (run_looser hl hvalues rfl (by decide)).1 _ hrun
  · obtain ⟨n, hn, -⟩ := (run_looser (s := { limit := 4 }) (t := { limit := 100 }) hl rfl rfl
      (by decide)).2 _ _ hpop hreason
    exact ⟨n, hn⟩

end Machine

end PdfFunctions
