import PdfFunctions.Proofs.ValueRuns

namespace PdfFunctions

open Braces Machine

variable {l : Limits}

/-- The stack with deferred values on top, the first lowest. -/
def Stack.pile (s : Stack) (w : List Value) : Stack where
  values := w.reverse ++ s.values
  limit := s.limit
  deferred := s.deferred + w.length

def Stack.withBody (s : Stack) (w : List Value) : Stack :=
  (s.cons .opening).pile (w ++ [.closing])

namespace Stack

theorem pile_nil (s : Stack) : s.pile [] = s := Stack.ext rfl rfl rfl

theorem pile_pile (s : Stack) (u w : List Value) : (s.pile u).pile w = s.pile (u ++ w) := by
  refine Stack.ext ?_ rfl ?_
  · simp only [pile, List.reverse_append, List.append_assoc]
  · simp only [pile, List.length_append, Nat.add_assoc]

theorem pile_singleton (s : Stack) (v : Value) :
    s.pile [v] = { s.cons v with deferred := s.deferred + 1 } := Stack.ext rfl rfl rfl

theorem deferred_withBody (s : Stack) (w : List Value) :
    (s.withBody w).deferred = s.deferred + (w.length + 1) := by
  simp [withBody, pile]

theorem live_withBody {s : Stack} (h : s.deferred = 0) (w : List Value) :
    (s.withBody w).live = s.live + 1 := by
  rw [live_eq, live_eq, deferred_withBody, h]
  simp [withBody, pile]

theorem lifted_withBody (s : Stack) {w : List Value} (hw : Balanced w) :
    Body.Lifted w (s.withBody w) s where
  values := by simp [withBody, pile]
  balanced := hw
  limit := rfl
  deferred := by rw [deferred_withBody, Nat.add_sub_cancel]

end Stack

namespace Machine

/-- Inside a body every value is deferred. -/
theorem runs_deferred {w : List Value} {d e : Nat} {m : Machine} (hw : climb d w = some e)
    (hd : m.depth = d + 2) (hn : nesting (d + 2) w ≤ l.maxNesting)
    (hb : m.stack.deferred + w.length ≤ l.maxBodies) :
    Runs l w m (.ok { m with depth := e + 2, stack := m.stack.pile w }) := by
  induction w generalizing d m with
  | nil =>
    obtain rfl : d = e := Option.some.inj hw
    rw [Stack.pile_nil, ← hd]
    exact .done
  | cons v w ih =>
    obtain ⟨k, hv, hw⟩ := climb_cons_eq_some.1 hw
    have hk : depthAfter (d + 2) v = k + 2 := depthAfter_of_level (level_shift hv 2)
    have hrest := Nat.le_trans (depthAfter_le_nesting (d + 2) v w) hn
    rw [hk] at hrest
    rw [List.length_cons] at hb
    have hdefer : StackM.defer v l.maxBodies m.stack = .ok () (m.stack.pile [v]) :=
      StackM.defer_eq_ok.2 ⟨by omega, m.stack.pile_singleton v⟩
    have haccept (cs : List Call) : accept l v { m with calls := cs } =
        .ok () { m with depth := k + 2, stack := m.stack.pile [v], calls := cs } := by
      rw [← hk, ← hd]
      refine accept_of_deferred (m := { m with calls := cs }) (by simp only; omega) ?_ hdefer
      -- the limit on nesting concerns an opening brace only
      rintro rfl
      have hle := le_nesting (d + 2 + 1) w
      have hopen : nesting (d + 2 + 1) w ≤ nesting (d + 2) (.opening :: w) :=
        depthAfter_le_nesting (d + 2) .opening w
      change m.depth < l.maxNesting
      omega
    have hstack : (m.stack.pile [v]).deferred + w.length ≤ l.maxBodies := by
      simp only [Stack.pile, List.length_singleton]
      omega
    have hruns := ih (m := { m with depth := k + 2, stack := m.stack.pile [v] }) hw rfl hrest hstack
    rw [Stack.pile_pile] at hruns
    exact .passed haccept hruns

theorem accept_opening (l : Limits) {m : Machine} (hd : m.depth = 1) (hn : 1 < l.maxNesting)
    (hroom : m.stack.live < m.stack.limit) :
    accept l .opening m = .ok () { m with depth := 2, stack := m.stack.cons .opening } := by
  refine (openBrace_apply l m).trans ?_
  rw [hd, if_neg (Nat.not_le.2 hn)]
  exact onStack_of_ok (m := { m with depth := 2 }) (StackM.push_eq_ok.2 ⟨hroom, rfl⟩)

/-- A body takes the room of one operand. -/
theorem accept_opening_full (l : Limits) {m : Machine} (hd : m.depth = 1) (hn : 1 < l.maxNesting)
    (hfull : m.stack.limit ≤ m.stack.live) :
    accept l .opening m = .error (.stackOverflow m.stack.limit) { m with depth := 2 } := by
  refine (openBrace_apply l m).trans ?_
  rw [hd, if_neg (Nat.not_le.2 hn)]
  refine onStack_of_error (m := { m with depth := 2 }) (t := m.stack) ?_
  simp only [StackM.push, if_pos hfull]

theorem runs_braced {w : List Value} {m : Machine} (hw : Balanced w) (hd : m.depth = 1)
    (hroom : m.stack.live < m.stack.limit) (hn : nesting 2 w ≤ l.maxNesting)
    (hb : m.stack.deferred + (w.length + 1) ≤ l.maxBodies) :
    Runs l (braced w) m (.ok { m with stack := m.stack.withBody w }) := by
  have hone : 1 < l.maxNesting := Nat.lt_of_lt_of_le (le_nesting 2 w) hn
  -- only the opening brace needs room among the live values; what follows it is deferred
  have hopen (cs : List Call) : accept l .opening { m with calls := cs } =
      .ok () { m with depth := 2, stack := m.stack.cons .opening, calls := cs } :=
    accept_opening l (m := { m with calls := cs }) hd hone hroom
  let m₁ : Machine := { m with depth := 2, stack := (m.stack.cons .opening).pile w }
  have hbody : Runs l w { m with depth := 2, stack := m.stack.cons .opening } (.ok m₁) :=
    runs_deferred hw rfl hn (by simp only [Stack.deferred_cons]; omega)
  have hdefer : StackM.defer .closing l.maxBodies m₁.stack = .ok () (m.stack.withBody w) := by
    refine StackM.defer_eq_ok.2 ⟨?_, ?_⟩
    · simp only [m₁, Stack.pile, Stack.deferred_cons]
      omega
    · rw [Stack.withBody, ← Stack.pile_pile, Stack.pile_singleton]
  have hclose (cs : List Call) : accept l .closing { m₁ with calls := cs } =
      .ok () { m with stack := m.stack.withBody w, calls := cs } := by
    have h := accept_of_deferred (l := l) (m := { m₁ with calls := cs }) (Nat.le_refl 2) (by simp)
      hdefer
    simpa only [m₁, depthAfter, hd] using h
  exact .passed hopen (hbody.append (.passed hclose .done))

theorem runs_braced_full {w : List Value} {m : Machine} (hd : m.depth = 1)
    (hfull : m.stack.limit ≤ m.stack.live) (hn : nesting 2 w ≤ l.maxNesting) :
    Runs l (braced w) m (.error (.stackOverflow m.stack.limit)) := by
  have hone : 1 < l.maxNesting := Nat.lt_of_lt_of_le (le_nesting 2 w) hn
  exact .failed fun cs => ⟨_, accept_opening_full l (m := { m with calls := cs }) hd hone hfull⟩

end Machine

end PdfFunctions
