import PdfFunctions.Proofs.ValueRuns

namespace PdfFunctions

/-- At this depth the value is not run at once. Only operators ever are. -/
def Value.Waits (depth : Nat) : Value → Prop
  | .operator _ => 2 ≤ depth
  | _ => True

namespace StackM

theorem push_eq_error {v : Value} {s t : Stack} {e : Error} :
    push v s = .error e t ↔ s.limit ≤ s.live ∧ e = .stackOverflow s.limit ∧ t = s := by
  unfold push
  split
  · rename_i hfull
    simp only [EStateM.Result.error.injEq, hfull, true_and]
    exact and_congr eq_comm eq_comm
  · rename_i hroom
    simp [hroom]

theorem defer_eq_error {v : Value} {most : Nat} {s t : Stack} {e : Error} :
    defer v most s = .error e t ↔ most ≤ s.deferred ∧ e = .bodiesTooLarge most ∧ t = s := by
  unfold defer
  split
  · rename_i hfull
    simp only [EStateM.Result.error.injEq, hfull, true_and]
    exact and_congr eq_comm eq_comm
  · rename_i hroom
    simp [hroom]

end StackM

namespace Machine

variable {l : Limits} {m m' : Machine} {v : Value} {e : Error}

theorem onStack_eq_error {α : Type} {x : StackM α} :
    onStack x m = .error e m' ↔ ∃ t, x m.stack = .error e t ∧ m' = { m with stack := t } := by
  cases h : x m.stack with
  | ok a t => simp [onStack_of_ok h]
  | error e' t =>
    rw [onStack_of_error h]
    constructor
    · rintro ⟨⟩
      exact ⟨t, rfl, rfl⟩
    · rintro ⟨_, ⟨⟩, rfl⟩
      rfl

/-- Why the machine does not take a value that waits. The depth is looked at before the room. -/
inductive Refuses (l : Limits) (m : Machine) : Value → Error → Prop where
  | nested (hn : l.maxNesting ≤ m.depth) : Refuses l m .opening (.nestingTooDeep l.maxNesting)
  | bodyFull (hd : m.depth = 1) (hn : 1 < l.maxNesting) (hfull : m.stack.limit ≤ m.stack.live) :
      Refuses l m .opening (.stackOverflow m.stack.limit)
  | full {v : Value} (hd : m.depth ≤ 1) (hv : v.Plain) (hfull : m.stack.limit ≤ m.stack.live) :
      Refuses l m v (.stackOverflow m.stack.limit)
  | deferred {v : Value} (hd : 2 ≤ m.depth) (hn : v = .opening → m.depth < l.maxNesting)
      (hfull : l.maxBodies ≤ m.stack.deferred) : Refuses l m v (.bodiesTooLarge l.maxBodies)

/-- What is left of the machine where `v` is refused: a brace that may be opened here has raised
the depth before there turns out to be no room for it. -/
def afterRefusal (l : Limits) (m : Machine) (v : Value) : Machine :=
  if v = .opening ∧ m.depth < l.maxNesting then { m with depth := m.depth + 1 } else m

theorem afterRefusal_of_ne (hv : v ≠ .opening) : m.afterRefusal l v = m :=
  if_neg fun h => hv h.1

theorem afterRefusal_opening (hn : m.depth < l.maxNesting) :
    m.afterRefusal l .opening = { m with depth := m.depth + 1 } := if_pos ⟨rfl, hn⟩

theorem refuses_of_openBrace (h : openBrace l m = .error e m') :
    Refuses l m .opening e ∧ m' = m.afterRefusal l .opening := by
  obtain ⟨s, d, cs, log⟩ := m
  rw [openBrace_apply] at h
  by_cases hn : l.maxNesting ≤ d
  · have hsame : afterRefusal l ⟨s, d, cs, log⟩ .opening = ⟨s, d, cs, log⟩ :=
      if_neg fun h => Nat.not_lt.2 hn h.2
    rw [if_pos hn] at h
    cases h
    exact ⟨.nested hn, hsame.symm⟩
  · have hlt : d < l.maxNesting := Nat.lt_of_not_le hn
    rw [if_neg hn] at h
    rw [afterRefusal_opening hlt]
    match d with
    | 0 => cases h
    | 1 =>
      obtain ⟨t, ht, rfl⟩ := onStack_eq_error.1 h
      obtain ⟨hfull, rfl, rfl⟩ := StackM.push_eq_error.1 ht
      exact ⟨.bodyFull rfl hlt hfull, rfl⟩
    | d + 2 =>
      obtain ⟨t, ht, rfl⟩ := onStack_eq_error.1 h
      obtain ⟨hfull, rfl, rfl⟩ := StackM.defer_eq_error.1 ht
      exact ⟨.deferred (Nat.le_add_left 2 d) (fun _ => hlt) hfull, rfl⟩

theorem refuses_of_defer (hd : 2 ≤ m.depth) (hv : v ≠ .opening)
    (h : defer l v m = .error e m') : Refuses l m v e ∧ m' = m.afterRefusal l v := by
  obtain ⟨t, ht, rfl⟩ := onStack_eq_error.1 h
  obtain ⟨hfull, rfl, rfl⟩ := StackM.defer_eq_error.1 ht
  rw [afterRefusal_of_ne hv]
  exact ⟨.deferred hd (fun h => absurd h hv) hfull, rfl⟩

/-- A closing brace lowers the depth only when it is on the stack. -/
theorem refuses_of_closeBrace (h : closeBrace l m = .error e m') :
    Refuses l m .closing e ∧ m' = m.afterRefusal l .closing := by
  obtain ⟨s, d, cs, log⟩ := m
  rw [closeBrace_apply] at h
  match d with
  | 0 => cases h
  | 1 => cases h
  | d + 2 =>
    apply refuses_of_defer (Nat.le_add_left 2 d) (by simp)
    rcases bind_eq_error.1 h with hdefer | ⟨_, _, -, hdepth⟩
    · exact hdefer
    · cases hdepth

theorem refuses_of_plain (hv : v.Plain) (h : accept l v m = .error e m') :
    Refuses l m v e ∧ m' = m.afterRefusal l v := by
  have hne : v ≠ .opening := by
    rintro rfl
    simp at hv
  by_cases hd : m.depth ≤ 1
  · rw [accept_plain l hv hd] at h
    obtain ⟨t, ht, rfl⟩ := onStack_eq_error.1 h
    obtain ⟨hfull, rfl, rfl⟩ := StackM.push_eq_error.1 ht
    rw [afterRefusal_of_ne hne]
    exact ⟨.full hd hv hfull, rfl⟩
  · have hd : 2 ≤ m.depth := by omega
    rw [accept_plain_deferred l hv hd] at h
    exact refuses_of_defer hd hne h

theorem refuses_of_accept (hv : v.Waits m.depth) (h : accept l v m = .error e m') :
    Refuses l m v e ∧ m' = m.afterRefusal l v := by
  cases v with
  | opening => exact refuses_of_openBrace h
  | closing => exact refuses_of_closeBrace h
  | operator op =>
    rw [accept_operator_deferred l op hv] at h
    exact refuses_of_defer hv (by simp) h
  | number | bool => exact refuses_of_plain (by simp) h

/-- A value that waits opens no call. -/
theorem calls_of_waiting (hv : v.Waits m.depth) (h : accept l v m = .ok () m') :
    m'.calls = m.calls := by
  cases accepts_of_accept h with
  | acted hd | skipped hd | entered hd =>
    have hd' : 2 ≤ m.depth := hv
    omega
  | _ => rfl

/-- Where no call is open, a value that waits is taken in or refused, and nothing else is run. -/
theorem feed_eq_accept (hv : v.Waits m.depth) (hc : m.calls = []) :
    feed l v m = accept l v m := by
  cases h : accept l v m with
  | ok u m₁ =>
    have hc₁ : m₁.calls = [] := (calls_of_waiting hv h).trans hc
    exact feed_of_ok h (settle_of_nil hc₁)
  | error e m₁ =>
    have hc₁ : m₁.calls = [] := by
      rw [(refuses_of_accept hv h).2, afterRefusal]
      split <;> exact hc
    rw [feed_of_accept_error h, unwind, hc₁]
    rfl

/-- A refused value leaves the stack and the depth as they were, unless it is an opening brace
whose depth is allowed: for want of room it is refused one brace deeper. -/
theorem refused_unchanged_iff (hv : v.Waits m.depth) :
    (m.calls = [] → feed l v m = accept l v m) ∧
    ∀ e m', accept l v m = .error e m' →
      ((m'.stack = m.stack ∧ m'.depth = m.depth ↔
          (v = .opening → e = .nestingTooDeep l.maxNesting)) ∧
        m' = m.afterRefusal l v ∧
        (e = .stackOverflow m.stack.limit ∨ e = .bodiesTooLarge l.maxBodies ∨
          e = .nestingTooDeep l.maxNesting)) := by
  refine ⟨feed_eq_accept hv, fun e m' h => ?_⟩
  obtain ⟨hr, rfl⟩ := refuses_of_accept hv h
  refine ⟨?_, rfl, ?_⟩
  · by_cases hopen : v = .opening
    · subst hopen
      cases hr with
      | nested hn => simp [afterRefusal, Nat.not_lt.2 hn]
      | bodyFull hd hn => simp [afterRefusal, hd, hn]
      | full hd hv => simp at hv
      | deferred hd hn => simp [afterRefusal, hn]
    · simp [afterRefusal_of_ne hopen, hopen]
  · cases hr with
    | nested => exact .inr (.inr rfl)
    | bodyFull | full => exact .inl rfl
    | deferred => exact .inr (.inl rfl)

/-- The brace that would complete a body finds no room in it. -/
theorem refused_unchanged_of_closing :
    let m : Machine :=
      { stack := { values := [.number 1, .opening], limit := 5, deferred := 1 }, depth := 2 }
    Value.closing.Waits m.depth ∧ ∃ m',
      feed { maxBodies := 1 } .closing m = .error (.bodiesTooLarge 1) m' ∧
        m'.stack = m.stack ∧ m'.depth = m.depth := by
  intro m
  have hwaits : Value.closing.Waits m.depth := trivial
  obtain ⟨hfeed, hrefused⟩ := refused_unchanged_iff (l := { maxBodies := 1 }) hwaits
  have haccept : accept { maxBodies := 1 } .closing m = .error (.bodiesTooLarge 1) m := rfl
  exact ⟨hwaits, m, (hfeed rfl).trans haccept, (hrefused _ _ haccept).1.2 (by simp)⟩

/-- A body that would be one operand too many. -/
theorem refused_opening_deepens :
    let m : Machine := { stack := { values := [.number 1], limit := 1 }, depth := 1 }
    Value.opening.Waits m.depth ∧
      feed { maxStack := 1 } .opening m = .error (.stackOverflow 1) { m with depth := 2 } := by
  intro m
  have haccept : accept { maxStack := 1 } .opening m =
      .error (.stackOverflow 1) { m with depth := 2 } := rfl
  exact ⟨trivial, feed_of_accept_error haccept⟩

end Machine

end PdfFunctions
