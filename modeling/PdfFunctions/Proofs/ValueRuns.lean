import PdfFunctions.Proofs.Moments

namespace PdfFunctions.Machine

variable {l : Limits}

/-- The values run from a machine to an outcome, whatever calls are open. -/
inductive Runs (l : Limits) : List Value → Machine → Except Error Machine → Prop where
  | done {m : Machine} : Runs l [] m (.ok m)
  | failed {v : Value} {vs : List Value} {m : Machine} {e : Error}
      (h : ∀ cs, ∃ m', accept l v { m with calls := cs } = .error e m') :
      Runs l (v :: vs) m (.error e)
  | passed {v : Value} {vs : List Value} {m m₁ : Machine} {r : Except Error Machine}
      (h : ∀ cs, accept l v { m with calls := cs } = .ok () { m₁ with calls := cs })
      (hr : Runs l vs m₁ r) : Runs l (v :: vs) m r
  | called {v : Value} {vs w : List Value} {m m₁ m₂ : Machine} {r : Except Error Machine}
      (h : ∀ cs, accept l v { m with calls := cs } =
        .ok () { m₁ with calls := ⟨w, m.depth⟩ :: cs })
      (hw : Runs l w m₁ (.ok m₂)) (hr : Runs l vs { m₂ with depth := m.depth } r) :
      Runs l (v :: vs) m r
  | callFailed {v : Value} {vs w : List Value} {m m₁ : Machine} {e : Error}
      (h : ∀ cs, accept l v { m with calls := cs } =
        .ok () { m₁ with calls := ⟨w, m.depth⟩ :: cs })
      (hw : Runs l w m₁ (.error e)) : Runs l (v :: vs) m (.error e)

theorem Runs.append {u w : List Value} {m m' : Machine} {r : Except Error Machine}
    (hu : Runs l u m (.ok m')) (hw : Runs l w m' r) : Runs l (u ++ w) m r := by
  generalize hr : Except.ok m' = r' at hu
  induction hu with
  | done =>
    obtain rfl := Except.ok.inj hr
    exact hw
  | failed => simp at hr
  | passed h _ ih => exact .passed h (ih hr)
  | called h hbody _ _ ih => exact .called h hbody (ih hr)
  | callFailed => simp at hr

theorem Runs.append_error {u : List Value} {m : Machine} {e : Error}
    (hu : Runs l u m (.error e)) (w : List Value) : Runs l (u ++ w) m (.error e) := by
  generalize hr : Except.error e = r at hu
  induction hu with
  | done => simp at hr
  | failed h =>
    obtain rfl := Except.error.inj hr
    exact .failed h
  | passed h _ ih => exact .passed h (ih hr)
  | called h hbody _ _ ih => exact .called h hbody (ih hr)
  | callFailed h hbody =>
    obtain rfl := Except.error.inj hr
    exact .callFailed h hbody

theorem settle_of_nil {m : Machine} (hc : m.calls = []) : settle? l m = some (.ok () m) := by
  rw [settle?.eq_1, hc]

theorem settle_of_step {m m' : Machine} {c : Call} {cs : List Call} (hc : m.calls = c :: cs)
    (hs : step l m = .ok () m') : settle? l m = settle? l m' := by
  rw [settle?.eq_1, hc]
  simp only [hs]

theorem settle_of_step_error {m m' : Machine} {c : Call} {cs : List Call} {e : Error}
    (hc : m.calls = c :: cs) (hs : step l m = .error e m') :
    settle? l m = some (.error e m') := by
  rw [settle?.eq_1, hc]
  simp only [hs]

/-- A body at its end gives back the depth outside it. -/
theorem settle_of_return (m : Machine) (d : Nat) (cs : List Call) :
    settle? l { m with calls := ⟨[], d⟩ :: cs } = settle? l { m with depth := d, calls := cs } :=
  settle_of_step rfl rfl

/-- What the innermost call has yet to read is run before anything else. -/
theorem settle_of_runs {vs : List Value} {m : Machine} {r : Except Error Machine} :
    Runs l vs m r → ∀ (rest : List Value) (d : Nat) (cs : List Call),
    match r with
    | .ok m' => settle? l { m with calls := ⟨vs ++ rest, d⟩ :: cs } =
        settle? l { m' with calls := ⟨rest, d⟩ :: cs }
    | .error e => ∃ m', settle? l { m with calls := ⟨vs ++ rest, d⟩ :: cs } =
        some (.error e m') := by
  intro h rest d cs
  induction h generalizing rest d cs with
  | done => rfl
  | @failed v vs m e h =>
    obtain ⟨m', hm'⟩ := h (⟨vs ++ rest, d⟩ :: cs)
    exact ⟨m', settle_of_step_error rfl hm'⟩
  | @passed v vs m m₁ r h _ ih =>
    have hstep := settle_of_step (l := l) (m := { m with calls := ⟨v :: vs ++ rest, d⟩ :: cs }) rfl
      (h (⟨vs ++ rest, d⟩ :: cs))
    rw [hstep]
    exact ih rest d cs
  | @called v vs w m m₁ m₂ r h _ _ ihw ih =>
    have hstep := settle_of_step (l := l) (m := { m with calls := ⟨v :: vs ++ rest, d⟩ :: cs }) rfl
      (h (⟨vs ++ rest, d⟩ :: cs))
    -- the body runs on top of the call that entered it, and returns there
    have hbody := ihw [] m.depth (⟨vs ++ rest, d⟩ :: cs)
    rw [List.append_nil] at hbody
    rw [hstep, hbody, settle_of_return]
    exact ih rest d cs
  | @callFailed v vs w m m₁ e h _ ihw =>
    have hstep := settle_of_step (l := l) (m := { m with calls := ⟨v :: vs ++ rest, d⟩ :: cs }) rfl
      (h (⟨vs ++ rest, d⟩ :: cs))
    rw [hstep, ← List.append_nil w]
    exact ihw [] m.depth (⟨vs ++ rest, d⟩ :: cs)

def settled (l : Limits) : MachineM Unit := fun m => (settle? l m).getD (.error .outOfSteps m)

theorem complete_apply (l : Limits) (x : MachineM Unit) (m : Machine) :
    complete l x m = match (x >>= fun _ => settled l) m with
      | .ok _ m => .ok () m
      | .error e m => .error e m.unwind := by
  rw [complete]
  cases hx : x m with
  | ok a m₁ =>
    rw [bind_of_ok hx, settled]
    cases hs : settle? l m₁ with
    | none => simp only [hs, Option.getD_none]
    | some r => cases r <;> simp only [hs, Option.getD_some]
  | error e m₁ => rw [bind_of_error hx]

theorem settled_of_some {m : Machine} {r : EStateM.Result Error Machine Unit}
    (h : settle? l m = some r) : settled l m = r := by
  rw [settled, h, Option.getD_some]

theorem feed_of_ok {v : Value} {m m₁ m₂ : Machine} (h : accept l v m = .ok () m₁)
    (hs : settle? l m₁ = some (.ok () m₂)) : feed l v m = .ok () m₂ := by
  simp only [feed, complete, h, hs]

theorem feed_of_accept_error {v : Value} {m m₁ : Machine} {e : Error}
    (h : accept l v m = .error e m₁) : feed l v m = .error e m₁.unwind := by
  simp only [feed, complete, h]

theorem feed_of_settle_error {v : Value} {m m₁ m₂ : Machine} {e : Error}
    (h : accept l v m = .ok () m₁) (hs : settle? l m₁ = some (.error e m₂)) :
    feed l v m = .error e m₂.unwind := by
  simp only [feed, complete, h, hs]

theorem feedItems_of_ok {i : Item} {is : List Item} {v : Value} {m m₁ : Machine}
    (hv : i.value? = some v) (h : feed l v m = .ok () m₁) :
    feedItems l (i :: is) m = feedItems l is m₁ := by
  simp only [feedItems, feedItem_of_value hv, h]

theorem feedItems_of_error {i : Item} {is : List Item} {v : Value} {m m₁ : Machine} {e : Error}
    (hv : i.value? = some v) (h : feed l v m = .error e m₁) :
    feedItems l (i :: is) m = .error e m₁ := by
  simp only [feedItems, feedItem_of_value hv, h]

theorem feedItems_cons (l : Limits) (i : Item) (is : List Item) :
    feedItems l (i :: is) = feedItem l i >>= fun _ => feedItems l is := by
  funext m
  cases h : feedItem l i m with
  | ok a m₁ => simp only [feedItems, h, bind_of_ok h]
  | error e m₁ => simp only [feedItems, h, bind_of_error h]

theorem feedItems_append (l : Limits) (is js : List Item) :
    feedItems l (is ++ js) = feedItems l is >>= fun _ => feedItems l js := by
  induction is with
  | nil => rfl
  | cons i is ih => rw [List.cons_append, feedItems_cons, feedItems_cons, ih, bind_assoc]

/-- The tokens of a text do what their values do. -/
theorem feedItems_of_runs {vs : List Value} {m : Machine} {r : Except Error Machine}
    {is : List Item} : Runs l vs m r → is.map Item.value? = vs.map some →
    match r with
    | .ok m' => feedItems l is { m with calls := [] } = .ok () { m' with calls := [] }
    | .error e => ∃ m', feedItems l is { m with calls := [] } = .error e m' := by
  intro h his
  induction h generalizing is with
  | done =>
    obtain rfl := List.map_eq_nil_iff.1 his
    rfl
  | @failed v vs m e h =>
    obtain ⟨i, is, rfl, hi, -⟩ := List.map_eq_cons_iff.1 his
    obtain ⟨m', hm'⟩ := h []
    exact ⟨_, feedItems_of_error hi (feed_of_accept_error hm')⟩
  | @passed v vs m m₁ r h _ ih =>
    obtain ⟨i, is, rfl, hi, his⟩ := List.map_eq_cons_iff.1 his
    rw [feedItems_of_ok hi (feed_of_ok (h []) (settle_of_nil rfl))]
    exact ih his
  | @called v vs w m m₁ m₂ r h hw _ _ ih =>
    obtain ⟨i, is, rfl, hi, his⟩ := List.map_eq_cons_iff.1 his
    -- a body that was entered is settled before the next item is read
    have hbody := settle_of_runs hw [] m.depth []
    rw [List.append_nil] at hbody
    have hend := (hbody.trans (settle_of_return m₂ m.depth [])).trans (settle_of_nil rfl)
    rw [feedItems_of_ok hi (feed_of_ok (h []) hend)]
    exact ih his
  | @callFailed v vs w m m₁ e h hw _ =>
    obtain ⟨i, is, rfl, hi, -⟩ := List.map_eq_cons_iff.1 his
    obtain ⟨m', hbody⟩ := settle_of_runs hw [] m.depth []
    rw [List.append_nil] at hbody
    exact ⟨_, feedItems_of_error hi (feed_of_settle_error (h []) hbody)⟩

end PdfFunctions.Machine
