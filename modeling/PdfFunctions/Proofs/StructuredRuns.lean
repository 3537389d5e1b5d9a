import PdfFunctions.Proofs.BodyReading
import PdfFunctions.Proofs.StructuredPrograms

namespace PdfFunctions

open Braces Machine StackM

variable {l : Limits} {m : Machine}

/-- The values run from `m` to the outcome `r` on the stack. Only the log may change besides. -/
def Ends (l : Limits) (vs : List Value) (m : Machine) (r : EStateM.Result Error Stack Unit) :
    Prop :=
  match r with
  | .ok _ t => ∃ log, Runs l vs m (.ok { m with stack := t, log })
  | .error e _ => Runs l vs m (.error e)

theorem Ends.prepend {u w : List Value} {s : Stack} {log : Log}
    {r : EStateM.Result Error Stack Unit} (hu : Runs l u m (.ok { m with stack := s, log }))
    (hw : Ends l w { m with stack := s, log } r) : Ends l (u ++ w) m r := by
  cases r with
  | ok a t =>
    obtain ⟨log', h⟩ := hw
    exact ⟨log', hu.append h⟩
  | error e t => exact hu.append hw

theorem Ends.bind {u w : List Value} {x y : StackM Unit} (hu : Ends l u m (x m.stack))
    (hw : ∀ t log, x m.stack = .ok () t → Ends l w { m with stack := t, log } (y t)) :
    Ends l (u ++ w) m ((x >>= fun _ => y) m.stack) := by
  cases hx : x m.stack with
  | ok a t =>
    rw [hx] at hu
    obtain ⟨log, hu⟩ := hu
    rw [bind_of_ok hx]
    exact .prepend hu (hw t log hx)
  | error e t =>
    rw [hx] at hu
    rw [bind_of_error hx]
    exact hu.append_error w

/-- A body that is entered and runs to its end at the depth at which it was entered. -/
theorem Ends.called {v : Value} {w : List Value} {s : Stack} {log : Log}
    {r : EStateM.Result Error Stack Unit}
    (h : ∀ cs, accept l v { m with calls := cs } =
      .ok () { m with stack := s, log, calls := ⟨w, m.depth⟩ :: cs })
    (hw : Ends l w { m with stack := s, log } r) : Ends l [v] m r := by
  cases r with
  | ok a t =>
    obtain ⟨log', hw⟩ := hw
    exact ⟨log', .called h hw .done⟩
  | error e t => exact .callFailed h hw

/-- A value that does nothing but what `x` does to the stack. -/
theorem ends_of_onStack {v : Value} {x : StackM Unit} {log : Log}
    (h : ∀ cs, accept l v { m with calls := cs } = onStack x { m with log, calls := cs }) :
    Ends l [v] m (x m.stack) := by
  cases hx : x m.stack with
  | ok a t =>
    refine ⟨log, .passed (fun cs => ?_) .done⟩
    rw [h]
    exact onStack_of_ok (m := { m with log, calls := cs }) hx
  | error e t =>
    refine .failed fun cs => ⟨{ m with stack := t, log, calls := cs }, ?_⟩
    rw [h]
    exact onStack_of_error (m := { m with log, calls := cs }) hx

theorem ends_push {v : Value} (hv : v.Plain) (hd : m.depth ≤ 1) :
    Ends l [v] m (push v m.stack) :=
  ends_of_onStack fun cs => accept_plain l hv (m := { m with calls := cs }) hd

theorem ends_act {op : Operator} (hop : op.runsBody = false) (hd : m.depth ≤ 1) :
    Ends l [.operator op] m (op.act m.stack) := by
  have h (cs : List Call) : accept l (.operator op) { m with calls := cs } =
      onStack op.act { m with log := m.logged op, calls := cs } :=
    (accept_operator l op (m := { m with calls := cs }) hd).trans (operate_eq_act hop _)
  exact ends_of_onStack h

section choose

variable {name : String} {n : Nat} {yes no : StackM Unit} {s t : Stack}

theorem choose_of_full (h : s.limit < s.live + n) :
    choose name n yes no s = .error (.stackOverflow s.limit) s := by
  refine bind_of_error ?_
  simp only [room, if_pos h]

theorem room_of_le (h : s.live + n ≤ s.limit) : room n s = .ok () s := room_eq_ok.2 ⟨h, rfl⟩

theorem choose_of_ok {b : Bool} (h : s.live + n ≤ s.limit) (hb : popBool name s = .ok b t) :
    choose name n yes no s = (if b then yes else no) t := by
  refine (bind_of_ok (room_of_le h)).trans ?_
  exact bind_of_ok hb

theorem choose_of_error {e : Error} (h : s.live + n ≤ s.limit)
    (hb : popBool name s = .error e t) : choose name n yes no s = .error e t := by
  refine (bind_of_ok (room_of_le h)).trans ?_
  exact bind_of_error hb

end choose

theorem operate_runIf_error {w : List Value} {s t : Stack} {e : Error}
    (hw : Body.Lifted w m.stack s) (hb : popBool "if" s = .error e t) :
    operate .runIf m = .error e { m with stack := t, log := m.logged .runIf } := by
  rw [operate_of_enough rfl (enough_of_lifted hw)]
  exact control_runIf_error (m := { m with log := m.logged .runIf }) hw hb

theorem operate_runIfElse_error {w w' : List Value} {s₁ s₂ t : Stack} {e : Error}
    (hw' : Body.Lifted w' m.stack s₁) (hw : Body.Lifted w s₁ s₂)
    (hb : popBool "ifelse" s₂ = .error e t) :
    operate .runIfElse m = .error e { m with stack := t, log := m.logged .runIfElse } := by
  rw [operate_of_enough rfl (enough_of_lifted_two hw' hw)]
  exact control_runIfElse_error (m := { m with log := m.logged .runIfElse }) hw' hw hb

/-- What a body does does not depend on where it was lifted off. -/
theorem ends_picked {op : Operator} {w : List Value} {t : Stack}
    {r : EStateM.Result Error Stack Unit} (hd : m.depth = 1) (hp : Picks op m.stack w t)
    (hw : ∀ log, Ends l w { m with stack := t, log } r) : Ends l [.operator op] m r := by
  refine .called (s := t) (fun cs => ?_) (hw (m.logged op))
  have h := operate_of_picks (m := { m with calls := cs }) hp
  rw [accept_operator l op (m := { m with calls := cs }) (Nat.le_of_eq hd), h, hd]

theorem ends_skipped {w : List Value} {s t : Stack} (hd : m.depth = 1)
    (hw : Body.Lifted w m.stack s) (hc : popBool "if" s = .ok false t) :
    Ends l [.operator .runIf] m (.ok () t) :=
  ⟨m.logged .runIf, .passed (fun cs =>
    (accept_operator l .runIf (m := { m with calls := cs }) (Nat.le_of_eq hd)).trans
      (operate_of_skipped (m := { m with calls := cs }) hw hc)) .done⟩

theorem ends_error {op : Operator} {e : Error} {t : Stack} (hd : m.depth ≤ 1)
    (h : ∀ cs, ∃ m', operate op { m with calls := cs } = .error e m') :
    Ends l [.operator op] m (.error e t) :=
  .failed fun cs => by
    rw [accept_operator l op (m := { m with calls := cs }) hd]
    exact h cs

/-- A body and `if`. -/
theorem ends_cond {w : List Value} {body : StackM Unit} (hw : Balanced w) (hd : m.depth = 1)
    (hs : m.stack.deferred = 0) (hn : nesting 2 w ≤ l.maxNesting)
    (hb : w.length + 1 ≤ l.maxBodies)
    (hbody : ∀ t log, t.deferred = 0 → Ends l w { m with stack := t, log } (body t)) :
    Ends l (braced w ++ [.operator .runIf]) m (choose "if" 1 body (pure ()) m.stack) := by
  -- pushing the body is the only step that can fail for room, and it comes before the condition
  by_cases hroom : m.stack.limit ≤ m.stack.live
  · rw [choose_of_full (by omega)]
    exact (runs_braced_full hd hroom hn).append_error _
  · have hle : m.stack.live + 1 ≤ m.stack.limit := by omega
    have hlift := m.stack.lifted_withBody hw
    refine .prepend (runs_braced hw hd (by omega) hn (by omega)) ?_
    cases hc : popBool "if" m.stack with
    | ok b t =>
      rw [choose_of_ok hle hc]
      have ht : t.deferred = 0 := (replaced_of_popBool hc).deferred.trans hs
      cases b with
      | true => exact ends_picked hd (.single hlift hc) fun log => hbody t log ht
      | false => exact ends_skipped hd hlift hc
    | error e t =>
      rw [choose_of_error hle hc]
      exact ends_error (Nat.le_of_eq hd) fun cs => ⟨_, operate_runIf_error
        (m := { m with stack := m.stack.withBody w, calls := cs }) hlift hc⟩

/-- Two bodies and `ifelse`. The second body needs room beside the first. -/
theorem ends_branch {w w' : List Value} {body otherwise : StackM Unit} (hw : Balanced w)
    (hw' : Balanced w') (hd : m.depth = 1) (hs : m.stack.deferred = 0)
    (hn : nesting 2 w ≤ l.maxNesting) (hn' : nesting 2 w' ≤ l.maxNesting)
    (hb : (w.length + 1) + (w'.length + 1) ≤ l.maxBodies)
    (hbody : ∀ t log, t.deferred = 0 → Ends l w { m with stack := t, log } (body t))
    (hotherwise : ∀ t log, t.deferred = 0 →
      Ends l w' { m with stack := t, log } (otherwise t)) :
    Ends l (braced w ++ (braced w' ++ [.operator .runIfElse])) m
      (choose "ifelse" 2 body otherwise m.stack) := by
  have hlive := Stack.live_withBody hs w
  by_cases hroom : m.stack.limit ≤ m.stack.live
  · rw [choose_of_full (by omega)]
    exact (runs_braced_full hd hroom hn).append_error _
  -- the first body is on the stack, and leaves one operand less of room to the second
  have hfirst := runs_braced (l := l) hw hd (by omega) hn (by omega)
  let m₁ : Machine := { m with stack := m.stack.withBody w }
  by_cases hroom' : m.stack.limit < m.stack.live + 2
  · rw [choose_of_full hroom']
    have hfull : m₁.stack.limit ≤ m₁.stack.live := by
      change m.stack.limit ≤ (m.stack.withBody w).live
      omega
    exact hfirst.append ((runs_braced_full (m := m₁) hd hfull hn').append_error _)
  · have hle : m.stack.live + 2 ≤ m.stack.limit := by omega
    have hlift := m.stack.lifted_withBody hw
    have hlift' := m₁.stack.lifted_withBody hw'
    have hsecond : Runs l (braced w') m₁ (.ok { m₁ with stack := m₁.stack.withBody w' }) := by
      refine runs_braced hw' hd ?_ hn' ?_
      · change (m.stack.withBody w).live < m.stack.limit
        omega
      · rw [Stack.deferred_withBody]
        omega
    refine .prepend hfirst (.prepend hsecond ?_)
    cases hc : popBool "ifelse" m.stack with
    | ok b t =>
      rw [choose_of_ok hle hc]
      have ht : t.deferred = 0 := (replaced_of_popBool hc).deferred.trans hs
      cases b with
      | true => exact ends_picked hd (.first hlift' hlift hc) fun log => hbody t log ht
      | false => exact ends_picked hd (.second hlift' hlift hc) fun log => hotherwise t log ht
    | error e t =>
      rw [choose_of_error hle hc]
      exact ends_error (Nat.le_of_eq hd) fun cs => ⟨_, operate_runIfElse_error
        (m := { m₁ with stack := m₁.stack.withBody w', calls := cs }) hlift' hlift hc⟩

/-- The values of a structured program do what the program does. -/
theorem ends_code (p : Program) (hd : m.depth = 1) (hs : m.stack.deferred = 0)
    (hn : nesting 1 p.code ≤ l.maxNesting) (hb : p.Fits l.maxBodies) :
    Ends l p.code m (p.exec m.stack) := by
  -- between two instructions nothing is deferred, whatever the first of them was
  have steady := steady_deferred 0
  induction p generalizing m with
  | done => exact ⟨m.log, .done⟩
  | number x rest ih =>
    have hkeep := steady.push (Value.plain_number x)
    refine .bind (u := [.number x]) (ends_push (by simp) (Nat.le_of_eq hd)) fun t log ht =>
      ih hd (hkeep ht hs) ?_ hb
    exact Nat.le_trans (depthAfter_le_nesting 1 (.number x) _) hn
  | bool b rest ih =>
    have hkeep := steady.push (Value.plain_bool b)
    refine .bind (u := [.bool b]) (ends_push (by simp) (Nat.le_of_eq hd)) fun t log ht =>
      ih hd (hkeep ht hs) ?_ hb
    exact Nat.le_trans (depthAfter_le_nesting 1 (.bool b) _) hn
  | plain op hop rest ih =>
    refine .bind (u := [.operator op]) (ends_act hop (Nat.le_of_eq hd)) fun t log ht =>
      ih hd (steady.act op ht hs) ?_ hb
    exact Nat.le_trans (depthAfter_le_nesting 1 (.operator op) _) hn
  | cond body rest ihb ih =>
    obtain ⟨hlen, hfb, hfr⟩ := hb
    obtain ⟨hbody, hrest⟩ := Program.nesting_of_cond hn
    have hinner := Nat.le_trans (nesting_mono (Nat.le_succ 1) body.code) hbody
    have hcond := ends_cond body.balanced_code hd hs hbody hlen
      fun t log ht => ihb (m := { m with stack := t, log }) hd ht hinner hfb
    have hcode : (Program.cond body rest).code =
        (braced body.code ++ [.operator .runIf]) ++ rest.code := by
      simp [Program.code]
    rw [hcode]
    have hkeep : Preserves (·.deferred = 0) (choose "if" 1 body.exec (pure ())) :=
      steady.choose (steady.exec body) (preserves_pure ())
    exact .bind hcond fun t log ht => ih hd (hkeep ht hs) hrest hfr
  | branch body otherwise rest ihb iho ih =>
    obtain ⟨hlen, hfb, hfo, hfr⟩ := hb
    obtain ⟨hbody, hother, hrest⟩ := Program.nesting_of_branch hn
    have hinner := Nat.le_trans (nesting_mono (Nat.le_succ 1) body.code) hbody
    have hinner' := Nat.le_trans (nesting_mono (Nat.le_succ 1) otherwise.code) hother
    have hbranch := ends_branch body.balanced_code otherwise.balanced_code hd hs hbody hother hlen
      (fun t log ht => ihb (m := { m with stack := t, log }) hd ht hinner hfb)
      (fun t log ht => iho (m := { m with stack := t, log }) hd ht hinner' hfo)
    have hcode : (Program.branch body otherwise rest).code =
        (braced body.code ++ (braced otherwise.code ++ [.operator .runIfElse])) ++ rest.code := by
      simp [Program.code]
    rw [hcode]
    have hkeep : Preserves (·.deferred = 0) (choose "ifelse" 2 body.exec otherwise.exec) :=
      steady.choose (steady.exec body) (steady.exec otherwise)
    exact .bind hbranch fun t log ht => ih hd (hkeep ht hs) hrest hfr

/-- The braces around a program run what is between them. -/
theorem runs_wrapped {p : Program} {s : Stack} {log : Log} (hs : s.deferred = 0)
    (hn : nesting 0 (braced p.code) ≤ l.maxNesting) (hb : p.Fits l.maxBodies) :
    Ends l (braced p.code) { stack := s, log } (p.exec s) := by
  have hinner := Nat.le_trans (nesting_le_braced 0 p.code) hn
  have hpos : 0 < l.maxNesting := Nat.lt_of_lt_of_le (le_nesting 1 p.code) hinner
  have hopen (cs : List Call) : accept l .opening { stack := s, log, calls := cs } =
      .ok () { stack := s, depth := 1, log, calls := cs } :=
    accept_of_accepts (.wrapperOpens rfl hpos)
  have hcode := ends_code (l := l) (m := { stack := s, depth := 1, log }) p rfl hs hinner hb
  -- an error inside leaves the closing brace unread
  cases hx : p.exec s with
  | ok a t =>
    rw [hx] at hcode
    obtain ⟨log', hcode⟩ := hcode
    have hclose (cs : List Call) :
        accept l .closing { stack := t, depth := 1, log := log', calls := cs } =
          .ok () { stack := t, depth := 0, log := log', calls := cs } :=
      accept_of_accepts (.wrapperCloses rfl)
    exact ⟨log', .passed hopen (hcode.append (.passed hclose .done))⟩
  | error e t =>
    rw [hx] at hcode
    exact .passed hopen (hcode.append_error [.closing])

theorem evaluateText_of_ends {text : Bytes} {vs : List Value} {s : Stack} {log : Log}
    {r : EStateM.Result Error Stack Unit}
    (htext : (tokenize text).map Item.value? = vs.map some)
    (h : Ends l vs { stack := s, log } r) :
    ∃ log', evaluateText l text s log =
      match r with
      | .ok _ t => .ok t log'
      | .error e _ => .error e log' := by
  cases r with
  | ok a t =>
    obtain ⟨log', h⟩ := h
    have hfeed := feedItems_of_runs h htext
    have hrun : run l text { stack := s, log } = .ok () { stack := t, log := log' } :=
      bind_of_ok hfeed
    exact ⟨log', by simp only [evaluateText, hrun]⟩
  | error e t =>
    obtain ⟨m', hfeed⟩ := feedItems_of_runs h htext
    have hrun : run l text { stack := s, log } = .error e m' := bind_of_error hfeed
    exact ⟨m'.log, by simp only [evaluateText, hrun]⟩

/-- Any text that spells a structured program leaves the stack, or ends in the error, that running
the program itself does. -/
theorem evaluateText_eq_exec {text : Bytes} {p : Program} {limit : Nat} {xs : List Float}
    {s : Stack} {log : Log} (hs : Stack.ofNumbers limit xs = .ok s)
    (htext : (tokenize text).map Item.value? = (braced p.code).map some)
    (hn : nesting 0 (braced p.code) ≤ l.maxNesting) (hb : p.Fits l.maxBodies) :
    ∃ log', evaluateText l text s log =
      match p.exec s with
      | .ok _ t => .ok t log'
      | .error e _ => .error e log' := by
  obtain ⟨-, -, hd, -⟩ := Stack.of_ofNumbers hs
  exact evaluateText_of_ends htext (runs_wrapped hd hn hb)

/-- Two bodies at an `ifelse`, and a third inside one of them. -/
theorem evaluateText_eq_exec_nested :
    let body : Program := .plain .dup rfl (.bool true (.cond (.plain .add rfl .done) .done))
    let p : Program := .bool true (.branch body (.plain .pop rfl .done) .done)
    ∃ s log', Stack.ofNumbers 5 [3] = .ok s ∧
      evaluateText {} (Bytes.ofText
        "\x7b true \x7b dup true \x7b add \x7d if \x7d \x7b pop \x7d ifelse \x7d") s [] =
        match p.exec s with
        | .ok _ t => .ok t log'
        | .error e _ => .error e log' := by
  intro body p
  have hs : Stack.ofNumbers 5 [3] = .ok { limit := 5, values := [.number 3] } := rfl
  have htext : (tokenize (Bytes.ofText
      "\x7b true \x7b dup true \x7b add \x7d if \x7d \x7b pop \x7d ifelse \x7d")).map Item.value? =
      (braced p.code).map some := by decide +kernel
  have hn : nesting 0 (braced p.code) ≤ ({} : Limits).maxNesting := by decide +kernel
  have hb : p.Fits ({} : Limits).maxBodies := by simp [p, body, Program.Fits, Program.code, braced]
  obtain ⟨log', h⟩ := evaluateText_eq_exec hs htext hn hb
  exact ⟨_, log', hs, h⟩

end PdfFunctions
