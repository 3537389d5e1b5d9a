import PdfFunctions.Proofs.MissingOperands
import PdfFunctions.Proofs.StructuredRuns

namespace PdfFunctions

open Braces Machine StackM

/-- What `if` and `ifelse` do to a stack that has no body on top. -/
def StackM.missBody (op : Operator) : StackM Unit := do
  require op.name op.inputs
  let v ← pop op.name
  throw (.typeMismatch "procedure" v.typeName)

namespace Program

/-- No conditional stands outside all bodies. -/
def Straight : Program → Prop
  | done => True
  | number _ rest | bool _ rest | plain _ _ rest => rest.Straight
  | cond .. | branch .. => False

/-- Runs the program as it stands without braces around it. The first conditional ends the run. -/
def execBare : Program → StackM Unit
  | done => pure ()
  | number x rest => do
    push (.number x)
    rest.execBare
  | bool b rest => do
    push (.bool b)
    rest.execBare
  | plain op _ rest => do
    op.act
    rest.execBare
  | cond body _ => do
    body.exec
    missBody .runIf
  | branch body otherwise _ => do
    body.exec
    otherwise.exec
    missBody .runIfElse

theorem execBare_of_straight {p : Program} (h : p.Straight) : p.execBare = p.exec := by
  induction p with
  | done => rfl
  | number x rest ih | bool b rest ih | plain op hop rest ih => rw [execBare, exec, ih h]
  | cond | branch => exact absurd h id

end Program

variable {l : Limits} {m : Machine} {s t : Stack}

def Fails (x : StackM Unit) : Prop := ∀ s, ∃ e t, x s = .error e t

theorem Fails.after {x y : StackM Unit} (hy : Fails y) : Fails (x >>= fun _ => y) := by
  intro s
  cases hx : x s with
  | ok u t =>
    rw [bind_of_ok hx]
    exact hy t
  | error e t => exact ⟨e, t, bind_of_error hx⟩

theorem fails_missBody (op : Operator) : Fails (missBody op) := by
  have hthrow : Fails (pop op.name >>= fun v => throw (.typeMismatch "procedure" v.typeName)) := by
    intro s
    cases hv : s.values with
    | nil => exact ⟨_, _, bind_of_error (pop_of_nil hv)⟩
    | cons v vs => exact ⟨_, _, bind_of_ok (pop_of_cons hv)⟩
  exact hthrow.after

/-- A conditional outside all bodies fails. -/
theorem Program.fails_execBare {p : Program} (h : ¬ p.Straight) : Fails p.execBare := by
  induction p with
  | done => exact absurd trivial h
  | number x rest ih | bool b rest ih | plain op hop rest ih => exact (ih h).after
  | cond body rest => exact (fails_missBody .runIf).after
  | branch body otherwise rest => exact (fails_missBody .runIfElse).after.after

def Stack.Bare (s : Stack) : Prop := s.deferred = 0 ∧ ∀ v ∈ s.values, v.Plain

theorem bare_of_replaced {p q : List Value} (hr : Stack.Replaced p q s t) (hs : s.Bare)
    (hq : ∀ v ∈ q, v.Plain) : t.Bare := by
  obtain ⟨b, hsv, htv⟩ := hr.values
  refine ⟨hr.deferred.trans hs.1, fun v hv => ?_⟩
  rw [htv] at hv
  rcases List.mem_append.1 hv with hv | hv
  · exact hq v hv
  · exact hs.2 v (hsv ▸ List.mem_append_right p hv)

theorem steady_bare : Steady Stack.Bare where
  push hv _ _ _ h hs := bare_of_replaced (replaced_of_push h) hs (by simpa using hv)
  act op s u t h hs := by
    obtain ⟨p, q, hr, -, hq⟩ := Operator.effect_act h
    have hmem {v : Value} (h : v ∈ Rearrangement.handled op s.values) : v ∈ s.values :=
      Rearrangement.handled_subset op s.values h
    exact bare_of_replaced hr hs fun v hv => (hq v hv).elim id fun h => hs.2 v (hmem h)
  condition h hs := bare_of_replaced (replaced_of_popBool h) hs (by simp)

/-- Both operators begin by lifting a body. -/
theorem control_of_pop_error {op : Operator} (hop : op.runsBody = true) {e : Error}
    (h : Body.pop op.name m.stack = .error e t) :
    control op m = .error e { m with stack := t } := by
  have hlift := onStack_of_error h
  cases op with
  | runIf | runIfElse => exact bind_of_error hlift
  | _ => exact absurd hop (by decide)

theorem operate_of_missBody {op : Operator} (hop : op.runsBody = true)
    (hs : ∀ v ∈ m.stack.values, v.Plain) {e : Error} (h : missBody op m.stack = .error e t) :
    operate op m = .error e { m with stack := t, log := m.logged op } := by
  by_cases hn : op.inputs ≤ m.stack.values.length
  · rw [operate_of_enough (Operator.category_of_runsBody hop) hn]
    apply control_of_pop_error (m := { m with log := m.logged op }) hop
    have htwo := Operator.two_le_inputs hop
    obtain ⟨v, vs, hv⟩ : ∃ v vs, m.stack.values = v :: vs :=
      List.exists_cons_of_length_pos (by omega)
    -- among plain values no brace can close a body, so the pop fails on the first value
    have hne : v ≠ .closing := by
      rintro rfl
      simpa using hs .closing (hv ▸ List.mem_cons_self)
    have hmiss : missBody op m.stack =
        .error (.typeMismatch "procedure" v.typeName) (m.stack.holding vs) :=
      (bind_of_ok (require_of_le hn)).trans (bind_of_ok (pop_of_cons hv))
    obtain ⟨rfl, rfl⟩ := EStateM.Result.error.inj (h.symm.trans hmiss)
    exact Body.pop_of_ne_closing hne hv
  -- too few values: the count fails before anything is popped, as it does in the interpreter
  · have hn := Nat.lt_of_not_le hn
    rw [missBody, bind_of_error (require_of_lt hn)] at h
    cases h
    exact operate_of_few (m.stack.size_eq ▸ hn)

/-- Outside all braces a conditional finds plain values only, and nothing after it is read. -/
theorem ends_missBody {op : Operator} {log : Log} (hop : op.runsBody = true) (hs : s.Bare)
    (vs : List Value) : Ends l (.operator op :: vs) { stack := s, log } (missBody op s) := by
  obtain ⟨e, t, h⟩ := fails_missBody op s
  rw [h]
  refine .failed fun cs => ⟨{ stack := t, calls := cs, log := .execute op s.size :: log }, ?_⟩
  rw [accept_operator l op (m := { stack := s, calls := cs, log }) (Nat.zero_le 1)]
  exact operate_of_missBody (m := { stack := s, calls := cs, log }) hop hs.2 h

/-- The values of a structured program do what the program does without braces around it. -/
theorem ends_bare (p : Program) {log : Log} (hs : s.Bare) (hn : nesting 0 p.code ≤ l.maxNesting)
    (hb : p.Fits l.maxBodies) : Ends l p.code { stack := s, log } (p.execBare s) := by
  have hdepth := Nat.zero_le 1
  induction p generalizing s log with
  | done => exact ⟨log, .done⟩
  | number x rest ih =>
    have hrest := Nat.le_trans (depthAfter_le_nesting 0 (.number x) _) hn
    refine .bind (u := [.number x]) (ends_push (by simp) hdepth) fun t log ht => ?_
    exact ih (steady_bare.push (by simp) ht hs) hrest hb
  | bool b rest ih =>
    have hrest := Nat.le_trans (depthAfter_le_nesting 0 (.bool b) _) hn
    refine .bind (u := [.bool b]) (ends_push (by simp) hdepth) fun t log ht => ?_
    exact ih (steady_bare.push (by simp) ht hs) hrest hb
  | plain op hop rest ih =>
    have hrest := Nat.le_trans (depthAfter_le_nesting 0 (.operator op) _) hn
    refine .bind (u := [.operator op]) (ends_act hop hdepth) fun t log ht => ?_
    exact ih (steady_bare.act op ht hs) hrest hb
  | cond body rest =>
    obtain ⟨-, hfits, -⟩ := hb
    rw [Program.code, nesting_append_of_balanced 0 (balanced_braced body.balanced_code)] at hn
    have hnest := (Nat.max_le.1 hn).1
    -- at depth 0 the body is taken for the wrapped program: it runs where it stands,
    -- and the operator after it finds no body
    refine .bind (runs_wrapped hs.1 hnest hfits) fun t log ht => ?_
    exact ends_missBody rfl (steady_bare.exec body ht hs) rest.code
  | branch body otherwise rest =>
    obtain ⟨-, hfits, hfits', -⟩ := hb
    rw [Program.code, nesting_append_of_balanced 0 (balanced_braced body.balanced_code),
      nesting_append_of_balanced 0 (balanced_braced otherwise.balanced_code)] at hn
    obtain ⟨hnest, hn⟩ := Nat.max_le.1 hn
    have hnest' := (Nat.max_le.1 hn).1
    refine .bind (runs_wrapped hs.1 hnest hfits) fun t log ht => ?_
    have hst := steady_bare.exec body ht hs
    refine .bind (runs_wrapped hst.1 hnest' hfits') fun t' log' ht' => ?_
    exact ends_missBody rfl (steady_bare.exec otherwise ht' hst) rest.code

def answer : EStateM.Result Error Log Stack → Except Error Stack
  | .ok s _ => .ok s
  | .error e _ => .error e

def StackM.answer : EStateM.Result Error Stack Unit → Except Error Stack
  | .ok _ s => .ok s
  | .error e _ => .error e

theorem answer_of_ends {text : Bytes} {vs : List Value} {log : Log}
    {r : EStateM.Result Error Stack Unit} (htext : (tokenize text).map Item.value? = vs.map some)
    (h : Ends l vs { stack := s, log } r) :
    answer (evaluateText l text s log) = StackM.answer r := by
  obtain ⟨log', heval⟩ := evaluateText_of_ends htext h
  rw [heval]
  cases r <;> rfl

theorem bare_of_ofNumbers {limit : Nat} {xs : List Float} (h : Stack.ofNumbers limit xs = .ok s) :
    s.Bare := by
  obtain ⟨hv, -, hd, -⟩ := Stack.of_ofNumbers h
  refine ⟨hd, fun v hmem => ?_⟩
  rw [hv] at hmem
  obtain ⟨x, -, rfl⟩ := List.mem_map.1 (List.mem_reverse.1 hmem)
  exact Value.plain_number x

theorem nesting_of_braced {n : Nat} {w : List Value} (h : nesting 0 (braced w) ≤ n) :
    nesting 0 w ≤ n :=
  calc nesting 0 w ≤ nesting 1 w := nesting_mono (Nat.zero_le 1) w
    _ ≤ nesting 0 (braced w) := nesting_le_braced 0 w
    _ ≤ n := h

/-- The braces around a structured program can be left out, with the same final stack or error,
exactly if no conditional stands outside all bodies, or if the program fails alike either way.
Where there is such a conditional, the program without braces always fails. -/
theorem evaluateText_bare_iff {bare wrapped : Bytes} {p : Program} {limit : Nat}
    {xs : List Float} {log : Log} (hs : Stack.ofNumbers limit xs = .ok s)
    (hbare : (tokenize bare).map Item.value? = p.code.map some)
    (hwrapped : (tokenize wrapped).map Item.value? = (braced p.code).map some)
    (hn : nesting 0 (braced p.code) ≤ l.maxNesting) (hb : p.Fits l.maxBodies) :
    (answer (evaluateText l bare s log) = answer (evaluateText l wrapped s log) ↔
      p.Straight ∨ ∃ e, StackM.answer (p.exec s) = .error e ∧
        StackM.answer (p.execBare s) = .error e) ∧
    answer (evaluateText l bare s log) = StackM.answer (p.execBare s) ∧
    (¬ p.Straight → ∃ e, answer (evaluateText l bare s log) = .error e) := by
  have hplain := bare_of_ofNumbers hs
  have heval : answer (evaluateText l bare s log) = StackM.answer (p.execBare s) :=
    answer_of_ends hbare (ends_bare p hplain (nesting_of_braced hn) hb)
  have heval' : answer (evaluateText l wrapped s log) = StackM.answer (p.exec s) :=
    answer_of_ends hwrapped (runs_wrapped hplain.1 hn hb)
  have hfails (h : ¬ p.Straight) : ∃ e, StackM.answer (p.execBare s) = .error e := by
    obtain ⟨e, t, he⟩ := Program.fails_execBare h s
    exact ⟨e, congrArg StackM.answer he⟩
  rw [heval, heval']
  refine ⟨⟨fun h => ?_, ?_⟩, rfl, hfails⟩
  -- a program with a branch always fails when bare, so the two can only agree on that error
  · by_cases hp : p.Straight
    · exact .inl hp
    · obtain ⟨e, he⟩ := hfails hp
      exact .inr ⟨e, h ▸ he, he⟩
  · rintro (hp | ⟨e, he, he'⟩)
    · rw [Program.execBare_of_straight hp]
    · exact he'.trans he.symm

/-- A program without conditionals. -/
theorem evaluateText_bare_of_straight :
    let p : Program := .plain .dup rfl (.number 4 (.plain .add rfl .done))
    ∃ s, Stack.ofNumbers 5 [3] = .ok s ∧ p.Straight ∧
      answer (evaluateText {} (Bytes.ofText "dup 4 add") s []) =
        answer (evaluateText {} (Bytes.ofText "\x7b dup 4 add \x7d") s []) := by
  intro p
  have hs : Stack.ofNumbers 5 [3] = .ok { limit := 5, values := [.number 3] } := rfl
  have hbare : (tokenize (Bytes.ofText "dup 4 add")).map Item.value? = p.code.map some := by
    decide +kernel
  have hwrapped : (tokenize (Bytes.ofText "\x7b dup 4 add \x7d")).map Item.value? =
      (braced p.code).map some := by decide +kernel
  have hn : nesting 0 (braced p.code) ≤ ({} : Limits).maxNesting := by decide +kernel
  have hb : p.Fits ({} : Limits).maxBodies := trivial
  have hp : p.Straight := trivial
  exact ⟨_, hs, hp, (evaluateText_bare_iff hs hbare hwrapped hn hb).1.2 (.inl hp)⟩

/-- Without braces around it, both bodies of the choice run. -/
theorem evaluateText_bare_differs :
    let p : Program := .bool true (.branch (.number 1 .done) (.number 2 .done) .done)
    let bare := Bytes.ofText "true \x7b 1 \x7d \x7b 2 \x7d ifelse"
    let wrapped := Bytes.ofText "\x7b true \x7b 1 \x7d \x7b 2 \x7d ifelse \x7d"
    (tokenize bare).map Item.value? = p.code.map some ∧
      (tokenize wrapped).map Item.value? = (braced p.code).map some ∧
      nesting 0 (braced p.code) ≤ ({} : Limits).maxNesting ∧ p.Fits ({} : Limits).maxBodies ∧
      ∃ s, Stack.ofNumbers 100 [] = .ok s ∧
        answer (evaluateText {} bare s []) = .error (.typeMismatch "procedure" "number") ∧
        answer (evaluateText {} wrapped s []) = .ok { limit := 100, values := [.number 1] } := by
  intro p bare wrapped
  have hs : Stack.ofNumbers 100 [] = .ok { limit := 100 } := rfl
  have hbare : (tokenize bare).map Item.value? = p.code.map some := by decide +kernel
  have hwrapped : (tokenize wrapped).map Item.value? = (braced p.code).map some := by
    decide +kernel
  have hn : nesting 0 (braced p.code) ≤ ({} : Limits).maxNesting := by decide +kernel
  have hb : p.Fits ({} : Limits).maxBodies := by simp [p, Program.Fits, Program.code]
  have hplain := bare_of_ofNumbers hs
  exact ⟨hbare, hwrapped, hn, hb, _, hs,
    answer_of_ends hbare (ends_bare p hplain (nesting_of_braced hn) hb),
    answer_of_ends hwrapped (runs_wrapped rfl hn hb)⟩

end PdfFunctions
