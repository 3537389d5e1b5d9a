import PdfFunctions.Proofs.Braces
import PdfFunctions.Proofs.OperatorEffects

namespace PdfFunctions

open Braces StackM

/-- A list of instructions. Each constructor is the first of them, and `rest` the others. -/
inductive Program where
  | done
  | number (x : Float) (rest : Program)
  | bool (b : Bool) (rest : Program)
  -- any operator that runs no body
  | plain (op : Operator) (h : op.runsBody = false) (rest : Program)
  -- a body and `if`
  | cond (body rest : Program)
  -- two bodies and `ifelse`
  | branch (body otherwise rest : Program)

def StackM.room (n : Nat) : StackM Unit := fun s =>
  if s.limit < s.live + n then .error (.stackOverflow s.limit) s else .ok () s

/-- Pops the condition of `op` and does what it says. There has to be room for `n` bodies first. -/
def StackM.choose (op : String) (n : Nat) (yes no : StackM Unit) : StackM Unit := do
  room n
  if ← popBool op then yes else no

namespace Program

def code : Program → List Value
  | done => []
  | number x rest => .number x :: rest.code
  | bool b rest => .bool b :: rest.code
  | plain op _ rest => .operator op :: rest.code
  | cond body rest => braced body.code ++ .operator .runIf :: rest.code
  | branch body otherwise rest =>
    braced body.code ++ (braced otherwise.code ++ .operator .runIfElse :: rest.code)

/-- At each `if` and `ifelse` the bodies hold at most `n` values, opening braces apart. -/
def Fits (n : Nat) : Program → Prop
  | done => True
  | number _ rest | bool _ rest | plain _ _ rest => rest.Fits n
  | cond body rest => body.code.length + 1 ≤ n ∧ body.Fits n ∧ rest.Fits n
  | branch body otherwise rest =>
    (body.code.length + 1) + (otherwise.code.length + 1) ≤ n ∧ body.Fits n ∧ otherwise.Fits n ∧
      rest.Fits n

def exec : Program → StackM Unit
  | done => pure ()
  | number x rest => do
    push (.number x)
    rest.exec
  | bool b rest => do
    push (.bool b)
    rest.exec
  | plain op _ rest => do
    op.act
    rest.exec
  | cond body rest => do
    choose "if" 1 body.exec (pure ())
    rest.exec
  | branch body otherwise rest => do
    choose "ifelse" 2 body.exec otherwise.exec
    rest.exec

theorem balanced_code (p : Program) : Balanced p.code := by
  induction p with
  | done => rfl
  | number x rest ih | bool b rest ih | plain op h rest ih => exact balanced_cons rfl ih
  | cond body rest ihb ih => exact balanced_append (balanced_braced ihb) (balanced_cons rfl ih)
  | branch body otherwise rest ihb iho ih =>
    exact balanced_append (balanced_braced ihb)
      (balanced_append (balanced_braced iho) (balanced_cons rfl ih))

theorem nesting_of_cond {n : Nat} {body rest : Program}
    (h : nesting 1 (cond body rest).code ≤ n) :
    nesting 2 body.code ≤ n ∧ nesting 1 rest.code ≤ n := by
  rw [code, nesting_append_of_balanced 1 (balanced_braced body.balanced_code)] at h
  obtain ⟨hbody, hrest⟩ := Nat.max_le.1 h
  exact ⟨Nat.le_trans (nesting_le_braced 1 _) hbody,
    Nat.le_trans (depthAfter_le_nesting 1 (.operator .runIf) _) hrest⟩

theorem nesting_of_branch {n : Nat} {body otherwise rest : Program}
    (h : nesting 1 (branch body otherwise rest).code ≤ n) :
    nesting 2 body.code ≤ n ∧ nesting 2 otherwise.code ≤ n ∧ nesting 1 rest.code ≤ n := by
  rw [code, nesting_append_of_balanced 1 (balanced_braced body.balanced_code),
    nesting_append_of_balanced 1 (balanced_braced otherwise.balanced_code)] at h
  obtain ⟨hbody, h⟩ := Nat.max_le.1 h
  obtain ⟨hother, hrest⟩ := Nat.max_le.1 h
  exact ⟨Nat.le_trans (nesting_le_braced 1 _) hbody, Nat.le_trans (nesting_le_braced 1 _) hother,
    Nat.le_trans (depthAfter_le_nesting 1 (.operator .runIfElse) _) hrest⟩

end Program

theorem room_eq_ok {n : Nat} {s t : Stack} {u : Unit} :
    room n s = .ok u t ↔ s.live + n ≤ s.limit ∧ s = t := by
  unfold room
  split
  · simp
    omega
  · simp only [EStateM.Result.ok.injEq, true_and]
    constructor
    · intro h
      exact ⟨by omega, h⟩
    · intro h
      exact h.2

def Preserves (P : Stack → Prop) (x : StackM Unit) : Prop :=
  ∀ ⦃s u t⦄, x s = .ok u t → P s → P t

structure Steady (P : Stack → Prop) : Prop where
  push : ∀ {v}, v.Plain → Preserves P (push v)
  act : ∀ op : Operator, Preserves P op.act
  condition : ∀ {op b s t}, popBool op s = .ok b t → P s → P t

variable {P : Stack → Prop} {x y : StackM Unit}

theorem preserves_pure (u : Unit) : Preserves P (pure u) := by
  intro s u t h hs
  obtain ⟨-, rfl⟩ := pure_eq_ok.1 h
  exact hs

theorem Preserves.andThen (hx : Preserves P x) (hy : Preserves P y) :
    Preserves P (x >>= fun _ => y) := by
  intro s u t h hs
  obtain ⟨_, s', hx', h⟩ := bind_eq_ok.1 h
  exact hy h (hx hx' hs)

theorem Steady.choose {op : String} {n : Nat} (hP : Steady P) (hx : Preserves P x)
    (hy : Preserves P y) : Preserves P (choose op n x y) := by
  intro s u t h hs
  obtain ⟨_, s₁, hroom, h⟩ := bind_eq_ok.1 h
  obtain ⟨-, rfl⟩ := room_eq_ok.1 hroom
  obtain ⟨b, s₂, hb, h⟩ := bind_eq_ok.1 h
  have hs₂ := hP.condition hb hs
  cases b with
  | true => exact hx h hs₂
  | false => exact hy h hs₂

theorem Steady.exec (hP : Steady P) (p : Program) : Preserves P p.exec := by
  induction p with
  | done => exact preserves_pure ()
  | number x rest ih => exact (hP.push (by simp)).andThen ih
  | bool b rest ih => exact (hP.push (by simp)).andThen ih
  | plain op hop rest ih => exact (hP.act op).andThen ih
  | cond body rest ihb ih => exact (hP.choose ihb (preserves_pure ())).andThen ih
  | branch body otherwise rest ihb iho ih => exact (hP.choose ihb iho).andThen ih

theorem steady_deferred (n : Nat) : Steady fun s => s.deferred = n where
  push _ _ _ _ h hs := (replaced_of_push h).deferred.trans hs
  act _ _ _ _ h hs := (Operator.act_counts h).2.trans hs
  condition h hs := (replaced_of_popBool h).deferred.trans hs

end PdfFunctions
