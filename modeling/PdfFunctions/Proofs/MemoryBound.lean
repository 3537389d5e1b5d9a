import Mathlib.Logic.Relation
import PdfFunctions.Proofs.Invariants
import PdfFunctions.Proofs.Endings

namespace PdfFunctions

namespace Stack

/-- As many values as the limit of the stack allows, and the deferred ones. -/
structure Bounded (n most : Nat) (s : Stack) : Prop where
  limit : s.limit = n
  size : s.size ≤ n + s.deferred
  deferred : s.deferred ≤ most

/-- The deferred count may be wrong, but a push is refused while it would break the bound. -/
theorem robust_bounded (n most : Nat) : Robust most (Bounded n most) where
  push {v s} hl h := by
    refine ⟨h.limit, ?_, h.deferred⟩
    rw [live, h.limit] at hl
    change s.size + 1 ≤ n + s.deferred
    omega
  defer {v s} hd h := by
    refine ⟨h.limit, ?_, hd⟩
    have hsize := h.size
    change s.size + 1 ≤ n + (s.deferred + 1)
    omega
  holding {vs s} hvs h := by
    refine ⟨h.limit, ?_, h.deferred⟩
    have hsize := h.size
    rw [s.size_eq] at hsize
    change vs.length ≤ n + s.deferred
    omega
  lift {w vs s} hvs h := by
    have hdeferred := h.deferred
    have hsize := h.size
    rw [s.size_eq] at hsize
    refine ⟨h.limit, ?_, ?_⟩
    -- the braces come off with the body, and only one of them was deferred
    · change vs.length ≤ n + (s.deferred - (w.length + 1))
      omega
    · change s.deferred - (w.length + 1) ≤ most
      omega

end Stack

namespace Machine

variable {l : Limits} {m m' : Machine}

def left (r : EStateM.Result Error Machine Unit) : Machine :=
  match r with
  | .ok _ m => m
  | .error _ m => m

/-- One move of a machine that is driven from outside. Only a machine at rest is given a value, an
operator or a body. -/
inductive Moves (l : Limits) (m : Machine) : Machine → Prop where
  | given (v : Value) (hc : m.calls = []) : Moves l m (left (accept l v m))
  | asked (op : Operator) (hc : m.calls = []) : Moves l m (left (operate op m))
  | handed (w : List Value) (hc : m.calls = []) : Moves l m (left (enter w m))
  | stepped : Moves l m (left (step l m))
  | unwound : Moves l m m.unwind
  | noted (log : Log) : Moves l m { m with log := log }

/-- `m'` comes about from `m`, be it in the midst of something or after a failure. -/
def Occurs (l : Limits) : Machine → Machine → Prop := Relation.ReflTransGen (Moves l)

theorem keeps_left {P : Stack → Prop} {x : MachineM Unit} (hx : Keeps (OnStack P) x)
    (hm : OnStack P m) : OnStack P (left (x m)) := by
  cases h : x m with
  | ok u m₁ => exact hx.of_ok hm h
  | error e m₁ => exact (hx.of_error hm h).1

theorem onStack_unwind {P : Stack → Prop} (hm : OnStack P m) : OnStack P m.unwind := by
  unfold unwind
  split
  · exact hm
  · exact hm

theorem onStack_of_moves {P : Stack → Prop} (hP : Robust l.maxBodies P) (hm : OnStack P m)
    (h : Moves l m m') : OnStack P m' := by
  cases h with
  | given v => exact keeps_left (keeps_accept hP v) hm
  | asked op => exact keeps_left ((alike_operate l l op).keeps hP) hm
  | handed w => exact keeps_left ((Alike.enter w : Alike l l _ _).keeps hP) hm
  | stepped => exact keeps_left (keeps_step hP) hm
  | unwound => exact onStack_unwind hm
  | noted => exact hm

theorem onStack_of_occurs {P : Stack → Prop} (hP : Robust l.maxBodies P) (hm : OnStack P m)
    (h : Occurs l m m') : OnStack P m' := by
  induction h with
  | refl => exact hm
  | tail _ hmove ih => exact onStack_of_moves hP ih hmove

theorem calls_unwind (m : Machine) : m.unwind.calls = [] := by
  unfold unwind
  split
  · rfl
  · rename_i hc
    exact List.getLast?_eq_none_iff.1 hc

theorem occurs_of_settle {r : EStateM.Result Error Machine Unit} (h : settle? l m = some r) :
    Occurs l m (left r) ∧ ∀ m', r = .ok () m' → m'.calls = [] := by
  let motive (m : Machine) (r : EStateM.Result Error Machine Unit) : Prop :=
    Occurs l m (left r) ∧ ∀ m', r = .ok () m' → m'.calls = []
  refine settle?.partial_correctness l motive ?_ m r h
  intro settle ih m r hr
  split at hr
  · rename_i hc
    obtain rfl := Option.some.inj hr
    refine ⟨.refl, ?_⟩
    rintro m' ⟨⟩
    exact hc
  · have hstep : Moves l m (left (step l m)) := .stepped
    split at hr
    · rename_i m₁ hm
      rw [hm] at hstep
      obtain ⟨hoccurs, hcalls⟩ := ih m₁ r hr
      exact ⟨hoccurs.head hstep, hcalls⟩
    · rename_i e m₁ hm
      rw [hm] at hstep
      obtain rfl := Option.some.inj hr
      exact ⟨.single hstep, by simp⟩

/-- What is done to its end passes through moves only, and leaves a machine at rest. -/
theorem occurs_complete {x : MachineM Unit} (h : Moves l m (left (x m))) :
    Occurs l m (left (complete l x m)) ∧ (left (complete l x m)).calls = [] := by
  cases hx : x m with
  | error e m₁ =>
    rw [hx] at h
    rw [complete, hx]
    exact ⟨(Relation.ReflTransGen.single h).tail .unwound, calls_unwind m₁⟩
  | ok u m₁ =>
    rw [hx] at h
    simp only [complete, hx]
    cases hs : settle? l m₁ with
    | none => exact ⟨(Relation.ReflTransGen.single h).tail .unwound, calls_unwind m₁⟩
    | some r =>
      obtain ⟨hoccurs, hcalls⟩ := occurs_of_settle hs
      cases r with
      | ok u m₂ => exact ⟨hoccurs.head h, hcalls m₂ rfl⟩
      | error e m₂ => exact ⟨(hoccurs.head h).tail .unwound, calls_unwind m₂⟩

theorem occurs_refuse (i : Item) (hc : m.calls = []) :
    Occurs l m (left (refuse l i m)) ∧ (left (refuse l i m)).calls = [] := by
  rcases refuse_cases l i with hi | ⟨e, -, hi⟩ | ⟨event, hi⟩ <;> rw [hi]
  · exact ⟨.refl, hc⟩
  · exact ⟨.refl, hc⟩
  · exact ⟨.single (.noted _), hc⟩

theorem occurs_feedItem (i : Item) (hc : m.calls = []) :
    Occurs l m (left (feedItem l i m)) ∧ (left (feedItem l i m)).calls = [] := by
  cases hv : i.value? with
  | some v =>
    rw [feedItem_of_value hv]
    exact occurs_complete (.given v hc)
  | none =>
    rw [feedItem_of_no_value hv]
    exact occurs_refuse i hc

theorem occurs_feedItems (is : List Item) (hc : m.calls = []) :
    Occurs l m (left (feedItems l is m)) ∧ (left (feedItems l is m)).calls = [] := by
  induction is generalizing m with
  | nil => exact ⟨.refl, hc⟩
  | cons i is ih =>
    have hi := occurs_feedItem (l := l) i hc
    rw [feedItems_cons]
    cases h : feedItem l i m with
    | ok u m₁ =>
      rw [h] at hi
      rw [bind_of_ok h]
      obtain ⟨hoccurs, hcalls⟩ := ih hi.2
      exact ⟨hi.1.trans hoccurs, hcalls⟩
    | error e m₁ =>
      rw [h] at hi
      rw [bind_of_error h]
      exact hi

theorem occurs_run (text : Bytes) (hc : m.calls = []) :
    Occurs l m (left (run l text m)) ∧ (left (run l text m)).calls = [] := by
  have hfeed := occurs_feedItems (l := l) (tokenize text) hc
  cases h : feedItems l (tokenize text) m with
  | ok u m₁ =>
    rw [h] at hfeed
    obtain ⟨log, hrun⟩ := run_of_feedItems h
    rw [hrun]
    exact ⟨hfeed.1.tail (.noted log), hfeed.2⟩
  | error e m₁ =>
    rw [h] at hfeed
    rw [run, bind_of_error h]
    exact hfeed

end Machine

open Machine

inductive Request where
  | run (text : Bytes)
  | feed (v : Value)
  | perform (op : Operator)
  | call (body : List Value)

namespace Request

variable {l : Limits}

def serve (l : Limits) : Request → MachineM Unit
  | run text => Machine.run l text
  | feed v => Machine.feed l v
  | perform op => Machine.perform l op
  | call body => Machine.call l body

/-- Serves the requests one after the other. Where one fails, the next finds what it has left. -/
def serveAll (l : Limits) (rs : List Request) (m : Machine) : Machine :=
  rs.foldl (fun m r => left (r.serve l m)) m

theorem occurs_serve (r : Request) {m : Machine} (hc : m.calls = []) :
    Occurs l m (left (r.serve l m)) ∧ (left (r.serve l m)).calls = [] := by
  cases r with
  | run text => exact occurs_run text hc
  | feed v => exact occurs_complete (.given v hc)
  | perform op => exact occurs_complete (.asked op hc)
  | call body => exact occurs_complete (.handed body hc)

theorem occurs_serveAll (rs : List Request) {m : Machine} (hc : m.calls = []) :
    Occurs l m (serveAll l rs m) := by
  induction rs generalizing m with
  | nil => exact .refl
  | cons r rs ih =>
    obtain ⟨hoccurs, hcalls⟩ := occurs_serve (l := l) r hc
    exact hoccurs.trans (ih hcalls)

/-- However many requests are served and however many of them fail, the stack stays within both
limits, after them and at every move in between. -/
theorem bounded_of_requests {s : Stack} {log : Log} (hs : s.size ≤ s.limit)
    (hd : s.deferred = 0) (rs : List Request) :
    Occurs l { stack := s, log } (serveAll l rs { stack := s, log }) ∧
    ∀ m, Occurs l { stack := s, log } m → m.stack.limit = s.limit ∧
      m.stack.size ≤ s.limit + m.stack.deferred ∧ m.stack.deferred ≤ l.maxBodies ∧
        m.stack.size ≤ s.limit + l.maxBodies := by
  refine ⟨occurs_serveAll rs rfl, fun m h => ?_⟩
  have hstart : s.Bounded s.limit l.maxBodies := ⟨rfl, by omega, by omega⟩
  have hm : m.stack.Bounded s.limit l.maxBodies :=
    onStack_of_occurs (m := { stack := s, log }) (Stack.robust_bounded _ _) hstart h
  have hsize := hm.size
  have hdeferred := hm.deferred
  exact ⟨hm.limit, hsize, hdeferred, by omega⟩

/-- A body that is too large, an attempt to close it, a body with stray braces, and a copy. -/
theorem bounded_of_failing_requests :
    (serveAll { maxBodies := 2 } [.run (Bytes.ofText "\x7b \x7b 1 2 3"), .feed .closing,
      .call [.closing, .opening, .opening], .perform .copy]
        { stack := { limit := 1 } }).stack.size ≤ 3 := by
  have hs : ({ limit := 1 } : Stack).size ≤ 1 := by decide
  obtain ⟨hoccurs, hbound⟩ := bounded_of_requests (l := { maxBodies := 2 }) hs rfl
    [.run (Bytes.ofText "\x7b \x7b 1 2 3"), .feed .closing, .call [.closing, .opening, .opening],
      .perform .copy]
  exact (hbound _ hoccurs).2.2.2

end Request

end PdfFunctions
