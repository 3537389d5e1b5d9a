import Mathlib.Logic.Relation
import PdfFunctions.Proofs.BodyCapture

namespace PdfFunctions

open Relation (ReflTransGen)

namespace Braces

theorem forall_prefix_cons {P : List Value → Prop} {v : Value} {w : List Value} :
    (∀ u, u <+: v :: w → P u) ↔ P [] ∧ ∀ u, u <+: w → P (v :: u) := by
  constructor
  · intro h
    exact ⟨h [] List.nil_prefix, fun u hu => h (v :: u) (List.cons_prefix_cons.2 ⟨rfl, hu⟩)⟩
  · rintro ⟨hnil, hcons⟩ u hu
    rcases List.prefix_cons_iff.1 hu with rfl | ⟨u', rfl, hu'⟩
    · exact hnil
    · exact hcons u' hu'

theorem level_eq_some_iff_count {d e : Nat} {v : Value} :
    level d v = some e ↔ d + [v].count .opening = e + [v].count .closing ∧
      [v].count .closing ≤ d + [v].count .opening := by
  cases v with
  | opening => simp [level]
  | closing =>
    simp only [level, Option.ite_none_left_eq_some, Option.some.injEq]
    change _ ↔ d + 0 = e + 1 ∧ 1 ≤ d + 0
    omega
  | _ => simp [level]

/-- The braces say how high a climb ends, and each closing one needs an open one before it. -/
theorem climb_eq_some_iff_count {d e : Nat} {w : List Value} :
    climb d w = some e ↔ d + w.count .opening = e + w.count .closing ∧
      ∀ u, u <+: w → u.count .closing ≤ d + u.count .opening := by
  induction w generalizing d with
  | nil => simp
  | cons v w ih =>
    have hcount (b : Value) (u : List Value) : (v :: u).count b = [v].count b + u.count b := by
      rw [← List.count_append, List.singleton_append]
    rw [climb_cons_eq_some, forall_prefix_cons, hcount .opening w, hcount .closing w]
    constructor
    · rintro ⟨k, hv, hw⟩
      obtain ⟨hk, -⟩ := level_eq_some_iff_count.1 hv
      obtain ⟨he, hall⟩ := ih.1 hw
      refine ⟨by omega, Nat.zero_le _, fun u hu => ?_⟩
      have := hall u hu
      rw [hcount .opening u, hcount .closing u]
      omega
    · rintro ⟨he, -, hall⟩
      -- with nothing after v the prefix is v alone, and so v can be passed
      have hfirst := hall [] List.nil_prefix
      refine ⟨d + [v].count .opening - [v].count .closing,
        level_eq_some_iff_count.2 ⟨by omega, hfirst⟩, ih.2 ⟨by omega, fun u hu => ?_⟩⟩
      have := hall u hu
      rw [hcount .opening u, hcount .closing u] at this
      omega

/-- As many braces of the one kind as of the other, and no prefix with more closing ones. -/
theorem balanced_iff_count {w : List Value} :
    Balanced w ↔ w.count .opening = w.count .closing ∧
      ∀ u, u <+: w → u.count .closing ≤ u.count .opening := by
  have h := climb_eq_some_iff_count (d := 0) (e := 0) (w := w)
  simp only [Nat.zero_add] at h
  exact h

end Braces

/-- From the bottom up the values are `rest`, and then a balanced body `w` between its braces. -/
structure Stack.EndsIn (s : Stack) (rest w : List Value) : Prop where
  contents : s.contents = rest ++ .opening :: (w ++ [.closing])
  even : w.count .opening = w.count .closing
  prefixes : ∀ u, u <+: w → u.count .closing ≤ u.count .opening

namespace Body

variable {op : String} {s t : Stack} {rest w : List Value}

theorem endsIn_iff : s.EndsIn rest w ↔
    s.values = .closing :: (w.reverse ++ .opening :: rest.reverse) ∧ Braces.Balanced w := by
  have hcontents : s.contents = rest ++ .opening :: (w ++ [.closing]) ↔
      s.values = .closing :: (w.reverse ++ .opening :: rest.reverse) := by
    rw [Stack.contents, List.reverse_eq_iff]
    simp
  constructor
  · intro h
    exact ⟨hcontents.1 h.contents, Braces.balanced_iff_count.2 ⟨h.even, h.prefixes⟩⟩
  · rintro ⟨hs, hw⟩
    obtain ⟨heven, hprefixes⟩ := Braces.balanced_iff_count.1 hw
    exact ⟨hcontents.2 hs, heven, hprefixes⟩

theorem lifted_iff : Lifted w s t ↔
    s.EndsIn t.contents w ∧ t.limit = s.limit ∧ t.deferred = s.deferred - (w.length + 1) := by
  rw [endsIn_iff, Stack.contents, List.reverse_reverse]
  constructor
  · intro h
    exact ⟨⟨h.values, h.balanced⟩, h.limit, h.deferred⟩
  · rintro ⟨⟨hs, hw⟩, hl, hd⟩
    exact ⟨hs, hw, hl, hd⟩

theorem pop_of_empty (hs : s.values = []) :
    StackM.pop op s = .error (.stackUnderflow op 1 0) (s.holding []) := by
  have hholding : s.holding [] = s := Stack.ext hs.symm rfl rfl
  rw [StackM.pop_of_nil hs, hholding, Stack.underflow, s.size_eq, hs, List.length_nil]

/-- The scan stops at one opening brace only. -/
theorem endsIn_unique {rest' w' : List Value} (h : s.EndsIn rest w) (h' : s.EndsIn rest' w') :
    rest = rest' ∧ w = w' := by
  obtain ⟨hs, hw⟩ := endsIn_iff.1 h
  obtain ⟨hs', hw'⟩ := endsIn_iff.1 h'
  obtain ⟨vs, hvs⟩ : ∃ vs, s.values = .closing :: vs := ⟨_, hs⟩
  have hsplit := Braces.split_eq_some_iff.2 ⟨(List.cons.inj (hvs.symm.trans hs)).2, hw⟩
  have hsplit' := Braces.split_eq_some_iff.2 ⟨(List.cons.inj (hvs.symm.trans hs')).2, hw'⟩
  obtain ⟨hbody, hrest⟩ := Prod.mk.inj (Option.some.inj (hsplit.symm.trans hsplit'))
  exact ⟨List.reverse_inj.1 hrest, hbody⟩

/-- A scan below a closing brace: the closing braces that it has passed less the opening ones, all
that it has passed, and the stack that is left. -/
structure Scan where
  count : Int
  passed : List Value
  stack : Stack

namespace Scan

variable {c c' : Scan}

def tally (n : Int) : Value → Int
  | .opening => n - 1
  | .closing => n + 1
  | _ => n

inductive Passes (op : String) (c : Scan) : Scan → Prop where
  | intro {v : Value} {t : Stack} (hpop : StackM.pop op c.stack = .ok v t)
      (hgoes : v = .opening → c.count ≠ 0) :
      Passes op c ⟨tally c.count v, v :: c.passed, t⟩

inductive Ends (op : String) (c : Scan) : EStateM.Result Error Stack (List Value) → Prop where
  | opened {t u : Stack} (hcount : c.count = 0) (hpop : StackM.pop op c.stack = .ok .opening t)
      (hrelease : StackM.release (c.passed.length + 1) t = .ok () u) : Ends op c (.ok c.passed u)
  | exhausted {e : Error} {t : Stack} (hpop : StackM.pop op c.stack = .error e t) :
      Ends op c (.error e t)

/-- What is still to come of the scan. -/
def outcome (op : String) (c : Scan) : EStateM.Result Error Stack (List Value) :=
  match split c.count.toNat c.passed c.stack.values with
  | some (w, rest) =>
    .ok w { c.stack.holding rest with deferred := c.stack.deferred - (w.length + 1) }
  | none => .error (.stackUnderflow op 1 0) (c.stack.holding [])

/-- The next value changes the count as it changes the depth of the split. -/
theorem split_tally {n : Nat} {v : Value} (hgoes : v = .opening → (n : Int) ≠ 0)
    (passed vs : List Value) : 0 ≤ tally n v ∧
      split (tally n v).toNat (v :: passed) vs = split n passed (v :: vs) := by
  cases v with
  | opening =>
    obtain ⟨k, rfl⟩ : ∃ k, n = k + 1 := ⟨n - 1, by have := hgoes rfl; omega⟩
    have hdown : tally ((k + 1 : Nat) : Int) .opening = k := by simp [tally]
    rw [hdown, Int.toNat_natCast]
    exact ⟨Int.natCast_nonneg k, rfl⟩
  | closing =>
    have hup : tally n .closing = ((n + 1 : Nat) : Int) := rfl
    rw [hup, Int.toNat_natCast]
    exact ⟨Int.natCast_nonneg _, by rw [split]⟩
  | _ => exact ⟨Int.natCast_nonneg n, by rw [split] <;> simp [tally]⟩

theorem Passes.keeps (h : Passes op c c') (hc : 0 ≤ c.count) :
    0 ≤ c'.count ∧ outcome op c' = outcome op c := by
  obtain ⟨n, passed, s⟩ := c
  obtain ⟨n, rfl⟩ := Int.eq_ofNat_of_zero_le hc
  cases h with
  | @intro v t hpop hgoes =>
    change StackM.pop op s = .ok v t at hpop
    obtain ⟨hs, hl, hd⟩ := StackM.pop_eq_ok.1 hpop
    obtain ⟨hcount, hsplit⟩ := split_tally hgoes passed t.values
    have hholding (vs : List Value) : t.holding vs = s.holding vs := Stack.ext rfl hl hd
    refine ⟨hcount, ?_⟩
    simp only [outcome, hsplit, Int.toNat_natCast, hs, hholding, hd]

theorem exists_ends (c : Scan) (hc : 0 ≤ c.count) :
    ∃ c', ReflTransGen (Passes op) c c' ∧ Ends op c' (outcome op c) := by
  -- on the values below, with the outcome of the scan as what no pass changes
  induction hvs : c.stack.values generalizing c with
  | nil =>
    refine ⟨c, .refl, ?_⟩
    rw [outcome, hvs, split]
    exact .exhausted (pop_of_empty hvs)
  | cons v vs ih =>
    have hpop : StackM.pop op c.stack = .ok v (c.stack.holding vs) := StackM.pop_of_cons hvs
    by_cases hends : v = .opening ∧ c.count = 0
    · obtain ⟨rfl, h0⟩ := hends
      refine ⟨c, .refl, ?_⟩
      have hfound : outcome op c = .ok c.passed
          { c.stack.holding vs with deferred := c.stack.deferred - (c.passed.length + 1) } := by
        rw [outcome, h0, hvs]
        rfl
      rw [hfound]
      exact .opened h0 hpop rfl
    · have hpass := Passes.intro hpop fun hv h0 => hends ⟨hv, h0⟩
      obtain ⟨hcount, houtcome⟩ := hpass.keeps hc
      obtain ⟨c', hrun, hend⟩ := ih _ hcount rfl
      exact ⟨c', hrun.head hpass, houtcome ▸ hend⟩

theorem count_nonneg (h : ReflTransGen (Passes op) c c') (hc : 0 ≤ c.count) : 0 ≤ c'.count := by
  induction h with
  | refl => exact hc
  | tail _ hstep ih => exact (hstep.keeps ih).1

end Scan

theorem pop_eq_outcome (h : StackM.pop op s = .ok .closing t) :
    pop op s = Scan.outcome op ⟨0, [], t⟩ := by
  obtain ⟨hs, hl, hd⟩ := StackM.pop_eq_ok.1 h
  have hholding (vs : List Value) : t.holding vs = s.holding vs := Stack.ext rfl hl hd
  simp only [Scan.outcome, Int.toNat_zero, hholding, hd]
  cases hsplit : split 0 [] t.values with
  | some p => exact pop_of_matched hs hsplit
  | none => exact pop_of_unmatched hs hsplit

theorem pop_of_no_body (hs : s.values = [] ∨
    s.values.head? = some .closing ∧ ∀ rest w, ¬ s.EndsIn rest w) :
    pop op s = .error (.stackUnderflow op 1 0) (s.holding []) := by
  rcases hs with hnil | ⟨htop, hnone⟩
  · exact bind_of_error (pop_of_empty hnil)
  · obtain ⟨vs, hvs⟩ := List.head?_eq_some_iff.1 htop
    refine pop_of_unmatched hvs (Option.eq_none_iff_forall_not_mem.2 ?_)
    rintro ⟨w, rest⟩ hsplit
    obtain ⟨rfl, hw⟩ := Braces.split_eq_some_iff.1 hsplit
    exact hnone rest.reverse w (endsIn_iff.2 ⟨by rw [hvs, List.reverse_reverse], hw⟩)

/-- Lifting a body succeeds exactly on a stack that ends in one, and there is only one to lift. It
leaves the values below, and counts the body and its closing brace as deferred no longer. Without a
closing brace on top only the top is lost, and without a matching opening brace all is. The scan
comes to the same, and its count never goes below zero. -/
theorem pop_captures (op : String) (s : Stack) :
    (∀ w, (∃ t, pop op s = .ok w t) ↔ ∃ rest, s.EndsIn rest w) ∧
    (∀ rest w rest' w', s.EndsIn rest w → s.EndsIn rest' w' → rest = rest' ∧ w = w') ∧
    (∀ w t, pop op s = .ok w t → s.EndsIn t.contents w ∧ t.limit = s.limit ∧
      t.deferred = s.deferred - (w.length + 1)) ∧
    (∀ v vs, s.values = v :: vs → v ≠ .closing →
      pop op s = .error (.typeMismatch "procedure" v.typeName) (s.holding vs)) ∧
    (s.values = [] ∨ s.values.head? = some .closing ∧ (∀ rest w, ¬ s.EndsIn rest w) →
      pop op s = .error (.stackUnderflow op 1 0) (s.holding [])) ∧
    ∀ t, StackM.pop op s = .ok .closing t →
      (∃ c, ReflTransGen (Scan.Passes op) ⟨0, [], t⟩ c ∧ c.Ends op (pop op s)) ∧
      ∀ c, ReflTransGen (Scan.Passes op) ⟨0, [], t⟩ c → 0 ≤ c.count := by
  refine ⟨fun w => ⟨?_, ?_⟩, fun _ _ _ _ => endsIn_unique,
    fun w t h => lifted_iff.1 (pop_eq_ok.1 h), fun v vs hs hv => pop_of_ne_closing hv hs,
    pop_of_no_body, fun t ht => ⟨?_, fun c hrun => ?_⟩⟩
  · rintro ⟨t, ht⟩
    exact ⟨t.contents, (lifted_iff.1 (pop_eq_ok.1 ht)).1⟩
  · rintro ⟨rest, h⟩
    obtain ⟨hs, hw⟩ := endsIn_iff.1 h
    have hlifted : Lifted w s
        { s.holding rest.reverse with deferred := s.deferred - (w.length + 1) } :=
      ⟨hs, hw, rfl, rfl⟩
    exact ⟨_, pop_eq_ok.2 hlifted⟩
  · rw [pop_eq_outcome ht]
    exact Scan.exists_ends _ (Int.le_refl 0)
  · exact Scan.count_nonneg hrun (Int.le_refl 0)

end Body

end PdfFunctions
