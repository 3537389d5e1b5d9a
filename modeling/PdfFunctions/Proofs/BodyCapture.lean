import PdfFunctions.Proofs.Braces
import PdfFunctions.Proofs.StackEffects

namespace PdfFunctions.Body

open Braces Stack

/-- The body `w` and its braces have come off the top of `s`. All of it but the opening brace was
deferred. -/
structure Lifted (w : List Value) (s t : Stack) : Prop where
  values : s.values = .closing :: (w.reverse ++ .opening :: t.values)
  balanced : Balanced w
  limit : t.limit = s.limit
  deferred : t.deferred = s.deferred - (w.length + 1)

theorem Lifted.length {w : List Value} {s t : Stack} (h : Lifted w s t) :
    s.values.length = t.values.length + w.length + 2 := by
  simp only [h.values, List.length_cons, List.length_append, List.length_reverse]
  omega

theorem pop_eq_ok {op : String} {w : List Value} {s t : Stack} :
    pop op s = .ok w t ↔ Lifted w s t := by
  constructor
  · intro h
    obtain ⟨v, s', hv, h⟩ := bind_eq_ok.1 h
    have hp := StackM.replaced_of_pop hv
    obtain ⟨b, hs, rfl⟩ := hp.values
    cases v with
    | closing =>
      dsimp only at h
      split at h
      · rename_i u rest hsplit
        obtain ⟨rfl, rfl⟩ := EStateM.Result.ok.inj h
        obtain ⟨hb, hw⟩ := split_eq_some_iff.1 hsplit
        exact ⟨by rw [hs, ← hb]; rfl, hw, hp.limit, by simp only [hp.deferred]⟩
      · simp at h
    | _ => simp [throw_apply] at h
  · intro h
    -- the stack when the closing brace is off
    let s' : Stack :=
      { values := w.reverse ++ .opening :: t.values, limit := s.limit, deferred := s.deferred }
    have hs' : StackM.pop op s = .ok .closing s' := StackM.pop_eq_ok.2 ⟨h.values, rfl, rfl⟩
    have hsplit : split 0 [] s'.values = some (w, t.values) :=
      split_eq_some_iff.2 ⟨rfl, h.balanced⟩
    refine (bind_of_ok hs').trans ?_
    dsimp only
    split
    · rename_i u rest hu
      obtain ⟨rfl, rfl⟩ := Prod.mk.inj (Option.some.inj (hu.symm.trans hsplit))
      exact congrArg _ (Stack.ext rfl h.limit.symm h.deferred.symm)
    · rename_i hu
      simp [hsplit] at hu

theorem pop_of_matched {op : String} {vs w rest : List Value} {s : Stack}
    (h : s.values = .closing :: vs) (hs : split 0 [] vs = some (w, rest)) :
    pop op s = .ok w { s.holding rest with deferred := s.deferred - (w.length + 1) } := by
  obtain ⟨rfl, hw⟩ := split_eq_some_iff.1 hs
  exact pop_eq_ok.2 ⟨h, hw, rfl, rfl⟩

/-- What is on top is lost where it is no closing brace. -/
theorem pop_of_ne_closing {op : String} {v : Value} {vs : List Value} {s : Stack}
    (hv : v ≠ .closing) (h : s.values = v :: vs) :
    pop op s = .error (.typeMismatch "procedure" v.typeName) (s.holding vs) := by
  refine (bind_of_ok (StackM.pop_of_cons h)).trans ?_
  cases v with
  | closing => exact absurd rfl hv
  | _ => rfl

/-- All is lost where no opening brace matches. -/
theorem pop_of_unmatched {op : String} {vs : List Value} {s : Stack}
    (h : s.values = .closing :: vs) (hs : split 0 [] vs = none) :
    pop op s = .error (.stackUnderflow op 1 0) (s.holding []) := by
  refine (bind_of_ok (StackM.pop_of_cons h)).trans ?_
  dsimp only
  split
  · rename_i hu
    simp [hs] at hu
  · rfl

end PdfFunctions.Body
