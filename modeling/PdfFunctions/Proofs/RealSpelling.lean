import PdfFunctions.Proofs.IntegerOperands
import PdfFunctions.Proofs.NullEntries

namespace PdfFunctions

namespace Binary64

open Parts

theorem isIntegral_of_toRat? {x : Float} {n : ℤ} (h : toRat? x = some (n : ℚ)) :
    isIntegral x = true := by
  rw [toRat?] at h
  rw [isIntegral]
  cases hx : x.toModel.unpack with
  | zero => rfl
  | finite s m e hm =>
    rw [hx] at h
    have hvalue : unit s * (m * 2 ^ e) = (n : ℚ) := Option.some.inj h
    simp only [isWhole, Bool.or_eq_true, decide_eq_true_eq, beq_iff_eq]
    -- below exponent 0 the power of two must divide the significand
    by_cases he : 0 ≤ e
    · exact .inl he
    · obtain ⟨k, rfl⟩ : ∃ k : ℕ, e = -k := ⟨(-e).toNat, by omega⟩
      obtain ⟨z, hz⟩ : ∃ z : ℤ, (m : ℚ) = z * 2 ^ k := by
        have hpos : (2 : ℚ) ^ k ≠ 0 := by positivity
        rw [zpow_neg, zpow_natCast] at hvalue
        cases s with
        | positive => exact ⟨n, by rw [← hvalue, unit]; field_simp⟩
        | negative => exact ⟨-n, by push_cast; rw [← hvalue, unit]; field_simp⟩
      have hdvd : (2 ^ k : ℕ) ∣ m := Int.natCast_dvd_natCast.1 ⟨z, by
        have hm : (m : ℤ) = z * 2 ^ k := by exact_mod_cast hz
        rw [hm, mul_comm]
        push_cast
        rfl⟩
      refine .inr ?_
      rw [neg_neg, Int.toNat_natCast, Nat.one_shiftLeft]
      exact Nat.mod_eq_zero_of_dvd hdvd
  | _ =>
    rw [hx] at h
    cases h

/-- Every integer up to `2 ^ 53` is a double. -/
theorem toRat?_ofInt_of_le {n : ℤ} (hn : n.natAbs ≤ 2 ^ 53) : toRat? (ofInt n) = some (n : ℚ) := by
  rcases Nat.lt_or_eq_of_le hn with hlt | heq
  · exact toRat?_ofInt (k := 0) hlt (by omega) (by omega)
  · exact toRat?_ofInt (m := 2 ^ 52) (k := 1) (by decide) (by omega) (by omega)

end Binary64

/-- The errors are the same, except that the one names an integer and the other a real where
neither belongs. -/
inductive Error.Respelled : Error → Error → Prop where
  | same (e : Error) : Respelled e e
  | typeMismatch (expected : String) :
    Respelled (.typeMismatch expected "int") (.typeMismatch expected "real")

/-- `o'` is `o` with any of its integers up to `2 ^ 53` written as reals, at any depth. -/
inductive Object.Respelled : Object → Object → Prop where
  | same (o : Object) : Respelled o o
  | int {n : ℤ} (hn : n.natAbs ≤ 2 ^ 53) : Respelled (int n) (real (Binary64.ofInt n))
  | array {os os' : List Object} (h : List.Forall₂ Respelled os os') :
    Respelled (array os) (array os')
  | dict {d d' : Entries} (hkeys : d.map Prod.fst = d'.map Prod.fst)
      (h : List.Forall₂ Respelled (d.map Prod.snd) (d'.map Prod.snd)) :
    Respelled (dict d) (dict d')
  | stream {d d' : Entries} (hkeys : d.map Prod.fst = d'.map Prod.fst)
      (h : List.Forall₂ Respelled (d.map Prod.snd) (d'.map Prod.snd)) (data : Bytes) :
    Respelled (stream d data) (stream d' data)

structure Entries.Respelled (d d' : Entries) : Prop where
  keys : d.map Prod.fst = d'.map Prod.fst
  objects : List.Forall₂ Object.Respelled (d.map Prod.snd) (d'.map Prod.snd)

section alike

variable {α β γ δ : Type} {R : α → β → Prop} {S : γ → δ → Prop}

inductive ReadAlike (R : α → β → Prop) : Except Error α → Except Error β → Prop where
  | ok {a : α} {b : β} (h : R a b) : ReadAlike R (.ok a) (.ok b)
  | error {e e' : Error} (h : e.Respelled e') : ReadAlike R (.error e) (.error e')

namespace ReadAlike

theorem refl (x : Except Error α) : ReadAlike Eq x x := by
  cases x with
  | ok a => exact .ok rfl
  | error e => exact .error (.same e)

theorem bind {x : Except Error α} {y : Except Error β} {f : α → Except Error γ}
    {g : β → Except Error δ} (h : ReadAlike R x y)
    (hfg : ∀ {a b}, R a b → ReadAlike S (f a) (g b)) : ReadAlike S (x >>= f) (y >>= g) := by
  cases h with
  | ok h => exact hfg h
  | error h => exact .error h

theorem bind_eq {x y : Except Error α} {f : α → Except Error γ} {g : α → Except Error δ}
    (h : ReadAlike Eq x y) (hfg : ∀ a, ReadAlike S (f a) (g a)) :
    ReadAlike S (x >>= f) (y >>= g) :=
  h.bind fun hab => hab ▸ hfg _

theorem mapM {f : α → Except Error γ} {g : β → Except Error γ} {xs : List α} {ys : List β}
    (h : List.Forall₂ R xs ys) (hfg : ∀ {a b}, R a b → ReadAlike Eq (f a) (g b)) :
    ReadAlike Eq (xs.mapM f) (ys.mapM g) := by
  induction h with
  | nil => exact .refl _
  | cons hab _ ih =>
    rw [List.mapM_cons, List.mapM_cons]
    exact (hfg hab).bind_eq fun c => ih.bind_eq fun cs => .refl _

end ReadAlike

def LoadAlike (R : α → β → Prop) (x : EvalM α) (y : EvalM β) : Prop :=
  ∀ log, ∃ r r' log', x log = (ofExcept r : EvalM α) log' ∧ y log = (ofExcept r' : EvalM β) log' ∧
    ReadAlike R r r'

namespace LoadAlike

theorem ofExcept {r : Except Error α} {r' : Except Error β} (h : ReadAlike R r r') :
    LoadAlike R (ofExcept r) (ofExcept r') :=
  fun log => ⟨r, r', log, rfl, rfl, h⟩

theorem refl (x : EvalM α) : LoadAlike Eq x x := by
  intro log
  cases hx : x log with
  | ok a log' => exact ⟨.ok a, .ok a, log', rfl, rfl, .refl _⟩
  | error e log' => exact ⟨.error e, .error e, log', rfl, rfl, .refl _⟩

theorem bind {x : EvalM α} {y : EvalM β} {f : α → EvalM γ} {g : β → EvalM δ}
    (h : LoadAlike R x y) (hfg : ∀ {a b}, R a b → LoadAlike S (f a) (g b)) :
    LoadAlike S (x >>= f) (y >>= g) := by
  intro log
  obtain ⟨r, r', log', hx, hy, hr⟩ := h log
  cases hr with
  | ok hab =>
    rw [bind_of_ok hx, bind_of_ok hy]
    exact hfg hab log'
  | error he =>
    rw [bind_of_error hx, bind_of_error hy]
    exact ⟨_, _, log', rfl, rfl, .error he⟩

theorem bind_eq {x y : EvalM α} {f : α → EvalM γ} {g : α → EvalM δ} (h : LoadAlike Eq x y)
    (hfg : ∀ a, LoadAlike S (f a) (g a)) : LoadAlike S (x >>= f) (y >>= g) :=
  h.bind fun hab => hab ▸ hfg _

theorem mapM {f : α → EvalM γ} {g : β → EvalM γ} {xs : List α} {ys : List β}
    (h : List.Forall₂ R xs ys) (hfg : ∀ {a b}, R a b → LoadAlike Eq (f a) (g b)) :
    LoadAlike Eq (xs.mapM f) (ys.mapM g) := by
  induction h with
  | nil => exact .refl _
  | cons hab _ ih =>
    rw [List.mapM_cons, List.mapM_cons]
    exact (hfg hab).bind_eq fun c => ih.bind_eq fun cs => .refl _

end LoadAlike

end alike

namespace Object

variable {o o' : Object}

theorem getInt_real_ofInt {n : ℤ} (hn : n.natAbs ≤ 2 ^ 53) :
    (real (Binary64.ofInt n)).getInt = .ok n := by
  have hvalue := Binary64.toRat?_ofInt_of_le hn
  have htoInt : Binary64.toInt? (Binary64.ofInt n) = some n :=
    Binary64.toInt?_eq_some_iff.2 ⟨n, hvalue, by simp [Binary64.truncated]⟩
  have hintegral : integral? (Binary64.ofInt n) = some n := by
    rw [integral?, htoInt]
    exact if_pos ⟨Binary64.isIntegral_of_toRat? hvalue, by omega⟩
  rw [getInt, hintegral]
  rfl

theorem readAlike_getInt (h : Respelled o o') : ReadAlike Eq o.getInt o'.getInt := by
  cases h with
  | same => exact .refl _
  | int hn =>
    rw [getInt_real_ofInt hn]
    exact .refl _
  | _ => exact .refl _

theorem readAlike_getNumber (h : Respelled o o') : ReadAlike Eq o.getNumber o'.getNumber := by
  cases h <;> exact .refl _

theorem readAlike_getArray (h : Respelled o o') :
    ReadAlike (List.Forall₂ Respelled) o.getArray o'.getArray := by
  cases h with
  | same =>
    cases o with
    | array items => exact .ok (List.forall₂_same.2 fun o _ => .same o)
    | _ => exact .error (.same _)
  | int => exact .error (.typeMismatch _)
  | array h => exact .ok h
  | _ => exact .error (.same _)

theorem readAlike_getNumbers (h : Respelled o o') :
    ReadAlike Eq o.getNumbers o'.getNumbers :=
  (readAlike_getArray h).bind fun hitems => .mapM hitems readAlike_getNumber

end Object

namespace Entries

variable {d d' : Entries}

/-- A key is missing from both, or from neither. -/
theorem Respelled.get? (h : d.Respelled d') (key : String) :
    (d.get? key = none ∧ d'.get? key = none) ∨
      ∃ o o', d.get? key = some o ∧ d'.get? key = some o' ∧ o.Respelled o' := by
  obtain ⟨hkeys, hobjects⟩ := h
  induction d generalizing d' with
  | nil =>
    obtain rfl : d' = [] := by simpa using hkeys.symm
    exact .inl ⟨rfl, rfl⟩
  | cons p d ih =>
    obtain ⟨k, o⟩ := p
    match d', hobjects with
    | (k', o') :: d', .cons ho hobjects =>
      obtain ⟨hk, hrest⟩ := List.cons.inj hkeys
      change k = k' at hk
      subst hk
      rw [Entries.get?, Entries.get?, List.lookup_cons, List.lookup_cons]
      cases key == k with
      | true => exact .inr ⟨o, o', rfl, rfl, ho⟩
      | false => exact ih hrest hobjects

theorem Respelled.required (h : d.Respelled d') (key : String) :
    ReadAlike Object.Respelled (d.required key) (d'.required key) := by
  rw [Entries.required, Entries.required]
  rcases h.get? key with ⟨hd, hd'⟩ | ⟨o, o', hd, hd', ho⟩ <;> rw [hd, hd']
  · exact .error (.same _)
  · exact .ok ho

theorem Respelled.read {α : Type} {R : α → α → Prop} {read : Object → Except Error α}
    (h : d.Respelled d') (key : String)
    (hread : ∀ {o o'}, o.Respelled o' → ReadAlike R (read o) (read o')) :
    ReadAlike R (d.required key >>= read) (d'.required key >>= read) :=
  (h.required key).bind hread

theorem Respelled.numbers? (h : d.Respelled d') (key : String) :
    ReadAlike Eq (d.numbers? key) (d'.numbers? key) := by
  rw [Entries.numbers?, Entries.numbers?]
  rcases h.get? key with ⟨hd, hd'⟩ | ⟨o, o', hd, hd', ho⟩ <;> rw [hd, hd']
  · exact .refl _
  · have hnumbers : ReadAlike Eq (some <$> o.getNumbers) (some <$> o'.getNumbers) := by
      rw [map_eq_pure_bind, map_eq_pure_bind]
      exact (Object.readAlike_getNumbers ho).bind_eq fun xs => .refl _
    -- a null that stands for no numbers is spelt the same in both
    cases ho with
    | same => exact .refl _
    | _ => exact hnumbers

end Entries

namespace Function

open Object Entries

variable {limits : Limits} {d d' : Entries} {o o' : Object}

theorem readAlike_intervals? (h : d.Respelled d') (key : String) :
    ReadAlike Eq (intervals? d key) (intervals? d' key) :=
  (h.numbers? key).bind_eq fun _ => .refl _

/-- Whatever is made of an integer. -/
theorem readAlike_getInt_bind {α : Type} (f : Int → Except Error α) (h : o.Respelled o') :
    ReadAlike Eq (o.getInt >>= f) (o'.getInt >>= f) :=
  (readAlike_getInt h).bind_eq fun _ => .refl _

theorem loadAlike_loadSampled (h : d.Respelled d') (data : Option Bytes)
    (domain range : Option (Intervals Float)) :
    LoadAlike Eq (loadSampled d data domain range) (loadSampled d' data domain range) := by
  cases data with
  | none => exact .refl _
  | some data =>
    have hsizes : ReadAlike Eq ((d.required "Size" >>= getArray) >>= List.mapM sizeEntry)
        ((d'.required "Size" >>= getArray) >>= List.mapM sizeEntry) :=
      (h.read "Size" readAlike_getArray).bind fun hitems =>
        .mapM hitems (readAlike_getInt_bind _)
    have hbits : ReadAlike Eq (d.required "BitsPerSample" >>= bitsEntry)
        (d'.required "BitsPerSample" >>= bitsEntry) :=
      h.read "BitsPerSample" (readAlike_getInt_bind _)
    refine (LoadAlike.ofExcept hsizes).bind_eq fun sizes => ?_
    refine (LoadAlike.ofExcept hbits).bind_eq fun bits => (LoadAlike.refl _).bind_eq fun f => ?_
    refine (LoadAlike.ofExcept (h.numbers? "Encode")).bind_eq fun encode =>
      (LoadAlike.refl _).bind_eq fun f => ?_
    refine (LoadAlike.ofExcept (h.numbers? "Decode")).bind_eq fun decode =>
      (LoadAlike.refl _).bind_eq fun f => ?_
    rcases h.get? "Order" with ⟨hd, hd'⟩ | ⟨o, o', hd, hd', ho⟩ <;> rw [hd, hd']
    · exact .refl _
    · exact (LoadAlike.ofExcept (readAlike_getInt_bind _ ho)).bind_eq fun _ => .refl _

theorem readAlike_loadExponential (h : d.Respelled d')
    (domain range : Option (Intervals Float)) :
    ReadAlike Eq (loadExponential d domain range) (loadExponential d' domain range) :=
  (h.read "N" readAlike_getNumber).bind_eq fun _ =>
    (h.numbers? "C0").bind_eq fun _ => (h.numbers? "C1").bind_eq fun _ => .refl _

theorem loadAlike_loadParts {room : Nat} (h : d.Respelled d')
    (hparts : ∀ {o o'}, o.Respelled o' → LoadAlike Eq (load limits room o) (load limits room o')) :
    LoadAlike Eq (loadParts limits room d) (loadParts limits room d') :=
  (LoadAlike.ofExcept (h.read "Functions" readAlike_getArray)).bind fun hitems =>
    .mapM hitems hparts

theorem loadAlike_loadType {room : Nat} (h : d.Respelled d')
    (hparts : ∀ {o o'}, o.Respelled o' → LoadAlike Eq (load limits room o) (load limits room o'))
    (type : Int) (data : Option Bytes) (domain range : Option (Intervals Float)) :
    LoadAlike Eq (loadType limits room type d data domain range)
      (loadType limits room type d' data domain range) := by
  by_cases h0 : type = 0
  · simp only [loadType, if_pos h0]
    exact loadAlike_loadSampled h data domain range
  by_cases h2 : type = 2
  · simp only [loadType, if_neg h0, if_pos h2]
    exact .ofExcept (readAlike_loadExponential h domain range)
  by_cases h3 : type = 3
  · subst h3
    cases domain with
    | none => exact .refl _
    | some domain =>
      rw [loadType_stitched, loadType_stitched]
      exact (loadAlike_loadParts h hparts).bind_eq fun parts =>
        (LoadAlike.ofExcept (h.read "Bounds" readAlike_getNumbers)).bind_eq fun bounds =>
        (LoadAlike.ofExcept (h.read "Encode" readAlike_getNumbers)).bind_eq fun encode =>
        .refl _
  simp only [loadType, if_neg h0, if_neg h2, if_neg h3]
  exact .refl _

theorem readAlike_dictionary (h : o.Respelled o') :
    ReadAlike (fun p p' => p.1.Respelled p'.1 ∧ p.2 = p'.2) (dictionary o) (dictionary o') := by
  have hself (d : Entries) : d.Respelled d := ⟨rfl, List.forall₂_same.2 fun o _ => .same o⟩
  cases h with
  | same =>
    cases o with
    | dict d => exact .ok ⟨hself d, rfl⟩
    | stream d data => exact .ok ⟨hself d, rfl⟩
    | _ => exact .error (.same _)
  | int => exact .error (.typeMismatch _)
  | array => exact .error (.same _)
  | dict hkeys h => exact .ok ⟨⟨hkeys, h⟩, rfl⟩
  | stream hkeys h data => exact .ok ⟨⟨hkeys, h⟩, rfl⟩

theorem loadAlike_load (limits : Limits) (room : Nat) (h : o.Respelled o') :
    LoadAlike Eq (load limits room o) (load limits room o') := by
  induction room generalizing o o' with
  | zero => exact .refl _
  | succ room ih =>
    rw [load_succ, load_succ]
    refine (LoadAlike.ofExcept (readAlike_dictionary h)).bind ?_
    rintro ⟨d, data⟩ ⟨d', _⟩ ⟨hd, rfl⟩
    exact (LoadAlike.ofExcept (hd.read "FunctionType" readAlike_getInt)).bind_eq
      fun type => (LoadAlike.refl _).bind_eq fun _ =>
      (LoadAlike.ofExcept (readAlike_intervals? hd "Domain")).bind_eq fun domain =>
      (LoadAlike.ofExcept (readAlike_intervals? hd "Range")).bind_eq fun range =>
      loadAlike_loadType hd ih type data domain range

/-- With integers written as reals an object defines the same function, or fails to define one as
before. -/
theorem ofObject_respelled (h : o.Respelled o') (limits : Limits) (log : Log) :
    (∃ f log', ofObject limits o log = .ok f log' ∧ ofObject limits o' log = .ok f log') ∨
      ∃ e e' log', ofObject limits o log = .error e log' ∧
        ofObject limits o' log = .error e' log' ∧ e.Respelled e' := by
  obtain ⟨r, r', log', ho, ho', hr⟩ := loadAlike_load limits (maxDepth + 1) h log
  cases hr with
  | ok h =>
    subst h
    exact .inl ⟨_, log', ho, ho'⟩
  | error he => exact .inr ⟨_, _, log', ho, ho', he⟩

def realRamp : Object :=
  .stream [("FunctionType", real (Binary64.ofInt 0)), ("Domain", ofNumbers [0, 1]),
    ("Range", ofNumbers [0, 1]), ("Size", array [real (Binary64.ofInt 2)]),
    ("BitsPerSample", real (Binary64.ofInt 8))] [0, 255]

theorem respelled_ramp : (ramp []).Respelled realRamp := by
  refine .stream ?_ ?_ [0, 255]
  · rfl
  · exact .cons (.int (by decide)) (.cons (.same _) (.cons (.same _)
      (.cons (.array (.cons (.int (by decide)) .nil)) (.cons (.int (by decide)) .nil))))

theorem respelled_stitchedFrom {p p' : Object} (h : p.Respelled p') :
    (stitchedFrom p).Respelled (stitchedFrom p') := by
  refine .dict ?_ ?_
  · rfl
  · exact .cons (.same _) (.cons (.same _) (.cons (.array (.cons h .nil))
      (.cons (.same _) (.cons (.same _) .nil))))

/-- A table with reals for its type, size and width, as the part of a stitched function. -/
theorem ofObject_respelled_of_part :
    ∃ f log, ofObject {} (stitchedFrom (ramp [])) [] = .ok f log ∧
      ofObject {} (stitchedFrom realRamp) [] = .ok f log := by
  have hloads : passes (fun _ => true) (ofObject {} (stitchedFrom (ramp [])) []) := by
    decide +kernel
  obtain ⟨f, log, hf, -⟩ := exists_of_passes hloads
  rcases ofObject_respelled (respelled_stitchedFrom respelled_ramp) {} [] with
    hsame | ⟨e, e', log', he, -⟩
  · exact hsame
  · cases hf.symm.trans he

end Function

end PdfFunctions
