import PdfFunctions.Proofs.Endings
import PdfFunctions.Proofs.ExactIntegers
import PdfFunctions.Proofs.OperatorTable

namespace PdfFunctions

open Stack StackM

namespace Value

def ofInt (n : Int) : Value := .number (Binary64.ofInt n)

@[simp] theorem plain_ofInt (n : Int) : (ofInt n).Plain := rfl

/-- What is pushed where bodies are run, or run without opening a call. -/
def Direct : Value → Prop
  | .operator op => op.runsBody = false
  | v => v.Plain

def enact : Value → StackM Unit
  | .operator op => op.act
  | v => push v

theorem enact_of_plain {v : Value} (hv : v.Plain) : v.enact = push v := by
  cases v with
  | operator => simp at hv
  | _ => rfl

end Value

open Value

/-- There has been room for everything. -/
def HasRoom {σ : Type} (r : EStateM.Result Error σ Unit) : Prop :=
  ∀ limit s, r ≠ .error (.stackOverflow limit) s

section room

variable {σ : Type} {x : EStateM Error σ Unit} {f : Unit → EStateM Error σ Unit} {s t : σ}

theorem HasRoom.first (h : HasRoom ((x >>= f) s)) : HasRoom (x s) :=
  fun limit t ht => h limit t (bind_of_error ht)

theorem HasRoom.rest (h : HasRoom ((x >>= f) s)) (ht : x s = .ok () t) : HasRoom (f () t) := by
  rwa [bind_of_ok ht] at h

end room

theorem push_of_hasRoom {v : Value} {s : Stack} (h : HasRoom (push v s)) :
    push v s = .ok () (s.cons v) :=
  push_of_lt (Nat.lt_of_not_le fun hfull => h _ _ (if_pos hfull))

def enactAll : List Value → StackM Unit
  | [] => pure ()
  | v :: vs => v.enact >>= fun _ => enactAll vs

theorem enactAll_singleton (v : Value) : enactAll [v] = v.enact :=
  bind_pure_unit

/-- A plain value is pushed first. -/
theorem enactAll_of_plain {v : Value} (hv : v.Plain) {vs : List Value} {s : Stack}
    (h : HasRoom (enactAll (v :: vs) s)) : enactAll (v :: vs) s = enactAll vs (s.cons v) := by
  rw [enactAll, enact_of_plain hv] at h ⊢
  exact bind_of_ok (push_of_hasRoom h.first)

namespace Rearrangement

/-- The values, the top first, after the top `n` have moved up by `j`. -/
def rolled (n : Nat) (j : Int) (vs : List Value) : List Value :=
  rotate (j % n).toNat (vs.take n) ++ vs.drop n

def rollBy (n : Nat) (j : Int) : StackM Unit :=
  if 0 < n then rearrange "roll" n (rotate (j % n).toNat) (length_rotate _) else pure ()

def fetch (n : Nat) : StackM Unit := fun s =>
  match s.peek? n with
  | some v => push v s
  | none => .error (s.underflow "index" (n + 1)) s

theorem rollBy_of_le {n : Nat} (j : Int) {s : Stack} (h : n ≤ s.values.length) :
    rollBy n j s = .ok () (s.holding (rolled n j s.values)) := by
  rw [rollBy]
  split
  · exact rearrange_of_le _ _ h
  · obtain rfl : n = 0 := by omega
    refine congrArg (EStateM.Result.ok ()) (Stack.ext ?_ rfl rfl)
    simp [rolled, rotate]

theorem rollBy_of_lt {n : Nat} (j : Int) {s : Stack} (h : s.values.length < n) :
    rollBy n j s = .error (s.underflow "roll" n) s := by
  rw [rollBy, if_pos (by omega)]
  exact bind_of_error (require_of_lt h)

theorem fetch_of_getElem? {n : Nat} {v : Value} {s : Stack} (h : s.values[n]? = some v) :
    fetch n s = push v s := by
  rw [fetch, peek?, h]

theorem fetch_of_le {n : Nat} {s : Stack} (h : s.values.length ≤ n) :
    fetch n s = .error (s.underflow "index" (n + 1)) s := by
  rw [fetch, peek?, List.getElem?_eq_none h]

theorem duplicate_of_le {op : String} {n : Nat} {s : Stack} (h : n ≤ s.values.length) :
    duplicate op n s = pushAll (s.values.take n).reverse s := by
  rw [duplicate_eq_look, bind_of_ok (look_of_le h)]

theorem duplicate_of_lt {op : String} {n : Nat} {s : Stack} (h : s.values.length < n) :
    duplicate op n s = .error (s.underflow op n) s := by
  rw [duplicate_eq_look, bind_of_error (look_of_lt h)]

theorem holding_cons (s : Stack) (v : Value) : (s.cons v).holding s.values = s :=
  Stack.ext rfl rfl rfl

theorem popInt_ofInt (op : String) {n : Int} (hn : n.natAbs < 2 ^ 53) (s : Stack) :
    popInt op (s.cons (ofInt n)) = .ok n s := by
  have hvalues : (s.cons (ofInt n)).values = ofInt n :: s.values := rfl
  have hpop : popNumber op (s.cons (ofInt n)) = .ok (Binary64.ofInt n) s := by
    refine (bind_of_ok (pop_of_cons hvalues)).trans ?_
    rw [holding_cons]
    rfl
  refine (bind_of_ok hpop).trans ?_
  rw [integer_ofInt op hn]
  rfl

theorem popCount_ofInt (op : String) {n : Nat} (hn : n < 2 ^ 53) (s : Stack) :
    popCount op (s.cons (ofInt n)) = .ok n s := by
  refine (bind_of_ok (popInt_ofInt op (by omega) s)).trans ?_
  rw [if_neg (by omega)]
  rfl

variable {n : Nat} {s : Stack} {vs : List Value}

theorem enactAll_copy (hn : n < 2 ^ 53)
    (h : HasRoom (enactAll [ofInt n, .operator .copy] s)) :
    enactAll [ofInt n, .operator .copy] s = duplicate "copy" n s := by
  rw [enactAll_of_plain (plain_ofInt n) h, enactAll_singleton]
  change Operator.copy.act (s.cons (ofInt n)) = _
  rw [Operator.act_of_enough (by simp [Operator.inputs, Operator.entry])]
  exact bind_of_ok (popCount_ofInt "copy" hn s)

theorem enactAll_index (hn : n < 2 ^ 53)
    (h : HasRoom (enactAll (ofInt n :: .operator .index :: vs) s)) :
    enactAll (ofInt n :: .operator .index :: vs) s = (fetch n >>= fun _ => enactAll vs) s := by
  have hact : Operator.index.act (s.cons (ofInt n)) = fetch n s := by
    rw [Operator.act_of_enough (by simp [Operator.inputs, Operator.entry])]
    refine (bind_of_ok (x := popCount "index") (popCount_ofInt "index" hn s)).trans ?_
    rw [get_bind, fetch]
    cases s.peek? n <;> rfl
  rw [enactAll_of_plain (plain_ofInt n) h]
  exact bind_congr_result hact _

theorem enactAll_roll {j : Int} (hn : n < 2 ^ 53) (hj : j.natAbs < 2 ^ 53)
    (h : HasRoom (enactAll (ofInt n :: ofInt j :: .operator .roll :: vs) s)) :
    enactAll (ofInt n :: ofInt j :: .operator .roll :: vs) s =
      (rollBy n j >>= fun _ => enactAll vs) s := by
  have hact : Operator.roll.act ((s.cons (ofInt n)).cons (ofInt j)) = rollBy n j s := by
    rw [Operator.act_of_enough (by simp [Operator.inputs, Operator.entry])]
    refine (bind_of_ok (popInt_ofInt "roll" hj _)).trans ?_
    exact bind_of_ok (popCount_ofInt "roll" hn s)
  have hcount := enactAll_of_plain (plain_ofInt n) h
  rw [hcount] at h ⊢
  rw [enactAll_of_plain (plain_ofInt j) h]
  exact bind_congr_result hact _

variable {us : List Value}

theorem rolled_eq (j : Int) (h : n ≤ us.length) :
    rolled n j us = (us.take n).rotate (j % n).toNat ++ us.drop n := by
  have hlength : (us.take n).length = n := List.length_take_of_le h
  rw [rolled, rotate]
  rcases Nat.eq_zero_or_pos n with rfl | hn
  · simp
  · have hle : (j % n).toNat ≤ (us.take n).length := by
      have hnonneg := Int.emod_nonneg j (by omega : (n : Int) ≠ 0)
      have hlt := Int.emod_lt_of_pos j (by omega : (0 : Int) < n)
      omega
    rw [List.rotate_eq_drop_append_take hle]

theorem length_rolled (j : Int) : (rolled n j us).length = us.length := by
  rw [rolled, List.length_append, length_rotate, ← List.length_append, List.take_append_drop]

theorem take_rolled (j : Int) (h : n ≤ us.length) :
    (rolled n j us).take n = (us.take n).rotate (j % n).toNat := by
  rw [rolled_eq j h, List.take_left']
  rw [List.length_rotate, List.length_take_of_le h]

theorem drop_rolled (j : Int) (h : n ≤ us.length) : (rolled n j us).drop n = us.drop n := by
  rw [rolled_eq j h, List.drop_left']
  rw [List.length_rotate, List.length_take_of_le h]

theorem rolled_zero (n : Nat) (us : List Value) : rolled n 0 us = us := by
  simp [rolled, rotate]

theorem shift_add (hn : 0 < n) (j k : Int) :
    ((j % n).toNat + (k % n).toNat) % n = ((j + k) % n).toNat := by
  have hne : (n : Int) ≠ 0 := by omega
  have hj := Int.toNat_of_nonneg (Int.emod_nonneg j hne)
  have hk := Int.toNat_of_nonneg (Int.emod_nonneg k hne)
  have hsum : ((((j % n).toNat + (k % n).toNat) % n : Nat) : Int) = (j + k) % n := by
    rw [Int.natCast_emod, Int.natCast_add, hj, hk, ← Int.add_emod]
  omega

/-- Two rolls of the same values are one. -/
theorem rolled_rolled (j k : Int) (h : n ≤ us.length) :
    rolled n k (rolled n j us) = rolled n (j + k) us := by
  have hlength : (us.take n).length = n := List.length_take_of_le h
  rw [rolled_eq k (by rwa [length_rolled]), take_rolled j h, drop_rolled j h,
    rolled_eq (j + k) h, List.rotate_rotate]
  rcases Nat.eq_zero_or_pos n with rfl | hn
  · simp
  · rw [← List.rotate_mod, hlength, shift_add hn]

/-- Counted from the other end, a shift goes back. -/
theorem mirror_mod {i k : Nat} (hi : i < n) (hk : k < n) :
    (n - 1 - (i + k) % n + k) % n = n - 1 - i := by
  by_cases h : i + k < n
  · rw [Nat.mod_eq_of_lt h, Nat.mod_eq_of_lt (by omega)]
    omega
  · rw [Nat.mod_eq_sub_mod (Nat.le_of_not_lt h), Nat.mod_eq_of_lt (by omega : i + k - n < n),
      Nat.mod_eq_sub_mod (by omega), Nat.mod_eq_of_lt (by omega)]
    omega

/-- The value at position `i` of the rolled group, counted from its bottom, moves up by `j`,
coming in again from below. -/
theorem getElem?_rolled (j : Int) (h : n ≤ us.length) {i : Nat} (hi : i < n) :
    ((rolled n j us).take n).reverse[((i + j) % n).toNat]? = (us.take n).reverse[i]? := by
  have hlength : (us.take n).length = n := List.length_take_of_le h
  have hshift := shift_add (Nat.zero_lt_of_lt hi) i j
  have hlt : (j % n).toNat < n := by
    have := Int.emod_lt_of_pos j (by omega : (0 : Int) < n)
    omega
  have hplace : ((i : Int) % n).toNat = i := by
    rw [Int.emod_eq_of_lt (by omega) (by omega), Int.toNat_natCast]
  rw [hplace] at hshift
  have hto := Nat.mod_lt (i + (j % n).toNat) (Nat.zero_lt_of_lt hi)
  rw [← hshift, take_rolled j h, List.getElem?_reverse (by rwa [List.length_rotate, hlength]),
    List.getElem?_reverse (by rwa [hlength]), List.length_rotate, hlength,
    List.getElem?_rotate (by omega), hlength]
  congr 1
  exact mirror_mod hi hlt

end Rearrangement

end PdfFunctions
