import Mathlib.Data.List.Basic
import PdfFunctions.Proofs.StackEffects

namespace PdfFunctions

open Stack StackM

namespace Error

def OfType : Error → Prop
  | typeMismatch .. => True
  | _ => False

/-- Operands of the right type for which there is no result. -/
def OfResult : Error → Prop
  | undefinedResult .. | rangeCheck .. => True
  | _ => False

end Error

variable {α β : Type} {x : StackM α} {p q : List Value}

namespace Stack

def framed (s : Stack) (b : List Value) :
    EStateM.Result Error (List Value) α → EStateM.Result Error Stack α
  | .ok a q => .ok a (s.holding (q ++ b))
  | .error e q => .error e (s.holding (q ++ b))

theorem holding_self (s : Stack) : s.holding s.values = s := Stack.ext rfl rfl rfl

theorem framed_holding (s : Stack) (vs b : List Value) (r : EStateM.Result Error (List Value) α) :
    (s.holding vs).framed b r = s.framed b r := by
  cases r <;> rfl

end Stack

/-- With `p` on top of the stack `x` comes to `r`, whatever lies below. -/
def Framed (x : StackM α) (p : List Value) (r : EStateM.Result Error (List Value) α) : Prop :=
  ∀ s b, s.values = p ++ b → x s = s.framed b r

namespace Framed

theorem pure (a : α) (p : List Value) : Framed (pure a) p (.ok a p) := by
  intro s b hs
  rw [framed, ← hs, holding_self, pure_apply]

theorem throw (e : Error) (p : List Value) : Framed (α := α) (throw e) p (.error e p) := by
  intro s b hs
  rw [framed, ← hs, holding_self, throw_apply]

theorem bind {f : α → StackM β} {a : α} {r : EStateM.Result Error (List Value) β}
    (hx : Framed x p (.ok a q)) (hf : Framed (f a) q r) : Framed (x >>= f) p r := by
  intro s b hs
  rw [bind_of_ok (hx s b hs), hf _ b rfl, framed_holding]

theorem bind_error {f : α → StackM β} {e : Error} (hx : Framed x p (.error e q)) :
    Framed (x >>= f) p (.error e q) := by
  intro s b hs
  rw [bind_of_error (hx s b hs)]
  rfl

theorem pop (op : String) (v : Value) (p : List Value) : Framed (pop op) (v :: p) (.ok v p) :=
  fun _ _ hs => pop_of_cons hs

theorem require (op : String) {n : Nat} (hn : n ≤ p.length) :
    Framed (require op n) p (.ok () p) := by
  intro s b hs
  have hle : n ≤ s.values.length := by
    rw [hs, List.length_append]
    omega
  rw [require_of_le hle, framed, ← hs, holding_self]

end Framed

theorem framed_popNumber (op : String) (y : Float) (p : List Value) :
    Framed (popNumber op) (.number y :: p) (.ok y p) :=
  (Framed.pop op _ p).bind (.pure y p)

theorem framed_popNumber_error (op : String) {v : Value} (hv : v.typeName ≠ "number")
    (p : List Value) :
    Framed (popNumber op) (v :: p) (.error (.typeMismatch "number" v.typeName) p) := by
  refine (Framed.pop op v p).bind ?_
  cases v with
  | number => exact absurd rfl hv
  | _ => exact .throw _ p

def Uniform (type : String) (p : List Value) : Prop := ∀ v ∈ p, v.typeName = type

theorem Value.plain_iff {v : Value} :
    v.Plain ↔ v.typeName = "number" ∨ v.typeName = "boolean" := by
  cases v <;> simp [Value.typeName]

theorem Uniform.plain {type : String} (htype : type = "number" ∨ type = "boolean")
    (h : Uniform type p) : ∀ v ∈ p, v.Plain := by
  intro v hv
  rw [Value.plain_iff, h v hv]
  exact htype

variable {suits : Prop} {good : α → Prop} {good' : β → Prop}

/-- `x` leaves the stack alone. It yields something `good`, or says why there is no result, or
objects to the types of operands that do not suit. -/
inductive Settles (suits : Prop) (good : α → Prop) : StackM α → Prop where
  | done {a : α} (hs : suits) (ha : good a) : Settles suits good (pure a)
  | undefined {e : Error} (hs : suits) (he : e.OfResult) : Settles suits good (throw e)
  | refused {e : Error} (hs : ¬ suits) (he : e.OfType) : Settles suits good (throw e)

theorem Settles.bind {f : α → StackM β} (hx : Settles suits good x)
    (hf : ∀ a, suits → good a → Settles suits good' (f a)) : Settles suits good' (x >>= f) := by
  cases hx with
  | done hs ha => exact hf _ hs ha
  | undefined hs he => exact .undefined hs he
  | refused hs he => exact .refused hs he

theorem Settles.ofExcept {y : Except Error α} (hs : suits) (ha : ∀ a, good a)
    (he : ∀ e, y = .error e → e.OfResult) : Settles suits good (ofExcept y) := by
  cases y with
  | ok a => exact .done hs (ha a)
  | error e => exact .undefined hs (he e rfl)

def Fair (suits : Prop) (good : α → Prop) (p : List Value) :
    EStateM.Result Error (List Value) α → Prop
  | .ok a q => suits ∧ good a ∧ q = []
  | .error e q => q <:+ p ∧ (suits ∧ e.OfResult ∨ ¬ suits ∧ e.OfType)

/-- With the operands `p` on top `x` comes to a fair outcome, whatever lies below. -/
def Consumes (x : StackM α) (p : List Value) (suits : Prop) (good : α → Prop) : Prop :=
  ∃ r, Framed x p r ∧ Fair suits good p r

theorem Settles.framed (hx : Settles suits good x) (p : List Value) :
    ∃ r, Framed x [] r ∧ Fair suits good p r := by
  cases hx with
  | @done a hs ha => exact ⟨.ok a [], .pure a [], hs, ha, rfl⟩
  | @undefined e hs he => exact ⟨.error e [], .throw e [], List.nil_suffix, .inl ⟨hs, he⟩⟩
  | @refused e hs he => exact ⟨.error e [], .throw e [], List.nil_suffix, .inr ⟨hs, he⟩⟩

theorem Framed.consumes {f : α → StackM β} {a : α} (hx : Framed x p (.ok a []))
    (hf : Settles suits good' (f a)) : Consumes (x >>= f) p suits good' := by
  obtain ⟨r, hr, hfair⟩ := hf.framed p
  exact ⟨r, hx.bind hr, hfair⟩

theorem Consumes.bind {f : α → StackM β} (hx : Consumes x p suits good)
    (hf : ∀ a, suits → good a → Settles suits good' (f a)) :
    Consumes (x >>= f) p suits good' := by
  obtain ⟨r, hr, hfair⟩ := hx
  cases r with
  | ok a q =>
    obtain ⟨hs, ha, rfl⟩ := hfair
    exact hr.consumes (hf a hs ha)
  | error e q => exact ⟨_, hr.bind_error, hfair⟩

theorem Consumes.imp {suits' : Prop} {good' : α → Prop}
    (hx : Consumes x p suits good) (hs : suits ↔ suits') (ha : ∀ a, good a → good' a) :
    Consumes x p suits' good' := by
  obtain ⟨r, hr, hfair⟩ := hx
  refine ⟨r, hr, ?_⟩
  cases r with
  | ok a q => exact ⟨hs.1 hfair.1, ha a hfair.2.1, hfair.2.2⟩
  | error e q =>
    obtain ⟨hq, hcause⟩ := hfair
    exact ⟨hq, by rwa [← hs]⟩

/-- Where `x` succeeds, the operands suit and are gone. -/
theorem Consumes.of_ok (hx : Consumes x p suits good) {s t : Stack} {b : List Value} {a : α}
    (hs : s.values = p ++ b) (h : x s = .ok a t) : suits ∧ good a ∧ t = s.holding b := by
  obtain ⟨r, hr, hfair⟩ := hx
  rw [hr s b hs] at h
  cases r with
  | ok a' q =>
    obtain ⟨hsuits, ha, rfl⟩ := hfair
    obtain ⟨rfl, rfl⟩ := EStateM.Result.ok.inj h
    exact ⟨hsuits, ha, rfl⟩
  | error e q => cases h

abbrev any : α → Prop := fun _ => True

theorem Settles.map (f : α → β) (hx : Settles suits good x) : Settles suits any (f <$> x) := by
  rw [map_eq_pure_bind]
  exact hx.bind fun _ hs _ => .done hs trivial

theorem Consumes.map (f : α → β) (hx : Consumes x p suits good) :
    Consumes (f <$> x) p suits any := by
  rw [map_eq_pure_bind]
  exact hx.bind fun _ hs _ => .done hs trivial

theorem settles_integer (op : String) (y : Float) (hs : suits) :
    Settles suits any (ofExcept (integer op y)) :=
  .ofExcept hs (fun _ => trivial) fun _ he => rangeCheck_of_integer he ▸ trivial

section operands

variable (op : String)

theorem consumes_popNumber (hp : p.length = 1) :
    Consumes (popNumber op) p (Uniform "number" p) any := by
  obtain ⟨v, rfl⟩ := List.length_eq_one_iff.1 hp
  cases v with
  | number y => exact ⟨_, framed_popNumber op y [], by simp [Uniform, Value.typeName], trivial, rfl⟩
  | _ =>
    exact ⟨_, framed_popNumber_error op (by simp [Value.typeName]) [], List.nil_suffix,
      .inr ⟨by simp [Uniform, Value.typeName], trivial⟩⟩

theorem consumes_popNumbers (hp : p.length = 2) :
    Consumes (popNumbers op) p (Uniform "number" p) any := by
  obtain ⟨w, v, rfl⟩ := List.length_eq_two.1 hp
  have hrequire : Framed (require op 2) [w, v] (.ok () [w, v]) := .require op (Nat.le_refl 2)
  by_cases hw : w.typeName = "number"
  · cases w with
    | number y =>
      -- the upper operand is a number, so the lower one decides
      have htop : Framed (popNumber op) [.number y, v] (.ok y [v]) := framed_popNumber op y [v]
      obtain ⟨r, hr, hfair⟩ := consumes_popNumber op (p := [v]) rfl
      have hsuits : Uniform "number" [.number y, v] ↔ Uniform "number" [v] := by
        simp [Uniform, Value.typeName]
      cases r with
      | ok a q =>
        obtain ⟨hs, -, rfl⟩ := hfair
        exact ⟨_, hrequire.bind (htop.bind (hr.bind (.pure (a, y) []))), hsuits.2 hs, trivial, rfl⟩
      | error e q =>
        obtain ⟨hq, hcause⟩ := hfair
        exact ⟨_, hrequire.bind (htop.bind hr.bind_error), hq.trans (List.suffix_cons _ _),
          by rwa [hsuits]⟩
    | _ => simp [Value.typeName] at hw
  · have htop := framed_popNumber_error op hw [v]
    exact ⟨_, hrequire.bind htop.bind_error, List.suffix_cons _ _,
      .inr ⟨fun h => hw (h w (by simp)), trivial⟩⟩

theorem consumes_popInt (hp : p.length = 1) :
    Consumes (popInt op) p (Uniform "number" p) any :=
  (consumes_popNumber op hp).bind fun y hs _ => settles_integer op y hs

theorem consumes_popInts (hp : p.length = 2) :
    Consumes (popInts op) p (Uniform "number" p) any :=
  (consumes_popNumbers op hp).bind fun (a, b) hs _ =>
    (settles_integer op a hs).bind fun _ hs _ =>
      (settles_integer op b hs).bind fun _ hs _ => .done hs trivial

end operands

namespace Operator

def Suits (op : Operator) (p : List Value) : Prop :=
  match op.category with
  | .arithmetic => Uniform "number" p
  | .comparison => if op = .eq ∨ op = .ne then ∀ v ∈ p, v.Plain else Uniform "number" p
  | .boolean =>
    if op = .bitshift then Uniform "number" p else Uniform "number" p ∨ Uniform "boolean" p
  | .stackManipulation | .control => True

/-- In place of the operands `p` there are values `q` of the announced kind. -/
def Result.Announces (p q : List Value) : Result → Prop
  | .number => Uniform "number" q
  | .boolean => Uniform "boolean" q
  | .sameAsOperands => ∀ v ∈ q, Uniform v.typeName p
  | .operands => ∀ v ∈ q, v ∈ p
  | .procedure => False

end Operator

namespace Arithmetic

theorem settles_defined (op : String) (y : Option α) (hs : suits) :
    Settles suits any (defined op y) := by
  cases y with
  | none => exact .undefined hs trivial
  | some a => exact .done hs trivial

/-- Arithmetic asks for numbers. -/
theorem consumes_result {op : Operator} (hop : op.category = .arithmetic)
    (hp : p.length = op.inputs) : Consumes (result op) p (Uniform "number" p) any := by
  cases op with
  | add | sub | mul => exact (consumes_popNumbers _ hp).bind fun _ hs _ => .done hs trivial
  | neg | abs | ceiling | floor | round | truncate | sin | cos =>
    exact (consumes_popNumber _ hp).map _
  | div =>
    refine (consumes_popNumbers _ hp).bind fun (a, b) hs _ => ?_
    dsimp only
    split
    · exact .undefined hs trivial
    · exact .done hs trivial
  | idiv | mod =>
    exact (consumes_popInts _ hp).bind fun (a, b) hs _ => (settles_defined _ _ hs).map _
  | sqrt | ln | log =>
    refine (consumes_popNumber _ hp).bind fun y hs _ => ?_
    split
    · exact .undefined hs trivial
    · exact .done hs trivial
  | atan | exp =>
    exact (consumes_popNumbers _ hp).bind fun (a, b) hs _ => settles_defined _ _ hs
  | cvi => exact (consumes_popInt _ hp).map _
  | cvr => exact consumes_popNumber _ hp
  | _ => simp [Operator.category, Operator.entry] at hop

end Arithmetic

namespace Relational

open Operator

theorem framed_popValues (op : String) (a b : Value) :
    Framed (popValues op) [b, a] (.ok (a, b) []) :=
  (Framed.require op (Nat.le_refl 2)).bind
    ((Framed.pop op b [a]).bind ((Framed.pop op a []).bind (.pure (a, b) [])))

theorem consumes_comparison (op : String) (f : Float → Float → Bool) (hp : p.length = 2) :
    Consumes (comparison op f) p (Uniform "number" p) (·.typeName = "boolean") :=
  (consumes_popNumbers op hp).bind fun _ hs _ => .done hs rfl

/-- Equality asks for numbers and booleans, in any mixture. -/
theorem consumes_equality (op : String) (f : Bool → Bool) (hp : p.length = 2) :
    Consumes (equality op f) p (∀ v ∈ p, v.Plain) (·.typeName = "boolean") := by
  obtain ⟨b, a, rfl⟩ := List.length_eq_two.1 hp
  refine (framed_popValues op a b).consumes ?_
  cases a <;> cases b
  all_goals first
    | exact .done (by simp) rfl
    | exact .refused (by simp) trivial

/-- The logical operators ask for operands of one type. -/
theorem consumes_logical (op : String) (f : Bool → Bool → Bool) (g : Int64 → Int64 → Int64)
    (hp : p.length = 2) :
    Consumes (logical op f g) p (Uniform "number" p ∨ Uniform "boolean" p)
      (fun v => Uniform v.typeName p) := by
  obtain ⟨b, a, rfl⟩ := List.length_eq_two.1 hp
  refine (framed_popValues op a b).consumes ?_
  cases a <;> cases b
  case number.number x y =>
    have hs : Uniform "number" [.number y, .number x] := by simp [Uniform, Value.typeName]
    exact (settles_integer op x (.inl hs)).bind fun m hs' _ =>
      (settles_integer op y hs').bind fun n hs' _ => .done hs' hs
  case bool.bool x y =>
    have hs : Uniform "boolean" [.bool y, .bool x] := by simp [Uniform, Value.typeName]
    exact .done (.inr hs) hs
  all_goals exact .refused (by simp [Uniform, Value.typeName]) trivial

theorem consumes_negation (op : String) (hp : p.length = 1) :
    Consumes (negation op) p (Uniform "number" p ∨ Uniform "boolean" p)
      (fun v => Uniform v.typeName p) := by
  obtain ⟨v, rfl⟩ := List.length_eq_one_iff.1 hp
  refine (Framed.pop op v []).consumes ?_
  cases v with
  | number x =>
    have hs : Uniform "number" [.number x] := by simp [Uniform, Value.typeName]
    exact (settles_integer op x (.inl hs)).bind fun n hs' _ => .done hs' hs
  | bool x =>
    have hs : Uniform "boolean" [.bool x] := by simp [Uniform, Value.typeName]
    exact .done (.inr hs) hs
  | _ => exact .refused (by simp [Uniform, Value.typeName]) trivial

theorem consumes_bitshift (op : String) (hp : p.length = 2) :
    Consumes (bitshift op) p (Uniform "number" p) (·.typeName = "number") := by
  refine (consumes_popInts op hp).bind fun (v, n) hs _ => ?_
  dsimp only
  split
  · exact .done hs rfl
  · exact .undefined hs trivial

theorem consumes_result {op : Operator}
    (hop : op.category = .comparison ∨ op.category = .boolean) (hp : p.length = op.inputs) :
    Consumes (result op) p (op.Suits p) fun v => op.entry.result.Announces p [v] := by
  have hone {type : String} {v : Value} (h : v.typeName = type) : Uniform type [v] := by
    simpa [Uniform] using h
  cases op with
  | eq | ne =>
    exact (consumes_equality _ _ hp).imp (by simp [Suits, category, entry]) fun v => hone
  | gt | ge | lt | le =>
    simp only [result]
    exact (consumes_comparison _ _ hp).imp (by simp [Suits, category, entry]) fun v => hone
  | and | or | xor =>
    exact (consumes_logical _ _ _ hp).imp (by simp [Suits, category, entry])
      fun v hv w hw => List.mem_singleton.1 hw ▸ hv
  | not =>
    exact (consumes_negation _ hp).imp (by simp [Suits, category, entry])
      fun v hv w hw => List.mem_singleton.1 hw ▸ hv
  | bitshift =>
    exact (consumes_bitshift _ hp).imp (by simp [Suits, category, entry]) fun v => hone
  | _ => simp [category, entry] at hop

end Relational

namespace Operator

def runsBody : Operator → Bool
  | runIf | runIfElse => true
  | _ => false

def pushConstant (op : Operator) : StackM Unit :=
  match op with
  | .pushTrue => push (.bool true)
  | .pushFalse => push (.bool false)
  | _ => throw (.typeMismatch "control operator" op.name)

def execute (op : Operator) : StackM Unit :=
  match op.category with
  | .arithmetic => Arithmetic.apply op
  | .comparison | .boolean => Relational.apply op
  | .stackManipulation => Rearrangement.apply op
  | .control => pushConstant op

def act (op : Operator) : StackM Unit := do
  StackM.require op.name op.inputs
  op.execute

variable {op : Operator}

theorem act_of_enough {s : Stack} (h : op.inputs ≤ s.values.length) : op.act s = op.execute s :=
  bind_of_ok (require_of_le h)

theorem enough_of_length (hp : p.length = op.inputs) {s : Stack} {b : List Value}
    (hs : s.values = p ++ b) : op.inputs ≤ s.values.length := by
  rw [hs, List.length_append, hp]
  exact Nat.le_add_right _ _

/-- The categories whose operators put one value in place of their operands. -/
def Category.calculates : Category → Bool
  | arithmetic | comparison | boolean => true
  | stackManipulation | control => false

def calculation (op : Operator) : StackM Value :=
  match op.category with
  | .arithmetic => .number <$> Arithmetic.result op
  | _ => Relational.result op

theorem execute_eq_calculation (hop : op.category.calculates = true) :
    op.execute = op.calculation >>= push := by
  rw [execute, calculation]
  cases hc : op.category with
  | arithmetic => exact (bind_map_left _ _ _).symm
  | comparison | boolean => rfl
  | stackManipulation | control => simp [hc, Category.calculates] at hop

theorem inputs_pos_of_calculates (hop : op.category.calculates = true) : 0 < op.inputs := by
  revert hop
  cases op <;> decide

/-- A calculation accepts the operands that suit its category, and yields a value of the kind that
the operator table announces. -/
theorem consumes_calculation (hop : op.category.calculates = true) (hp : p.length = op.inputs) :
    Consumes op.calculation p (op.Suits p) fun v => op.entry.result.Announces p [v] := by
  rw [calculation]
  cases hc : op.category with
  | arithmetic =>
    have hsuits : Uniform "number" p ↔ op.Suits p := by rw [Suits, hc]
    have hresult : op.entry.result = .number := by
      clear hp hsuits hop
      revert hc
      cases op <;> decide
    have hx := (Arithmetic.consumes_result hc hp).imp hsuits fun _ => id
    dsimp only
    rw [map_eq_pure_bind, hresult]
    exact hx.bind fun y hs _ => .done hs fun v hv => List.mem_singleton.1 hv ▸ rfl
  | comparison => exact Relational.consumes_result (.inl hc) hp
  | boolean => exact Relational.consumes_result (.inr hc) hp
  | stackManipulation | control => simp [hc, Category.calculates] at hop

theorem Suits.plain (hop : op.category.calculates = true) (h : op.Suits p) :
    ∀ v ∈ p, v.Plain := by
  rw [Suits] at h
  cases hc : op.category with
  | arithmetic =>
    rw [hc] at h
    exact Uniform.plain (.inl rfl) h
  | comparison =>
    rw [hc] at h
    dsimp only at h
    split at h
    · exact h
    · exact Uniform.plain (.inl rfl) h
  | boolean =>
    rw [hc] at h
    dsimp only at h
    split at h
    · exact Uniform.plain (.inl rfl) h
    · exact h.elim (Uniform.plain (.inl rfl)) (Uniform.plain (.inr rfl))
  | stackManipulation | control => simp [hc, Category.calculates] at hop

theorem Result.Announces.plain {r : Result} (h : r.Announces p q) (hne : p ≠ [])
    (hp : ∀ v ∈ p, v.Plain) : ∀ v ∈ q, v.Plain := by
  intro v hv
  cases r with
  | number => exact Uniform.plain (.inl rfl) h v hv
  | boolean => exact Uniform.plain (.inr rfl) h v hv
  | sameAsOperands =>
    obtain ⟨w, hw⟩ := List.exists_mem_of_ne_nil p hne
    have htype : w.typeName = v.typeName := h v hv w hw
    rw [Value.plain_iff, ← htype, ← Value.plain_iff]
    exact hp w hw
  | operands => exact hp v (h v hv)
  | procedure => exact h.elim

end Operator

end PdfFunctions
