import PdfFunctions.Proofs.SoundFunctions

namespace PdfFunctions

open Object

namespace Entries

/-- `e` has what `d` has, except under `key`: there `d` has `o?` and `e` has `o'?`. -/
structure DifferAt (key : String) (o? o'? : Option Object) (d e : Entries) : Prop where
  old : d.get? key = o?
  new : e.get? key = o'?
  others : ∀ k, k ≠ key → e.get? k = d.get? k

theorem differAt_cons {key : String} {d : Entries} (h : d.get? key = none) (o : Object) :
    DifferAt key none (some o) d ((key, o) :: d) := by
  refine ⟨h, List.lookup_cons_self, fun k hk => ?_⟩
  rw [get?, List.lookup_cons, beq_false_of_ne hk, get?]

section differAt

variable {key k : String} {o? o'? : Option Object} {o : Object} {d e : Entries}

theorem DifferAt.required (h : DifferAt key o? o'? d e) (hk : k ≠ key) :
    e.required k = d.required k := by
  rw [Entries.required, h.others k hk, Entries.required]

theorem DifferAt.numbers? (h : DifferAt key o? o'? d e) (hk : k ≠ key) :
    e.numbers? k = d.numbers? k := by
  rw [Entries.numbers?, h.others k hk, Entries.numbers?]

theorem required_of_none {α : Type} (h : d.get? key = none) (read : Object → Except Error α) :
    (d.required key >>= read) = .error (.missingKey key) := by
  rw [required, h]
  rfl

theorem required_of_some {α : Type} (h : d.get? key = some o) (read : Object → Except Error α) :
    (d.required key >>= read) = read o := by
  rw [required, h]
  rfl

/-- Null stands for no list of numbers, whatever the key. -/
theorem numbers?_of_null (h : DifferAt key none (some .null) d e) (k : String) :
    e.numbers? k = d.numbers? k := by
  by_cases hk : k = key
  · subst hk
    rw [numbers?, h.new, numbers?, h.old]
  · exact h.numbers? hk

end differAt

def type (d : Entries) : Except Error Int := d.required "FunctionType" >>= getInt

theorem DifferAt.type {key : String} {o? o'? : Option Object} {d e : Entries}
    (h : DifferAt key o? o'? d e) (hkey : "FunctionType" ≠ key) : e.type = d.type := by
  rw [Entries.type, h.required hkey, Entries.type]

/-- The keys of which the entry is read as it is, null or not. -/
def literalKeys (d : Entries) : List String :=
  "FunctionType" :: match d.type with
    | .ok 0 => ["Size", "BitsPerSample", "Order"]
    | .ok 2 => ["N"]
    | .ok 3 => ["Functions", "Bounds", "Encode"]
    | _ => []

end Entries

namespace Object

open PdfFunctions.Entries PdfFunctions.Function

/-- The objects are the same, except that `o'` has null under `key` in the dictionary `d`, where
`o` has no entry: in its own dictionary or in that of a part, at any depth. -/
inductive Nulled (key : String) (d : Entries) : Object → Object → Prop where
  | here {o o' : Object} {e : Entries} {data : Option Bytes}
      (ho : dictionary o = .ok (d, data)) (ho' : dictionary o' = .ok (e, data))
      (h : DifferAt key none (some .null) d e) : Nulled key d o o'
  | part {o o' p p' : Object} {entries entries' : Entries} {data : Option Bytes}
      {before after : List Object}
      (ho : dictionary o = .ok (entries, data)) (ho' : dictionary o' = .ok (entries', data))
      (htype : entries.type = .ok 3)
      (h : DifferAt "Functions" (some (.array (before ++ p :: after)))
        (some (.array (before ++ p' :: after))) entries entries')
      (hp : Nulled key d p p') : Nulled key d o o'

end Object

namespace Function

open Entries

def loadEntries (limits : Limits) (room : Nat) (d : Entries) (data : Option Bytes) :
    EvalM Function :=
  ofExcept d.type >>= fun type =>
  modify (.loading type (maxDepth - room) :: ·) >>= fun _ =>
  ofExcept (intervals? d "Domain") >>= fun domain =>
  ofExcept (intervals? d "Range") >>= fun range =>
  loadType limits room type d data domain range

theorem load_of_dictionary {limits : Limits} {room : Nat} {o : Object} {d : Entries}
    {data : Option Bytes} (h : dictionary o = .ok (d, data)) :
    load limits (room + 1) o = loadEntries limits room d data := by
  rw [load_succ, h]
  rfl

def wanted (key : String) : String :=
  if key = "N" then "number"
  else if key ∈ ["Size", "Functions", "Bounds", "Encode"] then "array"
  else "int"

/-- The outcome without an entry under `key`, and that with a null: the same error, which has
come up before the key is read; or the null is of the wrong type, while without it the key is
missing, unless it may be left out. -/
inductive Stops {α : Type} (key : String) :
    EStateM.Result Error Log α → EStateM.Result Error Log α → Prop where
  | before (e : Error) (log : Log) : Stops key (.error e log) (.error e log)
  | required (log : Log) :
    Stops key (.error (.missingKey key) log) (.error (.typeMismatch (wanted key) "null") log)
  | optional (h : key = "Order") (r : EStateM.Result Error Log α) (log : Log) :
    Stops key r (.error (.typeMismatch (wanted key) "null") log)

section stops

variable {α β : Type} {key : String} {log : Log}

theorem Stops.exists_error {r r' : EStateM.Result Error Log α} (h : Stops key r r') :
    ∃ e log₁, r' = .error e log₁ := by
  cases h with
  | before e log₁ => exact ⟨e, log₁, rfl⟩
  | required log₁ => exact ⟨_, log₁, rfl⟩
  | optional _ _ log₁ => exact ⟨_, log₁, rfl⟩

/-- What follows is never reached with the null. -/
theorem Stops.bind {x y : EvalM α} (h : Stops key (x log) (y log)) (f g : α → EvalM β) :
    Stops key ((x >>= f) log) ((y >>= g) log) := by
  -- the first load may go on where the second stops, and then the key is an optional one
  cases hx : x log with
  | ok a log₁ =>
    cases hy : y log with
    | ok b log₂ =>
      rw [hx, hy] at h
      cases h
    | error e log₂ =>
      rw [hx, hy] at h
      cases h with
      | optional horder =>
        rw [bind_of_error hy]
        exact .optional horder _ _
  | error e log₁ =>
    rw [bind_of_error hx]
    cases hy : y log with
    | ok b log₂ =>
      rw [hx, hy] at h
      cases h
    | error e' log₂ =>
      rw [bind_of_error hy]
      rw [hx, hy] at h
      cases h with
      | before => exact .before _ _
      | required => exact .required _
      | optional horder => exact .optional horder _ _

/-- What comes first is the same, and decides if it fails. -/
theorem Stops.after {x : EvalM α} {f g : α → EvalM β}
    (h : ∀ a log₁, x log = .ok a log₁ → Stops key (f a log₁) (g a log₁)) :
    Stops key ((x >>= f) log) ((x >>= g) log) := by
  cases hx : x log with
  | ok a log₁ =>
    rw [bind_of_ok hx, bind_of_ok hx]
    exact h a log₁ hx
  | error e log₁ =>
    rw [bind_of_error hx, bind_of_error hx]
    exact .before e log₁

end stops

def loadParts (limits : Limits) (room : Nat) (d : Entries) : EvalM (List Function) :=
  ofExcept (d.required "Functions" >>= getArray) >>= List.mapM (load limits room)

section loadEntries

variable {limits : Limits} {room : Nat} {d e : Entries} {data : Option Bytes}

theorem loadParts_congr (h : e.required "Functions" = d.required "Functions") :
    loadParts limits room e = loadParts limits room d := by
  rw [loadParts, h, loadParts]

theorem loadParts_eq {items : List Object} (h : d.get? "Functions" = some (.array items)) :
    loadParts limits room d = items.mapM (load limits room) := by
  rw [loadParts, required_of_some h]
  rfl

theorem loadType_stitched (domain : Intervals Float) (range : Option (Intervals Float)) :
    loadType limits room 3 d data (some domain) range =
      loadParts limits room d >>= fun parts =>
      ofExcept (d.required "Bounds" >>= getNumbers) >>= fun bounds =>
      ofExcept (d.required "Encode" >>= getNumbers) >>= fun encode =>
      ofExcept (do stitch (← single domain) parts bounds encode range) := by
  rw [loadParts, bind_assoc]
  rfl

/-- Loading reads the type, the lists of numbers, the literal keys and the parts. -/
structure SameReads (limits : Limits) (room : Nat) (d e : Entries) : Prop where
  literal : ∀ k ∈ d.literalKeys, k ≠ "Functions" → e.get? k = d.get? k
  numbers : ∀ k, k ≠ "Functions" → e.numbers? k = d.numbers? k
  parts : d.type = .ok 3 → loadParts limits room e = loadParts limits room d

theorem SameReads.required (h : SameReads limits room d e) {k : String} (hk : k ∈ d.literalKeys)
    (hne : k ≠ "Functions") : e.required k = d.required k := by
  rw [Entries.required, h.literal k hk hne, Entries.required]

theorem SameReads.type (h : SameReads limits room d e) : e.type = d.type := by
  rw [Entries.type, h.required List.mem_cons_self (by decide), Entries.type]

theorem literalKeys_of_type {type : Int} (h : d.type = .ok type) {k : String} :
    k ∈ d.literalKeys ↔ k = "FunctionType" ∨
      type = 0 ∧ k ∈ ["Size", "BitsPerSample", "Order"] ∨ type = 2 ∧ k = "N" ∨
      type = 3 ∧ k ∈ ["Functions", "Bounds", "Encode"] := by
  rw [literalKeys, h, List.mem_cons]
  apply or_congr_right
  split <;> simp_all

theorem loadType_congr (h : SameReads limits room d e) {type : Int} (htype : d.type = .ok type)
    (domain range : Option (Intervals Float)) :
    loadType limits room type e data domain range =
      loadType limits room type d data domain range := by
  have hmem := fun k => literalKeys_of_type htype (k := k)
  by_cases h0 : type = 0
  · have hsize := h.required ((hmem "Size").2 (by simp [h0])) (by decide)
    have hbits := h.required ((hmem "BitsPerSample").2 (by simp [h0])) (by decide)
    have horder := h.literal _ ((hmem "Order").2 (by simp [h0])) (by decide)
    simp (disch := decide) only [loadType, if_pos h0, loadSampled, hsize, hbits, horder, h.numbers]
  by_cases h2 : type = 2
  · have hn := h.required ((hmem "N").2 (by simp [h2])) (by decide)
    simp (disch := decide) only [loadType, if_neg h0, if_pos h2, loadExponential, hn, h.numbers]
  by_cases h3 : type = 3
  · subst h3
    cases domain with
    | none => rfl
    | some domain =>
      have hbounds := h.required ((hmem "Bounds").2 (by simp)) (by decide)
      have hencode := h.required ((hmem "Encode").2 (by simp)) (by decide)
      simp only [loadType_stitched, h.parts htype, hbounds, hencode]
  simp only [loadType, if_neg h0, if_neg h2, if_neg h3]

theorem intervals?_congr {k : String} (h : e.numbers? k = d.numbers? k) :
    intervals? e k = intervals? d k := by
  rw [intervals?, h, intervals?]

theorem loadEntries_congr (h : SameReads limits room d e) :
    loadEntries limits room e data = loadEntries limits room d data := by
  funext log
  rw [loadEntries, h.type, intervals?_congr (h.numbers "Domain" (by decide)),
    intervals?_congr (h.numbers "Range" (by decide)), loadEntries]
  cases htype : d.type with
  | error err => rfl
  | ok type =>
    rw [ofExcept_bind rfl, ofExcept_bind rfl]
    simp only [loadType_congr h htype]

/-- Up to the type, both loads are the same. -/
theorem stops_loadEntries {key : String} (htype : e.type = d.type)
    (hdomain : e.numbers? "Domain" = d.numbers? "Domain")
    (hrange : e.numbers? "Range" = d.numbers? "Range")
    (hload : ∀ type, d.type = .ok type → ∀ domain range log,
      Stops key (loadType limits room type d data domain range log)
        (loadType limits room type e data domain range log)) (log : Log) :
    Stops key (loadEntries limits room d data log) (loadEntries limits room e data log) := by
  rw [loadEntries, loadEntries, htype,
    intervals?_congr hdomain, intervals?_congr hrange]
  refine .after fun type log₁ ht => .after fun _ log₂ _ => .after fun domain log₃ _ =>
    .after fun range log₄ _ => ?_
  exact hload type (ofExcept_eq_ok.1 ht).1 domain range log₄

end loadEntries

section nulls

variable {limits : Limits} {room : Nat} {d e : Entries} {data : Option Bytes} {key : String}

/-- A literal key that is read: without an entry it is missing, and null is of the wrong type. -/
theorem Stops.read {α β : Type} (h : DifferAt key none (some .null) d e)
    {read : Object → Except Error α}
    (hread : read .null = .error (.typeMismatch (wanted key) "null")) (f g : α → EvalM β)
    (log : Log) :
    Stops key ((ofExcept (d.required key >>= read) >>= f) log)
      ((ofExcept (e.required key >>= read) >>= g) log) := by
  rw [required_of_none h.old, required_of_some h.new, hread]
  exact .required log

theorem stops_loadSampled (h : DifferAt key none (some .null) d e)
    (hkey : key ∈ ["Size", "BitsPerSample", "Order"]) (domain range : Option (Intervals Float))
    (log : Log) :
    Stops key (loadSampled d data domain range log) (loadSampled e data domain range log) := by
  cases data with
  | none => exact .before _ log
  | some data =>
    simp only [loadSampled, numbers?_of_null h, bind_assoc]
    simp only [List.mem_cons, List.not_mem_nil, or_false] at hkey
    rcases hkey with rfl | rfl | rfl
    · exact .read h rfl _ _ log
    · rw [h.required (k := "Size") (by decide)]
      exact .after fun sizes log₁ _ => .read h rfl _ _ log₁
    · rw [h.required (k := "Size") (by decide), h.required (k := "BitsPerSample") (by decide),
        h.old, h.new]
      refine .after fun sizes log₁ _ => .after fun bits log₂ _ => .after fun f log₃ _ =>
        .after fun encode log₄ _ => .after fun f log₅ _ => .after fun decode log₆ _ =>
        .after fun f log₇ _ => ?_
      exact .optional rfl _ log₇

theorem stops_loadType {type : Int} (h : DifferAt key none (some .null) d e)
    (htype : d.type = .ok type) (hkey : key ∈ d.literalKeys) (hne : key ≠ "FunctionType")
    (domain range : Option (Intervals Float)) (log : Log) :
    Stops key (loadType limits room type d data domain range log)
      (loadType limits room type e data domain range log) := by
  -- the keys in the order they are read; what precedes the changed one reads alike
  rcases (literalKeys_of_type htype).1 hkey with hkey | ⟨rfl, hkey⟩ | ⟨rfl, rfl⟩ | ⟨rfl, hkey⟩
  · exact absurd hkey hne
  · exact stops_loadSampled h hkey domain range log
  · change Stops _ ((ofExcept (loadExponential d domain range) : EvalM Function) log)
      ((ofExcept (loadExponential e domain range) : EvalM Function) log)
    rw [loadExponential, loadExponential, required_of_none h.old, required_of_some h.new]
    exact .required log
  · cases domain with
    | none => exact .before _ log
    | some domain =>
      rw [loadType_stitched, loadType_stitched]
      simp only [List.mem_cons, List.not_mem_nil, or_false] at hkey
      rcases hkey with rfl | rfl | rfl
      · exact .bind (.read h rfl _ _ log) _ _
      · rw [loadParts_congr (h.required (by decide))]
        exact .after fun parts log₁ _ => .read h rfl _ _ log₁
      · rw [loadParts_congr (h.required (by decide)), h.required (k := "Bounds") (by decide)]
        exact .after fun parts log₁ _ => .after fun bounds log₂ _ => .read h rfl _ _ log₂

theorem SameReads.of_nulls (h : DifferAt key none (some .null) d e) (hkey : key ∉ d.literalKeys) :
    SameReads limits room d e := by
  have hne : ∀ k ∈ d.literalKeys, k ≠ key := fun k hk heq => hkey (heq ▸ hk)
  refine ⟨fun k hk _ => h.others k (hne k hk), fun k _ => numbers?_of_null h k, fun htype => ?_⟩
  exact loadParts_congr (h.required (hne _ ((literalKeys_of_type htype).2 (by simp))))

theorem SameReads.of_parts {items items' : List Object}
    (h : DifferAt "Functions" (some (.array items)) (some (.array items')) d e)
    (hload : items'.mapM (load limits room) = items.mapM (load limits room)) :
    SameReads limits room d e := by
  refine ⟨fun k _ hne => h.others k hne, fun k hne => h.numbers? hne, fun _ => ?_⟩
  rw [loadParts_eq h.old, loadParts_eq h.new, hload]

/-- A key that is no literal one may as well be mapped to null, at any depth. -/
theorem load_null {o o' : Object} (h : Nulled key d o o') (hkey : key ∉ d.literalKeys)
    (room : Nat) : load limits room o' = load limits room o := by
  induction h generalizing room with
  | here ho ho' h =>
    cases room with
    | zero => rfl
    | succ room =>
      rw [load_of_dictionary ho, load_of_dictionary ho', loadEntries_congr (.of_nulls h hkey)]
  | part ho ho' htype h hp ih =>
    cases room with
    | zero => rfl
    | succ room =>
      rw [load_of_dictionary ho, load_of_dictionary ho', loadEntries_congr (.of_parts h ?_)]
      rw [List.mapM_append, List.mapM_cons, ih room, List.mapM_append, List.mapM_cons]

theorem stops_of_null {o o' : Object} (h : Nulled key d o o') (hkey : key ∈ d.literalKeys)
    (room : Nat) (log : Log) :
    Stops key (load limits room o log) (load limits room o' log) := by
  induction h generalizing room log with
  | @here o o' e data ho ho' h =>
    cases room with
    | zero => exact .before _ log
    | succ room =>
      rw [load_of_dictionary ho, load_of_dictionary ho']
      by_cases hne : key = "FunctionType"
      · subst hne
        exact .read h rfl _ _ log
      · exact stops_loadEntries (h.type (Ne.symm hne)) (numbers?_of_null h _)
          (numbers?_of_null h _) (fun _ htype => stops_loadType h htype hkey hne) log
  | part ho ho' htype h hp ih =>
    cases room with
    | zero => exact .before _ log
    | succ room =>
      rw [load_of_dictionary ho, load_of_dictionary ho']
      -- a changed part: the entries of the whole differ only under Functions
      refine stops_loadEntries (h.type (by decide)) (h.numbers? (by decide))
        (h.numbers? (by decide)) (fun type ht domain range log₁ => ?_) log
      obtain rfl : type = 3 := by
        rw [htype] at ht
        exact (Except.ok.inj ht).symm
      cases domain with
      | none => exact .before _ log₁
      | some domain =>
        rw [loadType_stitched, loadType_stitched, loadParts_eq h.old, loadParts_eq h.new,
          List.mapM_append, List.mapM_append, List.mapM_cons, List.mapM_cons]
        exact .bind (.after fun _ log₂ _ => .bind (.bind (ih room log₂) _ _) _ _) _ _

/-- A null is the same as no entry exactly if its key is no literal one, or loading ends with the
same error before it comes to that key. A literal key with a null never loads. -/
theorem ofObject_null_iff {o o' : Object} (h : Nulled key d o o') (log : Log) :
    (ofObject limits o' log = ofObject limits o log ↔ key ∉ d.literalKeys ∨
      ∃ e log₁, ofObject limits o log = .error e log₁ ∧ ofObject limits o' log = .error e log₁) ∧
    (key ∈ d.literalKeys → Stops key (ofObject limits o log) (ofObject limits o' log)) := by
  have hstops : key ∈ d.literalKeys → Stops key (ofObject limits o log) (ofObject limits o' log) :=
    fun hkey => stops_of_null h hkey _ log
  refine ⟨⟨fun heq => ?_, ?_⟩, hstops⟩
  · by_cases hkey : key ∈ d.literalKeys
    · obtain ⟨e, log₁, he⟩ := (hstops hkey).exists_error
      exact .inr ⟨e, log₁, heq ▸ he, he⟩
    · exact .inl hkey
  · rintro (hkey | ⟨e, log₁, ho, ho'⟩)
    · rw [ofObject, load_null h hkey, ofObject]
    · rw [ho, ho']

end nulls

def rampEntries : Entries :=
  [("FunctionType", int 0), ("Domain", ofNumbers [0, 1]), ("Range", ofNumbers [0, 1]),
    ("Size", array [int 2]), ("BitsPerSample", int 8)]

def ramp (more : Entries) : Object := .stream (more ++ rampEntries) [0, 255]

def stitchedFrom (p : Object) : Object :=
  .dict [("FunctionType", int 3), ("Domain", ofNumbers [0, 1]), ("Functions", array [p]),
    ("Bounds", array []), ("Encode", ofNumbers [0, 1])]

theorem nulled_ramp {key : String} (h : rampEntries.get? key = none) :
    Nulled key rampEntries (ramp []) (ramp [(key, null)]) :=
  .here rfl rfl (differAt_cons h null)

theorem nulled_stitchedFrom {key : String} {d : Entries} {p p' : Object} (h : Nulled key d p p') :
    Nulled key d (stitchedFrom p) (stitchedFrom p') := by
  have hparts (p : Object) : [p] = [] ++ p :: [] := rfl
  unfold stitchedFrom
  rw [hparts p, hparts p']
  refine .part rfl rfl rfl ⟨rfl, rfl, fun k hk => ?_⟩ h
  simp [get?, List.lookup_cons, beq_false_of_ne hk]

/-- A null for the decoding of a part stands for none, a null for its order does not load. -/
theorem ofObject_null_of_part :
    let o := stitchedFrom (ramp [])
    let decode := stitchedFrom (ramp [("Decode", null)])
    let order := stitchedFrom (ramp [("Order", null)])
    Nulled "Decode" rampEntries o decode ∧ Nulled "Order" rampEntries o order ∧
      (∃ f log, ofObject {} o [] = .ok f log ∧ ofObject {} decode [] = .ok f log) ∧
      ofObject {} order [] ≠ ofObject {} o [] := by
  intro o decode order
  have hdecode : Nulled "Decode" rampEntries o decode := nulled_stitchedFrom (nulled_ramp rfl)
  have horder : Nulled "Order" rampEntries o order := nulled_stitchedFrom (nulled_ramp rfl)
  have hloads : passes (fun _ => true) (ofObject {} o []) := by decide +kernel
  obtain ⟨f, log, hf, -⟩ := exists_of_passes hloads
  have hsame : ofObject {} decode [] = ofObject {} o [] :=
    (ofObject_null_iff hdecode []).1.2 (.inl (by decide))
  refine ⟨hdecode, horder, ⟨f, log, hf, hsame.trans hf⟩, fun heq => ?_⟩
  rcases (ofObject_null_iff horder []).1.1 heq with hkey | ⟨e, log₁, he, -⟩
  · exact hkey (by decide)
  · cases hf.symm.trans he

/-- The table loads without an order, and does not with null in its place. -/
theorem ofObject_null_order_differs :
    rampEntries.DifferAt "Order" none (some null) (("Order", null) :: rampEntries) ∧
    (∃ f log, ofObject {} (.stream rampEntries [0, 255]) [] = .ok f log) ∧
    ∃ log, ofObject {} (.stream (("Order", null) :: rampEntries) [0, 255]) [] =
      .error (.typeMismatch "int" "null") log := by
  have hloads : passes (fun _ => true) (ofObject {} (.stream rampEntries [0, 255]) []) := by
    decide +kernel
  obtain ⟨f, log, hf, -⟩ := exists_of_passes hloads
  have hstops : Stops "Order" (ofObject {} (.stream rampEntries [0, 255]) [])
      (ofObject {} (.stream (("Order", null) :: rampEntries) [0, 255]) []) :=
    stops_of_null (nulled_ramp rfl) (by decide) (maxDepth + 1) []
  refine ⟨differAt_cons rfl null, ⟨f, log, hf⟩, ?_⟩
  rw [hf] at hstops
  generalize ofObject {} (.stream (("Order", null) :: rampEntries) [0, 255]) [] = r at hstops ⊢
  cases hstops with
  | optional _ _ log' => exact ⟨log', rfl⟩

end Function

end PdfFunctions
