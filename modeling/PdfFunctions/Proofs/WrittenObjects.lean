import Mathlib.Data.List.Nodup
import PdfFunctions.Function.Declaration
import PdfFunctions.Proofs.Outcome

namespace PdfFunctions

/-- What is written item by item reads back. -/
theorem mapM_map_eq_ok {ε α β : Type} (read : β → Except ε α) (write : α → β)
    (h : ∀ a, read (write a) = .ok a) (as : List α) : (as.map write).mapM read = .ok as := by
  induction as with
  | nil => rfl
  | cons a as ih =>
    rw [List.map_cons, List.mapM_cons, h, ih]
    rfl

namespace Object

/-- What a document can hold: integers have 64 bits, and the keys of a dictionary are distinct. -/
inductive WellFormed : Object → Prop where
  | null : WellFormed .null
  | bool (b : Bool) : WellFormed (.bool b)
  | int {n : Int} (hlo : -0x8000000000000000 ≤ n) (hhi : n < 0x8000000000000000) :
      WellFormed (.int n)
  | real (x : Float) : WellFormed (.real x)
  | name (s : String) : WellFormed (.name s)
  | string (bytes : Bytes) : WellFormed (.string bytes)
  | array {items : List Object} (h : ∀ o ∈ items, WellFormed o) : WellFormed (.array items)
  | dict {entries : Entries} (hkeys : (entries.map Prod.fst).Nodup)
      (h : ∀ e ∈ entries, WellFormed e.2) : WellFormed (.dict entries)
  | stream {entries : Entries} {data : Bytes} (hkeys : (entries.map Prod.fst).Nodup)
      (h : ∀ e ∈ entries, WellFormed e.2) : WellFormed (.stream entries data)

def ofNat (n : Nat) : Object := int n

theorem wellFormed_ofNat {n : Nat} (h : n < 0x8000000000000000) : (ofNat n).WellFormed := by
  apply WellFormed.int <;> omega

@[simp]
theorem wellFormed_ofNumbers (xs : List Float) : (ofNumbers xs).WellFormed := by
  apply WellFormed.array
  intro o ho
  obtain ⟨x, -, rfl⟩ := List.mem_map.1 ho
  exact .real x

theorem getNumbers_ofNumbers (xs : List Float) : (ofNumbers xs).getNumbers = .ok xs :=
  mapM_map_eq_ok getNumber real (fun _ => rfl) xs

end Object

namespace Entries

open Object

abbrev Fields := List (String × Option Object)

def collect (fields : Fields) : Entries :=
  fields.filterMap fun field => field.2.map (field.1, ·)

theorem collect_some (key : String) (o : Object) (fields : Fields) :
    collect ((key, some o) :: fields) = (key, o) :: collect fields := rfl

theorem collect_none (key : String) (fields : Fields) :
    collect ((key, none) :: fields) = collect fields := rfl

theorem mem_collect {fields : Fields} {key : String} {o : Object} :
    (key, o) ∈ collect fields ↔ (key, some o) ∈ fields := by
  simp [collect, List.mem_filterMap, Option.map_eq_some_iff]

theorem keys_collect_sublist (fields : Fields) :
    ((collect fields).map Prod.fst).Sublist (fields.map Prod.fst) := by
  induction fields with
  | nil => exact .slnil
  | cons field fields ih =>
    obtain ⟨key, o?⟩ := field
    cases o? with
    | none => exact ih.cons key
    | some o => exact ih.cons_cons key

theorem get?_eq_none {d : Entries} {key : String} (h : key ∉ d.map Prod.fst) :
    d.get? key = none := by
  rw [get?, List.lookup_eq_none_iff]
  intro e he
  have hne : e.1 ≠ key := fun heq => h (heq ▸ List.mem_map_of_mem he)
  simpa [beq_eq_false_iff_ne] using hne.symm

theorem get?_collect {fields : Fields} (hkeys : (fields.map Prod.fst).Nodup) {key : String}
    {o? : Option Object} (h : (key, o?) ∈ fields) : (collect fields).get? key = o? := by
  induction fields with
  | nil => cases h
  | cons field fields ih =>
    rw [List.map_cons, List.nodup_cons] at hkeys
    rcases List.mem_cons.1 h with rfl | h
    · cases o? with
      | none =>
        rw [collect_none]
        exact get?_eq_none fun hmem => hkeys.1 ((keys_collect_sublist fields).subset hmem)
      | some o =>
        rw [collect_some, get?, List.lookup_cons_self]
    · have hne : key ≠ field.1 := fun heq => hkeys.1 (heq ▸ List.mem_map_of_mem h)
      have hrest := ih hkeys.2 h
      obtain ⟨key', o'?⟩ := field
      cases o'? with
      | none => exact hrest
      | some o' =>
        rw [collect_some, get?, List.lookup_cons, beq_false_of_ne hne]
        exact hrest

structure FieldsWellFormed (fields : Fields) : Prop where
  keys : (fields.map Prod.fst).Nodup
  objects : ∀ field ∈ fields, ∀ o ∈ field.2, o.WellFormed

def Records (d : Entries) (fields : Fields) : Prop :=
  ∀ key o?, (key, o?) ∈ fields → d.get? key = o?

theorem FieldsWellFormed.records {fields : Fields} (h : FieldsWellFormed fields) :
    (collect fields).Records fields :=
  fun _ _ hmem => get?_collect h.keys hmem

theorem FieldsWellFormed.wellFormed_dict {fields : Fields} (h : FieldsWellFormed fields) :
    (dict (collect fields)).WellFormed :=
  .dict (h.keys.sublist (keys_collect_sublist fields))
    fun e he => h.objects (e.1, some e.2) (mem_collect.1 he) e.2 rfl

theorem FieldsWellFormed.wellFormed_stream {fields : Fields} (h : FieldsWellFormed fields)
    (data : Bytes) : (stream (collect fields) data).WellFormed :=
  .stream (h.keys.sublist (keys_collect_sublist fields))
    fun e he => h.objects (e.1, some e.2) (mem_collect.1 he) e.2 rfl

section read

variable {d : Entries} {key : String}

theorem required_eq_ok {o : Object} (h : d.get? key = some o) : d.required key = .ok o := by
  rw [required, h]
  rfl

theorem numbers?_eq_ok {xs : Option (List Float)} (h : d.get? key = xs.map ofNumbers) :
    d.numbers? key = .ok xs := by
  rw [numbers?, h]
  cases xs with
  | none => rfl
  | some xs =>
    change some <$> (ofNumbers xs).getNumbers = _
    rw [getNumbers_ofNumbers]
    rfl

theorem intervals?_eq {xs : Option (List Float)} (h : d.get? key = xs.map ofNumbers) :
    Function.intervals? d key = xs.mapM Intervals.ofFlat := by
  rw [Function.intervals?, numbers?_eq_ok h]
  rfl

end read

end Entries

namespace Function

open Object

theorem mapM_sizeEntry (sizes : List Nat) : (sizes.map ofNat).mapM sizeEntry = .ok sizes :=
  mapM_map_eq_ok sizeEntry ofNat (fun _ => rfl) sizes

theorem bitsEntry_ofNat {bits : Nat} (h : bits ≤ 255) : bitsEntry (ofNat bits) = .ok bits := by
  have hfits : ¬((bits : Int) < 0 ∨ 255 < (bits : Int)) := by omega
  exact if_neg hfits

theorem orderEntry_ofNat {order : Nat} (h : order ≤ 255) :
    orderEntry (ofNat order) = .ok order := by
  have hfits : ¬((order : Int) < 0 ∨ 255 < (order : Int)) := by omega
  exact congrArg Except.ok (if_neg hfits)

end Function

namespace Declaration

open Object Entries

def tableFields (domain range : List Float) (sizes : List Nat) (bits : Nat)
    (encode decode : Option (List Float)) (order : Option Nat) : Fields :=
  [("FunctionType", some (ofNat 0)), ("Domain", some (ofNumbers domain)),
    ("Range", some (ofNumbers range)), ("Size", some (array (sizes.map ofNat))),
    ("BitsPerSample", some (ofNat bits)), ("Encode", encode.map ofNumbers),
    ("Decode", decode.map ofNumbers), ("Order", order.map ofNat)]

def flat (ends : Float × Float) : List Float := [ends.1, ends.2]

def exponentialFields (exponent : Float) (c0 c1 : Option (List Float))
    (domain : Option (Float × Float)) (range : Option (List Float)) : Fields :=
  [("FunctionType", some (ofNat 2)), ("N", some (real exponent)), ("C0", c0.map ofNumbers),
    ("C1", c1.map ofNumbers), ("Domain", (domain.map flat).map ofNumbers),
    ("Range", range.map ofNumbers)]

def stitchedFields (domain : Float × Float) (parts : List Object) (bounds encode : List Float)
    (range : Option (List Float)) : Fields :=
  [("FunctionType", some (ofNat 3)), ("Domain", some (ofNumbers (flat domain))),
    ("Functions", some (array parts)), ("Bounds", some (ofNumbers bounds)),
    ("Encode", some (ofNumbers encode)), ("Range", range.map ofNumbers)]

def calculatedFields (range : List Float) (domain : Option (List Float)) : Fields :=
  [("FunctionType", some (ofNat 4)), ("Range", some (ofNumbers range)),
    ("Domain", domain.map ofNumbers)]

theorem tableFields_wellFormed {domain range : List Float} {sizes : List Nat} {bits : Nat}
    {encode decode : Option (List Float)} {order : Option Nat}
    (hsizes : ∀ n ∈ sizes, n < 0x8000000000000000)
    (hbits : bits < 0x8000000000000000) (horder : ∀ n ∈ order, n < 0x8000000000000000) :
    FieldsWellFormed (tableFields domain range sizes bits encode decode order) := by
  have hsize : (array (sizes.map ofNat)).WellFormed := by
    apply WellFormed.array
    intro o ho
    obtain ⟨n, hn, rfl⟩ := List.mem_map.1 ho
    exact wellFormed_ofNat (hsizes n hn)
  refine ⟨by simp [tableFields], ?_⟩
  have hzero : (ofNat 0).WellFormed := wellFormed_ofNat (by omega)
  have horder : ∀ n ∈ order, (ofNat n).WellFormed := fun n hn => wellFormed_ofNat (horder n hn)
  simpa [tableFields, hzero, hsize, wellFormed_ofNat hbits] using horder

theorem exponentialFields_wellFormed (exponent : Float) (c0 c1 : Option (List Float))
    (domain : Option (Float × Float)) (range : Option (List Float)) :
    FieldsWellFormed (exponentialFields exponent c0 c1 domain range) := by
  have htwo : (ofNat 2).WellFormed := wellFormed_ofNat (by omega)
  refine ⟨by simp [exponentialFields], ?_⟩
  have hdomain : ∀ o ∈ (domain.map flat).map ofNumbers, o.WellFormed := by
    intro o ho
    obtain ⟨xs, -, rfl⟩ := Option.map_eq_some_iff.1 ho
    exact wellFormed_ofNumbers xs
  simpa [exponentialFields, htwo, WellFormed.real] using hdomain

theorem stitchedFields_wellFormed {domain : Float × Float} {parts : List Object}
    {bounds encode : List Float} {range : Option (List Float)}
    (hparts : ∀ o ∈ parts, o.WellFormed) :
    FieldsWellFormed (stitchedFields domain parts bounds encode range) := by
  have hthree : (ofNat 3).WellFormed := wellFormed_ofNat (by omega)
  refine ⟨by simp [stitchedFields], ?_⟩
  simp [stitchedFields, hthree, WellFormed.array hparts]

theorem calculatedFields_wellFormed (range : List Float) (domain : Option (List Float)) :
    FieldsWellFormed (calculatedFields range domain) := by
  have hfour : (ofNat 4).WellFormed := wellFormed_ofNat (by omega)
  refine ⟨by simp [calculatedFields], ?_⟩
  simp [calculatedFields, hfour]

mutual

/-- The object that gives the same parameters. What is an object already stays. -/
def written : Declaration → Object
  | sampled domain range sizes bits data encode decode order =>
    .stream (collect (tableFields domain range sizes bits encode decode order)) data
  | exponential exponent c0 c1 domain range =>
    .dict (collect (exponentialFields exponent c0 c1 domain range))
  | stitched domain parts bounds encode range =>
    .dict (collect (stitchedFields domain (writtenAll parts) bounds encode range))
  | calculated program range domain _ =>
    .stream (collect (calculatedFields range domain)) program
  | object o _ => o

def writtenAll : List Declaration → List Object
  | [] => []
  | d :: ds => d.written :: writtenAll ds

end

mutual

/-- How many stitched functions lie in each other. -/
def stitches : Declaration → Nat
  | stitched _ parts _ _ _ => mostStitches parts + 1
  | _ => 0

def mostStitches : List Declaration → Nat
  | [] => 0
  | d :: ds => max d.stitches (mostStitches ds)

end

theorem stitches_le_mostStitches {d : Declaration} {ds : List Declaration} (h : d ∈ ds) :
    d.stitches ≤ mostStitches ds := by
  induction ds with
  | nil => cases h
  | cons d' ds ih =>
    rw [mostStitches]
    rcases List.mem_cons.1 h with rfl | h
    · exact Nat.le_max_left _ _
    · exact Nat.le_trans (ih h) (Nat.le_max_right _ _)

theorem exists_stitches_eq_mostStitches {ds : List Declaration} (h : ds ≠ []) :
    ∃ d ∈ ds, d.stitches = mostStitches ds := by
  induction ds with
  | nil => exact absurd rfl h
  | cons d ds ih =>
    rw [mostStitches]
    by_cases hle : mostStitches ds ≤ d.stitches
    · exact ⟨d, List.mem_cons_self, (Nat.max_eq_left hle).symm⟩
    · have hne : ds ≠ [] := fun hnil => hle (by rw [hnil, mostStitches]; exact Nat.zero_le _)
      obtain ⟨d', hd', heq⟩ := ih hne
      refine ⟨d', List.mem_cons_of_mem _ hd', ?_⟩
      rw [heq, Nat.max_eq_right (Nat.le_of_not_le hle)]

end Declaration

end PdfFunctions
