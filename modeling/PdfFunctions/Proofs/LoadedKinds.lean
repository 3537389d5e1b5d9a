import PdfFunctions.Proofs.AcceptedTables
import PdfFunctions.Proofs.SoundFunctions
import PdfFunctions.Proofs.WrittenObjects

namespace PdfFunctions

open Object Entries

namespace Sampled

variable {α : Type} [Scalar α] {f g : Sampled α}

theorem order_le_of_withOrder {order : Nat} {log log' : Log}
    (h : f.withOrder order log = .ok g log') : order ≤ 3 := by
  unfold withOrder at h
  split at h
  · omega
  · split at h
    · cases h
    · omega

/-- An order is accepted or not, whatever has been reported before. -/
theorem withOrder_of_withOrder {order : Nat} {log log' : Log}
    (h : f.withOrder order log = .ok g log') (log₁ : Log) :
    ∃ log₂, f.withOrder order log₁ = .ok g log₂ := by
  rw [of_withOrder h]
  unfold withOrder at h ⊢
  split at h
  · rename_i hcubic
    rw [if_pos hcubic]
    exact ⟨_, rfl⟩
  · rename_i hcubic
    rw [if_neg hcubic]
    split at h
    · cases h
    · rename_i hlinear
      rw [if_neg hlinear]
      exact ⟨_, rfl⟩

end Sampled

namespace Function

open Declaration

theorem ofFlat_flat {ends : Float × Float} {i : Interval Float}
    (h : Interval.make ends.1 ends.2 = .ok i) : Intervals.ofFlat (flat ends) = .ok [i] := by
  have hpairs : pairs (flat ends) = .ok [ends] := by simp [pairs, pairUp, flat]
  refine except_bind_eq_ok.2 ⟨[ends], hpairs, ?_⟩
  rw [List.mapM_cons]
  exact except_bind_eq_ok.2 ⟨i, h, rfl⟩

theorem mapM_ofFlat_flat {ends? : Option (Float × Float)} {i? : Option (Interval Float)}
    (h : ends?.mapM (fun (lo, hi) => Interval.make lo hi) = .ok i?) :
    (ends?.map flat).mapM Intervals.ofFlat = .ok (i?.map ([·])) := by
  cases ends? with
  | none =>
    obtain rfl := Except.ok.inj h
    rfl
  | some ends =>
    rw [Option.mapM_some] at h
    obtain ⟨i, hi, rfl⟩ := except_map_eq_ok.1 h
    rw [Option.map_some, Option.mapM_some, ofFlat_flat hi]
    rfl

theorem mapM_single (i? : Option (Interval Float)) : (i?.map ([·])).mapM single = .ok i? := by
  cases i? <;> rfl

theorem mapM_ofFlat_some {xs : List Float} {is : Intervals Float}
    (h : Intervals.ofFlat xs = .ok is) : (some xs).mapM Intervals.ofFlat = .ok (some is) := by
  rw [Option.mapM_some, h]
  rfl

/-- The type, the domain and the range are read first. -/
theorem load_eq_loadType {limits : Limits} {room : Nat} {o : Object} {d : Entries}
    {data : Option Bytes} {type : Nat} {domain? range? : Option (List Float)}
    {is? js? : Option (Intervals Float)} (ho : dictionary o = .ok (d, data))
    (htype : d.get? "FunctionType" = some (ofNat type))
    (hdomain : d.get? "Domain" = domain?.map ofNumbers)
    (hrange : d.get? "Range" = range?.map ofNumbers)
    (his : domain?.mapM Intervals.ofFlat = .ok is?)
    (hjs : range?.mapM Intervals.ofFlat = .ok js?) (log : Log) :
    load limits (room + 1) o log =
      loadType limits room type d data is? js? (.loading type (maxDepth - room) :: log) := by
  have hread : (d.required "FunctionType" >>= getInt) = .ok (type : Int) := by
    rw [required_eq_ok htype]
    rfl
  have hreport : (modify (.loading (type : Int) (maxDepth - room) :: ·) : EvalM PUnit) log =
      .ok ⟨⟩ (.loading type (maxDepth - room) :: log) := rfl
  rw [load_succ, ofExcept_bind ho]
  dsimp only
  rw [ofExcept_bind hread, bind_of_ok hreport, ofExcept_bind ((intervals?_eq hdomain).trans his),
    ofExcept_bind ((intervals?_eq hrange).trans hjs)]

end Function

variable {limits : Limits} {d : Entries}

section table

variable {domain range : List Float} {sizes : List Nat} {bits : Nat} {data : Bytes}
  {encode decode : Option (List Float)} {order : Option Nat} {g : Sampled Float}

namespace Declaration

theorem of_table (h : table domain range sizes bits data encode decode = .ok g) :
    ∃ is js g₀ g₁, Intervals.ofFlat domain = .ok is ∧ Intervals.ofFlat range = .ok js ∧
      Sampled.make is js sizes bits data.toArray = .ok g₀ ∧
      encode.elim (.ok g₀) g₀.withEncode = .ok g₁ ∧
      decode.elim (.ok g₁) g₁.withDecode = .ok g := by
  obtain ⟨is, his, h⟩ := except_bind_eq_ok.1 h
  obtain ⟨js, hjs, h⟩ := except_bind_eq_ok.1 h
  obtain ⟨g₀, hmake, h⟩ := except_bind_eq_ok.1 h
  obtain ⟨g₁, hencode, hdecode⟩ := except_bind_eq_ok.1 h
  exact ⟨is, js, g₀, g₁, his, hjs, hmake, hencode, hdecode⟩

theorem bits_le_of_table (h : table domain range sizes bits data encode decode = .ok g) :
    bits ≤ 32 := by
  obtain ⟨is, js, g₀, g₁, -, -, hmake, -⟩ := of_table h
  have hle : ∀ width ∈ Sampled.sampleWidths, width ≤ 32 := by decide
  exact hle bits (Sampled.make_eq_ok_iff.1 hmake).1.width

theorem build_sampled (hg : table domain range sizes bits data encode decode = .ok g)
    (log : Log) :
    (Declaration.sampled domain range sizes bits data encode decode order).build log =
      (order.elim (pure (.sampled g)) fun n => .sampled <$> g.withOrder n : EvalM Function)
        log := by
  rw [build, ofExcept_bind hg]
  cases order <;> rfl

theorem of_build_sampled {log log' : Log} {f : Function}
    (h : (sampled domain range sizes bits data encode decode order).build log = .ok f log') :
    ∃ g, table domain range sizes bits data encode decode = .ok g ∧ (∀ n ∈ order, n ≤ 3) ∧
      ∀ log₁, ∃ log₂,
        (sampled domain range sizes bits data encode decode order).build log₁ = .ok f log₂ := by
  have hbuild := h
  rw [build] at hbuild
  obtain ⟨g, log₀, hg, -⟩ := bind_eq_ok.1 hbuild
  obtain ⟨hg, -⟩ := ofExcept_eq_ok.1 hg
  rw [build_sampled hg] at h
  refine ⟨g, hg, ?_⟩
  cases order with
  | none =>
    obtain ⟨rfl, -⟩ := pure_eq_ok.1 h
    refine ⟨by simp, fun log₁ => ⟨log₁, ?_⟩⟩
    rw [build_sampled hg]
    rfl
  | some n =>
    obtain ⟨g', hg', rfl⟩ := map_eq_ok.1 h
    have hn : n ≤ 3 := Sampled.order_le_of_withOrder hg'
    refine ⟨by simpa using hn, fun log₁ => ?_⟩
    obtain ⟨log₂, hlog₂⟩ := Sampled.withOrder_of_withOrder hg' log₁
    refine ⟨log₂, ?_⟩
    rw [build_sampled hg]
    exact map_eq_ok.2 ⟨g', hlog₂, rfl⟩

end Declaration

namespace Function

open Declaration

/-- What is left to do for a table whose entries have been read is what building does, too. -/
theorem loadSampled_eq_build {is js : Intervals Float} {log : Log}
    (hd : d.Records (tableFields domain range sizes bits encode decode order))
    (hg : table domain range sizes bits data encode decode = .ok g)
    (his : Intervals.ofFlat domain = .ok is) (hjs : Intervals.ofFlat range = .ok js)
    (hbits : bits ≤ 255) (horder : ∀ n ∈ order, n ≤ 255) :
    loadSampled d (some data) (some is) (some js) log =
      (Declaration.sampled domain range sizes bits data encode decode order).build log := by
  rw [build_sampled hg]
  obtain ⟨is', js', g₀, g₁, his', hjs', hmake, hg₁, hg⟩ := of_table hg
  obtain rfl := Except.ok.inj (his.symm.trans his')
  obtain rfl := Except.ok.inj (hjs.symm.trans hjs')
  have hsizes : ((d.required "Size" >>= getArray) >>= List.mapM sizeEntry) = .ok sizes := by
    rw [required_eq_ok (hd "Size" (array (sizes.map ofNat)) (by simp [tableFields]))]
    exact mapM_sizeEntry sizes
  have hwidth : (d.required "BitsPerSample" >>= bitsEntry) = .ok bits := by
    rw [required_eq_ok (hd "BitsPerSample" (ofNat bits) (by simp [tableFields]))]
    exact bitsEntry_ofNat hbits
  have hencode : d.numbers? "Encode" = .ok encode :=
    numbers?_eq_ok (hd _ _ (by simp [tableFields]))
  have hdecode : d.numbers? "Decode" = .ok decode :=
    numbers?_eq_ok (hd _ _ (by simp [tableFields]))
  have hentry : d.get? "Order" = order.map ofNat := hd _ _ (by simp [tableFields])
  -- the default for a missing domain or range does not come into play
  have hmake' : Sampled.make ((some is).getD []) ((some js).getD []) sizes bits data.toArray =
      .ok g₀ := hmake
  unfold loadSampled
  dsimp only
  rw [ofExcept_bind hsizes, ofExcept_bind hwidth, ofExcept_bind hmake', ofExcept_bind hencode,
    ofExcept_bind hg₁, ofExcept_bind hdecode, ofExcept_bind hg, hentry]
  cases order with
  | none => rfl
  | some n =>
    dsimp only [Option.map_some]
    rw [ofExcept_bind (orderEntry_ofNat (horder n rfl))]
    rfl

theorem load_sampled (hd : d.Records (tableFields domain range sizes bits encode decode order))
    (hg : table domain range sizes bits data encode decode = .ok g) (horder : ∀ n ∈ order, n ≤ 255)
    (room : Nat) (log : Log) :
    load limits (room + 1) (.stream d data) log =
      (Declaration.sampled domain range sizes bits data encode decode order).build
        (.loading 0 (maxDepth - room) :: log) := by
  obtain ⟨is, js, -, -, his, hjs, -⟩ := of_table hg
  have hbits : bits ≤ 32 := bits_le_of_table hg
  have htype : d.get? "FunctionType" = some (ofNat 0) := hd _ _ (by simp [tableFields])
  have hdomain : d.get? "Domain" = (some domain).map ofNumbers := hd _ _ (by simp [tableFields])
  have hrange : d.get? "Range" = (some range).map ofNumbers := hd _ _ (by simp [tableFields])
  rw [load_eq_loadType rfl htype hdomain hrange (mapM_ofFlat_some his) (mapM_ofFlat_some hjs)]
  exact loadSampled_eq_build hd hg his hjs (by omega) horder

end Function

end table

namespace Function

open Declaration

theorem load_exponential {exponent : Float} {c0 c1 : Option (List Float)}
    {domain : Option (Float × Float)} {range : Option (List Float)} {g : Exponential}
    (hd : d.Records (exponentialFields exponent c0 c1 domain range))
    (hg : exponentialFunction exponent c0 c1 domain range = .ok g) (room : Nat) (log : Log) :
    ∃ log', load limits (room + 1) (.dict d) log = .ok (.exponential g) log' := by
  obtain ⟨g₀, hmake, hg⟩ := except_bind_eq_ok.1 hg
  obtain ⟨i?, hi, hg⟩ := except_bind_eq_ok.1 hg
  obtain ⟨js?, hjs, hg⟩ := except_bind_eq_ok.1 hg
  obtain rfl := Except.ok.inj hg
  have htype : d.get? "FunctionType" = some (ofNat 2) := hd _ _ (by simp [exponentialFields])
  have hdomain : d.get? "Domain" = (domain.map flat).map ofNumbers :=
    hd _ _ (by simp [exponentialFields])
  have hrange : d.get? "Range" = range.map ofNumbers := hd _ _ (by simp [exponentialFields])
  have hN : d.get? "N" = some (real exponent) := hd _ _ (by simp [exponentialFields])
  have hC0 : d.get? "C0" = c0.map ofNumbers := hd _ _ (by simp [exponentialFields])
  have hC1 : d.get? "C1" = c1.map ofNumbers := hd _ _ (by simp [exponentialFields])
  rw [load_eq_loadType rfl htype hdomain hrange (mapM_ofFlat_flat hi) hjs]
  have hload : loadExponential d (i?.map ([·])) js? =
      .ok (.exponential { g₀ with domain := i?, range := js? }) := by
    refine except_bind_eq_ok.2 ⟨exponent, ?_, ?_⟩
    · rw [required_eq_ok hN]
      rfl
    refine except_bind_eq_ok.2 ⟨c0, numbers?_eq_ok hC0, ?_⟩
    refine except_bind_eq_ok.2 ⟨c1, numbers?_eq_ok hC1, ?_⟩
    refine except_bind_eq_ok.2 ⟨g₀, hmake, ?_⟩
    exact except_bind_eq_ok.2 ⟨i?, mapM_single i?, rfl⟩
  exact ⟨_, ofExcept_eq_ok.2 ⟨hload, rfl⟩⟩

theorem load_calculated {program : Bytes} {range : List Float} {domain : Option (List Float)}
    {limits? : Option Limits} {g : Calculator} (hd : d.Records (calculatedFields range domain))
    (hlimits : limits?.getD {} = limits) (hg : calculator program range domain limits? = .ok g)
    (room : Nat) (log : Log) :
    ∃ log', load limits (room + 1) (.stream d program) log = .ok (.calculated g) log' := by
  obtain ⟨is, his, hg⟩ := except_bind_eq_ok.1 hg
  obtain ⟨g₀, hmake, hg⟩ := except_bind_eq_ok.1 hg
  obtain ⟨js?, hjs, hg⟩ := except_bind_eq_ok.1 hg
  obtain rfl := Except.ok.inj hg
  have htype : d.get? "FunctionType" = some (ofNat 4) := hd _ _ (by simp [calculatedFields])
  have hdomain : d.get? "Domain" = domain.map ofNumbers := hd _ _ (by simp [calculatedFields])
  have hrange : d.get? "Range" = (some range).map ofNumbers :=
    hd _ _ (by simp [calculatedFields])
  rw [load_eq_loadType rfl htype hdomain hrange hjs (mapM_ofFlat_some his)]
  have hload : loadCalculator limits (some program) js? (some is) =
      .ok (.calculated { g₀ with domain := js?, limits := limits?.getD {} }) := by
    rw [hlimits]
    exact except_bind_eq_ok.2 ⟨g₀, hmake, rfl⟩
  exact ⟨_, ofExcept_eq_ok.2 ⟨hload, rfl⟩⟩

/-- The parts are loaded, each with one level less, and then stitched. -/
theorem load_stitched {domain : Float × Float} {parts : List Object} {bounds encode : List Float}
    {range : Option (List Float)} {i : Interval Float} {is? : Option (Intervals Float)}
    (hd : d.Records (stitchedFields domain parts bounds encode range))
    (hi : Interval.make domain.1 domain.2 = .ok i) (his : range.mapM Intervals.ofFlat = .ok is?)
    (room : Nat) (log : Log) :
    load limits (room + 1) (.dict d) log =
      (parts.mapM (load limits room) >>= fun fs => ofExcept (stitch i fs bounds encode is?))
        (.loading 3 (maxDepth - room) :: log) := by
  have htype : d.get? "FunctionType" = some (ofNat 3) := hd _ _ (by simp [stitchedFields])
  have hdomain : d.get? "Domain" = (some (flat domain)).map ofNumbers :=
    hd _ _ (by simp [stitchedFields])
  have hrange : d.get? "Range" = range.map ofNumbers := hd _ _ (by simp [stitchedFields])
  have hfunctions : (d.required "Functions" >>= getArray) = .ok parts := by
    rw [required_eq_ok (hd "Functions" (array parts) (by simp [stitchedFields]))]
    rfl
  have hbounds : (d.required "Bounds" >>= getNumbers) = .ok bounds := by
    rw [required_eq_ok (hd "Bounds" (ofNumbers bounds) (by simp [stitchedFields]))]
    exact getNumbers_ofNumbers bounds
  have hencode : (d.required "Encode" >>= getNumbers) = .ok encode := by
    rw [required_eq_ok (hd "Encode" (ofNumbers encode) (by simp [stitchedFields]))]
    exact getNumbers_ofNumbers encode
  rw [load_eq_loadType rfl htype hdomain hrange (mapM_ofFlat_some (ofFlat_flat hi)) his]
  -- what is read after the parts does not depend on them
  have hrest : (fun fs => ofExcept (d.required "Bounds" >>= getNumbers) >>= fun bounds =>
      ofExcept (d.required "Encode" >>= getNumbers) >>= fun encode =>
      ofExcept (single [i] >>= fun domain => stitch domain fs bounds encode is?)) =
      fun fs => (ofExcept (stitch i fs bounds encode is?) : EvalM Function) := by
    funext fs log
    rw [ofExcept_bind hbounds, ofExcept_bind hencode]
    rfl
  rw [← hrest]
  exact ofExcept_bind hfunctions _ _

end Function

end PdfFunctions
