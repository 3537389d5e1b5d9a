import PdfFunctions.Delivery
import PdfFunctions.Machine
import PdfFunctions.Proofs.Outcome

namespace PdfFunctions.Delivery

/-- The deliveries before the first read without bytes. -/
def begun (ds : List Delivery) : List Delivery := ds.takeWhile (· ≠ data [])

def bytes : Delivery → Bytes
  | data bs => bs
  | interrupted | failure _ => []

def failure? : Delivery → Option String
  | failure reason => some reason
  | data _ | interrupted => none

def delivered (ds : List Delivery) : Bytes := (begun ds).flatMap bytes

def firstFailure? (ds : List Delivery) : Option String := (begun ds).findSome? failure?

theorem begun_cons {d : Delivery} (h : d ≠ data []) (ds : List Delivery) :
    begun (d :: ds) = d :: begun ds :=
  List.takeWhile_cons_of_pos (decide_eq_true h)

theorem begun_end (ds : List Delivery) : begun (data [] :: ds) = [] :=
  List.takeWhile_cons_of_neg (by simp)

theorem delivered_cons {d : Delivery} (h : d ≠ data []) (ds : List Delivery) :
    delivered (d :: ds) = d.bytes ++ delivered ds := by
  rw [delivered, begun_cons h, List.flatMap_cons, delivered]

theorem firstFailure?_cons {d : Delivery} (h : d ≠ data []) (ds : List Delivery) :
    firstFailure? (d :: ds) = d.failure?.or (firstFailure? ds) := by
  rw [firstFailure?, begun_cons h, List.findSome?_cons, firstFailure?]
  cases d.failure? <;> rfl

theorem delivered_end (ds : List Delivery) : delivered (data [] :: ds) = [] := by
  rw [delivered, begun_end, List.flatMap_nil]

theorem firstFailure?_end (ds : List Delivery) : firstFailure? (data [] :: ds) = none := by
  rw [firstFailure?, begun_end, List.findSome?_nil]

theorem flatten_pieces (n fuel : Nat) (bs : Bytes) : (pieces n fuel bs).flatten = bs := by
  fun_induction pieces n fuel bs with
  | case1 bs => simp
  | case2 => simp
  | case3 fuel bs h ih => rw [List.flatten_cons, ih, List.take_append_drop]

/-- The pieces are as many as it takes. -/
theorem length_le_of_mem_pieces {n fuel : Nat} {bs : Bytes} (hn : 0 < n)
    (hfuel : bs.length ≤ fuel) : ∀ p ∈ pieces n fuel bs, p.length ≤ n := by
  fun_induction pieces n fuel bs with
  | case1 bs =>
    rw [List.forall_mem_singleton]
    omega
  | case2 fuel bs h => rwa [List.forall_mem_singleton]
  | case3 fuel bs h ih =>
    rw [List.forall_mem_cons]
    refine ⟨List.length_take_le _ _, ih ?_⟩
    rw [List.length_drop]
    omega

/-- Only an empty delivery is read as an end. -/
theorem ne_nil_of_mem_pieces {n fuel : Nat} {bs : Bytes} (hn : 0 < n) (hbs : bs ≠ []) :
    ∀ p ∈ pieces n fuel bs, p ≠ [] := by
  fun_induction pieces n fuel bs with
  | case1 bs => rwa [List.forall_mem_singleton]
  | case2 fuel bs h => rwa [List.forall_mem_singleton]
  | case3 fuel bs h ih =>
    rw [List.forall_mem_cons]
    refine ⟨?_, ih ?_⟩
    · exact fun htake => (List.take_eq_nil_iff.1 htake).elim (Nat.pos_iff_ne_zero.1 hn) hbs
    · exact fun hdrop => h (List.drop_eq_nil_iff.1 hdrop)

theorem length_le_of_mem_reads {d r : Delivery} (h : r ∈ d.reads) : r.bytes.length ≤ readSize := by
  cases d with
  | data bs =>
    obtain ⟨p, hp, rfl⟩ := List.mem_map.1 h
    exact length_le_of_mem_pieces (by decide) (Nat.le_refl _) p hp
  | interrupted | failure reason =>
    obtain rfl := List.mem_singleton.1 h
    exact Nat.zero_le _

theorem gather_pieces {ps : List Bytes} (hps : ∀ p ∈ ps, p ≠ []) (found : Bytes)
    (rs : List Delivery) :
    gather found (ps.map data ++ rs) = gather (ps.flatten.reverse ++ found) rs := by
  induction ps generalizing found with
  | nil => rfl
  | cons p ps ih =>
    rw [List.forall_mem_cons] at hps
    obtain ⟨b, bs, rfl⟩ := List.exists_cons_of_ne_nil hps.1
    rw [List.map_cons, List.cons_append, gather, ih hps.2]
    · rw [List.flatten_cons, List.reverse_append, List.append_assoc]
    · nofun

/-- What the reads of some deliveries come to after the bytes already found. -/
theorem gather_reads (found : Bytes) (ds : List Delivery) :
    gather found (ds.flatMap reads) = (firstFailure? ds).elim
      (.ok (found.reverse ++ delivered ds)) (fun reason => .error (.unreadable reason)) := by
  induction ds generalizing found with
  | nil => exact congrArg Except.ok (List.append_nil _).symm
  | cons d ds ih =>
    cases d with
    | data bs =>
      -- a delivery of no bytes is the end of the stream, whatever is left of the script
      by_cases hbs : bs = []
      · subst hbs
        rw [firstFailure?_end, delivered_end, List.append_nil]
        rfl
      · have hne : data bs ≠ data [] := fun h => hbs (Delivery.data.inj h)
        rw [List.flatMap_cons, reads, gather_pieces (ne_nil_of_mem_pieces (by decide) hbs),
          flatten_pieces, ih, firstFailure?_cons hne, delivered_cons hne, List.reverse_append,
          List.reverse_reverse, List.append_assoc]
        rfl
    | interrupted =>
      have hne : interrupted ≠ data [] := nofun
      rw [firstFailure?_cons hne, delivered_cons hne]
      exact ih found
    | failure reason =>
      have hne : failure reason ≠ data [] := nofun
      rw [firstFailure?_cons hne]
      rfl

/-- The reads take no more than a buffer each. What they come to is the bytes delivered before the
first end, if no failure comes before it, and the first failure otherwise. So all readers that
deliver the same bytes lead to the tokens of these bytes, with their positions, and to their
outcome. -/
theorem readAll_eq (ds : List Delivery) :
    (∀ r ∈ ds.flatMap reads, r.bytes.length ≤ readSize) ∧
    readAll ds = (firstFailure? ds).elim (.ok (delivered ds))
      (fun reason => .error (.unreadable reason)) ∧
    ∀ ds', firstFailure? ds = none → firstFailure? ds' = none → delivered ds' = delivered ds →
      readAll ds' = readAll ds ∧
      tokenize <$> readAll ds' = .ok (tokenize (delivered ds)) ∧
      ∀ l s, (ofExcept (readAll ds') >>= fun text => evaluateText l text s) =
        evaluateText l (delivered ds) s := by
  have hread : ∀ ds, readAll ds = (firstFailure? ds).elim (.ok (delivered ds))
      (fun reason => .error (.unreadable reason)) := gather_reads []
  refine ⟨fun r hr => ?_, hread ds, fun ds' h h' hbytes => ?_⟩
  · obtain ⟨d, -, hr⟩ := List.mem_flatMap.1 hr
    exact length_le_of_mem_reads hr
  · have htext : readAll ds = .ok (delivered ds) := by rw [hread, h, Option.elim_none]
    have htext' : readAll ds' = .ok (delivered ds) := by rw [hread, h', Option.elim_none, hbytes]
    rw [htext, htext']
    exact ⟨rfl, rfl, fun l s => rfl⟩

/-- A program by the byte, with an interruption inside a number, read as in one piece. What comes
after the end is not read. -/
theorem readAll_of_trickle :
    let ds := [interrupted, data [0x7B, 0x31, 0x32, 0x7D]]
    let ds' := [data [0x7B], data [0x31], interrupted, data [0x32], interrupted, data [0x7D],
      data [], failure "closed"]
    firstFailure? ds = none ∧ firstFailure? ds' = none ∧ delivered ds' = delivered ds ∧
      readAll ds' = .ok [0x7B, 0x31, 0x32, 0x7D] ∧
      tokenize <$> readAll ds' = .ok (tokenize [0x7B, 0x31, 0x32, 0x7D]) := by
  intro ds ds'
  have h : firstFailure? ds = none := by decide
  have h' : firstFailure? ds' = none := by decide
  have hbytes : delivered ds' = delivered ds := by decide
  obtain ⟨hread, htokens, -⟩ := (readAll_eq ds).2.2 ds' h h' hbytes
  exact ⟨h, h', hbytes, hread, htokens⟩

end PdfFunctions.Delivery
