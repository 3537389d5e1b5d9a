import PdfFunctions.Proofs.OpenCalls

namespace PdfFunctions

open Braces Machine Moment

variable {l : Limits} {m m' : Machine} {v : Value}

theorem depth_of_opening (h : Accepts l m .opening m') : m'.depth ≤ l.maxNesting := by
  cases h with
  | wrapperOpens hd hn => exact hn
  | bodyOpens hd hn => exact hn
  | deferred hd hn => exact hn rfl
  | pushed _ hv => simp at hv

/-- A limit on nesting has no other effect than to refuse an opening brace. -/
theorem accepts_of_nesting {n : Nat} (h : Accepts l m v m')
    (hn : v = .opening → m'.depth ≤ n) : Accepts { l with maxNesting := n } m v m' := by
  cases h with
  | wrapperOpens hd => exact .wrapperOpens hd (hn rfl)
  | bodyOpens hd _ ht => exact .bodyOpens hd (hn rfl) ht
  | wrapperCloses hd => exact .wrapperCloses hd
  | ignored hd => exact .ignored hd
  | deferred hd _ ht =>
    refine .deferred hd ?_ ht
    rintro rfl
    exact hn rfl
  | pushed hd hv ht => exact .pushed hd hv ht
  | acted hd hop ht => exact .acted hd hop ht
  | skipped hd hw hb => exact .skipped hd hw hb
  | entered hd hp => exact .entered hd hp

namespace Moment

theorem peak_le_move (μ : Moment) (m : Machine) : μ.peak ≤ (μ.move m).peak := by
  simp only [move]
  split
  · exact Nat.le_max_left _ _
  · exact Nat.le_refl _

theorem depth_le_peak_of_move {μ : Moment} (m : Machine) (h : μ.next? = some .opening) :
    m.depth ≤ (μ.move m).peak := by
  simp only [move, if_pos h]
  exact Nat.le_max_right _ _

theorem next_of_read {μ : Moment} {i : Item} {is : List Item} (hc : μ.machine.calls = [])
    (hr : μ.rest = i :: is) : μ.next? = i.value? := by
  simp only [next?, hc, hr]

theorem next_of_ran {μ : Moment} {vs : List Value} {d : Nat} {cs : List Call}
    (hc : μ.machine.calls = ⟨v :: vs, d⟩ :: cs) : μ.next? = some v := by
  simp only [next?, hc]

theorem peak_of_advance {μ μ' : Moment} (h : advance l μ = some μ') :
    μ.peak ≤ μ'.peak ∧ (μ.peak ≤ l.maxNesting → μ'.peak ≤ l.maxNesting) := by
  -- the peak moves on an opening brace only, and that brace has passed the check of the nesting
  have move_le {v : Value} {m m' : Machine} (hv : μ.next? = some v) (hm : Accepts l m v m')
      (hp : μ.peak ≤ l.maxNesting) : (μ.move m').peak ≤ l.maxNesting := by
    simp only [move]
    split
    · rename_i ho
      obtain rfl := Option.some.inj (hv.symm.trans ho)
      exact Nat.max_le.2 ⟨hp, depth_of_opening hm⟩
    · exact hp
  cases advances_of_advance h with
  | read hc hr hv hm =>
    exact ⟨peak_le_move μ _, move_le ((next_of_read hc hr).trans hv) hm⟩
  | refused => exact ⟨Nat.le_refl _, id⟩
  | ran hc hm => exact ⟨peak_le_move μ _, move_le (next_of_ran hc) hm⟩
  | returned hc =>
    refine ⟨peak_le_move μ _, fun hp => ?_⟩
    simp only [move, next?, hc, reduceCtorEq, if_false]
    exact hp

section nesting

variable {n : Nat} {μ μ' : Moment}

theorem accept_of_nesting {u : Unit} (hv : μ.next? = some v) (hm : accept l v m = .ok u m')
    (hn : (μ.move m').peak ≤ n) : accept { l with maxNesting := n } v m = .ok () m' := by
  refine accept_of_accepts (accepts_of_nesting (accepts_of_accept hm) ?_)
  rintro rfl
  exact Nat.le_trans (depth_le_peak_of_move m' hv) hn

theorem step_of_nesting {c : Call} {cs : List Call} {u : Unit} (hc : μ.machine.calls = c :: cs)
    (hs : step l μ.machine = .ok u m') (hn : (μ.move m').peak ≤ n) :
    step { l with maxNesting := n } μ.machine = .ok () m' := by
  obtain ⟨rest, d⟩ := c
  unfold step at hs ⊢
  rw [hc] at hs ⊢
  cases rest with
  | nil => exact hs
  | cons v vs => exact accept_of_nesting (next_of_ran hc) hs hn

theorem readItem_of_nesting {i : Item} {is : List Item} (hi : μ.next? = i.value?)
    (h : μ.readItem l i is = some μ') (hn : μ'.peak ≤ n) :
    μ.readItem { l with maxNesting := n } i is = some μ' := by
  unfold readItem at h ⊢
  cases hv : i.value? with
  | some v =>
    simp only [hv] at h ⊢
    split at h
    · rename_i m' hacc
      obtain rfl := Option.some.inj h
      simp only [accept_of_nesting (hi.trans hv) hacc hn]
    · simp at h
  | none =>
    -- the limit on nesting does not decide what becomes of a token that stands for no value
    simp only [hv] at h ⊢
    exact h

theorem advance_of_nesting (h : advance l μ = some μ') (hn : μ'.peak ≤ n) :
    advance { l with maxNesting := n } μ = some μ' := by
  unfold advance at h
  split at h
  · rename_i c cs hc
    split at h
    · rename_i m' hs
      obtain rfl := Option.some.inj h
      exact advance_of_step hc (step_of_nesting hc hs hn)
    · simp at h
  · rename_i i is hc hr
    have hread := readItem_of_nesting (next_of_read hc hr) h hn
    rw [advance, hc, hr]
    exact hread
  · simp at h

end nesting

variable {text : Bytes} {s : Stack} {log : Log} {μ : Moment}

/-- The limits on nesting that let a program come to a moment are those that its braces meet. -/
theorem reaches_iff_peak_le (h : Reaches l anything (start { stack := s, log } text) μ) {n : Nat} :
    Reaches { l with maxNesting := n } anything (start { stack := s, log } text) μ ↔
      μ.peak ≤ n := by
  constructor
  · intro h'
    clear h
    induction h' with
    | refl => exact Nat.zero_le _
    | tail _ hf ih => exact (peak_of_advance hf.1).2 ih
  · intro hn
    induction h with
    | refl => exact .refl
    | tail _ hf ih =>
      have hle := (peak_of_advance hf.1).1
      exact (ih (Nat.le_trans hle hn)).tail ⟨advance_of_nesting hf.1 hn, fun _ _ => trivial⟩

/-- The brace depth around all open calls. -/
def textDepth : Nat → List Call → Nat
  | d, [] => d
  | _, c :: cs => textDepth c.depth cs

/-- What a moment tells of its past. -/
structure Traced (μ : Moment) : Prop where
  bodies : μ.bodies.length = μ.machine.calls.length
  balanced : ∀ w ∈ μ.bodies, Balanced w
  depth : textDepth μ.machine.depth μ.machine.calls = μ.read.foldl depthAfter 0
  nested : nesting 0 μ.read ≤ μ.peak

theorem length_bodiesAt (h : μ.bodies.length = μ.machine.calls.length) (m : Machine) :
    (μ.bodiesAt m).length = m.calls.length := by
  simp only [bodiesAt, List.length_append, List.length_map, List.length_take, List.length_drop, h]
  omega

theorem balanced_of_entered (h : Accepts l m v m') :
    ∀ c ∈ m'.calls.take (m'.calls.length - m.calls.length), Balanced c.rest := by
  rcases depth_of_accepts h with ⟨hc, -⟩ | ⟨op, w, -, -, hw, -, hc⟩
  · simp [hc]
  · have hlen : m'.calls.length - m.calls.length = 1 := by
      rw [hc, List.length_cons]
      omega
    rw [hlen, hc]
    simpa using hw

theorem balanced_bodiesAt (h : ∀ w ∈ μ.bodies, Balanced w)
    (hm : ∀ c ∈ m.calls.take (m.calls.length - μ.machine.calls.length), Balanced c.rest) :
    ∀ w ∈ μ.bodiesAt m, Balanced w := by
  intro w hw
  rcases List.mem_append.1 hw with hw | hw
  · obtain ⟨c, hc, rfl⟩ := List.mem_map.1 hw
    exact hm c hc
  · exact h w (List.mem_of_mem_drop hw)

theorem textDepth_of_accepts (h : Accepts l m v m') :
    textDepth m'.depth m'.calls = textDepth (depthAfter m.depth v) m.calls := by
  rcases depth_of_accepts h with ⟨hc, hd⟩ | ⟨op, w, rfl, -, -, -, hc⟩
  · rw [hc, hd]
  · rw [hc]
    rfl

/-- A token of the text nests no deeper than the brace depth that it leads to. -/
theorem nested_of_read (ht : Traced μ) {i : Item} {is : List Item} (hc : μ.machine.calls = [])
    (hr : μ.rest = i :: is) (hv : i.value? = some v) (hm : Accepts l μ.machine v m) :
    nesting 0 (μ.read ++ [v]) ≤ (μ.move m).peak := by
  have hdepth : μ.machine.depth = μ.read.foldl depthAfter 0 := by
    simpa only [hc, textDepth] using ht.depth
  have hread := foldl_depthAfter_le_nesting 0 μ.read
  have hpeak := peak_le_move μ m
  -- only an opening brace can lead deeper than the values before it
  have hafter : depthAfter μ.machine.depth v ≤ (μ.move m).peak := by
    cases v with
    | opening =>
      have hle := depth_le_peak_of_move m ((next_of_read hc hr).trans hv)
      rcases depth_of_accepts hm with ⟨-, hd⟩ | ⟨_, _, hop, -⟩
      · exact hd ▸ hle
      · simp at hop
    | _ =>
      simp only [depthAfter]
      have := ht.nested
      omega
  have hnested := ht.nested
  rw [nesting_append, ← hdepth]
  simp only [nesting]
  omega

theorem traced_of_advance {μ μ' : Moment} (h : advance l μ = some μ') (ht : Traced μ) :
    Traced μ' := by
  cases advances_of_advance h with
  | @read i is v m hc hr hv hm =>
    refine ⟨length_bodiesAt ht.bodies m, balanced_bodiesAt ht.balanced (balanced_of_entered hm),
      ?_, nested_of_read ht hc hr hv hm⟩
    have hd : μ.machine.depth = μ.read.foldl depthAfter 0 := by
      simpa only [hc, textDepth] using ht.depth
    change textDepth m.depth m.calls = (μ.read ++ [v]).foldl depthAfter 0
    rw [textDepth_of_accepts hm, hc, textDepth, List.foldl_append, ← hd]
    rfl
  | refused => exact ⟨ht.bodies, ht.balanced, ht.depth, ht.nested⟩
  | @ran v vs d cs m hc hm =>
    refine ⟨length_bodiesAt ht.bodies m, balanced_bodiesAt ht.balanced ?_, ?_,
      Nat.le_trans ht.nested (peak_le_move μ m)⟩
    · rw [hc]
      exact balanced_of_entered hm
    · have hd := ht.depth
      rw [hc] at hd
      exact (textDepth_of_accepts hm).trans hd
  | @returned d cs m hc hm =>
    subst hm
    refine ⟨length_bodiesAt ht.bodies _, balanced_bodiesAt ht.balanced ?_, ?_,
      Nat.le_trans ht.nested (peak_le_move μ _)⟩
    · simp [hc]
    · have hd := ht.depth
      rw [hc] at hd
      exact hd

theorem traced_of_reaches {ok : Rule}
    (h : Reaches l ok (start { stack := s, log } text) μ) : Traced μ := by
  induction h with
  | refl => exact ⟨rfl, by simp [start], rfl, Nat.le_refl 0⟩
  | tail _ hf ih => exact traced_of_advance hf.1 ih

def Shallower (w w' : List Value) : Prop := nesting 0 w < nesting 0 w'

instance (w w' : List Value) : Decidable (Shallower w w') := inferInstanceAs (Decidable (_ < _))

/-- `w` stands in `w'` as a body, with its braces. -/
def Written (w w' : List Value) : Prop := braced w <:+: w'

theorem shallower_of_written {w w' : List Value} (hw : Balanced w) (h : Written w w') :
    Shallower w w' := by
  obtain ⟨x, y, rfl⟩ := h
  have hbody : nesting 1 w = nesting 0 w + 1 := nesting_shift hw 1
  have hmono := nesting_mono (Nat.zero_le (x.foldl depthAfter 0)) (braced w)
  have hopen : nesting 1 w ≤ nesting 0 (braced w) := nesting_le_braced 0 w
  unfold Shallower
  rw [nesting_append, nesting_append]
  omega

theorem nesting_add_length_le {w : List Value} {ws : List (List Value)} {w' : List Value}
    (h : (w :: (ws ++ [w'])).IsChain Shallower) : nesting 0 w + ws.length + 1 ≤ nesting 0 w' := by
  induction ws generalizing w with
  | nil => exact (List.isChain_cons_cons.1 h).1
  | cons u ws ih =>
    obtain ⟨hw, h⟩ := List.isChain_cons_cons.1 h
    have hu := ih h
    have hlt : nesting 0 w < nesting 0 u := hw
    rw [List.length_cons]
    omega

theorem length_le_nesting {ws : List (List Value)} {w' : List Value}
    (h : (ws ++ [w']).IsChain Shallower) : ws.length ≤ nesting 0 w' := by
  cases ws with
  | nil => exact Nat.zero_le _
  | cons w ws =>
    have := nesting_add_length_le h
    rw [List.length_cons]
    omega

theorem isChain_shallower {ws : List (List Value)} {w' : List Value}
    (hws : ∀ w ∈ ws, Balanced w) (h : (ws ++ [w']).IsChain Written) :
    (ws ++ [w']).IsChain Shallower := by
  induction ws with
  | nil => exact .singleton w'
  | cons w ws ih =>
    obtain ⟨hw, hws⟩ := List.forall_mem_cons.1 hws
    have hstep {u : List Value} (hu : Written w u) : Shallower w u := shallower_of_written hw hu
    cases ws with
    | nil => exact .cons_cons (hstep (List.isChain_cons_cons.1 h).1) (.singleton w')
    | cons u us =>
      obtain ⟨hu, h⟩ := List.isChain_cons_cons.1 h
      exact .cons_cons (hstep hu) (ih hws h)

theorem calls_le_peak (ht : Traced μ) (h : (μ.bodies ++ [μ.read]).IsChain Shallower) :
    μ.machine.calls.length ≤ μ.peak :=
  calc μ.machine.calls.length = μ.bodies.length := ht.bodies.symm
    _ ≤ nesting 0 μ.read := length_le_nesting h
    _ ≤ μ.peak := ht.nested

/-- Bodies that are run by those they are written in meet the limit on nesting. -/
theorem calls_le_of_written (h : Reaches l anything (start { stack := s, log } text) μ)
    (hw : (μ.bodies ++ [μ.read]).IsChain Written) : μ.machine.calls.length ≤ l.maxNesting := by
  have ht := traced_of_reaches h
  have hpeak := calls_le_peak ht (isChain_shallower ht.balanced hw)
  exact Nat.le_trans hpeak ((reaches_iff_peak_le h).1 h)

/-- No more bodies are open than the limit on nesting says, under every limit that lets the program
come this far, exactly if they are no more than the braces that were open at once. They are no more
where each open body nests braces less deeply than the one that runs it. -/
theorem calls_le_nesting_iff (h : Reaches l anything (start { stack := s, log } text) μ) :
    ((∀ n, Reaches { l with maxNesting := n } anything (start { stack := s, log } text) μ →
        μ.machine.calls.length ≤ n) ↔ μ.machine.calls.length ≤ μ.peak) ∧
      μ.peak ≤ l.maxNesting ∧
      ((μ.bodies ++ [μ.read]).IsChain Shallower → μ.machine.calls.length ≤ μ.peak) := by
  refine ⟨⟨fun hn => ?_, fun hle n hn => ?_⟩, (reaches_iff_peak_le h).1 h,
    calls_le_peak (traced_of_reaches h)⟩
  · exact hn _ ((reaches_iff_peak_le h).2 (Nat.le_refl _))
  · exact Nat.le_trans hle ((reaches_iff_peak_le h).1 hn)

/-- A body that is run by the one it is written in. -/
theorem calls_le_nesting_of_written_body : ∃ μ, Reaches { maxNesting := 3 } anything
    (start { stack := { limit := 100 } }
      (Bytes.ofText "\x7b true \x7b true \x7b 1 \x7d if \x7d if \x7d")) μ ∧
    (μ.bodies ++ [μ.read]).IsChain Shallower ∧ μ.machine.calls.length = 2 ∧
    μ.machine.calls.length ≤ μ.peak ∧ μ.peak ≤ 3 := by
  have hrun : (after { maxNesting := 3 } anything 15 (start { stack := { limit := 100 } }
      (Bytes.ofText "\x7b true \x7b true \x7b 1 \x7d if \x7d if \x7d"))).map
      (fun μ => (decide ((μ.bodies ++ [μ.read]).IsChain Shallower), μ.machine.calls.length)) =
        some (true, 2) := by decide +kernel
  obtain ⟨μ, hμ, he⟩ := Option.map_eq_some_iff.1 hrun
  obtain ⟨hchain, hcalls⟩ := Prod.mk.inj he
  obtain ⟨-, hpeak, hle⟩ := calls_le_nesting_iff (reaches_of_after hμ)
  have hchain := of_decide_eq_true hchain
  exact ⟨μ, reaches_of_after hμ, hchain, hcalls, hle hchain, hpeak⟩

/-- Each body runs one that was left on the stack for it. -/
theorem calls_exceed_nesting : ∃ s μ, Stack.ofNumbers 100 [] = .ok s ∧
    Reaches { maxNesting := 2 } anything (start { stack := s } (Bytes.ofText
      "\x7b true \x7b 1 \x7d true \x7b if \x7d true \x7b if \x7d true \x7b if \x7d if \x7d")) μ ∧
    μ.machine.calls.length = 4 := by
  have hs : Stack.ofNumbers 100 [] = .ok { limit := 100 } := rfl
  have hrun : (after { maxNesting := 2 } anything 22 (start { stack := { limit := 100 } }
      (Bytes.ofText
        "\x7b true \x7b 1 \x7d true \x7b if \x7d true \x7b if \x7d true \x7b if \x7d if \x7d"))).map
      (fun μ => μ.machine.calls.length) = some 4 := by decide +kernel
  obtain ⟨μ, hμ, hcalls⟩ := Option.map_eq_some_iff.1 hrun
  exact ⟨_, μ, hs, reaches_of_after hμ, hcalls⟩

/-- A body that copies itself and runs the copy. -/
def again : List Value := [.number 6, .operator .copy, .operator .runIf]

def ready : Stack := { values := (.bool true :: braced again).reverse, limit := 100 }

theorem reaches_ran {cs : List Call} {vs : List Value} {d : Nat}
    (hc : μ.machine.calls = ⟨v :: vs, d⟩ :: cs)
    (hm : Accepts l { μ.machine with calls := ⟨vs, d⟩ :: cs } v m) :
    Reaches l anything μ (μ.move m) := by
  refine .single ⟨advance_of_step (u := ()) hc ?_, fun _ _ => trivial⟩
  unfold step
  rw [hc]
  exact accept_of_accepts hm

/-- The body runs itself once more, inside the open calls. -/
theorem reaches_again {cs : List Call} (hs : μ.machine.stack = ready) (hd : μ.machine.depth = 1)
    (hc : μ.machine.calls = ⟨again, 1⟩ :: cs) :
    ∃ μ', Reaches l anything μ μ' ∧ μ'.machine.stack = ready ∧ μ'.machine.depth = 1 ∧
      μ'.machine.calls = ⟨again, 1⟩ :: ⟨[], 1⟩ :: cs := by
  obtain ⟨⟨s, d, calls, log⟩, rest, read, bodies, peak⟩ := μ
  obtain rfl : s = ready := hs
  obtain rfl : d = 1 := hd
  obtain rfl : calls = ⟨again, 1⟩ :: cs := hc
  -- the condition and the body, twice
  let doubled : Stack := { values := ready.values ++ ready.values, limit := 100 }
  have hpush : StackM.push (.number 6) ready = .ok () (ready.cons (.number 6)) :=
    StackM.push_eq_ok.2 ⟨by decide, rfl⟩
  have hcopy : Operator.copy.act (ready.cons (.number 6)) = .ok () doubled := rfl
  have hlift : Body.Lifted again doubled { values := .bool true :: ready.values, limit := 100 } :=
    ⟨rfl, rfl, rfl, rfl⟩
  have hbool : StackM.popBool "if" { values := .bool true :: ready.values, limit := 100 } =
      .ok true ready := rfl
  have h₁ := reaches_ran (l := l) (μ := ⟨⟨ready, 1, ⟨again, 1⟩ :: cs, log⟩, rest, read, bodies, peak⟩)
    rfl (.pushed (Nat.le_refl 1) (by simp) hpush)
  have h₂ := h₁.trans (reaches_ran (l := l) rfl (.acted (Nat.le_refl 1) rfl hcopy))
  have h₃ := h₂.trans (reaches_ran (l := l) rfl (.entered (Nat.le_refl 1) (.single hlift hbool)))
  exact ⟨_, h₃, rfl, rfl, rfl⟩

/-- A body can run copies of itself without end, where no more than two braces may be open. -/
theorem exists_calls (n : Nat) : ∃ μ, Reaches { maxNesting := 2 } anything
    (start { stack := { limit := 100 } }
      (Bytes.ofText "\x7b true \x7b 6 copy if \x7d 6 copy if \x7d")) μ ∧
    μ.machine.calls.length = n + 1 := by
  suffices h : ∃ μ, Reaches { maxNesting := 2 } anything (start { stack := { limit := 100 } }
      (Bytes.ofText "\x7b true \x7b 6 copy if \x7d 6 copy if \x7d")) μ ∧
      μ.machine.stack = ready ∧ μ.machine.depth = 1 ∧
      ∃ cs, μ.machine.calls = ⟨again, 1⟩ :: cs ∧ cs.length = n by
    obtain ⟨μ, hμ, -, -, cs, hc, hn⟩ := h
    exact ⟨μ, hμ, by rw [hc, List.length_cons, hn]⟩
  -- each activation copies its own body onto the stack and runs the copy, one call deeper
  induction n with
  | zero =>
    have hrun : (after { maxNesting := 2 } anything 10 (start { stack := { limit := 100 } }
        (Bytes.ofText "\x7b true \x7b 6 copy if \x7d 6 copy if \x7d"))).map
        (fun μ => (μ.machine.stack, μ.machine.depth, μ.machine.calls)) =
          some (ready, 1, [⟨again, 1⟩]) := by decide +kernel
    obtain ⟨μ, hμ, he⟩ := Option.map_eq_some_iff.1 hrun
    obtain ⟨hs, he⟩ := Prod.mk.inj he
    obtain ⟨hd, hc⟩ := Prod.mk.inj he
    exact ⟨μ, reaches_of_after hμ, hs, hd, [], hc, rfl⟩
  | succ n ih =>
    obtain ⟨μ, hμ, hs, hd, cs, hc, rfl⟩ := ih
    obtain ⟨μ', hμ', hs', hd', hc'⟩ := reaches_again hs hd hc
    exact ⟨μ', hμ.trans hμ', hs', hd', _, hc', rfl⟩

end Moment

end PdfFunctions
