import EventRecorder.Proofs.Hooks.Folding
import EventRecorder.Proofs.Ledger.Records

/-! # Events read back

Folding returns into their calls loses nothing. In a session that has not wrapped, the records of a CPU
unfold to the stamped words of all events that were traced on it, in their order. Every grant holds one
word; an insertion adds a grant, and a fold makes the word of the latest grant unfold to one more word. -/

namespace EventRecorder

open Ledger LogView

/-- The words of a record, with a folded return taken out of the first one. -/
def unfoldWords : List UInt64 → List UInt64
  | [] => []
  | first :: payload => Head.unfold first ++ payload

def Record.unfolded (r : Record) : List UInt64 := unfoldWords r.words

/-- The word of an event as it is found again. -/
def Traced.shown (e : Traced) : UInt64 :=
  match e.call? with
  | some call => Head.recovered call e.word
  | none => e.word

/-- The event was recorded, its word starts a record of one word, and its argument leaves elapsed time and
return value free. -/
structure Traced.Plain (e : Traced) : Prop where
  recorded : e.outcome ≠ .dropped
  nonzero : e.word ≠ 0
  length : Head.recordLength e.word = 1
  arg : e.arg ≤ 0xffff ∨ Event.isFoldableReturn e.event = true ∧ Head.fitsByte e.arg.toInt64 = true

instance (e : Traced) : Decidable e.Plain :=
  decidable_of_iff (e.outcome ≠ .dropped ∧ e.word ≠ 0 ∧ Head.recordLength e.word = 1 ∧
      (e.arg ≤ 0xffff ∨ Event.isFoldableReturn e.event = true ∧ Head.fitsByte e.arg.toInt64 = true))
    ⟨fun ⟨h₁, h₂, h₃, h₄⟩ => ⟨h₁, h₂, h₃, h₄⟩, fun ⟨h₁, h₂, h₃, h₄⟩ => ⟨h₁, h₂, h₃, h₄⟩⟩

/-- The words of a grant unfolded, the last one first. -/
def Grant.unfolded (g : Grant) : List UInt64 := (g.words.flatMap Head.unfold).reverse

/-- Every grant holds one word, and the grants of each CPU unfold to what was traced on it. -/
structure Unfolds (log : Ledger) (es : List Traced) : Prop where
  single : ∀ g ∈ log, ∃ w, g.words = [w] ∧ w ≠ 0 ∧ Head.recordLength w = 1
  reads : ∀ c, (log.filter (·.cpu == c)).flatMap Grant.unfolded = (es.filter (·.cpu == c)).map Traced.shown

variable {P : Type} [Platform P] {t : Tracer P} {log : Ledger} {es : List Traced} {e : Traced} {p : Grant}
  {event arg call ret w x : UInt64} {c : Nat} {s : Span} {v : LogView}

/-! ### Words of events -/

namespace Head

/-- An argument of 16 bits, or a byte in a return, leaves the fields between it and the event code zero. -/
theorem get_eventWord_eq_zero {f : BitField} (hlow : 16 ≤ f.pos) (hhigh : f.pos + f.width ≤ 32)
    (h : arg ≤ 0xffff ∨ Event.isFoldableReturn event = true ∧ fitsByte arg.toInt64 = true) :
    f.get (eventWord event arg) = 0 := by
  unfold eventWord
  split
  · rw [get_returnWord hhigh, BitField.get_place_of_apart (f := f) (g := argField) (Or.inr hlow)]
  · rename_i hfold
    have hsmall : arg.toNat < 2 ^ 16 := by
      rcases h with h | h
      · exact Nat.lt_succ_of_le (UInt64.le_iff_toNat_le.mp h)
      · exact absurd (Bool.and_eq_true_iff.mpr h) hfold
    have hzero : arg.toNat / 2 ^ f.pos = 0 :=
      Nat.div_eq_of_lt (Nat.lt_of_lt_of_le hsmall (Nat.pow_le_pow_right (by decide) hlow))
    rw [get_callWord hhigh]
    refine UInt64.toNat_inj.mp ?_
    rw [BitField.toNat_get, hzero, Nat.zero_mod]
    rfl

theorem event_eventWord (event arg : UInt64) : eventField.get (eventWord event arg) = event &&& ones 12 := by
  unfold eventWord
  split
  · exact event_returnWord ..
  · exact event_callWord ..

theorem returnBit_eventWord (h : Event.isFoldableReturn event = true) (arg : UInt64) :
    eventField.get (eventWord event arg) &&& Event.returnBit ≠ 0 := by
  unfold Event.isFoldableReturn at h
  rw [event_eventWord, UInt64.and_assoc, show ones 12 &&& Event.returnBit = Event.returnBit by decide]
  simpa using (Bool.and_eq_true_iff.mp h).1

end Head

/-! ### Steps -/

namespace Unfolds

theorem filter_cons (e : Traced) (es : List Traced) (c : Nat) :
    (e :: es).filter (·.cpu == c) = if e.cpu = c then e :: es.filter (·.cpu == c) else es.filter (·.cpu == c) := by
  simp only [List.filter_cons, beq_iff_eq]

theorem isRecord (h : Unfolds log es) : ∀ g ∈ log, g.isRecord = true := by
  intro g hg
  obtain ⟨w, hw, hne, hlen⟩ := h.single g hg
  unfold Grant.isRecord
  rw [hw]
  simp [hne, hlen]

/-- An event that is written adds its word to what its CPU has traced. -/
theorem written (h : Unfolds log es) (hplain : e.Plain) (hdelta : Head.deltaField.get e.word = 0)
    (hcall : e.call? = none) : Unfolds (v.grant e.cpu s [e.word] :: log) (e :: es) := by
  have hnew : (v.grant e.cpu s [e.word]).unfolded = [e.shown] := by
    unfold Grant.unfolded Traced.shown
    rw [hcall, show (v.grant e.cpu s [e.word]).words = [e.word] from rfl, List.flatMap_singleton,
      Head.unfold_of_delta hdelta]
    rfl
  refine ⟨List.forall_mem_cons.mpr ⟨⟨e.word, rfl, hplain.nonzero, hplain.length⟩, h.single⟩, fun c => ?_⟩
  by_cases hc : e.cpu = c
  · rw [filter_cpu_self (g := v.grant e.cpu s [e.word]) hc, List.flatMap_cons, hnew, h.reads, filter_cons, if_pos hc]
    rfl
  · rw [filter_cpu_of_ne (g := v.grant e.cpu s [e.word]) hc, h.reads, filter_cons, if_neg hc]

/-- A return that is folded into the latest word of its CPU makes this word unfold to one more. -/
theorem folded (h : Unfolds log es) (hp : latest? e.cpu log = some p) (hx : p.words.getLast? = some x)
    (hcall : e.call? = some x) (hf : Head.Folded x e.word w)
    (hbit : Head.eventField.get e.word &&& Event.returnBit ≠ 0) (hdelta : Head.deltaField.get e.word = 0)
    (hretval : Head.retvalField.get e.word = 0) : Unfolds (log.amendLatest e.cpu w) (e :: es) := by
  have hsingle := h.single
  obtain ⟨l, hl⟩ := Placing.filter_of_latest hp
  obtain ⟨x', hwords, hne, hlen⟩ := hsingle p (mem_of_latest? hp)
  obtain rfl : x' = x := by simpa [hwords] using hx
  -- the word agrees with the return in elapsed time, so it has none yet and unfolds to itself
  have hdelta' := hf.sameDelta.trans hdelta
  have hmerged := hf.delta_ne_zero
  have hamend : (p.amend w).words = [w] := by
    unfold Grant.amend
    rw [hwords]
    rfl
  have hunfolded : (p.amend w).unfolded = e.shown :: p.unfolded := by
    unfold Grant.unfolded Traced.shown
    rw [hamend, hwords, hcall, List.flatMap_singleton, List.flatMap_singleton, Head.unfold_of_delta hdelta',
      hf.unfold hbit hdelta' (hf.sameRetval.trans hretval)]
    rfl
  refine ⟨?_, fun c => ?_⟩
  · refine forall_mem_amendLatest hsingle fun g _ ⟨_, hg, _⟩ => ⟨w, ?_, ?_, ?_⟩
    · unfold Grant.amend
      rw [hg]
      rfl
    · rintro rfl
      exact hmerged (BitField.get_zero _)
    · unfold Head.recordLength at hlen ⊢
      rw [hf.event, hlen]
  · by_cases hc : e.cpu = c
    · subst hc
      rw [filter_amendLatest_self hl, List.flatMap_cons, hunfolded, List.cons_append, ← List.flatMap_cons, ← hl, h.reads,
        filter_cons, if_pos rfl]
      rfl
    · rw [filter_amendLatest_of_ne hc, h.reads, filter_cons, if_neg hc]

theorem observe (h : Unfolds log es) (hhistory : History t log) (hspent : Spent 0 log) (htracing : t.tracing = true)
    (hplain : (t.observe event arg).Plain) :
    Unfolds (t.enter (.traceEvent event arg) log) (t.observe event arg :: es) := by
  have hzero : ∀ f : BitField, 16 ≤ f.pos → f.pos + f.width ≤ 32 → f.get (t.observe event arg).word = 0 := by
    intro f hlow hhigh
    refine (Head.get_stamp (Or.inl ?_) ..).trans (Head.get_eventWord_eq_zero hlow hhigh hplain.arg)
    exact Nat.le_trans hhigh (by decide)
  have hdelta := hzero Head.deltaField (by decide) (by decide)
  have hretval := hzero Head.retvalField (by decide) (by decide)
  rw [Tracer.enter_traceEvent]
  obtain hdropped | ⟨hwritten, -, hcall⟩ | ⟨hmerged, hcall, hfolds⟩ := t.fate htracing event arg
  · exact absurd hdropped hplain.recorded
  · rw [hwritten]
    exact h.written hplain hdelta hcall
  · obtain ⟨p, hp, -, hlast⟩ := hhistory.last_word hspent hfolds.room
    obtain ⟨x, hx, -⟩ := h.single p (mem_of_latest? hp)
    have hbit : Head.eventField.get (t.observe event arg).word &&& Event.returnBit ≠ 0 := by
      unfold Tracer.observe
      dsimp only
      rw [Head.get_stamp (by decide)]
      exact Head.returnBit_eventWord hfolds.foldable arg
    have hlast := hlast (by simp [hx])
    rw [← hfolds.place] at hlast
    have hunfolds := h.folded hp hlast hcall (Head.folded_of_merge? hfolds.merge) hbit hdelta hretval
    rwa [hmerged, LogView.book, List.headD_cons, show t.view.arena = t.arena from rfl, hfolds.merge]

end Unfolds

/-! ### Runs -/

theorem EventRun.unfolds (h : EventRun t log es) (hwrapped : t.arena.wrapped = false) (hplain : ∀ e ∈ es, e.Plain) :
    Unfolds log es := by
  induction h with
  | start _ => exact ⟨fun g hg => (by cases hg), fun c => rfl⟩
  | quiet platform hrun hquiet ih =>
    exact ih (hrun.history.wrapped_of_perform platform (Action.isReset_of_quiet hquiet) hwrapped) hplain
  | idle platform event arg hrun htracing ih =>
    exact ih (hrun.history.wrapped_of_perform platform rfl hwrapped) hplain
  | @event t log es platform event arg hrun htracing ih =>
    obtain ⟨hlast, hplain⟩ := List.forall_mem_cons.mp hplain
    -- wrapping is not undone, so the session had not wrapped before and its blocks have one writer each
    have hbefore := hrun.history.wrapped_of_perform platform rfl hwrapped
    have hspent := hrun.history.spent (hrun.history.oneWriter (Or.inr hbefore))
    exact (ih hbefore hplain).observe (hrun.history.at platform) hspent htracing hlast

/-- The records of a CPU unfold to the stamped words of the events that were traced on it, in their order. Only a
return that was folded into its call without elapsed time is found one tick later. -/
theorem unfolds_to_events (h : EventRun t log es) (hwrapped : t.arena.wrapped = false) (hplain : ∀ e ∈ es, e.Plain)
    (c : UInt8) :
    (t.snapshot.1.recordsOf c).flatMap Record.unfolded =
      (es.reverse.filter (·.cpu == c.toNat)).map Traced.shown := by
  have hunfolds := h.unfolds hwrapped hplain
  have hwords := h.history.recordsOf_snapshot hwrapped hunfolds.isRecord c
  have hgrant : ∀ g ∈ (log.filter (·.cpu == c.toNat)).reverse, unfoldWords g.words = g.unfolded.reverse := by
    intro g hg
    obtain ⟨w, hw, -⟩ := hunfolds.single g (List.mem_of_mem_filter (List.mem_reverse.mp hg))
    unfold Grant.unfolded unfoldWords
    rw [hw, List.reverse_reverse]
    simp
  calc (t.snapshot.1.recordsOf c).flatMap Record.unfolded
      = ((t.snapshot.1.recordsOf c).map Record.words).flatMap unfoldWords := by
        rw [List.flatMap_map]
        rfl
    _ = (log.filter (·.cpu == c.toNat)).reverse.flatMap (fun g => unfoldWords g.words) := by
        rw [hwords, List.flatMap_map, List.filter_reverse]
    _ = ((log.filter (·.cpu == c.toNat)).flatMap Grant.unfolded).reverse := by
        rw [List.flatMap_congr hgrant, List.reverse_flatMap]
        rfl
    _ = (es.reverse.filter (·.cpu == c.toNat)).map Traced.shown := by
        rw [hunfolds.reads, List.filter_reverse, List.map_reverse]

/-- Two CPUs trace a call each, and the call on the first one returns. -/
theorem unfolds_to_events_of_two_calls :
    ∃ (t : Tracer TimeOnly) (log : Ledger) (es : List Traced), EventRun t log es ∧ t.arena.wrapped = false ∧
      (∀ e ∈ es, e.Plain) ∧ log.map (·.words) = [[0x0006840100000007], [0x0006480103ff0005]] ∧
      (∀ c : UInt8, (t.snapshot.1.recordsOf c).flatMap Record.unfolded =
        (es.reverse.filter (·.cpu == c.toNat)).map Traced.shown) ∧
      es.map Traced.shown = [0x00067a010000ffff, 0x0006840100000007, 0x0006480100000005] := by
  have hnew : History _ [] := .new (show Tracer.ofConfig ({} : TimeOnly) { blocks := 2, cpus := 2 } = .ok _ from rfl)
  have hcalls := (((EventRun.start hnew).quiet {} (a := .execute .on) rfl).event { time := 100 } 0x801 5
    (by decide +kernel)).event { time := 104, cpu := 1 } 0x401 7 (by decide +kernel)
  obtain ⟨hfolds, hword⟩ := (hcalls.history.at { time := 103 }).folds 0xa01 0xffffffffffffffff
    (i := 8204) (x := 0x0006480100000005) (w := 0x0006480103ff0005)
    (g := ⟨0, ⟨8204, 1⟩, 0, true, 0, [0x0006480100000005]⟩) (by decide +kernel) (by decide +kernel) rfl
    (by decide +kernel) (by decide) (by decide) (by decide +kernel) (by decide +kernel) (by decide +kernel)
  obtain ⟨u, hrun, hwrapped, hmerged, hcall⟩ := hcalls.fold hfolds
  refine ⟨u, _, _, hrun, ?wrapped, ?plain, by decide +kernel, unfolds_to_events hrun ?wrapped ?plain, ?_⟩
  case wrapped => exact hwrapped.trans (by decide +kernel)
  case plain =>
    refine List.forall_mem_cons.mpr ⟨⟨fun h => ?_, by decide +kernel, by decide +kernel, by decide +kernel⟩, ?_⟩
    · exact Outcome.noConfusion (hmerged.symm.trans h)
    · decide +kernel
  · rw [List.map_cons, Traced.shown, hcall.trans (congrArg some hword)]
    decide +kernel

end EventRecorder
