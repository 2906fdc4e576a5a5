import EventRecorder.Proofs.Hooks.Unfolding
import EventRecorder.Proofs.Ledger.Provenance

/-! # Marks of merged records

Readers take a record for a call that absorbed its return if its elapsed time is not zero. This holds of every
call that absorbed its return and of no other call, but not of all returns: a value below -128 is written with
all the bits of its sign, and those reach into the fields of elapsed time and return value. -/

namespace EventRecorder

open Ledger LogView

/-- The event is a trap, an interrupt or a system call, or a return from one. -/
def Event.isPaired (code : UInt64) : Bool := code &&& pairedBits != 0

/-- The event was written as a record of its own. -/
def Traced.IsWritten (e : Traced) : Prop := ∃ s, e.outcome = .written e.cpu s

/-- A call has a 16-bit argument, and a return a signed 16-bit value. Other events may have any argument. -/
structure Traced.Ranged (e : Traced) : Prop where
  call : Event.isPaired e.event = true → e.event &&& Event.returnBit = 0 → e.arg ≤ 0xffff
  ret : Event.isFoldableReturn e.event = true → -32768 ≤ e.arg.toInt64 ∧ e.arg.toInt64 ≤ 32767

instance (e : Traced) : Decidable e.Ranged :=
  decidable_of_iff ((Event.isPaired e.event = true → e.event &&& Event.returnBit = 0 → e.arg ≤ 0xffff) ∧
      (Event.isFoldableReturn e.event = true → -32768 ≤ e.arg.toInt64 ∧ e.arg.toInt64 ≤ 32767))
    ⟨fun ⟨h₁, h₂⟩ => ⟨h₁, h₂⟩, fun ⟨h₁, h₂⟩ => ⟨h₁, h₂⟩⟩

/-- The return `ret` was folded into the call `call`, whose word became `w`. -/
structure Absorbed (es : List Traced) (call ret : Traced) (w : UInt64) : Prop where
  call_mem : call ∈ es
  ret_mem : ret ∈ es
  written : call.IsWritten
  folded : ret.call? = some call.word
  foldable : Event.isFoldableReturn ret.event = true
  merge : Head.merge? call.word ret.word = some w

/-- A word on a CPU is the word of an event that was written, or that of a call with its return folded into it.
If `q` holds, both were traced on this CPU. -/
inductive Made (q : Prop) (es : List Traced) (c : Nat) : UInt64 → Prop
  | written {e : Traced} : e ∈ es → e.IsWritten → (q → e.cpu = c) → Made q es c e.word
  | absorbed {call ret : Traced} {w : UInt64} : Absorbed es call ret w → (q → call.cpu = c ∧ ret.cpu = c) →
      Made q es c w

/-- The event is a return whose value lies below the signed bytes. -/
def Traced.isLow (e : Traced) : Bool := Event.isFoldableReturn e.event && decide (e.arg.toInt64 < -128)

variable {P : Type} [Platform P] {t : Tracer P} {log : Ledger} {es es' : List Traced} {e call ret : Traced} {g : Grant}
  {v : LogView} {event arg now w x y : UInt64} {c d : Nat} {q : Prop}

/-! ### Words of events -/

namespace Head

/-- The numbers of 64 bits that are signed numbers of 16 bits but no signed bytes. -/
theorem toNat_of_not_byte (hlow : -32768 ≤ arg.toInt64) (hhigh : arg.toInt64 ≤ 32767)
    (hbyte : fitsByte arg.toInt64 = false) :
    arg.toInt64 < -128 ∧ 2 ^ 64 - 2 ^ 15 ≤ arg.toNat ∧ arg.toNat < 2 ^ 64 ∨
      ¬ arg.toInt64 < -128 ∧ arg.toNat < 2 ^ 15 := by
  have hvalue : arg.toInt64.toInt = if 2 * arg.toNat < 2 ^ 64 then (arg.toNat : Int) else arg.toNat - 2 ^ 64 :=
    BitVec.toInt_eq_toNat_cond _
  have hlt := arg.toNat_lt
  replace hlow : -32768 ≤ arg.toInt64.toInt := Int64.le_iff_toInt_le.mp hlow
  replace hhigh : arg.toInt64.toInt ≤ 32767 := Int64.le_iff_toInt_le.mp hhigh
  rw [Bool.eq_false_iff, Ne, fitsByte_iff] at hbyte
  rw [Int64.lt_iff_toInt_lt, show (-128 : Int64).toInt = -128 by decide]
  split at hvalue <;> omega

/-- The bits above the fifteenth are those of the sign. -/
theorem get_of_sign {f : BitField} (hlow : 15 ≤ f.pos) (hhigh : f.pos + f.width ≤ 64) (h : 2 ^ 64 - 2 ^ 15 ≤ x.toNat) :
    f.get x = ones f.width := by
  have hlt := x.toNat_lt
  have hsign : x.toNat / 2 ^ 15 = 2 ^ 49 - 1 := by omega
  refine eq_of_testBit fun i => ?_
  rw [BitField.testBit_get, toNat_ones (by omega), Nat.testBit_two_pow_sub_one]
  by_cases hi : i < f.width
  · rw [show i + f.pos = (i + f.pos - 15) + 15 by omega, ← Nat.testBit_div_two_pow, hsign, Nat.testBit_two_pow_sub_one]
    simp only [hi, decide_true, Bool.true_and, decide_eq_true_iff]
    omega
  · simp [hi]

theorem arg_eventWord (event arg : UInt64) : argField.get (eventWord event arg) = argField.get arg := by
  unfold eventWord
  split
  · rw [arg_returnWord, UInt64.toUInt64_toInt64]
  · exact get_callWord (by decide) ..

/-- The sign of a return below the signed bytes fills the fields of elapsed time and return value. Other events of
that range leave them zero. -/
theorem get_eventWord_of_ranged {f : BitField} (hlow : 16 ≤ f.pos) (hhigh : f.pos + f.width ≤ 32)
    (he : e.Ranged) (hpaired : Event.isPaired e.event = true) :
    f.get (eventWord e.event e.arg) = if e.isLow then ones f.width else 0 := by
  cases hfold : Event.isFoldableReturn e.event with
  | false =>
    have hcall : e.event &&& Event.returnBit = 0 := by
      unfold Event.isFoldableReturn at hfold
      unfold Event.isPaired at hpaired
      rw [hpaired, Bool.and_true] at hfold
      simpa using hfold
    rw [get_eventWord_eq_zero hlow hhigh (Or.inl (he.call hpaired hcall))]
    unfold Traced.isLow
    rw [hfold]
    rfl
  | true =>
    obtain ⟨hmin, hmax⟩ := he.ret hfold
    unfold Traced.isLow
    rw [hfold, Bool.true_and]
    cases hbyte : fitsByte e.arg.toInt64 with
    | true =>
      have hnot : ¬ e.arg.toInt64 < -128 := by
        have hge := (fitsByte_iff.mp hbyte).1
        rw [Int64.lt_iff_toInt_lt, show (-128 : Int64).toInt = -128 by decide]
        omega
      rw [get_eventWord_eq_zero hlow hhigh (Or.inr ⟨hfold, hbyte⟩), decide_eq_false hnot]
      rfl
    | false =>
      -- a value that fits no byte is written like the argument of a call, with all its bits
      obtain ⟨hneg, hmin, hmax⟩ | ⟨hpos, hmax⟩ := toNat_of_not_byte hmin hmax hbyte
      · unfold eventWord
        rw [hbyte, Bool.and_false, if_neg Bool.false_ne_true, get_callWord hhigh, decide_eq_true hneg, if_pos rfl]
        exact get_of_sign (by omega) (by omega) hmin
      · have harg : e.arg ≤ 0xffff := by
          rw [UInt64.le_iff_toNat_le]
          exact Nat.le_trans (Nat.le_of_lt hmax) (by decide)
        rw [get_eventWord_eq_zero hlow hhigh (Or.inl harg), decide_eq_false hpos]
        rfl

theorem event_ofWord (w : UInt64) : (ofWord w).event.toUInt64 = eventField.get w :=
  UInt64.toNat_inj.mp ((UInt16.toNat_toUInt64 _).trans (toNat_event w))

theorem Folded.not_return (h : Folded x y w) (hbit : eventField.get y &&& Event.returnBit ≠ 0) :
    eventField.get w &&& Event.returnBit = 0 := by
  -- the words of a pair differ in the return bit, and the return has it
  have hreturn : ∀ z : UInt64, ∀ i, (z &&& Event.returnBit).toNat.testBit i = (z.toNat.testBit 9 && decide (9 = i)) := by
    intro z i
    rw [UInt64.toNat_and, Nat.testBit_and, show Event.returnBit.toNat = 2 ^ 9 by decide, Nat.testBit_two_pow]
    by_cases hi : 9 = i
    · rw [hi]
    · simp [hi]
  have hset : (eventField.get y).toNat.testBit 9 = true := by
    by_contra hclear
    refine hbit (eq_of_testBit fun i => ?_)
    rw [hreturn, Bool.eq_false_iff.mpr hclear]
    simp
  have hpair := congrArg (fun z : UInt64 => z.toNat.testBit 9) h.pair
  rw [UInt64.toNat_xor, Nat.testBit_xor, hset, show Event.returnBit.toNat.testBit 9 = true by decide] at hpair
  refine eq_of_testBit fun i => ?_
  rw [hreturn, h.event, show (eventField.get x).toNat.testBit 9 = false by simpa using hpair]
  simp

theorem not_folded_zero (hevent : Event.isFoldableReturn event = true) (hret : eventField.get y = event &&& ones 12) :
    ¬ Folded 0 y w := by
  intro h
  have hpair := h.pair
  rw [BitField.get_zero, UInt64.zero_xor, hret] at hpair
  have hpaired : event &&& Event.pairedBits ≠ 0 := by
    unfold Event.isFoldableReturn at hevent
    simpa using (Bool.and_eq_true_iff.mp hevent).2
  refine hpaired ?_
  rw [show Event.pairedBits = ones 12 &&& Event.pairedBits by decide, ← UInt64.and_assoc, hpair]
  decide

end Head

/-! ### Steps -/

/-- What is noted of an event does not depend on later ones. -/
theorem Made.mono (h : Made q es c w) (hes : ∀ e ∈ es, e ∈ es') : Made q es' c w := by
  cases h with
  | written he hwritten hcpu => exact .written (hes _ he) hwritten hcpu
  | absorbed h hcpu => exact .absorbed { h with call_mem := hes _ h.call_mem, ret_mem := hes _ h.ret_mem } hcpu

theorem Made.of_not (h : Made q es c w) (hq : ¬ q) (d : Nat) : Made q es d w := by
  cases h with
  | written he hwritten _ => exact .written he hwritten fun h => absurd h hq
  | absorbed h _ => exact .absorbed h fun h => absurd h hq

/-- A word that absorbs a return is that of a call which has absorbed none. -/
theorem Made.fold (h : Made q es c x) (hes : ∀ e ∈ es, e ∈ es') (hret : ret ∈ es') (hcpu : ret.cpu = c)
    (hcall : ret.call? = some x) (hfoldable : Event.isFoldableReturn ret.event = true)
    (hdelta : Head.deltaField.get ret.word = 0) (hmerge : Head.merge? x ret.word = some w) : Made q es' c w := by
  cases h with
  | written he hwritten hc => exact .absorbed ⟨hes _ he, hret, hwritten, hcall, hfoldable, hmerge⟩ fun h => ⟨hc h, hcpu⟩
  | absorbed habsorbed _ =>
    have hzero := (Head.folded_of_merge? hmerge).sameDelta.trans hdelta
    rw [(Head.folded_of_merge? habsorbed.merge).delta, UInt64.or_eq_zero_iff] at hzero
    exact absurd hzero.2 (Head.elapsed_ne_zero _ _)

/-- What absorbs a return comes from an event, and from one of the same CPU if blocks are spent when they are opened
again. -/
theorem Made.of_folds {i : Nat} (h : ∀ g ∈ log, ∃ w, g.words = [w] ∧ Made q es g.cpu w) (hhistory : History t log)
    (hspent : q → Spent 0 log) (hfolds : t.Folds event arg i w) :
    Made q es (t.observe event arg).cpu (t.arena.word i) := by
  have hplace := hfolds.place
  -- a spent ledger gives the latest word of this CPU; without it the word may be any CPU's, or zero
  by_cases hq : q
  · obtain ⟨p, hp, -, hlast⟩ := hhistory.last_word (hspent hq) hfolds.room
    obtain ⟨x, hx, hmade⟩ := h p (mem_of_latest? hp)
    have hword := hlast (by simp [hx])
    rw [hx, List.getLast?_singleton, ← hplace] at hword
    rw [← Option.some.inj hword, ← cpu_of_latest? hp]
    exact hmade
  · have hwritten : ∀ g ∈ log, g.words ≠ [] := fun g hg => by
      obtain ⟨x, hx, -⟩ := h g hg
      simp [hx]
    rcases hhistory.source_of_place hwritten hfolds.room with hzero | ⟨g, hg, hmem⟩
    · rw [← hplace] at hzero
      refine absurd (hzero ▸ Head.folded_of_merge? hfolds.merge) (Head.not_folded_zero hfolds.foldable ?_)
      exact (Head.get_stamp (by decide) ..).trans (Head.event_eventWord ..)
    · obtain ⟨x, hx, hmade⟩ := h g hg
      rw [hx, List.mem_singleton, ← hplace] at hmem
      exact hmem ▸ hmade.of_not hq _

theorem Made.observe (h : ∀ g ∈ log, ∃ w, g.words = [w] ∧ Made q es g.cpu w) (hhistory : History t log)
    (htracing : t.tracing = true) (hspent : q → Spent 0 log) :
    ∀ g ∈ t.enter (.traceEvent event arg) log, ∃ w, g.words = [w] ∧ Made q (t.observe event arg :: es) g.cpu w := by
  have hes : ∀ e ∈ es, e ∈ t.observe event arg :: es := fun _ => List.mem_cons_of_mem _
  have hold : ∀ g ∈ log, ∃ w, g.words = [w] ∧ Made q (t.observe event arg :: es) g.cpu w := fun g hg => by
    obtain ⟨w, hw, hmade⟩ := h g hg
    exact ⟨w, hw, hmade.mono hes⟩
  rw [Tracer.enter_traceEvent]
  obtain hdropped | ⟨hwritten, -, -⟩ | @⟨i, w, hmerged, hcall, hfolds⟩ := t.fate htracing event arg
  · rw [hdropped]
    exact hold
  · rw [hwritten]
    exact List.forall_mem_cons.mpr ⟨⟨_, rfl, .written List.mem_cons_self ⟨_, hwritten⟩ fun _ => rfl⟩, hold⟩
  · have hdelta : Head.deltaField.get (t.observe event arg).word = 0 :=
      (Head.get_stamp (by decide) ..).trans
        (Head.get_eventWord_eq_zero (by decide) (by decide) (Or.inr ⟨hfolds.foldable, hfolds.fits⟩))
    have hmade := (Made.of_folds h hhistory hspent hfolds).fold hes List.mem_cons_self rfl hcall hfolds.foldable hdelta
      hfolds.merge
    rw [hmerged, LogView.book, List.headD_cons, show t.view.arena = t.arena from rfl, hfolds.merge, Option.getD_some]
    refine forall_mem_amendLatest hold fun g hg hwords => ⟨w, ?_, hg ▸ hmade⟩
    obtain ⟨x, hx, -⟩ := hwords
    unfold Grant.amend
    rw [hx]
    rfl

/-! ### Runs -/

theorem EventRun.exists_stamp (h : EventRun t log es) :
    ∀ e ∈ es, ∃ now, e.word = Head.stamp (Head.eventWord e.event e.arg) now := by
  induction h with
  | start _ =>
    intro e he
    cases he
  | quiet _ _ _ ih => exact ih
  | idle _ _ _ _ _ ih => exact ih
  | event _ _ _ _ _ ih => exact List.forall_mem_cons.mpr ⟨⟨_, rfl⟩, ih⟩

theorem EventRun.made (h : EventRun t log es) (hspent : q → Spent 0 log) :
    ∀ g ∈ log, ∃ w, g.words = [w] ∧ Made q es g.cpu w := by
  induction h with
  | start _ =>
    intro g hg
    cases hg
  | quiet _ _ _ ih => exact ih hspent
  | idle _ _ _ _ _ ih => exact ih hspent
  | @event t log es platform event arg hrun htracing ih =>
    have hbefore : q → Spent 0 log := fun hq => by
      have hlater := hspent hq
      rw [Tracer.enter_traceEvent] at hlater
      exact hlater.of_book
    exact Made.observe (ih hbefore) (hrun.history.at platform) htracing hbefore

/-- The fields of an event below its code are those of its argument, or of the sign of its argument. -/
theorem EventRun.fields (h : EventRun t log es) (he : e ∈ es) (hranged : e.Ranged)
    (hpaired : Event.isPaired e.event = true) :
    Head.eventField.get e.word = e.event &&& ones 12 ∧ Head.argField.get e.word = Head.argField.get e.arg ∧
      Head.deltaField.get e.word = (if e.isLow then ones 8 else 0) ∧
      Head.retvalField.get e.word = if e.isLow then ones 8 else 0 := by
  obtain ⟨now, hword⟩ := h.exists_stamp e he
  rw [hword, Head.get_stamp (by decide), Head.get_stamp (by decide), Head.get_stamp (by decide),
    Head.get_stamp (by decide)]
  exact ⟨Head.event_eventWord .., Head.arg_eventWord ..,
    Head.get_eventWord_of_ranged (by decide) (by decide) hranged hpaired,
    Head.get_eventWord_of_ranged (by decide) (by decide) hranged hpaired⟩

theorem isPaired_of_foldable (h : Event.isFoldableReturn event = true) : Event.isPaired event = true :=
  (Bool.and_eq_true_iff.mp h).2

theorem isPaired_and_ones (event : UInt64) : Event.isPaired (event &&& ones 12) = Event.isPaired event := by
  unfold Event.isPaired
  rw [UInt64.and_assoc, show ones 12 &&& Event.pairedBits = Event.pairedBits by decide]

/-- A record of a trap, an interrupt or a system call is that of an event, or of a call with its return folded into
it. All of the latter look merged, and of the former the returns below the signed bytes. A return is written with
the low half of its value; elapsed time and return value are zero, or all ones if the value is below the signed
bytes. -/
theorem marks_of_records (h : EventRun t log es) (hranged : ∀ e ∈ es, e.Ranged) :
    (∀ b ∈ t.snapshot.1.blocks, ∀ r ∈ b.records, Event.isPaired r.head.event.toUInt64 = true →
      (∃ e ∈ es, e.IsWritten ∧ r.first = e.word ∧ (r.head.isMerged = true ↔ e.isLow = true)) ∨
      ∃ call ret, Absorbed es call ret r.first ∧ r.head.isMerged = true ∧
        r.head.event.toUInt64 &&& Event.returnBit = 0 ∧ (Spent 0 log → call.cpu = ret.cpu)) ∧
    ∀ e ∈ es, Event.isFoldableReturn e.event = true →
      (Head.ofWord e.word).arg = e.arg.toUInt16 ∧ (Head.ofWord e.word).delta = (if e.isLow then 0xff else 0) ∧
        (Head.ofWord e.word).retval = if e.isLow then 0xff else 0 := by
  have hmade := h.made (q := Spent 0 log) id
  have hwritten : ∀ g ∈ log, g.words ≠ [] := fun g hg => by
    obtain ⟨x, hx, -⟩ := hmade g hg
    simp [hx]
  refine ⟨fun b hb r hr hpaired => ?_, fun e he hfoldable => ?_⟩
  · obtain ⟨g, hg, hfirst⟩ := h.history.first_mem hwritten hb hr
    obtain ⟨w, hw, hmade⟩ := hmade g hg
    rw [hw, List.mem_singleton] at hfirst
    unfold Record.head at hpaired ⊢
    rw [Head.event_ofWord, hfirst] at hpaired
    rw [Head.event_ofWord, Head.isMerged_ofWord_iff, hfirst]
    cases hmade with
    | @written e he hwritten _ =>
      obtain ⟨now, hword⟩ := h.exists_stamp e he
      rw [hword, Head.get_stamp (by decide), Head.event_eventWord, isPaired_and_ones] at hpaired
      obtain ⟨-, -, hdelta, -⟩ := h.fields he (hranged e he) hpaired
      refine Or.inl ⟨e, he, hwritten, rfl, ?_⟩
      rw [hdelta]
      cases e.isLow <;> decide
    | @absorbed call ret _ habsorbed hcpu =>
      have hfolded := Head.folded_of_merge? habsorbed.merge
      obtain ⟨now, hword⟩ := h.exists_stamp ret habsorbed.ret_mem
      refine Or.inr ⟨call, ret, habsorbed, ?_, hfolded.not_return ?_, fun hspent => ?_⟩
      · rw [hfolded.delta, Ne, UInt64.or_eq_zero_iff]
        exact fun hzero => Head.elapsed_ne_zero _ _ hzero.2
      · rw [hword, Head.get_stamp (by decide)]
        exact Head.returnBit_eventWord habsorbed.foldable ret.arg
      · exact (hcpu hspent).1.trans (hcpu hspent).2.symm
  · obtain ⟨-, harg, hdelta, hretval⟩ := h.fields he (hranged e he) (isPaired_of_foldable hfoldable)
    unfold Head.ofWord
    dsimp only
    rw [harg, hdelta, hretval]
    refine ⟨?_, by cases e.isLow <;> rfl, by cases e.isLow <;> rfl⟩
    refine UInt16.toNat_inj.mp ?_
    rw [UInt64.toNat_toUInt16, UInt64.toNat_toUInt16, BitField.toNat_get]
    change e.arg.toNat / 2 ^ 0 % 2 ^ 16 % 2 ^ 16 = e.arg.toNat % 2 ^ 16
    omega

/-- A return of -200 is written, and then a call that absorbs its return. -/
theorem marks_of_records_of_low_return :
    ∃ (t : Tracer TimeOnly) (log : Ledger) (es : List Traced), EventRun t log es ∧ (∀ e ∈ es, e.Ranged) ∧
      log.map (·.words) = [[0x0006840101070001], [0x00064a01ffffff38]] ∧ es.map (·.isLow) = [false, false, true] ∧
      (∀ b ∈ t.snapshot.1.blocks, ∀ r ∈ b.records, Event.isPaired r.head.event.toUInt64 = true →
        (∃ e ∈ es, e.IsWritten ∧ r.first = e.word ∧ (r.head.isMerged = true ↔ e.isLow = true)) ∨
        ∃ call ret, Absorbed es call ret r.first ∧ r.head.isMerged = true ∧
          r.head.event.toUInt64 &&& Event.returnBit = 0 ∧ (Spent 0 log → call.cpu = ret.cpu)) ∧
      ∀ e ∈ es, Event.isFoldableReturn e.event = true →
        (Head.ofWord e.word).arg = e.arg.toUInt16 ∧ (Head.ofWord e.word).delta = (if e.isLow then 0xff else 0) ∧
          (Head.ofWord e.word).retval = if e.isLow then 0xff else 0 := by
  have hnew : History _ [] := .new (show Tracer.ofConfig ({} : TimeOnly) { blocks := 2 } = .ok _ from rfl)
  have hcalls := (((EventRun.start hnew).quiet {} (a := .execute .on) rfl).event { time := 100 } 0xa01
    0xffffffffffffff38 (by decide +kernel)).event { time := 104 } 0x401 1 (by decide +kernel)
  obtain ⟨hfolds, hword⟩ := (hcalls.history.at { time := 105 }).folds 0x601 7 (i := 8205)
    (x := 0x0006840100000001) (w := 0x0006840101070001) (g := ⟨0, ⟨8205, 1⟩, 0, false, 0, [0x0006840100000001]⟩)
    (by decide +kernel) (by decide +kernel) rfl (by decide +kernel) (by decide) (by decide) (by decide +kernel)
    (by decide +kernel) (by decide +kernel)
  obtain ⟨u, hrun, -⟩ := hcalls.fold hfolds
  refine ⟨u, _, _, hrun, ?ranged, by decide +kernel, by decide +kernel, marks_of_records hrun ?ranged⟩
  case ranged => decide +kernel

/-- A return of -200 is the only event of its session, but its record looks merged. -/
theorem low_return_looks_merged :
    ∃ (t : Tracer TimeOnly) (log : Ledger) (e : Traced), EventRun t log [e] ∧ e.Ranged ∧
      e.outcome = .written 0 ⟨8204, 1⟩ ∧ e.event = 0xa01 ∧ e.arg = 0xffffffffffffff38 ∧
      ∃ r, t.snapshot.1.recordsOf 0 = [r] ∧ r.words = [e.word] ∧
        r.head = ⟨100, 0xa01, 0xff, 0xff, 0xff38⟩ ∧ r.head.isMerged = true := by
  have hnew : History _ [] := .new (show Tracer.ofConfig ({} : TimeOnly) { blocks := 2 } = .ok _ from rfl)
  have hrun := ((EventRun.start hnew).quiet {} (a := .execute .on) rfl).event { time := 100 } 0xa01 0xffffffffffffff38
    (by decide +kernel)
  have hwords := (hrun.history.recordsOf_snapshot (by decide +kernel) (by decide +kernel) 0).trans
    (show _ = [[(0x00064a01ffffff38 : UInt64)]] by decide +kernel)
  obtain ⟨r, hr, hfirst⟩ := List.map_eq_singleton_iff.mp hwords
  have hhead : r.head = ⟨100, 0xa01, 0xff, 0xff, 0xff38⟩ := by
    unfold Record.head
    rw [(List.cons.inj hfirst).1]
    decide
  exact ⟨_, _, _, hrun, by decide +kernel, by decide +kernel, rfl, rfl, r, hr, hfirst.trans (by decide +kernel), hhead,
    hhead.symm ▸ (by decide)⟩

end EventRecorder
