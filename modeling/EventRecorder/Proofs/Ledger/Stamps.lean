import EventRecorder.Proofs.Block.Clock
import EventRecorder.Proofs.Ledger.Inscriptions

/-! # Block stamps

The clock of a session starts at zero, and it is asked for a stamp when a block is opened and at no other time. So the
stamps of a session are what a new clock tells for the readings at its openings: the times of the openings, as long as
a narrow counter has not gone round between two of them. -/

namespace EventRecorder

open Ledger LogView Arena
open BlockClock (Reading Times Steady)

variable {P : Type} [Platform P] {s t u : Tracer P} {a : Action} {names : PidSet} {ws : List UInt64} {log : Ledger}
  {cpu len : Nat} {span : Span}

/-- What a CPU inscribes on a block that it opens, and the reading that the clock is asked about then. -/
structure Stamping extends Inscription where
  reading : Reading
deriving DecidableEq

namespace Tracer

/-- What the time counter shows now. -/
def reading (t : Tracer P) : Reading := ⟨t.readTime.1, Platform.counterBits t.readTime.2.platform⟩

theorem clock_blockTaken (t : Tracer P) (cpu len : Nat) (o : Opening) (a : Arena) :
    (t.blockTaken cpu len o a).clock = (t.clock.stamp t.reading.raw t.reading.bits).2 := by
  obtain ⟨hplatform, hclock⟩ := t.frontierMoved_akin o a
  refine (((t.frontierMoved o a).laidOut cpu o).keeps_prepareCounters cpu).clock.trans ?_
  unfold laidOut reading readTime
  rw [hplatform, hclock]

/-- The clock is asked for a stamp when a claim does not fit. -/
theorem clock_of_claim (h : t.claim cpu len = (some span, u)) :
    u.clock = if (t.cursor cpu).fits len then t.clock else (t.clock.stamp t.reading.raw t.reading.bits).2 := by
  obtain ⟨hlen, hcpu⟩ := served_of_claim h
  cases hfits : (t.cursor cpu).fits len
  · obtain ⟨o, a, -, -, rfl⟩ := claim_opens h hfits
    obtain ⟨hplatform, hclock, -⟩ := t.overrun_akin cpu len
    rw [clock_blockTaken, if_neg Bool.false_ne_true]
    unfold reading readTime
    rw [hplatform, hclock]
  · rw [claim_of_fits hlen hcpu hfits] at h
    obtain ⟨-, rfl⟩ := Prod.mk.inj h
    rfl

/-- What the observer notes of an action that opens a block, with the reading. -/
def stamping? (t : Tracer P) (a : Action) : Option Stamping :=
  (t.inscription? a).map fun e => ⟨e, (if t.stamped a = [] then t else t.readTime.2).reading⟩

end Tracer

/-- The clock is asked when a block is opened. -/
theorem Effect.clock_of_written (h : Effect t names ws (.written cpu span) u) :
    u.clock = if (t.cursor cpu).fits span.len then t.clock else
      (t.clock.stamp (if ws = [] then t else t.readTime.2).reading.raw
        (if ws = [] then t else t.readTime.2).reading.bits).2 := by
  cases h with
  | claim hclaim =>
    rw [Tracer.len_of_claim (congrArg Prod.fst hclaim)]
    exact Tracer.clock_of_claim hclaim
  | @write s v first payload _ hakin hplatform hclaim =>
    have hclock := Tracer.clock_of_claim hclaim
    rw [hakin.cursor, hakin.clock] at hclock
    rw [(Tracer.keeps_noteRate ..).clock, if_neg (List.cons_ne_nil first payload),
      Tracer.len_of_claim (congrArg Prod.fst hclaim)]
    refine hclock.trans ?_
    unfold Tracer.reading Tracer.readTime
    rw [hplatform]
    rfl

/-- The clock is asked at no other time. -/
theorem Effect.clock_of_not_written {o : Outcome} (h : Effect t names ws o u) (ho : ∀ cpu span, o ≠ .written cpu span) :
    u.clock = t.clock := by
  cases h with
  | rest hakin _ => exact hakin.clock
  | flush =>
    exact (Tracer.keeps_flushAll _ t.off).clock.trans (Tracer.Akin.off t).clock
  | refuse hakin hclaim => exact (Tracer.keeps_of_refused hclaim).clock.trans hakin.clock
  | claim | write => exact absurd rfl (ho _ _)
  | fold hakin => exact (Tracer.keeps_noteReturnRate ..).clock.trans hakin.clock

/-- What an observer of openings has noted, the latest first, is told by a clock that was asked about their readings. -/
structure Clocked (t : Tracer P) (es : List Stamping) : Prop where
  clock : t.clock = BlockClock.after {} (es.map (·.reading)).reverse
  stamps : (es.map (·.stamp)).reverse = BlockClock.stamps {} (es.map (·.reading)).reverse

namespace Clocked

variable {es : List Stamping}

omit [Platform P] in
theorem congr (h : Clocked t es) (hclock : u.clock = t.clock) : Clocked u es := ⟨hclock.trans h.clock, h.stamps⟩

omit [Platform P] in
theorem cons (h : Clocked t es) {e : Stamping} (hstamp : e.stamp = (t.clock.stamp e.reading.raw e.reading.bits).1)
    (hclock : u.clock = (t.clock.stamp e.reading.raw e.reading.bits).2) : Clocked u (e :: es) := by
  rw [h.clock] at hstamp hclock
  constructor
  · rw [List.map_cons, List.reverse_cons, BlockClock.after_append]
    exact hclock
  · rw [List.map_cons, List.map_cons, List.reverse_cons, List.reverse_cons, BlockClock.stamps_append, h.stamps, hstamp]
    rfl

theorem perform (h : Clocked t es) (hgoes : (a.isReset && !t.tracing) = false) :
    Clocked (t.perform a).2 ((t.stamping? a).toList ++ es) := by
  have heffect := Tracer.perform_effect hgoes
  unfold Tracer.stamping? Tracer.inscription?
  cases hout : t.outcome a with
  | dropped =>
    rw [hout] at heffect
    exact h.congr (heffect.clock_of_not_written fun _ _ => Outcome.noConfusion)
  | merged cpu i =>
    rw [hout] at heffect
    exact h.congr (heffect.clock_of_not_written fun _ _ => Outcome.noConfusion)
  | written cpu span =>
    rw [hout] at heffect
    have hclock := heffect.clock_of_written
    dsimp only
    cases hfits : (t.cursor cpu).fits span.len with
    | true =>
      rw [hfits] at hclock
      exact h.congr hclock
    | false =>
      rw [hfits, if_neg Bool.false_ne_true] at hclock
      rw [if_neg Bool.false_ne_true]
      refine h.cons ?_ hclock
      split <;> rfl

end Clocked

section Observed
variable {es : List Stamping}

theorem Observed.clocked (h : Observed Tracer.stamping? t log es) : Clocked t es := by
  refine h.induction (I := fun t _ es => Clocked t es) (fun t hclock _ => ⟨hclock, rfl⟩) ?_
  intro t log es platform a _ hgoes ih
  exact Clocked.perform (t := t.at platform) ⟨ih.clock, ih.stamps⟩ hgoes

/-- The observer of openings notes what is inscribed. -/
theorem Observed.inscriptions (h : Observed Tracer.stamping? t log es) :
    Observed Tracer.inscription? t log (es.map (·.toInscription)) := by
  induction h with
  | new hnew => exact .new hnew
  | @act t log es platform a _ ih =>
    have hact := ih.act platform a
    convert hact using 1
    cases a.isReset && !t.tracing
    · rw [if_neg Bool.false_ne_true, if_neg Bool.false_ne_true, List.map_append]
      congr 1
      unfold Tracer.stamping?
      cases (t.at platform).inscription? a <;> rfl
    · rfl

/-- The header of an opened block has the stamp of its last opening. -/
theorem Observed.header_stamp (h : Observed Tracer.stamping? t log es) {k : Nat} (hk : k < t.arena.claimed) :
    ∃ e, es.find? (·.block == k) = some e ∧ (t.arena.header k).timestamp.toNat = e.stamp.toNat % 2 ^ 56 := by
  obtain ⟨e, he, hintact⟩ := h.inscriptions.intact hk
  rw [List.find?_map] at he
  obtain ⟨e', he', rfl⟩ := Option.map_eq_some_iff.mp he
  have hblock : (e'.block == k) = true := List.find?_some (p := fun e : Stamping => e.block == k) he'
  exact ⟨e', he', eq_of_beq hblock ▸ hintact.timestamp⟩

/-- A stamp is the first time from the last one on that the counter shows as it is read, and so block stamps never go
backwards. New and reset tracers have a new clock, which tells the times of steady readings. In every session the
stamps of the blocks are the times of the readings. -/
theorem stamps_tell_times {bits : Nat} (hbits : bits < 64) :
    (∀ (c : BlockClock) (raw : UInt64) (n : Nat), raw.toNat < 2 ^ bits →
      BlockClock.IsNext bits c.prior.toNat raw.toNat n → n < 2 ^ 64 →
      (c.stamp raw bits).1.toNat = n ∧ (c.stamp raw bits).2.prior = (c.stamp raw bits).1 ∧
        c.prior ≤ (c.stamp raw bits).1) ∧
    (∀ times, Steady bits times → (∀ T ∈ times, T < 2 ^ 64) →
      (BlockClock.stamps {} (times.map (.at bits))).map UInt64.toNat = times) ∧
    (∀ (platform : P) config t, Tracer.ofConfig platform config = .ok t → t.clock = {}) ∧
    (∀ (t : Tracer P) mode, t.tracing = false → (t.reset mode).2.clock = {}) ∧
    ∀ (t : Tracer P) log es times, Observed Tracer.stamping? t log es → Times 0 (es.map (·.reading)).reverse times →
      (es.map (·.stamp.toNat)).reverse = times ∧ times.Pairwise (· ≤ ·) ∧
      ∀ k < t.arena.claimed, ∃ e, es.find? (·.block == k) = some e ∧
        (t.arena.header k).timestamp.toNat = e.stamp.toNat % 2 ^ 56 := by
  refine ⟨fun c raw n hraw hnext hn => ?_, fun times hsteady hfits => ?_, fun platform config t hnew => ?_,
    fun t mode hoff => ?_, fun t log es times hobserved htimes => ⟨?_, ?_, fun k hk => hobserved.header_stamp hk⟩⟩
  · have hstamp := BlockClock.toNat_stamp hbits hraw hnext hn
    refine ⟨hstamp, BlockClock.prior_stamp c raw bits, ?_⟩
    rw [UInt64.le_iff_toNat_le, hstamp]
    exact hnext.1.1
  · exact (BlockClock.times_at hbits hsteady hfits).toNat_stamps rfl
  · obtain ⟨-, rfl⟩ := Tracer.eq_made hnew
    rfl
  · unfold Tracer.reset
    rw [hoff]
    rfl
  · have hstamps := htimes.toNat_stamps (c := {}) rfl
    rw [← hobserved.clocked.stamps, List.map_reverse, List.map_map] at hstamps
    exact hstamps
  · exact (List.isChain_iff_pairwise.mp htimes.isChain).tail

/-- A counter of eight bits goes round between the first two of three blocks. -/
theorem stamps_tell_times_of_lap :
    (8 < 64 ∧ Steady 8 [250, 260, 300, 300]) ∧
    (BlockClock.stamps {} [⟨250, 8⟩, ⟨4, 8⟩, ⟨44, 8⟩, ⟨44, 8⟩]).map UInt64.toNat = [250, 260, 300, 300] ∧
    ∃ (t : Tracer Simulated) (log : Ledger) (es : List Stamping), Observed Tracer.stamping? t log es ∧
      es = [⟨⟨2, 2, 300, .idle⟩, ⟨44, 8⟩⟩, ⟨⟨1, 1, 260, .idle⟩, ⟨4, 8⟩⟩, ⟨⟨0, 0, 250, .idle⟩, ⟨250, 8⟩⟩] ∧
      Times 0 (es.map (·.reading)).reverse [250, 260, 300] ∧
      (es.map (·.stamp.toNat)).reverse = [250, 260, 300] ∧ t.arena.claimed = 3 ∧
      ∀ k < t.arena.claimed, ∃ e, es.find? (·.block == k) = some e ∧
        (t.arena.header k).timestamp.toNat = e.stamp.toNat % 2 ^ 56 := by
  obtain ⟨-, hsteady, -, -, hsession⟩ := stamps_tell_times (P := Simulated) (show 8 < 64 by decide)
  have hnew : Observed Tracer.stamping? _ [] [] :=
    .new (show Tracer.ofConfig ({} : Simulated) { blocks := 3, cpus := 3 } = .ok _ from rfl)
  have hrun := ((hnew.act { time := 250, bits := 8 } (.insert 1 [])).act { time := 260, bits := 8, cpu := 1 }
    (.insert 2 [])).act { time := 300, bits := 8, cpu := 2 } (.insert 3 [])
  obtain ⟨t, log, es, hobserved, hes, hclaimed⟩ : ∃ (t : Tracer Simulated) (log : Ledger) (es : List Stamping),
      Observed Tracer.stamping? t log es ∧
        es = [⟨⟨2, 2, 300, .idle⟩, ⟨44, 8⟩⟩, ⟨⟨1, 1, 260, .idle⟩, ⟨4, 8⟩⟩, ⟨⟨0, 0, 250, .idle⟩, ⟨250, 8⟩⟩] ∧
        t.arena.claimed = 3 := ⟨_, _, _, hrun, by decide +kernel, by decide +kernel⟩
  have htimes : Times 0 (es.map (·.reading)).reverse [250, 260, 300] := by
    rw [hes]
    exact (BlockClock.times_at (by decide) (by decide) (by decide) : Times 0 ([250, 260, 300].map (.at 8)) _)
  obtain ⟨hstamps, -, hheaders⟩ := hsession t log es _ hobserved htimes
  exact ⟨⟨by decide, by decide⟩, hsteady [250, 260, 300, 300] (by decide) (by decide), t, log, es, hobserved, hes, htimes,
    hstamps, hclaimed, hheaders⟩

end Observed

end EventRecorder
