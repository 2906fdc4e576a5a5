import EventRecorder.Proofs.Rates.Lanes
import EventRecorder.Proofs.Sessions.Flushes

/-! # What rates are measured from

A rate is measured when a record is written or a return is folded, from the readings of the CPU then and the ones
before. Nothing else that a tracer does within a session changes a rate or the readings that a CPU keeps. -/

namespace EventRecorder

open Ledger LogView Arena

variable {P : Type} {cpu i j len : Nat} {log : Ledger} {now : UInt64} {span : Span}

/-- The time and the instructions that a CPU has counted. -/
structure Reading where
  time : UInt64
  instructions : UInt64
deriving DecidableEq

/-- The bucket of the rate between two readings. The counters wrap around. -/
def Reading.bucket (prior now : Reading) : UInt8 :=
  UInt8.ofNat (Rate.ofDeltas (now.instructions - prior.instructions) (now.time - prior.time))

/-- The readings at the last event of a CPU whose rate was measured. -/
def Cursor.prior (c : Cursor) : Reading := ⟨c.priorTime, c.priorInstructions⟩

/-- A rate measured on a CPU, for the record that starts at a word, or for a return folded into that word. -/
structure Measurement where
  cpu : Nat
  place : Nat
  /-- The return that was folded; none if a record was written. -/
  ret? : Option UInt64
  reading : Reading
deriving DecidableEq

/-- The rate byte of a word once a bucket is measured for it: a record begins a new byte, a return adds to the byte of
the record that absorbed it. -/
def Measurement.mark (m : Measurement) (old bucket : UInt8) : UInt8 :=
  if m.ret?.isSome then old ||| bucket <<< 4 else bucket

namespace Tracer

variable {s t u : Tracer P} {f : Cursor → Cursor}

/-- Neither a rate nor a reading that a CPU keeps differs from `t` to `u`. -/
structure Unmeasured (t u : Tracer P) : Prop where
  limit : u.arena.limit = t.arena.limit
  below : ∀ i < t.arena.limit, u.arena.word i = t.arena.word i
  prior : ∀ c, (u.cursor c).prior = (t.cursor c).prior

/-- `u` differs from `t` by a measurement. -/
structure Measured (t u : Tracer P) (m : Measurement) : Prop where
  place : t.arena.limit ≤ m.place ∧ m.place < t.arena.high ∧ m.place / 8 < t.arena.limit
  rate : u.arena.rate m.place = m.mark (t.arena.rate m.place) ((t.cursor m.cpu).prior.bucket m.reading)
  rate_of_ne : ∀ i, i ≠ m.place → i / 8 < t.arena.limit → u.arena.rate i = t.arena.rate i
  prior : (u.cursor m.cpu).prior = m.reading
  prior_of_ne : ∀ c, c ≠ m.cpu → (u.cursor c).prior = (t.cursor c).prior

/-! ### What measures nothing -/

namespace Unmeasured

theorem refl (t : Tracer P) : Unmeasured t t := ⟨rfl, fun _ _ => rfl, fun _ => rfl⟩

theorem trans (h₁ : Unmeasured s t) (h₂ : Unmeasured t u) : Unmeasured s u :=
  ⟨h₂.limit.trans h₁.limit, fun i hi => (h₂.below i (h₁.limit.symm ▸ hi)).trans (h₁.below i hi),
    fun c => (h₂.prior c).trans (h₁.prior c)⟩

theorem rate (h : Unmeasured t u) (hi : i / 8 < t.arena.limit) : u.arena.rate i = t.arena.rate i :=
  rate_congr (h.below _ hi)

theorem of_akin (h : Akin t u) : Unmeasured t u :=
  ⟨congrArg Arena.limit h.arena, fun i _ => congrArg (Arena.word · i) h.arena, fun c => congrArg Cursor.prior (h.cursor c)⟩

theorem of_cursors (hc : u.cursors = t.cursors) (hl : u.arena.limit = t.arena.limit)
    (hw : ∀ i < t.arena.limit, u.arena.word i = t.arena.word i) : Unmeasured t u :=
  ⟨hl, hw, fun c => congrArg (fun cursors : Array Cursor => (cursors.getD c {}).prior) hc⟩

theorem modifyCursor (t : Tracer P) (cpu : Nat) (hf : ∀ c, (f c).prior = c.prior) :
    Unmeasured t (t.modifyCursor cpu f) :=
  ⟨rfl, fun _ _ => rfl, field_modifyCursor Cursor.prior hf⟩

theorem closeBlock (t : Tracer P) (limit stop : Nat) : Unmeasured t (t.closeBlock limit stop) :=
  of_cursors rfl (SameFrontier.close ..).limit fun _ _ => word_close ..

theorem overrun (t : Tracer P) (cpu len : Nat) : Unmeasured t (t.overrun cpu len) := by
  unfold Tracer.overrun
  dsimp only
  split
  · exact modifyCursor t cpu fun _ => by rfl
  · exact ((modifyCursor t cpu fun _ => by rfl).trans (closeBlock ..)).trans (modifyCursor _ cpu fun _ => by rfl)

theorem flushCpu (h : (t.cursor cpu).hasRoom = true → t.arena.limit ≤ (t.cursor cpu).next) :
    Unmeasured t (t.flushCpu cpu) := by
  unfold Tracer.flushCpu
  dsimp only
  split
  · rename_i hroom
    have hlow := h hroom
    have hclose := closeBlock t (t.cursor cpu).limit (t.cursor cpu).next
    refine (hclose.trans ?_).trans (modifyCursor _ cpu fun _ => by rfl)
    refine of_cursors rfl (SameFrontier.zero ..).limit fun i hi => word_zero_of_outside (Or.inl ?_)
    rw [hclose.limit] at hi
    exact Nat.lt_of_lt_of_le hi hlow
  · exact refl t

theorem flushAll (h : ∀ c, (t.cursor c).hasRoom = true → t.arena.limit ≤ (t.cursor c).next) (cpus : List Nat) :
    Unmeasured t (cpus.foldl Tracer.flushCpu t) := by
  induction cpus generalizing t with
  | nil => exact refl t
  | cons cpu cpus ih =>
    have hfirst := flushCpu (h cpu)
    refine hfirst.trans (ih fun c hroom => ?_)
    rw [hfirst.limit, cursor_flushCpu hroom]
    exact h c (hasRoom_of_flushCpu hroom).1

end Unmeasured

/-- A CPU with room stands above the limit. -/
theorem place_of_room (hp : Placed t.mode t.view (shape log)) (hroom : (t.cursor cpu).hasRoom = true) :
    cpu < t.cursors.size ∧ t.arena.limit < (t.cursor cpu).next ∧ (t.cursor cpu).next < t.arena.high := by
  obtain ⟨p, hlatest, hnext, hlimit, hin⟩ := hp.latest_of_hasRoom hroom
  have hcpu : p.cpu < t.cursors.size := hin.cpu
  rw [cpu_of_latest? hlatest] at hcpu
  obtain ⟨hlow, -⟩ := hp.bounds_of_inside hin
  have hlen := hin.len
  have hhigh : (t.cursor cpu).limit ≤ t.arena.high := hp.limit_le_high cpu
  have hlt := Cursor.hasRoom_iff.mp hroom
  change t.arena.limit ≤ p.span.start at hlow
  replace hnext : (t.cursor cpu).next = p.span.start + p.span.len := hnext
  omega

theorem Unmeasured.flush (hp : Placed t.mode t.view (shape log)) : Unmeasured t t.flush.2 := by
  have habove : ∀ c, (t.off.cursor c).hasRoom = true → t.off.arena.limit ≤ (t.off.cursor c).next := fun c hroom => by
    rw [(Akin.off t).arena, (Akin.off t).cursor]
    rw [(Akin.off t).cursor] at hroom
    exact Nat.le_of_lt (place_of_room hp hroom).2.1
  exact ((of_akin (Akin.off t)).trans (flushAll habove _)).trans ⟨rfl, fun _ _ => rfl, fun _ => rfl⟩

variable [Platform P]

/-! ### Claims -/

theorem Unmeasured.prepareCounters (t : Tracer P) (cpu : Nat) : Unmeasured t (t.prepareCounters cpu) := by
  unfold Tracer.prepareCounters
  split
  · exact refl t
  · have hset : Unmeasured t { t with platform := Platform.setUpCounters t.platform cpu } :=
      ⟨rfl, fun _ _ => rfl, fun _ => rfl⟩
    exact hset.trans (modifyCursor _ cpu fun _ => by rfl)

/-- A block is taken above the limit. -/
theorem Unmeasured.blockTaken {o : Opening} {a : Arena} {n : Nat} (h : t.arena.Takes n o a) (ho : t.arena.Opened n)
    (cpu len : Nat) : Unmeasured t (t.blockTaken cpu len o a) := by
  have hlow : t.arena.limit ≤ o.start := h.start ▸ ho.limit_le_blockStart h.block_lt
  obtain ⟨harena, hcursors, -⟩ := t.frontierMoved_same o a
  have hmoved : Unmeasured t (t.frontierMoved o a) :=
    of_cursors hcursors ((congrArg Arena.limit harena).trans h.limit) fun i _ =>
      (congrArg (Arena.word · i) harena).trans (word_of_words h.words i)
  have hlaid : Unmeasured (t.frontierMoved o a) ((t.frontierMoved o a).laidOut cpu o) := by
    refine of_cursors rfl (SameFrontier.layOut ..).limit fun i hi => word_layOut_of_outside _ _ _ (Or.inl ?_)
    rw [hmoved.limit] at hi
    exact Nat.lt_of_lt_of_le hi hlow
  unfold Tracer.blockTaken
  rw [startBlock_eq]
  refine (((hmoved.trans hlaid).trans (prepareCounters _ cpu)).trans ?_).trans (modifyCursor _ cpu fun _ => by rfl)
  exact of_cursors rfl (SameFrontier.startFilling ..).limit fun i _ => word_startFilling ..

theorem Unmeasured.of_claim {r : Option Span × Tracer P} (hp : Placed t.mode t.view (shape log))
    (h : t.claim cpu len = r) : Unmeasured t r.2 := by
  rw [← h]
  cases hlen : Event.isValidLength len
  · rw [claim_of_invalid hlen]
    exact ⟨rfl, fun _ _ => rfl, fun _ => rfl⟩
  rcases Nat.lt_or_ge cpu t.cursors.size with hcpu | hunserved
  · rw [claim_eq hlen hcpu]
    split
    · exact modifyCursor t cpu fun _ => rfl
    · have hover := overrun t cpu len
      have hsame := t.overrun_sameFrontier cpu len
      generalize t.overrun cpu len = s at hover hsame ⊢
      have ho := hp.opened.of_sameFrontier hsame
      refine hover.trans ?_
      rcases hopen : s.arena.openBlock s.mode.wraps with ⟨_ | o, a⟩
      · obtain ⟨hwords, -, hlimit⟩ := openBlock_none_same hopen
        unfold Tracer.claimFresh
        rw [hopen]
        dsimp only
        split <;> exact of_cursors rfl hlimit fun i _ => word_of_words hwords i
      · rw [claimFresh_of_openBlock hopen]
        exact blockTaken (ho.takes hopen) ho cpu len
  · rw [claim_of_unserved hlen hunserved]
    exact refl t

/-- The platform once words are claimed. A CPU that opens a block reads the time again and, at its first block, sets up
its counters. -/
def platformAfter (t : Tracer P) (cpu len : Nat) : P :=
  if (t.cursor cpu).fits len then t.platform
  else
    let p := (Platform.readTime t.platform).2
    if (t.cursor cpu).ready then p else Platform.setUpCounters p cpu

theorem platformAfter_congr (hp : s.platform = t.platform) (hc : s.cursor cpu = t.cursor cpu) :
    s.platformAfter cpu len = t.platformAfter cpu len := by
  unfold platformAfter
  rw [hp, hc]

theorem platform_of_claim (h : t.claim cpu len = (some span, u)) : u.platform = t.platformAfter cpu len := by
  obtain ⟨hlen, hcpu⟩ := served_of_claim h
  unfold platformAfter
  cases hfits : (t.cursor cpu).fits len with
  | true =>
    rw [claim_of_fits hlen hcpu hfits] at h
    obtain ⟨-, rfl⟩ := Prod.mk.inj h
    rfl
  | false =>
    obtain ⟨o, a, -, -, rfl⟩ := claim_opens h hfits
    have hready : ((t.overrun cpu len).cursor cpu).ready = (t.cursor cpu).ready := by
      unfold overrun
      dsimp only
      split
      · exact field_modifyCursor Cursor.ready (fun _ => by rfl) cpu
      · refine (field_modifyCursor Cursor.ready (fun _ => by rfl) cpu).trans ?_
        exact field_modifyCursor (t := t) Cursor.ready (fun _ => by rfl) cpu
    obtain ⟨hplatform, -⟩ := t.overrun_akin cpu len
    generalize t.overrun cpu len = s at hready hplatform ⊢
    obtain ⟨hplatform', -⟩ := s.frontierMoved_akin o a
    obtain ⟨-, hcursors, -⟩ := s.frontierMoved_same o a
    have hlaid : ((s.frontierMoved o a).laidOut cpu o).cursor cpu = s.cursor cpu :=
      congrArg (fun cursors : Array Cursor => cursors.getD cpu {}) hcursors
    change (((s.frontierMoved o a).laidOut cpu o).prepareCounters cpu).platform = _
    unfold prepareCounters
    rw [hlaid, hready, if_neg Bool.false_ne_true]
    dsimp only
    rw [← hplatform, ← hplatform']
    split <;> rfl

/-! ### Measurements -/

theorem measureRate_eq (t : Tracer P) (cpu : Nat) (now : UInt64) :
    t.measureRate cpu now =
      ((t.cursor cpu).prior.bucket ⟨now, t.readInstructions.1⟩,
        t.readInstructions.2.modifyCursor cpu
          ({ · with priorTime := now, priorInstructions := t.readInstructions.1 })) := rfl

/-- The cursor of a CPU keeps the readings that a rate was measured from. -/
theorem Measured.of_rate {m : Measurement} {a : Arena} (hcpu : m.cpu < t.cursors.size)
    (hcount : m.reading.instructions = t.readInstructions.1)
    (hplace : t.arena.limit ≤ m.place ∧ m.place < t.arena.high ∧ m.place / 8 < t.arena.limit)
    (hrate : a.rate m.place = m.mark (t.arena.rate m.place) ((t.cursor m.cpu).prior.bucket m.reading))
    (hne : ∀ i, i ≠ m.place → a.rate i = t.arena.rate i) :
    Measured t { (t.measureRate m.cpu m.reading.time).2 with arena := a } m := by
  refine ⟨hplace, hrate, fun i hi _ => hne i hi, ?_, fun c hc => ?_⟩
  · rw [measureRate_eq, ← hcount]
    exact congrArg Cursor.prior (cursor_modifyCursor hcpu)
  · rw [measureRate_eq]
    exact congrArg Cursor.prior (cursor_modifyCursor_of_ne hc)

theorem noteRate_measured (hrates : t.mode.rates = true) (hcpu : cpu < t.cursors.size)
    (hplace : t.arena.limit ≤ i ∧ i < t.arena.high ∧ i / 8 < t.arena.limit) :
    Measured t (t.noteRate cpu i now) ⟨cpu, i, none, now, t.readInstructions.1⟩ := by
  unfold noteRate
  rw [if_pos hrates]
  have hword : i / 8 < t.arena.high := by omega
  exact .of_rate (m := ⟨cpu, i, none, now, t.readInstructions.1⟩) hcpu rfl hplace (rate_setRate hword _) fun j hj =>
    rate_setRate_of_ne (Ne.symm hj) _

theorem noteReturnRate_measured (hrates : t.mode.rates = true) (hcpu : cpu < t.cursors.size)
    (hplace : t.arena.limit ≤ i ∧ i < t.arena.high ∧ i / 8 < t.arena.limit) (ret : UInt64) :
    Measured t (t.noteReturnRate cpu i now) ⟨cpu, i, some ret, now, t.readInstructions.1⟩ := by
  unfold noteReturnRate
  rw [if_pos hrates]
  have hword : i / 8 < t.arena.high := by omega
  exact .of_rate (m := ⟨cpu, i, some ret, now, t.readInstructions.1⟩) hcpu rfl hplace (rate_orRate hword _) fun j hj =>
    rate_orRate_of_ne (Ne.symm hj) _

omit [Platform P] in
theorem Unmeasured.measured {m : Measurement} (h : Unmeasured t s) (hm : Measured s u m)
    (hhigh : s.arena.high = t.arena.high) : Measured t u m := by
  have hplace := hm.place
  rw [h.limit, hhigh] at hplace
  refine ⟨hplace, ?_, fun i hi hlow => ?_, hm.prior, fun c hc => (hm.prior_of_ne c hc).trans (h.prior c)⟩
  · rw [hm.rate, h.rate hplace.2.2, h.prior]
  · rw [hm.rate_of_ne i hi (h.limit.symm ▸ hlow), h.rate hlow]

/-- What an action that asks for the words `ws` measures, in a session that measures rates. -/
def measurement (t : Tracer P) : (ws : List UInt64) → Outcome → Option Measurement
  | _ :: _, .written cpu span =>
    some ⟨cpu, span.start, none, t.readTime.1, (Platform.readInstructions (t.readTime.2.platformAfter cpu span.len)).1⟩
  | ret :: _, .merged cpu i =>
    some ⟨cpu, i, some ret, t.readTime.1, (Platform.readInstructions t.readTime.2.platform).1⟩
  | _, _ => none

def measurement? (t : Tracer P) (a : Action) : Option Measurement := t.measurement (t.stamped a) (t.outcome a)

/-- `u` differs from `t` by the measurement that was made, if any. -/
def MeasuredBy (t u : Tracer P) : Option Measurement → Prop
  | none => Unmeasured t u
  | some m => Measured t u m

/-- Words are granted between the limit and the top, in an arena that keeps its size. -/
theorem bounds_of_claim (hp : Placed t.mode t.view (shape log)) (h : t.claim cpu len = (some span, u)) :
    t.arena.limit ≤ span.start ∧ span.start + len ≤ t.arena.high ∧ u.arena.blocks = t.arena.blocks := by
  have hgrants := claim_grants t log cpu len
  rw [h] at hgrants
  obtain ⟨rfl, -, hwrite⟩ := hgrants
  have hleads := hwrite [] (Or.inl rfl)
  have hplaced := hleads.placed hp
  obtain ⟨hlow, hstop⟩ := hplaced.bounds_of_inside (hplaced.placing.inside _ List.mem_cons_self)
  obtain ⟨hblocks, hlimit⟩ := hleads.same_layout
  rw [← high_congr hblocks]
  exact ⟨hlimit ▸ hlow, hstop, hblocks⟩

theorem span_of_claim (hp : Placed t.mode t.view (shape log)) (h : t.claim cpu len = (some span, u)) :
    t.arena.limit ≤ span.start ∧ span.start < t.arena.high := by
  obtain ⟨hlow, hstop, -⟩ := bounds_of_claim hp h
  obtain ⟨hpos, -⟩ := isValidLength_iff.mp (served_of_claim h).1
  exact ⟨hlow, by omega⟩

/-- A record that is written is measured. -/
theorem write_measured {payload : List UInt64} (hp : Placed t.mode t.view (shape log)) (hrates : t.mode.rates = true)
    (h : t.claim cpu (payload.length + 1) = (some span, u)) (now first : UInt64) :
    Measured t ({ u with arena := u.arena.setWords span.start (first :: payload) }.noteRate cpu span.start now)
      ⟨cpu, span.start, none, now, (Platform.readInstructions (t.platformAfter cpu (payload.length + 1))).1⟩ := by
  obtain ⟨hlow, hstart⟩ := span_of_claim hp h
  have hgrants := claim_grants t log cpu (payload.length + 1)
  rw [h] at hgrants
  obtain ⟨-, ⟨l, hmoved, -⟩, hwrite⟩ := hgrants
  have hleads := hwrite (first :: payload) (Or.inr rfl)
  obtain ⟨hblocks, hlimit⟩ := hleads.same_layout
  have hhigh := high_congr hblocks
  have hunmeasured : Unmeasured t u := .of_claim hp h
  have hwritten : Unmeasured u { u with arena := u.arena.setWords span.start (first :: payload) } :=
    .of_cursors rfl (SameFrontier.setWords ..).limit fun i hi =>
      word_setWords_of_outside _ (Or.inl (Nat.lt_of_lt_of_le (hunmeasured.limit ▸ hi) hlow))
  have hcpu : cpu < u.cursors.size := hmoved.cpus.symm ▸ (served_of_claim h).2
  rw [← platform_of_claim h]
  refine (hunmeasured.trans hwritten).measured (noteRate_measured (hleads.mode ▸ hrates) hcpu ?_) hhigh
  rw [hlimit, hhigh]
  exact ⟨hlow, hstart, hp.rate_lt_limit_of_high hrates hstart⟩

/-- A return that is folded is measured. -/
theorem fold_measured {ret w : UInt64} (hp : Placed t.mode t.view (shape log)) (hrates : t.mode.rates = true)
    (h : t.merged? cpu ret = some (i, w)) (now : UInt64) :
    Measured t ({ t with arena := t.arena.setWord i w }.noteReturnRate cpu i now)
      ⟨cpu, i, some ret, now, (Platform.readInstructions t.platform).1⟩ := by
  obtain ⟨hroom, rfl, -⟩ := merged?_eq_some_iff.mp h
  obtain ⟨hcpu, hlow, hhigh⟩ := place_of_room hp hroom
  have hstart : (t.cursor cpu).next - 1 < t.arena.high := by omega
  have hfolded : Unmeasured t { t with arena := t.arena.setWord ((t.cursor cpu).next - 1) w } :=
    .of_cursors rfl rfl fun i hi => word_setWord_of_ne _ (by omega)
  have hplace := hp.rate_lt_limit_of_high hrates hstart
  refine hfolded.measured (noteReturnRate_measured ?_ ?_ ?_ ret) rfl
  · exact hrates
  · exact hcpu
  · exact ⟨Nat.le_sub_one_of_lt hlow, hstart, hplace⟩

end Tracer

variable [Platform P] {s t u : Tracer P} {names : PidSet} {ws : List UInt64} {o : Outcome}

/-- What an action does to the rates and to the readings of the CPUs is told by its measurement. -/
theorem Effect.measured (h : Effect t names ws o u) (hp : Placed t.mode t.view (shape log)) (hrates : t.mode.rates = true) :
    t.MeasuredBy u (t.measurement ws o) := by
  have hnone : ∀ ws, t.measurement ws .dropped = none := fun ws => by cases ws <;> rfl
  cases h with
  | rest hakin _ =>
    rw [hnone]
    exact .of_akin hakin
  | flush =>
    rw [hnone]
    exact .flush hp
  | refuse hakin hclaim =>
    rw [hnone]
    exact (Tracer.Unmeasured.of_akin hakin).trans (.of_claim (hakin.placed hp) hclaim)
  | claim hclaim => exact .of_claim hp hclaim
  | @write s u first payload span hakin hplatform hclaim =>
    have hmeasured := Tracer.write_measured (hakin.placed hp) (hakin.mode ▸ hrates) hclaim t.readTime.1 first
    have hlen : span.len = payload.length + 1 := Tracer.len_of_claim (congrArg Prod.fst hclaim)
    rw [Tracer.platformAfter_congr hplatform (hakin.cursor _), ← hlen] at hmeasured
    exact (Tracer.Unmeasured.of_akin hakin).measured hmeasured (congrArg Arena.high hakin.arena)
  | @fold s ret w i hakin hplatform hmerge =>
    have hmeasured := Tracer.fold_measured (hakin.placed hp) (hakin.mode ▸ hrates) hmerge t.readTime.1
    unfold Tracer.measurement
    rw [← hplatform]
    exact (Tracer.Unmeasured.of_akin hakin).measured hmeasured (congrArg Arena.high hakin.arena)

end EventRecorder
