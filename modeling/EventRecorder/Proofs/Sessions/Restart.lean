import EventRecorder.Platform.TimeOnly
import EventRecorder.Proofs.Ledger.Contents
import EventRecorder.Proofs.Sessions.Alike

/-! # Restarts

A reset does not clear the words of the arena, and yet a session owes nothing to the sessions before it: two
tracers with one configuration, whatever they recorded, answer alike once they are reset. Only what a session
neither writes nor clears can show old words: words that were claimed and not written, the words of rates, and the
words ahead of a CPU that still writes to its block. -/

namespace EventRecorder

open Ledger LogView Arena

variable {P : Type}

/-! ### Actions that show no old words -/

namespace Command

/-- The command asks for a word of rates. -/
def readsRates : Command → Bool
  | rateWord _ => true
  | _ => false

/-- The index of the word of the raw view that the command asks for. -/
def rawWord? : Command → Option UInt64
  | rawWord i => some i
  | _ => none

end Command

namespace Action

/-- The action leaves no words unwritten and reads no rates. -/
def isTidy (a : Action) : Bool :=
  match a with
  | .claim .. | .snapshot => false
  | a => !a.command?.any (·.readsRates)

/-- The index of the word of the raw view that the action asks for. -/
def rawWord? (a : Action) : Option UInt64 := a.command?.bind (·.rawWord?)

end Action

namespace Tracer

variable {t u : Tracer P} {b : Arena} {c cpu n : Nat} {log log' : Ledger}

/-! ### Flushed tracers -/

theorem sum_eq_zero_iff {l : List Nat} : l.foldr (· + ·) 0 = 0 ↔ ∀ n ∈ l, n = 0 := by
  induction l with
  | nil => simp
  | cons n l ih => rw [List.foldr_cons, List.forall_mem_cons, Nat.add_eq_zero_iff, ih]

theorem lt_size_of_hasRoom (h : (t.cursor c).hasRoom = true) : c < t.cursors.size := by
  by_contra hge
  unfold cursor at h
  rw [Array.getD_eq_getD_getElem?, Array.getElem?_eq_none (Nat.le_of_not_lt hge)] at h
  cases h

/-- No room is left if no CPU can still write to its block. -/
theorem room_eq_zero_iff : t.room = 0 ↔ ∀ c, (t.cursor c).hasRoom = false := by
  have hroom : ∀ c, t.roomOf c = 0 ↔ (t.cursor c).hasRoom = false := fun c => by
    unfold roomOf Cursor.hasRoom
    rw [decide_eq_false_iff_not, Nat.sub_eq_zero_iff_le, Nat.not_lt]
  unfold room
  rw [sum_eq_zero_iff, List.forall_mem_map]
  simp only [hroom, List.mem_range]
  exact ⟨fun h c => Bool.eq_false_iff.mpr fun hc => Bool.false_ne_true ((h c (lt_size_of_hasRoom hc)).symm.trans hc),
    fun h c _ => h c⟩

theorem hasRoom_of_flushCpu (h : ((t.flushCpu cpu).cursor c).hasRoom = true) :
    (t.cursor c).hasRoom = true ∧ c ≠ cpu := by
  unfold flushCpu at h
  dsimp only at h
  split at h
  · rename_i hroom
    have hmoved := moved_modifyCursor (t := t) (f := ({ · with next := (t.cursor cpu).limit }))
      (lt_size_of_hasRoom hroom)
    by_cases hc : c = cpu
    · rw [hc] at h
      exact absurd (hmoved.hasRoom_iff.mp h) (Nat.lt_irrefl _)
    · exact ⟨(hmoved.hasRoom_of_ne hc).symm.trans h, hc⟩
  · rename_i hroom
    exact ⟨h, fun hc => hroom (hc ▸ h)⟩

theorem hasRoom_of_flushAll {cpus : List Nat} (h : ((cpus.foldl flushCpu t).cursor c).hasRoom = true) :
    (t.cursor c).hasRoom = true ∧ c ∉ cpus := by
  induction cpus generalizing t with
  | nil => exact ⟨h, List.not_mem_nil⟩
  | cons cpu cpus ih =>
    obtain ⟨hroom, hrest⟩ := ih h
    obtain ⟨hroom, hne⟩ := hasRoom_of_flushCpu hroom
    exact ⟨hroom, List.not_mem_cons_of_ne_of_not_mem hne hrest⟩

theorem room_flush (t : Tracer P) : t.flush.2.room = 0 :=
  room_eq_zero_iff.mpr fun _ => Bool.eq_false_iff.mpr fun h =>
    have hflushed := hasRoom_of_flushAll h
    hflushed.2 (List.mem_range.mpr (lt_size_of_hasRoom hflushed.1))

theorem not_rawAhead_of_room (h : t.room = 0) (i : Nat) : ¬ t.view.RawAhead i := by
  rintro ⟨c, hnext, hlimit⟩
  have hfull : (t.cursor c).hasRoom = true := Cursor.hasRoom_iff.mpr (Nat.lt_of_le_of_lt hnext hlimit)
  rw [room_eq_zero_iff.mp h c] at hfull
  cases hfull

theorem word_reset (t : Tracer P) (mode : Mode) (i : Nat) : (t.reset mode).2.arena.word i = t.arena.word i := by
  unfold reset
  split <;> rfl

/-! ### Readers -/

namespace Alike

theorem blocksUsed (h : Alike t u) : u.blocksUsed = t.blocksUsed := by
  obtain ⟨p, j, hb⟩ := h
  exact hb.twin.claimed

theorem rawCount (h : Alike t u) : u.arena.rawCount = t.arena.rawCount := by
  obtain ⟨p, j, hb⟩ := h
  exact hb.rawCount

/-- A word of the raw view is the same unless it lies ahead of a CPU. -/
theorem rawWord (h : Alike t u) {i : Nat} (hi : ¬ t.view.RawAhead i) : (u.readRawWord i).1 = (t.readRawWord i).1 := by
  have hsame : ∀ {t u : Tracer P}, Alike t u → ¬ t.view.RawAhead i → u.arena.rawWord i = t.arena.rawWord i := by
    rintro t _ ⟨p, j, hb⟩ hi
    exact hb.rawWord hi
  refine hsame h.off ?_
  rw [t.off_same.2.2]
  exact hi

theorem count (h : Alike t u) : u.wordCount.1 = t.wordCount.1 := by
  have hsame : ∀ {t u : Tracer P}, Alike t u → u.view.count = t.view.count ∧ u.arena.wrapped = t.arena.wrapped := by
    rintro t _ ⟨p, j, hb⟩
    exact ⟨hb.count, hb.twin.wrapped⟩
  obtain ⟨hcount, hwrapped⟩ := hsame h.off
  unfold wordCount
  dsimp only
  rw [hcount, hwrapped]

theorem word (h : Alike t u) (ho : t.arena.Opened n) (i : Nat) : (u.readWord i).1 = (t.readWord i).1 := by
  have hsame : ∀ {t u : Tracer P}, Alike t u → t.arena.Opened n → u.view.word i = t.view.word i := by
    rintro t _ ⟨p, j, hb⟩ ho
    exact hb.word ho i
  refine hsame h.off ?_
  rw [show t.off.arena = t.arena from congrArg LogView.arena t.off_same.2.2]
  exact ho

end Alike

/-! ### Calls -/

section Platform
variable [Platform P]

/-- A call answers the same, if its answer is one of those to compare, and leaves alike tracers. -/
def SameCall {α : Type} (compared : Prop) (r r' : α × Tracer P) : Prop := Alike r.2 r'.2 ∧ (compared → r'.1 = r.1)

omit [Platform P] in
theorem SameResult.sameCall {α β : Type} {r r' : α × Tracer P} (h : SameResult r r') (f : α → β) (compared : Prop) :
    SameCall compared (f r.1, r.2) (f r'.1, r'.2) := ⟨h.2, fun _ => congrArg f h.1⟩

theorem Alike.execute (h : Alike t u) (hp : Placed t.mode t.view (shape log)) {c : Command}
    (hrates : c.readsRates = false) :
    SameCall (∀ i, c.rawWord? = some i → ¬ t.view.RawAhead i.toNat) (t.execute c) (u.execute c) := by
  have hinsert : ∀ {r r' : Outcome × Tracer P} {forced : Bool} {compared : Prop}, SameResult r r' →
      SameCall compared (if forced || t.tracing then (UInt64.ofNat r.1.wordsAdded, r.2) else (0, t))
        (if forced || u.tracing then (UInt64.ofNat r'.1.wordsAdded, r'.2) else (0, u)) := by
    intro r r' forced compared hresult
    rw [h.tracing]
    split
    · exact hresult.sameCall (fun o => UInt64.ofNat o.wordsAdded) compared
    · exact ⟨h, fun _ => rfl⟩
  cases c with
  | off => exact ⟨h.off, fun _ => rfl⟩
  | on => exact ⟨h.on, fun _ => rfl⟩
  | flush => exact (h.flush hp).sameCall UInt64.ofNat _
  | reset flags =>
    have hreset := h.reset (.ofBits flags)
    unfold Tracer.execute
    dsimp only
    generalize t.reset (.ofBits flags) = r at hreset ⊢
    generalize u.reset (.ofBits flags) = r' at hreset ⊢
    obtain ⟨result, t₁⟩ := r
    obtain ⟨result', u₁⟩ := r'
    obtain ⟨rfl, halike⟩ := hreset
    cases result' with
    | ok => exact ⟨halike, fun _ => rfl⟩
    | error e => exact ⟨halike.report _ _, fun _ => rfl⟩
  | stat => exact ⟨h, fun _ => congrArg UInt64.ofNat h.blocksUsed⟩
  | count => exact ⟨h.off, fun _ => h.count⟩
  | word i => exact ⟨h.off, fun _ => h.word hp.opened i.toNat⟩
  | insertWord w forced => exact hinsert (h.insert hp w [])
  | insertUser address forced => exact hinsert (h.insertUser hp address)
  | rateWord i => cases hrates
  | test => exact ⟨h, fun _ => by unfold Tracer.execute; rw [h.tracing]⟩
  | version => exact ⟨h, fun _ => rfl⟩
  | rawCount => exact ⟨h.off, fun _ => congrArg UInt64.ofNat h.off.rawCount⟩
  | rawWord i => exact ⟨h.off, fun hi => h.rawWord (hi i rfl)⟩

theorem Alike.perform (h : Alike t u) (hp : Placed t.mode t.view (shape log)) {a : Action} (ha : a.isTidy = true) :
    SameCall (∀ i, a.rawWord? = some i → ¬ t.view.RawAhead i.toNat) (t.perform a) (u.perform a) := by
  cases a with
  | claim => cases ha
  | insert first payload => exact (h.insert hp first payload).sameCall Answer.recorded _
  | insertReturn ret => exact (h.insertReturn hp ret).sameCall Answer.recorded _
  | insertMany words => exact (h.insertMany hp words).sameCall Answer.recorded _
  | insertUser address => exact (h.insertUser hp address).sameCall Answer.recorded _
  | traceEvent event arg => exact (h.traceEvent hp event arg).sameCall Answer.recorded _
  | traceSample event pc => exact (h.traceSample hp event pc).sameCall Answer.recorded _
  | traceWords event words => exact (h.traceWords hp event words).sameCall Answer.recorded _
  | traceName pid name => exact (h.traceName hp pid name).sameCall Answer.recorded _
  | reset mode => exact (h.reset mode).sameCall Answer.done _
  | execute c =>
    obtain ⟨halike, hanswer⟩ := h.execute hp (c := c) (by simpa [Action.isTidy, Action.command?] using ha)
    exact ⟨halike, fun hraw => congrArg Answer.number (hanswer hraw)⟩
  | control code arg =>
    unfold Tracer.perform Tracer.control
    dsimp only
    cases hcode : Command.ofCode? code arg with
    | none => exact ⟨h, fun _ => rfl⟩
    | some c =>
      obtain ⟨halike, hanswer⟩ := h.execute hp (c := c) (by simpa [Action.isTidy, Action.command?, hcode] using ha)
      refine ⟨halike, fun hraw => congrArg Answer.number (hanswer fun i hi => hraw i ?_)⟩
      simpa [Action.rawWord?, Action.command?, hcode] using hi
  | snapshot => cases ha

/-- The tracer after some calls, with what becomes of the platform before each. -/
def after (t : Tracer P) (calls : List ((P → P) × Action)) : Tracer P :=
  calls.foldl (fun t call => ((t.at (call.1 t.platform)).perform call.2).2) t

theorem room_after_flush (t : Tracer P) (calls : List ((P → P) × Action)) (f : P → P) :
    (t.after (calls ++ [(f, .execute .flush)])).room = 0 := by
  unfold after
  rw [List.foldl_append]
  exact room_flush _

theorem exists_history_after (h : History t log) (calls : List ((P → P) × Action)) :
    ∃ log', History (t.after calls) log' := by
  induction calls generalizing t log with
  | nil => exact ⟨log, h⟩
  | cons call calls ih => exact ih (h.act_at (call.1 t.platform) call.2)

omit [Platform P] in
theorem Alike.at (h : Alike t u) (f : P → P) : Alike (t.at (f t.platform)) (u.at (f u.platform)) := by
  obtain ⟨p, j, hb⟩ := h
  exact .of_agree (hb.of_stayed rfl (.of_eq rfl)) rfl

/-- Calls that show no old words keep tracers alike. -/
theorem Alike.after (h : Alike t u) (ht : History t log) {calls : List ((P → P) × Action)}
    (hcalls : ∀ call ∈ calls, call.2.isTidy = true) : Alike (t.after calls) (u.after calls) := by
  induction calls generalizing t u log with
  | nil => exact h
  | cons call calls ih =>
    -- the history of the one tracer places its CPUs, and the other one has them at the same places
    obtain ⟨hcall, hrest⟩ := List.forall_mem_cons.mp hcalls
    obtain ⟨hnext, -⟩ := (h.at call.1).perform (t := t.at (call.1 t.platform)) ht.placed hcall
    exact ih hnext (ht.act_at (call.1 t.platform) call.2) hrest

end Platform

/-! ### Restarts -/

/-- No reader of the log can tell two tracers apart, nor can a reader of the raw view right after a flush. -/
structure SameReadings (t u : Tracer P) : Prop where
  count : u.wordCount.1 = t.wordCount.1
  word : ∀ i, (u.readWord i).1 = (t.readWord i).1
  blocks : u.blocksUsed = t.blocksUsed
  rawCount : u.rawCount.1 = t.rawCount.1
  rawWord : ∀ i, (u.flush.2.readRawWord i).1 = (t.flush.2.readRawWord i).1

theorem Alike.sameReadings (h : Alike t u) (hp : Placed t.mode t.view (shape log)) : SameReadings t u where
  count := h.count
  word := h.word hp.opened
  blocks := h.blocksUsed
  rawCount := h.off.rawCount
  rawWord i := (h.flush hp).2.rawWord (not_rawAhead_of_room (room_flush t) i)

section Platform
variable [Platform P]

theorem perform_rawWord (t : Tracer P) (i : UInt64) :
    (t.perform (.control 13 i)).1 = .number (t.arena.rawWord i.toNat) := by
  have harena : t.off.arena = t.arena := congrArg LogView.arena t.off_same.2.2
  rw [← harena]
  rfl

/-- What lies ahead of the record for which a block is opened stays as an earlier session left it. -/
theorem word_insertAt_ahead {o : Opening} {a : Arena} {i : Nat} (now first : UInt64) (payload : List UInt64)
    (hcpu : cpu < t.cursors.size) (hunset : (t.cursor cpu).limit = 0) (hrates : t.mode.rates = false)
    (hlen : Event.isValidLength (payload.length + 1) = true) (hopen : t.arena.openBlock t.mode.wraps = (some o, a))
    (hi : o.recordStart + (payload.length + 1) ≤ i) (hi' : i + tailWords < o.start + blockWords) :
    (t.insertAt cpu now first payload).2.arena.word i = t.arena.word i := by
  have hfits : (t.cursor cpu).fits (payload.length + 1) = false := decide_eq_false (by omega)
  obtain ⟨-, hmode, ⟨n, -, hmoved⟩, ⟨-, harena⟩ | ⟨hset, -⟩⟩ := overrun_spec hcpu hfits
  · rw [← harena, ← hmode] at hopen
    rw [← hmode] at hrates
    rw [← harena]
    have hclaim : t.claim cpu (payload.length + 1) =
        (some ⟨o.recordStart, payload.length + 1⟩,
          (t.overrun cpu (payload.length + 1)).blockTaken cpu (payload.length + 1) o a) := by
      rw [claim_eq hlen hcpu, hfits, if_neg Bool.false_ne_true, claimFresh_of_openBlock hopen]
    have hsize : cpu < (t.overrun cpu (payload.length + 1)).cursors.size := hmoved.cpus ▸ hcpu
    generalize t.overrun cpu (payload.length + 1) = s at hopen hrates hclaim hsize ⊢
    obtain ⟨-, hmode', -, hwords⟩ := s.blockTaken_spec (payload.length + 1) o a hsize
    rw [← hmode'] at hrates
    unfold insertAt noteRate
    rw [hclaim]
    dsimp only
    rw [if_neg (Bool.eq_false_iff.mp hrates), hwords, word_setWords_of_outside _ (Or.inr hi), word_startFilling,
      word_layOut_between _ _ _ (Nat.le_trans (Nat.le_add_right ..) hi) hi',
      word_of_words (openBlock_some_inv hopen).1]
  · exact absurd hunset hset

end Platform

end Tracer

section Platform
variable [Platform P] {t u : Tracer P} {log log' : Ledger}

/-- Two tracers with one configuration and one platform, neither of them tracing, answer alike once they are reset,
whatever they recorded before. A word of the raw view may differ while it lies ahead of a CPU in its block. -/
theorem restart_forgets (ht : History t log) (hu : History u log') (hconfig : u.config = t.config)
    (hplatform : u.platform = t.platform) (hstopped : t.tracing = false) (hstopped' : u.tracing = false) (mode : Mode)
    (calls : List ((P → P) × Action)) (hcalls : ∀ call ∈ calls, call.2.isTidy = true) :
    (u.reset mode).1 = (t.reset mode).1 ∧
      Tracer.SameReadings ((t.reset mode).2.after calls) ((u.reset mode).2.after calls) ∧
      ∀ (f : P → P) (a : Action), a.isTidy = true →
        (∀ i, a.rawWord? = some i → ¬ ((t.reset mode).2.after calls).view.RawAhead i.toNat) →
        ((((u.reset mode).2.after calls).at (f ((u.reset mode).2.after calls).platform)).perform a).1 =
          ((((t.reset mode).2.after calls).at (f ((t.reset mode).2.after calls).platform)).perform a).1 := by
  have hblocks : u.arena.blocks = t.arena.blocks := hu.sized.blocks.trans (hconfig ▸ ht.sized.blocks.symm)
  have hcpus : u.cursors.size = t.cursors.size := hu.sized.cpus.trans (hconfig ▸ ht.sized.cpus.symm)
  obtain ⟨hanswer, halike⟩ := Tracer.reset_alike hplatform hconfig hblocks hcpus hstopped hstopped' mode
  have hreset : History (t.reset mode).2 _ := ht.act_at t.platform (.reset mode)
  obtain ⟨log₁, hafter⟩ := Tracer.exists_history_after hreset calls
  have halike' := halike.after hreset hcalls
  refine ⟨hanswer, halike'.sameReadings hafter.placed, fun f a ha hraw => ?_⟩
  exact ((halike'.at f).perform (t := Tracer.at _ _) hafter.placed ha).2 hraw

end Platform

/-- A tracer that has recorded a session is reset together with a new one. -/
theorem restart_forgets_of_used_tracer :
    ∃ (t u : Tracer TimeOnly) (log log' : Ledger) (calls : List ((TimeOnly → TimeOnly) × Action)),
      History t log ∧ History u log' ∧ log = [] ∧
      log'.map (·.words) = [[0x0000012100000000, 7], [0x0000012000000000]] ∧ u.config = t.config ∧
      u.platform = t.platform ∧ t.tracing = false ∧ u.tracing = false ∧ (∀ call ∈ calls, call.2.isTidy = true) ∧
      (∀ i, ¬ ((t.reset ⟨true, true⟩).2.after calls).view.RawAhead i) ∧
      Tracer.SameReadings ((t.reset ⟨true, true⟩).2.after calls) ((u.reset ⟨true, true⟩).2.after calls) ∧
      ((((u.reset ⟨true, true⟩).2.after calls).at {}).perform (.control 13 13)).1 =
        ((((t.reset ⟨true, true⟩).2.after calls).at {}).perform (.control 13 13)).1 := by
  have hnew : History _ [] := .new (show Tracer.ofConfig ({} : TimeOnly) { blocks := 2 } = .ok _ from rfl)
  have hused := (hnew.act_at {} (.insert 0x0000012000000000 [])).act_at {} (.insert 0x0000012100000000 [7])
  have hraw := fun t : Tracer TimeOnly => Tracer.not_rawAhead_of_room <|
    t.room_after_flush [(id, .execute .on), (id, .traceEvent 0x801 5),
      (fun p => { p with time := 9 }, .traceEvent 0xa01 3)] id
  obtain ⟨-, hreadings, hanswers⟩ := restart_forgets hnew hused rfl rfl rfl rfl ⟨true, true⟩
    ([(id, .execute .on), (id, .traceEvent 0x801 5), (fun p => { p with time := 9 }, .traceEvent 0xa01 3)] ++
      [(id, .execute .flush)]) (by decide)
  exact ⟨_, _, _, _, _, hnew, hused, rfl, by decide +kernel, rfl, rfl, rfl, rfl, by decide, hraw _,
    hreadings, hanswers (fun _ => {}) (.control 13 13) (by decide) fun i _ => hraw _ i.toNat⟩

/-- A word of the raw view ahead of the only record of a session is still that of the session before. -/
theorem restart_shows_old_words :
    ∃ (t u : Tracer TimeOnly) (log log' : Ledger) (calls : List ((TimeOnly → TimeOnly) × Action)),
      History t log ∧ History u log' ∧ u.config = t.config ∧ u.platform = t.platform ∧ t.tracing = false ∧
      u.tracing = false ∧ (∀ call ∈ calls, call.2.isTidy = true) ∧ (Action.control 13 13).isTidy = true ∧
      (((t.reset {}).2.after calls).perform (.control 13 13)).1 = .number 0 ∧
      (((u.reset {}).2.after calls).perform (.control 13 13)).1 = .number 0x0000012100000000 := by
  have hnew : History _ [] := .new (show Tracer.ofConfig ({} : TimeOnly) { blocks := 2 } = .ok _ from rfl)
  have hused := (hnew.act_at {} (.insert 0x0000012000000000 [])).act_at {} (.insert 0x0000012100000000 [])
  have hold := hused.word_of_latest (c := 0) (i := 8205) (g := ⟨0, ⟨8205, 1⟩, 0, false, 0, [0x0000012100000000]⟩)
    (by decide +kernel) (by decide +kernel) (by decide +kernel) rfl (by decide +kernel)
  -- the only record of the new session is the first of its block, and the word lies behind it
  have hstays : ∀ t : Tracer TimeOnly, (t.arena.openBlock t.mode.wraps).1 = some ⟨8192, true, false⟩ →
      t.cursors.size = 1 → (t.cursor 0).limit = 0 → t.mode.rates = false → t.platform.cpu = 0 →
      (t.after [(id, .insert 0x0000012000000000 [])]).arena.word 8205 = t.arena.word 8205 := by
    intro t hopen hsize hunset hrates hcpu
    have hword := Tracer.word_insertAt_ahead (t := (t.at (id t.platform)).readTime.2) (o := ⟨8192, true, false⟩)
      (a := (t.arena.openBlock t.mode.wraps).2) (i := 8205) t.platform.time 0x0000012000000000 []
      (hsize.symm ▸ Nat.one_pos) hunset hrates (by decide) (Prod.ext hopen rfl) (by decide) (by decide)
    change (Tracer.insertAt (t.at (id t.platform)).readTime.2 t.platform.cpu _ _ []).2.arena.word 8205 = _
    rw [hcpu]
    exact hword
  have hread : ∀ (t : Tracer TimeOnly) (x : UInt64), (t.arena.rawCount, t.arena.blockStart 0) = (8192, 8192) →
      t.arena.word 8205 = x → (t.perform (.control 13 13)).1 = .number x := by
    rintro t _ hplace rfl
    obtain ⟨hcount, hstart⟩ := Prod.mk.inj hplace
    rw [Tracer.perform_rawWord, rawWord, hcount, if_neg (by decide),
      show (13 : UInt64).toNat / blockWords = 0 by decide, show (13 : UInt64).toNat % blockWords = 13 by decide, hstart]
  refine ⟨_, _, _, _, [(id, .insert 0x0000012000000000 [])], hnew, hused, rfl, rfl, rfl, rfl, by decide, rfl,
    hread _ 0 (by decide +kernel) ?_, hread _ _ (by decide +kernel) ?_⟩
  · refine (hstays _ (by decide +kernel) (by decide +kernel) (by decide +kernel) rfl rfl).trans ?_
    exact (Tracer.word_reset _ {} 8205).trans ((Tracer.word_reset _ {} 8205).trans (word_ofBlocks 2 8205))
  · refine (hstays _ (by decide +kernel) (by decide +kernel) (by decide +kernel) rfl rfl).trans ?_
    exact (Tracer.word_reset _ {} 8205).trans hold

end EventRecorder
