import EventRecorder.Platform.Simulated
import EventRecorder.Proofs.Hooks.Events
import EventRecorder.Proofs.Ledger.Refusals
import EventRecorder.Proofs.Log.Readers
import EventRecorder.Proofs.Rates.Lanes
import EventRecorder.Proofs.Sessions.Flushes

/-! # Failures leave the log alone

An operation that fails has a fault: the first check that it did not pass. Most faults leave the tracer as it was. A
bad length and a full arena end tracing, and a full arena also has the CPU leave its block; but whatever the fault,
all readers of the log go on to tell what they told before. -/

namespace EventRecorder

open Ledger LogView Arena

/-! ### Faults -/

/-- Why an operation fails. -/
inductive Fault where
  /-- No record has the length. -/
  | length
  /-- The tracer does not serve the CPU. -/
  | cpu
  /-- The CPU has no room for the record, and there is no further block. -/
  | space
  /-- The user memory cannot be read. -/
  | memory
  /-- No command has the code. -/
  | code
  /-- A session cannot be started while tracing is on. -/
  | running
  /-- Tracing is off. -/
  | idle
  /-- The log holds the name of the process already. -/
  | named
deriving DecidableEq, Repr

/-- The fault ends tracing. -/
def Fault.stops : Fault → Bool
  | length | space => true
  | _ => false

/-- The record was not recorded. -/
def Outcome.isDropped : Outcome → Bool
  | dropped => true
  | _ => false

namespace Command

/-- The command inserts a record. -/
def inserts : Command → Bool
  | insertWord .. | insertUser .. => true
  | _ => false

/-- The command answers with a number read from the log, whatever the number. -/
def tellsNumber : Command → Bool
  | stat | count | word _ | rateWord _ | rawCount | rawWord _ => true
  | _ => false

/-- The number reports that the command failed; an insertion tells so by having added no word. -/
def failed (c : Command) (n : UInt64) : Bool := n == failure || (c.inserts && n == 0)

end Command

/-- The answer reports that the action failed. -/
def Action.failed (a : Action) : Answer → Bool
  | .claimed span => span.isNone
  | .recorded o => o.isDropped
  | .done (.error _) => true
  | .done (.ok _) => false
  | .number n => n == Command.failure || (a.command?.any (·.inserts) && n == 0)
  | .copied _ => false

variable {P : Type} {s t u : Tracer P} {f : Fault} {log : Ledger} {cpu len : Nat}

namespace Tracer

/-! Each operation makes its checks in turn, and the first one that does not pass is its fault. -/

def claimFault? (t : Tracer P) (cpu len : Nat) : Option Fault :=
  if !Event.isValidLength len then some .length
  else if t.cursors.size ≤ cpu then some .cpu
  else if !(t.cursor cpu).fits len && (t.arena.openBlock t.mode.wraps).1.isNone then some .space
  else none

def resetFault? (t : Tracer P) : Option Fault := if t.tracing then some .running else none

variable [Platform P]

/-- The fault of inserting a record of `len` words. -/
def insertFault? (t : Tracer P) (len : Nat) : Option Fault := t.claimFault? t.readTime.2.currentCpu len

def insertReturnFault? (t : Tracer P) (ret : UInt64) : Option Fault :=
  if (t.readTime.2.merged? t.readTime.2.currentCpu (Head.stamp ret t.readTime.1)).isSome then none else t.insertFault? 1

def insertManyFault? (t : Tracer P) : (words : List UInt64) → Option Fault
  | [] => some .length
  | first :: _ => t.insertFault? (Head.recordLength first)

def insertUserFault? (t : Tracer P) (address : UInt64) : Option Fault :=
  match Platform.userWords t.platform address with
  | .error _ => some .memory
  | .ok words => t.insertManyFault? words.toList

def traceEventFault? (t : Tracer P) (event arg : UInt64) : Option Fault :=
  if !t.tracing then some .idle
  else if Event.isFoldableReturn event && Head.fitsByte arg.toInt64 then
    t.insertReturnFault? (Head.returnWord event arg.toInt64)
  else t.insertFault? 1

def traceSampleFault? (t : Tracer P) : Option Fault := if !t.tracing then some .idle else t.insertFault? 2

def traceWordsFault? (t : Tracer P) (event : UInt64) (words : List UInt64) : Option Fault :=
  if !t.tracing then some .idle
  else if !Event.isValidLength words.length then some .length
  else t.insertManyFault? (words.modifyHead (· ||| Head.eventField.place (Event.withLength event words.length)))

def traceNameFault? (t : Tracer P) (pid : UInt32) : Option Fault :=
  if !t.tracing then some .idle
  else if t.named.contains pid then some .named
  else t.insertFault? (Head.recordLength (Head.callWord Event.processNameRecord (Head.argField.get pid.toUInt64)))

def commandFault? (t : Tracer P) : Command → Option Fault
  | .reset _ => t.resetFault?
  | .insertWord _ forced => if forced || t.tracing then t.insertFault? 1 else some .idle
  | .insertUser address forced => if forced || t.tracing then t.insertUserFault? address else some .idle
  | _ => none

/-- The fault of an action, if it has one. -/
def fault? (t : Tracer P) : Action → Option Fault
  | .claim cpu len => t.claimFault? cpu len
  | .insert _ payload => t.insertFault? (payload.length + 1)
  | .insertReturn ret => t.insertReturnFault? ret
  | .insertMany words => t.insertManyFault? words
  | .insertUser address => t.insertUserFault? address
  | .traceEvent event arg => t.traceEventFault? event arg
  | .traceSample _ _ => t.traceSampleFault?
  | .traceWords event words => t.traceWordsFault? event words
  | .traceName pid _ => t.traceNameFault? pid
  | .reset _ => t.resetFault?
  | .execute c => t.commandFault? c
  | .control code arg =>
    match Command.ofCode? code arg with
    | some c => t.commandFault? c
    | none => some .code
  | .snapshot => none

end Tracer

/-! ### What a fault does -/

/-- `u` is what a fault makes of `t`. -/
inductive Fails (t : Tracer P) : Fault → Tracer P → Prop
  /-- The operation did nothing that the log knows of. -/
  | untouched {f : Fault} {u : Tracer P} : f.stops = false → u.view = t.view → u.mode = t.mode →
      u.tracing = t.tracing → Fails t f u
  | length {u : Tracer P} : u.view = t.view → u.tracing = false → Fails t .length u
  /-- The CPU ran over the end of its block, and a block was refused. -/
  | space {u : Tracer P} {cpu len : Nat} : Event.isValidLength len = true → cpu < t.cursors.size →
      (t.cursor cpu).fits len = false → (t.arena.openBlock t.mode.wraps).1 = none →
      u.view = ⟨{ (t.overrun cpu len).arena with exhausted := true }, (t.overrun cpu len).cursors⟩ →
      u.tracing = false → Fails t .space u

/-- An operation on `t` fails just when it has a fault, and leaves `u` as the fault does. -/
structure Faulted (t : Tracer P) (fault? : Option Fault) (failed : Bool) (u : Tracer P) : Prop where
  failed_eq : failed = fault?.isSome
  fails : ∀ f, fault? = some f → Fails t f u

theorem Faulted.of_none {failed : Bool} (h : failed = false) (u : Tracer P) : Faulted t none failed u :=
  ⟨h, fun _ hf => (by cases hf)⟩

theorem Faulted.of_some {failed : Bool} (h : failed = true) (hf : Fails t f u) : Faulted t (some f) failed u :=
  ⟨h, fun _ hf' => Option.some.inj hf' ▸ hf⟩

theorem Faulted.unchanged {failed : Bool} (h : failed = true) (hf : f.stops = false) : Faulted t (some f) failed t :=
  .of_some h (.untouched hf rfl rfl rfl)

/-- What only the unseen parts of a tracer tell apart fails alike. -/
theorem Fails.of_same (h : Fails s f u) (hv : s.view = t.view) (hm : s.mode = t.mode) (ht : s.tracing = t.tracing) :
    Fails t f u := by
  have harena : s.arena = t.arena := congrArg LogView.arena hv
  have hcursors : s.cursors = t.cursors := congrArg LogView.cursors hv
  have hcursor : ∀ c, s.cursor c = t.cursor c := fun c => congrArg (LogView.cursor · c) hv
  cases h with
  | untouched hf hview hmode htracing => exact .untouched hf (hview.trans hv) (hmode.trans hm) (htracing.trans ht)
  | length hview htracing => exact .length (hview.trans hv) htracing
  | @space _ cpu len hlen hcpu hfits hopen hview htracing =>
    have hover : (s.overrun cpu len).arena = (t.overrun cpu len).arena ∧
        (s.overrun cpu len).cursors = (t.overrun cpu len).cursors := by
      unfold Tracer.overrun Tracer.closeBlock Tracer.modifyCursor
      rw [hcursor cpu]
      dsimp only
      rw [harena, hcursors]
      split <;> exact ⟨rfl, rfl⟩
    refine .space hlen (hcursors ▸ hcpu) (hcursor cpu ▸ hfits) ?_ ?_ htracing
    · rw [← harena, ← hm]
      exact hopen
    · rw [hview, hover.1, hover.2]

theorem Faulted.of_same {fault? : Option Fault} {failed : Bool} (h : Faulted s fault? failed u) (hv : s.view = t.view)
    (hm : s.mode = t.mode) (ht : s.tracing = t.tracing) : Faulted t fault? failed u :=
  ⟨h.failed_eq, fun f hf => (h.fails f hf).of_same hv hm ht⟩

namespace Tracer

/-! ### One operation after another -/

theorem reset_faulted (t : Tracer P) (mode : Mode) :
    Faulted t t.resetFault? (t.reset mode).1.isOk.not (t.reset mode).2 := by
  unfold reset resetFault?
  split
  · exact .unchanged rfl rfl
  · exact .of_none rfl _

variable [Platform P]

theorem claim_faulted (t : Tracer P) (cpu len : Nat) :
    Faulted t (t.claimFault? cpu len) (t.claim cpu len).1.isNone (t.claim cpu len).2 := by
  unfold claimFault?
  cases hlen : Event.isValidLength len
  · rw [Bool.not_false, if_pos rfl, claim_of_invalid hlen]
    exact .of_some rfl (.length rfl rfl)
  rw [Bool.not_true, if_neg Bool.false_ne_true]
  rcases Nat.lt_or_ge cpu t.cursors.size with hcpu | hunserved
  · rw [if_neg (Nat.not_le_of_lt hcpu)]
    cases hclaim : (t.claim cpu len).1 with
    | none =>
      obtain ⟨hfits, hopen⟩ := (claim_eq_none_iff hlen hcpu).mp hclaim
      obtain ⟨-, htracing, hview⟩ := claim_of_refused hlen hcpu hfits hopen
      rw [if_pos (by simp [hfits, hopen])]
      exact .of_some rfl (.space hlen hcpu hfits hopen hview htracing)
    | some span =>
      rw [if_neg]
      · exact .of_none rfl _
      · intro hspace
        have hnone := (claim_eq_none_iff hlen hcpu).mpr (by simpa using hspace)
        rw [hclaim] at hnone
        cases hnone
  · rw [if_pos hunserved, claim_of_unserved hlen hunserved]
    exact .unchanged rfl rfl

theorem insertAt_faulted (t : Tracer P) (cpu : Nat) (now first : UInt64) (payload : List UInt64) :
    Faulted t (t.claimFault? cpu (payload.length + 1)) (t.insertAt cpu now first payload).1.isDropped
      (t.insertAt cpu now first payload).2 := by
  have hclaim := t.claim_faulted cpu (payload.length + 1)
  unfold insertAt
  generalize t.claim cpu (payload.length + 1) = r at hclaim ⊢
  obtain ⟨_ | span, u⟩ := r
  · exact hclaim
  · have hnone : t.claimFault? cpu (payload.length + 1) = none := by simpa using hclaim.failed_eq
    rw [hnone]
    exact .of_none rfl _

theorem insert_faulted (t : Tracer P) (first : UInt64) (payload : List UInt64) :
    Faulted t (t.insertFault? (payload.length + 1)) (t.insert first payload).1.isDropped (t.insert first payload).2 :=
  (insertAt_faulted t.readTime.2 _ _ first payload).of_same rfl rfl rfl

theorem insertReturn_faulted (t : Tracer P) (ret : UInt64) :
    Faulted t (t.insertReturnFault? ret) (t.insertReturn ret).1.isDropped (t.insertReturn ret).2 := by
  unfold insertReturnFault?
  cases hmerge : t.readTime.2.merged? t.readTime.2.currentCpu (Head.stamp ret t.readTime.1) with
  | none =>
    rw [insertReturn_of_none hmerge]
    exact (insertAt_faulted t.readTime.2 _ _ ret []).of_same rfl rfl rfl
  | some fold =>
    rw [insertReturn_of_some hmerge]
    exact .of_none rfl _

theorem insertMany_faulted (t : Tracer P) (words : List UInt64) :
    Faulted t (t.insertManyFault? words) (t.insertMany words).1.isDropped (t.insertMany words).2 := by
  unfold insertMany
  cases words with
  | nil => exact .of_some rfl (.length rfl rfl)
  | cons first rest =>
    unfold insertManyFault? insertFault? claimFault?
    dsimp only
    split
    · exact .of_some rfl (.length rfl rfl)
    · rename_i hlen
      have hpos : Head.recordLength first - 1 + 1 = Head.recordLength first := by
        have := isValidLength_iff.mp (by simpa using hlen)
        omega
      have hinsert := t.insert_faulted first ((List.range (Head.recordLength first - 1)).map (rest.getD · 0))
      rw [List.length_map, List.length_range, hpos] at hinsert
      unfold insertFault? claimFault? at hinsert
      rw [if_neg hlen] at hinsert
      exact hinsert

theorem insertUser_faulted (t : Tracer P) (address : UInt64) :
    Faulted t (t.insertUserFault? address) (t.insertUser address).1.isDropped (t.insertUser address).2 := by
  unfold insertUser insertUserFault?
  cases Platform.userWords t.platform address with
  | error _ => exact .unchanged rfl rfl
  | ok words => exact t.insertMany_faulted words.toList

theorem traceEvent_faulted (t : Tracer P) (event arg : UInt64) :
    Faulted t (t.traceEventFault? event arg) (t.traceEvent event arg).1.isDropped (t.traceEvent event arg).2 := by
  unfold traceEvent traceEventFault?
  split
  · exact .unchanged rfl rfl
  · split
    · exact t.insertReturn_faulted _
    · exact t.insert_faulted _ []

theorem traceSample_faulted (t : Tracer P) (event pc : UInt64) :
    Faulted t t.traceSampleFault? (t.traceSample event pc).1.isDropped (t.traceSample event pc).2 := by
  unfold traceSample traceSampleFault?
  split
  · exact .unchanged rfl rfl
  · exact t.insert_faulted _ [pc]

theorem traceWords_faulted (t : Tracer P) (event : UInt64) (words : List UInt64) :
    Faulted t (t.traceWordsFault? event words) (t.traceWords event words).1.isDropped (t.traceWords event words).2 := by
  unfold traceWords traceWordsFault?
  split
  · exact .unchanged rfl rfl
  · split
    · exact .of_some rfl (.length rfl rfl)
    · exact t.insertMany_faulted _

theorem traceName_faulted (t : Tracer P) (pid : UInt32) (name : TaskName) :
    Faulted t (t.traceNameFault? pid) (t.traceName pid name).1.isDropped (t.traceName pid name).2 := by
  unfold traceName traceNameFault?
  by_cases htracing : t.tracing = true
  · by_cases hnamed : t.named.contains pid = true
    · rw [if_neg (by simp [htracing]), if_pos hnamed, if_pos (by simp [hnamed])]
      exact .unchanged rfl rfl
    · rw [if_neg (by simp [htracing]), if_neg hnamed, if_neg (by simp [htracing, hnamed])]
      exact (insertMany_faulted { t with named := t.named.insert pid }
        [Head.callWord Event.processNameRecord (Head.argField.get pid.toUInt64), name.toWords.1, name.toWords.2]).of_same
        rfl rfl rfl
  · rw [if_pos (by simp [htracing]), if_pos (by simp [htracing])]
    exact .unchanged rfl rfl

end Tracer

/-! ### What the readers tell -/

/-- All readers of the log tell of `u` what they tell of `t`. -/
structure SameLog (t u : Tracer P) : Prop where
  count : u.wordCount.1 = t.wordCount.1
  word : ∀ i, (u.readWord i).1 = (t.readWord i).1
  snapshot : u.snapshot.1 = t.snapshot.1
  blocks : u.blocksUsed = t.blocksUsed
  rawCount : u.rawCount.1 = t.rawCount.1
  rawWord : ∀ i, (u.readRawWord i).1 = (t.readRawWord i).1
  rateWord : ∀ i, (u.readRateWord i).1 = (t.readRateWord i).1

theorem Tracer.readRateWord_eq (t : Tracer P) (i : Nat) : (t.readRateWord i).1 = t.arena.rawRateWord i :=
  congrArg (Arena.rawRateWord · i) t.off_arena

/-- The log is what the words of the arena, the blocks opened and their record regions make it. -/
theorem SameLog.of_regions (hword : ∀ i, u.arena.word i = t.arena.word i) (hblocks : u.arena.blocks = t.arena.blocks)
    (hwrapped : u.arena.wrapped = t.arena.wrapped) (hclaimed : u.arena.claimed = t.arena.claimed)
    (hnewest : u.arena.newestFirst = t.arena.newestFirst)
    (hregion : ∀ k ∈ t.arena.newestFirst, u.view.region k = t.view.region k) : SameLog t u := by
  have hwords : u.arena.word = t.arena.word := funext hword
  have hregions : u.view.regions = t.view.regions := by
    unfold regions
    rw [show u.view.arena.newestFirst = t.view.arena.newestFirst from hnewest]
    exact List.map_congr_left hregion
  have hcopy : ∀ k ∈ t.view.arena.newestFirst, BlockCopy.ofView u.view k = BlockCopy.ofView t.view k := by
    intro k hk
    have hview : u.view.arena.word = t.view.arena.word := hwords
    have hrates : u.view.arena.rate = t.view.arena.rate := funext fun i => rate_congr (hword (i / 8))
    have hstart : u.view.arena.blockStart k = t.view.arena.blockStart k := blockStart_congr hblocks k
    unfold BlockCopy.ofView Arena.header Arena.task
    dsimp only
    rw [hregion k hk, hview, hrates, hstart]
  have hcount : u.arena.rawCount = t.arena.rawCount := by
    unfold Arena.rawCount
    rw [hclaimed]
  refine ⟨?_, fun i => ?_, ?_, hclaimed, ?_, fun i => ?_, fun i => ?_⟩
  · rw [u.wordCount_eq, t.wordCount_eq, hwrapped]
    unfold LogView.count
    rw [hregions]
  · rw [u.readWord_eq, t.readWord_eq]
    unfold LogView.word
    rw [hregions]
    exact Agree.wordIn_congr (fun _ _ j _ _ => hword j) i
  · rw [u.snapshot_eq, t.snapshot_eq]
    unfold Snapshot.ofView
    rw [show u.view.arena.newestFirst = t.view.arena.newestFirst from hnewest,
      show u.view.arena.wrapped = t.view.arena.wrapped from hwrapped, List.map_congr_left hcopy]
  · rw [u.rawCount_eq, t.rawCount_eq, hcount]
  · rw [u.readRawWord_eq, t.readRawWord_eq]
    unfold Arena.rawWord
    rw [hcount, hwords, blockStart_congr hblocks]
  · rw [u.readRateWord_eq, t.readRateWord_eq]
    unfold Arena.rawRateWord
    rw [hcount, hwords, high_congr hblocks]

theorem SameLog.of_view (h : u.view = t.view) : SameLog t u := by
  have harena : u.arena = t.arena := congrArg LogView.arena h
  refine .of_regions ?_ ?_ ?_ ?_ ?_ ?_ <;> simp [harena, h]

theorem SameLog.trans (h₁ : SameLog s t) (h₂ : SameLog t u) : SameLog s u where
  count := h₂.count.trans h₁.count
  word i := (h₂.word i).trans (h₁.word i)
  snapshot := h₂.snapshot.trans h₁.snapshot
  blocks := h₂.blocks.trans h₁.blocks
  rawCount := h₂.rawCount.trans h₁.rawCount
  rawWord i := (h₂.rawWord i).trans (h₁.rawWord i)
  rateWord i := (h₂.rateWord i).trans (h₁.rateWord i)

section History
variable [Platform P]

/-- A claim that is refused closes no more of a block than its records fill, and the other blocks stay. -/
theorem History.sameLog_of_refused (h : History t log) (hlen : Event.isValidLength len = true)
    (hcpu : cpu < t.cursors.size) (hfits : (t.cursor cpu).fits len = false)
    (hopen : (t.arena.openBlock t.mode.wraps).1 = none) : SameLog t (t.claim cpu len).2 := by
  obtain ⟨hnone, -, hview⟩ := Tracer.claim_of_refused hlen hcpu hfits hopen
  have hr : History (t.claim cpu len).2 log := by
    have hact := h.claim (cpu, len)
    have henter : t.enter (.claim cpu len) log = log := by
      unfold Tracer.enter Tracer.outcome
      dsimp only
      rw [hnone]
      rfl
    unfold Tracer.enterClaim at hact
    rw [henter] at hact
    exact hact
  have hframe : t.arena.SameFrontier (t.overrun cpu len).arena := Tracer.overrun_sameFrontier t cpu len
  have hword : ∀ i, (t.overrun cpu len).arena.word i = t.arena.word i := by
    intro i
    obtain ⟨-, -, -, ⟨-, harena⟩ | ⟨-, harena⟩⟩ := Tracer.overrun_spec hcpu hfits
    · rw [harena]
    · rw [harena, word_close]
  generalize hu : (t.claim cpu len).2 = u at hr hview ⊢
  have harena : u.arena = { (t.overrun cpu len).arena with exhausted := true } := congrArg LogView.arena hview
  have hblocks : u.arena.blocks = t.arena.blocks := harena ▸ hframe.blocks
  have hlimit : u.arena.limit = t.arena.limit := harena ▸ hframe.limit
  have husable := usable_congr hblocks hlimit
  have hclaimed : u.arena.claimed = t.arena.claimed := by rw [hr.opened.claimed_eq, h.opened.claimed_eq, husable]
  -- no block has been opened twice when one is refused
  have hone : openings log ≤ t.arena.usable :=
    h.opened.le_usable h.inMode.wraps ((h.opened.openBlock_none_iff h.inMode.wraps).mp hopen).2
  have honce : ∀ v : Tracer P, v.arena.usable = t.arena.usable → OneWriter v.arena v.cursors.size (shape log) :=
    fun v hv => Or.inr (by rwa [openings_shape, hv])
  refine .of_regions (fun i => ?_) hblocks (harena ▸ hframe.wrapped) hclaimed ?_ fun k hk => ?_
  · rw [harena]
    exact hword i
  · rw [hr.opened.newestFirst_eq, h.opened.newestFirst_eq, husable]
  · have hk := h.opened.lt_claimed_of_mem hk
    obtain ⟨g, l, hl, -, -, hregion⟩ := h.region_of_claimed (honce t rfl) hk
    obtain ⟨g', l', hl', -, -, hregion'⟩ := hr.region_of_claimed (honce u husable) (hclaimed ▸ hk)
    obtain ⟨rfl, -⟩ := List.cons.inj (hl'.symm.trans hl)
    rw [hregion, hregion', recordStart_congr hblocks]

theorem Fails.sameLog (hf : Fails t f u) (h : History t log) : SameLog t u := by
  cases hf with
  | untouched _ hview => exact .of_view hview
  | length hview => exact .of_view hview
  | @space _ cpu len hlen hcpu hfits hopen hview =>
    have hsame := h.sameLog_of_refused hlen hcpu hfits hopen
    rw [← (Tracer.claim_of_refused hlen hcpu hfits hopen).2.2] at hview
    exact hsame.trans (.of_view hview)

/-! ### Commands -/

/-- The record was dropped, or written to as many words as a record can have. -/
def Outcome.Inserted (o : Outcome) : Prop := o = .dropped ∨ ∃ cpu s, o = .written cpu s ∧ Event.isValidLength s.len = true

/-- The number of words added tells whether a record was dropped. -/
theorem Outcome.Inserted.failed {o : Outcome} (h : o.Inserted) {c : Command} (hc : c.inserts = true) :
    c.failed (UInt64.ofNat o.wordsAdded) = o.isDropped := by
  unfold Command.failed
  rw [hc, Bool.true_and]
  obtain rfl | ⟨cpu, s, rfl, hlen⟩ := h
  · rfl
  · obtain ⟨hpos, hle⟩ := isValidLength_iff.mp hlen
    have hsmall : ∀ n ≤ 8, 0 < n → (UInt64.ofNat n == Command.failure || UInt64.ofNat n == 0) = false := by decide
    exact hsmall s.len hle hpos

namespace Tracer

theorem insertMany_inserted (t : Tracer P) (words : List UInt64) : (t.insertMany words).1.Inserted := by
  unfold insertMany
  cases words with
  | nil => exact Or.inl rfl
  | cons first rest =>
    dsimp only
    split
    · exact Or.inl rfl
    · rename_i hlen
      have hvalid : Event.isValidLength (Head.recordLength first) = true := by simpa using hlen
      refine (insertAt_outcome _ _ _ _ _).imp id ?_
      rintro ⟨s, hs, hslen⟩
      refine ⟨_, s, hs, ?_⟩
      rw [List.length_map, List.length_range] at hslen
      have := isValidLength_iff.mp hvalid
      rw [hslen, Nat.sub_add_cancel this.1]
      exact hvalid

theorem insertUser_inserted (t : Tracer P) (address : UInt64) : (t.insertUser address).1.Inserted := by
  unfold insertUser
  split
  · exact Or.inl rfl
  · exact t.insertMany_inserted _

theorem insert_inserted (t : Tracer P) (first : UInt64) : (t.insert first []).1.Inserted := by
  refine (insertAt_outcome _ _ _ _ _).imp id ?_
  rintro ⟨s, hs, hslen⟩
  exact ⟨_, s, hs, by rw [hslen]; rfl⟩

/-- A command fails just when it has a fault, unless it answers with a number whatever it is. -/
theorem execute_faulted (t : Tracer P) {c : Command} (hc : c.tellsNumber = false)
    (hflush : UInt64.ofNat t.flush.1 ≠ Command.failure) :
    Faulted t (t.commandFault? c) (c.failed (t.execute c).1) (t.execute c).2 := by
  cases c with
  | off | on | version => exact .of_none (by rfl) _
  | test =>
    refine .of_none ?_ _
    unfold execute
    dsimp only
    split <;> rfl
  | flush =>
    refine .of_none ?_ _
    change (UInt64.ofNat t.flush.1 == Command.failure || false) = false
    simpa using hflush
  | reset flags =>
    have hreset := t.reset_faulted (.ofBits flags)
    unfold execute commandFault?
    dsimp only
    generalize t.reset (.ofBits flags) = r at hreset ⊢
    obtain ⟨cause | _, u⟩ := r
    · exact ⟨hreset.failed_eq, fun f hf => by
        cases hreset.fails f hf with
        | untouched hs hview hmode htracing => exact .untouched hs hview hmode htracing
        | length hview htracing => exact .length hview htracing
        | space hlen hcpu hfits hopen hview htracing => exact .space hlen hcpu hfits hopen hview htracing⟩
    · exact ⟨hreset.failed_eq, hreset.fails⟩
  | insertWord w forced =>
    unfold execute commandFault?
    dsimp only
    split
    · dsimp only
      rw [(t.insert_inserted w).failed rfl]
      exact t.insert_faulted w []
    · exact .unchanged rfl rfl
  | insertUser address forced =>
    unfold execute commandFault?
    dsimp only
    split
    · dsimp only
      rw [(t.insertUser_inserted address).failed rfl]
      exact t.insertUser_faulted address
    · exact .unchanged rfl rfl
  | stat | count | word | rateWord | rawCount | rawWord => cases hc

end Tracer

/-- What a flush clears is less than the largest number. -/
theorem History.flush_answer (h : History t log) : UInt64.ofNat t.flush.1 ≠ Command.failure := by
  have hroom : ∀ n ∈ (t.cursors.toList.filter (·.hasRoom)).map fun c => c.limit - c.next, n ≤ blockWords := by
    intro n hn
    obtain ⟨x, hx, rfl⟩ := List.mem_map.mp hn
    obtain ⟨hmem, hx⟩ := List.mem_filter.mp hx
    obtain ⟨c, -, rfl⟩ := exists_cursor (v := t.view) hmem
    obtain ⟨p, -, hnext, hlimit, hin⟩ := h.placed.latest_of_hasRoom hx
    have hstart := hin.start
    have hheader := t.view.arena.blockStart_lt_recordStart p.block
    have hstop := p.span.start_le_stop
    rw [hnext, hlimit]
    unfold blockStop
    omega
  have hsum := List.sum_le_card_nsmul _ _ hroom
  have hcpus : (t.cursors.toList.filter (·.hasRoom)).length ≤ 256 :=
    Nat.le_trans (List.length_filter_le _ _) (Array.length_toList ▸ h.sized.cpus ▸ h.valid.2.2)
  rw [← t.cleared_flush, List.length_map, nsmul_eq_mul, Nat.cast_id] at hsum
  have hlt : t.flush.1 < 2 ^ 64 - 1 := by
    refine Nat.lt_of_le_of_lt (Nat.le_trans hsum (Nat.mul_le_mul_right _ hcpus)) ?_
    decide
  intro heq
  have hnat := congrArg UInt64.toNat heq
  rw [UInt64.toNat_ofNat_of_lt' (Nat.lt_trans hlt (by decide))] at hnat
  rw [hnat] at hlt
  exact absurd hlt (by decide)

/-! ### Actions -/

/-- The action answers with a number read from the log, whatever the number. -/
def Action.tellsNumber (a : Action) : Bool := a.command?.any (·.tellsNumber)

/-- An action fails just when it has a fault, unless it answers with a number whatever it is. -/
theorem History.perform_faulted (h : History t log) {a : Action} (ha : a.tellsNumber = false) :
    Faulted t (t.fault? a) (a.failed (t.perform a).1) (t.perform a).2 := by
  cases a with
  | claim cpu len => exact t.claim_faulted cpu len
  | insert first payload => exact t.insert_faulted first payload
  | insertReturn ret => exact t.insertReturn_faulted ret
  | insertMany words => exact t.insertMany_faulted words
  | insertUser address => exact t.insertUser_faulted address
  | traceEvent event arg => exact t.traceEvent_faulted event arg
  | traceSample event pc => exact t.traceSample_faulted event pc
  | traceWords event words => exact t.traceWords_faulted event words
  | traceName pid name => exact t.traceName_faulted pid name
  | reset mode =>
    have hreset := t.reset_faulted mode
    unfold Tracer.perform
    dsimp only
    generalize t.reset mode = r at hreset ⊢
    obtain ⟨cause | _, u⟩ := r
    · exact hreset
    · exact hreset
  | execute c => exact t.execute_faulted ha h.flush_answer
  | control code arg =>
    unfold Tracer.perform Tracer.control Tracer.fault? Action.failed Action.command?
    dsimp only
    cases hcode : Command.ofCode? code arg with
    | none => exact .unchanged rfl rfl
    | some c =>
      refine t.execute_faulted (c := c) ?_ h.flush_answer
      simpa [Action.tellsNumber, Action.command?, hcode] using ha
  | snapshot => exact .of_none rfl _

omit [Platform P] in
theorem Fails.untouched_of (hf : Fails t f u) (hstops : f.stops = false) :
    u.tracing = t.tracing ∧ u.mode = t.mode ∧ u.cursors = t.cursors ∧ u.arena = t.arena := by
  cases hf with
  | untouched _ hview hmode htracing =>
    exact ⟨htracing, hmode, congrArg LogView.cursors hview, congrArg LogView.arena hview⟩
  | length => cases hstops
  | space => cases hstops

omit [Platform P] in
theorem Fails.tracing_off (hf : Fails t f u) (hstops : f.stops = true) : u.tracing = false := by
  cases hf with
  | untouched hs => cases hs.symm.trans hstops
  | length _ htracing => exact htracing
  | space _ _ _ _ _ htracing => exact htracing

/-- Reading a number leaves the log alone. -/
theorem Tracer.view_of_tellsNumber (t : Tracer P) {a : Action} (ha : a.tellsNumber = true) :
    (t.perform a).2.view = t.view := by
  have hcommand : ∀ c : Command, c.tellsNumber = true → (t.execute c).2.view = t.view := by
    intro c hc
    cases c with
    | stat => rfl
    | count | word | rateWord | rawCount | rawWord => exact t.off_same.2.2
    | _ => cases hc
  cases a with
  | execute c => exact hcommand c ha
  | control code arg =>
    unfold perform control
    dsimp only
    cases hcode : Command.ofCode? code arg with
    | none => rfl
    | some c => exact hcommand c (by simpa [Action.tellsNumber, Action.command?, hcode] using ha)
  | _ => cases ha

theorem Tracer.fault?_of_tellsNumber (t : Tracer P) {a : Action} (ha : a.tellsNumber = true) : t.fault? a = none := by
  have hcommand : ∀ c : Command, c.tellsNumber = true → t.commandFault? c = none := by
    intro c hc
    cases c with
    | stat | count | word | rateWord | rawCount | rawWord => rfl
    | _ => cases hc
  cases a with
  | execute c => exact hcommand c ha
  | control code arg =>
    unfold fault?
    dsimp only
    cases hcode : Command.ofCode? code arg with
    | none => simp [Action.tellsNumber, Action.command?, hcode] at ha
    | some c => exact hcommand c (by simpa [Action.tellsNumber, Action.command?, hcode] using ha)
  | _ => cases ha

/-- What an action that fails leaves. -/
structure FailureLeavesLog (t : Tracer P) (a : Action) : Prop where
  fails : (t.fault? a).isSome = true → a.failed (t.perform a).1 = true
  /-- An action that fails has a fault, but for a number read from the log that happens to have all bits set. -/
  fault : a.failed (t.perform a).1 = true → (t.fault? a).isSome = true ∨ a.tellsNumber = true
  /-- All readers tell what they told before. -/
  log : a.failed (t.perform a).1 = true → SameLog t (t.perform a).2
  /-- A bad length and a full arena end tracing. -/
  stopped : ∀ f, t.fault? a = some f → f.stops = true → (t.perform a).2.tracing = false
  /-- All other faults leave the session as it is. -/
  untouched : ∀ f, t.fault? a = some f → f.stops = false →
    (t.perform a).2.tracing = t.tracing ∧ (t.perform a).2.mode = t.mode ∧ (t.perform a).2.cursors = t.cursors ∧
      (t.perform a).2.arena = t.arena

/-- Whatever the reason for which an action fails, the log is the same afterwards. -/
theorem failures_leave_log (h : History t log) (a : Action) : FailureLeavesLog t a := by
  cases hreads : a.tellsNumber
  · have hfaulted := h.perform_faulted hreads
    refine ⟨fun hfault => ?_, fun hfailed => Or.inl ?_, fun hfailed => ?_, fun f hf => ?_, fun f hf => ?_⟩
    · rwa [hfaulted.failed_eq]
    · rwa [hfaulted.failed_eq] at hfailed
    · rw [hfaulted.failed_eq] at hfailed
      obtain ⟨f, hf⟩ := Option.isSome_iff_exists.mp hfailed
      exact (hfaulted.fails f hf).sameLog h
    · exact (hfaulted.fails f hf).tracing_off
    · exact (hfaulted.fails f hf).untouched_of
  · have hnone := t.fault?_of_tellsNumber hreads
    refine ⟨fun hfault => ?_, fun _ => Or.inr hreads, fun _ => .of_view (t.view_of_tellsNumber hreads), fun f hf => ?_,
      fun f hf => ?_⟩
    · rw [hnone] at hfault
      cases hfault
    · cases hnone.symm.trans hf
    · cases hnone.symm.trans hf

/-- A CPU beyond the end of its block finds the arena full, and not for the first time. -/
theorem failures_leave_log_of_full_arena :
    ∃ (t : Tracer Simulated) (log : Ledger), History t log ∧ t.tracing = true ∧ t.arena.exhausted = true ∧
      t.view.count = 3 ∧ (t.cursor 0).limit < (t.cursor 0).next ∧ t.fault? (.claim 0 2) = some .space ∧
      (t.perform (.claim 0 2)).2.tracing = false ∧ FailureLeavesLog t (.claim 0 2) := by
  have hnew : History _ [] := .new (show Tracer.ofConfig ({} : Simulated) { blocks := 2 } = .ok _ from rfl)
  have hrun := (((((hnew.act {} (.claim 0 1)).act {} (.execute .flush)).act {} (.claim 0 2)).act {}
    (.execute .flush)).act {} (.claim 0 8)).act {} (.execute .on)
  exact ⟨_, _, hrun, by decide +kernel, by decide +kernel, by decide +kernel, by decide +kernel, by decide +kernel,
    by decide +kernel, failures_leave_log hrun (.claim 0 2)⟩

end History

end EventRecorder
