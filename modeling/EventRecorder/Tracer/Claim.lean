import EventRecorder.Block.Layout
import EventRecorder.Event
import EventRecorder.Tracer.Basic

/-! # Claims

A claim gives a CPU a few consecutive words of its block. When they do not fit, the block is closed and the
CPU gets the next block of the frontier. The claim is refused if there is no such block, and tracing ends. -/

namespace EventRecorder.Tracer

variable {P : Type} [Platform P]

/-- Sets up the counters of a CPU at its first block of a session. -/
def prepareCounters (t : Tracer P) (cpu : Nat) : Tracer P :=
  if (t.cursor cpu).ready then t
  else { t with platform := Platform.setUpCounters t.platform cpu }.modifyCursor cpu ({ · with ready := true })

/-- Stamps and lays out a block just opened by a CPU, and marks it as written to. -/
def startBlock (t : Tracer P) (cpu : Nat) (o : Opening) : Tracer P :=
  let (now, t) := t.readTime
  let (timestamp, clock) := t.clock.stamp now (Platform.counterBits t.platform)
  let header := ⟨UInt8.ofNat cpu, timestamp, t.mode.flags, 0⟩
  let task := Platform.currentTask t.platform
  let t := { t with clock, arena := t.arena.layOut o header task }.prepareCounters cpu
  let block := t.arena.blockOf o.start
  { t with arena := t.arena.startFilling block }.report (.blockOpened block cpu timestamp)

/-- Gives a CPU the first words for records of the next block of the frontier. -/
def claimFresh (t : Tracer P) (cpu len : Nat) : Option Span × Tracer P :=
  let (opening?, arena) := t.arena.openBlock t.mode.wraps
  let t := { t with arena }
  match opening? with
  | none => (none, if t.tracing then { t with tracing := false }.report .arenaFull else t)
  | some o =>
    let t := if o.wrapped then { t with named := .empty }.report .arenaWrapped else t
    let t := t.startBlock cpu o
    let claim : Span := ⟨o.recordStart, len⟩
    (some claim, t.modifyCursor cpu ({ · with next := claim.stop, limit := o.start + blockWords }))

/-- Closes the block of a cursor at the word `stop`, or at its end if that comes first. -/
def closeBlock (t : Tracer P) (limit stop : Nat) : Tracer P :=
  { t with arena := t.arena.close (t.arena.blockOf (limit - 1)) (min stop limit) }

/-- Gives a CPU `len` consecutive words. A length that no record can have ends tracing, and a CPU that the
tracer does not serve gets nothing. The cursor moves on at every attempt, so a CPU whose block overflowed
moves twice. -/
def claim (t : Tracer P) (cpu len : Nat) : Option Span × Tracer P :=
  if !Event.isValidLength len then (none, t.refuseLength len)
  else if t.cursors.size ≤ cpu then (none, t)
  else
    let c := t.cursor cpu
    let claim : Span := ⟨c.next, len⟩
    let t := t.modifyCursor cpu ({ · with next := claim.stop })
    match verdict c.limit c.limit claim with
    | .accept => (some claim, t)
    | .retry => t.claimFresh cpu len
    | .overflow =>
      let t := t.closeBlock c.limit c.next
      (t.modifyCursor cpu fun c => { c with next := c.next + len }).claimFresh cpu len

end EventRecorder.Tracer
