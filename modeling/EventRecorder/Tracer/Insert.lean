import EventRecorder.Arena.Rates
import EventRecorder.Rate
import EventRecorder.Record.Merge
import EventRecorder.Tracer.Claim

/-! # Inserting records

A record is stamped with the time read before anything else and written to words claimed by the current
CPU. An insertion never fails with an error: a record for which no words can be claimed is dropped. -/

namespace EventRecorder

/-- What became of a record. -/
inductive Outcome where
  /-- The record was not recorded. -/
  | dropped
  /-- The record was written to these words, claimed by this CPU. -/
  | written (cpu : Nat) (words : Span)
  /-- The record was a return and was folded into the word at this index, written by this CPU. -/
  | merged (cpu index : Nat)
deriving DecidableEq, Repr

/-- The number of words that a record added to the log. -/
def Outcome.wordsAdded : Outcome → Nat
  | written _ words => words.len
  | dropped | merged .. => 0

namespace Tracer

variable {P : Type} [Platform P]

/-! ### Rates -/

/-- The rate of a CPU since its last event whose rate was measured, when the time is `now`. -/
def measureRate (t : Tracer P) (cpu : Nat) (now : UInt64) : UInt8 × Tracer P :=
  let (count, t) := t.readInstructions
  let c := t.cursor cpu
  let rate := Rate.ofDeltas (count - c.priorInstructions) (now - c.priorTime)
  (UInt8.ofNat rate, t.modifyCursor cpu ({ · with priorTime := now, priorInstructions := count }))

/-- Notes the rate of the record that starts at the word `i`, in a session that measures rates. -/
def noteRate (t : Tracer P) (cpu i : Nat) (now : UInt64) : Tracer P :=
  if t.mode.rates then
    let (rate, t) := t.measureRate cpu now
    { t with arena := t.arena.setRate i rate }
  else t

/-- Adds the rate of a return to the record at the word `i` that absorbed it. -/
def noteReturnRate (t : Tracer P) (cpu i : Nat) (now : UInt64) : Tracer P :=
  if t.mode.rates then
    let (rate, t) := t.measureRate cpu now
    { t with arena := t.arena.orRate i (rate <<< 4) }
  else t

/-! ### Records -/

/-- Writes a record on a CPU at the time `now`. -/
def insertAt (t : Tracer P) (cpu : Nat) (now first : UInt64) (payload : List UInt64) : Outcome × Tracer P :=
  match t.claim cpu (payload.length + 1) with
  | (none, t) => (.dropped, t)
  | (some claim, t) =>
    let t := { t with arena := t.arena.setWords claim.start (Head.stamp first now :: payload) }
    (.written cpu claim, t.noteRate cpu claim.start now)

/-- Writes a record on the current CPU. -/
def insert (t : Tracer P) (first : UInt64) (payload : List UInt64) : Outcome × Tracer P :=
  let (now, t) := t.readTime
  t.insertAt t.currentCpu now first payload

/-- The index of the word just before the cursor of a CPU, if the CPU still writes to its block. -/
def priorIndex (t : Tracer P) (cpu : Nat) : Option Nat :=
  let c := t.cursor cpu
  if c.hasRoom then some (c.next - 1) else none

/-- The word just before the cursor of a CPU with the return `ret` folded into it, and its index. -/
def merged? (t : Tracer P) (cpu : Nat) (ret : UInt64) : Option (Nat × UInt64) := do
  let i ← t.priorIndex cpu
  let w ← Head.merge? (t.arena.word i) ret
  return (i, w)

/-- Folds a return into the call just before it on the current CPU, or writes it as a record of its own. -/
def insertReturn (t : Tracer P) (ret : UInt64) : Outcome × Tracer P :=
  let (now, t) := t.readTime
  let cpu := t.currentCpu
  match t.merged? cpu (Head.stamp ret now) with
  | some (i, w) => (.merged cpu i, { t with arena := t.arena.setWord i w }.noteReturnRate cpu i now)
  | none => t.insertAt cpu now ret []

/-- Writes a record of the length that its first word announces. Missing words are zero and surplus words
are dropped. A length that no record can have ends tracing; no words at all count as length zero. -/
def insertMany (t : Tracer P) (words : List UInt64) : Outcome × Tracer P :=
  match words with
  | [] => (.dropped, t.refuseLength 0)
  | first :: rest =>
    let len := Head.recordLength first
    if !Event.isValidLength len then (.dropped, t.refuseLength len)
    else t.insert first ((List.range (len - 1)).map (rest.getD · 0))

/-- Writes a record found in eight words of user memory; nothing is written if they cannot be read. -/
def insertUser (t : Tracer P) (address : UInt64) : Outcome × Tracer P :=
  match Platform.userWords t.platform address with
  | .error _ => (.dropped, t)
  | .ok words => t.insertMany words.toList

end Tracer

end EventRecorder
