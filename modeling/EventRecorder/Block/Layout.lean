import EventRecorder.Arena.Frontier
import EventRecorder.Arena.Region
import EventRecorder.Block.Header
import EventRecorder.Task

/-! # The layout of a block

A block holds, from its start: two header words, in block 0 six words about the session, four words about
the task that opened it, and the records. Its last eight words start as zero, and records leave at least
the last of them zero. -/

namespace EventRecorder

/-- The words about the session in block 0. -/
def sessionWords : Nat := 6

/-- The zero words at the end of a block. -/
def tailWords : Nat := 8

/-- The first word of the task in a block just opened. -/
def Opening.taskStart (o : Opening) : Nat := o.start + 2 + if o.veryFirst then sessionWords else 0

/-- The first word for records in a block just opened. -/
def Opening.recordStart (o : Opening) : Nat := o.taskStart + 4

namespace Arena

/-- Writes the four words of a task: process, zero, and the name in two words. -/
def writeTask (a : Arena) (i : Nat) (task : Task) : Arena :=
  let (low, high) := task.name.toWords
  a.setWords i [task.pid.toUInt64, 0, low, high]

/-- Writes header, task and tail of a block just opened. Words between them are left as they are. -/
def layOut (a : Arena) (o : Opening) (header : Header) (task : Task) : Arena :=
  let (w₀, w₁) := header.toWords
  let a := a.setWords o.start [w₀, w₁]
  let a := if o.veryFirst then a.zero (o.start + 2) sessionWords else a
  (a.writeTask o.taskStart task).zero (o.start + blockWords - tailWords) tailWords

/-- The header of block `k`. -/
def header (a : Arena) (k : Nat) : Header := .ofWords (a.word (a.blockStart k)) (a.word (a.blockStart k + 1))

/-- The task that opened block `k`. -/
def task (a : Arena) (k : Nat) : Task :=
  let i := a.blockStart k + headerWords k - 4
  ⟨(a.word i).toUInt32, .ofWords (a.word (i + 2)) (a.word (i + 3))⟩

end Arena

end EventRecorder
