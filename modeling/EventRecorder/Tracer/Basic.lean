import EventRecorder.Arena.Frontier
import EventRecorder.Block.Clock
import EventRecorder.Config
import EventRecorder.Cursor
import EventRecorder.Notice
import EventRecorder.PacketFilter
import EventRecorder.PidSet
import EventRecorder.Platform.Basic

/-! # Tracers

A tracer records the events of several CPUs into one arena. This module holds its state and the smallest
changes to it. -/

namespace EventRecorder

/-- What a session was asked to do when it was started. -/
structure Mode where
  rates : Bool := false
  /-- Overwrite old blocks when the arena is full. -/
  wraps : Bool := false
deriving DecidableEq, Repr

namespace Mode

/-- The mode that the two lowest bits of a request ask for. -/
def ofBits (w : UInt64) : Mode := ⟨w &&& 1 != 0, w &&& 2 != 0⟩

/-- The flags byte of every block header of the session. -/
def flags (m : Mode) : UInt8 := (if m.rates then rateFlag else 0) ||| (if m.wraps then wrapFlag else 0)

end Mode

/-- A tracer on a platform of type `P`. -/
structure Tracer (P : Type) where
  platform : P
  config : Config
  arena : Arena
  cursors : Array Cursor
  clock : BlockClock := {}
  mode : Mode := {}
  tracing : Bool := false
  /-- The processes named in the log. -/
  named : PidSet := .empty
  packets : PacketFilter
  /-- All notices not yet taken, the last one first. -/
  journal : List Notice := []

namespace Tracer

variable {P : Type}

def report (t : Tracer P) (n : Notice) : Tracer P := { t with journal := n :: t.journal }

/-- Takes the notices out of the journal, the first one first. -/
def takeJournal (t : Tracer P) : List Notice × Tracer P := (t.journal.reverse, { t with journal := [] })

/-- The cursor of a CPU, empty for a CPU that the tracer does not serve. -/
def cursor (t : Tracer P) (cpu : Nat) : Cursor := t.cursors.getD cpu {}

def modifyCursor (t : Tracer P) (cpu : Nat) (f : Cursor → Cursor) : Tracer P :=
  { t with cursors := t.cursors.modify cpu f }

def on (t : Tracer P) : Tracer P :=
  if t.tracing then t else { t with tracing := true }.report .tracingOn

def off (t : Tracer P) : Tracer P :=
  if t.tracing then { t with tracing := false }.report .tracingOff else t

/-- Stops tracing because of a record length that no record can have. -/
def refuseLength (t : Tracer P) (len : Nat) : Tracer P := { t with tracing := false }.report (.badLength len)

section Platform
variable [Platform P]

def readTime (t : Tracer P) : UInt64 × Tracer P :=
  let (now, platform) := Platform.readTime t.platform
  (now, { t with platform })

def readInstructions (t : Tracer P) : UInt64 × Tracer P :=
  let (count, platform) := Platform.readInstructions t.platform
  (count, { t with platform })

/-- The CPU that runs the caller. -/
def currentCpu (t : Tracer P) : Nat := Platform.currentCpu t.platform

end Platform

end Tracer

end EventRecorder
