import EventRecorder.Bits
import EventRecorder.Platform.Basic

/-! # Simulated platforms

A simulated platform shows what it was told to show. Its counters may advance by a fixed step after every
reading, and its time counter may be narrow. -/

namespace EventRecorder

/-- A platform whose readings are set from outside. -/
structure Simulated where
  time : UInt64 := 0
  /-- What the time advances by after a reading. -/
  timeStep : UInt64 := 0
  instructions : UInt64 := 0
  /-- What the instructions advance by after a reading. -/
  instructionStep : UInt64 := 0
  frequency : UInt64 := 0
  bits : Nat := 64
  cpu : Nat := 0
  task : Task := .idle
  /-- The CPUs whose counters were set up, the last one first. -/
  setUps : List Nat := []
  /-- Readable user memory by address; a later entry for an address comes first and counts. -/
  memory : List (UInt64 × Vector UInt64 8) := []

namespace Simulated

/-- The platform with a time counter of `bits` bits, at least one and at most 64. -/
def withBits (p : Simulated) (bits : Nat) : Simulated := { p with bits := min (max bits 1) 64 }

/-- The platform with eight words of user memory at an address. -/
def withMemory (p : Simulated) (address : UInt64) (words : Vector UInt64 8) : Simulated :=
  { p with memory := (address, words) :: p.memory }

instance : Platform Simulated where
  readTime p := (p.time &&& ones p.bits, { p with time := p.time + p.timeStep })
  currentCpu p := p.cpu
  counterBits p := p.bits
  readInstructions p := (p.instructions, { p with instructions := p.instructions + p.instructionStep })
  frequency p := p.frequency
  currentTask p := p.task
  setUpCounters p cpu := { p with setUps := cpu :: p.setUps }
  userWords p address := match p.memory.lookup address with
    | some words => .ok words
    | none => .error (.badAddress address)

end Simulated

end EventRecorder
