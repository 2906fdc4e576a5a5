import EventRecorder.Error
import EventRecorder.Task

/-! # Platforms

A tracer reads no hardware itself. Time, instructions, the CPU and its task come from a platform, whose
state may change with every reading. -/

namespace EventRecorder

/-- What a tracer needs to know about the machine it runs on. A reading that may change the state of the
platform returns the new state. -/
class Platform (P : Type) where
  readTime : P → UInt64 × P
  /-- The CPU that runs the caller. -/
  currentCpu : P → Nat
  /-- The width of the time counter in bits. -/
  counterBits : P → Nat := fun _ => 64
  /-- Reads the counter of retired instructions; zero if there is none. -/
  readInstructions : P → UInt64 × P := fun p => (0, p)
  /-- The frequency of the CPU in megahertz; zero if unknown. -/
  frequency : P → UInt64 := fun _ => 0
  /-- The task that runs on the current CPU. -/
  currentTask : P → Task := fun _ => .idle
  /-- Sets up the counters of a CPU, once in a session. -/
  setUpCounters : P → Nat → P := fun p _ => p
  /-- The eight words of user memory at an address. -/
  userWords : P → UInt64 → Except Error (Vector UInt64 8) := fun _ address => .error (.badAddress address)

end EventRecorder
