import EventRecorder.Platform.Basic

/-! # Platforms that only tell the time

The least that a tracer can run on: a time counter and the number of the CPU. -/

namespace EventRecorder

/-- A platform without instruction counter, frequency, tasks and user memory. -/
structure TimeOnly where
  time : UInt64 := 0
  /-- What the time advances by after a reading. -/
  timeStep : UInt64 := 0
  cpu : Nat := 0
deriving DecidableEq, Repr

instance : Platform TimeOnly where
  readTime p := (p.time, { p with time := p.time + p.timeStep })
  currentCpu p := p.cpu

end EventRecorder
