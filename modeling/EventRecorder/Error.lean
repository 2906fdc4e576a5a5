import EventRecorder.Hex

/-! # Errors

What setting up and controlling a tracer can be refused for. Recording an event never fails with an
error: an event that cannot be recorded is dropped. -/

namespace EventRecorder

/-- Why an operation of setup or control was refused. -/
inductive Error where
  /-- The arena has fewer than two blocks. -/
  | arenaTooSmall (blocks : Nat)
  /-- The number of CPUs is zero or does not fit the CPU field of a block header. -/
  | badCpuCount (cpus : Nat)
  | tracingActive
  | alreadyLoaded
  | notLoaded
  /-- The user memory at this address cannot be read. -/
  | badAddress (address : UInt64)
deriving DecidableEq, Repr

def Error.message : Error → String
  | arenaTooSmall blocks => s!"Invalid arena size: {blocks} blocks (minimum 2)"
  | badCpuCount cpus => s!"Invalid CPU count: {cpus}"
  | tracingActive => "Tracing must be off"
  | alreadyLoaded => "Tracer already loaded"
  | notLoaded => "No tracer loaded"
  | badAddress address => "Bad user address: " ++ hex address.toNat

end EventRecorder
