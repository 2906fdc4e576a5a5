import EventRecorder.Command
import EventRecorder.Tracer.Hooks

/-! # The loader

A loader holds one tracer or none. Commands and hooks reach the tracer through it. -/

namespace EventRecorder

inductive Phase where
  | unloaded
  | stopped
  | running
deriving DecidableEq, Repr

variable {P : Type}

def Tracer.phase (t : Tracer P) : Phase := if t.tracing then .running else .stopped

structure Loader (P : Type) where
  active : Option (Tracer P) := none
  /-- The loader's own notices not yet taken, the last one first. -/
  journal : List Notice := []

namespace Loader

def report (l : Loader P) (n : Notice) : Loader P := { l with journal := n :: l.journal }

def isLoaded (l : Loader P) : Bool := l.active.isSome

def phase (l : Loader P) : Phase := (l.active.map Tracer.phase).getD .unloaded

section
variable [Platform P]

/-- Makes a tracer and loads it. Refused if one is loaded already or the settings have a fault. -/
def load (l : Loader P) (platform : P) (config : Config) : Except Error Unit × Loader P :=
  match l.active with
  | some _ => (.error .alreadyLoaded, l)
  | none =>
    match Tracer.ofConfig platform config with
    | .error cause => (.error cause, l)
    | .ok t => (.ok (), { l with active := some t }.report .loaded)

/-- Stops the tracer and gives it back. -/
def unload (l : Loader P) : Except Error (Tracer P) × Loader P :=
  match l.active with
  | none => (.error .notLoaded, l)
  | some t =>
    let t := t.off
    (.ok t, { l with active := none }.report (.unloaded t.blocksUsed))

/-- Carries out the command with a code and an argument on the loaded tracer. -/
def control (l : Loader P) (code arg : UInt64) : UInt64 × Loader P :=
  match l with
  | ⟨some t, journal⟩ => let (n, t) := t.control code arg; (n, ⟨some t, journal⟩)
  | ⟨none, journal⟩ => (Command.failure, ⟨none, .commandIgnored code :: journal⟩)

/-- Records an event on the loaded tracer; without one the event is dropped. -/
def record (l : Loader P) (hook : Tracer P → Outcome × Tracer P) : Outcome × Loader P :=
  match l with
  | ⟨some t, journal⟩ => let (o, t) := hook t; (o, ⟨some t, journal⟩)
  | ⟨none, journal⟩ => (.dropped, ⟨none, journal⟩)

def traceEvent (l : Loader P) (event arg : UInt64) : Outcome × Loader P := l.record (·.traceEvent event arg)

def traceSample (l : Loader P) (event pc : UInt64) : Outcome × Loader P := l.record (·.traceSample event pc)

def traceWords (l : Loader P) (event : UInt64) (words : List UInt64) : Outcome × Loader P :=
  l.record (·.traceWords event words)

def traceName (l : Loader P) (pid : UInt32) (name : TaskName) : Outcome × Loader P := l.record (·.traceName pid name)

end

end Loader

end EventRecorder
