import EventRecorder.Command
import EventRecorder.Tracer.Hooks

/-! # Actions

Every call to a tracer as data, with its answer. A run of a tracer is a list of actions. -/

namespace EventRecorder

inductive Action where
  | claim (cpu len : Nat)
  | insert (first : UInt64) (payload : List UInt64)
  /-- Inserts a return or folds it into its call. -/
  | insertReturn (ret : UInt64)
  /-- Inserts a record of the length that its first word announces. -/
  | insertMany (words : List UInt64)
  | insertUser (address : UInt64)
  | traceEvent (event arg : UInt64)
  /-- Traces a program counter. -/
  | traceSample (event pc : UInt64)
  /-- Traces an event of several words. -/
  | traceWords (event : UInt64) (words : List UInt64)
  | traceName (pid : UInt32) (name : TaskName)
  | reset (mode : Mode)
  | execute (command : Command)
  | control (code arg : UInt64)
  | snapshot
deriving DecidableEq, Repr

inductive Answer where
  | claimed (span : Option Span)
  | recorded (outcome : Outcome)
  | done (result : Except Error Unit)
  | number (n : UInt64)
  | copied (s : Snapshot)

variable {P : Type} [Platform P]

def Tracer.perform (t : Tracer P) : Action → Answer × Tracer P
  | .claim cpu len => let (span, t) := t.claim cpu len; (.claimed span, t)
  | .insert first payload => let (o, t) := t.insert first payload; (.recorded o, t)
  | .insertReturn ret => let (o, t) := t.insertReturn ret; (.recorded o, t)
  | .insertMany words => let (o, t) := t.insertMany words; (.recorded o, t)
  | .insertUser address => let (o, t) := t.insertUser address; (.recorded o, t)
  | .traceEvent event arg => let (o, t) := t.traceEvent event arg; (.recorded o, t)
  | .traceSample event pc => let (o, t) := t.traceSample event pc; (.recorded o, t)
  | .traceWords event words => let (o, t) := t.traceWords event words; (.recorded o, t)
  | .traceName pid name => let (o, t) := t.traceName pid name; (.recorded o, t)
  | .reset mode => let (result, t) := t.reset mode; (.done result, t)
  | .execute command => let (n, t) := t.execute command; (.number n, t)
  | .control code arg => let (n, t) := t.control code arg; (.number n, t)
  | .snapshot => let (s, t) := t.snapshot; (.copied s, t)

end EventRecorder
