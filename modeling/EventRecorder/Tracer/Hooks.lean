import EventRecorder.Tracer.Insert

/-! # Hooks

The hooks are called where events happen. They do nothing while tracing is off. -/

namespace EventRecorder.Tracer

variable {P : Type} [Platform P]

/-- Records an event of one word. A return of a trap, an interrupt or a system call whose value fits a
signed byte may be folded into its call. -/
def traceEvent (t : Tracer P) (event arg : UInt64) : Outcome × Tracer P :=
  if !t.tracing then (.dropped, t)
  else if Event.isFoldableReturn event && Head.fitsByte arg.toInt64 then
    t.insertReturn (Head.returnWord event arg.toInt64)
  else
    t.insert (Head.callWord event arg) []

/-- Records a program counter together with the frequency of the CPU. -/
def traceSample (t : Tracer P) (event pc : UInt64) : Outcome × Tracer P :=
  if !t.tracing then (.dropped, t)
  else t.insert (Head.callWord event (Platform.frequency t.platform)) [pc]

/-- Records an event of several words. Their number is added to the event code, which is added to the
first word. A number that no record can have ends tracing. -/
def traceWords (t : Tracer P) (event : UInt64) (words : List UInt64) : Outcome × Tracer P :=
  if !t.tracing then (.dropped, t)
  else if !Event.isValidLength words.length then (.dropped, t.refuseLength words.length)
  else
    let code := Head.eventField.place (Event.withLength event words.length)
    t.insertMany (words.modifyHead (· ||| code))

/-- Records the name of a process unless the log already holds it. -/
def traceName (t : Tracer P) (pid : UInt32) (name : TaskName) : Outcome × Tracer P :=
  if !t.tracing || t.named.contains pid then (.dropped, t)
  else
    let (low, high) := name.toWords
    let first := Head.callWord Event.processNameRecord (Head.argField.get pid.toUInt64)
    { t with named := t.named.insert pid }.insertMany [first, low, high]

end EventRecorder.Tracer
