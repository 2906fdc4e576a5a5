import EventRecorder.Record.Head

/-! # Folding a return into its call

A return that directly follows its call on the same CPU needs no record of its own: the elapsed time
and the value go into two fields of the call's word that are otherwise zero. -/

namespace EventRecorder.Head

/-- A value that one signed byte can hold. -/
def fitsByte (value : Int64) : Bool := -128 ≤ value && value ≤ 127

/-- The argument of a word as a signed number. -/
def signedArg (w : UInt64) : Int64 := (argField.get w).toUInt16.toInt16.toInt64

/-- The time from the stamp of `call` to the stamp of `ret`, modulo 2^20. No elapsed time counts as one
tick, because a merged word is recognised by its elapsed time. -/
def elapsed (call ret : UInt64) : UInt64 :=
  let ticks := (timestampField.get ret - timestampField.get call) &&& ones 20
  if ticks = 0 then 1 else ticks

/-- The fields that a call and its return share but for the return bit. -/
def pairMask : UInt64 := eventField.mask ||| deltaField.mask ||| retvalField.mask

/-- The word of `call` with the return `ret` folded into it. It exists if the two words differ by the
return bit alone in event, elapsed time and return value, the value fits a signed byte and the elapsed
time fits eight bits. -/
def merge? (call ret : UInt64) : Option UInt64 :=
  if (call ^^^ ret) &&& pairMask ≠ eventField.place Event.returnBit then none
  else if !fitsByte (signedArg ret) then none
  else if 255 < elapsed call ret then none
  else some (call ||| deltaField.place (elapsed call ret) ||| retvalField.place (argField.get ret))

end EventRecorder.Head
