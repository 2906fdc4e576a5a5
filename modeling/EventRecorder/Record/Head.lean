import EventRecorder.Event

/-! # The first word of a record

Every record starts with one word of five fields, from the top: 20 bits of timestamp, 12 bits of event
code, 8 bits of elapsed time, 8 bits of return value and 16 bits of argument. Elapsed time and return
value belong to calls that absorbed their return. An event that never pairs with a return may use the
low 32 bits as one wide argument. -/

namespace EventRecorder

/-- The fields of a record's first word. -/
structure Head where
  timestamp : UInt32
  event : UInt16
  delta : UInt8
  retval : UInt8
  arg : UInt16
deriving DecidableEq, Repr

namespace Head

/-- The low 20 bits of the time at which the record was made. -/
def timestampField : BitField := ⟨44, 20, by decide, by decide⟩

def eventField : BitField := ⟨32, 12, by decide, by decide⟩

/-- The time from a call to its return; zero unless the record holds both. -/
def deltaField : BitField := ⟨24, 8, by decide, by decide⟩

/-- The return value of a call that absorbed its return. -/
def retvalField : BitField := ⟨16, 8, by decide, by decide⟩

def argField : BitField := ⟨0, 16, wordSize_pos, by decide⟩

/-- The argument of an event that never pairs with a return. -/
def wideArgField : BitField := ⟨0, 32, wordSize_pos, by decide⟩

def ofWord (w : UInt64) : Head where
  timestamp := (timestampField.get w).toUInt32
  event := (eventField.get w).toUInt16
  delta := (deltaField.get w).toUInt8
  retval := (retvalField.get w).toUInt8
  arg := (argField.get w).toUInt16

/-- Packs the five fields into a word; timestamp and event code are cut to the width of their field. -/
def toWord (h : Head) : UInt64 :=
  timestampField.place h.timestamp.toUInt64 ||| eventField.place h.event.toUInt64 |||
    deltaField.place h.delta.toUInt64 ||| retvalField.place h.retval.toUInt64 ||| argField.place h.arg.toUInt64

/-- The record is a call that absorbed its return. -/
def isMerged (h : Head) : Bool := h.delta != 0

/-- The return value as a signed number. -/
def signedRetval (h : Head) : Int8 := h.retval.toInt8

/-- The first word of a call or of a single event, not yet stamped, with a 32-bit argument. -/
def callWord (event arg : UInt64) : UInt64 := eventField.place event ||| wideArgField.place arg

/-- The first word of a return, not yet stamped, with the low 16 bits of its value. -/
def returnWord (event : UInt64) (value : Int64) : UInt64 := eventField.place event ||| argField.place value.toUInt64

/-- The word `w` with the low 20 bits of the time `now` as its timestamp. -/
def stamp (w now : UInt64) : UInt64 := timestampField.set now w

/-- The number of words of the record that starts with `w`, as its event code tells. -/
def recordLength (w : UInt64) : Nat := Event.length (eventField.get w)

end Head

end EventRecorder
