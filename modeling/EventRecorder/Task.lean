import EventRecorder.Bytes

/-! # Tasks

The task that runs on a CPU is known by its process and sixteen bytes of name, padded with zero bytes. -/

namespace EventRecorder

/-- The name of a task, sixteen bytes padded with zero bytes. -/
abbrev TaskName := Vector UInt8 16

namespace TaskName

/-- The first sixteen of `bytes`, padded with zero bytes. -/
def ofBytes (bytes : List UInt8) : TaskName := Vector.ofFn fun i => bytes.getD i 0

/-- The encoding of `text`, cut after sixteen bytes even inside a character. -/
def ofString (text : String) : TaskName := ofBytes text.toUTF8.toList

/-- The name as two words of eight bytes each. -/
def toWords (name : TaskName) : UInt64 × UInt64 :=
  (wordOfBytes (name.toList.take 8), wordOfBytes (name.toList.drop 8))

/-- The name that two words of eight bytes hold. -/
def ofWords (low high : UInt64) : TaskName := ofBytes (bytesOfWord 8 low ++ bytesOfWord 8 high)

/-- The text before the first zero byte; empty if the bytes are no text. -/
def text (name : TaskName) : String :=
  (String.fromUTF8? (name.toList.takeWhile (· != 0)).toByteArray).getD ""

end TaskName

structure Task where
  pid : UInt32
  name : TaskName
deriving DecidableEq, Repr

/-- The task of an idle CPU, without a process and without a name. -/
def Task.idle : Task := ⟨0, .ofBytes []⟩

end EventRecorder
