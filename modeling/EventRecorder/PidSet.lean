/-! # Sets of processes

The processes already named in the log are remembered by one bit for each value of the low 16 bits of
their number. -/

namespace EventRecorder

/-- A set of numbers below 2^16, one bit each, 64 of them in a word. -/
structure PidSet where
  words : Vector UInt64 1024

namespace PidSet

def empty : PidSet := ⟨Vector.replicate 1024 0⟩

/-- The word that holds the bit of `pid`. -/
def slot (pid : UInt32) : Fin 1024 := ⟨pid.toNat % 65536 / 64, by omega⟩

/-- The bit of `pid` within its word. -/
def bit (pid : UInt32) : UInt64 := 1 <<< UInt64.ofNat (pid.toNat % 64)

/-- The set holds the low 16 bits of `pid`. -/
def contains (s : PidSet) (pid : UInt32) : Bool := s.words[slot pid] &&& bit pid != 0

/-- The set with the low 16 bits of `pid` added. -/
def insert (s : PidSet) (pid : UInt32) : PidSet := ⟨s.words.set (slot pid) (s.words[slot pid] ||| bit pid)⟩

end PidSet

end EventRecorder
