import EventRecorder.Arena.Basic
import EventRecorder.Bits

/-! # Rates beside the log

A session that measures rates keeps one byte for every word of the log, with the bucket of the record that
starts there in its low half and the bucket of a return folded into the record in its high half. The byte
of the word at index `i` is the byte `i` of the arena counted from its bottom, so eight bytes share a word. -/

namespace EventRecorder.Arena

/-- The bits of the rate byte of word `i` within the word that holds it. -/
def rateLane (i : Nat) : BitField := ⟨i % 8 * 8, 8, by omega, by omega⟩

def rate (a : Arena) (i : Nat) : UInt8 := ((rateLane i).get (a.word (i / 8))).toUInt8

/-- Writes the rate byte of the word at index `i`. -/
def setRate (a : Arena) (i : Nat) (b : UInt8) : Arena :=
  a.setWord (i / 8) ((rateLane i).set b.toUInt64 (a.word (i / 8)))

/-- Adds bits to the rate byte of the word at index `i`. -/
def orRate (a : Arena) (i : Nat) (b : UInt8) : Arena :=
  a.orWord (i / 8) ((rateLane i).place b.toUInt64)

end EventRecorder.Arena
