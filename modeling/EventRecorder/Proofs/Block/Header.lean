import EventRecorder.Block.Header
import EventRecorder.Proofs.Bits

/-! # Reading headers back -/

namespace EventRecorder.Header

theorem topField_apart_timeField : topField.Apart timeField := Or.inr (Nat.le_refl 56)

theorem get_top (time : UInt64) (b : UInt8) :
    (topField.get (timeField.place time ||| topField.place b.toUInt64)).toUInt8 = b := by
  have hb : b.toUInt64.toNat < 2 ^ topField.width := b.toNat_lt
  rw [BitField.get_or, BitField.get_place_of_apart topField_apart_timeField, BitField.get_place _ hb]
  simp

theorem get_time (time : UInt64) (b : UInt8) :
    timeField.get (timeField.place time ||| topField.place b.toUInt64) = time &&& ones 56 := by
  have hapart : timeField.Apart topField := Or.inl (Nat.le_refl 56)
  rw [BitField.get_or, BitField.get_place_of_apart hapart, BitField.get_place_eq, UInt64.or_zero]
  rfl

/-- The first word of a header tells the CPU. -/
theorem get_cpu (h : Header) : (topField.get h.toWords.1).toUInt8 = h.cpu := get_top h.timestamp h.cpu

/-- A header is read back from its two words, with its times cut to 56 bits. -/
theorem ofWords_toWords (h : Header) :
    ofWords h.toWords.1 h.toWords.2 =
      ⟨h.cpu, h.timestamp &&& ones 56, h.flags, h.wallClock &&& ones 56⟩ := by
  unfold ofWords toWords
  dsimp only
  rw [get_top, get_top, get_time, get_time]

end EventRecorder.Header
