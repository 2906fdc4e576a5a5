import EventRecorder.Bits

/-! # Block headers

A block starts with two words. The first holds the CPU and the stamp of the block, the second the flags of
the session and a wall-clock value that stays zero while the log is recorded. -/

namespace EventRecorder

/-- The flag of a session that measures rates. -/
def rateFlag : UInt8 := 0x80

/-- The flag of a session that wraps. -/
def wrapFlag : UInt8 := 0x40

/-- The header of a block. -/
structure Header where
  cpu : UInt8
  timestamp : UInt64
  flags : UInt8
  wallClock : UInt64
deriving DecidableEq, Repr

namespace Header

/-- The CPU in the first word, or the flags in the second. -/
def topField : BitField := ⟨56, 8, by decide, by decide⟩

/-- The stamp in the first word, or the wall-clock value in the second. -/
def timeField : BitField := ⟨0, 56, wordSize_pos, by decide⟩

/-- The two words of a header; both times are cut to 56 bits. -/
def toWords (h : Header) : UInt64 × UInt64 :=
  (timeField.place h.timestamp ||| topField.place h.cpu.toUInt64,
   timeField.place h.wallClock ||| topField.place h.flags.toUInt64)

/-- The header that two words hold. -/
def ofWords (w₀ w₁ : UInt64) : Header where
  cpu := (topField.get w₀).toUInt8
  timestamp := timeField.get w₀
  flags := (topField.get w₁).toUInt8
  wallClock := timeField.get w₁

/-- The block has rates. -/
def hasRates (h : Header) : Bool := h.flags &&& rateFlag != 0

/-- The block belongs to a session that wraps. -/
def wraps (h : Header) : Bool := h.flags &&& wrapFlag != 0

end Header

end EventRecorder
