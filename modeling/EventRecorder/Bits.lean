/-! # Bit fields of 64-bit words

A field is a run of bits at a fixed position of a 64-bit word. -/

namespace EventRecorder

/-- The word whose lowest `n` bits are set. -/
def ones (n : Nat) : UInt64 := UInt64.ofNat (1 <<< n - 1)

theorem wordSize_pos : 0 < 64 := by decide

/-- A run of `width` bits of a 64-bit word, from bit `pos` up. -/
structure BitField where
  pos : Nat
  width : Nat
  pos_lt : pos < 64 := by decide
  fits : pos + width ≤ 64 := by decide

namespace BitField

/-- The word whose bits inside the field are set. -/
def mask (f : BitField) : UInt64 := ones f.width <<< UInt64.ofNat f.pos

/-- The content of the field, moved down to bit 0. -/
def get (f : BitField) (w : UInt64) : UInt64 := (w >>> UInt64.ofNat f.pos) &&& ones f.width

/-- The low bits of `v`, moved up to the field; all other bits are zero. -/
def place (f : BitField) (v : UInt64) : UInt64 := (v &&& ones f.width) <<< UInt64.ofNat f.pos

/-- The word `w` with the field zero. -/
def clear (f : BitField) (w : UInt64) : UInt64 := w &&& ~~~f.mask

/-- The word `w` with the low bits of `v` in the field. -/
def set (f : BitField) (v w : UInt64) : UInt64 := f.clear w ||| f.place v

/-- The bit `i` of a word lies in the field. -/
def covers (f : BitField) (i : Nat) : Bool := f.pos ≤ i && i < f.pos + f.width

end BitField

end EventRecorder
