import EventRecorder.Bits
import EventRecorder.Bytes

/-! # Packet filters

A filter selects bytes among the first 24 of a packet and compares the exclusive or of the selected
bytes, four to a group, with a 32-bit number. -/

namespace EventRecorder

/-- Three words of byte masks for the first 24 bytes of a packet, and the start value of its hash. -/
structure PacketFilter where
  masks : Vector UInt64 3
  init : UInt64
deriving DecidableEq, Repr

namespace PacketFilter

/-- The bits of the `j`-th byte of a word. -/
def byteLane (j : Fin 8) : BitField := ⟨8 * j, 8, by omega, by omega⟩

/-- The mask of the bytes that the eight lowest bits of `bits` select. -/
def byteMask (bits : UInt64) : UInt64 :=
  (List.finRange 8).foldl
    (fun (m : UInt64) (j : Fin 8) => if (bits >>> UInt64.ofNat j.val) &&& 1 = 0 then m else m ||| (byteLane j).mask) 0

/-- The filter of a mask, whose bit `i` selects byte `i`, and a number to match. The mask 0 lets no packet
pass and the mask -1 every packet. -/
def ofParams (mask matching : Int64) : PacketFilter :=
  if mask = 0 then ⟨#v[0, 0, 0], 1⟩
  else if mask = -1 then ⟨#v[0, 0, 0], 0⟩
  else
    let bits := mask.toUInt64
    ⟨#v[byteMask bits, byteMask (bits >>> 8), byteMask (bits >>> 16)], matching.toUInt64 &&& ones 32⟩

/-- The `k`-th word of eight bytes of a packet, filled up with zero bytes. -/
def packetWord (payload : List UInt8) (k : Nat) : UInt64 := wordOfBytes ((payload.drop (8 * k)).take 8)

/-- The start value with the selected bytes of the packet folded into it. -/
def hash (f : PacketFilter) (payload : List UInt8) : UInt64 :=
  (List.finRange 3).foldl (fun (h : UInt64) (k : Fin 3) => h ^^^ (packetWord payload k &&& f.masks[k])) f.init

/-- The packet passes if the two halves of its hash agree. -/
def accepts (f : PacketFilter) (payload : List UInt8) : Bool :=
  let h := f.hash payload
  (h ^^^ (h >>> 32)) &&& ones 32 == 0

end PacketFilter

end EventRecorder
