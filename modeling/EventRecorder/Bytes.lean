/-! # Words as bytes

A 64-bit word holds eight bytes, the first of them in its lowest bits. -/

namespace EventRecorder

/-- The word that holds `bytes`, first byte lowest; missing bytes are zero and bytes past the eighth fall off. -/
def wordOfBytes : List UInt8 → UInt64
  | [] => 0
  | b :: bytes => b.toUInt64 ||| wordOfBytes bytes <<< 8

/-- The lowest `n` bytes of a word, lowest first. -/
def bytesOfWord : (n : Nat) → UInt64 → List UInt8
  | 0, _ => []
  | n + 1, w => w.toUInt8 :: bytesOfWord n (w >>> 8)

@[simp] theorem length_bytesOfWord (n : Nat) (w : UInt64) : (bytesOfWord n w).length = n := by
  induction n generalizing w with
  | zero => rfl
  | succ n ih => simp [bytesOfWord, ih]

end EventRecorder
