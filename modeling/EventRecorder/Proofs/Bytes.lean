import EventRecorder.Bytes
import EventRecorder.Proofs.Bits

/-! # Bytes of words

A word that is made of bytes holds the bits of each of them at its place, and gives the bytes back. Byte `k` of any word
is what a division by `2 ^ (8 * k)` leaves of it. -/

namespace EventRecorder

theorem testBit_byte_of_le (b : UInt8) {i : Nat} (h : 8 ≤ i) : b.toNat.testBit i = false :=
  Nat.testBit_lt_two_pow (Nat.lt_of_lt_of_le b.toNat_lt (Nat.pow_le_pow_right (by decide) h))

theorem testBit_wordOfBytes (bytes : List UInt8) (i : Nat) :
    (wordOfBytes bytes).toNat.testBit i = (decide (i < 64) && (bytes.getD (i / 8) 0).toNat.testBit (i % 8)) := by
  induction bytes generalizing i with
  | nil => simp [wordOfBytes]
  | cons b bytes ih =>
    rw [wordOfBytes, UInt64.toNat_or, Nat.testBit_or, UInt8.toNat_toUInt64, UInt64.toNat_shiftLeft,
      show (8 : UInt64).toNat % 64 = 8 from rfl, Nat.testBit_mod_two_pow, Nat.testBit_shiftLeft, ih]
    rcases Nat.lt_or_ge i 8 with hi | hi
    · simp [Nat.div_eq_of_lt hi, Nat.mod_eq_of_lt hi, Nat.not_le_of_lt hi, show i < 64 by omega]
    · obtain ⟨n, rfl⟩ := Nat.exists_eq_add_of_le' hi
      have hbyte := testBit_byte_of_le b hi
      rcases Nat.lt_or_ge (n + 8) 64 with hfit | hfit
      · simp [hbyte, hfit, show n < 64 by omega]
      · simp [hbyte, Nat.not_lt_of_le hfit]

/-- A word gives the first byte and the word of the others back. -/
theorem wordOfBytes_cons (b : UInt8) {bytes : List UInt8} (h : bytes.length < 8) :
    (wordOfBytes (b :: bytes)).toUInt8 = b ∧ wordOfBytes (b :: bytes) >>> 8 = wordOfBytes bytes := by
  constructor
  · refine UInt8.toNat_inj.mp (Nat.eq_of_testBit_eq fun i => ?_)
    rw [UInt64.toNat_toUInt8, Nat.testBit_mod_two_pow, testBit_wordOfBytes]
    rcases Nat.lt_or_ge i 8 with hi | hi
    · simp [hi, Nat.div_eq_of_lt hi, Nat.mod_eq_of_lt hi, show i < 64 by omega]
    · simp [Nat.not_lt_of_le hi, testBit_byte_of_le b hi]
  · refine eq_of_testBit fun i => ?_
    rw [UInt64.toNat_shiftRight, show (8 : UInt64).toNat % 64 = 8 from rfl, Nat.testBit_shiftRight,
      testBit_wordOfBytes, testBit_wordOfBytes, Nat.add_comm 8 i, Nat.add_div_right i (by decide), Nat.add_mod_right,
      List.getD_cons_succ]
    -- the highest byte was shifted in from nowhere, and no byte was there before
    rcases Nat.lt_or_ge (i + 8) 64 with hfit | hfit
    · simp [hfit, show i < 64 by omega]
    · have hnone : bytes[i / 8]? = none := List.getElem?_eq_none (by omega)
      simp [hnone, Nat.not_lt_of_le hfit]

theorem bytesOfWord_wordOfBytes {bytes : List UInt8} (h : bytes.length ≤ 8) :
    bytesOfWord bytes.length (wordOfBytes bytes) = bytes := by
  induction bytes with
  | nil => rfl
  | cons b bytes ih =>
    obtain ⟨hfirst, hrest⟩ := wordOfBytes_cons b h
    rw [List.length_cons, bytesOfWord, hfirst, hrest, ih (Nat.le_of_lt h)]

theorem getElem?_bytesOfWord {k n : Nat} (h : k < n) (w : UInt64) :
    (bytesOfWord n w)[k]? = some (UInt8.ofNat (w.toNat / 2 ^ (8 * k))) := by
  induction n generalizing w k with
  | zero => cases h
  | succ n ih =>
    rw [bytesOfWord]
    cases k with
    | zero => simp
    | succ k =>
      have hshift : (w >>> 8).toNat = w.toNat / 2 ^ 8 := by
        rw [UInt64.toNat_shiftRight, Nat.shiftRight_eq_div_pow]
        rfl
      rw [List.getElem?_cons_succ, ih (Nat.lt_of_succ_lt_succ h), hshift, Nat.div_div_eq_div_mul, ← Nat.pow_add,
        Nat.mul_succ, Nat.add_comm 8]

end EventRecorder
