import EventRecorder.Arena.Rates
import EventRecorder.Proofs.Bits
import EventRecorder.Rate

/-! # Rate bytes

Eight rate bytes share a word of the arena. Each of them is written without a change to the others, and none shares
a bit with them. A bucket takes half a byte. -/

namespace EventRecorder

namespace Arena

variable {a b : Arena} {i j : Nat}

theorem rateLane_apart (h : i % 8 ≠ j % 8) : (rateLane i).Apart (rateLane j) := by
  unfold BitField.Apart rateLane
  dsimp only
  omega

theorem rate_congr (h : b.word (i / 8) = a.word (i / 8)) : b.rate i = a.rate i := by
  unfold rate
  rw [h]

theorem rate_eq_ofNat (a : Arena) (i : Nat) :
    a.rate i = UInt8.ofNat ((a.word (i / 8)).toNat / 2 ^ (8 * (i % 8))) := by
  refine UInt8.toNat_inj.mp ?_
  rw [rate, UInt64.toNat_toUInt8, BitField.toNat_get, UInt8.toNat_ofNat', rateLane, Nat.mul_comm 8]
  exact Nat.mod_mod ..

theorem toUInt8_and_ones (x : UInt8) : (x.toUInt64 &&& ones 8).toUInt8 = x := by
  refine UInt8.toNat_inj.mp ?_
  have hlt := x.toNat_lt
  rw [UInt64.toNat_toUInt8, toNat_and_ones _ (by decide), UInt8.toNat_toUInt64]
  omega

theorem rate_setRate (h : i / 8 < a.high) (x : UInt8) : (a.setRate i x).rate i = x := by
  unfold rate setRate
  rw [word_setWord, if_pos ⟨rfl, h⟩, BitField.get_set]
  exact toUInt8_and_ones x

theorem rate_orRate (h : i / 8 < a.high) (x : UInt8) : (a.orRate i x).rate i = a.rate i ||| x := by
  unfold rate orRate orWord
  rw [word_setWord, if_pos ⟨rfl, h⟩, BitField.get_or, BitField.get_place_eq, UInt64.toUInt8_or]
  exact congrArg _ (toUInt8_and_ones x)

/-- A word is written without a change to a rate if it does not hold the rate, or keeps the byte that holds it. -/
theorem rate_setWord {w : UInt64}
    (hw : i / 8 = j / 8 → (rateLane j).get w = (rateLane j).get (a.word (i / 8))) :
    (a.setWord (i / 8) w).rate j = a.rate j := by
  unfold rate
  rw [word_setWord]
  split
  · rename_i hin
    rw [hw hin.1, hin.1]
  · rfl

theorem rate_setRate_of_ne (h : i ≠ j) (x : UInt8) : (a.setRate i x).rate j = a.rate j :=
  rate_setWord fun hword => BitField.get_set_of_apart (rateLane_apart (by omega)) ..

theorem rate_orRate_of_ne (h : i ≠ j) (x : UInt8) : (a.orRate i x).rate j = a.rate j :=
  rate_setWord fun hword => by
    rw [BitField.get_or, BitField.get_place_of_apart (rateLane_apart (by omega)), UInt64.or_zero]

end Arena

/-! ### Halves of a byte -/

theorem Rate.ofDeltas_lt (instructions ticks : UInt64) : Rate.ofDeltas instructions ticks < 16 := by
  have hscale : ∀ eighths, Rate.ofEighths eighths < 16 := fun eighths => by
    have hle : (Rate.scale.filter (· ≤ eighths)).length ≤ Rate.scale.length := List.length_filter_le ..
    rw [show Rate.scale.length = 16 from rfl] at hle
    unfold Rate.ofEighths
    omega
  unfold Rate.ofDeltas
  dsimp only
  split
  · decide
  · exact hscale _

/-- A byte is put together from two numbers below 16. -/
theorem halves_or {b h : Nat} (hb : b < 16) (hh : h < 16) :
    (UInt8.ofNat b ||| UInt8.ofNat h <<< 4) &&& 15 = UInt8.ofNat b ∧
      (UInt8.ofNat b ||| UInt8.ofNat h <<< 4) >>> 4 = UInt8.ofNat h := by
  have hall : ∀ b h : Fin 16, (UInt8.ofNat b ||| UInt8.ofNat h <<< 4) &&& 15 = UInt8.ofNat b ∧
      (UInt8.ofNat b ||| UInt8.ofNat h <<< 4) >>> 4 = UInt8.ofNat h := by decide +kernel
  exact hall ⟨b, hb⟩ ⟨h, hh⟩

end EventRecorder
