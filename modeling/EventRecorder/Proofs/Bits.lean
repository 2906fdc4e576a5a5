import EventRecorder.Bits
import Mathlib.Algebra.GroupWithZero.Nat

/-! # Fields of words

Reading, placing, clearing and setting a field are described by what they do to the word as a natural number,
and bit by bit. A word composed of fields gives each of them back: a field reads what was placed in it, and
nothing of what was placed in a field apart from it. -/

namespace EventRecorder

/-! ### Words -/

theorem toNat_ones {n : Nat} (h : n ≤ 64) : (ones n).toNat = 2 ^ n - 1 := by
  have : 2 ^ n ≤ 2 ^ 64 := Nat.pow_le_pow_right (by decide) h
  have : 0 < 2 ^ n := Nat.two_pow_pos n
  rw [ones, Nat.one_shiftLeft, UInt64.toNat_ofNat', Nat.mod_eq_of_lt (by omega)]

theorem toNat_and_ones (w : UInt64) {n : Nat} (h : n ≤ 64) : (w &&& ones n).toNat = w.toNat % 2 ^ n := by
  rw [UInt64.toNat_and, toNat_ones h, Nat.and_two_pow_sub_one_eq_mod]

theorem testBit_of_le {w : UInt64} {i : Nat} (h : 64 ≤ i) : w.toNat.testBit i = false :=
  Nat.testBit_lt_two_pow (Nat.lt_of_lt_of_le w.toNat_lt (Nat.pow_le_pow_right (by decide) h))

theorem eq_of_testBit {v w : UInt64} (h : ∀ i, v.toNat.testBit i = w.toNat.testBit i) : v = w :=
  UInt64.toNat_inj.mp (Nat.eq_of_testBit_eq h)

namespace BitField

/-! ### As numbers -/

theorem toNat_pos (f : BitField) : (UInt64.ofNat f.pos).toNat % 64 = f.pos := by
  have := f.pos_lt
  rw [UInt64.toNat_ofNat']
  omega

theorem toNat_get (f : BitField) (w : UInt64) : (f.get w).toNat = w.toNat / 2 ^ f.pos % 2 ^ f.width := by
  have := f.fits
  rw [get, toNat_and_ones _ (by omega), UInt64.toNat_shiftRight, f.toNat_pos, Nat.shiftRight_eq_div_pow]

theorem toNat_place (f : BitField) (v : UInt64) : (f.place v).toNat = v.toNat % 2 ^ f.width * 2 ^ f.pos := by
  have := f.fits
  have bound : v.toNat % 2 ^ f.width * 2 ^ f.pos < 2 ^ 64 :=
    calc v.toNat % 2 ^ f.width * 2 ^ f.pos
        < 2 ^ f.width * 2 ^ f.pos := Nat.mul_lt_mul_of_pos_right (Nat.mod_lt _ (Nat.two_pow_pos _)) (Nat.two_pow_pos _)
      _ = 2 ^ (f.width + f.pos) := (Nat.pow_add ..).symm
      _ ≤ 2 ^ 64 := Nat.pow_le_pow_right (by decide) (by omega)
  rw [place, UInt64.toNat_shiftLeft, f.toNat_pos, toNat_and_ones _ (by omega), Nat.shiftLeft_eq, Nat.mod_eq_of_lt bound]

/-! ### Bit by bit -/

theorem testBit_get (f : BitField) (w : UInt64) (i : Nat) :
    (f.get w).toNat.testBit i = (decide (i < f.width) && w.toNat.testBit (i + f.pos)) := by
  rw [toNat_get, Nat.testBit_mod_two_pow, Nat.testBit_div_two_pow]

theorem testBit_place (f : BitField) (v : UInt64) (i : Nat) :
    (f.place v).toNat.testBit i = (f.covers i && v.toNat.testBit (i - f.pos)) := by
  rw [toNat_place, Nat.testBit_mul_two_pow, Nat.testBit_mod_two_pow, covers]
  grind

theorem testBit_mask (f : BitField) (i : Nat) : f.mask.toNat.testBit i = f.covers i := by
  have h : f.mask = f.place (ones f.width) := by
    unfold mask place
    congr 1
    exact UInt64.toNat_inj.mp (by simp)
  have := f.fits
  rw [h, testBit_place, toNat_ones (by omega), Nat.testBit_two_pow_sub_one, covers]
  grind

theorem testBit_clear (f : BitField) (w : UInt64) (i : Nat) :
    (f.clear w).toNat.testBit i = (w.toNat.testBit i && !f.covers i) := by
  rw [clear, UInt64.toNat_and, Nat.testBit_and]
  -- beyond the word the complement is cut off, but the word itself has no bits there either
  by_cases hi : i < 64
  · have complement : (~~~f.mask).toNat.testBit i = !f.mask.toNat.testBit i := by
      change (~~~f.mask.toBitVec).getLsbD i = !f.mask.toBitVec.getLsbD i
      simp [hi]
    rw [complement, testBit_mask]
  · simp [testBit_of_le (Nat.le_of_not_lt hi)]

/-! ### Composed words -/

variable {f g : BitField} {v w : UInt64} {i : Nat}

theorem covers_iff : f.covers i = true ↔ f.pos ≤ i ∧ i < f.pos + f.width := by
  unfold covers
  rw [Bool.and_eq_true, decide_eq_true_iff, decide_eq_true_iff]

/-- The fields share no bit. -/
def Apart (f g : BitField) : Prop := f.pos + f.width ≤ g.pos ∨ g.pos + g.width ≤ f.pos

instance : Decidable (f.Apart g) := inferInstanceAs (Decidable (_ ∨ _))

theorem get_or (f : BitField) (v w : UInt64) : f.get (v ||| w) = f.get v ||| f.get w := by
  refine eq_of_testBit fun i => ?_
  simp only [testBit_get, UInt64.toNat_or, Nat.testBit_or]
  cases decide (i < f.width) <;> simp

theorem covers_add (h : i < f.width) : f.covers (i + f.pos) = true := covers_iff.mpr (by omega)

theorem covers_of_apart (h : f.Apart g) (hi : i < f.width) : g.covers (i + f.pos) = false := by
  refine Bool.eq_false_iff.mpr fun hc => ?_
  have := covers_iff.mp hc
  unfold Apart at h
  omega

theorem testBit_of_get (h : f.get v = f.get w) (hi : f.covers i = true) : v.toNat.testBit i = w.toNat.testBit i := by
  obtain ⟨hlow, hhigh⟩ := covers_iff.mp hi
  have hbit := congrArg (fun x : UInt64 => x.toNat.testBit (i - f.pos)) h
  simp only [testBit_get, Nat.sub_add_cancel hlow, show i - f.pos < f.width by omega] at hbit
  simpa using hbit

/-- Words are told apart by fields that cover them. -/
theorem eq_of_get (fields : List BitField) (hcover : ∀ i < 64, ∃ f ∈ fields, f.covers i = true)
    (h : ∀ f ∈ fields, f.get v = f.get w) : v = w := by
  refine eq_of_testBit fun i => ?_
  rcases Nat.lt_or_ge i 64 with hi | hi
  · obtain ⟨f, hf, hc⟩ := hcover i hi
    exact testBit_of_get (h f hf) hc
  · rw [testBit_of_le hi, testBit_of_le hi]

/-- A field depends on its own bits alone. -/
theorem get_congr (h : ∀ i < f.width, v.toNat.testBit (i + f.pos) = w.toNat.testBit (i + f.pos)) :
    f.get v = f.get w := by
  refine eq_of_testBit fun i => ?_
  rw [testBit_get, testBit_get]
  by_cases hi : i < f.width
  · rw [h i hi]
  · simp [hi]

@[simp] theorem get_zero (f : BitField) : f.get 0 = 0 :=
  eq_of_testBit fun i => by simp [testBit_get]

theorem get_eq_zero (h : ∀ i < f.width, v.toNat.testBit (i + f.pos) = false) : f.get v = 0 :=
  (get_congr fun i hi => (h i hi).trans (by simp)).trans (get_zero f)

theorem get_place_of_apart (h : f.Apart g) (v : UInt64) : f.get (g.place v) = 0 :=
  get_eq_zero fun i hi => by rw [testBit_place, covers_of_apart h hi, Bool.false_and]

/-- What is placed at the bottom of a word is read from a field inside of it. -/
theorem get_place_of_inside (hpos : g.pos = 0) (h : f.pos + f.width ≤ g.width) (v : UInt64) :
    f.get (g.place v) = f.get v := by
  refine get_congr fun i hi => ?_
  have hin : g.covers (i + f.pos) = true := covers_iff.mpr (by omega)
  rw [testBit_place, hin, hpos, Nat.sub_zero, Bool.true_and]

theorem get_place (f : BitField) (h : v.toNat < 2 ^ f.width) : f.get (f.place v) = v := by
  refine eq_of_testBit fun i => ?_
  rw [testBit_get, testBit_place]
  by_cases hi : i < f.width
  · simp [hi, covers_add hi]
  · have hlarge : v.toNat.testBit i = false :=
      Nat.testBit_lt_two_pow (Nat.lt_of_lt_of_le h (Nat.pow_le_pow_right (by decide) (Nat.le_of_not_lt hi)))
    simp [hi, hlarge]

theorem get_and (f : BitField) (v w : UInt64) : f.get (v &&& w) = f.get v &&& f.get w := by
  refine eq_of_testBit fun i => ?_
  simp only [testBit_get, UInt64.toNat_and, Nat.testBit_and]
  cases decide (i < f.width) <;> simp

theorem get_xor (f : BitField) (v w : UInt64) : f.get (v ^^^ w) = f.get v ^^^ f.get w := by
  refine eq_of_testBit fun i => ?_
  simp only [testBit_get, UInt64.toNat_xor, Nat.testBit_xor]
  cases decide (i < f.width) <;> simp

theorem toNat_get_lt (f : BitField) (w : UInt64) : (f.get w).toNat < 2 ^ f.width := by
  rw [toNat_get]
  exact Nat.mod_lt _ (Nat.two_pow_pos _)

@[simp] theorem get_and_ones (f : BitField) (w : UInt64) : f.get w &&& ones f.width = f.get w := by
  rw [get, UInt64.and_assoc, UInt64.and_self]

theorem place_and_ones (f : BitField) (v : UInt64) : f.place (v &&& ones f.width) = f.place v := by
  rw [place, place, UInt64.and_assoc, UInt64.and_self]

theorem get_place_eq (f : BitField) (v : UInt64) : f.get (f.place v) = v &&& ones f.width := by
  have hfits := f.fits
  rw [← place_and_ones, get_place]
  rw [toNat_and_ones _ (by omega)]
  exact Nat.mod_lt _ (Nat.two_pow_pos _)

theorem get_clear (f : BitField) (w : UInt64) : f.get (f.clear w) = 0 :=
  get_eq_zero fun i hi => by rw [testBit_clear, covers_add hi, Bool.not_true, Bool.and_false]

theorem get_clear_of_apart (h : f.Apart g) (w : UInt64) : f.get (g.clear w) = f.get w :=
  get_congr fun i hi => by rw [testBit_clear, covers_of_apart h hi, Bool.not_false, Bool.and_true]

theorem get_set (f : BitField) (v w : UInt64) : f.get (f.set v w) = v &&& ones f.width := by
  rw [set, get_or, get_clear, get_place_eq, UInt64.zero_or]

theorem get_set_of_apart (h : f.Apart g) (v w : UInt64) : f.get (g.set v w) = f.get w := by
  rw [set, get_or, get_clear_of_apart h, get_place_of_apart h, UInt64.or_zero]

end BitField

end EventRecorder
