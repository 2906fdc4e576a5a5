import EventRecorder.Block.Clock
import EventRecorder.Proofs.Bits
import Mathlib.Data.Int.ModEq
import Mathlib.Order.Bounds.Basic

/-! # The time behind a narrow counter

A counter of few bits shows the time modulo one lap of it. From the last stamp on there is a first time that the counter
shows as it does now, and this is what the block clock tells. It is the true time as long as less than a lap has passed
since the last reading. -/

namespace EventRecorder.BlockClock

variable {c : BlockClock} {bits v r n T : Nat} {raw : UInt64}

/-! ### Laps -/

/-- `T` is the first time from `v` on that a counter of `bits` bits shows as `r`. -/
def IsNext (bits v r T : Nat) : Prop := IsLeast {U | v ≤ U ∧ U ≡ r [MOD 2 ^ bits]} T

/-- The last time that the counter shows as `r` before one lap after `v` lies in the lap of `v` or in the next one. -/
theorem isNext_of_lap (hr : r < 2 ^ bits) (v : Nat) :
    IsNext bits v r (if v / 2 ^ bits * 2 ^ bits + r < v then v / 2 ^ bits * 2 ^ bits + r + 2 ^ bits
      else v / 2 ^ bits * 2 ^ bits + r) := by
  have hlap := Nat.div_add_mod' v (2 ^ bits)
  have hmod := Nat.mod_lt v (Nat.two_pow_pos bits)
  have hshows : v / 2 ^ bits * 2 ^ bits + r ≡ r [MOD 2 ^ bits] := by
    unfold Nat.ModEq
    rw [Nat.mul_add_mod_self_right]
  constructor
  · split
    · refine ⟨by omega, ?_⟩
      unfold Nat.ModEq
      rw [Nat.add_mod_right]
      exact hshows
    · exact ⟨by omega, hshows⟩
  · rintro U ⟨hle, hU⟩
    -- a time that the counter shows as `r` is told by its lap, which is not before that of `v`
    have hUlap := Nat.div_add_mod' U (2 ^ bits)
    rw [show U % 2 ^ bits = r from Eq.trans hU (Nat.mod_eq_of_lt hr)] at hUlap
    rcases Nat.lt_or_ge (v / 2 ^ bits) (U / 2 ^ bits) with hlater | hsame
    · have hnext := Nat.mul_le_mul_right (2 ^ bits) hlater
      rw [Nat.succ_mul] at hnext
      split <;> omega
    · have heq : U / 2 ^ bits = v / 2 ^ bits := Nat.le_antisymm hsame (Nat.div_le_div_right hle)
      rw [heq] at hUlap
      rw [hUlap, if_neg (Nat.not_lt_of_le hle)]

/-- A time less than a lap later is the first that the counter shows as it does then. -/
theorem isNext_of_lt (hle : v ≤ T) (hlt : T < v + 2 ^ bits) : IsNext bits v (T % 2 ^ bits) T := by
  refine ⟨⟨hle, (Nat.mod_modEq T _).symm⟩, ?_⟩
  rintro U ⟨hvU, hU⟩
  by_contra hbefore
  have hmod : U ≡ T [MOD 2 ^ bits] := hU.trans (Nat.mod_modEq T _)
  have hdvd := (Nat.modEq_iff_dvd' (Nat.le_of_not_le hbefore)).mp hmod
  have := Nat.le_of_dvd (by omega) hdvd
  omega

/-! ### Stamps -/

/-- The bits of a counter. -/
def counter (bits : Nat) (h : bits < 64) : BitField := ⟨0, bits, wordSize_pos, by omega⟩

theorem toNat_lap (h : bits < 64) : ((1 : UInt64) <<< UInt64.ofNat bits).toNat = 2 ^ bits := by
  have hfits : 2 ^ bits < 2 ^ 64 := Nat.pow_lt_pow_right (by decide) h
  rw [UInt64.toNat_shiftLeft, UInt64.toNat_ofNat', Nat.mod_eq_of_lt (by omega : bits < 2 ^ 64), Nat.mod_eq_of_lt h,
    Nat.shiftLeft_eq]
  exact (Nat.mod_eq_of_lt (by simpa using hfits)).trans (Nat.one_mul _)

theorem lap_sub_one (h : bits < 64) : (1 : UInt64) <<< UInt64.ofNat bits - 1 = (counter bits h).mask := by
  have hpos := Nat.two_pow_pos bits
  have hle : (1 : UInt64) ≤ (1 : UInt64) <<< UInt64.ofNat bits := by
    rw [UInt64.le_iff_toNat_le, toNat_lap h]
    exact hpos
  refine UInt64.toNat_inj.mp ?_
  rw [UInt64.toNat_sub_of_le _ _ hle, toNat_lap h]
  unfold BitField.mask counter
  rw [show UInt64.ofNat 0 = 0 from rfl, UInt64.shiftLeft_zero, toNat_ones h.le]
  rfl

theorem toNat_clear_counter (h : bits < 64) (w : UInt64) :
    ((counter bits h).clear w).toNat = 2 ^ bits * (w.toNat / 2 ^ bits) := by
  refine Nat.eq_of_testBit_eq fun i => ?_
  rw [BitField.testBit_clear, Nat.testBit_two_pow_mul, Nat.testBit_div_two_pow]
  unfold BitField.covers counter
  by_cases hi : bits ≤ i
  · simp [hi]
  · simp [hi, Nat.lt_of_not_le hi]

/-- The reading below the lap of the last stamp: the counter shows nothing above its bits, so that `or` adds. -/
theorem toNat_reading (h : bits < 64) (hraw : raw.toNat < 2 ^ bits) (prior : UInt64) :
    (raw ||| (prior &&& ~~~((1 : UInt64) <<< UInt64.ofNat bits - 1))).toNat =
      prior.toNat / 2 ^ bits * 2 ^ bits + raw.toNat := by
  rw [lap_sub_one h, UInt64.or_comm, UInt64.toNat_or]
  change ((counter bits h).clear prior).toNat ||| raw.toNat = _
  rw [toNat_clear_counter, ← Nat.two_pow_add_eq_or_of_lt hraw, Nat.mul_comm]

/-- The clock tells the first time from its last stamp on that the counter shows as it does now. -/
theorem toNat_stamp (h : bits < 64) (hraw : raw.toNat < 2 ^ bits) (hnext : IsNext bits c.prior.toNat raw.toNat n)
    (hn : n < 2 ^ 64) : (c.stamp raw bits).1.toNat = n := by
  have hreading := toNat_reading h hraw c.prior
  rw [hnext.unique (isNext_of_lap hraw c.prior.toNat)] at hn ⊢
  unfold stamp
  rw [if_neg (Nat.not_le_of_lt h)]
  simp only [UInt64.lt_iff_toNat_lt, hreading]
  split at hn
  next hback => rw [if_pos hback, if_pos hback, UInt64.toNat_add, hreading, toNat_lap h, Nat.mod_eq_of_lt hn]
  next hback => rw [if_neg hback, if_neg hback, hreading]

theorem prior_stamp (c : BlockClock) (raw : UInt64) (bits : Nat) :
    (c.stamp raw bits).2.prior = (c.stamp raw bits).1 := by
  unfold stamp
  split <;> rfl

/-! ### Readings in turn -/

/-- What a counter shows, and the number of its bits. -/
structure Reading where
  raw : UInt64
  bits : Nat
deriving DecidableEq

/-- What a counter of `bits` bits shows at a time. -/
def Reading.at (bits T : Nat) : Reading := ⟨UInt64.ofNat (T % 2 ^ bits), bits⟩

/-- The stamps that the clock tells for some readings in turn. -/
def stamps (c : BlockClock) : List Reading → List UInt64
  | [] => []
  | r :: rs => (c.stamp r.raw r.bits).1 :: (c.stamp r.raw r.bits).2.stamps rs

/-- The clock after some readings. -/
def after (c : BlockClock) : List Reading → BlockClock
  | [] => c
  | r :: rs => (c.stamp r.raw r.bits).2.after rs

theorem stamps_append (c : BlockClock) (rs rs' : List Reading) :
    c.stamps (rs ++ rs') = c.stamps rs ++ (c.after rs).stamps rs' := by
  induction rs generalizing c with
  | nil => rfl
  | cons r rs ih => exact congrArg _ (ih _)

theorem after_append (c : BlockClock) (rs rs' : List Reading) : c.after (rs ++ rs') = (c.after rs).after rs' := by
  induction rs generalizing c with
  | nil => rfl
  | cons r rs ih => exact ih _

/-- From the time `v` on, each of the readings comes at the first time from the last one on that its counter shows as it
is read, and at a time that a stamp can hold. -/
inductive Times : (v : Nat) → List Reading → List Nat → Prop
  | nil {v : Nat} : Times v [] []
  | cons {v T : Nat} {r : Reading} {rs : List Reading} {times : List Nat} : r.bits < 64 → r.raw.toNat < 2 ^ r.bits →
      IsNext r.bits v r.raw.toNat T → T < 2 ^ 64 → Times T rs times → Times v (r :: rs) (T :: times)

variable {rs : List Reading} {times : List Nat}

/-- The clock tells the times of readings that come before their counters have gone round. -/
theorem Times.toNat_stamps (h : Times v rs times) (hv : c.prior.toNat = v) : (c.stamps rs).map UInt64.toNat = times := by
  induction h generalizing c with
  | nil => rfl
  | @cons v T r rs times hbits hraw hnext hT _ ih =>
    subst hv
    have hstamp := toNat_stamp hbits hraw hnext hT
    have hrest := ih (c := (c.stamp r.raw r.bits).2) ((congrArg UInt64.toNat (prior_stamp ..)).trans hstamp)
    exact congrArg₂ List.cons hstamp hrest

theorem Times.isChain (h : Times v rs times) : (v :: times).IsChain (· ≤ ·) := by
  induction h with
  | nil => exact .singleton _
  | cons _ _ hnext _ _ ih => exact .cons_cons hnext.1.1 ih

/-- The times follow each other by less than a lap of the counter, the first one from zero on. -/
def Steady (bits : Nat) (times : List Nat) : Prop := (0 :: times).IsChain fun T U => T ≤ U ∧ U < T + 2 ^ bits

instance (bits : Nat) (times : List Nat) : Decidable (Steady bits times) :=
  inferInstanceAs (Decidable (List.IsChain _ _))

/-- Nothing is lost of the times of steady readings. -/
theorem times_at (hbits : bits < 64) (hsteady : (v :: times).IsChain fun T U => T ≤ U ∧ U < T + 2 ^ bits)
    (hfits : ∀ T ∈ times, T < 2 ^ 64) : Times v (times.map (.at bits)) times := by
  induction times generalizing v with
  | nil => exact .nil
  | cons T times ih =>
    obtain ⟨⟨hle, hlt⟩, hrest⟩ := List.isChain_cons_cons.mp hsteady
    have hraw : (Reading.at bits T).raw.toNat = T % 2 ^ bits :=
      UInt64.toNat_ofNat_of_lt' (Nat.lt_of_le_of_lt (Nat.mod_le ..) (hfits T List.mem_cons_self))
    refine .cons hbits ?_ ?_ (hfits T List.mem_cons_self)
      (ih hrest fun U hU => hfits U (List.mem_cons_of_mem T hU))
    · rw [hraw]
      exact Nat.mod_lt _ (Nat.two_pow_pos _)
    · rw [hraw]
      exact isNext_of_lt hle hlt

end EventRecorder.BlockClock
