import EventRecorder.Proofs.Checked.Inserts
import Mathlib.Data.Rat.Cast.Order
import Mathlib.Order.Bounds.Basic
import Mathlib.Tactic.GCongr
import Mathlib.Tactic.NormNum
import Mathlib.Tactic.Ring

/-! # Buckets and exact rates

The bucket of two counts is found with one division of whole numbers. As long as both counts are read as they are, and the
rate does not wrap around, it is the last bucket that begins at or below the exact rate, so it rises with the instructions
and falls with the time. -/

namespace EventRecorder.Rate

variable {instructions instructions' ticks ticks' : UInt64}

/-! ### Counting along a scale -/

/-- The entries of a rising list that are at most `n` are its first ones. -/
theorem getElem_le_iff {l : List Nat} (hl : l.Pairwise (· ≤ ·)) {n b : Nat} (hb : b < l.length) :
    l[b] ≤ n ↔ b < (l.filter (· ≤ n)).length := by
  induction l generalizing b with
  | nil => cases hb
  | cons x l ih =>
    obtain ⟨hx, hl⟩ := List.pairwise_cons.mp hl
    by_cases hxn : x ≤ n
    · rw [List.filter_cons_of_pos (by simpa using hxn), List.length_cons]
      cases b with
      | zero => simp [hxn]
      | succ b => simp [ih hl (Nat.lt_of_succ_lt_succ hb)]
    · -- the first entry is beyond `n`, so all are
      have hall : ∀ y ∈ x :: l, ¬ y ≤ n := by
        intro y hy hyn
        rcases List.mem_cons.mp hy with rfl | hy
        · exact hxn hyn
        · exact hxn (Nat.le_trans (hx y hy) hyn)
      have hnil : (x :: l).filter (· ≤ n) = [] := List.filter_eq_nil_iff.mpr (by simpa using hall)
      rw [hnil]
      exact iff_of_false (hall _ (List.getElem_mem hb)) (Nat.not_lt_zero b)

theorem ofEighths_isGreatest (eighths : Nat) : IsGreatest {b | ∃ e ∈ scale[b]?, e ≤ eighths} (ofEighths eighths) := by
  have hrising : scale.Pairwise (· ≤ ·) := by decide
  have hmem : ∀ b, (∃ e ∈ scale[b]?, e ≤ eighths) ↔ b < (scale.filter (· ≤ eighths)).length := by
    intro b
    constructor
    · rintro ⟨e, he, hle⟩
      obtain ⟨hb, rfl⟩ := List.getElem?_eq_some_iff.mp he
      exact (getElem_le_iff hrising hb).mp hle
    · intro hb
      have hlen := Nat.lt_of_lt_of_le hb (List.length_filter_le ..)
      exact ⟨scale[b], List.getElem?_eq_getElem hlen, (getElem_le_iff hrising hlen).mpr hb⟩
  have hfirst := (hmem 0).mp ⟨0, rfl, Nat.zero_le _⟩
  unfold ofEighths
  constructor
  · exact (hmem _).mpr (by omega)
  · intro b hb
    have := (hmem b).mp hb
    omega

/-! ### Exact rates -/

/-- The lower ends of the sixteen buckets, in instructions per cycle. -/
def lowerEnds : List ℚ := [0, 1/8, 1/4, 3/8, 1/2, 5/8, 3/4, 7/8, 1, 5/4, 3/2, 7/4, 2, 5/2, 3, 7/2]

/-- The exact number of instructions per cycle, over a time in ticks of 64 cycles. -/
def perCycle (instructions ticks : UInt64) : ℚ := instructions.toNat / (64 * ticks.toNat)

/-- Both counts are read as they are, and their rate is below eight. -/
structure InRange (instructions ticks : UInt64) : Prop where
  instructions_lt : instructions.toNat < 2 ^ 32
  two_le : 2 ≤ ticks.toNat
  ticks_lt : ticks.toNat < 2 ^ 29
  rate_lt : instructions.toNat < 512 * ticks.toNat

theorem lowerEnds_eq : lowerEnds = scale.map fun e : Nat => (e : ℚ) / 8 := by
  simp only [lowerEnds, scale, List.map_cons, List.map_nil]
  norm_num

/-- A rate reaches a number of eighths exactly if its whole eighths do. -/
theorem eighths_le_perCycle_iff (h : 0 < ticks.toNat) (instructions : UInt64) (e : Nat) :
    (e : ℚ) / 8 ≤ perCycle instructions ticks ↔ e ≤ instructions.toNat / (ticks.toNat * 8) := by
  have hticks : (0 : ℚ) < 64 * ticks.toNat := by exact_mod_cast Nat.mul_pos (by decide) h
  have hscaled : (e : ℚ) / 8 * (64 * ticks.toNat) = (e * (ticks.toNat * 8) : Nat) := by
    push_cast
    ring
  rw [perCycle, le_div_iff₀ hticks, hscaled, Nat.cast_le, Nat.le_div_iff_mul_le (Nat.mul_pos h (by decide))]

namespace InRange

/-- In range nothing is cut off or wraps around. -/
theorem ofDeltas_eq (h : InRange instructions ticks) :
    ofDeltas instructions ticks = ofEighths (instructions.toNat / (ticks.toNat * 8)) := by
  obtain ⟨hinstructions, htwo, hticks, hrate⟩ := h
  have heighths : ticks.toNat * 8 % UInt32.size = ticks.toNat * 8 := Nat.mod_eq_of_lt (by change _ < 2 ^ 32; omega)
  have hbelow : instructions.toNat / (ticks.toNat * 8) < 64 := (Nat.div_lt_iff_lt_mul (by omega)).mpr (by omega)
  have hmany : ¬ (ticks ≤ 1 || ticks.toNat * 8 = 0) = true := by
    simp only [Bool.or_eq_true, decide_eq_true_eq, UInt64.le_iff_toNat_le, UInt64.toNat_one]
    omega
  unfold ofDeltas
  simp only [heighths, if_neg hmany]
  rw [Nat.mod_eq_of_lt (show instructions.toNat < UInt32.size from hinstructions), Nat.mod_eq_of_lt hbelow]

/-- The bucket is the last one that begins at or below the exact rate. -/
theorem isGreatest (h : InRange instructions ticks) :
    IsGreatest {b : Nat | ∃ e ∈ lowerEnds[b]?, e ≤ perCycle instructions ticks} (ofDeltas instructions ticks) := by
  have hpos : 0 < ticks.toNat := Nat.lt_of_lt_of_le (by decide) h.two_le
  have hsame : {b : Nat | ∃ e ∈ lowerEnds[b]?, e ≤ perCycle instructions ticks} =
      {b : Nat | ∃ e ∈ scale[b]?, e ≤ instructions.toNat / (ticks.toNat * 8)} := by
    ext b
    simp [lowerEnds_eq, eighths_le_perCycle_iff hpos]
  rw [hsame, h.ofDeltas_eq]
  exact ofEighths_isGreatest _

/-- A rate that is not lower has no lower bucket. -/
theorem ofDeltas_le (h : InRange instructions ticks) (h' : InRange instructions' ticks')
    (hle : perCycle instructions ticks ≤ perCycle instructions' ticks') :
    ofDeltas instructions ticks ≤ ofDeltas instructions' ticks' := by
  refine h.isGreatest.mono h'.isGreatest ?_
  rintro b ⟨e, he, hb⟩
  exact ⟨e, he, hb.trans hle⟩

end InRange

/-- More instructions in the same time, or the same instructions in less time, are no lower rate. -/
theorem perCycle_le (hpos : 0 < ticks'.toNat) (hinstructions : instructions ≤ instructions') (hticks : ticks' ≤ ticks) :
    perCycle instructions ticks ≤ perCycle instructions' ticks' := by
  have hpos : (0 : ℚ) < ticks'.toNat := by exact_mod_cast hpos
  have hinstructions : (instructions.toNat : ℚ) ≤ instructions'.toNat := by
    exact_mod_cast UInt64.le_iff_toNat_le.mp hinstructions
  have hticks : (ticks'.toNat : ℚ) ≤ ticks.toNat := by exact_mod_cast UInt64.le_iff_toNat_le.mp hticks
  unfold perCycle
  gcongr

/-- Every two counts have one of the sixteen buckets, and no division by zero or look-up beyond the table on the way to
it. In range it is the last bucket that begins at or below the exact rate; more instructions do not lower it, and more
time does not raise it. -/
theorem buckets_follow_scale :
    (∀ instructions ticks : UInt64,
      ofDeltas? instructions ticks = some (ofDeltas instructions ticks) ∧ ofDeltas instructions ticks ≤ 15) ∧
    (∀ instructions ticks : UInt64, InRange instructions ticks →
      IsGreatest {b : Nat | ∃ e ∈ lowerEnds[b]?, e ≤ perCycle instructions ticks} (ofDeltas instructions ticks)) ∧
    (∀ instructions instructions' ticks : UInt64, InRange instructions ticks → InRange instructions' ticks →
      instructions ≤ instructions' → ofDeltas instructions ticks ≤ ofDeltas instructions' ticks) ∧
    (∀ instructions ticks ticks' : UInt64, InRange instructions ticks → InRange instructions ticks' →
      ticks ≤ ticks' → ofDeltas instructions ticks' ≤ ofDeltas instructions ticks) := by
  refine ⟨fun instructions ticks => ⟨ofDeltas?_eq instructions ticks, Nat.le_of_lt_succ (ofDeltas_lt ..)⟩,
    fun _ _ => InRange.isGreatest, ?_, ?_⟩
  · intro instructions instructions' ticks h h' hle
    exact h.ofDeltas_le h' (perCycle_le (Nat.lt_of_lt_of_le (by decide) h.two_le) hle (UInt64.le_refl _))
  · intro instructions ticks ticks' h h' hle
    exact h'.ofDeltas_le h (perCycle_le (Nat.lt_of_lt_of_le (by decide) h.two_le) (UInt64.le_refl _) hle)

/-- At the end of the range a single instruction, or a single tick, tells the first two buckets apart. -/
theorem buckets_follow_scale_of_longest_time :
    InRange 0xfffffff8 0x1fffffff ∧ InRange 0xfffffff7 0x1fffffff ∧ InRange 0xfffffff7 0x1ffffffe ∧
      IsGreatest {b : Nat | ∃ e ∈ lowerEnds[b]?, e ≤ perCycle 0xfffffff8 0x1fffffff} 1 ∧
      IsGreatest {b : Nat | ∃ e ∈ lowerEnds[b]?, e ≤ perCycle 0xfffffff7 0x1fffffff} 0 ∧
      ofDeltas 0xfffffff7 0x1fffffff ≤ ofDeltas 0xfffffff8 0x1fffffff ∧
      ofDeltas 0xfffffff7 0x1fffffff ≤ ofDeltas 0xfffffff7 0x1ffffffe := by
  have hat : InRange 0xfffffff8 0x1fffffff := ⟨by decide, by decide, by decide, by decide⟩
  have hfewer : InRange 0xfffffff7 0x1fffffff := ⟨by decide, by decide, by decide, by decide⟩
  have hsooner : InRange 0xfffffff7 0x1ffffffe := ⟨by decide, by decide, by decide, by decide⟩
  have hone : ofDeltas 0xfffffff8 0x1fffffff = 1 := by decide
  have hzero : ofDeltas 0xfffffff7 0x1fffffff = 0 := by decide
  obtain ⟨-, hgreatest, hmore, hlonger⟩ := buckets_follow_scale
  exact ⟨hat, hfewer, hsooner, hone ▸ hgreatest _ _ hat, hzero ▸ hgreatest _ _ hfewer,
    hmore _ _ _ hfewer hat (by decide), hlonger _ _ _ hsooner hfewer (by decide)⟩

end EventRecorder.Rate
