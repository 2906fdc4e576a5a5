/-! # Rates

The rate of instructions per cycle between two events is kept as one of sixteen buckets. The scale is
even up to one instruction per cycle and grows coarser above. -/

namespace EventRecorder.Rate

/-- The lower ends of the sixteen buckets, in eighths of an instruction per cycle. -/
def scale : List Nat := [0, 1, 2, 3, 4, 5, 6, 7, 8, 10, 12, 14, 16, 20, 24, 28]

/-- The last bucket whose lower end is at most `eighths`. -/
def ofEighths (eighths : Nat) : Nat := (scale.filter (· ≤ eighths)).length - 1

/-- The bucket of `instructions` retired in `ticks` of 64 cycles each. Intervals of one tick or none have
no rate and count as zero. Both counts are taken as 32-bit numbers, the ticks in eighths, and a rate of
eight or more wraps around. -/
def ofDeltas (instructions ticks : UInt64) : Nat :=
  let eighthTicks := ticks.toNat * 8 % UInt32.size
  if ticks ≤ 1 || eighthTicks = 0 then 0
  else ofEighths (instructions.toNat % UInt32.size / eighthTicks % 64)

end EventRecorder.Rate
