/-! # The block clock

Blocks are stamped with a time that never goes back, although the counter behind it may be narrow and
wrap. The clock keeps the last stamp and adds its high bits to every reading. -/

namespace EventRecorder

/-- A clock for block stamps. -/
structure BlockClock where
  /-- The last stamp. -/
  prior : UInt64 := 0
deriving DecidableEq, Repr

/-- Extends the reading `raw` of a counter of `bits` bits to a stamp. A reading below the last stamp shows
that the counter has wrapped since. -/
def BlockClock.stamp (c : BlockClock) (raw : UInt64) (bits : Nat) : UInt64 × BlockClock :=
  if 64 ≤ bits then
    (raw, ⟨raw⟩)
  else
    let lap : UInt64 := 1 <<< UInt64.ofNat bits
    let reading := raw ||| (c.prior &&& ~~~(lap - 1))
    let stamp := if reading < c.prior then reading + lap else reading
    (stamp, ⟨stamp⟩)

end EventRecorder
