import EventRecorder.Arena.Basic

/-! # Cursors

Every CPU has a cursor into the block that it writes to. A claim moves the cursor past the words claimed,
whether they fit the block or not. -/

namespace EventRecorder

/-- The place at which a CPU writes, and its readings at the last event. -/
structure Cursor where
  /-- The next free word. -/
  next : Nat := 0
  /-- The end of the block; zero while the CPU has no block. -/
  limit : Nat := 0
  /-- The time of the last event whose rate was measured. -/
  priorTime : UInt64 := 0
  /-- The instructions retired at the last event whose rate was measured. -/
  priorInstructions : UInt64 := 0
  /-- The counters of the CPU are set up. -/
  ready : Bool := false
deriving DecidableEq, Repr

/-- The CPU can still write to its block. -/
def Cursor.hasRoom (c : Cursor) : Bool := c.next < c.limit

/-- What becomes of a claim made without a lock. -/
inductive Verdict where
  /-- The claim fits the block that it lies in. -/
  | accept
  /-- The claim lies in no block of the cursor. -/
  | retry
  /-- The claim reaches the last word of its block or beyond. -/
  | overflow
deriving DecidableEq, Repr

/-- Judges a claim from the limit of the cursor before and after it was made. If the limit has changed in
between, the claim counts only if it starts in the new block. The last word of a block is never given
away. -/
def verdict (before after : Nat) (claim : Span) : Verdict :=
  if after = 0 then .retry
  else if before ≠ after && !(after - blockWords ≤ claim.start && claim.start < after) then .retry
  else if after ≤ claim.stop then .overflow
  else .accept

end EventRecorder
