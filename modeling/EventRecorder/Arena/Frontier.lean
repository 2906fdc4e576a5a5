import EventRecorder.Arena.Basic

/-! # The frontier

Blocks are taken off the frontier from the top down until it reaches the limit. A session that wraps then
starts over at block 1, so block 0 keeps the first header of the session. The words below the limit hold
the rates of a session that measures them. -/

namespace EventRecorder

structure Opening where
  start : Nat
  /-- The block is the first of its session. -/
  veryFirst : Bool
  /-- The frontier started over with this block. -/
  wrapped : Bool
deriving DecidableEq, Repr

namespace Arena

/-- Moves the frontier back to the top and forgets all marks. The bottom eighth of the arena, in whole
blocks, is kept free if the session measures rates. Words are left as they are. -/
def reset (a : Arena) (rates : Bool) : Arena :=
  { a with
    limit := if rates then (a.blocks + 7) / 8 * blockWords else 0
    next := a.high
    wrapped := false
    exhausted := false
    marks := Array.replicate a.marks.size .unused
    size_words := by simp [a.size_words] }

/-- Takes the next block off the frontier. There is none if the frontier has reached the limit and the
session does not wrap or has only block 0 to wrap onto; the arena is exhausted then. -/
def openBlock (a : Arena) (wrap : Bool) : Option Opening × Arena :=
  if a.limit + blockWords ≤ a.next then
    let start := a.next - blockWords
    (some ⟨start, a.next == a.high, false⟩, { a with next := start })
  else if wrap && a.limit + 2 * blockWords ≤ a.high then
    let start := a.high - 2 * blockWords
    (some ⟨start, false, true⟩, { a with next := start, wrapped := true })
  else
    (none, { a with exhausted := true })

/-- The number of blocks above the limit. -/
def usable (a : Arena) : Nat := (a.high - a.limit) / blockWords

/-- The number of blocks opened since the last reset, each counted once. -/
def claimed (a : Arena) : Nat :=
  if a.wrapped || a.exhausted then a.usable else (a.high - a.next) / blockWords

/-- The opened blocks, the most recently opened first. After a wrap the blocks from 1 up to the one at the
frontier belong to the present lap, the blocks behind it to the lap before, and block 0 is the oldest. -/
def newestFirst (a : Arena) : List Nat :=
  if a.wrapped then
    let recent := (a.high - a.next) / blockWords - 1
    (List.range' 1 recent).reverse ++ (List.range' (recent + 1) (a.usable - (recent + 1))).reverse ++ [0]
  else
    (List.range a.claimed).reverse

end Arena

end EventRecorder
