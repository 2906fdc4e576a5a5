import EventRecorder.Arena.Frontier
import EventRecorder.Arena.Region
import EventRecorder.Cursor

/-! # The record view

The record view is the log without headers and unused words, read backward: word 0 is the last word of the
newest block. Blocks that are still written to end at the cursor of their CPU. -/

namespace EventRecorder

/-- An arena together with the cursors of the CPUs that write to it. -/
structure LogView where
  arena : Arena
  cursors : Array Cursor

namespace LogView

/-- The word up to which the first CPU found in block `k` has written it. -/
def cursorStop? (v : LogView) (k : Nat) : Option Nat :=
  (v.cursors.toList.find? fun c => c.limit != 0 && v.arena.blockOf (c.limit - 1) == k).map fun c => min c.next c.limit

/-- The words of block `k` that hold records. -/
def region (v : LogView) (k : Nat) : Span :=
  match v.arena.mark k with
  | .filling => v.arena.recordRegion k ((v.cursorStop? k).getD 0)
  | .closed _ => v.arena.recordRegion k 0

/-- The record regions of all opened blocks, the newest block first. -/
def regions (v : LogView) : List Span := v.arena.newestFirst.map v.region

/-- The number of words in the record view. -/
def count (v : LogView) : Nat := (v.regions.map Span.len).foldr (· + ·) 0

/-- The `i`-th word of `regions`, counted back from the end of the first region; zero past the last region. -/
def wordIn (a : Arena) (regions : List Span) (i : Nat) : UInt64 :=
  match regions with
  | [] => 0
  | r :: rest => if i < r.len then a.word (r.stop - 1 - i) else wordIn a rest (i - r.len)

/-- The `i`-th word of the record view, zero past its end. -/
def word (v : LogView) (i : Nat) : UInt64 := wordIn v.arena v.regions i

end LogView

end EventRecorder
