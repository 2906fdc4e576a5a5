import EventRecorder.Arena.Basic

/-! # Record regions

The records of a block follow its header and end at its fill mark, or at the cursor of the CPU that still
writes to the block. -/

namespace EventRecorder

/-- The words of header and task at the start of every block. -/
def plainHeaderWords : Nat := 6

/-- The header words of block 0, which leave room for six words about the session. -/
def firstHeaderWords : Nat := 12

def headerWords (k : Nat) : Nat := if k = 0 then firstHeaderWords else plainHeaderWords

namespace Arena

/-- The words of block `k` that hold records. They end at the word `stop` if the block is still written
to, and at its mark otherwise. -/
def recordRegion (a : Arena) (k stop : Nat) : Span :=
  let fill := match a.mark k with
    | .filling => min (stop - a.blockStart k) blockWords
    | .closed offset => offset
  ⟨a.blockStart k + headerWords k, fill - headerWords k⟩

end Arena

end EventRecorder
