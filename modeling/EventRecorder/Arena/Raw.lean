import EventRecorder.Arena.Frontier

/-! # The raw view

The raw view shows all words of the opened blocks, headers and unused words included, from block 0 on.
The raw view of the rates follows the same order, eight words of the log to one word of rates. -/

namespace EventRecorder.Arena

/-- The words of rates that belong to one block. -/
def rateWords : Nat := blockWords / 8

/-- The number of words in the raw view. -/
def rawCount (a : Arena) : Nat := a.claimed * blockWords

/-- The `i`-th word of the raw view, zero past its end. -/
def rawWord (a : Arena) (i : Nat) : UInt64 :=
  if a.rawCount ≤ i then 0 else a.word (a.blockStart (i / blockWords) + i % blockWords)

/-- The `i`-th word of the raw view of the rates, zero past its end. -/
def rawRateWord (a : Arena) (i : Nat) : UInt64 :=
  if a.rawCount / 8 ≤ i then 0 else a.word (a.high / 8 - (i / rateWords + 1) * rateWords + i % rateWords)

end EventRecorder.Arena
