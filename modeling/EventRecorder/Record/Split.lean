import EventRecorder.Record.Head

/-! # Splitting words into records

The words of a block are read in storage order. A zero word starts no record and is skipped; any other
word starts a record of the length that it announces, cut where the block ends. -/

namespace EventRecorder

/-- A record with its first word, the words after it and, in a session that measures rates, the rate byte
of its first word. -/
structure Record where
  first : UInt64
  payload : List UInt64
  rate : Option UInt8
deriving DecidableEq, Repr

namespace Record

/-- The fields of the first word. -/
def head (r : Record) : Head := Head.ofWord r.first

/-- All words of the record. -/
def words (r : Record) : List UInt64 := r.first :: r.payload

/-- The records that `words` hold. The byte of `rates` at the index of a record's first word is its rate. -/
def split (words : List UInt64) (rates : List UInt8) : List Record :=
  match words with
  | [] => []
  | w :: rest =>
    if w = 0 then
      split rest (rates.drop 1)
    else
      let extra := Head.recordLength w - 1
      ⟨w, rest.take extra, rates.head?⟩ :: split (rest.drop extra) (rates.drop (extra + 1))
termination_by words.length
decreasing_by all_goals simp only [List.length_cons, List.length_drop]; omega

end Record

end EventRecorder
