import EventRecorder.Arena.Rates
import EventRecorder.Block.Layout
import EventRecorder.Log.View
import EventRecorder.Notice
import EventRecorder.Record.Split

/-! # Snapshots

A snapshot is a decoded copy of the log, with its blocks in the order in which they were opened. -/

namespace EventRecorder

structure BlockCopy where
  /-- The number of the block, counted from the top of the arena. -/
  index : Nat
  header : Header
  /-- The task that ran when the block was opened. -/
  task : Task
  words : List UInt64
  /-- The rate byte of each word; none if the session measures no rates. -/
  rates : List UInt8
deriving DecidableEq, Repr

namespace BlockCopy

/-- The records of a block in storage order. -/
def records (b : BlockCopy) : List Record := Record.split b.words b.rates

def ofView (v : LogView) (k : Nat) : BlockCopy :=
  let header := v.arena.header k
  let r := v.region k
  { index := k
    header
    task := v.arena.task k
    words := (List.range' r.start r.len).map v.arena.word
    rates := if header.hasRates then (List.range' r.start r.len).map v.arena.rate else [] }

end BlockCopy

structure Snapshot where
  /-- Old blocks were overwritten. -/
  wrapped : Bool
  /-- The opened blocks, the oldest first. -/
  blocks : List BlockCopy
deriving DecidableEq, Repr

namespace Snapshot

def ofView (v : LogView) : Snapshot := ⟨v.arena.wrapped, (v.arena.newestFirst.map (.ofView v)).reverse⟩

def wordCount (s : Snapshot) : Nat := (s.blocks.map (·.words.length)).foldr (· + ·) 0

/-- The records of one CPU, the oldest first. -/
def recordsOf (s : Snapshot) (cpu : UInt8) : List Record :=
  (s.blocks.filter (·.header.cpu == cpu)).flatMap (·.records)

/-- The notices that sum up a snapshot, one for the whole and one for each block. -/
def notices (s : Snapshot) : List Notice :=
  .logSummary s.blocks.length s.wordCount s.wrapped ::
    s.blocks.map fun b => .blockSummary b.index b.header b.task b.words.length

end Snapshot

end EventRecorder
