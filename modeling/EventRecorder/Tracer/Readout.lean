import EventRecorder.Arena.Raw
import EventRecorder.Log.Snapshot
import EventRecorder.Tracer.Basic

/-! # Reading the log

All readers but `blocksUsed` stop tracing first, so that the log stands still. -/

namespace EventRecorder.Tracer

variable {P : Type}

/-- The log as its readers see it. -/
def view (t : Tracer P) : LogView := ⟨t.arena, t.cursors⟩

/-- The number of blocks opened so far. -/
def blocksUsed (t : Tracer P) : Nat := t.arena.claimed

/-- The number of words in the record view, with all bits inverted if the session has wrapped. -/
def wordCount (t : Tracer P) : UInt64 × Tracer P :=
  let t := t.off
  let count := UInt64.ofNat t.view.count
  (if t.arena.wrapped then ~~~count else count, t)

/-- The `i`-th word of the record view, counted back from the newest. -/
def readWord (t : Tracer P) (i : Nat) : UInt64 × Tracer P :=
  let t := t.off
  (t.view.word i, t)

/-- The number of words in the raw view. -/
def rawCount (t : Tracer P) : Nat × Tracer P :=
  let t := t.off
  (t.arena.rawCount, t)

/-- The `i`-th word of the raw view. -/
def readRawWord (t : Tracer P) (i : Nat) : UInt64 × Tracer P :=
  let t := t.off
  (t.arena.rawWord i, t)

/-- The `i`-th word of the raw view of the rates. -/
def readRateWord (t : Tracer P) (i : Nat) : UInt64 × Tracer P :=
  let t := t.off
  (t.arena.rawRateWord i, t)

def snapshot (t : Tracer P) : Snapshot × Tracer P :=
  let t := t.off
  (.ofView t.view, t)

/-- Reports a summary of a snapshot. -/
def reportSnapshot (t : Tracer P) (s : Snapshot) : Tracer P := s.notices.foldl report t

end EventRecorder.Tracer
