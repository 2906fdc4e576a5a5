import EventRecorder.Tracer.Insert
import EventRecorder.Tracer.Readout
import EventRecorder.Tracer.Session

/-! # Commands

A tracer is controlled by commands. Each command has a numeric form, a code with one argument, and answers
with one number. -/

namespace EventRecorder

/-- A command to a tracer. A forced insertion takes place even while tracing is off. -/
inductive Command where
  | off
  | on
  | flush
  | reset (flags : UInt64)
  | stat
  | count
  | word (i : UInt64)
  | insertWord (word : UInt64) (forced : Bool)
  | insertUser (address : UInt64) (forced : Bool)
  | rateWord (i : UInt64)
  | test
  | version
  | rawCount
  | rawWord (i : UInt64)
deriving DecidableEq, Repr

namespace Command

/-- The answer to a command that failed or is unknown. -/
def failure : UInt64 := 0xffffffffffffffff

/-- The version of the commands. -/
def currentVersion : UInt64 := 3

/-- The commands by their codes. The codes of forced insertions are those of the plain ones with all bits
inverted. -/
def table : List (UInt64 × (UInt64 → Command)) :=
  [(0, fun _ => off), (1, fun _ => on), (2, fun _ => flush), (3, reset), (4, fun _ => stat), (5, fun _ => count),
   (6, word), (7, (insertWord · false)), (8, (insertUser · false)), (9, rateWord), (10, fun _ => test),
   (11, fun _ => version), (12, fun _ => rawCount), (13, rawWord), (~~~7, (insertWord · true)),
   (~~~8, (insertUser · true))]

/-- The command with a code and an argument. -/
def ofCode? (code arg : UInt64) : Option Command := (table.lookup code).map (· arg)

end Command

namespace Tracer

variable {P : Type} [Platform P]

def execute (t : Tracer P) : Command → UInt64 × Tracer P
  | .off => (0, t.off)
  | .on => (1, t.on)
  | .flush => let (cleared, t) := t.flush; (UInt64.ofNat cleared, t)
  | .reset flags =>
    match t.reset (.ofBits flags) with
    | (.ok (), t) => (0, t)
    | (.error cause, t) => (Command.failure, t.report (.resetRefused cause))
  | .stat => (UInt64.ofNat t.blocksUsed, t)
  | .count => t.wordCount
  | .word i => t.readWord i.toNat
  | .insertWord w forced =>
    if forced || t.tracing then let (o, t) := t.insert w []; (UInt64.ofNat o.wordsAdded, t) else (0, t)
  | .insertUser address forced =>
    if forced || t.tracing then let (o, t) := t.insertUser address; (UInt64.ofNat o.wordsAdded, t) else (0, t)
  | .rateWord i => t.readRateWord i.toNat
  | .test => (if t.tracing then 1 else 0, t)
  | .version => (Command.currentVersion, t)
  | .rawCount => let (count, t) := t.rawCount; (UInt64.ofNat count, t)
  | .rawWord i => t.readRawWord i.toNat

/-- Carries out the command with a code and an argument; an unknown code changes nothing. -/
def control (t : Tracer P) (code arg : UInt64) : UInt64 × Tracer P :=
  match Command.ofCode? code arg with
  | some command => t.execute command
  | none => (Command.failure, t)

end Tracer

end EventRecorder
