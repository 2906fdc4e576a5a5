import EventRecorder.Block.Header
import EventRecorder.Error
import EventRecorder.Task

/-! # Notices

What a tracer tells its operator. Notices are kept as data; their level and wording are functions. -/

namespace EventRecorder

/-- How important a notice is. -/
inductive Level where
  | warn
  | info
  | debug
  | trace
deriving DecidableEq, Repr

/-- What a tracer tells its operator. -/
inductive Notice where
  /-- A tracer was made. -/
  | ready (blocks cpus : Nat)
  /-- A session was started. -/
  | sessionReset (rates wraps : Bool)
  | tracingOn
  | tracingOff
  /-- A claim found the arena full, which ended tracing. -/
  | arenaFull
  /-- The frontier started over, and the processes named so far were forgotten. -/
  | arenaWrapped
  /-- A record of an impossible length was refused, which ended tracing. -/
  | badLength (len : Nat)
  | flushed (words : Nat)
  | blockOpened (block cpu : Nat) (timestamp : UInt64)
  | resetRefused (cause : Error)
  | loaded
  | unloaded (blocks : Nat)
  /-- A command came while no tracer was loaded. -/
  | commandIgnored (code : UInt64)
  /-- The size of a snapshot. -/
  | logSummary (blocks words : Nat) (wrapped : Bool)
  /-- One block of a snapshot. -/
  | blockSummary (block : Nat) (header : Header) (task : Task) (words : Nat)
deriving DecidableEq, Repr

namespace Notice

/-- The level of a notice. -/
def level : Notice → Level
  | badLength _ | resetRefused _ | commandIgnored _ => .warn
  | flushed _ => .debug
  | blockOpened .. => .trace
  | _ => .info

/-- The wording of a notice. -/
def text : Notice → String
  | ready blocks cpus => s!"tracer ready: {blocks} blocks, {cpus} cpus"
  | sessionReset rates wraps => s!"trace reset: ipc={rates} wrap={wraps}"
  | tracingOn => "tracing on"
  | tracingOff => "tracing off"
  | arenaFull => "trace arena full, tracing stopped"
  | arenaWrapped => "trace arena wrapped, pid filter cleared"
  | badLength len => s!"bad record length {len}, tracing stopped"
  | flushed words => s!"flushed {words} words"
  | blockOpened block cpu timestamp => s!"block {block} opened by cpu {cpu} at ts {hex timestamp.toNat}"
  | resetRefused cause => "reset refused: " ++ cause.message
  | loaded => "trace module loaded"
  | unloaded blocks => s!"trace module unloaded, {blocks} blocks used"
  | commandIgnored code => s!"control command {code.toNat} with no tracer loaded"
  | logSummary blocks words wrapped => s!"[trace] blocks={blocks} words={words} wrapped={wrapped}"
  | blockSummary block header task words =>
    s!"[trace] block={block} cpu={header.cpu.toNat} ts={hex header.timestamp.toNat}" ++
      s!" flags={hexPadded 2 header.flags.toNat} pid={task.pid.toNat} name={task.name.text} words={words}"

end Notice

end EventRecorder
