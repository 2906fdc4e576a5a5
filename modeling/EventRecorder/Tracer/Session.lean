import EventRecorder.Tracer.Claim

/-! # Sessions

A session begins with a reset and ends with the next one. Tracing may be turned on and off within it. -/

namespace EventRecorder.Tracer

variable {P : Type} [Platform P]

/-- Closes the block of a CPU that can still write to it, and clears the words from its cursor to the end
of the block. -/
def flushCpu (t : Tracer P) (cpu : Nat) : Tracer P :=
  let c := t.cursor cpu
  if c.hasRoom then
    let t := t.closeBlock c.limit c.next
    { t with arena := t.arena.zero c.next (c.limit - c.next) }.modifyCursor cpu ({ · with next := c.limit })
  else t

/-- The number of words that a CPU can still write to its block. -/
def roomOf (t : Tracer P) (cpu : Nat) : Nat := (t.cursor cpu).limit - (t.cursor cpu).next

/-- The number of words that a flush clears. -/
def room (t : Tracer P) : Nat := ((List.range t.cursors.size).map t.roomOf).foldr (· + ·) 0

/-- Stops tracing and closes the blocks of all CPUs. Tells the number of words cleared. -/
def flush (t : Tracer P) : Nat × Tracer P :=
  let t := t.off
  let cleared := t.room
  (cleared, ((List.range t.cursors.size).foldl flushCpu t).report (.flushed cleared))

/-- Starts a new session, which is refused while tracing is on. The words of the arena stay as they are. -/
def reset (t : Tracer P) (mode : Mode) : Except Error Unit × Tracer P :=
  if t.tracing then (.error .tracingActive, t)
  else
    let t := { t with
      mode
      named := .empty
      arena := t.arena.reset mode.rates
      cursors := Array.replicate t.cursors.size {}
      clock := {} }
    (.ok (), t.report (.sessionReset mode.rates mode.wraps))

/-- A tracer with its first session started and tracing off. -/
def ofConfig (platform : P) (config : Config) : Except Error (Tracer P) := do
  config.validate
  let t : Tracer P :=
    { platform, config
      arena := .ofBlocks config.blocks
      cursors := Array.replicate config.cpus {}
      packets := .ofParams config.packetMask config.packetMatch }
  let t := (t.reset {}).2
  return t.report (.ready config.blocks config.cpus)

end EventRecorder.Tracer
