import EventRecorder.Error

/-! # Configurations

The settings that stay fixed while a tracer lives. -/

namespace EventRecorder

structure Config where
  blocks : Nat := 32
  /-- The number of CPUs that record events, numbered from 0. -/
  cpus : Nat := 1
  /-- Which of the first 24 bytes of a packet the packet filter reads. -/
  packetMask : Int64 := 0xf
  /-- The number that the packet filter matches. -/
  packetMatch : Int64 := 0xd1c517e5
deriving DecidableEq, Repr

namespace Config

/-- The smallest arena has the first block and one block to wrap onto. -/
def minBlocks : Nat := 2

/-- A block header has eight bits for the CPU. -/
def maxCpus : Nat := 256

/-- A mebibyte holds 16 blocks. -/
def blocksPerMib : Nat := 16

/-- The settings with an arena of `mib` mebibytes, at most 2^64 - 1 blocks. -/
def withArenaMib (c : Config) (mib : Nat) : Config := { c with blocks := min (mib * blocksPerMib) (UInt64.size - 1) }

/-- The first fault of the settings, the arena before the CPUs. -/
def validate (c : Config) : Except Error Unit :=
  if c.blocks < minBlocks then .error (.arenaTooSmall c.blocks)
  else if c.cpus = 0 || maxCpus < c.cpus then .error (.badCpuCount c.cpus)
  else .ok ()

end Config

end EventRecorder
