import EventRecorder.Bits

/-! # Event codes

An event code has twelve bits, and its range tells the kind of event:

* `0x000` to `0x00f`: control events of one word;
* `0x010` to `0x1ff`: records of several words, their length in bits 4 to 7;
* `0x200` to `0x3ff`: point events of one word, such as context switches and marks;
* `0x400` to `0x7ff`: traps and interrupts, where bit 9 marks the return;
* `0x800` to `0xfff`: system calls, where bit 9 marks the return.

Codes arrive as 64-bit words. Only the functions that build a code cut it to twelve bits. -/

namespace EventRecorder.Event

/-- The bit that tells a return from its call. -/
def returnBit : UInt64 := 0x200

/-- The bits of which at least one is set in the codes of traps, interrupts and system calls. -/
def pairedBits : UInt64 := 0xc00

/-- Codes from here to `lastMeasured` carry the length of their record. -/
def firstMeasured : UInt64 := 0x010

/-- Codes from `firstMeasured` to here carry the length of their record. -/
def lastMeasured : UInt64 := 0x1ff

/-- The bits of a code that hold the record length. -/
def lengthField : BitField := ⟨4, 4, by decide, by decide⟩

/-- The largest number of words in a record. -/
def maxRecordWords : Nat := 8

/-- A record has one to eight words. -/
def isValidLength (len : Nat) : Bool := 1 ≤ len && len ≤ maxRecordWords

/-- The number of words that an event code announces. The length bits are given as they are, so a code
that carries no possible length is told apart by `isValidLength`. -/
def length (code : UInt64) : Nat :=
  if code < firstMeasured || lastMeasured < code then 1 else (lengthField.get code).toNat

/-- The code `base` with the length `len` added to it, cut to twelve bits. -/
def withLength (base : UInt64) (len : Nat) : UInt64 := (base ||| UInt64.ofNat len <<< 4) &&& ones 12

/-- Returns of traps, interrupts and system calls may be folded into the record of their call. -/
def isFoldableReturn (code : UInt64) : Bool := code &&& returnBit != 0 && code &&& pairedBits != 0

/-- The base code of a record that names a process. -/
def processName : UInt64 := 0x002

/-- A record that names a process has three words: the process and sixteen bytes of name. -/
def processNameRecord : UInt64 := withLength processName 3

/-- The names of single codes. -/
def pointNames : List (UInt64 × String) :=
  [(0x000, "nop"), (0x001, "rdtsc_pair"), (0x200, "userpid"), (0x206, "runnable"), (0x207, "ipi"), (0x208, "mwait"),
   (0x209, "pstate"), (0x20a, "mark_a"), (0x20b, "mark_b"), (0x20c, "mark_c"), (0x20d, "mark_d")]

/-- The names of measured records, by their code without the length. -/
def recordNames : List (UInt64 × String) :=
  [(0x002, "pidname"), (0x003, "methodname"), (0x004, "trapname"), (0x005, "irqname"), (0x006, "timepair"),
   (0x007, "lockname"), (0x008, "syscallname"), (0x100, "pc_sample")]

/-- The names of the ranges of traps, interrupts and system calls, by their last code in ascending order. -/
def rangeNames : List (UInt64 × String) :=
  [(0x4ff, "trap"), (0x5ff, "irq"), (0x6ff, "trap_ret"), (0x7ff, "irq_ret"), (0x9ff, "syscall64"),
   (0xbff, "sysret64"), (0xdff, "syscall32"), (0xfff, "sysret32")]

/-- A short name of the code for diagnostics. -/
def name (code : UInt64) : String :=
  if firstMeasured ≤ code && code ≤ lastMeasured then
    (recordNames.lookup (lengthField.clear code)).getD "record"
  else if 0x400 ≤ code then
    ((rangeNames.find? (code ≤ ·.1)).map (·.2)).getD "unknown"
  else
    (pointNames.lookup code).getD "unknown"

end EventRecorder.Event
