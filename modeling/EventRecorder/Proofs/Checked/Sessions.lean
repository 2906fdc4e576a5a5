import EventRecorder.Action
import EventRecorder.Proofs.Checked.Inserts
import EventRecorder.Proofs.Checked.Log
import EventRecorder.Proofs.Ledger.Settled

/-! # Checked sessions

A flush goes through the CPUs one after another and adds up what it clears, and the readers stop tracing before they
look at the log. With them every action of a tracer is checked. -/

namespace EventRecorder

open Size Ledger Arena

variable {P : Type} {c cpu n : Nat} {t : Tracer P} {log : Ledger}

namespace Tracer

/-! ### Flushes -/

/-- Clears what is left of the block of a CPU, and adds its size to the number of words cleared before. -/
def flushCpu? (cleared : Nat) (t : Tracer P) (cpu : Nat) : Option (Nat × Tracer P) := do
  let c := t.cursor cpu
  if c.hasRoom then
    let t ← t.closeBlock? c.limit c.next
    let arena ← t.arena.zero? c.next c.limit
    let cleared ← add? cleared (← sub? c.limit c.next)
    return (cleared, { t with arena }.modifyCursor cpu ({ · with next := c.limit }))
  else return (cleared, t)

def flushAll? (cleared : Nat) (t : Tracer P) : (cpus : List Nat) → Option (Nat × Tracer P)
  | [] => some (cleared, t)
  | cpu :: cpus => do
    let (cleared, t) ← t.flushCpu? cleared cpu
    t.flushAll? cleared cpus

def flush? (t : Tracer P) : Option (Nat × Tracer P) := do
  let t := t.off
  let (cleared, t) ← t.flushAll? 0 (List.range t.cursors.size)
  return (cleared, t.report (.flushed cleared))

theorem roomOf_le (h : t.InOrder) (cpu : Nat) : t.roomOf cpu < 2 ^ 53 := by
  obtain ⟨log, hp⟩ := h.placed
  have hlimit : (t.cursor cpu).limit ≤ t.arena.high := hp.limit_le_high cpu
  exact Nat.lt_of_le_of_lt (Nat.le_trans (Nat.sub_le ..) hlimit) (high_lt h.small)

theorem flushCpu?_eq (h : t.InOrder) (hcleared : n + 2 ^ 53 < 2 ^ 64) (cpu : Nat) :
    t.flushCpu? n cpu = some (n + t.roomOf cpu, t.flushCpu cpu) := by
  obtain ⟨log, hp⟩ := h.placed
  have hlimit : (t.cursor cpu).limit ≤ t.arena.high := hp.limit_le_high cpu
  have hroomOf := roomOf_le h cpu
  unfold roomOf at hroomOf ⊢
  unfold flushCpu? flushCpu
  dsimp only
  split
  · rename_i hroom
    have hlt := Cursor.hasRoom_iff.mp hroom
    rw [closeBlock?_eq h.small (Nat.ne_zero_of_lt hlt) hlimit, Option.bind_eq_bind, Option.bind_some]
    have hhigh : (t.closeBlock (t.cursor cpu).limit (t.cursor cpu).next).arena.high = t.arena.high :=
      (SameFrontier.close ..).high
    rw [zero?_eq (Nat.le_of_lt hlt) (hhigh.symm ▸ hlimit), Option.bind_eq_bind, Option.bind_some,
      sub?_eq (Nat.le_of_lt hlt), Option.bind_eq_bind, Option.bind_some, add?_eq (by omega)]
    rfl
  · rename_i hroom
    have hfull : (t.cursor cpu).limit ≤ (t.cursor cpu).next := Nat.le_of_not_lt fun hlt => hroom (Cursor.hasRoom_iff.mpr hlt)
    rw [Nat.sub_eq_zero_of_le hfull]
    rfl

/-- A flush moves a CPU to its limit, if at all. -/
theorem place_flushCpu (t : Tracer P) (cpu c : Nat) :
    ((t.flushCpu cpu).cursor c).limit = (t.cursor c).limit ∧
      (((t.flushCpu cpu).cursor c).next = (t.cursor c).next ∨ ((t.flushCpu cpu).cursor c).next = (t.cursor c).limit) := by
  unfold Tracer.flushCpu
  dsimp only
  split
  · refine ⟨field_modifyCursor Cursor.limit (fun _ => by rfl) c, ?_⟩
    by_cases hc : c = cpu
    · subst hc
      rcases Nat.lt_or_ge c t.cursors.size with hserved | hunserved
      · exact Or.inr (congrArg Cursor.next (cursor_modifyCursor hserved))
      · exact Or.inl (congrArg Cursor.next (cursor_modifyCursor_of_le hunserved))
    · exact Or.inl (congrArg Cursor.next (cursor_modifyCursor_of_ne hc))
  · exact ⟨rfl, Or.inl rfl⟩

theorem roomOf_flushCpu_of_ne (h : c ≠ cpu) : (t.flushCpu cpu).roomOf c = t.roomOf c := by
  unfold roomOf flushCpu
  dsimp only
  split
  · rw [cursor_modifyCursor_of_ne h]
    rfl
  · rfl

theorem InOrder.flushCpu (h : t.InOrder) (hcpu : cpu < t.cursors.size) : (t.flushCpu cpu).InOrder := by
  obtain ⟨log, hp⟩ := h.placed
  obtain ⟨hleads, hsize⟩ := flushCpu_leads t log hcpu
  have hhigh := high_lt h.small
  refine ⟨hleads.same_layout.1.symm ▸ h.small, ⟨log, hleads.placed hp⟩, fun c => ?_, hsize.symm ▸ h.cpus_le⟩
  have hlimit : (t.cursor c).limit ≤ t.arena.high := hp.limit_le_high c
  have hnext := h.next_lt c
  obtain ⟨-, hplace⟩ := t.place_flushCpu cpu c
  omega

theorem flushAll?_eq {cpus : List Nat} (h : t.InOrder) (hcpus : ∀ c ∈ cpus, c < t.cursors.size) (hone : cpus.Nodup)
    (hcleared : n + (cpus.length + 1) * 2 ^ 53 < 2 ^ 64) :
    t.flushAll? n cpus = some (n + (cpus.map t.roomOf).sum, cpus.foldl Tracer.flushCpu t) := by
  induction cpus generalizing n t with
  | nil => rfl
  | cons cpu cpus ih =>
    obtain ⟨hcpu, hrest⟩ := List.forall_mem_cons.mp hcpus
    obtain ⟨hnew, hone⟩ := List.nodup_cons.mp hone
    have hroom := roomOf_le h cpu
    have hsize := (flushCpu_leads t [] hcpu).2
    -- each CPU is flushed once, so its room is the same whether the others were flushed before or not
    have hsum : (cpus.map (t.flushCpu cpu).roomOf) = cpus.map t.roomOf :=
      List.map_congr_left fun c hc => roomOf_flushCpu_of_ne fun heq => hnew (heq ▸ hc)
    rw [List.length_cons] at hcleared
    unfold flushAll?
    rw [flushCpu?_eq h (by omega), Option.bind_eq_bind, Option.bind_some, List.map_cons, List.sum_cons, ← Nat.add_assoc,
      List.foldl_cons, ← hsum]
    exact ih (h.flushCpu hcpu) (fun c hc => hsize ▸ hrest c hc) hone (by omega)

theorem flush?_eq (h : t.InOrder) : t.flush? = some t.flush := by
  have hoff := h.of_akin (Akin.off t)
  have hcpus := hoff.cpus_le
  have hall := flushAll?_eq (n := 0) hoff (fun c => List.mem_range.mp) List.nodup_range
    (by rw [List.length_range]; omega)
  unfold flush?
  dsimp only
  rw [hall, Nat.zero_add]
  rfl

/-! ### Sessions -/

def reset? (t : Tracer P) (mode : Mode) : Option (Except Error Unit × Tracer P) := do
  if t.tracing then return (.error .tracingActive, t)
  else
    let t := { t with
      mode
      named := .empty
      arena := ← t.arena.reset? mode.rates
      cursors := Array.replicate t.cursors.size {}
      clock := {} }
    return (.ok (), t.report (.sessionReset mode.rates mode.wraps))

def ofConfig? (platform : P) (config : Config) : Option (Except Error (Tracer P)) :=
  match config.validate with
  | .error cause => some (.error cause)
  | .ok () => do
    let t : Tracer P :=
      { platform, config
        arena := ← Arena.ofBlocks? config.blocks
        cursors := Array.replicate config.cpus {}
        packets := .ofParams config.packetMask config.packetMatch }
    let (_, t) ← t.reset? {}
    return .ok (t.report (.ready config.blocks config.cpus))

theorem reset?_eq (hsmall : t.arena.blocks < 2 ^ 40) (mode : Mode) : t.reset? mode = some (t.reset mode) := by
  unfold reset? reset
  split
  · rfl
  · rw [Arena.reset?_eq hsmall]
    rfl

theorem ofConfig?_eq {config : Config} (hsmall : config.blocks < 2 ^ 40) (platform : P) :
    ofConfig? platform config = some (ofConfig platform config) := by
  have hblocks : (Arena.ofBlocks config.blocks).blocks = config.blocks := by simp [Arena.blocks, Arena.ofBlocks]
  unfold ofConfig? ofConfig
  cases config.validate with
  | error cause => rfl
  | ok _ =>
    dsimp only
    rw [Arena.ofBlocks?_eq hsmall, Option.bind_eq_bind, Option.bind_some, reset?_eq (hblocks.symm ▸ hsmall)]
    rfl

/-! ### Reading the log -/

/-- Reads from a tracer once tracing has stopped. -/
def readStopped? {α : Type} (t : Tracer P) (read : Tracer P → Option α) : Option (α × Tracer P) := do
  let t := t.off
  return (← read t, t)

def blocksUsed? (t : Tracer P) : Option Nat := t.arena.claimed?

def wordCount? (t : Tracer P) : Option (UInt64 × Tracer P) := t.readStopped? fun t => do
  let count := UInt64.ofNat (← t.view.count?)
  return if t.arena.wrapped then ~~~count else count

def readWord? (t : Tracer P) (i : Nat) : Option (UInt64 × Tracer P) := t.readStopped? (·.view.word? i)

def rawCount? (t : Tracer P) : Option (Nat × Tracer P) := t.readStopped? (·.arena.rawCount?)

def readRawWord? (t : Tracer P) (i : Nat) : Option (UInt64 × Tracer P) := t.readStopped? (·.arena.rawWord? i)

def readRateWord? (t : Tracer P) (i : Nat) : Option (UInt64 × Tracer P) := t.readStopped? (·.arena.rawRateWord? i)

def snapshot? (t : Tracer P) : Option (Snapshot × Tracer P) := t.readStopped? (Snapshot.ofView? ·.view)

theorem readStopped?_eq {α : Type} {read : Tracer P → Option α} {x : α} (h : read t.off = some x) :
    t.readStopped? read = some (x, t.off) := by
  unfold readStopped?
  dsimp only
  rw [h]
  rfl

section Readers
variable (h : t.view.InOrder)
include h

theorem inOrder_off : t.off.view.InOrder := t.off_same.2.2.symm ▸ h

theorem blocksUsed?_eq : t.blocksUsed? = some t.blocksUsed := by
  obtain ⟨n, ho⟩ := h.opened
  exact Arena.claimed?_eq ho

theorem wordCount?_eq : t.wordCount? = some t.wordCount := by
  refine readStopped?_eq ?_
  rw [(inOrder_off h).count?_eq]
  rfl

theorem readWord?_eq (i : Nat) : t.readWord? i = some (t.readWord i) := readStopped?_eq ((inOrder_off h).word?_eq i)

theorem rawCount?_eq : t.rawCount? = some t.rawCount := by
  obtain ⟨n, ho⟩ := (inOrder_off h).opened
  exact readStopped?_eq (Arena.rawCount?_eq (inOrder_off h).small ho)

theorem readRawWord?_eq (i : Nat) : t.readRawWord? i = some (t.readRawWord i) := by
  obtain ⟨n, ho⟩ := (inOrder_off h).opened
  exact readStopped?_eq (Arena.rawWord?_eq (inOrder_off h).small ho i)

theorem readRateWord?_eq (i : Nat) : t.readRateWord? i = some (t.readRateWord i) := by
  obtain ⟨n, ho⟩ := (inOrder_off h).opened
  exact readStopped?_eq (Arena.rawRateWord?_eq (inOrder_off h).small ho i)

theorem snapshot?_eq : t.snapshot? = some t.snapshot := readStopped?_eq (Snapshot.ofView?_eq (inOrder_off h))

end Readers

/-! ### Actions -/

section Platform
variable [Platform P]

def execute? (t : Tracer P) : Command → Option (UInt64 × Tracer P)
  | .off => some (0, t.off)
  | .on => some (1, t.on)
  | .flush => do let (cleared, t) ← t.flush?; return (UInt64.ofNat cleared, t)
  | .reset flags => do
    match ← t.reset? (.ofBits flags) with
    | (.ok (), t) => return (0, t)
    | (.error cause, t) => return (Command.failure, t.report (.resetRefused cause))
  | .stat => do return (UInt64.ofNat (← t.blocksUsed?), t)
  | .count => t.wordCount?
  | .word i => t.readWord? i.toNat
  | .insertWord w forced =>
    if forced || t.tracing then do let (o, t) ← t.insert? w []; return (UInt64.ofNat o.wordsAdded, t) else some (0, t)
  | .insertUser address forced =>
    if forced || t.tracing then do let (o, t) ← t.insertUser? address; return (UInt64.ofNat o.wordsAdded, t)
    else some (0, t)
  | .rateWord i => t.readRateWord? i.toNat
  | .test => some (if t.tracing then 1 else 0, t)
  | .version => some (Command.currentVersion, t)
  | .rawCount => do let (count, t) ← t.rawCount?; return (UInt64.ofNat count, t)
  | .rawWord i => t.readRawWord? i.toNat

def control? (t : Tracer P) (code arg : UInt64) : Option (UInt64 × Tracer P) :=
  match Command.ofCode? code arg with
  | some command => t.execute? command
  | none => some (Command.failure, t)

def perform? (t : Tracer P) : Action → Option (Answer × Tracer P)
  | .claim cpu len => do let (span, t) ← t.claim? cpu len; return (.claimed span, t)
  | .insert first payload => do let (o, t) ← t.insert? first payload; return (.recorded o, t)
  | .insertReturn ret => do let (o, t) ← t.insertReturn? ret; return (.recorded o, t)
  | .insertMany words => do let (o, t) ← t.insertMany? words; return (.recorded o, t)
  | .insertUser address => do let (o, t) ← t.insertUser? address; return (.recorded o, t)
  | .traceEvent event arg => do let (o, t) ← t.traceEvent? event arg; return (.recorded o, t)
  | .traceSample event pc => do let (o, t) ← t.traceSample? event pc; return (.recorded o, t)
  | .traceWords event words => do let (o, t) ← t.traceWords? event words; return (.recorded o, t)
  | .traceName pid name => do let (o, t) ← t.traceName? pid name; return (.recorded o, t)
  | .reset mode => do let (result, t) ← t.reset? mode; return (.done result, t)
  | .execute command => do let (n, t) ← t.execute? command; return (.number n, t)
  | .control code arg => do let (n, t) ← t.control? code arg; return (.number n, t)
  | .snapshot => do let (s, t) ← t.snapshot?; return (.copied s, t)

theorem execute?_eq (h : t.InOrder) (hview : t.view.InOrder) (c : Command) : t.execute? c = some (t.execute c) := by
  unfold execute? execute
  cases c with
  | flush =>
    dsimp only
    rw [flush?_eq h]
    rfl
  | reset flags =>
    dsimp only
    rw [reset?_eq h.small, Option.bind_eq_bind, Option.bind_some]
    obtain ⟨result, u⟩ := t.reset (.ofBits flags)
    cases result <;> rfl
  | stat =>
    dsimp only
    rw [blocksUsed?_eq hview]
    rfl
  | count => exact wordCount?_eq hview
  | word i => exact readWord?_eq hview i.toNat
  | insertWord w forced =>
    dsimp only
    split
    · rw [insert?_eq h]
      rfl
    · rfl
  | insertUser address forced =>
    dsimp only
    split
    · rw [insertUser?_eq h]
      rfl
    · rfl
  | rateWord i => exact readRateWord?_eq hview i.toNat
  | rawCount =>
    dsimp only
    rw [rawCount?_eq hview]
    rfl
  | rawWord i => exact readRawWord?_eq hview i.toNat
  | off | on | test | version => rfl

theorem control?_eq (h : t.InOrder) (hview : t.view.InOrder) (code arg : UInt64) :
    t.control? code arg = some (t.control code arg) := by
  unfold control? control
  cases Command.ofCode? code arg with
  | none => rfl
  | some c => exact execute?_eq h hview c

/-- No check stops an action of a tracer in order. -/
theorem perform?_eq (h : t.InOrder) (hview : t.view.InOrder) (a : Action) : t.perform? a = some (t.perform a) := by
  cases a <;> simp only [perform?, perform]
  case claim cpu len =>
    obtain ⟨log, hp⟩ := h.placed
    rw [claim?_eq hp h.small (h.next_lt cpu)]
    rfl
  case insert first payload => rw [insert?_eq h]; rfl
  case insertReturn ret => rw [insertReturn?_eq h]; rfl
  case insertMany words => rw [insertMany?_eq h]; rfl
  case insertUser address => rw [insertUser?_eq h]; rfl
  case traceEvent event arg => rw [traceEvent?_eq h]; rfl
  case traceSample event pc => rw [traceSample?_eq h]; rfl
  case traceWords event words => rw [traceWords?_eq h]; rfl
  case traceName pid name => rw [traceName?_eq h]; rfl
  case reset mode => rw [reset?_eq h.small]; rfl
  case execute c => rw [execute?_eq h hview]; rfl
  case control code arg => rw [control?_eq h hview]; rfl
  case snapshot => rw [snapshot?_eq hview]; rfl

end Platform

end Tracer

end EventRecorder
