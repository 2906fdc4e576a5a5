import EventRecorder.Proofs.Checked.Claims
import EventRecorder.Proofs.Rates.Readings
import EventRecorder.Tracer.Hooks

/-! # Checked insertions

A record is written to words that were claimed for it, and its rate is looked up in a table. What is claimed lies in
the arena, so no check stops an insertion or a hook either. -/

namespace EventRecorder

open Size Ledger Arena

variable {P : Type} {cpu i : Nat} {t u : Tracer P}

/-! ### Rates -/

namespace Rate

/-- The bucket of each rate, in eighths of an instruction per cycle. -/
def table : List Nat :=
  [0, 1, 2, 3, 4, 5, 6, 7, 8, 8, 9, 9, 10, 10, 11, 11,
   12, 12, 12, 12, 13, 13, 13, 13, 14, 14, 14, 14, 15, 15, 15, 15,
   15, 15, 15, 15, 15, 15, 15, 15, 15, 15, 15, 15, 15, 15, 15, 15,
   15, 15, 15, 15, 15, 15, 15, 15, 15, 15, 15, 15, 15, 15, 15, 15]

def ofDeltas? (instructions ticks : UInt64) : Option Nat :=
  let eighthTicks := ticks.toNat * 8 % UInt32.size
  if ticks ≤ 1 || eighthTicks = 0 then some 0
  else do table[(← div? (instructions.toNat % UInt32.size) eighthTicks) % 64]?

/-- The table holds the buckets of the scale. -/
theorem table_eq {n : Nat} (h : n < 64) : table[n]? = some (ofEighths n) := by
  have hall : ∀ n : Fin 64, table[n.val]? = some (ofEighths n.val) := by decide +kernel
  exact hall ⟨n, h⟩

theorem ofDeltas?_eq (instructions ticks : UInt64) : ofDeltas? instructions ticks = some (ofDeltas instructions ticks) := by
  unfold ofDeltas? ofDeltas
  dsimp only
  split
  · rfl
  · rename_i hticks
    rw [div?_eq fun hzero => hticks (by simp [hzero])]
    exact table_eq (Nat.mod_lt _ (by decide))

end Rate

/-- The words of an event, copied to a buffer of the size of the longest record. -/
def Event.buffered? (words : List UInt64) : Option (List UInt64) :=
  if words.length ≤ Event.maxRecordWords then some words else none

namespace Tracer

/-- No cursor of the tracer is close to the end of the sizes, and its arena is not too large for them. -/
structure InOrder (t : Tracer P) : Prop where
  small : t.arena.blocks < 2 ^ 40
  placed : ∃ log, Placed t.mode t.view (shape log)
  next_lt : ∀ c, (t.cursor c).next + 16 < 2 ^ 64
  cpus_le : t.cursors.size ≤ 256

theorem InOrder.of_akin (h : t.InOrder) (hakin : t.Akin u) : u.InOrder := by
  obtain ⟨log, hp⟩ := h.placed
  refine ⟨?_, ⟨log, hakin.placed hp⟩, fun c => ?_, ?_⟩
  · rw [hakin.arena]
    exact h.small
  · rw [hakin.cursor]
    exact h.next_lt c
  · rw [hakin.cursors]
    exact h.cpus_le

theorem InOrder.next_lt_high (h : t.InOrder) (hroom : (t.cursor cpu).hasRoom = true) :
    (t.cursor cpu).next < t.arena.high := by
  obtain ⟨log, hp⟩ := h.placed
  exact Nat.lt_of_lt_of_le (Cursor.hasRoom_iff.mp hroom) (hp.limit_le_high cpu)

variable [Platform P]

theorem InOrder.readTime (h : t.InOrder) : t.readTime.2.InOrder := h.of_akin ⟨rfl, rfl, rfl, rfl, rfl⟩

def measureRate? (t : Tracer P) (cpu : Nat) (now : UInt64) : Option (UInt8 × Tracer P) := do
  let (count, t) := t.readInstructions
  let c := t.cursor cpu
  let rate ← Rate.ofDeltas? (count - c.priorInstructions) (now - c.priorTime)
  return (UInt8.ofNat rate, t.modifyCursor cpu ({ · with priorTime := now, priorInstructions := count }))

def noteRate? (t : Tracer P) (cpu i : Nat) (now : UInt64) : Option (Tracer P) :=
  if t.mode.rates then do
    let (rate, t) ← t.measureRate? cpu now
    return { t with arena := ← t.arena.setRate? i rate }
  else some t

def noteReturnRate? (t : Tracer P) (cpu i : Nat) (now : UInt64) : Option (Tracer P) :=
  if t.mode.rates then do
    let (rate, t) ← t.measureRate? cpu now
    return { t with arena := ← t.arena.orRate? i (rate <<< 4) }
  else some t

theorem measureRate?_eq (t : Tracer P) (cpu : Nat) (now : UInt64) :
    t.measureRate? cpu now = some (t.measureRate cpu now) := by
  unfold measureRate?
  simp only [Rate.ofDeltas?_eq, Option.bind_eq_bind, Option.bind_some]
  rfl

/-- A measurement leaves the arena alone, so what is noted in it can be checked before. -/
theorem measured?_eq {f : Arena → UInt8 → Option Arena} {g : Arena → UInt8 → Arena}
    (h : ∀ b, f t.arena b = some (g t.arena b)) (cpu : Nat) (now : UInt64) :
    (do let (rate, t) ← t.measureRate? cpu now; return { t with arena := ← f t.arena rate }) =
      some (let (rate, t) := t.measureRate cpu now; { t with arena := g t.arena rate }) := by
  have harena := (t.measureRate_spec cpu now).2.1
  rw [t.measureRate?_eq]
  generalize t.measureRate cpu now = r at harena ⊢
  simp only [harena, h, Option.bind_eq_bind, Option.bind_some]
  rfl

theorem noteRate?_eq (h : i < t.arena.high) (cpu : Nat) (now : UInt64) :
    t.noteRate? cpu i now = some (t.noteRate cpu i now) := by
  unfold noteRate? noteRate
  split
  · exact measured?_eq (f := (·.setRate? i)) (g := (·.setRate i)) (setRate?_eq (by omega)) cpu now
  · rfl

theorem noteReturnRate?_eq (h : i < t.arena.high) (cpu : Nat) (now : UInt64) :
    t.noteReturnRate? cpu i now = some (t.noteReturnRate cpu i now) := by
  unfold noteReturnRate? noteReturnRate
  split
  · exact measured?_eq (f := fun a b => a.orRate? i (b <<< 4)) (g := fun a b => a.orRate i (b <<< 4))
      (fun b => orRate?_eq (by omega) (b <<< 4)) cpu now
  · rfl

/-! ### Records -/

def insertAt? (t : Tracer P) (cpu : Nat) (now first : UInt64) (payload : List UInt64) : Option (Outcome × Tracer P) := do
  match ← t.claim? cpu (payload.length + 1) with
  | (none, t) => return (.dropped, t)
  | (some claim, t) =>
    let arena ← t.arena.setWords? claim.start (Head.stamp first now :: payload)
    let t ← { t with arena }.noteRate? cpu claim.start now
    return (.written cpu claim, t)

def insert? (t : Tracer P) (first : UInt64) (payload : List UInt64) : Option (Outcome × Tracer P) :=
  let (now, t) := t.readTime
  t.insertAt? t.currentCpu now first payload

def priorIndex? (t : Tracer P) (cpu : Nat) : Option (Option Nat) :=
  if (t.cursor cpu).hasRoom then (sub? (t.cursor cpu).next 1).map some else some none

/-- The word just before the cursor of a CPU with the return `ret` folded into it, and its index. -/
def fold? (t : Tracer P) (cpu : Nat) (ret : UInt64) : Option (Option (Nat × UInt64)) := do
  match ← t.priorIndex? cpu with
  | none => return none
  | some i => return (Head.merge? (← t.arena.word? i) ret).map (i, ·)

def insertReturn? (t : Tracer P) (ret : UInt64) : Option (Outcome × Tracer P) := do
  let (now, t) := t.readTime
  let cpu := t.currentCpu
  match ← t.fold? cpu (Head.stamp ret now) with
  | some (i, w) =>
    let arena ← t.arena.setWord? i w
    return (.merged cpu i, ← { t with arena }.noteReturnRate? cpu i now)
  | none => t.insertAt? cpu now ret []

def insertMany? (t : Tracer P) (words : List UInt64) : Option (Outcome × Tracer P) :=
  match words with
  | [] => some (.dropped, t.refuseLength 0)
  | first :: rest =>
    let len := Head.recordLength first
    if !Event.isValidLength len then some (.dropped, t.refuseLength len)
    else t.insert? first ((List.range (len - 1)).map (rest.getD · 0))

def insertUser? (t : Tracer P) (address : UInt64) : Option (Outcome × Tracer P) :=
  match Platform.userWords t.platform address with
  | .error _ => some (.dropped, t)
  | .ok words => t.insertMany? words.toList

theorem insertAt?_eq (h : t.InOrder) (cpu : Nat) (now first : UInt64) (payload : List UInt64) :
    t.insertAt? cpu now first payload = some (t.insertAt cpu now first payload) := by
  obtain ⟨log, hp⟩ := h.placed
  unfold insertAt? insertAt
  rw [claim?_eq hp h.small (h.next_lt cpu), Option.bind_eq_bind, Option.bind_some]
  cases hclaim : t.claim cpu (payload.length + 1) with
  | mk span? u =>
    cases span? with
    | none => rfl
    | some span =>
      obtain ⟨-, hstop, hblocks⟩ := bounds_of_claim hp hclaim
      have hhigh := high_congr hblocks
      have hwrite := setWords?_eq (a := u.arena) (i := span.start) (Head.stamp first now :: payload) (hblocks ▸ h.small)
        (by rw [List.length_cons]; omega)
      have hrate := noteRate?_eq (t := { u with arena := u.arena.setWords span.start (Head.stamp first now :: payload) })
        (i := span.start) (by simp only [high_setWords]; omega) cpu now
      dsimp only
      rw [hwrite, Option.bind_eq_bind, Option.bind_some, hrate]
      rfl

theorem insert?_eq (h : t.InOrder) (first : UInt64) (payload : List UInt64) :
    t.insert? first payload = some (t.insert first payload) := insertAt?_eq h.readTime _ _ first payload

omit [Platform P] in
/-- A CPU with room stands behind a word of the arena. -/
theorem fold?_eq (h : t.InOrder) (cpu : Nat) (ret : UInt64) : t.fold? cpu ret = some (t.merged? cpu ret) := by
  obtain ⟨log, hp⟩ := h.placed
  unfold fold? merged? priorIndex? priorIndex
  dsimp only
  split
  · rename_i hroom
    obtain ⟨p, -, hnext, -, hin⟩ := hp.latest_of_hasRoom (c := cpu) hroom
    have hlen := hin.len
    have hspan : p.span.stop = p.span.start + p.span.len := rfl
    have hlt := h.next_lt_high hroom
    have hpos : 1 ≤ (t.cursor cpu).next := by
      rw [view_cursor] at hnext
      omega
    rw [sub?_eq hpos]
    simp only [Option.map_some, Option.bind_eq_bind, Option.bind_some,
      word?_eq (show (t.cursor cpu).next - 1 < t.arena.high by omega)]
    cases Head.merge? _ ret <;> rfl
  · rfl

theorem insertReturn?_eq (h : t.InOrder) (ret : UInt64) : t.insertReturn? ret = some (t.insertReturn ret) := by
  have hread := h.readTime
  have hfold := fold?_eq hread t.readTime.2.currentCpu (Head.stamp ret t.readTime.1)
  unfold insertReturn?
  dsimp only
  rw [hfold, Option.bind_eq_bind, Option.bind_some]
  cases hmerge : t.readTime.2.merged? t.readTime.2.currentCpu (Head.stamp ret t.readTime.1) with
  | none =>
    rw [insertReturn_of_none hmerge]
    exact insertAt?_eq hread _ _ _ _
  | some folded =>
    obtain ⟨i, w⟩ := folded
    obtain ⟨hroom, rfl, -⟩ := merged?_eq_some_iff.mp hmerge
    -- the word before the cursor lies in the arena, and so does its rate
    have hlt := hread.next_lt_high hroom
    rw [insertReturn_of_some hmerge]
    generalize t.readTime.2.currentCpu = cpu at hlt ⊢
    have hi : (t.readTime.2.cursor cpu).next - 1 < t.readTime.2.arena.high := by omega
    generalize (t.readTime.2.cursor cpu).next - 1 = i at hi ⊢
    have hrate := noteReturnRate?_eq (t := { t.readTime.2 with arena := t.readTime.2.arena.setWord i w }) (i := i)
      (by rw [high_setWord]; exact hi) cpu t.readTime.1
    dsimp only
    rw [setWord?_eq w hi, Option.bind_eq_bind, Option.bind_some, hrate]
    rfl

theorem insertMany?_eq (h : t.InOrder) (words : List UInt64) : t.insertMany? words = some (t.insertMany words) := by
  unfold insertMany? insertMany
  cases words with
  | nil => rfl
  | cons first rest =>
    dsimp only
    split
    · rfl
    · exact insert?_eq h _ _

theorem insertUser?_eq (h : t.InOrder) (address : UInt64) : t.insertUser? address = some (t.insertUser address) := by
  unfold insertUser? insertUser
  cases Platform.userWords t.platform address with
  | error cause => rfl
  | ok words => exact insertMany?_eq h _

/-! ### Hooks -/

def traceEvent? (t : Tracer P) (event arg : UInt64) : Option (Outcome × Tracer P) :=
  if !t.tracing then some (.dropped, t)
  else if Event.isFoldableReturn event && Head.fitsByte arg.toInt64 then
    t.insertReturn? (Head.returnWord event arg.toInt64)
  else
    t.insert? (Head.callWord event arg) []

def traceSample? (t : Tracer P) (event pc : UInt64) : Option (Outcome × Tracer P) :=
  if !t.tracing then some (.dropped, t)
  else t.insert? (Head.callWord event (Platform.frequency t.platform)) [pc]

def traceWords? (t : Tracer P) (event : UInt64) (words : List UInt64) : Option (Outcome × Tracer P) :=
  if !t.tracing then some (.dropped, t)
  else if !Event.isValidLength words.length then some (.dropped, t.refuseLength words.length)
  else do
    let code := Head.eventField.place (Event.withLength event words.length)
    let words ← Event.buffered? words
    t.insertMany? (words.modifyHead (· ||| code))

def traceName? (t : Tracer P) (pid : UInt32) (name : TaskName) : Option (Outcome × Tracer P) :=
  if !t.tracing || t.named.contains pid then some (.dropped, t)
  else
    let (low, high) := name.toWords
    let first := Head.callWord Event.processNameRecord (Head.argField.get pid.toUInt64)
    { t with named := t.named.insert pid }.insertMany? [first, low, high]

theorem traceEvent?_eq (h : t.InOrder) (event arg : UInt64) : t.traceEvent? event arg = some (t.traceEvent event arg) := by
  unfold traceEvent? traceEvent
  split
  · rfl
  · split
    · exact insertReturn?_eq h _
    · exact insert?_eq h _ _

theorem traceSample?_eq (h : t.InOrder) (event pc : UInt64) : t.traceSample? event pc = some (t.traceSample event pc) := by
  unfold traceSample? traceSample
  split
  · rfl
  · exact insert?_eq h _ _

theorem traceWords?_eq (h : t.InOrder) (event : UInt64) (words : List UInt64) :
    t.traceWords? event words = some (t.traceWords event words) := by
  unfold traceWords? traceWords
  split
  · rfl
  · split
    · rfl
    · rename_i hlen
      have hfits : Event.buffered? words = some words := by
        rw [Bool.not_eq_true, Bool.not_eq_false'] at hlen
        exact if_pos (isValidLength_iff.mp hlen).2
      dsimp only
      rw [hfits]
      exact insertMany?_eq h _

theorem traceName?_eq (h : t.InOrder) (pid : UInt32) (name : TaskName) :
    t.traceName? pid name = some (t.traceName pid name) := by
  unfold traceName? traceName
  split
  · rfl
  · have hnamed : t.Akin { t with named := t.named.insert pid } := ⟨rfl, rfl, rfl, rfl, rfl⟩
    exact insertMany?_eq (h.of_akin hnamed) _

end Tracer

end EventRecorder
