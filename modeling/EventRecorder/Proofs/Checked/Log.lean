import EventRecorder.Proofs.Checked.Arena
import EventRecorder.Proofs.Log.Readers
import EventRecorder.Proofs.Record.Split

/-! # Checked readers

The readers of the log, as a machine goes through it by index. They find all that they look for in every log that a
tracer writes. -/

namespace EventRecorder

open Size Ledger Arena

variable {v : LogView} {m : Mode} {log : Ledger} {i k n : Nat}

/-- What is found for each item of a list is found for the list. -/
theorem mapM_eq_map {α β : Type} {f : α → Option β} {g : α → β} {l : List α} (h : ∀ x ∈ l, f x = some (g x)) :
    l.mapM f = some (l.map g) := by
  induction l with
  | nil => rfl
  | cons x l ih =>
    obtain ⟨hx, hl⟩ := List.forall_mem_cons.mp h
    rw [List.mapM_cons, hx, ih hl]
    rfl

/-! ### The record view -/

namespace LogView

/-- The word up to which the first of some cursors found in block `k` has written it. -/
def stopAmong? (a : Arena) (k : Nat) : (cursors : List Cursor) → Option (Option Nat)
  | [] => some none
  | c :: cursors => do
    if c.limit = 0 then stopAmong? a k cursors
    else if (← a.blockOf? (← sub? c.limit 1)) = k then some (some (min c.next c.limit))
    else stopAmong? a k cursors

def region? (v : LogView) (k : Nat) : Option Span := do
  match ← v.arena.mark? k with
  | .filling => v.arena.recordRegion? k ((← stopAmong? v.arena k v.cursors.toList).getD 0)
  | .closed _ => v.arena.recordRegion? k 0

/-- Adds the sizes of the record regions of some blocks to a number of words. -/
def countFrom? (v : LogView) : (blocks : List Nat) → (total : Nat) → Option Nat
  | [], total => some total
  | k :: blocks, total => do v.countFrom? blocks (← add? total (← v.region? k).len)

def count? (v : LogView) : Option Nat := do v.countFrom? (← v.arena.newestFirst?) 0

/-- The `i`-th word of the record regions of some blocks, counted back from the end of the first region. -/
def wordAmong? (v : LogView) : (blocks : List Nat) → (i : Nat) → Option UInt64
  | [], _ => some 0
  | k :: blocks, i => do
    let r ← v.region? k
    if i < r.len then v.arena.word? (← sub? (← sub? (← add? r.start r.len) 1) i)
    else v.wordAmong? blocks (← sub? i r.len)

def word? (v : LogView) (i : Nat) : Option UInt64 := do v.wordAmong? (← v.arena.newestFirst?) i

/-- What the readers of a log rely on. -/
structure InOrder (v : LogView) : Prop where
  small : v.arena.blocks < 2 ^ 40
  opened : ∃ n, v.arena.Opened n
  limit_le : ∀ c, (v.cursor c).limit ≤ v.arena.high
  mark_le : ∀ k < v.arena.usable, ∀ offset, v.arena.mark k = .closed offset → offset ≤ blockWords
  region_le : ∀ k < v.arena.usable, headerWords k + (v.region k).len ≤ blockWords
  count_le : v.count ≤ v.arena.high

theorem stopAmong?_eq {a : Arena} {cursors : List Cursor} (h : ∀ c ∈ cursors, c.limit ≤ a.high) (k : Nat) :
    stopAmong? a k cursors =
      some ((cursors.find? fun c => c.limit != 0 && a.blockOf (c.limit - 1) == k).map fun c => min c.next c.limit) := by
  induction cursors with
  | nil => rfl
  | cons c cursors ih =>
    obtain ⟨hc, hcursors⟩ := List.forall_mem_cons.mp h
    unfold stopAmong?
    by_cases hset : c.limit = 0
    · rw [if_pos hset, ih hcursors, List.find?_cons_of_neg (by simp [hset])]
    · rw [if_neg hset, sub?_eq (by omega)]
      simp only [Option.bind_eq_bind, Option.bind_some, blockOf?_eq (show c.limit - 1 < a.high by omega)]
      by_cases hblock : a.blockOf (c.limit - 1) = k
      · rw [if_pos hblock, List.find?_cons_of_pos (by simp [hset, hblock])]
        rfl
      · rw [if_neg hblock, ih hcursors, List.find?_cons_of_neg (by simp [hblock])]

namespace InOrder

theorem lt_blocks (h : v.InOrder) (hk : k < v.arena.usable) : k < v.arena.blocks := by
  obtain ⟨n, ho⟩ := h.opened
  exact ho.lt_blocks hk

theorem lt_usable_of_mem (h : v.InOrder) (hk : k ∈ v.arena.newestFirst) : k < v.arena.usable := by
  obtain ⟨n, ho⟩ := h.opened
  exact Nat.lt_of_lt_of_le (ho.lt_claimed_of_mem hk) ho.claimed_le

theorem newestFirst?_eq (h : v.InOrder) : v.arena.newestFirst? = some v.arena.newestFirst := by
  obtain ⟨n, ho⟩ := h.opened
  exact Arena.newestFirst?_eq h.small ho

theorem region?_eq (h : v.InOrder) (hk : k < v.arena.usable) : v.region? k = some (v.region k) := by
  have hregion := recordRegion?_eq h.small (h.lt_blocks hk) (h.mark_le k hk)
  have hstop : stopAmong? v.arena k v.cursors.toList = some (v.cursorStop? k) := by
    refine stopAmong?_eq (fun c hc => ?_) k
    obtain ⟨cpu, -, rfl⟩ := exists_cursor hc
    exact h.limit_le cpu
  unfold region? region
  rw [mark?_eq (h.lt_blocks hk), hstop]
  simp only [Option.bind_eq_bind, Option.bind_some]
  cases v.arena.mark k with
  | filling => exact hregion _
  | closed _ => exact hregion 0

theorem region_stop_le (h : v.InOrder) (hk : k < v.arena.usable) : (v.region k).start + (v.region k).len ≤ v.arena.high := by
  have hregion := h.region_le k hk
  have hstop := blockStop_le_high (h.lt_blocks hk)
  rw [v.region_start]
  unfold recordStart
  unfold blockStop at hstop
  omega

theorem countFrom?_eq (h : v.InOrder) {blocks : List Nat} (hblocks : ∀ k ∈ blocks, k < v.arena.usable) {total : Nat}
    (htotal : total + ((blocks.map v.region).map Span.len).sum < 2 ^ 64) :
    v.countFrom? blocks total = some (total + ((blocks.map v.region).map Span.len).sum) := by
  induction blocks generalizing total with
  | nil => rfl
  | cons k blocks ih =>
    obtain ⟨hk, hrest⟩ := List.forall_mem_cons.mp hblocks
    rw [List.map_cons, List.map_cons, List.sum_cons, ← Nat.add_assoc] at htotal ⊢
    rw [countFrom?, h.region?_eq hk]
    simp only [Option.bind_eq_bind, Option.bind_some, add?_eq (show total + (v.region k).len < 2 ^ 64 by omega)]
    exact ih hrest htotal

theorem count?_eq (h : v.InOrder) : v.count? = some v.count := by
  have hle := h.count_le
  have hhigh := high_lt h.small
  have hzero : 0 + ((v.arena.newestFirst.map v.region).map Span.len).sum = v.count := Nat.zero_add _
  unfold count?
  rw [h.newestFirst?_eq, Option.bind_eq_bind, Option.bind_some,
    h.countFrom?_eq (fun k => h.lt_usable_of_mem) (by omega), hzero]

theorem wordAmong?_eq (h : v.InOrder) {blocks : List Nat} (hblocks : ∀ k ∈ blocks, k < v.arena.usable) (i : Nat) :
    v.wordAmong? blocks i = some (wordIn v.arena (blocks.map v.region) i) := by
  have hhigh := high_lt h.small
  induction blocks generalizing i with
  | nil => rfl
  | cons k blocks ih =>
    obtain ⟨hk, hrest⟩ := List.forall_mem_cons.mp hblocks
    have hstop := h.region_stop_le hk
    rw [wordAmong?, h.region?_eq hk, Option.bind_eq_bind, Option.bind_some, List.map_cons, wordIn]
    split
    · rw [add?_eq (by omega)]
      simp only [Option.bind_eq_bind, Option.bind_some,
        sub?_eq (show 1 ≤ (v.region k).start + (v.region k).len by omega),
        sub?_eq (show i ≤ (v.region k).start + (v.region k).len - 1 by omega)]
      exact word?_eq (by omega)
    · rw [sub?_eq (by omega)]
      exact ih hrest _

theorem word?_eq (h : v.InOrder) (i : Nat) : v.word? i = some (v.word i) := by
  unfold LogView.word?
  rw [h.newestFirst?_eq]
  exact h.wordAmong?_eq (fun k => h.lt_usable_of_mem) i

end InOrder

end LogView

/-! ### Snapshots -/

namespace Arena

variable {a : Arena}

def header? (a : Arena) (k : Nat) : Option Header := do
  let start ← a.blockStart? k
  return .ofWords (← a.word? start) (← a.word? (← add? start 1))

def task? (a : Arena) (k : Nat) : Option Task := do
  let i ← sub? (← add? (← a.blockStart? k) (headerWords k)) 4
  let name := TaskName.ofWords (← a.word? (← add? i 2)) (← a.word? (← add? i 3))
  return ⟨(← a.word? i).toUInt32, name⟩

theorem header?_eq (hsmall : a.blocks < 2 ^ 40) (hk : k < a.blocks) : a.header? k = some (a.header k) := by
  have hhigh := high_lt hsmall
  have hstop := blockStop_le_high hk
  unfold blockStop blockWords at hstop
  unfold header?
  simp only [blockStart?_eq hsmall hk, Option.bind_eq_bind, Option.bind_some,
    add?_eq (show a.blockStart k + 1 < 2 ^ 64 by omega), word?_eq (show a.blockStart k < a.high by omega),
    word?_eq (show a.blockStart k + 1 < a.high by omega)]
  rfl

theorem task?_eq (hsmall : a.blocks < 2 ^ 40) (hk : k < a.blocks) : a.task? k = some (a.task k) := by
  have hhigh := high_lt hsmall
  have hstop := blockStop_le_high hk
  have hleast := headerWords_pos k
  have hmost := headerWords_le k
  unfold blockStop blockWords at hstop
  unfold task? task
  have hstart : sub? (a.blockStart k + headerWords k) 4 = some (a.blockStart k + headerWords k - 4) := sub?_eq (by omega)
  simp only [blockStart?_eq hsmall hk, Option.bind_eq_bind, Option.bind_some,
    add?_eq (show a.blockStart k + headerWords k < 2 ^ 64 by omega), hstart]
  have hfirst : a.blockStart k + headerWords k - 4 + 3 < a.high := by omega
  generalize a.blockStart k + headerWords k - 4 = i at hfirst ⊢
  simp only [add?_eq (show i + 2 < 2 ^ 64 by omega), add?_eq (show i + 3 < 2 ^ 64 by omega), Option.bind_some,
    word?_eq (show i + 2 < a.high by omega), word?_eq hfirst, word?_eq (show i < a.high by omega)]
  rfl

end Arena

namespace BlockCopy

/-- The rate bytes of some words, if the header of their block says that it has any. -/
def ratesAt? (a : Arena) (header : Header) (r : Span) : Option (List UInt8) :=
  if header.hasRates then (List.range' r.start r.len).mapM a.rate? else some []

def ofView? (v : LogView) (k : Nat) : Option BlockCopy := do
  let header ← v.arena.header? k
  let task ← v.arena.task? k
  let r ← v.region? k
  let words ← (List.range' r.start r.len).mapM v.arena.word?
  let rates ← ratesAt? v.arena header r
  return ⟨k, header, task, words, rates⟩

theorem ofView?_eq (h : v.InOrder) (hk : k < v.arena.usable) : ofView? v k = some (ofView v k) := by
  have hall : ∀ i ∈ List.range' (v.region k).start (v.region k).len, i < v.arena.high := fun i hi =>
    Nat.lt_of_lt_of_le (List.mem_range'_1.mp hi).2 (h.region_stop_le hk)
  have hrates : ratesAt? v.arena (v.arena.header k) (v.region k) = some (ofView v k).rates := by
    unfold ratesAt? ofView
    dsimp only
    split
    · exact mapM_eq_map fun i hi => rate?_eq (Nat.lt_of_le_of_lt (Nat.div_le_self ..) (hall i hi))
    · rfl
  unfold ofView?
  simp only [header?_eq h.small (h.lt_blocks hk), task?_eq h.small (h.lt_blocks hk), h.region?_eq hk,
    mapM_eq_map fun i hi => Arena.word?_eq (hall i hi), hrates, Option.bind_eq_bind, Option.bind_some]
  rfl

end BlockCopy

def Snapshot.ofView? (v : LogView) : Option Snapshot := do
  let copies ← (← v.arena.newestFirst?).mapM (BlockCopy.ofView? v)
  return ⟨v.arena.wrapped, copies.reverse⟩

theorem Snapshot.ofView?_eq (h : v.InOrder) : ofView? v = some (ofView v) := by
  unfold ofView?
  simp only [h.newestFirst?_eq, Option.bind_eq_bind, Option.bind_some,
    mapM_eq_map fun k hk => BlockCopy.ofView?_eq h (h.lt_usable_of_mem hk)]
  rfl

/-! ### Records -/

namespace BlockCopy

/-- A part of a list, from one index up to another. -/
def slice? (words : List UInt64) (start stop : Nat) : Option (List UInt64) :=
  if start ≤ stop ∧ stop ≤ words.length then some ((words.take stop).drop start) else none

/-- The number between two bounds that is next to `n`. -/
def clamp? (n least most : Nat) : Option Nat := if least ≤ most then some (max least (min n most)) else none

/-- The records that begin at index `i` or later, found in a number of steps. -/
def recordsFrom? (words : List UInt64) (rates : List UInt8) : (steps i : Nat) → Option (List Record)
  | 0, _ => none
  | steps + 1, i => do
    if i < words.length then
      let w ← words[i]?
      let next ← add? i 1
      if w = 0 then recordsFrom? words rates steps next
      else
        let len ← clamp? (Head.recordLength w) 1 (← sub? words.length i)
        let stop ← add? i len
        let payload ← slice? words next stop
        return ⟨w, payload, rates[i]?⟩ :: (← recordsFrom? words rates steps stop)
    else some []

/-- The records of a block. No step stands still, so there are not more steps than words. -/
def records? (b : BlockCopy) : Option (List Record) := recordsFrom? b.words b.rates (b.words.length + 1) 0

theorem recordsFrom?_eq {words : List UInt64} (hsize : words.length < 2 ^ 63) (rates : List UInt8) {steps i : Nat}
    (hsteps : words.length - i < steps) :
    recordsFrom? words rates steps i = some (Record.split (words.drop i) (rates.drop i)) := by
  induction steps generalizing i with
  | zero => exact absurd hsteps (Nat.not_lt_zero _)
  | succ steps ih =>
    unfold recordsFrom?
    split
    · rename_i hi
      rw [List.drop_eq_getElem_cons hi, List.getElem?_eq_getElem hi]
      simp only [Option.bind_eq_bind, Option.bind_some, add?_eq (show i + 1 < 2 ^ 64 by omega)]
      generalize words[i] = w
      split
      · rename_i hzero
        rw [ih (by omega), Record.split, if_pos hzero, List.drop_drop]
      · rename_i hw
        have hleft : (words.drop (i + 1)).length + 1 = words.length - i := by
          rw [List.length_drop]
          omega
        have hclamp : clamp? (Head.recordLength w) 1 (words.length - i) =
            some (max 1 (min (Head.recordLength w) (words.length - i))) := if_pos (by omega)
        have hlength : max 1 (min (Head.recordLength w) (words.length - i)) =
            min (max (Head.recordLength w) 1) ((words.drop (i + 1)).length + 1) := by omega
        rw [Record.split_of_ne hw _ _ hlength, sub?_eq (Nat.le_of_lt hi)]
        simp only [Option.bind_some, hclamp]
        generalize hlen : max 1 (min (Head.recordLength w) (words.length - i)) = len
        have hslice : slice? words (i + 1) (i + len) = some ((words.take (i + len)).drop (i + 1)) := if_pos (by omega)
        simp only [add?_eq (show i + len < 2 ^ 64 by omega), Option.bind_some, hslice,
          ih (i := i + len) (by omega), List.drop_drop, List.drop_take, List.head?_drop]
        rw [show i + len - (i + 1) = len - 1 by omega, show i + 1 + (len - 1) = i + len by omega]
        rfl
    · rename_i hi
      rw [List.drop_of_length_le (Nat.le_of_not_lt hi), Record.split]

theorem records?_eq {b : BlockCopy} (hsize : b.words.length < 2 ^ 63) : b.records? = some b.records :=
  recordsFrom?_eq hsize b.rates (Nat.lt_succ_self _)

end BlockCopy

end EventRecorder
