import EventRecorder.Arena.Raw
import EventRecorder.Proofs.Arena.Openings
import EventRecorder.Proofs.Arena.Words
import EventRecorder.Proofs.Rates.Lanes

/-! # Checked arenas

A machine computes with sizes of 64 bits, and it stops where a sum leaves them, a difference falls below zero, a
divisor is zero, or an index lies beyond the end of its array. A function whose name ends in a question mark takes
the steps of the function without it as a machine does, and has no result if the machine would stop. -/

namespace EventRecorder

/-! ### Sizes and words -/

namespace Size

variable {m n : Nat}

def add? (m n : Nat) : Option Nat := if m + n < 2 ^ 64 then some (m + n) else none

def sub? (m n : Nat) : Option Nat := if n ≤ m then some (m - n) else none

def mul? (m n : Nat) : Option Nat := if m * n < 2 ^ 64 then some (m * n) else none

def div? (m n : Nat) : Option Nat := if n = 0 then none else some (m / n)

theorem add?_eq (h : m + n < 2 ^ 64) : add? m n = some (m + n) := if_pos h

theorem sub?_eq (h : n ≤ m) : sub? m n = some (m - n) := if_pos h

theorem mul?_eq (h : m * n < 2 ^ 64) : mul? m n = some (m * n) := if_pos h

theorem div?_eq (h : n ≠ 0) : div? m n = some (m / n) := if_neg h

end Size

namespace Word

def sub? (v w : UInt64) : Option UInt64 := if w ≤ v then some (v - w) else none

/-- A word is not shifted by its width or more. -/
def shiftLeft? (w : UInt64) (n : Nat) : Option UInt64 := if n < 64 then some (w <<< UInt64.ofNat n) else none

end Word

open Size

namespace Arena

variable {a : Arena} {i k n start stop : Nat}

/-! ### Words -/

def word? (a : Arena) (i : Nat) : Option UInt64 := a.words[i]?

def setWord? (a : Arena) (i : Nat) (w : UInt64) : Option Arena := if i < a.words.size then some (a.setWord i w) else none

def setWords? (a : Arena) (i : Nat) : (ws : List UInt64) → Option Arena
  | [] => some a
  | w :: ws => do (← a.setWord? i w).setWords? (← add? i 1) ws

/-- Writes zero to the words from `start` up to `stop`. -/
def zero? (a : Arena) (start stop : Nat) : Option Arena :=
  if start ≤ stop ∧ stop ≤ a.words.size then some (a.zero start (stop - start)) else none

/-- An arena of less than 2^40 blocks has less than 2^53 words. -/
theorem high_lt (hsmall : a.blocks < 2 ^ 40) : a.high < 2 ^ 53 := Nat.mul_lt_mul_of_pos_right hsmall (by decide)

theorem word?_eq (h : i < a.high) : a.word? i = some (a.word i) := by
  rw [← a.size_words_eq_high] at h
  unfold word? word
  rw [Array.getD_eq_getD_getElem?, Array.getElem?_eq_getElem h, Option.getD_some]

theorem setWord?_eq (w : UInt64) (h : i < a.high) : a.setWord? i w = some (a.setWord i w) :=
  if_pos (a.size_words_eq_high ▸ h)

theorem setWords?_eq (ws : List UInt64) (hsmall : a.blocks < 2 ^ 40) (h : i + ws.length ≤ a.high) :
    a.setWords? i ws = some (a.setWords i ws) := by
  induction ws generalizing a i with
  | nil => rfl
  | cons w ws ih =>
    have hhigh := high_lt hsmall
    rw [List.length_cons] at h
    have hrest := ih (a := a.setWord i w) (i := i + 1) hsmall (by rw [high_setWord]; omega)
    rw [setWords?, setWord?_eq w (by omega), add?_eq (by omega)]
    exact hrest

theorem zero?_eq (hle : start ≤ stop) (h : stop ≤ a.high) : a.zero? start stop = some (a.zero start (stop - start)) :=
  if_pos ⟨hle, a.size_words_eq_high ▸ h⟩

/-! ### Blocks and marks -/

def blockOf? (a : Arena) (i : Nat) : Option Nat := do return (← sub? (← sub? a.high 1) i) / blockWords

def blockStart? (a : Arena) (k : Nat) : Option Nat := do sub? a.high (← mul? (← add? k 1) blockWords)

def mark? (a : Arena) (k : Nat) : Option Mark := a.marks[k]?

def startFilling? (a : Arena) (k : Nat) : Option Arena := if k < a.marks.size then some (a.startFilling k) else none

def close? (a : Arena) (k stop : Nat) : Option Arena := do
  let start ← a.blockStart? k
  if k < a.marks.size then
    return { a with marks := a.marks.modify k (·.close (stop - start)), size_words := by simp [a.size_words] }
  else none

theorem blockOf?_eq (h : i < a.high) : a.blockOf? i = some (a.blockOf i) := by
  unfold blockOf?
  rw [sub?_eq (by omega), Option.bind_eq_bind, Option.bind_some, sub?_eq (by omega)]
  rfl

theorem blockStart?_eq (hsmall : a.blocks < 2 ^ 40) (hk : k < a.blocks) : a.blockStart? k = some (a.blockStart k) := by
  have hhigh := high_lt hsmall
  have hle : (k + 1) * blockWords ≤ a.high := Nat.mul_le_mul_right _ hk
  unfold blockStart?
  rw [add?_eq (by omega), Option.bind_eq_bind, Option.bind_some, mul?_eq (by omega)]
  exact sub?_eq hle

/-- A block that the arena does not have has no first word. -/
example : (ofBlocks 2).blockStart? 1 = some 0 ∧ (ofBlocks 2).blockStart? 2 = none := by decide +kernel

theorem mark?_eq (hk : k < a.blocks) : a.mark? k = some (a.mark k) := by
  unfold blocks at hk
  unfold mark? mark
  rw [Array.getD_eq_getD_getElem?, Array.getElem?_eq_getElem hk, Option.getD_some]

theorem startFilling?_eq (hk : k < a.blocks) : a.startFilling? k = some (a.startFilling k) := if_pos hk

theorem close?_eq (hsmall : a.blocks < 2 ^ 40) (hk : k < a.blocks) (stop : Nat) :
    a.close? k stop = some (a.close k stop) := by
  unfold close?
  rw [blockStart?_eq hsmall hk, Option.bind_eq_bind, Option.bind_some]
  exact if_pos hk

/-! ### Record regions -/

/-- The region of the records of a block that starts at `start` and is filled up to an offset. -/
def regionOf? (start header fill : Nat) : Option Span := do
  let first ← add? start header
  let past ← add? start (max fill header)
  return ⟨first, ← sub? past first⟩

def recordRegion? (a : Arena) (k stop : Nat) : Option Span := do
  let start ← a.blockStart? k
  match ← a.mark? k with
  | .filling => regionOf? start (headerWords k) (min (stop - start) blockWords)
  | .closed offset => regionOf? start (headerWords k) offset

theorem regionOf?_eq {header fill : Nat} (hstart : start < 2 ^ 53) (hheader : header ≤ blockWords)
    (hfill : fill ≤ blockWords) : regionOf? start header fill = some ⟨start + header, fill - header⟩ := by
  have hlen : start + max fill header - (start + header) = fill - header := by omega
  unfold blockWords at hheader hfill
  unfold regionOf?
  rw [add?_eq (by omega), Option.bind_eq_bind, Option.bind_some, add?_eq (by omega), Option.bind_some,
    sub?_eq (by omega), Option.bind_some, hlen]
  rfl

/-- A block has a record region if its mark does not lie beyond its end. -/
theorem recordRegion?_eq (hsmall : a.blocks < 2 ^ 40) (hk : k < a.blocks)
    (hmark : ∀ offset, a.mark k = .closed offset → offset ≤ blockWords) (stop : Nat) :
    a.recordRegion? k stop = some (a.recordRegion k stop) := by
  have hstart : a.blockStart k < 2 ^ 53 := Nat.lt_of_le_of_lt (Nat.sub_le ..) (high_lt hsmall)
  have hheader : headerWords k ≤ blockWords := Nat.le_trans (headerWords_le k) (by decide)
  unfold recordRegion? recordRegion
  rw [blockStart?_eq hsmall hk, mark?_eq hk]
  simp only [Option.bind_eq_bind, Option.bind_some]
  cases hm : a.mark k with
  | filling => exact regionOf?_eq hstart hheader (Nat.min_le_right ..)
  | closed offset => exact regionOf?_eq hstart hheader (hmark offset hm)

/-! ### The frontier -/

/-- The limit of the arena once it is reset. -/
def resetLimit? (a : Arena) (rates : Bool) : Option Nat :=
  if rates then mul? ((a.blocks + 7) / 8) blockWords else some 0

def reset? (a : Arena) (rates : Bool) : Option Arena := do return { a.reset rates with limit := ← a.resetLimit? rates }

def openBlock? (a : Arena) (wrap : Bool) : Option (Option Opening × Arena) := do
  let floor ← add? a.limit blockWords
  if floor ≤ a.next then
    let start ← sub? a.next blockWords
    return (some ⟨start, a.next == a.high, false⟩, { a with next := start })
  let floor ← add? a.limit (2 * blockWords)
  if wrap && floor ≤ a.high then
    let start ← sub? a.high (2 * blockWords)
    return (some ⟨start, false, true⟩, { a with next := start, wrapped := true })
  return (none, { a with exhausted := true })

def usable? (a : Arena) : Option Nat := do return (← sub? a.high a.limit) / blockWords

def claimed? (a : Arena) : Option Nat :=
  if a.wrapped || a.exhausted then a.usable? else do return (← sub? a.high a.next) / blockWords

def newestFirst? (a : Arena) : Option (List Nat) := do
  let usable ← a.usable?
  if a.wrapped then
    let recent ← sub? ((← sub? a.high a.next) / blockWords) 1
    let older ← add? recent 1
    return (List.range' 1 recent).reverse ++ (List.range' older (usable - older)).reverse ++ [0]
  return (List.range (← a.claimed?)).reverse

theorem reset?_eq (hsmall : a.blocks < 2 ^ 40) (rates : Bool) : a.reset? rates = some (a.reset rates) := by
  unfold reset? resetLimit?
  cases rates
  · rfl
  · rw [if_pos rfl, mul?_eq (by unfold blockWords; omega)]
    rfl

theorem openBlock?_eq (hsmall : a.blocks < 2 ^ 40) (ho : a.Opened n) (wrap : Bool) :
    a.openBlock? wrap = some (a.openBlock wrap) := by
  have hhigh := high_lt hsmall
  have hlimit := ho.limit_add
  have hroom : a.limit + 2 * blockWords < 2 ^ 64 := by
    unfold blockWords at *
    omega
  unfold openBlock? openBlock
  rw [add?_eq (by omega), Option.bind_eq_bind, Option.bind_some]
  split
  · rw [sub?_eq (by omega)]
    rfl
  · rw [add?_eq hroom, Option.bind_some]
    split
    · rename_i hwrap
      rw [Bool.and_eq_true, decide_eq_true_iff] at hwrap
      rw [sub?_eq (by omega)]
      rfl
    · rfl

theorem usable?_eq (ho : a.Opened n) : a.usable? = some a.usable := by
  have hlimit := ho.limit_add
  unfold usable?
  rw [sub?_eq (by omega)]
  rfl

theorem claimed?_eq (ho : a.Opened n) : a.claimed? = some a.claimed := by
  have hnext := ho.next_add
  unfold claimed? claimed
  split
  · exact usable?_eq ho
  · rw [sub?_eq (by omega)]
    rfl

/-- Once a session has wrapped, its frontier lies below block 1. -/
theorem newestFirst?_eq (hsmall : a.blocks < 2 ^ 40) (ho : a.Opened n) : a.newestFirst? = some a.newestFirst := by
  have hnext := ho.next_add
  unfold newestFirst? newestFirst
  rw [usable?_eq ho, Option.bind_eq_bind, Option.bind_some]
  split
  · rename_i hwrapped
    have hn := ho.wrapped_iff.mp hwrapped
    have htwo := two_le_depth (u := a.usable) (n := n) (by have := ho.two_le hn; omega)
    have hrecent : 1 ≤ (a.high - a.next) / blockWords := by
      unfold blockWords at *
      omega
    have hsize : (a.high - a.next) / blockWords < 2 ^ 53 :=
      Nat.lt_of_le_of_lt (Nat.div_le_self ..) (Nat.lt_of_le_of_lt (Nat.sub_le ..) (high_lt hsmall))
    rw [sub?_eq (by omega), Option.bind_some, sub?_eq hrecent, Option.bind_some, add?_eq (by omega), Option.bind_some]
    rfl
  · rw [claimed?_eq ho]
    rfl

/-! ### Rates and the raw view -/

def rate? (a : Arena) (i : Nat) : Option UInt8 := do return ((rateLane i).get (← a.word? (i / 8))).toUInt8

def setRate? (a : Arena) (i : Nat) (b : UInt8) : Option Arena := do
  a.setWord? (i / 8) ((rateLane i).set b.toUInt64 (← a.word? (i / 8)))

def orRate? (a : Arena) (i : Nat) (b : UInt8) : Option Arena := do
  a.setWord? (i / 8) ((← a.word? (i / 8)) ||| (rateLane i).place b.toUInt64)

def rawCount? (a : Arena) : Option Nat := do mul? (← a.claimed?) blockWords

def rawWord? (a : Arena) (i : Nat) : Option UInt64 := do
  if (← a.rawCount?) ≤ i then return 0
  a.word? (← add? (← a.blockStart? (i / blockWords)) (i % blockWords))

def rawRateWord? (a : Arena) (i : Nat) : Option UInt64 := do
  if (← a.rawCount?) / 8 ≤ i then return 0
  let start ← sub? (a.high / 8) (← mul? (← add? (i / rateWords) 1) rateWords)
  a.word? (← add? start (i % rateWords))

theorem rate?_eq (h : i / 8 < a.high) : a.rate? i = some (a.rate i) := by
  unfold rate?
  rw [word?_eq h]
  rfl

theorem setRate?_eq (h : i / 8 < a.high) (b : UInt8) : a.setRate? i b = some (a.setRate i b) := by
  unfold setRate?
  rw [word?_eq h]
  exact setWord?_eq _ h

theorem orRate?_eq (h : i / 8 < a.high) (b : UInt8) : a.orRate? i b = some (a.orRate i b) := by
  unfold orRate?
  rw [word?_eq h]
  exact setWord?_eq _ h

theorem rawCount?_eq (hsmall : a.blocks < 2 ^ 40) (ho : a.Opened n) : a.rawCount? = some a.rawCount := by
  have hhigh := high_lt hsmall
  have hle := a.rawCount_le_high
  unfold rawCount at hle
  unfold rawCount?
  rw [claimed?_eq ho]
  exact mul?_eq (by omega)

/-- The raw view shows words of opened blocks. -/
theorem rawWord?_eq (hsmall : a.blocks < 2 ^ 40) (ho : a.Opened n) (i : Nat) : a.rawWord? i = some (a.rawWord i) := by
  have hhigh := high_lt hsmall
  have hle := a.rawCount_le_high
  unfold rawWord? rawWord
  rw [rawCount?_eq hsmall ho, Option.bind_eq_bind, Option.bind_some]
  split
  · rfl
  · rename_i hi
    have hk : i / blockWords < a.blocks := by
      unfold high at hle
      exact Nat.div_lt_of_lt_mul (by rw [Nat.mul_comm]; omega)
    have hstop := blockStop_le_high hk
    have hmod : i % blockWords < blockWords := Nat.mod_lt _ (by decide)
    unfold blockStop at hstop
    rw [blockStart?_eq hsmall hk, Option.bind_some, add?_eq (by omega)]
    exact word?_eq (by omega)

/-- The words of rates of the opened blocks lie in the lowest eighth of the arena. -/
theorem rawRateWord?_eq (hsmall : a.blocks < 2 ^ 40) (ho : a.Opened n) (i : Nat) :
    a.rawRateWord? i = some (a.rawRateWord i) := by
  have hhigh := high_lt hsmall
  have hle := a.rawCount_le_high
  unfold rawRateWord? rawRateWord
  rw [rawCount?_eq hsmall ho, Option.bind_eq_bind, Option.bind_some]
  split
  · rfl
  · rename_i hi
    have hrates : rateWords = 1024 := rfl
    have hhigh : a.high / 8 = a.blocks * 1024 := by
      unfold high blockWords
      omega
    have hk : (i / 1024 + 1) * 1024 ≤ a.high / 8 := by omega
    rw [hrates, add?_eq (by omega), Option.bind_some, mul?_eq (by omega), Option.bind_some, sub?_eq hk, Option.bind_some,
      add?_eq (by omega)]
    exact word?_eq (by omega)

/-! ### Making and laying out -/

def ofBlocks? (n : Nat) : Option Arena := do
  let size ← mul? n blockWords
  return { ofBlocks n with next := size }

/-- Clears the words about the session in block 0, which lie before its task. -/
def clearSession? (a : Arena) (o : Opening) (session taskStart : Nat) : Option Arena :=
  if o.veryFirst then a.zero? session taskStart else some a

/-- Writes header, task and tail of a block just opened, and tells where its records start. -/
def layOut? (a : Arena) (o : Opening) (header : Header) (task : Task) : Option (Nat × Arena) := do
  let (w₀, w₁) := header.toWords
  let (low, high) := task.name.toWords
  let session ← add? o.start 2
  let taskStart ← add? session (if o.veryFirst then sessionWords else 0)
  let slot ← add? taskStart 4
  let stop ← add? o.start blockWords
  let tail ← sub? stop tailWords
  let a ← a.setWords? o.start [w₀, w₁]
  let a ← a.clearSession? o session taskStart
  let a ← a.setWords? taskStart [task.pid.toUInt64, 0, low, high]
  let a ← a.zero? tail stop
  return (slot, a)

theorem ofBlocks?_eq (h : n < 2 ^ 40) : ofBlocks? n = some (ofBlocks n) := by
  unfold ofBlocks?
  rw [mul?_eq (by unfold blockWords; omega)]
  rfl

theorem clearSession?_eq {o : Opening} (hstop : o.taskStart ≤ a.high) :
    a.clearSession? o (o.start + 2) o.taskStart =
      some (if o.veryFirst then a.zero (o.start + 2) sessionWords else a) := by
  unfold clearSession? Opening.taskStart
  unfold Opening.taskStart at hstop
  split
  · rename_i hfirst
    rw [if_pos hfirst] at hstop
    rw [zero?_eq (by omega) hstop, Nat.add_sub_cancel_left]
  · rfl

/-- A block is laid out within the arena. -/
theorem layOut?_eq {o : Opening} (hsmall : a.blocks < 2 ^ 40) (hstop : o.start + blockWords ≤ a.high) (header : Header)
    (task : Task) : a.layOut? o header task = some (o.recordStart, a.layOut o header task) := by
  have hhigh := high_lt hsmall
  have hwords : blockWords = 8192 := rfl
  have htail : tailWords = 8 := rfl
  obtain ⟨-, hslot⟩ := taskStart_bounds o
  have htask : add? (o.start + 2) (if o.veryFirst then sessionWords else 0) = some o.taskStart :=
    add?_eq (show o.taskStart < 2 ^ 64 by omega)
  have hsize : o.start + blockWords - (o.start + blockWords - tailWords) = tailWords := by omega
  unfold layOut? layOut writeTask
  simp only [add?_eq (show o.start + 2 < 2 ^ 64 by omega), htask, add?_eq (show o.taskStart + 4 < 2 ^ 64 by omega),
    add?_eq (show o.start + blockWords < 2 ^ 64 by omega),
    sub?_eq (show tailWords ≤ o.start + blockWords by omega), Option.bind_eq_bind, Option.bind_some]
  -- the arena keeps its size from one write to the next
  rw [setWords?_eq _ hsmall (by simp only [List.length_cons, List.length_nil]; omega), Option.bind_some]
  have hfirst := SameFrontier.setWords a o.start [header.toWords.1, header.toWords.2]
  generalize a.setWords o.start [header.toWords.1, header.toWords.2] = b at hfirst ⊢
  rw [clearSession?_eq (by rw [hfirst.high]; omega), Option.bind_some]
  have hcleared : b.SameFrontier (if o.veryFirst then b.zero (o.start + 2) sessionWords else b) := by
    split
    · exact .zero ..
    · exact .refl b
  have hsecond := hfirst.trans hcleared
  generalize (if o.veryFirst then b.zero (o.start + 2) sessionWords else b) = c at hsecond ⊢
  rw [setWords?_eq _ (hsecond.blocks ▸ hsmall)
    (by simp only [hsecond.high, List.length_cons, List.length_nil]; omega), Option.bind_some,
    zero?_eq (by omega) (by rw [high_setWords, hsecond.high]; exact hstop), Option.bind_some, hsize]
  rfl

end Arena

end EventRecorder
