/-! # The arena

The log lives in one flat array of 64-bit words, divided into blocks of 8192 words. Blocks are numbered
from the top of the array down: block `k` ends where block `k - 1` starts, and block 0 ends at the top.
Every block has a fill mark, which tells where its records end once the block is closed. -/

namespace EventRecorder

def blockWords : Nat := 8192

/-- Consecutive words of the arena. -/
structure Span where
  start : Nat
  len : Nat
deriving DecidableEq, Repr

/-- One past the last word of a span. -/
def Span.stop (s : Span) : Nat := s.start + s.len

/-- How far a block is filled. -/
inductive Mark where
  /-- Some CPU still writes to the block. -/
  | filling
  /-- The records end at this offset from the start of the block. -/
  | closed (offset : Nat)
deriving DecidableEq, Repr

/-- The mark of a block that was never opened. -/
def Mark.unused : Mark := .closed 0

/-- Closes a block at an offset. A closed block can only shrink. -/
def Mark.close (m : Mark) (offset : Nat) : Mark :=
  match m with
  | filling => closed offset
  | closed old => closed (min old offset)

/-- The words of the log, one mark for each block, and the frontier between used and unused blocks. -/
structure Arena where
  words : Array UInt64
  marks : Array Mark
  /-- The lowest word that blocks may use. -/
  limit : Nat
  /-- The first word of the block opened last; the top of the arena if there is none. -/
  next : Nat
  /-- Blocks were opened a second time. -/
  wrapped : Bool
  /-- A block was asked for and refused. -/
  exhausted : Bool
  size_words : words.size = marks.size * blockWords

namespace Arena

/-- An arena of `n` blocks, all words zero. -/
def ofBlocks (n : Nat) : Arena where
  words := Array.replicate (n * blockWords) 0
  marks := Array.replicate n .unused
  limit := 0
  next := n * blockWords
  wrapped := false
  exhausted := false
  size_words := by simp

def blocks (a : Arena) : Nat := a.marks.size

/-- The top of the arena, one past its last word. -/
def high (a : Arena) : Nat := a.blocks * blockWords

theorem size_words_eq_high (a : Arena) : a.words.size = a.high := a.size_words

/-! ### Words -/

/-- The word at index `i`, zero above the top. -/
def word (a : Arena) (i : Nat) : UInt64 := a.words.getD i 0

def setWord (a : Arena) (i : Nat) (w : UInt64) : Arena :=
  { a with words := a.words.setIfInBounds i w, size_words := by simp [a.size_words] }

def orWord (a : Arena) (i : Nat) (bits : UInt64) : Arena := a.setWord i (a.word i ||| bits)

/-- Writes `ws` to the words from index `i` up. -/
def setWords (a : Arena) (i : Nat) : (ws : List UInt64) → Arena
  | [] => a
  | w :: ws => (a.setWord i w).setWords (i + 1) ws

/-- Writes zero to `n` words from index `i` up. -/
def zero (a : Arena) (i : Nat) : (n : Nat) → Arena
  | 0 => a
  | n + 1 => (a.setWord i 0).zero (i + 1) n

theorem word_setWord (a : Arena) (i j : Nat) (w : UInt64) :
    (a.setWord i w).word j = if i = j ∧ i < a.high then w else a.word j := by
  rw [← size_words_eq_high]
  simp only [word, setWord, Array.getD_eq_getD_getElem?, Array.getElem?_setIfInBounds]
  by_cases h : i = j
  · subst h
    by_cases hi : i < a.words.size <;> simp [hi]
  · simp [h]

@[simp] theorem marks_setWord (a : Arena) (i : Nat) (w : UInt64) : (a.setWord i w).marks = a.marks := rfl

@[simp] theorem high_setWord (a : Arena) (i : Nat) (w : UInt64) : (a.setWord i w).high = a.high := rfl

@[simp] theorem marks_setWords (a : Arena) (i : Nat) (ws : List UInt64) : (a.setWords i ws).marks = a.marks := by
  induction ws generalizing a i with
  | nil => rfl
  | cons w ws ih => simp [setWords, ih]

@[simp] theorem high_setWords (a : Arena) (i : Nat) (ws : List UInt64) : (a.setWords i ws).high = a.high := by
  simp [high, blocks]

theorem word_setWords (a : Arena) (i : Nat) (ws : List UInt64) (j : Nat) (fits : i + ws.length ≤ a.high) :
    (a.setWords i ws).word j = if i ≤ j ∧ j < i + ws.length then ws.getD (j - i) 0 else a.word j := by
  induction ws generalizing a i with
  | nil => simp only [setWords, List.length_nil]; grind
  | cons w ws ih =>
    simp only [List.length_cons] at fits ⊢
    rw [setWords, ih _ _ (by simp; omega), word_setWord]
    rcases Nat.lt_trichotomy j i with h | rfl | h
    · grind
    · grind [List.getD_cons_zero]
    · obtain ⟨n, rfl⟩ : ∃ n, j = i + 1 + n := ⟨j - (i + 1), by omega⟩
      have e : i + 1 + n - i = n + 1 := by omega
      rw [e, List.getD_cons_succ]
      grind

@[simp] theorem marks_zero (a : Arena) (i n : Nat) : (a.zero i n).marks = a.marks := by
  induction n generalizing a i with
  | zero => rfl
  | succ n ih => simp [zero, ih]

@[simp] theorem high_zero (a : Arena) (i n : Nat) : (a.zero i n).high = a.high := by simp [high, blocks]

theorem word_zero (a : Arena) (i n j : Nat) : (a.zero i n).word j = if i ≤ j ∧ j < i + n then 0 else a.word j := by
  induction n generalizing a i with
  | zero => simp only [zero]; grind
  | succ n ih =>
    rw [zero, ih, word_setWord]
    by_cases hi : i < a.high
    · grind
    · have : i ≤ j → a.word j = 0 := fun h => by
        have := a.size_words_eq_high
        simp only [word, Array.getD_eq_getD_getElem?]
        rw [Array.getElem?_eq_none (by omega)]
        rfl
      grind

/-! ### Blocks -/

/-- The block that holds the word at index `i`. -/
def blockOf (a : Arena) (i : Nat) : Nat := (a.high - 1 - i) / blockWords

/-- The first word of block `k`. -/
def blockStart (a : Arena) (k : Nat) : Nat := a.high - (k + 1) * blockWords

/-! ### Fill marks -/

def mark (a : Arena) (k : Nat) : Mark := a.marks.getD k .unused

/-- Marks block `k` as one that some CPU writes to. -/
def startFilling (a : Arena) (k : Nat) : Arena :=
  { a with marks := a.marks.setIfInBounds k .filling, size_words := by simp [a.size_words] }

/-- Closes block `k` at the word `stop`. -/
def close (a : Arena) (k stop : Nat) : Arena :=
  let offset := stop - a.blockStart k
  { a with marks := a.marks.modify k (·.close offset), size_words := by simp [a.size_words] }

end Arena

end EventRecorder
