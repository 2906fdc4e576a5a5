import EventRecorder.Arena.Raw
import EventRecorder.Arena.Region
import EventRecorder.Block.Layout

/-! # The geometry of an arena

Block `k` covers the words from `blockStart k` up to `blockStop k`, and its records start at
`recordStart k`. The raw view shows the word `rawIndex i` at `i`. This file relates word indices to blocks
and to the raw view, and says which parts of an arena its elementary updates keep: writing words keeps the
frontier and the marks, changing marks keeps the frontier and the words. -/

namespace EventRecorder.Arena

variable {a b c : Arena} {i j k : Nat}

/-- One past the last word of block `k`. -/
def blockStop (a : Arena) (k : Nat) : Nat := a.blockStart k + blockWords

/-- The first word of block `k` that can hold a record. -/
def recordStart (a : Arena) (k : Nat) : Nat := a.blockStart k + headerWords k

/-! ### Indices -/

theorem headerWords_pos (k : Nat) : 6 ≤ headerWords k := by
  unfold headerWords firstHeaderWords plainHeaderWords
  split <;> omega

theorem headerWords_le (k : Nat) : headerWords k ≤ 12 := by
  unfold headerWords firstHeaderWords plainHeaderWords
  split <;> omega

theorem blockStart_lt_recordStart (a : Arena) (k : Nat) : a.blockStart k < a.recordStart k := by
  have := headerWords_pos k
  unfold recordStart
  omega

theorem recordStart_lt_blockStop (a : Arena) (k : Nat) : a.recordStart k < a.blockStop k := by
  have := headerWords_le k
  unfold recordStart blockStop blockWords
  omega

theorem blockStop_add (hk : k < a.blocks) : a.blockStop k + k * blockWords = a.high := by
  unfold blockStop blockStart high blockWords
  omega

theorem blockStop_le_high (hk : k < a.blocks) : a.blockStop k ≤ a.high := by
  have := blockStop_add hk
  omega

theorem blockStop_pos (a : Arena) (k : Nat) : 0 < a.blockStop k := by
  unfold blockStop blockWords
  omega

/-- A block with a smaller number lies higher. -/
theorem blockStop_le_blockStart (hj : j < a.blocks) (h : k < j) : a.blockStop j ≤ a.blockStart k := by
  unfold blockStop blockStart high blockWords
  omega

theorem blockStop_inj (hj : j < a.blocks) (hk : k < a.blocks) (h : a.blockStop j = a.blockStop k) : j = k := by
  have := blockStop_add hj
  have := blockStop_add hk
  unfold blockWords at *
  omega

theorem blockOf_eq (hk : k < a.blocks) (h₁ : a.blockStart k ≤ i) (h₂ : i < a.blockStop k) : a.blockOf i = k := by
  unfold blockStop blockStart high blockWords at *
  unfold blockOf high blockWords
  omega

theorem blockOf_blockStart (hk : k < a.blocks) : a.blockOf (a.blockStart k) = k :=
  blockOf_eq hk (Nat.le_refl _) (by unfold blockStop blockWords; omega)

theorem blockOf_recordStart (hk : k < a.blocks) : a.blockOf (a.recordStart k) = k :=
  blockOf_eq hk (Nat.le_of_lt (a.blockStart_lt_recordStart k)) (a.recordStart_lt_blockStop k)

/-- The block that a cursor with this limit writes to. -/
theorem blockOf_blockStop (hk : k < a.blocks) : a.blockOf (a.blockStop k - 1) = k :=
  blockOf_eq hk (by unfold blockStop blockWords; omega) (by have := a.blockStop_pos k; omega)

/-- A word of one block lies outside of what lies in another block. -/
theorem outside_of_ne {n x : Nat} (hj : j < a.blocks) (hk : k < a.blocks) (hne : j ≠ k) (h₁ : a.blockStart j ≤ x)
    (h₂ : x < a.blockStop j) (h₃ : a.blockStart k ≤ i) (h₄ : i + n ≤ a.blockStop k) : x < i ∨ i + n ≤ x := by
  rcases Nat.lt_or_gt_of_ne hne with h | h
  · exact Or.inr (Nat.le_trans h₄ (Nat.le_trans (blockStop_le_blockStart hk h) h₁))
  · exact Or.inl (Nat.lt_of_lt_of_le h₂ (Nat.le_trans (blockStop_le_blockStart hj h) h₃))

/-! ### The raw view -/

/-- The word that the raw view shows at `i`. -/
def rawIndex (a : Arena) (i : Nat) : Nat := a.blockStart (i / blockWords) + i % blockWords

theorem claimed_le_blocks (a : Arena) : a.claimed ≤ a.blocks := by
  unfold claimed usable
  split
  · exact Nat.div_le_of_le_mul (Nat.mul_comm .. ▸ Nat.sub_le ..)
  · exact Nat.div_le_of_le_mul (Nat.mul_comm .. ▸ Nat.sub_le ..)

theorem rawCount_le_high (a : Arena) : a.rawCount ≤ a.high := Nat.mul_le_mul_right _ a.claimed_le_blocks

theorem rawWord_eq (h : i < a.rawCount) : a.rawWord i = a.word (a.rawIndex i) := if_neg (Nat.not_le_of_lt h)

/-- The raw view shows the blocks one after another, each from its start. -/
theorem rawIndex_add (a : Arena) (k : Nat) (h : j < blockWords) :
    a.rawIndex (k * blockWords + j) = a.blockStart k + j := by
  have hdiv : (k * blockWords + j) / blockWords = k := by
    unfold blockWords at *
    omega
  have hmod : (k * blockWords + j) % blockWords = j := by
    unfold blockWords at *
    omega
  unfold rawIndex
  rw [hdiv, hmod]

/-- The word that holds the rate of the word shown at `i` is counted down from the top of the rates. -/
theorem rawIndex_spec (h : i < a.high) : a.rawIndex i < a.high ∧ a.rawIndex i % 8 = i % 8 ∧
    a.rawIndex i / 8 = a.high / 8 - (i / 8 / rateWords + 1) * rateWords + i / 8 % rateWords := by
  have hrate : rateWords = 1024 := rfl
  unfold rawIndex blockStart
  rw [hrate]
  unfold high blockWords at *
  omega

theorem rawRateWord_eq (h : i < a.rawCount) : a.rawRateWord (i / 8) = a.word (a.rawIndex i / 8) := by
  obtain ⟨-, -, hword⟩ := rawIndex_spec (Nat.lt_of_lt_of_le h a.rawCount_le_high)
  have hshown : ¬ a.rawCount / 8 ≤ i / 8 := by
    unfold rawCount blockWords at *
    omega
  unfold rawRateWord
  rw [if_neg hshown, hword]

/-! ### Arenas of one size -/

theorem high_congr (h : b.blocks = a.blocks) : b.high = a.high := by
  unfold Arena.high
  rw [h]

theorem blockStart_congr (h : b.blocks = a.blocks) (k : Nat) : b.blockStart k = a.blockStart k := by
  unfold Arena.blockStart
  rw [high_congr h]

theorem blockStop_congr (h : b.blocks = a.blocks) (k : Nat) : b.blockStop k = a.blockStop k := by
  unfold Arena.blockStop
  rw [blockStart_congr h]

theorem recordStart_congr (h : b.blocks = a.blocks) (k : Nat) : b.recordStart k = a.recordStart k := by
  unfold Arena.recordStart
  rw [blockStart_congr h]

theorem usable_congr (h : b.blocks = a.blocks) (hl : b.limit = a.limit) : b.usable = a.usable := by
  unfold Arena.usable
  rw [high_congr h, hl]

/-! ### What an update keeps -/

/-- `b` has the size and the frontier of `a`. -/
structure SameFrontier (a b : Arena) : Prop where
  blocks : b.blocks = a.blocks
  limit : b.limit = a.limit
  next : b.next = a.next
  wrapped : b.wrapped = a.wrapped
  exhausted : b.exhausted = a.exhausted

namespace SameFrontier

theorem refl (a : Arena) : SameFrontier a a := ⟨rfl, rfl, rfl, rfl, rfl⟩

theorem trans (h₁ : SameFrontier a b) (h₂ : SameFrontier b c) : SameFrontier a c :=
  ⟨h₂.blocks.trans h₁.blocks, h₂.limit.trans h₁.limit, h₂.next.trans h₁.next, h₂.wrapped.trans h₁.wrapped,
    h₂.exhausted.trans h₁.exhausted⟩

theorem high (h : SameFrontier a b) : b.high = a.high := high_congr h.blocks

theorem blockStart (h : SameFrontier a b) (k : Nat) : b.blockStart k = a.blockStart k := blockStart_congr h.blocks k

theorem blockStop (h : SameFrontier a b) (k : Nat) : b.blockStop k = a.blockStop k := blockStop_congr h.blocks k

theorem recordStart (h : SameFrontier a b) (k : Nat) : b.recordStart k = a.recordStart k := recordStart_congr h.blocks k

theorem usable (h : SameFrontier a b) : b.usable = a.usable := usable_congr h.blocks h.limit

theorem claimed (h : SameFrontier a b) : b.claimed = a.claimed := by
  unfold Arena.claimed
  rw [h.wrapped, h.exhausted, h.usable, h.high, h.next]

theorem setWord (a : Arena) (i : Nat) (w : UInt64) : SameFrontier a (a.setWord i w) := ⟨rfl, rfl, rfl, rfl, rfl⟩

theorem setWords (a : Arena) (i : Nat) (ws : List UInt64) : SameFrontier a (a.setWords i ws) := by
  induction ws generalizing a i with
  | nil => exact refl a
  | cons w ws ih => exact (setWord a i w).trans (ih _ _)

theorem zero (a : Arena) (i n : Nat) : SameFrontier a (a.zero i n) := by
  induction n generalizing a i with
  | zero => exact refl a
  | succ n ih => exact (setWord a i 0).trans (ih _ _)

theorem startFilling (a : Arena) (k : Nat) : SameFrontier a (a.startFilling k) :=
  ⟨by simp [Arena.blocks, Arena.startFilling], rfl, rfl, rfl, rfl⟩

theorem close (a : Arena) (k stop : Nat) : SameFrontier a (a.close k stop) :=
  ⟨by simp [Arena.blocks, Arena.close], rfl, rfl, rfl, rfl⟩

theorem layOut (a : Arena) (o : Opening) (header : Header) (task : Task) :
    SameFrontier a (a.layOut o header task) := by
  have h₁ := setWords a o.start [header.toWords.1, header.toWords.2]
  have h₂ : SameFrontier (a.setWords o.start [header.toWords.1, header.toWords.2])
      (if o.veryFirst then (a.setWords o.start [header.toWords.1, header.toWords.2]).zero (o.start + 2) sessionWords
        else a.setWords o.start [header.toWords.1, header.toWords.2]) := by
    split
    · exact zero _ _ _
    · exact refl _
  exact (h₁.trans h₂).trans ((setWords _ _ _).trans (zero _ _ _))

end SameFrontier

/-! ### Marks -/

theorem mark_of_marks (h : b.marks = a.marks) (k : Nat) : b.mark k = a.mark k := by
  unfold mark
  rw [h]

/-- Laying out a block moves no block. -/
theorem blockOf_layOut (a : Arena) (o : Opening) (header : Header) (task : Task) (i : Nat) :
    (a.layOut o header task).blockOf i = a.blockOf i := by
  unfold blockOf
  rw [(SameFrontier.layOut ..).high]

@[simp] theorem marks_layOut (a : Arena) (o : Opening) (header : Header) (task : Task) :
    (a.layOut o header task).marks = a.marks := by
  unfold layOut writeTask
  cases o.veryFirst <;> simp

theorem mark_startFilling (hj : j < a.blocks) : (a.startFilling k).mark j = if j = k then .filling else a.mark j := by
  unfold blocks at hj
  unfold mark startFilling
  simp only [Array.getD_eq_getD_getElem?, Array.getElem?_setIfInBounds]
  by_cases h : j = k
  · subst h
    simp [hj]
  · simp [h, Ne.symm h]

theorem mark_close (hj : j < a.blocks) (stop : Nat) :
    (a.close k stop).mark j = if j = k then (a.mark j).close (stop - a.blockStart k) else a.mark j := by
  unfold blocks at hj
  unfold mark close
  simp only [Array.getD_eq_getD_getElem?, Array.getElem?_modify]
  by_cases h : j = k
  · subst h
    simp [hj]
  · simp [h, Ne.symm h]

/-- The marks once a CPU with this limit has left its block. -/
theorem mark_of_left {l stop : Nat} (hl : l = a.blockStop k) (hm : b.marks = (a.close (a.blockOf (l - 1)) stop).marks)
    (hk : k < a.blocks) (hj : j < a.blocks) :
    b.mark j = if j = k then (a.mark k).close (stop - a.blockStart k) else a.mark j := by
  subst hl
  rw [mark_of_marks hm, mark_close hj, blockOf_blockStop hk]
  split
  · rename_i heq
    rw [heq]
  · rfl

theorem offset_le_of_close {m : Mark} {offset stop : Nat} (h : m.close stop = .closed offset) : offset ≤ stop := by
  cases m with
  | filling =>
    obtain rfl := Mark.closed.inj h
    exact Nat.le_refl _
  | closed old =>
    obtain rfl := Mark.closed.inj h
    exact Nat.min_le_right ..

end EventRecorder.Arena
