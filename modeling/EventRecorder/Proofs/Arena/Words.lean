import EventRecorder.Proofs.Arena.Geometry

/-! # Reading after writing

What an update of an arena does to the words outside of what it writes, and how a block just laid out
reads back. -/

namespace EventRecorder.Arena

variable {a b : Arena} {i j k n : Nat}

theorem word_of_words (h : b.words = a.words) (i : Nat) : b.word i = a.word i := by
  unfold word
  rw [h]

theorem word_ofBlocks (n i : Nat) : (ofBlocks n).word i = 0 := by
  unfold word ofBlocks
  rw [Array.getD_eq_getD_getElem?, Array.getElem?_replicate]
  split <;> rfl

@[simp] theorem word_close (a : Arena) (k stop i : Nat) : (a.close k stop).word i = a.word i := rfl

@[simp] theorem word_startFilling (a : Arena) (k i : Nat) : (a.startFilling k).word i = a.word i := rfl

theorem word_setWord_of_ne (w : UInt64) (h : i ≠ j) : (a.setWord i w).word j = a.word j := by
  rw [word_setWord, if_neg fun hij => h hij.1]

theorem word_setWords_of_outside (ws : List UInt64) (h : j < i ∨ i + ws.length ≤ j) :
    (a.setWords i ws).word j = a.word j := by
  induction ws generalizing a i with
  | nil => rfl
  | cons w ws ih =>
    rw [List.length_cons] at h
    rw [setWords, ih (by omega), word_setWord_of_ne w (by omega)]

theorem word_zero_of_outside (h : j < i ∨ i + n ≤ j) : (a.zero i n).word j = a.word j := by
  rw [word_zero, if_neg (by omega)]

/-- The words written to a span of the arena read back. -/
theorem map_word_setWords (ws : List UInt64) (h : i + ws.length ≤ a.high) :
    (List.range' i ws.length).map (a.setWords i ws).word = ws := by
  refine List.ext_getElem (by simp) fun n hn hn' => ?_
  rw [List.getElem_map, List.getElem_range', word_setWords _ _ _ _ h, if_pos (by omega)]
  simp [List.getD_eq_getElem?_getD, hn']

/-! ### Blocks just laid out -/

section layOut
variable (o : Opening) (header : Header) (task : Task)

theorem taskStart_bounds : o.start + 2 ≤ o.taskStart ∧ o.taskStart ≤ o.start + 8 := by
  unfold Opening.taskStart sessionWords
  split <;> omega

theorem word_writeTask_of_outside (h : j < i ∨ i + 4 ≤ j) : (a.writeTask i task).word j = a.word j :=
  word_setWords_of_outside _ h

/-- The session words of block 0 lie between its header words and those of its task. -/
theorem word_session_of_outside (h : j < o.start + 2 ∨ o.taskStart ≤ j) :
    (if o.veryFirst then a.zero (o.start + 2) sessionWords else a).word j = a.word j := by
  unfold Opening.taskStart at h
  split
  · rename_i hfirst
    rw [if_pos hfirst] at h
    exact word_zero_of_outside h
  · rfl

/-- Apart from the words of the session, the task and the tail, only the header is written. -/
theorem word_layOut_of_apart (hmiddle : j < o.start + 2 ∨ o.recordStart ≤ j)
    (htail : j + tailWords < o.start + blockWords ∨ o.start + blockWords ≤ j) :
    (a.layOut o header task).word j = (a.setWords o.start [header.toWords.1, header.toWords.2]).word j := by
  obtain ⟨hlow, -⟩ := taskStart_bounds o
  unfold Opening.recordStart at hmiddle
  unfold layOut
  dsimp only
  rw [word_zero_of_outside (by unfold tailWords blockWords at *; omega), word_writeTask_of_outside _ (by omega),
    word_session_of_outside _ (by omega)]

theorem word_layOut_of_outside (h : j < o.start ∨ o.start + blockWords ≤ j) :
    (a.layOut o header task).word j = a.word j := by
  obtain ⟨-, hhigh⟩ := taskStart_bounds o
  rw [word_layOut_of_apart o header task (by unfold Opening.recordStart blockWords at *; omega)
    (by unfold tailWords blockWords at *; omega), word_setWords_of_outside]
  unfold blockWords at h
  exact h.imp_right fun hj => (show o.start + 2 ≤ j by omega)

theorem word_layOut_header (h : o.start + blockWords ≤ a.high) (hj : j < 2) :
    (a.layOut o header task).word (o.start + j) = [header.toWords.1, header.toWords.2].getD j 0 := by
  have hfits : o.start + [header.toWords.1, header.toWords.2].length ≤ a.high :=
    Nat.le_trans (Nat.add_le_add_left (by unfold blockWords; simp) _) h
  rw [word_layOut_of_apart o header task (Or.inl (by omega)) (by unfold tailWords blockWords; omega),
    word_setWords _ _ _ _ hfits, if_pos ⟨Nat.le_add_right .., Nat.add_lt_add_left hj _⟩, Nat.add_sub_cancel_left]

theorem word_layOut_start (h : o.start + blockWords ≤ a.high) :
    (a.layOut o header task).word o.start = header.toWords.1 := word_layOut_header (j := 0) o header task h (by decide)

/-- The session words of block 0 are zero. -/
theorem word_layOut_session (hfirst : o.veryFirst = true) (hj : j < sessionWords) :
    (a.layOut o header task).word (o.start + 2 + j) = 0 := by
  have htask : o.taskStart = o.start + 2 + sessionWords := by
    unfold Opening.taskStart
    rw [if_pos hfirst]
  unfold layOut
  dsimp only
  rw [word_zero_of_outside (by unfold sessionWords tailWords blockWords at *; omega),
    word_writeTask_of_outside _ (by omega), if_pos hfirst, word_zero, if_pos (by omega)]

theorem word_layOut_task (h : o.start + blockWords ≤ a.high) (hj : j < 4) :
    (a.layOut o header task).word (o.taskStart + j) =
      [task.pid.toUInt64, 0, task.name.toWords.1, task.name.toWords.2].getD j 0 := by
  obtain ⟨-, hstart⟩ := taskStart_bounds o
  unfold blockWords at h
  unfold layOut writeTask
  dsimp only
  rw [word_zero_of_outside (by unfold tailWords blockWords; omega), word_setWords _ _ _ _ ?_,
    if_pos ⟨Nat.le_add_right .., by simp only [List.length_cons, List.length_nil]; omega⟩, Nat.add_sub_cancel_left]
  simp only [List.length_cons, List.length_nil]
  split <;> simp <;> omega

theorem word_layOut_tail (h : o.start + blockWords ≤ j + tailWords) (hj : j < o.start + blockWords) :
    (a.layOut o header task).word j = 0 := by
  unfold tailWords blockWords at *
  unfold layOut
  dsimp only
  rw [word_zero, if_pos (by unfold tailWords blockWords; omega)]

/-- The words between the header and the tail stay. -/
theorem word_layOut_between (h : o.recordStart ≤ j) (hj : j + tailWords < o.start + blockWords) :
    (a.layOut o header task).word j = a.word j := by
  obtain ⟨hlow, -⟩ := taskStart_bounds o
  rw [word_layOut_of_apart o header task (Or.inr h) (Or.inl hj), word_setWords_of_outside]
  unfold Opening.recordStart at h
  exact Or.inr (show o.start + 2 ≤ j by omega)

end layOut

end EventRecorder.Arena
