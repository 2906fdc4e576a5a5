import EventRecorder.Proofs.Arena.Openings
import EventRecorder.Proofs.Arena.Words

/-! # Arenas that differ in words

A reset leaves the words of the last session where they are. Two arenas in the same place of two sessions may
differ in such words, but every update does the same to both: it keeps all else equal, and what it writes is the
same. -/

namespace EventRecorder.Arena

variable {a b : Arena} {i j k n : Nat}

/-- `b` differs from `a` in its words only. -/
structure Twin (a b : Arena) : Prop extends SameFrontier a b where
  marks : b.marks = a.marks

namespace Twin

variable {a' b' : Arena}

theorem of_sameFrontier (h : SameFrontier a b) (ha : SameFrontier a a') (hb : SameFrontier b b')
    (hm : b'.marks = a'.marks) : Twin a' b' :=
  ⟨⟨hb.blocks.trans (h.blocks.trans ha.blocks.symm), hb.limit.trans (h.limit.trans ha.limit.symm),
    hb.next.trans (h.next.trans ha.next.symm), hb.wrapped.trans (h.wrapped.trans ha.wrapped.symm),
    hb.exhausted.trans (h.exhausted.trans ha.exhausted.symm)⟩, hm⟩

theorem setWord (h : Twin a b) (i : Nat) (v w : UInt64) : Twin (a.setWord i v) (b.setWord i w) :=
  of_sameFrontier h.toSameFrontier (.setWord ..) (.setWord ..) h.marks

theorem setWords (h : Twin a b) (i : Nat) (ws : List UInt64) : Twin (a.setWords i ws) (b.setWords i ws) :=
  of_sameFrontier h.toSameFrontier (.setWords ..) (.setWords ..) (by rw [marks_setWords, marks_setWords, h.marks])

theorem zero (h : Twin a b) (i n : Nat) : Twin (a.zero i n) (b.zero i n) :=
  of_sameFrontier h.toSameFrontier (.zero ..) (.zero ..) (by rw [marks_zero, marks_zero, h.marks])

theorem close (h : Twin a b) (k stop : Nat) : Twin (a.close k stop) (b.close k stop) := by
  refine of_sameFrontier h.toSameFrontier (.close ..) (.close ..) ?_
  unfold Arena.close
  dsimp only
  rw [h.marks, h.blockStart]

theorem startFilling (h : Twin a b) (k : Nat) : Twin (a.startFilling k) (b.startFilling k) := by
  refine of_sameFrontier h.toSameFrontier (.startFilling ..) (.startFilling ..) ?_
  unfold Arena.startFilling
  dsimp only
  rw [h.marks]

theorem layOut (h : Twin a b) (o : Opening) (header : Header) (task : Task) :
    Twin (a.layOut o header task) (b.layOut o header task) :=
  of_sameFrontier h.toSameFrontier (.layOut ..) (.layOut ..) (by rw [marks_layOut, marks_layOut, h.marks])

theorem blockOf (h : Twin a b) (i : Nat) : b.blockOf i = a.blockOf i := by
  unfold Arena.blockOf
  rw [h.high]

theorem mark (h : Twin a b) (k : Nat) : b.mark k = a.mark k := mark_of_marks h.marks k

theorem newestFirst (h : Twin a b) : b.newestFirst = a.newestFirst := by
  unfold Arena.newestFirst
  rw [h.wrapped, h.high, h.next, h.usable, h.claimed]

/-- The same block is taken off the frontier. -/
theorem openBlock_some (h : Twin a b) {wrap : Bool} {o : Opening} (ha : a.openBlock wrap = (some o, a')) :
    ∃ b', b.openBlock wrap = (some o, b') ∧ Twin a' b' ∧ b'.words = b.words := by
  obtain ⟨-, hmarks, hlimit, hexhausted, hcases⟩ := openBlock_some_inv ha
  rcases hb : b.openBlock wrap with ⟨_ | o', b'⟩
  · obtain ⟨-, hfull, hnowrap⟩ := openBlock_none_inv hb
    rw [h.next, h.limit] at hfull
    rw [h.high, h.limit] at hnowrap
    obtain ⟨hroom, -⟩ | ⟨-, hwrap, hlap, -⟩ := hcases
    · omega
    · have := hnowrap hwrap
      omega
  · obtain ⟨hwords', hmarks', hlimit', hexhausted', hcases'⟩ := openBlock_some_inv hb
    rw [h.limit, h.next, h.high, h.wrapped] at hcases'
    have hsame : Twin a' b' ↔ b'.next = a'.next ∧ b'.wrapped = a'.wrapped := by
      have hm : b'.marks = a'.marks := by rw [hmarks', hmarks, h.marks]
      refine ⟨fun ht => ⟨ht.next, ht.wrapped⟩, fun ⟨hnext, hwrapped⟩ =>
        ⟨⟨congrArg Array.size hm, ?_, hnext, hwrapped, ?_⟩, hm⟩⟩
      · rw [hlimit', hlimit, h.limit]
      · rw [hexhausted', hexhausted, h.exhausted]
    -- both frontiers stand at the same place, so one is within its lap just when the other is
    obtain ⟨hroom, rfl, hnext, hwrapped⟩ | ⟨hfull, -, -, rfl, hnext, hwrapped⟩ := hcases <;>
      obtain ⟨hroom', rfl, hnext', hwrapped'⟩ | ⟨hfull', -, -, rfl, hnext', hwrapped'⟩ := hcases'
    · exact ⟨b', rfl, hsame.mpr ⟨hnext'.trans hnext.symm, hwrapped'.trans hwrapped.symm⟩, hwords'⟩
    · omega
    · omega
    · exact ⟨b', rfl, hsame.mpr ⟨hnext'.trans hnext.symm, hwrapped'.trans hwrapped.symm⟩, hwords'⟩

theorem openBlock_none (h : Twin a b) {wrap : Bool} (ha : a.openBlock wrap = (none, a')) :
    ∃ b', b.openBlock wrap = (none, b') ∧ Twin a' b' ∧ b'.words = b.words := by
  obtain ⟨rfl, hfull, hnowrap⟩ := openBlock_none_inv ha
  rcases hb : b.openBlock wrap with ⟨_ | o, b'⟩
  · obtain ⟨rfl, -⟩ := openBlock_none_inv hb
    exact ⟨_, rfl, ⟨⟨h.blocks, h.limit, h.next, h.wrapped, rfl⟩, h.marks⟩, rfl⟩
  · obtain ⟨-, -, -, -, ⟨hroom, -⟩ | ⟨-, hwrap, hlap, -⟩⟩ := openBlock_some_inv hb
    · rw [h.limit, h.next] at hroom
      omega
    · rw [h.limit, h.high] at hlap
      have := hnowrap hwrap
      omega

theorem reset (h : b.blocks = a.blocks) (rates : Bool) : Twin (a.reset rates) (b.reset rates) := by
  have hsize : b.marks.size = a.marks.size := h
  have hnext : b.high = a.high := high_congr h
  refine ⟨⟨?_, ?_, hnext, rfl, rfl⟩, ?_⟩
  · simpa [blocks, Arena.reset] using hsize
  · unfold Arena.reset
    dsimp only
    rw [h]
  · unfold Arena.reset
    dsimp only
    rw [hsize]

end Twin

/-! ### Writing the same words -/

/-- The same words written to two arenas of one size make them agree where they are written. -/
theorem word_setWord_congr (hb : b.high = a.high) (w : UInt64) (h : b.word j = a.word j) :
    (b.setWord i w).word j = (a.setWord i w).word j := by
  rw [word_setWord, word_setWord, hb, h]

theorem word_setWords_congr (hb : b.high = a.high) (ws : List UInt64) (hfits : i + ws.length ≤ a.high)
    (h : i ≤ j ∧ j < i + ws.length ∨ b.word j = a.word j) : (b.setWords i ws).word j = (a.setWords i ws).word j := by
  rw [word_setWords _ _ _ _ hfits, word_setWords _ _ _ _ (by rw [hb]; exact hfits)]
  by_cases hin : i ≤ j ∧ j < i + ws.length
  · rw [if_pos hin, if_pos hin]
  · rw [if_neg hin, if_neg hin, h.resolve_left hin]

theorem word_zero_congr (h : i ≤ j ∧ j < i + n ∨ b.word j = a.word j) : (b.zero i n).word j = (a.zero i n).word j := by
  rw [word_zero, word_zero]
  by_cases hin : i ≤ j ∧ j < i + n
  · rw [if_pos hin, if_pos hin]
  · rw [if_neg hin, if_neg hin, h.resolve_left hin]

theorem word_session_congr {o : Opening} (h : o.start + 2 ≤ j ∧ j < o.taskStart ∨ b.word j = a.word j) :
    (if o.veryFirst then b.zero (o.start + 2) sessionWords else b).word j =
      (if o.veryFirst then a.zero (o.start + 2) sessionWords else a).word j := by
  unfold Opening.taskStart at h
  cases hfirst : o.veryFirst
  · rw [hfirst, if_neg Bool.false_ne_true] at h
    rw [if_neg Bool.false_ne_true, if_neg Bool.false_ne_true]
    exact h.resolve_left fun hin => by omega
  · rw [hfirst, if_pos rfl] at h
    rw [if_pos rfl, if_pos rfl]
    exact word_zero_congr h

/-- Two blocks laid out alike agree in their headers and in their tails. -/
theorem word_layOut_congr {o : Opening} {header : Header} {task : Task} (hb : b.high = a.high)
    (hfits : o.start + blockWords ≤ a.high)
    (h : o.start ≤ j ∧ j < o.recordStart ∨ o.start + blockWords ≤ j + tailWords ∧ j < o.start + blockWords ∨
      b.word j = a.word j) : (b.layOut o header task).word j = (a.layOut o header task).word j := by
  obtain ⟨-, htask⟩ := taskStart_bounds o
  have hhigh : ∀ c : Arena, (if o.veryFirst then c.zero (o.start + 2) sessionWords else c).high = c.high := by
    intro c
    split
    · exact high_zero ..
    · rfl
  have hwords : ∀ ws : List UInt64, ws.length = 2 → o.start ≤ j ∧ j < o.start + 2 ∨ b.word j = a.word j →
      (b.setWords o.start ws).word j = (a.setWords o.start ws).word j := fun ws hlen hword =>
    word_setWords_congr hb ws (by unfold blockWords at hfits; omega) (hlen ▸ hword)
  unfold Opening.recordStart blockWords at *
  unfold layOut writeTask
  -- the tail is written last, then the task, the session words and the header: the last write decides
  refine word_zero_congr (or_iff_not_imp_left.mpr fun htail => word_setWords_congr ?_ _ ?_ ?_)
  · rw [hhigh, hhigh, high_setWords, high_setWords, hb]
  · rw [hhigh, high_setWords]
    simp only [List.length_cons, List.length_nil]
    omega
  · rcases h with ⟨hstart, hstop⟩ | htail' | hword
    · rcases Nat.lt_or_ge j o.taskStart with hlt | hge
      · rcases Nat.lt_or_ge j (o.start + 2) with hfirst | hsession
        · exact Or.inr (word_session_congr (Or.inr (hwords _ rfl (Or.inl ⟨hstart, hfirst⟩))))
        · exact Or.inr (word_session_congr (Or.inl ⟨hsession, hlt⟩))
      · exact Or.inl ⟨hge, hstop⟩
    · unfold tailWords blockWords at *
      omega
    · exact Or.inr (word_session_congr (Or.inr (hwords _ rfl (Or.inr hword))))

end EventRecorder.Arena
