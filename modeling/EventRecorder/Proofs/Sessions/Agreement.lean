import EventRecorder.Proofs.Arena.Twins
import EventRecorder.Proofs.Ledger.Settled

/-! # Agreement on settled words

An arena agrees with the view of a log if it differs only in words that the session has not settled. Agreement
survives every step, whatever the words that are not settled, since both arenas are written to alike. -/

namespace EventRecorder

open Ledger LogView Arena

variable {v w : LogView} {b : Arena} {c i k l n : Nat} {g p : Grant} {log : Ledger} {m : Mode} {x y : UInt64}

/-- The `i`-th word of the raw view lies ahead of a CPU that still writes to its block. -/
def LogView.RawAhead (v : LogView) (i : Nat) : Prop :=
  ∃ c, (v.cursor c).next ≤ v.arena.blockStart (i / blockWords) + i % blockWords ∧
    v.arena.blockStart (i / blockWords) + i % blockWords < (v.cursor c).limit

/-- The arena differs from that of the view only in words that are not settled. -/
structure Agree (v : LogView) (b : Arena) : Prop where
  twin : Twin v.arena b
  words : Settled (fun i => b.word i = v.arena.word i) v

namespace Agree

/-- Whatever words two arenas of one size hold, they agree once both are reset. -/
theorem start {a : Arena} (h : b.blocks = a.blocks) (rates : Bool) (cpus : Nat) :
    Agree ⟨a.reset rates, Array.replicate cpus {}⟩ (b.reset rates) :=
  ⟨.reset h rates, .start _ a rates cpus⟩

/-! ### Steps -/

theorem of_stayed (h : Agree v b) (ha : w.arena = v.arena) (hw : Stayed v w) : Agree w b := by
  refine ⟨ha ▸ h.twin, ?_⟩
  rw [ha]
  exact h.words.of_stayed ha hw

/-- A CPU without a block may move anywhere. -/
theorem of_unset (h : Agree v b) (ho : v.arena.Opened n) (ha : w.arena = v.arena) (hl : (v.cursor c).limit = 0)
    (hw : Moved v w c l (v.cursor c).limit) : Agree w b := by
  refine ⟨ha ▸ h.twin, ?_⟩
  rw [ha]
  exact h.words.of_unset ho ha hl hw fun _ _ hi => hi

/-- What is written to the same word of both arenas keeps them in agreement. -/
theorem setWord (h : Agree v b) (ho : v.arena.Opened n) (ha : w.arena = v.arena.setWord i x) (hw : Stayed v w) :
    Agree w (b.setWord i x) := by
  refine ⟨ha ▸ h.twin.setWord i x x, h.words.of_setWord ho ha hw fun j _ hj => ?_⟩
  rw [ha]
  exact word_setWord_congr h.twin.high x hj

/-- Words below the limit may differ. -/
theorem setRate (h : Agree v b) (ho : v.arena.Opened n) (hi : i < v.arena.limit)
    (ha : w.arena = v.arena.setWord i x) (hw : Stayed v w) : Agree w (b.setWord i y) := by
  refine ⟨ha ▸ h.twin.setWord i x y, h.words.of_setWord ho ha hw fun j hj hword => ?_⟩
  rw [ha, word_setWord_of_ne _ (by omega), word_setWord_of_ne _ (by omega), hword]

theorem extended (h : Agree v b) (hp : Placed m v (shape log)) (he : Extended v w log p g)
    (hlen : g.words.length = g.span.len) : Agree w (b.setWords g.span.start g.words) := by
  have hspan := Grant.stop_of_length hlen
  refine ⟨he.arena ▸ h.twin.setWords _ _, h.words.extended hp he (fun i _ hi => ?_) fun i hi hi' => ?_⟩ <;>
    rw [he.arena] <;> refine word_setWords_congr h.twin.high _ (he.words_le_high hp.opened) ?_
  · exact Or.inr hi
  · exact Or.inl ⟨hi, hspan ▸ hi'⟩

/-- A CPU that has no more than the tail of its block left leaves it. -/
theorem left_short (h : Agree v b) (ho : v.arena.Opened n) (hset : (v.cursor c).limit ≠ 0)
    (hshort : (v.cursor c).limit ≤ (v.cursor c).next + tailWords)
    (ha : w.arena = v.arena.close (v.arena.blockOf ((v.cursor c).limit - 1)) (min (v.cursor c).next (v.cursor c).limit))
    (hw : Moved v w c l (v.cursor c).limit) :
    Agree w (b.close (b.blockOf ((v.cursor c).limit - 1)) (min (v.cursor c).next (v.cursor c).limit)) := by
  rw [h.twin.blockOf]
  refine ⟨ha ▸ h.twin.close _ _, h.words.left_short ho hset hshort ha hw fun i hi => ?_⟩
  rw [ha, word_close, word_close, hi]

/-- The rest of a block that is closed by a flush is the same in both arenas. -/
theorem flushed (h : Agree v b) (ho : v.arena.Opened n) (hroom : (v.cursor c).hasRoom = true)
    (ha : w.arena = (v.arena.close (v.arena.blockOf ((v.cursor c).limit - 1))
      (min (v.cursor c).next (v.cursor c).limit)).zero (v.cursor c).next ((v.cursor c).limit - (v.cursor c).next))
    (hw : Moved v w c l (v.cursor c).limit) :
    Agree w ((b.close (b.blockOf ((v.cursor c).limit - 1)) (min (v.cursor c).next (v.cursor c).limit)).zero
      (v.cursor c).next ((v.cursor c).limit - (v.cursor c).next)) := by
  have hlt := Cursor.hasRoom_iff.mp hroom
  rw [h.twin.blockOf]
  refine ⟨ha ▸ (h.twin.close _ _).zero _ _, h.words.flushed ho hroom ha hw (fun i _ hi => ?_) fun i hi hi' => ?_⟩ <;>
    rw [ha]
  · exact word_zero_congr (Or.inr hi)
  · exact word_zero_congr (Or.inl ⟨hi, by omega⟩)

theorem refused {wrap : Bool} (h : Agree v b) (ho : v.arena.Opened n)
    (ha : v.arena.openBlock wrap = (none, w.arena)) (hw : Stayed v w) :
    ∃ b', b.openBlock wrap = (none, b') ∧ Agree w b' := by
  obtain ⟨b', hb', htwin, hwords'⟩ := h.twin.openBlock_none ha
  obtain ⟨hwords, -⟩ := openBlock_none_same ha
  refine ⟨b', hb', htwin, h.words.refused ho ha hw fun i _ hi => ?_⟩
  rw [word_of_words hwords, word_of_words hwords', hi]

/-- A block taken off the frontier is laid out alike, and its words up to the place of its CPU are the same. -/
theorem took {o : Opening} {a b' : Arena} {header : Header} {task : Task} (h : Agree v b)
    (hp : Placed m v (shape log)) (ht : Took v w log g o a header task) (hlen : g.words.length = g.span.len)
    (htwin : Twin a b') (hwords : b'.words = b.words) :
    Agree w (((b'.layOut o header task).startFilling g.block).setWords g.span.start g.words) := by
  have hlt := hp.opened.lt_blocks ht.block_lt
  have hstop := blockStop_le_high hlt
  have hhigh : a.high = v.arena.high := high_congr ht.taken.blocks
  have hspan := Grant.stop_of_length hlen
  have hend : o.start + blockWords = v.arena.blockStop g.block := by rw [ht.opening_start]; rfl
  have hopening : o.start + blockWords ≤ a.high := by
    rw [hend, hhigh]
    exact hstop
  have hfilled := (htwin.layOut o header task).startFilling g.block
  -- the words of the grant are written last, so everywhere else the layout of the block decides
  have hwritten : ∀ i, g.span.start ≤ i ∧ i < g.span.start + g.words.length ∨
      (b'.layOut o header task).word i = (a.layOut o header task).word i →
      (((b'.layOut o header task).startFilling g.block).setWords g.span.start g.words).word i = w.arena.word i := by
    intro i hi
    rw [ht.arena]
    refine word_setWords_congr hfilled.high _ (ht.words_le_high hp.opened) ?_
    rw [word_startFilling, word_startFilling]
    exact hi
  refine ⟨?_, h.words.took hp ht (fun i _ hi => ?_) fun i hi hi' hnew => ?_⟩
  · rw [ht.arena]
    exact hfilled.setWords _ _
  · refine hwritten i (Or.inr (word_layOut_congr htwin.high hopening (Or.inr (Or.inr ?_))))
    rw [word_of_words hwords, word_of_words ht.taken.words, hi]
  · refine hwritten i ?_
    rcases hnew with hbelow | htail
    · rcases Nat.lt_or_ge i g.span.start with hheader | hge
      · rw [← ht.opening_start] at hi
        exact Or.inr (word_layOut_congr htwin.high hopening (Or.inl ⟨hi, ht.recordStart_eq ▸ hheader⟩))
      · exact Or.inl ⟨hge, hspan ▸ hbelow⟩
    · rw [← hend] at htail hi'
      exact Or.inr (word_layOut_congr htwin.high hopening (Or.inr (Or.inl ⟨htail, hi'⟩)))

/-! ### What is the same -/

theorem prior (h : Agree v b) (hp : Placed m v (shape log)) (hroom : (v.cursor c).hasRoom = true) :
    b.word ((v.cursor c).next - 1) = v.arena.word ((v.cursor c).next - 1) := by
  obtain ⟨-, -, -, -, hword⟩ := h.words.prior hp hroom
  exact hword

theorem region (h : Agree v b) (k : Nat) : LogView.region ⟨b, v.cursors⟩ k = v.region k := by
  have hmark := h.twin.mark k
  have hrecords : ∀ s, b.recordRegion k s = v.arena.recordRegion k s := fun s => by
    unfold recordRegion
    rw [hmark, h.twin.blockStart]
  have hstop : LogView.cursorStop? ⟨b, v.cursors⟩ k = v.cursorStop? k := by
    unfold cursorStop?
    simp only [h.twin.blockOf]
  unfold LogView.region
  dsimp only
  rw [hmark, hstop, hrecords, hrecords]

theorem regions (h : Agree v b) : LogView.regions ⟨b, v.cursors⟩ = v.regions := by
  unfold LogView.regions
  rw [h.twin.newestFirst]
  exact List.map_congr_left fun k _ => h.region k

theorem count (h : Agree v b) : LogView.count ⟨b, v.cursors⟩ = v.count := by
  unfold LogView.count
  rw [h.regions]

/-- Two arenas that agree on some regions look the same when read through them. -/
theorem wordIn_congr {a : Arena} {regions : List Span}
    (h : ∀ s ∈ regions, ∀ i, s.start ≤ i → i < s.stop → b.word i = a.word i) (i : Nat) :
    wordIn b regions i = wordIn a regions i := by
  induction regions generalizing i with
  | nil => rfl
  | cons s regions ih =>
    obtain ⟨hfirst, hrest⟩ := List.forall_mem_cons.mp h
    rw [wordIn, wordIn, ih hrest]
    split
    · have hstop : s.stop = s.start + s.len := rfl
      rw [hfirst (s.stop - 1 - i) (by omega) (by omega)]
    · rfl

theorem word (h : Agree v b) (ho : v.arena.Opened n) (i : Nat) : LogView.word ⟨b, v.cursors⟩ i = v.word i := by
  unfold LogView.word
  rw [h.regions]
  refine wordIn_congr (fun s hs j hj hj' => ?_) i
  obtain ⟨k, hk, rfl⟩ := List.mem_map.mp hs
  have hclaimed := Nat.lt_of_lt_of_le (ho.lt_claimed_of_mem hk) ho.claimed_le
  exact (h.words.region ho hclaimed hj hj').2.2

theorem rawCount (h : Agree v b) : b.rawCount = v.arena.rawCount := by
  unfold Arena.rawCount
  rw [h.twin.claimed]

/-- The raw view is the same but for words ahead of a CPU that still writes to its block. -/
theorem rawWord (h : Agree v b) (hi : ¬ v.RawAhead i) : b.rawWord i = v.arena.rawWord i := by
  unfold Arena.rawWord
  rw [h.rawCount, h.twin.blockStart]
  split
  · rfl
  · rename_i hlt
    have hclaimed : i / blockWords < v.arena.claimed := by
      unfold Arena.rawCount at hlt
      exact (Nat.div_lt_iff_lt_mul (by decide)).mpr (Nat.lt_of_not_le hlt)
    have hoffset : i % blockWords < blockWords := Nat.mod_lt _ (by decide)
    have hstop : v.arena.blockStart (i / blockWords) + i % blockWords < v.arena.blockStop (i / blockWords) :=
      Nat.add_lt_add_left hoffset _
    obtain hword | ⟨c, hlimit, hnext⟩ := h.words.ahead _ hclaimed _ (Nat.le_add_right ..) hstop
    · exact hword
    · exact absurd ⟨c, hnext, hlimit ▸ hstop⟩ hi

end Agree

end EventRecorder
