import EventRecorder.Proofs.Ledger.Contents
import EventRecorder.Proofs.Ledger.Settled

/-! # Where the words of the log come from

Whatever readers see of a block is a word of its header, zero, or was written to a grant of the present session.
Blocks need not have one writer for this: the words that a CPU finds in a block may have been written by another
CPU, but never in another session. -/

namespace EventRecorder

open Ledger LogView Arena

variable {P : Type} {a b : Arena} {c i k n : Nat} {g p : Grant} {log log' : Ledger} {m : Mode} {v w : LogView}
  {x : UInt64}

/-- The word `i` belongs to a header, is zero, or was written to a grant. -/
def Sourced (a : Arena) (log : Ledger) (i : Nat) : Prop :=
  (∃ k < a.usable, a.blockStart k ≤ i ∧ i < a.recordStart k) ∨ a.word i = 0 ∨
    ∃ g ∈ log, g.span.start ≤ i ∧ g.words[i - g.span.start]? = some (a.word i)

/-! ### Words -/

namespace Ledger

/-- A grant stays unless it is the latest one of the CPU, which is amended. -/
theorem mem_amendLatest (h : g ∈ log) (c : Nat) (x : UInt64) :
    g ∈ amendLatest c x log ∨ latest? c log = some g ∧ g.amend x ∈ amendLatest c x log := by
  induction log with
  | nil => cases h
  | cons p log ih =>
    unfold amendLatest
    by_cases hp : p.cpu = c
    · rw [if_pos hp]
      rcases List.mem_cons.mp h with rfl | h
      · exact Or.inr ⟨hp ▸ latest?_cons_self, List.mem_cons_self⟩
      · exact Or.inl (List.mem_cons_of_mem _ h)
    · rw [if_neg hp, latest?_cons_of_ne hp]
      rcases List.mem_cons.mp h with rfl | h
      · exact Or.inl List.mem_cons_self
      · exact (ih h).imp (List.mem_cons_of_mem _) (.imp_right (List.mem_cons_of_mem _))

theorem amend_mem_amendLatest (h : latest? c log = some p) (x : UInt64) : p.amend x ∈ amendLatest c x log := by
  induction log with
  | nil => cases h
  | cons g log ih =>
    unfold amendLatest
    obtain ⟨hg, rfl⟩ | ⟨hg, hp⟩ := latest?_cons_inv h
    · rw [if_pos hg]
      exact List.mem_cons_self
    · rw [if_neg hg]
      exact List.mem_cons_of_mem _ (ih hp)

/-- Amending a grant writes no word to a grant without words. -/
theorem written_of_amendLatest (h : ∀ g ∈ amendLatest c x log, g.words ≠ []) : ∀ g ∈ log, g.words ≠ [] := by
  intro g hg
  rcases mem_amendLatest hg c x with hmem | ⟨-, hmem⟩
  · exact h g hmem
  · have hne := h _ hmem
    unfold Grant.amend at hne
    simpa using hne

end Ledger

namespace Sourced

theorem of_word (h : Sourced a log i) (hb : b.blocks = a.blocks) (hl : b.limit = a.limit) (hw : b.word i = a.word i)
    (hlog : ∀ g ∈ log, g ∈ log') : Sourced b log' i := by
  unfold Sourced
  rw [usable_congr hb hl, hw]
  refine h.imp (fun ⟨k, hk, hin⟩ => ⟨k, hk, ?_⟩) (Or.imp_right fun ⟨g, hg, hword⟩ => ⟨g, hlog g hg, hword⟩)
  rwa [blockStart_congr hb, recordStart_congr hb]

theorem written (hi : g.span.start ≤ i) (hi' : i < g.span.start + g.words.length)
    (hhigh : g.span.start + g.words.length ≤ a.high) : Sourced (a.setWords g.span.start g.words) (g :: log) i := by
  refine Or.inr (Or.inr ⟨g, List.mem_cons_self, hi, ?_⟩)
  rw [word_setWords _ _ _ _ hhigh, if_pos ⟨hi, hi'⟩, List.getD_eq_getElem?_getD,
    List.getElem?_eq_getElem (by omega), Option.getD_some]

/-- What a fold leaves alone has the origin that it had. -/
theorem amended (h : Sourced a log i) (hfilled : ∀ g ∈ log, g.words = [] ∨ g.words.length = g.span.len)
    (hp : latest? c log = some p) (hne : i + 1 ≠ p.span.stop) (hb : b.blocks = a.blocks) (hl : b.limit = a.limit)
    (hw : b.word i = a.word i) : Sourced b (amendLatest c x log) i := by
  obtain hheader | hzero | ⟨g, hg, hi, hword⟩ := h
  · exact of_word (Or.inl hheader) hb hl hw (fun _ h => h)
  · exact Or.inr (Or.inl (hw.trans hzero))
  rw [← hw] at hword
  rcases mem_amendLatest hg c x with hmem | ⟨hlatest, hmem⟩
  · exact Or.inr (Or.inr ⟨g, hmem, hi, hword⟩)
  · obtain rfl := Option.some.inj (hp.symm.trans hlatest)
    refine Or.inr (Or.inr ⟨p.amend x, hmem, hi, ?_⟩)
    have hlt := (List.getElem?_eq_some_iff.mp hword).1
    have hlen := (hfilled p hg).resolve_left (List.length_pos_iff.mp (Nat.zero_lt_of_lt hlt))
    unfold Span.stop at hne
    unfold Grant.amend
    dsimp only
    rw [List.getElem?_set_ne (by omega), hword]

/-- The word that absorbed a return comes from the latest grant of its CPU. -/
theorem folded (hp : latest? c log = some p) (hne : p.words ≠ []) (hlen : p.words.length = p.span.len)
    (hi : i + 1 = p.span.stop) (hx : b.word i = x) : Sourced b (amendLatest c x log) i := by
  have hpos := List.length_pos_iff.mpr hne
  unfold Span.stop at hi
  refine Or.inr (Or.inr ⟨p.amend x, amend_mem_amendLatest hp x, ?_, ?_⟩)
  · change p.span.start ≤ i
    omega
  · unfold Grant.amend
    dsimp only
    rw [hx, show i - p.span.start = p.words.length - 1 by omega, List.getElem?_set_self (by omega)]

/-- Headers lie outside of the records of all blocks. -/
theorem of_record (h : Sourced a log i) (ho : a.Opened n) (hk : k < a.usable) (hi : a.recordStart k ≤ i)
    (hi' : i < a.blockStop k) : a.word i = 0 ∨ ∃ g ∈ log, a.word i ∈ g.words := by
  obtain ⟨j, hj, hstart, hrecord⟩ | hzero | ⟨g, hg, -, hword⟩ := h
  · have hheader := a.blockStart_lt_recordStart k
    have hblock := blockOf_eq (ho.lt_blocks hj) hstart (Nat.lt_trans hrecord (a.recordStart_lt_blockStop j))
    rw [blockOf_eq (ho.lt_blocks hk) (Nat.le_trans (Nat.le_of_lt hheader) hi) hi'] at hblock
    subst hblock
    exact absurd hi (Nat.not_le_of_lt hrecord)
  · exact Or.inl hzero
  · exact Or.inr ⟨g, hg, List.mem_of_getElem? hword⟩

end Sourced

/-! ### Steps -/

theorem filled_step {x y : LogView × Ledger} (h : ∀ g ∈ x.2, g.words = [] ∨ g.words.length = g.span.len)
    (hs : Step m x y) : ∀ g ∈ y.2, g.words = [] ∨ g.words.length = g.span.len := by
  cases hs with
  | extend _ _ _ hws => exact List.forall_mem_cons.mpr ⟨hws, h⟩
  | take _ _ _ hws => exact List.forall_mem_cons.mpr ⟨hws, h⟩
  | fold =>
    refine forall_mem_amendLatest h fun g _ hg => ?_
    unfold Grant.amend
    simpa using hg
  | _ => exact h

namespace Settled

theorem took_sourced {o : Opening} {header : Header} {task : Task} (h : Settled (Sourced v.arena log) v)
    (hp : Placed m v (shape log)) (ht : Took v w log g o a header task) (hwritten : g.words ≠ []) :
    Settled (Sourced w.arena (g :: log)) w := by
  have hopened : v.arena.Opened (openings log) := openings_shape log ▸ hp.opened
  have hlimit := ht.limit
  have hspan := Grant.stop_of_length (ht.words.resolve_left hwritten)
  have hopening := ht.opening_start
  have hrecord := ht.recordStart_eq
  -- what the words of the block are after it was laid out and written to
  have hblock : ∀ i, v.arena.blockStart g.block ≤ i → i < v.arena.blockStop g.block →
      Sourced w.arena (g :: log) i ∨ g.span.stop ≤ i ∧ i + tailWords < v.arena.blockStop g.block ∧
        w.arena.word i = v.arena.word i := by
    intro i hi hi'
    rcases Nat.lt_or_ge i g.span.start with hheader | hstart
    · refine Or.inl (Or.inl ⟨g.block, ?_, ?_⟩)
      · rw [usable_congr ht.blocks hlimit]
        exact ht.block_lt
      · rw [blockStart_congr ht.blocks, recordStart_congr ht.blocks, ← ht.start]
        exact ⟨hi, hheader⟩
    rcases Nat.lt_or_ge i g.span.stop with hnew | hrest
    · refine Or.inl ?_
      rw [ht.arena]
      exact .written hstart (by omega) (ht.words_le_high hopened)
    · have hword : w.arena.word i = (a.layOut o header task).word i := by
        rw [ht.arena, word_setWords_of_outside _ (by omega), word_startFilling]
      unfold Arena.blockStop at hi' ⊢
      rw [← hopening] at hi' ⊢
      rcases Nat.lt_or_ge (i + tailWords) (o.start + blockWords) with hbetween | htail
      · refine Or.inr ⟨hrest, hbetween, ?_⟩
        rw [hword, word_layOut_between _ _ _ (by omega) hbetween, word_of_words ht.taken.words]
      · refine Or.inl (Or.inr (Or.inl ?_))
        rw [hword, word_layOut_tail _ _ _ htail hi']
  refine h.took hp ht (fun i _ hsourced => ?_) fun i hi hi' hnew => ?_
  · have hstays : w.arena.word i = v.arena.word i → Sourced w.arena (g :: log) i := fun hword =>
      hsourced.of_word ht.blocks hlimit hword fun _ => List.mem_cons_of_mem _
    by_cases hin : v.arena.blockStart g.block ≤ i ∧ i < v.arena.blockStop g.block
    · rcases hblock i hin.1 hin.2 with hsourced | ⟨-, -, hword⟩
      · exact hsourced
      · exact hstays hword
    · exact hstays (ht.word_of_outside (by omega))
  · rcases hblock i hi hi' with hsourced | ⟨hrest, hbetween, -⟩
    · exact hsourced
    · omega

theorem extended_sourced (h : Settled (Sourced v.arena log) v) (hp : Placed m v (shape log))
    (he : Extended v w log p g) (hwritten : g.words ≠ []) : Settled (Sourced w.arena (g :: log)) w := by
  have hspan := Grant.stop_of_length (he.words.resolve_left hwritten)
  have hnew : ∀ i, g.span.start ≤ i → i < g.span.stop → Sourced w.arena (g :: log) i := by
    intro i hi hi'
    rw [he.arena]
    exact .written hi (by omega) (he.words_le_high hp.opened)
  refine h.extended hp he (fun i _ hi => ?_) hnew
  by_cases hin : g.span.start ≤ i ∧ i < g.span.stop
  · exact hnew i hin.1 hin.2
  · refine hi.of_word he.sameFrontier.blocks he.sameFrontier.limit ?_ fun _ => List.mem_cons_of_mem _
    rw [he.arena, word_setWords_of_outside _ (by omega)]

theorem folded_sourced (h : Settled (Sourced v.arena log) v) (hp : Placed m v (shape log))
    (hfilled : ∀ g ∈ log, g.words = [] ∨ g.words.length = g.span.len) (hwritten : ∀ g ∈ log, g.words ≠ [])
    (hroom : (v.cursor c).hasRoom = true) (ha : w.arena = v.arena.setWord ((v.cursor c).next - 1) x)
    (hw : Stayed v w) : Settled (Sourced w.arena (amendLatest c x log)) w := by
  obtain ⟨p, hlatest, hnext, hin⟩ := hp.written_of_hasRoom hroom
  have hmem := mem_of_latest? hlatest
  have hpos := hin.len
  have hspan : p.span.stop = p.span.start + p.span.len := rfl
  have hhigh : (v.cursor c).next ≤ v.arena.high :=
    Nat.le_trans (Nat.le_of_lt (Cursor.hasRoom_iff.mp hroom)) (hp.limit_le_high c)
  have hsame : v.arena.SameFrontier w.arena := ha ▸ .setWord ..
  refine h.of_setWord hp.opened ha hw fun i _ hi => ?_
  by_cases hsite : i + 1 = p.span.stop
  · refine .folded hlatest (hwritten p hmem) ((hfilled p hmem).resolve_left (hwritten p hmem)) hsite ?_
    rw [ha, word_setWord, if_pos (by omega)]
  · refine hi.amended hfilled hlatest hsite hsame.blocks hsame.limit ?_
    rw [ha, word_setWord_of_ne _ (by omega)]

theorem rated_sourced (h : Settled (Sourced v.arena log) v) (hp : Placed m v (shape log)) (hrates : m.rates = true)
    (hi : i < (v.cursor c).limit) (ha : w.arena = v.arena.setWord (i / 8) x) (hw : Stayed v w) :
    Settled (Sourced w.arena log) w := by
  have hbelow := hp.rate_lt_limit hrates hi
  have hsame : v.arena.SameFrontier w.arena := ha ▸ .setWord ..
  refine h.of_setWord hp.opened ha hw fun j hj hsourced => ?_
  refine hsourced.of_word hsame.blocks hsame.limit ?_ fun _ h => h
  rw [ha, word_setWord_of_ne _ (by omega)]

theorem flushed_sourced (h : Settled (Sourced v.arena log) v) (hopened : v.arena.Opened n) {l : Nat}
    (hroom : (v.cursor c).hasRoom = true)
    (ha : w.arena = (v.arena.close (v.arena.blockOf ((v.cursor c).limit - 1))
      (min (v.cursor c).next (v.cursor c).limit)).zero (v.cursor c).next ((v.cursor c).limit - (v.cursor c).next))
    (hw : Moved v w c l (v.cursor c).limit) : Settled (Sourced w.arena log) w := by
  have hlt := Cursor.hasRoom_iff.mp hroom
  have hsame : v.arena.SameFrontier w.arena := ha ▸ (SameFrontier.close ..).trans (.zero ..)
  have hzero : ∀ i, (v.cursor c).next ≤ i → i < (v.cursor c).limit → Sourced w.arena log i := fun i hi hi' => by
    refine Or.inr (Or.inl ?_)
    rw [ha, word_zero, if_pos (by omega)]
  refine h.flushed hopened hroom ha hw (fun i _ hi => ?_) hzero
  by_cases hin : (v.cursor c).next ≤ i ∧ i < (v.cursor c).limit
  · exact hzero i hin.1 hin.2
  · refine hi.of_word hsame.blocks hsame.limit ?_ fun _ h => h
    rw [ha, word_zero_of_outside (by omega), word_close]

theorem step_sourced {x y : LogView × Ledger} (hp : Placed m x.1 (shape x.2))
    (hfilled : ∀ g ∈ x.2, g.words = [] ∨ g.words.length = g.span.len)
    (h : (∀ g ∈ x.2, g.words ≠ []) → Settled (Sourced x.1.arena x.2) x.1) (hs : Step m x y)
    (hwritten : ∀ g ∈ y.2, g.words ≠ []) : Settled (Sourced y.1.arena y.2) y.1 := by
  cases hs with
  | rest ha hw =>
    exact (h hwritten).of_places hp.opened (congrArg Arena.blocks ha) (congrArg Arena.limit ha)
      (congrArg Arena.claimed ha) (congrArg Arena.marks ha) hw fun i _ hi => ha ▸ hi
  | extend hlen hcpu hfits hws ha hw =>
    obtain ⟨p, he⟩ := hp.extended hlen hfits hws ha hw
    obtain ⟨hnew, hold⟩ := List.forall_mem_cons.mp hwritten
    exact (h hold).extended_sourced hp he hnew
  | leave hcpu hn hshort ha hw =>
    obtain ⟨hunset, ha⟩ | ⟨hset, ha⟩ := ha
    · exact (h hwritten).of_unset hp.opened ha hunset hw fun i _ hi => ha ▸ hi
    · refine (h hwritten).left_short hp.opened hset hshort ha hw fun i hi => ?_
      rw [ha]
      exact hi.of_word (SameFrontier.close ..).blocks (SameFrontier.close ..).limit (word_close ..) fun _ h => h
  | exhaust ha hw =>
    obtain ⟨hwords, hmarks, hlimit⟩ := openBlock_none_same ha
    exact (h hwritten).refused hp.opened ha hw fun i _ hi =>
      hi.of_word (congrArg Array.size hmarks) hlimit (word_of_words hwords i) fun _ h => h
  | take hlen hcpu hroom hws ho hheader ha hw =>
    obtain ⟨hnew, hold⟩ := List.forall_mem_cons.mp hwritten
    exact (h hold).took_sourced hp (hp.took hlen hcpu hroom hws ho hheader ha hw) hnew
  | fold hroom ha hw =>
    have hold := written_of_amendLatest hwritten
    exact (h hold).folded_sourced hp hfilled hold hroom ha hw
  | rate hrates hi ha hw => exact (h hwritten).rated_sourced hp hrates hi ha hw
  | flush hcpu hroom ha hw => exact (h hwritten).flushed_sourced hp.opened hroom ha hw

end Settled

/-! ### Runs -/

section History
variable [Platform P] {t : Tracer P}

/-- If all grants were written, readers see what the session wrote. -/
theorem History.settled (h : History t log) (hwritten : ∀ g ∈ log, g.words ≠ []) :
    Settled (Sourced t.arena log) t.view :=
  (h.invariant (I := fun v log => (∀ g ∈ log, g.words = [] ∨ g.words.length = g.span.len) ∧
      ((∀ g ∈ log, g.words ≠ []) → Settled (Sourced v.arena log) v))
    (fun m a cpus => ⟨fun _ hg => (by cases hg), fun _ => .start _ a m.rates cpus⟩)
    fun hp h hs => ⟨filled_step h.1 hs, Settled.step_sourced hp h.1 h.2 hs⟩).2 hwritten

/-- A word of the record region of a block is zero or was written to a grant. -/
theorem History.source (h : History t log) (hwritten : ∀ g ∈ log, g.words ≠ []) (hk : k < t.arena.usable)
    (hi : (t.view.region k).start ≤ i) (hi' : i < (t.view.region k).stop) :
    t.arena.word i = 0 ∨ ∃ g ∈ log, t.arena.word i ∈ g.words := by
  obtain ⟨hstart, hstop, hsourced⟩ := (h.settled hwritten).region h.opened hk hi hi'
  exact hsourced.of_record h.opened hk hstart hstop

/-- The word before the place of a CPU with room is zero or was written to a grant, if not to one of this CPU. -/
theorem History.source_of_place (h : History t log) (hwritten : ∀ g ∈ log, g.words ≠ [])
    (hroom : (t.cursor c).hasRoom = true) :
    t.arena.word ((t.cursor c).next - 1) = 0 ∨ ∃ g ∈ log, t.arena.word ((t.cursor c).next - 1) ∈ g.words := by
  obtain ⟨k, hk, hstart, hbelow, hsourced⟩ := (h.settled hwritten).prior h.placed hroom
  exact hsourced.of_record h.opened hk hstart hbelow

/-- A record starts with a nonzero word of its block. -/
theorem Record.first_of_split {words : List UInt64} {rates : List UInt8} {r : Record} (h : r ∈ split words rates) :
    r.first ∈ words ∧ r.first ≠ 0 := by
  fun_induction split words rates with
  | case1 => cases h
  | case2 rates rest ih => exact (ih h).imp_left (List.mem_cons_of_mem _)
  | case3 rates w rest hne extra ih =>
    rcases List.mem_cons.mp h with rfl | h
    · exact ⟨List.mem_cons_self, hne⟩
    · exact (ih h).imp_left fun hmem => List.mem_cons_of_mem _ (List.mem_of_mem_drop hmem)

/-- If all grants were written, every record starts with a word that was written to a grant. -/
theorem History.first_mem (h : History t log) (hwritten : ∀ g ∈ log, g.words ≠ []) {b : BlockCopy}
    (hb : b ∈ t.snapshot.1.blocks) {r : Record} (hr : r ∈ b.records) : ∃ g ∈ log, r.first ∈ g.words := by
  have hblocks : t.snapshot.1.blocks = (t.arena.newestFirst.map (.ofView t.view)).reverse := by
    unfold Tracer.snapshot Snapshot.ofView
    dsimp only
    rw [t.off_same.2.2]
    rfl
  rw [hblocks, List.mem_reverse, List.mem_map] at hb
  obtain ⟨k, hk, rfl⟩ := hb
  have hclaimed := List.mem_range.mp (h.opened.newestFirst_perm.mem_iff.mp hk)
  obtain ⟨hfirst, hne⟩ := Record.first_of_split hr
  obtain ⟨i, hi, hword⟩ := List.mem_map.mp hfirst
  rw [List.mem_range'_1] at hi
  rw [← hword] at hne ⊢
  exact (h.source hwritten (Nat.lt_of_lt_of_le hclaimed h.opened.claimed_le) hi.1 hi.2).resolve_left hne

end History

end EventRecorder
