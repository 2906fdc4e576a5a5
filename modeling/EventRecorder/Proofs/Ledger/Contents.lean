import EventRecorder.Proofs.Arena.Words
import EventRecorder.Proofs.Ledger.Sharing
import EventRecorder.Proofs.Ledger.Tiling

/-! # Contents of grants

What is written to a grant stays there until its block is opened again. Words are written behind the top
of a stack, into blocks just taken off the frontier, and below the limit; only a return that is folded into
its call changes a word of a grant, and the ledger notes it. -/

namespace EventRecorder

open Ledger LogView Arena

variable {P : Type} {a b : Arena} {c i k n : Nat} {g p q : Grant} {log : Ledger} {m : Mode} {v w : LogView}

/-- The words written to a grant are in its span. -/
def Grant.HeldIn (g : Grant) (a : Arena) : Prop := (List.range' g.span.start g.words.length).map a.word = g.words

/-- All grants were written whole or not at all, and blocks hold what was written since they were last opened. -/
structure Holds (a : Arena) (log : Ledger) : Prop where
  filled : ∀ g ∈ log, g.words = [] ∨ g.words.length = g.span.len
  held : ∀ k, ∀ g ∈ sinceOpened k log, g.HeldIn a

theorem Grant.HeldIn.congr (h : g.HeldIn a)
    (hw : ∀ i, g.span.start ≤ i → i < g.span.start + g.words.length → b.word i = a.word i) : g.HeldIn b := by
  unfold HeldIn at *
  rw [← h, List.length_map, List.length_range']
  refine List.map_congr_left fun i hi => ?_
  rw [List.mem_range'_1] at hi
  exact hw i hi.1 hi.2

theorem Grant.HeldIn.getElem? (h : g.HeldIn a) (hn : n < g.words.length) :
    g.words[n]? = some (a.word (g.span.start + n)) := by
  have hget := congrArg (·[n]?) h
  simpa [hn] using hget.symm

/-- Amending a grant writes to its last word. -/
theorem Grant.HeldIn.amend {x : UInt64} (h : g.HeldIn a) (hhigh : g.span.stop ≤ a.high)
    (hwords : g.words = [] ∨ g.words.length = g.span.len) : (g.amend x).HeldIn (a.setWord (g.span.stop - 1) x) := by
  unfold HeldIn Grant.amend at *
  dsimp only
  refine List.ext_getElem (by simp) fun n hn hn' => ?_
  rw [List.length_set] at hn'
  have hlen : g.words.length = g.span.len := hwords.resolve_left fun hnil => by
    rw [hnil] at hn'
    cases hn'
  have hstop := Grant.stop_of_length hlen
  rw [List.getElem_map, List.getElem_range', List.getElem_set, word_setWord]
  by_cases hlast : g.words.length - 1 = n
  · rw [if_pos (by omega), if_pos hlast]
  · have hword : a.word (g.span.start + 1 * n) = g.words[n] := by
      simp only [List.ext_getElem_iff, List.getElem_map, List.getElem_range'] at h
      exact h.2 n (by simpa using hn') hn'
    rw [if_neg (by omega), if_neg hlast]
    exact hword

namespace Holds

theorem of_words (h : Holds a log)
    (hw : ∀ k, ∀ g ∈ sinceOpened k log, ∀ i, g.span.start ≤ i → i < g.span.stop → b.word i = a.word i) :
    Holds b log := by
  refine ⟨h.filled, fun k g hg => (h.held k g hg).congr fun i hi hi' => hw k g hg i hi ?_⟩
  have := length_words_le (h.filled g (mem_of_mem_sinceOpened hg).1)
  omega

end Holds

/-! ### Where the grants of a block lie -/

/-- The grants of one block lie outside of every other block. -/
theorem Placed.outside_block {j : Nat} (hp : Placed m v (shape log)) (hq : q ∈ sinceOpened k log)
    (hj : j < v.arena.usable) (hne : k ≠ j) (hi : q.span.start ≤ i) (hi' : i < q.span.stop) :
    i < v.arena.blockStart j ∨ v.arena.blockStop j ≤ i := by
  obtain ⟨hmem, hblock⟩ := mem_of_mem_sinceOpened (bare_mem_sinceOpened hq)
  have hin := hp.placing.inside _ hmem
  obtain rfl : q.block = k := hblock
  have hlt : q.block < v.arena.blocks := hp.opened.lt_blocks hin.block
  have hstart : v.arena.recordStart q.block ≤ q.span.start := hin.start
  have hstop : q.span.stop < v.arena.blockStop q.block := hin.stop
  have hheader := v.arena.blockStart_lt_recordStart q.block
  exact outside_of_ne (n := blockWords) hlt (hp.opened.lt_blocks hj) hne (by omega) (by omega) (Nat.le_refl _)
    (Nat.le_refl _)

/-- The grants of a block lie before the latest one. -/
theorem Stacked.before_latest (h : Stacked 0 v (shape log)) (hp : latest? c log = some p)
    (hroom : (v.cursor c).hasRoom = true) (hq : q ∈ (sinceOpened p.block log).tail) :
    q.span.stop ≤ p.span.start := by
  obtain ⟨l, hl⟩ := List.head?_eq_some_iff.mp (h.sole.head hp hroom)
  have hstack := h.stack p.block
  rw [sinceOpened_shape, hl] at hstack
  rw [hl] at hq
  exact hstack.stop_le q.bare (List.mem_map_of_mem hq)

/-- The grants since a block was opened lie before the place of a CPU that can still write to the block. -/
theorem Stacked.before_place (h : Stacked 0 v (shape log)) (hp : Placed m v (shape log))
    (hl : latest? c (shape log) = some p) (hroom : (v.cursor c).hasRoom = true) (hq : q ∈ sinceOpened k log)
    (hi : q.span.start ≤ i) (hi' : i < q.span.stop) : i < p.span.stop ∨ v.arena.blockStop p.block ≤ i := by
  have hpin := hp.placing.inside p (mem_of_latest? hl)
  by_cases hk : k = p.block
  · subst hk
    have hhead := h.sole c p hl hroom
    have hstack := h.stack p.block
    have hq' := bare_mem_sinceOpened hq
    cases hs : sinceOpened p.block (shape log) with
    | nil =>
      rw [hs] at hhead
      cases hhead
    | cons f l =>
      rw [hs] at hhead hq' hstack
      obtain rfl := Option.some.inj hhead
      rcases List.mem_cons.mp hq' with heq | hq'
      · subst heq
        exact Or.inl hi'
      · have hle : q.span.stop ≤ f.span.start := hstack.stop_le q.bare hq'
        have := f.span.start_le_stop
        exact Or.inl (by omega)
  · have hheader := v.arena.blockStart_lt_recordStart p.block
    have hstart := hpin.start
    have hle := p.span.start_le_stop
    rcases hp.outside_block hq hpin.block hk hi hi' with hbelow | habove
    · exact Or.inl (by omega)
    · exact Or.inr habove

/-! ### Steps -/

namespace Holds

theorem extended (h : Holds v.arena log) (hs : Stacked 0 v (shape log)) (hp : Placed m v (shape log))
    (he : Extended v w log p g) : Holds w.arena (g :: log) := by
  have hle := length_words_le he.words
  have hstop := he.stop
  have hold : Holds w.arena log := by
    refine h.of_words fun k q hq i hi hi' => ?_
    have hout := hs.before_place hp he.latest (Cursor.hasRoom_of_fits he.room) hq hi hi'
    rw [← he.start, ← he.block] at hout
    rw [he.arena]
    exact word_setWords_of_outside _ (by omega)
  have hnew : g.HeldIn w.arena := by
    unfold Grant.HeldIn
    rw [he.arena]
    exact map_word_setWords _ (he.words_le_high hp.opened)
  refine ⟨List.forall_mem_cons.mpr ⟨he.words, h.filled⟩, fun k q hq => ?_⟩
  obtain ⟨-, rfl⟩ | ⟨hq, -⟩ := mem_sinceOpened_inv hq
  · exact hnew
  · exact hold.held k q hq

theorem took {o : Opening} {header : Header} {task : Task} (h : Holds v.arena log) (hp : Placed m v (shape log))
    (ht : Took v w log g o a header task) : Holds w.arena (g :: log) := by
  have hle := length_words_le ht.words
  refine ⟨List.forall_mem_cons.mpr ⟨ht.words, h.filled⟩, fun k q hq => ?_⟩
  obtain ⟨-, rfl⟩ | ⟨hq, hk⟩ := mem_sinceOpened_inv hq
  · unfold Grant.HeldIn
    rw [ht.arena]
    exact map_word_setWords _ (ht.words_le_high hp.opened)
  · have hne : k ≠ g.block := fun heq => Bool.false_ne_true ((hk heq.symm).symm.trans ht.fresh)
    refine (h.held k q hq).congr fun i hi hi' => ?_
    have hlen := length_words_le (h.filled q (mem_of_mem_sinceOpened hq).1)
    exact ht.word_of_outside (hp.outside_block hq ht.block_lt hne hi (by omega))

theorem folded {cpu : Nat} {x : UInt64} (h : Holds v.arena log) (hs : Stacked 0 v (shape log))
    (hp : Placed m v (shape log)) (hroom : (v.cursor cpu).hasRoom = true)
    (ha : w.arena = v.arena.setWord ((v.cursor cpu).next - 1) x) : Holds w.arena (amendLatest cpu x log) := by
  obtain ⟨p, hlatest, hnext, hin⟩ := hp.written_of_hasRoom hroom
  have hhead := hs.sole.head hlatest hroom
  have hstart := hin.start
  have hstop := hin.stop
  have hlen := hin.len
  have hheader := v.arena.blockStart_lt_recordStart p.block
  have hend : p.span.stop = p.span.start + p.span.len := rfl
  have hhigh := blockStop_le_high (hp.opened.lt_blocks hin.block)
  rw [hnext] at ha
  -- only the last word of the latest grant changes, and no other grant has a word there
  have hkept : ∀ k, ∀ q ∈ sinceOpened k log, (∀ i, q.span.start ≤ i → i < q.span.stop → i ≠ p.span.stop - 1) →
      q.HeldIn w.arena := by
    intro k q hq hne
    refine (h.held k q hq).congr fun i hi hi' => ?_
    have hlen := length_words_le (h.filled q (mem_of_mem_sinceOpened hq).1)
    rw [ha]
    exact word_setWord_of_ne _ (Ne.symm (hne i hi (by omega)))
  refine ⟨forall_mem_amendLatest h.filled fun g _ hg => ?_, fun k q hq => ?_⟩
  · unfold Grant.amend
    simpa using hg
  rw [sinceOpened_amendLatest x hlatest hhead] at hq
  by_cases hk : p.block = k
  · subst hk
    rw [if_pos rfl] at hq
    have hp' := List.mem_of_head? hhead
    rcases List.mem_cons.mp hq with rfl | hq
    · rw [ha]
      exact (h.held _ p hp').amend (by omega) (h.filled p (mem_of_latest? hlatest))
    · have hbefore := hs.before_latest hlatest hroom hq
      exact hkept _ q (List.mem_of_mem_tail hq) fun i _ hi' => by omega
  · rw [if_neg hk] at hq
    refine hkept k q hq fun i hi hi' => ?_
    have hout := hp.outside_block hq hin.block (Ne.symm hk) hi hi'
    omega

theorem rated {cpu i : Nat} {x : UInt64} (h : Holds v.arena log) (hp : Placed m v (shape log))
    (hrates : m.rates = true) (hi : i < (v.cursor cpu).limit) (ha : w.arena = v.arena.setWord (i / 8) x) :
    Holds w.arena log := by
  have hbelow := hp.rate_lt_limit hrates hi
  refine h.of_words fun k q hq j hj _ => ?_
  have hin := hp.placing.inside _ (mem_of_mem_sinceOpened (bare_mem_sinceOpened hq)).1
  have hstart : v.arena.recordStart q.block ≤ q.span.start := hin.start
  have hblock := hp.opened.limit_le_blockStart (show q.block < v.arena.usable from hin.block)
  have hheader := v.arena.blockStart_lt_recordStart q.block
  rw [ha]
  exact word_setWord_of_ne _ (by omega)

theorem flushed {cpu k stop : Nat} (h : Holds v.arena log) (hs : Stacked 0 v (shape log)) (hp : Placed m v (shape log))
    (hroom : (v.cursor cpu).hasRoom = true)
    (ha : w.arena = (v.arena.close k stop).zero (v.cursor cpu).next ((v.cursor cpu).limit - (v.cursor cpu).next)) :
    Holds w.arena log := by
  obtain ⟨p, hl, hnext, hlimit, hin⟩ := hp.latest_of_hasRoom hroom
  refine h.of_words fun k q hq i hi hi' => ?_
  have hout := hs.before_place hp hl hroom hq hi hi'
  rw [ha, word_zero_of_outside (by omega), word_close]

theorem step {x y : LogView × Ledger} (hs : Spent 0 (shape x.2) → Stacked 0 x.1 (shape x.2))
    (hp : Placed m x.1 (shape x.2)) (h : Spent 0 (shape x.2) → Holds x.1.arena x.2) (hstep : Step m x y)
    (hy : Spent 0 (shape y.2)) : Holds y.1.arena y.2 := by
  cases hstep with
  | rest ha _ => exact (h hy).of_words fun _ _ _ _ _ _ => congrArg (Arena.word · _) ha
  | extend hlen _ hfits hws ha hw =>
    obtain ⟨p, he⟩ := hp.extended hlen hfits hws ha hw
    have hx := fun g hg => hy g (List.mem_cons_of_mem _ hg)
    exact (h hx).extended (hs hx) hp he
  | leave _ _ _ ha _ =>
    obtain ⟨-, ha⟩ | ⟨-, ha⟩ := ha
    · exact (h hy).of_words fun _ _ _ _ _ _ => congrArg (Arena.word · _) ha
    · exact (h hy).of_words fun _ _ _ _ _ _ => (congrArg (Arena.word · _) ha).trans (word_close ..)
  | exhaust ha _ => exact (h hy).of_words fun _ _ _ _ _ _ => word_of_words (openBlock_none_same ha).1 _
  | take hlen hcpu hroom hws ho hheader ha hw =>
    exact (h fun g hg => hy g (List.mem_cons_of_mem _ hg)).took hp (hp.took hlen hcpu hroom hws ho hheader ha hw)
  | fold hroom ha _ =>
    rw [shape_amendLatest] at hy
    exact (h hy).folded (hs hy) hp hroom ha
  | rate hrates hi ha _ => exact (h hy).rated hp hrates hi ha
  | flush _ hroom ha _ => exact (h hy).flushed (hs hy) hp hroom ha

end Holds

/-! ### Blocks of one writer -/

/-- A block that has one writer was not opened while another CPU could still write to it. -/
theorem Took.unspent_le {o : Opening} {header : Header} {task : Task} (ht : Took v w log g o a header task)
    (hp : Placed m v (shape log)) (hone : OneWriter v.arena v.cursors.size (g :: log)) : g.unspent ≤ 0 := by
  rw [ht.unspent, ← Nat.not_lt]
  intro hleft
  obtain ⟨c, hc, hne, hlimit, hroom⟩ := LogView.lt_unspent_iff.mp hleft
  have hcpu := ht.cpu
  rcases hone with hone | hone
  · omega
  · -- before the session wraps every opening takes another block, also that of the other CPU
    obtain ⟨p, -, -, hstop, hin⟩ := hp.latest_of_hasRoom hroom
    obtain ⟨i, hi, hblock⟩ := hin.opened
    rw [openings_of_fresh ht.fresh] at hone
    rw [openings_shape] at hi
    have heq : p.block = g.block :=
      blockStop_inj (hp.opened.lt_blocks hin.block) (hp.opened.lt_blocks ht.block_lt) (hstop.symm.trans hlimit)
    rw [ht.block, nthBlock_of_lt (by omega), ← hblock, nthBlock_of_lt (by omega)] at heq
    omega

theorem Spent.step {x y : LogView × Ledger} (hp : Placed m x.1 (shape x.2))
    (h : OneWriter x.1.arena x.1.cursors.size (shape x.2) → Spent 0 (shape x.2)) (hs : Step m x y)
    (hone : OneWriter y.1.arena y.1.cursors.size (shape y.2)) : Spent 0 (shape y.2) := by
  have hbefore := h (hone.of_step hs)
  obtain ⟨hblocks, hlimit, hcpus⟩ := hs.same_layout
  replace hone := hone.of_same hblocks hlimit hcpus
  cases hs with
  | extend => exact List.forall_mem_cons.mpr ⟨Nat.le_refl 0, hbefore⟩
  | take hlen hcpu hroom hws ho hheader ha hw =>
    have ht := hp.took hlen hcpu hroom hws ho hheader ha hw
    refine List.forall_mem_cons.mpr ⟨ht.unspent_le hp (hone.imp id fun hle => ?_), hbefore⟩
    rwa [openings_shape] at hle
  | fold =>
    dsimp only
    rwa [shape_amendLatest]
  | _ => exact hbefore

/-- A stack of grants that were all written reads back from the start of the records to its end. -/
theorem Stack.read {l : List Grant} (h : Stack a ((g :: l).map Grant.bare)) (hheld : ∀ p ∈ g :: l, p.HeldIn a)
    (hlen : ∀ p ∈ g :: l, p.words.length = p.span.len) :
    (List.range' (a.recordStart g.block) (g.span.stop - a.recordStart g.block)).map a.word =
      (g :: l).reverse.flatMap (·.words) := by
  induction l generalizing g with
  | nil =>
    have hg := hheld g List.mem_cons_self
    have hstop := Grant.stop_of_length (hlen g List.mem_cons_self)
    cases h with
    | one hstart =>
      replace hstart : g.span.start = a.recordStart g.block := hstart
      rw [hstop, ← hstart, Nat.add_sub_cancel_left]
      simpa [Grant.HeldIn] using hg
  | cons p l ih =>
    have hg := hheld g List.mem_cons_self
    have hread := ih h.tail (fun q hq => hheld q (List.mem_cons_of_mem _ hq)) fun q hq =>
      hlen q (List.mem_cons_of_mem _ hq)
    have hstop := Grant.stop_of_length (hlen g List.mem_cons_self)
    cases h with
    | more hrest hblock _ hstart =>
      replace hblock : g.block = p.block := hblock
      replace hstart : g.span.start = p.span.stop := hstart
      have hle : a.recordStart p.block ≤ p.span.start := hrest.recordStart_le
      have hple := p.span.start_le_stop
      -- the words of the new grant lie right behind those of the stack
      have hsplit : g.span.stop - a.recordStart p.block = p.span.stop - a.recordStart p.block + g.words.length := by
        omega
      have hbehind : a.recordStart p.block + (p.span.stop - a.recordStart p.block) = g.span.start := by omega
      rw [hblock, hsplit, ← List.range'_append_1, List.map_append, hread, hbehind, hg, List.reverse_cons (a := g),
        List.flatMap_append]
      simp

section History
variable [Platform P] {t : Tracer P}

theorem History.spent (h : History t log) (hone : OneWriter t.arena t.cursors.size (shape log)) :
    Spent 0 log :=
  spent_shape.mp (h.invariant
    (I := fun v log => OneWriter v.arena v.cursors.size (shape log) → Spent 0 (shape log))
    (fun _ _ _ _ _ hg => (by cases hg)) Spent.step hone)

theorem History.holds (h : History t log) (hc : Spent 0 log) : Holds t.arena log :=
  (h.invariant (I := fun v log => (Spent 0 (shape log) → Stacked 0 v (shape log)) ∧
      (Spent 0 (shape log) → Holds v.arena log))
    (fun _ _ _ => ⟨fun _ => ⟨fun _ _ hc => (by cases hc), fun _ => .nil⟩,
      fun _ => ⟨fun _ hg => (by cases hg), fun _ _ hg => (by cases hg)⟩⟩)
    fun hp h hs => ⟨Stacked.step (Nat.zero_le 1) hp h.1 hs, Holds.step h.1 hp h.2 hs⟩).2 (spent_shape.mpr hc)

/-- The word before the place of a CPU is the last one that was written to its latest grant. -/
theorem History.last_word (h : History t log) (hspent : Spent 0 log) (hroom : (t.cursor c).hasRoom = true) :
    ∃ p, latest? c log = some p ∧ (t.cursor c).next = p.span.stop ∧
      (p.words ≠ [] → p.words.getLast? = some (t.arena.word ((t.cursor c).next - 1))) := by
  obtain ⟨p, hlatest, hnext, -⟩ := h.placed.written_of_hasRoom hroom
  have hholds := h.holds hspent
  have hhead := (h.stacked (Nat.zero_le 1) hspent).sole.head hlatest hroom
  refine ⟨p, hlatest, hnext, fun hne => ?_⟩
  have hstop := Grant.stop_of_length ((hholds.filled p (mem_of_latest? hlatest)).resolve_left hne)
  have hpos := List.length_pos_iff.mpr hne
  replace hnext : (t.cursor c).next = p.span.stop := hnext
  rw [List.getLast?_eq_getElem?, (hholds.held _ p (List.mem_of_head? hhead)).getElem? (by omega)]
  congr 2
  omega

/-- The word before the place of a CPU with room is the last one of its latest record. -/
theorem History.word_of_latest {i : Nat} {x : UInt64} (h : History t log) (hspent : Spent 0 log)
    (hroom : (t.cursor c).hasRoom = true) (hg : latest? c log = some g) (hx : g.words.getLast? = some x)
    (hi : (t.cursor c).next - 1 = i) : t.arena.word i = x := by
  obtain ⟨p, hp, -, hword⟩ := h.last_word hspent hroom
  obtain rfl := Option.some.inj (hp.symm.trans hg)
  have hne : p.words ≠ [] := by
    intro hnil
    rw [hnil] at hx
    cases hx
  rw [← hi]
  exact Option.some.inj ((hword hne).symm.trans hx)

/-- A copy of a claimed block holds the words written to its grants since it was last opened. -/
theorem History.copied_words (h : History t log) (hone : OneWriter t.arena t.cursors.size (shape log))
    (hwritten : ∀ g ∈ log, g.words ≠ []) (hk : k < t.arena.claimed) :
    (BlockCopy.ofView t.view k).words = (sinceOpened k log).reverse.flatMap (·.words) := by
  have hp := h.placed
  have hholds := h.holds (h.spent hone)
  obtain ⟨g', l', hl', -, hblock'⟩ := hp.exists_head hk
  have hregion := region_eq hp hone (h.marked hone) (show (sinceOpened k (shape log)).head? = some g' by rw [hl']; rfl)
  have hstack := hp.placing.stack hone k
  have hmem : ∀ p ∈ sinceOpened k log, p.HeldIn t.arena ∧ p.words.length = p.span.len := fun p hp =>
    have hlog := (mem_of_mem_sinceOpened hp).1
    ⟨hholds.held k p hp, (hholds.filled p hlog).resolve_left (hwritten p hlog)⟩
  rw [sinceOpened_shape] at hl' hstack
  cases hl : sinceOpened k log with
  | nil =>
    rw [hl] at hl'
    cases hl'
  | cons g l =>
    rw [hl] at hl' hstack hmem
    obtain ⟨rfl, -⟩ := List.cons.inj hl'
    subst hblock'
    unfold BlockCopy.ofView
    dsimp only
    rw [hregion]
    exact hstack.read (fun p hp => (hmem p hp).1) fun p hp => (hmem p hp).2

end History

end EventRecorder
