import EventRecorder.Proofs.Ledger.Frames
import EventRecorder.Proofs.Ledger.Stacks

/-! # The ends of blocks

A block is full of old words when it is opened, and only its tail is cleared. While every block has one writer, the
tail is long enough: no claim leaves a block before it has come to the tail, so the words behind the last grant of a
block are zero once its CPU has left it, whether it has run over the end of the block or was flushed. -/

namespace EventRecorder

open Ledger LogView Arena

variable {P : Type} {a : Arena} {c i k l n : Nat} {g p : Grant} {log : Ledger} {m : Mode} {v w : LogView}

/-- The words behind the latest grant of a block are zero: those of its tail at any time, and the others too unless
the CPU of the grant has room in the block. -/
def Blank (v : LogView) (log : Ledger) : Prop :=
  ∀ k g, (sinceOpened k log).head? = some g → ∀ i, g.span.stop ≤ i → i < v.arena.blockStop k →
    v.arena.blockStop k ≤ i + tailWords ∨ (latest? g.cpu log = some g → (v.cursor g.cpu).hasRoom = false) →
    v.arena.word i = 0

/-- A word behind the latest grant of a block lies in the block, above the limit. -/
theorem Placed.bounds_of_head (h : Placed m v log) (hg : (sinceOpened k log).head? = some g) (hi : g.span.stop ≤ i) :
    k < v.arena.usable ∧ v.arena.blockStart k ≤ i ∧ v.arena.limit ≤ i := by
  obtain ⟨hmem, rfl⟩ := block_of_head? hg
  have hin := h.placing.inside g hmem
  have hheader := v.arena.blockStart_lt_recordStart g.block
  have hlow : v.arena.blockStart g.block ≤ i :=
    Nat.le_trans (Nat.le_trans (Nat.le_of_lt hheader) hin.start) (Nat.le_trans g.span.start_le_stop hi)
  exact ⟨hin.block, hlow, Nat.le_trans (h.opened.limit_le_blockStart hin.block) hlow⟩

namespace Blank

/-! ### Steps -/

/-- What leaves the words behind the latest grants alone, and no CPU without the room it had. -/
theorem of_words (h : Blank v log) (hb : w.arena.blocks = v.arena.blocks)
    (hroom : ∀ c, (w.cursor c).hasRoom = (v.cursor c).hasRoom)
    (hwords : ∀ k g, (sinceOpened k log).head? = some g → ∀ i, g.span.stop ≤ i → i < v.arena.blockStop k →
      w.arena.word i = v.arena.word i) : Blank w log := by
  intro k g hg i hi hi' hcleared
  rw [blockStop_congr hb] at hi' hcleared
  rw [hwords k g hg i hi hi']
  exact h k g hg i hi hi' (hcleared.imp_right fun hleft hl => hroom g.cpu ▸ hleft hl)

theorem of_unset (h : Blank v log) (ha : w.arena = v.arena) (hl : (v.cursor c).limit = 0)
    (hw : Moved v w c n (v.cursor c).limit) : Blank w log := by
  intro k g hg i hi hi' hcleared
  rw [ha] at hi' hcleared ⊢
  refine h k g hg i hi hi' (hcleared.imp_right fun hleft hlatest => ?_)
  by_cases hgc : g.cpu = c
  · rw [hgc]
    exact decide_eq_false (by omega)
  · exact hw.hasRoom_of_ne hgc ▸ hleft hlatest

/-- A CPU that leaves its block clears what is left of it, as far as it is not part of the tail. -/
theorem left (h : Blank v log) (hp : Placed m v log) (hb : w.arena.blocks = v.arena.blocks)
    (hw : Moved v w c n l) (hwords : ∀ i, w.arena.word i = v.arena.word i ∨ w.arena.word i = 0)
    (hrest : ∀ i, (v.cursor c).next ≤ i → i < (v.cursor c).limit →
      (v.cursor c).limit ≤ i + tailWords ∨ w.arena.word i = 0) : Blank w log := by
  intro k g hg i hi hi' hcleared
  rw [blockStop_congr hb] at hi' hcleared
  have hold : v.arena.blockStop k ≤ i + tailWords ∨ (latest? g.cpu log = some g → (v.cursor g.cpu).hasRoom = false) →
      w.arena.word i = 0 := fun hc => (hwords i).elim (fun heq => heq.trans (h k g hg i hi hi' hc)) id
  rcases hcleared with htail | hleft
  · exact hold (Or.inl htail)
  · by_cases hgc : latest? g.cpu log = some g ∧ (v.cursor g.cpu).hasRoom = true
    · obtain ⟨hlatest, hroom⟩ := hgc
      -- the CPU had room in the block before, so it is the one that leaves it
      by_cases hcpu : g.cpu = c
      · have hnext := hp.next_of _ g hlatest hroom
        have hlimit := hp.limit_of _ g hlatest
        obtain ⟨-, rfl⟩ := block_of_head? hg
        rw [hcpu] at hnext hlimit
        rcases hrest i (hnext ▸ hi) (hlimit ▸ hi') with htail | hzero
        · exact hold (Or.inl (hlimit ▸ htail))
        · exact hzero
      · have hfull := hleft hlatest
        rw [hw.hasRoom_of_ne hcpu, hroom] at hfull
        cases hfull
    · exact hold (Or.inr fun hlatest => Bool.eq_false_iff.mpr fun hroom => hgc ⟨hlatest, hroom⟩)

/-- A claim that fits lies on the latest grant of its block. -/
theorem extended (h : Blank v (shape log)) (hp : Placed m v (shape log))
    (hone : OneWriter v.arena v.cursors.size (shape log)) (he : Extended v w log p g) : Blank w (shape (g :: log)) := by
  have hhead := hp.placing.head_of_latest hone he.latest
  have hlen := length_words_le he.words
  have hlt := hp.opened.lt_blocks he.prior.block
  have hstart := he.start_ge
  have hheader := v.arena.blockStart_lt_recordStart g.block
  rw [shape_cons]
  intro k q hq i hi hi' hcleared
  rw [he.sameFrontier.blockStop] at hi' hcleared
  obtain ⟨hk, rfl⟩ | ⟨hk, hq⟩ := head?_sinceOpened_inv hq
  · -- the CPU has room behind its grant, so only the tail is cleared
    have htail := hcleared.resolve_right fun hleft =>
      Bool.false_ne_true ((hleft latest?_cons_self).symm.trans he.hasRoom)
    have hle := g.span.start_le_stop
    rw [show k = p.block from (hk.symm.trans he.block)] at hi' htail
    change g.span.stop ≤ i at hi
    rw [he.arena, word_setWords_of_outside _ (by omega)]
    exact h p.block p hhead i (by have := he.start; omega) hi' (Or.inl htail)
  · obtain ⟨husable, hlow, -⟩ := hp.bounds_of_head hq hi
    have hout := outside_of_ne (k := g.block) (n := g.words.length) (i := g.span.start) (hp.opened.lt_blocks husable)
      (he.block ▸ hlt) (Ne.symm hk) hlow hi' (by omega) (by have := he.stop; omega)
    rw [he.arena, word_setWords_of_outside _ hout]
    exact h k q hq i hi hi' (hcleared.imp_right (he.noRoom_of_ne hq hk))

/-- The tail of a block that is taken is cleared. -/
theorem took {o : Opening} {header : Header} {task : Task} (h : Blank v (shape log)) (hp : Placed m v (shape log))
    (ht : Took v w log g o a header task) : Blank w (shape (g :: log)) := by
  have hlen := length_words_le ht.words
  have hlt := hp.opened.lt_blocks ht.block_lt
  rw [shape_cons]
  intro k q hq i hi hi' hcleared
  rw [blockStop_congr ht.blocks] at hi' hcleared
  obtain ⟨hk, rfl⟩ | ⟨hk, hq⟩ := head?_sinceOpened_inv hq
  · have htail := hcleared.resolve_right fun hleft =>
      Bool.false_ne_true ((hleft latest?_cons_self).symm.trans ht.hasRoom)
    obtain rfl : g.block = k := hk
    change g.span.stop ≤ i at hi
    unfold blockStop at hi' htail
    rw [← ht.opening_start] at hi' htail
    rw [ht.arena, word_setWords_of_outside _ (by omega), word_startFilling]
    exact word_layOut_tail o header task htail hi'
  · obtain ⟨husable, hlow, -⟩ := hp.bounds_of_head hq hi
    have hout := outside_of_ne (n := blockWords) (hp.opened.lt_blocks husable) hlt (Ne.symm hk) hlow hi' (Nat.le_refl _)
      (Nat.le_refl _)
    rw [ht.word_of_outside hout]
    exact h k q hq i hi hi' (hcleared.imp_right ht.noRoom_of_latest)

/-- A return is folded into a word of the latest grant of its CPU. -/
theorem folded {x : UInt64} (h : Blank v log) (hp : Placed m v log) (hone : OneWriter v.arena v.cursors.size log)
    (hroom : (v.cursor c).hasRoom = true) (ha : w.arena = v.arena.setWord ((v.cursor c).next - 1) x) (hw : Stayed v w) :
    Blank w log := by
  obtain ⟨p, hlatest, hnext, -, hin⟩ := hp.latest_of_hasRoom hroom
  have hhead := hp.placing.head_of_latest hone hlatest
  have hheader := v.arena.blockStart_lt_recordStart p.block
  have hstart := hin.start
  have hlen := hin.len
  have hstop := hin.stop
  have hspan : p.span.stop = p.span.start + p.span.len := rfl
  refine h.of_words (SameFrontier.blocks (ha ▸ .setWord ..)) hw.hasRoom fun k g hg i hi hi' => ?_
  have hne : (v.cursor c).next - 1 ≠ i := by
    by_cases hk : k = p.block
    · subst hk
      obtain rfl := Option.some.inj (hg.symm.trans hhead)
      omega
    · obtain ⟨husable, hlow, -⟩ := hp.bounds_of_head hg hi
      have hout := outside_of_ne (n := 1) (i := (v.cursor c).next - 1) (hp.opened.lt_blocks husable)
        (hp.opened.lt_blocks hin.block) hk hlow hi' (by omega) (by omega)
      omega
  rw [ha, word_setWord_of_ne _ hne]

/-! ### Runs -/

theorem step {x y : LogView × Ledger} (hp : Placed m x.1 (shape x.2))
    (h : OneWriter x.1.arena x.1.cursors.size (shape x.2) → Blank x.1 (shape x.2)) (hs : Step m x y)
    (hone : OneWriter y.1.arena y.1.cursors.size (shape y.2)) : Blank y.1 (shape y.2) := by
  have hbefore := hone.of_step hs
  have hblocks := hs.same_layout.1
  replace h := h hbefore
  cases hs with
  | rest ha hw => exact h.of_words hblocks hw.hasRoom fun _ _ _ _ _ _ => congrArg (Arena.word · _) ha
  | extend hlen _ hfits hws ha hw =>
    obtain ⟨p, he⟩ := hp.extended hlen hfits hws ha hw
    exact h.extended hp hbefore he
  | leave _ _ hshort ha hw =>
    obtain ⟨hl, ha⟩ | ⟨-, ha⟩ := ha
    · exact h.of_unset ha hl hw
    · have hwords := fun i => (congrArg (Arena.word · i) ha).trans (word_close ..)
      exact h.left hp hblocks hw (fun i => Or.inl (hwords i)) fun i hi _ =>
        Or.inl (Nat.le_trans hshort (Nat.add_le_add_right hi _))
  | exhaust ha hw =>
    exact h.of_words hblocks hw.hasRoom fun _ _ _ i _ _ => word_of_words (openBlock_none_same ha).1 i
  | take hlen hcpu hroom hws ho hheader ha hw => exact h.took hp (hp.took hlen hcpu hroom hws ho hheader ha hw)
  | fold hroom ha hw => exact (shape_amendLatest ..).symm ▸ h.folded hp hbefore hroom ha hw
  | rate hrates hi ha hw =>
    have hbelow := hp.rate_lt_limit hrates hi
    refine h.of_words hblocks hw.hasRoom fun k g hg i hi _ => ?_
    obtain ⟨-, -, hlow⟩ := hp.bounds_of_head hg hi
    dsimp only
    rw [ha, word_setWord_of_ne _ (by omega)]
  | flush _ hroom ha hw =>
    have hlt := Cursor.hasRoom_iff.mp hroom
    refine h.left hp hblocks hw (fun i => ?_) fun i hi hi' => Or.inr ?_
    · dsimp only
      rw [ha, word_zero, word_close]
      exact (ite_eq_or_eq ..).symm
    · dsimp only at hi hi' ⊢
      rw [ha, word_zero, if_pos ⟨hi, by omega⟩]

end Blank

theorem History.blank [Platform P] {t : Tracer P} (h : History t log)
    (hone : OneWriter t.arena t.cursors.size (shape log)) : Blank t.view (shape log) :=
  h.invariant (I := fun v log => OneWriter v.arena v.cursors.size (shape log) → Blank v (shape log))
    (fun _ _ _ _ _ _ hg => (by cases hg)) Blank.step hone

end EventRecorder
