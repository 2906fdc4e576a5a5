import EventRecorder.Proofs.Ledger.Stacks

/-! # Fill marks

While every block has one writer, the mark of a block tells the truth about it: the block is marked as
filling just as long as its CPU can still write to it, and afterwards the mark tells where its latest grant
stops. -/

namespace EventRecorder

open Ledger LogView Arena

variable {P : Type} {a : Arena} {c k n : Nat} {g p : Grant} {log : Ledger} {m : Mode} {v w : LogView}

/-- The marks of all opened blocks tell how far they are filled. -/
structure Marked (v : LogView) (log : Ledger) : Prop where
  filling : ∀ c p, latest? c log = some p → (v.cursor c).hasRoom = true → v.arena.mark p.block = .filling
  closed : ∀ k g, (sinceOpened k log).head? = some g →
    (latest? g.cpu log = some g → (v.cursor g.cpu).hasRoom = false) →
    v.arena.mark k = .closed (g.span.stop - v.arena.blockStart k)

/-- Taking a block marks it and no other block. -/
theorem Took.mark {o : Opening} {header : Header} {task : Task} (ht : Took v w log g o a header task)
    (hk : k < v.arena.blocks) : w.arena.mark k = if k = g.block then .filling else v.arena.mark k := by
  have hk' : k < (a.layOut o header task).blocks := by
    rw [(SameFrontier.layOut ..).blocks, ht.taken.blocks]
    exact hk
  rw [ht.arena, mark_of_marks (marks_setWords ..), mark_startFilling hk', mark_of_marks (marks_layOut ..),
    mark_of_marks ht.taken.marks]

namespace Marked

/-! ### Steps -/

theorem of_stayed (h : Marked v log) (hm : w.arena.marks = v.arena.marks) (hw : Stayed v w) : Marked w log := by
  have hb : w.arena.blocks = v.arena.blocks := congrArg Array.size hm
  refine ⟨fun c p hc hroom => ?_, fun k g hg hroom => ?_⟩
  · rw [mark_of_marks hm]
    exact h.filling c p hc (hw.hasRoom c ▸ hroom)
  · rw [mark_of_marks hm, blockStart_congr hb]
    exact h.closed k g hg fun hl => hw.hasRoom g.cpu ▸ hroom hl

theorem of_unset {c n : Nat} (h : Marked v log) (hl : (v.cursor c).limit = 0) (hm : w.arena.marks = v.arena.marks)
    (hw : Moved v w c n (v.cursor c).limit) : Marked w log := by
  have hroom : ∀ d, (w.cursor d).hasRoom = (v.cursor d).hasRoom := by
    intro d
    by_cases hd : d = c
    · rw [hd, Bool.eq_iff_iff, hw.hasRoom_iff, Cursor.hasRoom_iff, hl]
      omega
    · exact hw.hasRoom_of_ne hd
  refine ⟨fun d p hd hr => ?_, fun k g hg hr => ?_⟩
  · rw [mark_of_marks hm]
    exact h.filling d p hd (hroom d ▸ hr)
  · rw [mark_of_marks hm, blockStart_congr (congrArg Array.size hm)]
    exact h.closed k g hg fun hlatest => hroom g.cpu ▸ hr hlatest

/-- The mark of a block that its CPU closes, whether for the first time or not. -/
theorem close_mark (h : Marked v log) (hp : Placed m v log) (hone : OneWriter v.arena v.cursors.size log)
    (hc : latest? c log = some p) :
    (v.arena.mark p.block).close (min (v.cursor c).next (v.cursor c).limit - v.arena.blockStart p.block) =
      .closed (p.span.stop - v.arena.blockStart p.block) := by
  have hlimit := hp.limit_of c p hc
  have hstop := (hp.placing.inside p (mem_of_latest? hc)).stop
  have hcpu := cpu_of_latest? hc
  cases hroom : (v.cursor c).hasRoom
  · have hfull : ¬ (v.cursor c).next < (v.cursor c).limit := fun hlt =>
      Bool.false_ne_true (hroom ▸ Cursor.hasRoom_iff.mpr hlt)
    rw [h.closed p.block p (hp.placing.head_of_latest hone hc) (fun _ => hcpu ▸ hroom), Mark.close]
    congr 1
    omega
  · have hnext := hp.next_of c p hc hroom
    rw [h.filling c p hc hroom, Mark.close]
    congr 1
    omega

/-- The CPU whose block is closed was the only one in it. -/
theorem left {c n : Nat} (h : Marked v log) (hp : Placed m v log) (hone : OneWriter v.arena v.cursors.size log)
    (hl : (v.cursor c).limit ≠ 0)
    (hm : w.arena.marks = (v.arena.close (v.arena.blockOf ((v.cursor c).limit - 1))
      (min (v.cursor c).next (v.cursor c).limit)).marks)
    (hw : Moved v w c n (v.cursor c).limit) (hn : (v.cursor c).limit ≤ n) : Marked w log := by
  have hb : w.arena.blocks = v.arena.blocks := (congrArg Array.size hm).trans (SameFrontier.close ..).blocks
  obtain ⟨p, hlatest⟩ : ∃ p, latest? c log = some p := by
    cases hlatest : latest? c log with
    | none => exact absurd (hp.unset c hlatest) hl
    | some p => exact ⟨p, rfl⟩
  have hlt := hp.opened.lt_blocks (hp.placing.inside p (mem_of_latest? hlatest)).block
  have hmark : ∀ k < v.arena.usable, w.arena.mark k = if k = p.block then
      .closed (p.span.stop - v.arena.blockStart p.block) else v.arena.mark k := by
    intro k hk
    rw [mark_of_left (hp.limit_of c p hlatest) hm hlt (hp.opened.lt_blocks hk), h.close_mark hp hone hlatest]
  refine ⟨fun d q hq hroom => ?_, fun k g hg hroom => ?_⟩
  · have hdc : d ≠ c := fun hdc => by
      rw [hdc, hw.hasRoom_iff] at hroom
      omega
    have hne := hp.placing.block_ne_of_latest hone hq hlatest hdc
    rw [hmark _ (hp.placing.inside q (mem_of_latest? hq)).block, if_neg hne]
    exact h.filling d q hq (hw.hasRoom_of_ne hdc ▸ hroom)
  · rw [blockStart_congr hb]
    obtain ⟨hmem, rfl⟩ := block_of_head? hg
    rw [hmark _ (hp.placing.inside g hmem).block]
    by_cases hk : g.block = p.block
    · rw [hk, hp.placing.head_of_latest hone hlatest] at hg
      obtain rfl := Option.some.inj hg
      exact if_pos rfl
    · rw [if_neg hk]
      refine h.closed g.block g hg fun hl' => ?_
      by_cases hgc : g.cpu = c
      · rw [hgc, hlatest] at hl'
        exact absurd (congrArg Grant.block (Option.some.inj hl')).symm hk
      · exact hw.hasRoom_of_ne hgc ▸ hroom hl'

theorem extended (h : Marked v (shape log)) (hp : Placed m v (shape log))
    (hone : OneWriter v.arena v.cursors.size (shape log)) (he : Extended v w log p g) : Marked w (shape (g :: log)) := by
  have hm : w.arena.marks = v.arena.marks := by rw [he.arena, marks_setWords]
  have hhead := hp.placing.head_of_latest hone he.latest
  rw [shape_cons]
  refine ⟨fun d q hq hroom => ?_, fun k q hq hroom => ?_⟩
  · rw [mark_of_marks hm]
    obtain ⟨-, rfl⟩ | ⟨hd, hq⟩ := latest?_cons_inv hq
    · change v.arena.mark g.block = _
      rw [he.block]
      exact h.filling g.cpu p he.latest (Cursor.hasRoom_of_fits he.room)
    · exact h.filling d q hq (he.moved.hasRoom_of_ne (Ne.symm hd) ▸ hroom)
  · rw [mark_of_marks hm, blockStart_congr he.sameFrontier.blocks]
    obtain ⟨-, rfl⟩ | ⟨hk, hq⟩ := head?_sinceOpened_inv hq
    · exact absurd he.hasRoom (Bool.eq_false_iff.mp (hroom latest?_cons_self))
    · exact h.closed k q hq (he.noRoom_of_ne hq hk hroom)

theorem took {o : Opening} {header : Header} {task : Task} (h : Marked v (shape log)) (hp : Placed m v (shape log))
    (hone : OneWriter v.arena v.cursors.size (shape (g :: log))) (ht : Took v w log g o a header task) :
    Marked w (shape (g :: log)) := by
  have hplacing := ht.placing hp.placing
  have hlt := hp.opened.lt_blocks ht.block_lt
  have hmark := fun j (hj : j < v.arena.blocks) => ht.mark hj
  rw [shape_cons] at hone hplacing ⊢
  refine ⟨fun d q hq hroom => ?_, fun k q hq hroom => ?_⟩
  · obtain ⟨-, rfl⟩ | ⟨hd, hq'⟩ := latest?_cons_inv hq
    · exact (hmark _ hlt).trans (if_pos rfl)
    · have hne : q.block ≠ g.block :=
        hplacing.block_ne_of_latest (g := g.bare) hone hq latest?_cons_self (Ne.symm hd)
      have hblock := (hp.placing.inside q (mem_of_latest? hq')).block
      rw [hmark _ (hp.opened.lt_blocks hblock), if_neg hne]
      exact h.filling d q hq' (ht.moved.hasRoom_of_ne (Ne.symm hd) ▸ hroom)
  · rw [blockStart_congr ht.blocks]
    obtain ⟨-, rfl⟩ | ⟨hk, hq⟩ := head?_sinceOpened_inv hq
    · exact absurd ht.hasRoom (Bool.eq_false_iff.mp (hroom latest?_cons_self))
    · obtain ⟨hmem, rfl⟩ := block_of_head? hq
      have hne : q.block ≠ g.block := Ne.symm hk
      have hblock := (hp.placing.inside q hmem).block
      rw [hmark _ (hp.opened.lt_blocks hblock), if_neg hne]
      exact h.closed q.block q hq (ht.noRoom_of_latest hroom)

/-! ### Runs -/

theorem step {x y : LogView × Ledger} (hp : Placed m x.1 (shape x.2))
    (h : OneWriter x.1.arena x.1.cursors.size (shape x.2) → Marked x.1 (shape x.2)) (hs : Step m x y)
    (hone : OneWriter y.1.arena y.1.cursors.size (shape y.2)) : Marked y.1 (shape y.2) := by
  have hbefore := hone.of_step hs
  obtain ⟨hblocks, hlimit, hcpus⟩ := hs.same_layout
  replace hone := hone.of_same hblocks hlimit hcpus
  replace h := h hbefore
  cases hs with
  | rest ha hw => exact h.of_stayed (congrArg Arena.marks ha) hw
  | extend hlen _ hfits hws ha hw =>
    obtain ⟨p, he⟩ := hp.extended hlen hfits hws ha hw
    exact h.extended hp hbefore he
  | leave hcpu hn _ ha hw =>
    obtain ⟨hl, ha⟩ | ⟨hl, ha⟩ := ha
    · exact h.of_unset hl (congrArg Arena.marks ha) hw
    · exact h.left hp hbefore hl (congrArg Arena.marks ha) hw hn
  | exhaust ha hw => exact h.of_stayed (openBlock_none_same ha).2.1 hw
  | take hlen hcpu hroom hws ho hheader ha hw =>
    exact h.took hp hone (hp.took hlen hcpu hroom hws ho hheader ha hw)
  | fold _ ha hw => exact (shape_amendLatest ..).symm ▸ h.of_stayed ((congrArg Arena.marks ha).trans rfl) hw
  | rate _ _ ha hw => exact h.of_stayed ((congrArg Arena.marks ha).trans rfl) hw
  | flush _ hroom ha hw =>
    have hset := Nat.ne_of_gt (Nat.zero_lt_of_lt (Cursor.hasRoom_iff.mp hroom))
    exact h.left hp hbefore hset ((congrArg Arena.marks ha).trans (marks_zero ..)) hw (Nat.le_refl _)

end Marked

theorem History.marked [Platform P] {t : Tracer P} (h : History t log)
    (hone : OneWriter t.arena t.cursors.size (shape log)) : Marked t.view (shape log) :=
  h.invariant (I := fun v log => OneWriter v.arena v.cursors.size (shape log) → Marked v (shape log))
    (fun _ _ _ _ => ⟨fun _ _ hc => (by cases hc), fun _ _ hg => (by cases hg)⟩) Marked.step hone

end EventRecorder
