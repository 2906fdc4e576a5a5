import EventRecorder.Platform.TimeOnly
import EventRecorder.Proofs.Ledger.Headers
import EventRecorder.Proofs.Ledger.Marks

/-! # Grants tile the log

While every block has one writer, what readers take for the records of a block is just what was granted
from it since it was last opened. -/

namespace EventRecorder

open Ledger LogView Arena

variable {P : Type} {a : Arena} {c i k : Nat} {g p : Grant} {log : Ledger} {m : Mode} {v : LogView}

/-- Grants, the earliest first, lie one behind the other and cover a span without a gap. -/
structure Tiles (s : Span) (gs : List Grant) : Prop where
  apart : gs.Pairwise fun g p => g.span.stop ≤ p.span.start
  covers : ∀ i, s.start ≤ i ∧ i < s.stop ↔ ∃ g ∈ gs, g.span.start ≤ i ∧ i < g.span.stop

/-! ### Cursors -/

/-- Readers find the CPU that writes to a block, and take the block to end where the CPU stands. -/
theorem cursorStop?_eq (hp : Placed m v log) (hone : OneWriter v.arena v.cursors.size log)
    (hg : (sinceOpened k log).head? = some g) (hl : latest? g.cpu log = some g)
    (hroom : (v.cursor g.cpu).hasRoom = true) : v.cursorStop? k = some g.span.stop := by
  obtain ⟨hmem, rfl⟩ := block_of_head? hg
  have hin := hp.placing.inside g hmem
  have hlt := hp.opened.lt_blocks hin.block
  have hlimit := hp.limit_of _ g hl
  unfold cursorStop?
  cases hfound : v.cursors.toList.find? fun x => x.limit != 0 && v.arena.blockOf (x.limit - 1) == g.block with
  | none =>
    have hnot := List.find?_eq_none.mp hfound _ (cursor_mem hin.cpu)
    rw [hlimit, blockOf_blockStop hlt] at hnot
    have := v.arena.blockStop_pos g.block
    simp only [bne_iff_ne, ne_eq, Bool.and_eq_true, beq_self_eq_true, and_true, Decidable.not_not] at hnot
    omega
  | some x =>
    obtain ⟨d, -, rfl⟩ := exists_cursor (List.mem_of_find?_eq_some hfound)
    obtain ⟨hset, hblock⟩ : (v.cursor d).limit ≠ 0 ∧ v.arena.blockOf ((v.cursor d).limit - 1) = g.block := by
      simpa using List.find?_some hfound
    -- the CPU found is in the block too, so its latest grant tops the block like that of `g`
    cases hd : latest? d log with
    | none => exact absurd (hp.unset d hd) hset
    | some q =>
      have hq := (hp.placing.inside q (mem_of_latest? hd)).block
      rw [hp.limit_of d q hd, blockOf_blockStop (hp.opened.lt_blocks hq)] at hblock
      have hhead := hp.placing.head_of_latest hone hd
      rw [hblock, hg] at hhead
      obtain rfl := Option.some.inj hhead
      obtain rfl := cpu_of_latest? hd
      have hstop := hin.stop
      rw [Option.map_some, hlimit, hp.next_of _ g hl hroom, Nat.min_eq_left (Nat.le_of_lt hstop)]

/-! ### Regions -/

/-- The records of a block end where its latest grant stops. -/
theorem region_eq (hp : Placed m v log) (hone : OneWriter v.arena v.cursors.size log) (hm : Marked v log)
    (hg : (sinceOpened k log).head? = some g) :
    v.region k = ⟨v.arena.recordStart k, g.span.stop - v.arena.recordStart k⟩ := by
  obtain ⟨hmem, rfl⟩ := block_of_head? hg
  have hin := hp.placing.inside g hmem
  have hstop := hin.stop
  have hspan : ∀ fill, fill = g.span.stop - v.arena.blockStart g.block →
      (⟨v.arena.blockStart g.block + headerWords g.block, fill - headerWords g.block⟩ : Span) =
        ⟨v.arena.recordStart g.block, g.span.stop - v.arena.recordStart g.block⟩ := by
    rintro _ rfl
    rw [Nat.sub_sub]
    rfl
  unfold region
  by_cases hfilling : latest? g.cpu log = some g ∧ (v.cursor g.cpu).hasRoom = true
  · rw [cursorStop?_eq hp hone hg hfilling.1 hfilling.2]
    have hmark := hm.filling g.cpu g hfilling.1 hfilling.2
    unfold recordRegion
    simp only [hmark, Option.getD_some]
    refine hspan _ (Nat.min_eq_left ?_)
    unfold blockStop at hstop
    omega
  · have hmark := hm.closed g.block g hg fun hl => Bool.eq_false_iff.mpr fun hr => hfilling ⟨hl, hr⟩
    unfold recordRegion
    simp only [hmark]
    exact hspan _ rfl

/-! ### Claimed blocks -/

theorem Tiles.of_bare {s : Span} {gs : List Grant} (h : Tiles s (gs.map Grant.bare).reverse) : Tiles s gs.reverse := by
  rw [← List.map_reverse] at h
  refine ⟨List.pairwise_map.mp h.apart, fun i => (h.covers i).trans ⟨?_, ?_⟩⟩
  · rintro ⟨q, hq, hi⟩
    obtain ⟨g, hg, rfl⟩ := List.mem_map.mp hq
    exact ⟨g, hg, hi⟩
  · rintro ⟨g, hg, hi⟩
    exact ⟨g.bare, List.mem_map_of_mem hg, hi⟩

theorem Stack.tiles {l : List Grant} (h : Stack a (g :: l)) :
    Tiles ⟨a.recordStart g.block, g.span.stop - a.recordStart g.block⟩ (g :: l).reverse := by
  refine ⟨List.pairwise_reverse.mpr h.pairwise, fun i => ?_⟩
  have hle := Nat.le_trans h.recordStart_le g.span.start_le_stop
  have hcovers := h.covers (i := i)
  simp only [List.mem_reverse, Span.stop] at hcovers hle ⊢
  rw [hcovers]
  omega

theorem Placed.exists_head (h : Placed m v log) (hk : k < v.arena.claimed) :
    ∃ g l, sinceOpened k log = g :: l ∧ g ∈ log ∧ g.block = k := by
  rw [h.opened.claimed_eq] at hk
  obtain ⟨p, hp, -, hblock⟩ := h.placing.exists_of_opening k (by omega)
  rw [nthBlock_of_lt (by omega)] at hblock
  subst hblock
  cases hl : sinceOpened p.block log with
  | nil => exact absurd hl (sinceOpened_ne_nil hp)
  | cons g l => exact ⟨g, l, rfl, mem_of_mem_sinceOpened (hl ▸ List.mem_cons_self)⟩

section History
variable [Platform P] {t : Tracer P}

theorem History.openings_le (h : History t log) (hwrapped : t.arena.wrapped = false) :
    openings log ≤ t.arena.usable := by
  refine Nat.le_of_not_lt fun hlt => ?_
  rw [h.opened.wrapped_iff.mpr hlt] at hwrapped
  cases hwrapped

theorem History.oneWriter (h : History t log) (hone : t.config.cpus = 1 ∨ t.arena.wrapped = false) :
    OneWriter t.arena t.cursors.size (shape log) := by
  refine hone.imp (fun hcpus => h.sized.cpus.trans hcpus) fun hwrapped => ?_
  rw [openings_shape]
  exact h.openings_le hwrapped

/-- A session that has not wrapped had not wrapped before. -/
theorem History.wrapped_of_perform (h : History t log) (platform : P) {a : Action} (hreset : a.isReset = false)
    (hwrapped : ({ t with platform }.perform a).2.arena.wrapped = false) : t.arena.wrapped = false := by
  have hact := h.act platform a
  have hlead : Leads _ log _ _ := Tracer.perform_leads (t := { t with platform }) (a := a) (by rw [hreset, Bool.false_and])
  obtain ⟨hblocks, hlimit⟩ := hlead.same_layout
  have hle := hact.openings_le hwrapped
  unfold Tracer.enter at hle
  rw [hreset, Bool.false_and, if_neg Bool.false_ne_true, usable_congr hblocks hlimit] at hle
  rw [Bool.eq_false_iff, Ne, h.opened.wrapped_iff, Nat.not_lt]
  exact Nat.le_trans hlead.openings_le hle

/-- All grants of a block of one writer are of the CPU that its header names. -/
theorem History.cpu_of_block (h : History t log) (hone : OneWriter t.arena t.cursors.size (shape log))
    (hg : g ∈ sinceOpened k log) : g.cpu = (t.arena.header k).cpu.toNat := by
  have hg' := bare_mem_sinceOpened hg
  have hin := h.placed.placing.inside _ (mem_of_mem_sinceOpened hg').1
  have hstack := h.placed.placing.stack hone k
  have hlast : ∃ f, (sinceOpened k (shape log)).getLast? = some f ∧ f.cpu = g.cpu := by
    cases hl : sinceOpened k (shape log) with
    | nil =>
      rw [hl] at hg'
      cases hg'
    | cons p l =>
      rw [hl] at hg' hstack
      refine ⟨_, List.getLast?_eq_some_getLast (List.cons_ne_nil p l), ?_⟩
      exact (hstack.same_cpu _ (List.getLast_mem _)).trans (hstack.same_cpu _ hg').symm
  obtain ⟨f, hf, hcpu⟩ := hlast
  have hsmall : g.cpu < 256 := Nat.lt_of_lt_of_le (h.sized.cpus ▸ hin.cpu) h.valid.2.2
  rw [h.headed _ f hf, hcpu]
  exact (UInt8.toNat_ofNat_of_lt hsmall).symm

/-- The region of a claimed block is the span of the stack of its grants. -/
theorem History.region_of_claimed (h : History t log) (hone : OneWriter t.arena t.cursors.size (shape log))
    (hk : k < t.arena.claimed) :
    ∃ g l, (sinceOpened k log).map Grant.bare = g :: l ∧ g.block = k ∧ Stack t.arena (g :: l) ∧
      t.view.region k = ⟨t.arena.recordStart k, g.span.stop - t.arena.recordStart k⟩ := by
  have hp := h.placed
  obtain ⟨g, l, hl, -, hblock⟩ := hp.exists_head hk
  refine ⟨g, l, ?_, hblock, ?_, region_eq hp hone (h.marked hone) (by rw [hl]; rfl)⟩
  · rw [← sinceOpened_shape, hl]
  · rw [← hl]
    exact hp.placing.stack hone k

theorem History.tiles (h : History t log) (hone : OneWriter t.arena t.cursors.size (shape log))
    (hk : k < t.arena.claimed) : Tiles (t.view.region k) (sinceOpened k log).reverse := by
  obtain ⟨g, l, hl, rfl, hs, hregion⟩ := h.region_of_claimed hone hk
  rw [hregion]
  exact Tiles.of_bare (hl ▸ hs.tiles)

theorem History.region_len (h : History t log) (hone : OneWriter t.arena t.cursors.size (shape log))
    (hk : k < t.arena.claimed) : (t.view.region k).len = ((sinceOpened k log).map (·.span.len)).sum := by
  obtain ⟨g, l, hl, rfl, hs, hregion⟩ := h.region_of_claimed hone hk
  have hsum := hs.sum_len
  rw [← hl, List.map_map] at hsum
  have hmap : ((sinceOpened g.block log).map ((fun p : Grant => p.span.len) ∘ Grant.bare)) =
      (sinceOpened g.block log).map (·.span.len) := rfl
  rw [hregion, ← hmap]
  dsimp only
  omega

theorem History.count_eq (h : History t log) (hone : OneWriter t.arena t.cursors.size (shape log)) :
    t.view.count = ((List.range t.arena.claimed).map fun k => ((sinceOpened k log).map (·.span.len)).sum).sum := by
  have hlen : ∀ k ∈ List.range t.arena.claimed, (t.view.region k).len = ((sinceOpened k log).map (·.span.len)).sum :=
    fun k hk => h.region_len hone (List.mem_range.mp hk)
  have hcount : t.view.count = (t.arena.newestFirst.map (Span.len ∘ t.view.region)).sum := by
    unfold LogView.count regions
    rw [List.map_map]
    rfl
  rw [hcount, (h.opened.newestFirst_perm.map _).sum_nat]
  exact congrArg List.sum (List.map_congr_left hlen)

theorem History.span_bounds (h : History t log) (hg : g ∈ sinceOpened k log) :
    g.span.stop < t.arena.blockStart k + blockWords ∧ t.arena.limit ≤ g.span.start ∧ g.span.stop ≤ t.arena.high := by
  obtain ⟨hmem, rfl⟩ := mem_of_mem_sinceOpened (bare_mem_sinceOpened hg)
  have hin := h.placed.placing.inside _ hmem
  exact ⟨hin.stop, h.placed.bounds_of_inside (g := g.bare) hin⟩

/-- As long as every block has one writer, the grants from a claimed block since it was last opened tile the
region that readers take for its records. -/
theorem grants_tile_log (h : History t log) (hone : t.config.cpus = 1 ∨ t.arena.wrapped = false) :
    (∀ k < t.arena.claimed,
      Tiles (t.view.region k) (sinceOpened k log).reverse ∧
      (t.view.region k).start = t.arena.blockStart k + headerWords k ∧
      ∀ g ∈ sinceOpened k log,
        g.cpu = (t.arena.header k).cpu.toNat ∧ g.span.stop < t.arena.blockStart k + blockWords ∧
        t.arena.limit ≤ g.span.start ∧ g.span.stop ≤ t.arena.high) ∧
    t.view.count =
      ((List.range t.arena.claimed).map fun k => ((sinceOpened k log).map (·.span.len)).sum).sum := by
  have hone := h.oneWriter hone
  refine ⟨fun k hk => ⟨h.tiles hone hk, ?_, fun g hg => ⟨h.cpu_of_block hone hg, h.span_bounds hg⟩⟩, h.count_eq hone⟩
  obtain ⟨g, l, -, rfl, -, hregion⟩ := h.region_of_claimed hone hk
  rw [hregion]
  rfl

/-- Two claims of the CPU of the smallest tracer. -/
theorem grants_tile_log_of_two_claims :
    ∃ (t : Tracer TimeOnly) (log : Ledger), History t log ∧ (t.config.cpus = 1 ∨ t.arena.wrapped = false) ∧
      log.map (·.span) = [⟨8207, 2⟩, ⟨8204, 3⟩] ∧ t.arena.claimed = 1 ∧
      (∀ k < t.arena.claimed,
        Tiles (t.view.region k) (sinceOpened k log).reverse ∧
        (t.view.region k).start = t.arena.blockStart k + headerWords k ∧
        ∀ g ∈ sinceOpened k log,
          g.cpu = (t.arena.header k).cpu.toNat ∧ g.span.stop < t.arena.blockStart k + blockWords ∧
          t.arena.limit ≤ g.span.start ∧ g.span.stop ≤ t.arena.high) ∧
      t.view.count =
        ((List.range t.arena.claimed).map fun k => ((sinceOpened k log).map (·.span.len)).sum).sum := by
  have hnew : History _ [] := .new (show Tracer.ofConfig ({} : TimeOnly) { blocks := 2 } = .ok _ from rfl)
  have hrun := (hnew.act {} (.claim 0 3)).act {} (.claim 0 2)
  exact ⟨_, _, hrun, Or.inl rfl, rfl, rfl, grants_tile_log hrun (Or.inl rfl)⟩

end History

end EventRecorder
