import EventRecorder.Proofs.Ledger.Tails
import EventRecorder.Proofs.Sessions.Restart

/-! # Flushes

A flush closes the log: nothing that readers see changes, no CPU can go on in the block it was in, and what is left
of the blocks is zero. What is recorded from then on does not touch what was recorded before. -/

namespace EventRecorder

open Ledger LogView Arena

variable {P : Type} {c cpu i k n : Nat} {g : Grant} {log old : Ledger} {m : Mode} {v w : LogView}

/-! ### What a flush changes -/

namespace Tracer

variable {t : Tracer P}

/-- A flush changes the places of no CPU that still has room after it. -/
theorem cursor_flushCpu (h : ((t.flushCpu cpu).cursor c).hasRoom = true) : (t.flushCpu cpu).cursor c = t.cursor c := by
  obtain ⟨-, hne⟩ := hasRoom_of_flushCpu h
  unfold flushCpu
  dsimp only
  split
  · exact cursor_modifyCursor_of_ne hne
  · rfl

theorem word_flushCpu (h : (t.cursor cpu).hasRoom = true → i < (t.cursor cpu).next ∨ (t.cursor cpu).limit ≤ i) :
    (t.flushCpu cpu).arena.word i = t.arena.word i := by
  unfold flushCpu
  dsimp only
  split
  · rename_i hroom
    have hout := h hroom
    exact word_zero_of_outside (by omega)
  · rfl

/-- Flushing writes only to what is left of the blocks of CPUs with room. -/
theorem word_flushAll {cpus : List Nat}
    (h : ∀ c, (t.cursor c).hasRoom = true → i < (t.cursor c).next ∨ (t.cursor c).limit ≤ i) :
    (cpus.foldl flushCpu t).arena.word i = t.arena.word i := by
  induction cpus generalizing t with
  | nil => rfl
  | cons cpu cpus ih =>
    refine (ih fun c hroom => ?_).trans (word_flushCpu (h cpu))
    rw [cursor_flushCpu hroom]
    exact h c (hasRoom_of_flushCpu hroom).1

theorem flushCpu_of_full (h : (t.cursor cpu).hasRoom = false) : t.flushCpu cpu = t := by
  unfold flushCpu
  dsimp only
  rw [if_neg (Bool.eq_false_iff.mp h)]

theorem flushAll_of_full (h : ∀ c, (t.cursor c).hasRoom = false) (cpus : List Nat) : cpus.foldl flushCpu t = t := by
  induction cpus with
  | nil => rfl
  | cons cpu cpus ih => rw [List.foldl_cons, flushCpu_of_full (h cpu), ih]

theorem tracing_flushAll (cpus : List Nat) : (cpus.foldl flushCpu t).tracing = t.tracing := by
  induction cpus generalizing t with
  | nil => rfl
  | cons cpu cpus ih =>
    rw [List.foldl_cons, ih]
    unfold flushCpu
    dsimp only
    split <;> rfl

theorem tracing_flush (t : Tracer P) : t.flush.2.tracing = false := by
  refine (tracing_flushAll _).trans ?_
  unfold off
  split
  · rfl
  · rename_i htracing
    exact Bool.eq_false_iff.mpr htracing

/-- What is left of the blocks, CPU by CPU. -/
theorem room_eq (t : Tracer P) :
    t.room = ((t.cursors.toList.filter (·.hasRoom)).map fun c => c.limit - c.next).sum := by
  have hcursors : (List.range t.cursors.size).map t.cursor = t.cursors.toList := by
    refine List.ext_getElem (by simp) fun c hc hc' => ?_
    unfold cursor
    simp only [List.length_map, List.length_range] at hc
    simp [Array.getD_eq_getD_getElem?, hc]
  have hsum : ∀ l : List Cursor,
      (l.map fun c => c.limit - c.next).sum = ((l.filter (·.hasRoom)).map fun c => c.limit - c.next).sum := by
    intro l
    induction l with
    | nil => rfl
    | cons c l ih =>
      rw [List.map_cons, List.sum_cons, ih, List.filter_cons]
      cases hroom : c.hasRoom
      · have hfull : ¬ c.next < c.limit := fun hlt => Bool.false_ne_true (hroom.symm.trans (Cursor.hasRoom_iff.mpr hlt))
        rw [if_neg Bool.false_ne_true, Nat.sub_eq_zero_of_le (Nat.le_of_not_lt hfull), Nat.zero_add]
      · rw [if_pos rfl, List.map_cons, List.sum_cons]
  rw [← hsum, ← hcursors, List.map_map]
  rfl

theorem cleared_flush (t : Tracer P) :
    t.flush.1 = ((t.cursors.toList.filter (·.hasRoom)).map fun c => c.limit - c.next).sum := by
  have hcursors : t.off.cursors = t.cursors := congrArg LogView.cursors t.off_same.2.2
  rw [← hcursors, ← t.off.room_eq]
  rfl

/-- A flush of a tracer without room changes neither the arena nor a cursor. -/
theorem flush_of_full (h : t.room = 0) : t.flush.1 = 0 ∧ t.flush.2.arena = t.arena ∧ t.flush.2.cursors = t.cursors := by
  have hview := t.off_same.2.2
  have hroom : t.off.room = t.room := congrArg (fun v : LogView =>
    ((List.range v.cursors.size).map fun c => (v.cursor c).limit - (v.cursor c).next).foldr (· + ·) 0) hview
  have hfull : ∀ c, (t.off.cursor c).hasRoom = false := room_eq_zero_iff.mp (hroom.trans h)
  refine ⟨hroom.trans h, ?_, ?_⟩
  · exact (congrArg Tracer.arena (flushAll_of_full hfull _)).trans (congrArg LogView.arena hview)
  · exact (congrArg Tracer.cursors (flushAll_of_full hfull _)).trans (congrArg LogView.cursors hview)

theorem flush_same (t : Tracer P) :
    t.flush.2.config = t.config ∧ t.flush.2.arena.blocks = t.arena.blocks ∧ t.flush.2.arena.usable = t.arena.usable := by
  have hlead := flush_leads t []
  obtain ⟨hblocks, hlimit⟩ := hlead.same_layout
  exact ⟨hlead.config, hblocks, usable_congr hblocks hlimit⟩

end Tracer

/-! ### What was recorded since -/

/-- The grants of a ledger behind those of `old` are new, and the CPUs with room are in blocks of new grants. -/
def Since (old : Ledger) (v : LogView) (log : Ledger) : Prop :=
  ∃ news, log = news ++ old ∧ ∀ c, (v.cursor c).hasRoom = true → ∃ g, latest? c news = some g

namespace Since

theorem of_rooms (h : Since old v log) (hroom : ∀ c, (w.cursor c).hasRoom = true → (v.cursor c).hasRoom = true) :
    Since old w log := by
  obtain ⟨news, rfl, hnew⟩ := h
  exact ⟨news, rfl, fun c hc => hnew c (hroom c hc)⟩

theorem cons {l : Nat} (h : Since old v log) (hw : Moved v w g.cpu n l) : Since old w (g :: log) := by
  obtain ⟨news, rfl, hnew⟩ := h
  refine ⟨g :: news, rfl, fun c hc => ?_⟩
  by_cases hcpu : g.cpu = c
  · exact ⟨g, hcpu ▸ latest?_cons_self⟩
  · rw [latest?_cons_of_ne hcpu]
    exact hnew c (hw.hasRoom_of_ne (Ne.symm hcpu) ▸ hc)

theorem left {l : Nat} (h : Since old v log) (hw : Moved v w c n l) (hn : l ≤ n) : Since old w log := by
  refine h.of_rooms fun d hd => ?_
  by_cases hdc : d = c
  · rw [hdc] at hd
    exact absurd (hw.hasRoom_iff.mp hd) (Nat.not_lt_of_le hn)
  · exact hw.hasRoom_of_ne hdc ▸ hd

/-- A return is folded into a new grant. -/
theorem amend {x : UInt64} (h : Since old v log) (hroom : (v.cursor c).hasRoom = true) (hw : Stayed v w) :
    Since old w (amendLatest c x log) := by
  obtain ⟨news, rfl, hnew⟩ := h
  have hlatest : ∀ d, (∃ g, latest? d news = some g) → ∃ g, latest? d (amendLatest c x news) = some g := by
    intro d ⟨g, hg⟩
    have hshape := latest?_shape d (amendLatest c x news)
    rw [shape_amendLatest, latest?_shape, hg] at hshape
    obtain ⟨p, hp, -⟩ := Option.map_eq_some_iff.mp hshape.symm
    exact ⟨p, hp⟩
  refine ⟨amendLatest c x news, ?_, fun d hd => hlatest d (hnew d (hw.hasRoom d ▸ hd))⟩
  obtain ⟨g, hg⟩ := hnew c hroom
  clear hnew hlatest
  induction news with
  | nil => cases hg
  | cons p news ih =>
    rw [List.cons_append, amendLatest, amendLatest]
    split
    · rfl
    · rename_i hcpu
      rw [latest?_cons_of_ne hcpu] at hg
      rw [ih hg, List.cons_append]

theorem step {x y : LogView × Ledger} (h : Since old x.1 x.2) (hs : Step m x y) : Since old y.1 y.2 := by
  cases hs with
  | rest _ hw | exhaust _ hw | rate _ _ _ hw => exact h.of_rooms fun c hc => hw.hasRoom c ▸ hc
  | extend _ _ _ _ _ hw => exact h.cons hw
  | take _ _ _ _ _ _ _ hw => exact h.cons hw
  | leave _ hn _ _ hw => exact h.left hw hn
  | fold hroom _ hw => exact h.amend hroom hw
  | flush _ _ _ hw => exact h.left hw (Nat.le_refl _)

end Since

variable [Platform P] {t : Tracer P}

namespace Tracer

/-- None of the calls starts a session. -/
def goesOn (t : Tracer P) : (calls : List (P × Action)) → Bool
  | [] => true
  | call :: calls => !(call.2.isReset && !t.tracing) && ((t.at call.1).perform call.2).2.goesOn calls

end Tracer

theorem Since.perform {a : Action} (h : Since old t.view log) (hgoes : (a.isReset && !t.tracing) = false) :
    Since old (t.perform a).2.view (t.enter a log) := by
  rw [Tracer.enter_eq_book hgoes]
  have hlead : Leads t log _ _ := Tracer.perform_leads hgoes
  exact hlead.induction (I := fun y => Since old y.1 y.2) h Since.step

theorem Since.run {calls : List (P × Action)} (h : Since old t.view log) (hcalls : t.goesOn calls = true) :
    Since old (Tracer.enterAll (t, log) calls).1.view (Tracer.enterAll (t, log) calls).2 := by
  induction calls generalizing t log with
  | nil => exact h
  | cons call calls ih =>
    obtain ⟨hfirst, hrest⟩ := Bool.and_eq_true_iff.mp hcalls
    have hgoes : (call.2.isReset && !(t.at call.1).tracing) = false := Bool.not_eq_true' _ ▸ hfirst
    exact ih (Since.perform (t := t.at call.1) h hgoes) hrest

/-- A flushed log is closed. -/
structure Closed (t : Tracer P) (log : Ledger) : Prop where
  /-- No block has room for anything. -/
  full : ∀ c ∈ t.cursors, c.hasRoom = false
  /-- What lies behind the records of a block is zero. -/
  blank : ∀ k < t.arena.claimed, ∀ i, (t.view.region k).stop ≤ i → i < t.arena.blockStop k → t.arena.word i = 0
  /-- As long as no session is started, what was recorded stays as it is, and returns are folded into records that
  were made since. -/
  kept : ∀ calls : List (P × Action), t.goesOn calls = true →
    ∃ news, (Tracer.enterAll (t, log) calls).2 = news ++ log ∧
      ∀ (platform : P) (a : Action) (c i : Nat),
        ((Tracer.enterAll (t, log) calls).1.at platform).outcome a = .merged c i →
          ∃ g, latest? c news = some g ∧ i + 1 = g.span.stop
  /-- There is nothing left to flush. -/
  again : t.flush.1 = 0 ∧ t.flush.2.arena = t.arena ∧ t.flush.2.cursors = t.cursors

theorem History.kept (h : History t log) (hfull : ∀ c, (t.cursor c).hasRoom = false) {calls : List (P × Action)}
    (hcalls : t.goesOn calls = true) :
    ∃ news, (Tracer.enterAll (t, log) calls).2 = news ++ log ∧
      ∀ (platform : P) (a : Action) (c i : Nat),
        ((Tracer.enterAll (t, log) calls).1.at platform).outcome a = .merged c i →
          ∃ g, latest? c news = some g ∧ i + 1 = g.span.stop := by
  have hstart : Since log t.view log := ⟨[], rfl, fun c hc => absurd (hfull c ▸ hc) Bool.false_ne_true⟩
  obtain ⟨news, hnews, hnew⟩ := hstart.run hcalls
  refine ⟨news, hnews, fun platform a c i hmerged => ?_⟩
  have hrun := h.enterAll calls
  generalize Tracer.enterAll (t, log) calls = r at hrun hnews hnew hmerged
  obtain ⟨u, log'⟩ := r
  obtain rfl : log' = news ++ log := hnews
  obtain ⟨hroom, hi⟩ := Tracer.room_of_merged hmerged
  change (u.cursor c).hasRoom = true at hroom
  -- the CPU stands behind its latest grant of all, which is the latest of the new ones
  obtain ⟨g, hg⟩ := hnew c hroom
  obtain ⟨p, hp, hnext, hin⟩ := hrun.placed.written_of_hasRoom hroom
  have hlatest : latest? c (news ++ log) = some g := by
    unfold latest? at hg ⊢
    rw [List.find?_append, hg]
    rfl
  obtain rfl := Option.some.inj (hlatest.symm.trans hp)
  have hlen := hin.len
  refine ⟨g, hg, ?_⟩
  change (u.cursor c).next = g.span.stop at hnext
  change i = (u.cursor c).next - 1 at hi
  unfold Span.stop at hnext ⊢
  omega

/-! ### What readers see -/

/-- The words of the records of a block with one writer lie outside of what is left of any block. -/
theorem History.outside_room (h : History t log) (hone : OneWriter t.arena t.cursors.size (shape log))
    (hk : k < t.arena.claimed) (hi : (t.view.region k).start ≤ i) (hi' : i < (t.view.region k).stop)
    (hroom : (t.cursor c).hasRoom = true) : i < (t.cursor c).next ∨ (t.cursor c).limit ≤ i := by
  have hp := h.placed
  obtain ⟨p, hlatest, hnext, hlimit, hin⟩ := hp.latest_of_hasRoom hroom
  have hhead := hp.placing.head_of_latest hone hlatest
  obtain ⟨g, l, hl, rfl, hstack, hregion⟩ := h.region_of_claimed hone hk
  have hmem : g ∈ shape log := (mem_of_mem_sinceOpened (k := g.block) (by
    rw [sinceOpened_shape, hl]
    exact List.mem_cons_self)).1
  have hstop := (hp.placing.inside g hmem).stop
  have hrecord := Nat.le_trans hstack.recordStart_le g.span.start_le_stop
  rw [hregion] at hi hi'
  change i < t.arena.recordStart g.block + (g.span.stop - t.arena.recordStart g.block) at hi'
  change t.arena.recordStart g.block ≤ i at hi
  have hbelow : i < g.span.stop := by omega
  change (t.cursor c).next = _ at hnext
  change (t.cursor c).limit = _ at hlimit
  by_cases hblock : p.block = g.block
  · rw [hblock, sinceOpened_shape, hl] at hhead
    obtain rfl := Option.some.inj hhead
    exact Or.inl (hnext ▸ hbelow)
  · have hheader := t.arena.blockStart_lt_recordStart g.block
    have hheader' := t.arena.blockStart_lt_recordStart p.block
    have hstart := hin.start
    have hle := p.span.start_le_stop
    have hout := outside_of_ne (a := t.arena) (x := i) (i := t.arena.blockStart p.block) (n := blockWords)
      (hp.opened.lt_blocks (hp.placing.inside g hmem).block) (hp.opened.lt_blocks hin.block) (Ne.symm hblock)
      (by omega) (Nat.lt_trans hbelow hstop) (Nat.le_refl _) (Nat.le_refl _)
    rw [hnext, hlimit]
    exact hout.imp_left fun hlt => Nat.lt_of_lt_of_le hlt
      (Nat.le_trans (Nat.le_of_lt hheader') (Nat.le_trans hstart hle))

/-- A flush is the end of no session. -/
theorem History.flush (h : History t log) : History t.flush.2 log := h.act_at t.platform (.execute .flush)

theorem History.flush_oneWriter (h : History t log) (hone : OneWriter t.arena t.cursors.size (shape log)) :
    OneWriter t.flush.2.arena t.flush.2.cursors.size (shape log) := by
  obtain ⟨hconfig, -, husable⟩ := t.flush_same
  have hcpus : t.flush.2.cursors.size = t.cursors.size :=
    h.flush.sized.cpus.trans ((congrArg Config.cpus hconfig).trans h.sized.cpus.symm)
  unfold OneWriter at *
  rwa [hcpus, husable]

theorem History.flush_regions (h : History t log) (hone : OneWriter t.arena t.cursors.size (shape log)) :
    t.flush.2.view.regions = t.view.regions := by
  obtain ⟨-, hblocks, husable⟩ := t.flush_same
  have hnewest : t.flush.2.arena.newestFirst = t.arena.newestFirst := by
    rw [h.flush.opened.newestFirst_eq, h.opened.newestFirst_eq, husable]
  unfold regions
  change t.flush.2.arena.newestFirst.map _ = t.arena.newestFirst.map _
  rw [hnewest]
  refine List.map_congr_left fun k hk => ?_
  have hclaimed := h.opened.lt_claimed_of_mem hk
  have hclaimed' := h.flush.opened.lt_claimed_of_mem (hnewest ▸ hk)
  obtain ⟨g, l, hl, -, -, hregion⟩ := h.region_of_claimed hone hclaimed
  obtain ⟨g', l', hl', -, -, hregion'⟩ := h.flush.region_of_claimed (h.flush_oneWriter hone) hclaimed'
  obtain ⟨rfl, -⟩ := List.cons.inj (hl.symm.trans hl')
  rw [hregion, hregion', recordStart_congr hblocks]

theorem History.flush_word (h : History t log) (hone : OneWriter t.arena t.cursors.size (shape log)) (i : Nat) :
    t.flush.2.view.word i = t.view.word i := by
  unfold LogView.word
  rw [h.flush_regions hone]
  refine Agree.wordIn_congr (fun s hs j hj hj' => ?_) i
  obtain ⟨k, hk, rfl⟩ := List.mem_map.mp hs
  have harena := congrArg LogView.arena t.off_same.2.2
  refine (Tracer.word_flushAll (t := t.off) fun c hroom => ?_).trans (congrArg (Arena.word · j) harena)
  have hcursor : t.off.cursor c = t.cursor c := congrArg (LogView.cursor · c) t.off_same.2.2
  rw [hcursor] at hroom ⊢
  exact h.outside_room hone (h.opened.lt_claimed_of_mem hk) hj hj' hroom

/-- After a flush all blocks are zero behind their records. -/
theorem History.blank_of_full (h : History t log) (hone : OneWriter t.arena t.cursors.size (shape log))
    (hfull : ∀ c, (t.cursor c).hasRoom = false) (hk : k < t.arena.claimed) (hi : (t.view.region k).stop ≤ i)
    (hi' : i < t.arena.blockStop k) : t.arena.word i = 0 := by
  obtain ⟨g, l, hl, rfl, hstack, hregion⟩ := h.region_of_claimed hone hk
  have hrecord := Nat.le_trans hstack.recordStart_le g.span.start_le_stop
  rw [hregion] at hi
  change t.arena.recordStart g.block + (g.span.stop - t.arena.recordStart g.block) ≤ i at hi
  refine h.blank hone g.block g ?_ i (by omega) hi' (Or.inr fun _ => hfull g.cpu)
  rw [sinceOpened_shape, hl]
  rfl

/-- A flush closes the log and leaves what readers see as it was. -/
theorem flush_closes_log (h : History t log) (hone : t.config.cpus = 1 ∨ t.arena.wrapped = false) :
    t.flush.2.view.count = t.view.count ∧ (∀ i, t.flush.2.view.word i = t.view.word i) ∧ t.flush.2.tracing = false ∧
      t.flush.1 = ((t.cursors.toList.filter (·.hasRoom)).map fun c => c.limit - c.next).sum ∧
      Closed t.flush.2 log := by
  have hone := h.oneWriter hone
  have hfull := Tracer.room_eq_zero_iff.mp (Tracer.room_flush t)
  refine ⟨?_, h.flush_word hone, t.tracing_flush, t.cleared_flush, ?_, ?_, ?_, ?_⟩
  · unfold LogView.count
    rw [h.flush_regions hone]
  · intro c hc
    obtain ⟨i, hi, rfl⟩ := exists_cursor (v := t.flush.2.view) (Array.mem_toList_iff.mpr hc)
    exact hfull i
  · exact fun k hk i hi hi' => h.flush.blank_of_full (h.flush_oneWriter hone) hfull hk hi hi'
  · exact fun calls hcalls => h.flush.kept hfull hcalls
  · exact Tracer.flush_of_full (Tracer.room_flush t)

/-- A CPU flushes in the middle of a block; the call before the flush does not absorb the return behind it. -/
theorem flush_closes_log_of_open_call :
    ∃ (t : Tracer TimeOnly) (log : Ledger), History t log ∧ (t.config.cpus = 1 ∨ t.arena.wrapped = false) ∧
      t.flush.1 = 8179 ∧ t.view.count = 1 ∧
      (t.flush.2.view.count = t.view.count ∧ (∀ i, t.flush.2.view.word i = t.view.word i) ∧ t.flush.2.tracing = false ∧
        t.flush.1 = ((t.cursors.toList.filter (·.hasRoom)).map fun c => c.limit - c.next).sum ∧
        Closed t.flush.2 log) := by
  have hnew : History _ [] := .new (show Tracer.ofConfig ({} : TimeOnly) { blocks := 2 } = .ok _ from rfl)
  have hrun := (hnew.act_at {} (.execute .on)).act_at {} (.traceEvent 0x801 5)
  exact ⟨_, _, hrun, Or.inl rfl, by decide +kernel, by decide +kernel, flush_closes_log hrun (Or.inl rfl)⟩

end EventRecorder
