import EventRecorder.Platform.TimeOnly
import EventRecorder.Proofs.Ledger.Contents
import Mathlib.Data.List.Basic

/-! # What survives a wraparound

The grants of a tracer with one CPU fall into fillings, one for each opening. A session that wraps keeps
the first filling, which block 0 is never opened again for, and the latest ones, up to a lap. Readers
find these from the position of the frontier alone, and find nothing of what earlier laps left behind. -/

namespace EventRecorder

open Ledger LogView Arena

variable {P : Type} {a : Arena} {cpus c i : Nat} {g p : Grant} {log : Ledger}

namespace Ledger

/-- The grants made since the `i`-th opening, counted from 0, and before the next, the latest first. -/
def filling (i : Nat) : (log : Ledger) → List Grant
  | [] => []
  | g :: log => if openings (g :: log) = i + 1 then g :: filling i log else filling i log

/-- The words written in the `i`-th filling, in their order. -/
def written (i : Nat) (log : Ledger) : List UInt64 := (filling i log).reverse.flatMap (·.words)

theorem filling_of_le (h : openings log ≤ i) : filling i log = [] := by
  induction log with
  | nil => rfl
  | cons g log ih =>
    have hle := openings_le_cons g log
    unfold filling
    rw [if_neg (by omega)]
    exact ih (by omega)

theorem filling_fresh (h : g.fresh = true) (i : Nat) :
    filling i (g :: log) = if openings log = i then [g] else filling i log := by
  rw [filling, openings_of_fresh h]
  by_cases hi : openings log = i
  · rw [if_pos (by omega), if_pos hi, filling_of_le (by omega)]
  · rw [if_neg (by omega), if_neg hi]

theorem filling_not_fresh (h : g.fresh = false) (i : Nat) :
    filling i (g :: log) = if openings log = i + 1 then g :: filling i log else filling i log := by
  rw [filling, openings_of_not_fresh h]

end Ledger

namespace Placing

theorem openings_pos (h : Placing a cpus log) (hg : g ∈ log) : 0 < openings log := by
  obtain ⟨i, hi, -⟩ := (h.inside g hg).opened
  exact Nat.zero_lt_of_lt hi

/-- The fillings make up the ledger. -/
theorem flatMap_filling (h : Placing a cpus log) :
    (List.range (openings log)).flatMap (fun i => (filling i log).reverse) = log.reverse := by
  induction h with
  | nil => rfl
  | @fresh g log hlog hf _ _ _ _ _ _ ih =>
    have hold : ∀ i ∈ List.range (openings log), (filling i (g :: log)).reverse = (filling i log).reverse := by
      intro i hi
      rw [List.mem_range] at hi
      rw [filling_fresh hf, if_neg (by omega)]
    rw [openings_of_fresh hf, List.range_succ, List.flatMap_append, List.flatMap_singleton, List.flatMap_congr hold, ih,
      filling_fresh hf, if_pos rfl]
    exact List.reverse_cons.symm
  | @next g p log hlog hf hp _ _ _ _ ih =>
    obtain ⟨n, hn⟩ : ∃ n, openings log = n + 1 :=
      ⟨openings log - 1, by have := hlog.openings_pos (mem_of_latest? hp); omega⟩
    have hold : ∀ i ∈ List.range n, (filling i (g :: log)).reverse = (filling i log).reverse := by
      intro i hi
      rw [List.mem_range] at hi
      rw [filling_not_fresh hf, if_neg (by omega)]
    rw [hn, List.range_succ, List.flatMap_append, List.flatMap_singleton] at ih
    rw [openings_of_not_fresh hf, hn, List.range_succ, List.flatMap_append, List.flatMap_singleton,
      List.flatMap_congr hold, filling_not_fresh hf, if_pos hn, List.reverse_cons, List.reverse_cons, ← ih,
      List.append_assoc]

/-- With one CPU, the latest grant is the first of the ledger. -/
theorem mem_filling_of_latest (h : Placing a 1 log) (hp : latest? c log = some p) (hi : openings log = i + 1) :
    p ∈ filling i log := by
  cases log with
  | nil => cases hp
  | cons g log =>
    have hg := (h.inside g List.mem_cons_self).cpu
    have hpc := (h.inside p (mem_of_latest? hp)).cpu
    rw [← cpu_of_latest? hp, show p.cpu = g.cpu by omega, latest?_cons_self] at hp
    obtain rfl := Option.some.inj hp
    unfold filling
    rw [if_pos hi]
    exact List.mem_cons_self

/-- With one CPU, a filling is the grants of the block that was taken for it. -/
theorem block_of_filling (h : Placing a 1 log) (hg : g ∈ filling i log) : g.block = nthBlock a.usable i := by
  induction h generalizing g with
  | nil => cases hg
  | @fresh p log hlog hf _ hblock _ _ _ _ ih =>
    rw [filling_fresh hf] at hg
    split at hg
    · rename_i hi
      rw [List.mem_singleton.mp hg, hblock, hi]
    · exact ih hg
  | @next p q log hlog hf hq hblock _ _ _ ih =>
    rw [filling_not_fresh hf] at hg
    split at hg
    · rename_i hi
      rcases List.mem_cons.mp hg with rfl | hg
      · rw [hblock]
        exact ih (hlog.mem_filling_of_latest hq hi)
      · exact ih hg
    · exact ih hg

/-- With one CPU, the grants of a block since it was last opened are the filling of that opening. -/
theorem sinceOpened_nthBlock (h : Placing a 1 log) (hi : i < openings log)
    (hlast : ∀ j, i < j → j < openings log → nthBlock a.usable j ≠ nthBlock a.usable i) :
    sinceOpened (nthBlock a.usable i) log = filling i log := by
  induction h with
  | nil => cases hi
  | @fresh g log hlog hf _ hblock _ _ _ _ ih =>
    rw [openings_of_fresh hf] at hi hlast
    rw [filling_fresh hf]
    rcases Nat.lt_succ_iff_lt_or_eq.mp hi with hlt | rfl
    · rw [sinceOpened_of_ne (hblock ▸ hlast _ hlt (Nat.lt_succ_self _)), if_neg (Nat.ne_of_gt hlt)]
      exact ih hlt fun j hij hj => hlast j hij (Nat.lt_succ_of_lt hj)
    · rw [sinceOpened_of_fresh hblock hf, if_pos rfl]
  | @next g p log hlog hf hp hblock hstart hlen hstop ih =>
    rw [openings_of_not_fresh hf] at hi hlast
    have ih := ih hi hlast
    obtain ⟨n, hn⟩ : ∃ n, openings log = n + 1 := ⟨openings log - 1, by omega⟩
    have hg : g.block = nthBlock a.usable n := hblock.trans (hlog.block_of_filling (hlog.mem_filling_of_latest hp hn))
    rw [filling_not_fresh hf]
    rcases Nat.lt_or_ge i n with hlt | hge
    · rw [sinceOpened_of_ne (hg ▸ hlast n hlt (by omega)), if_neg (by omega), ih]
    · obtain rfl : i = n := by omega
      rw [sinceOpened_of_not_fresh hg hf, if_pos hn, ih]

end Placing

/-! ### Reading backward -/

theorem map_word_reverse (a : Arena) (s : Span) :
    (List.range s.len).reverse.map (fun i => a.word (s.stop - 1 - i)) = (List.range' s.start s.len).map a.word := by
  refine List.ext_getElem (by simp) fun i hi hi' => ?_
  simp only [List.length_map, List.length_range'] at hi'
  simp only [List.getElem_map, List.getElem_reverse, List.getElem_range, List.length_range, List.getElem_range', Span.stop]
  congr 1
  omega

/-- The record view read from its highest index down gives the regions from the oldest on. -/
theorem map_wordIn (a : Arena) (regions : List Span) :
    (List.range (regions.map Span.len).sum).reverse.map (wordIn a regions) =
      regions.reverse.flatMap fun s => (List.range' s.start s.len).map a.word := by
  induction regions with
  | nil => rfl
  | cons s regions ih =>
    have hrest : ∀ i ∈ (List.range (regions.map Span.len).sum).reverse,
        wordIn a (s :: regions) (s.len + i) = wordIn a regions i := by
      intro i _
      rw [wordIn, if_neg (by omega), Nat.add_sub_cancel_left]
    have hfirst : ∀ i ∈ (List.range s.len).reverse, wordIn a (s :: regions) i = a.word (s.stop - 1 - i) := by
      intro i hi
      rw [List.mem_reverse, List.mem_range] at hi
      rw [wordIn, if_pos hi]
    rw [List.map_cons, List.sum_cons, List.range_add, List.reverse_append, List.map_append, ← List.map_reverse,
      List.map_map, List.map_congr_left hfirst, map_word_reverse, List.reverse_cons, List.flatMap_append,
      List.flatMap_singleton, ← ih]
    congr 1
    exact List.map_congr_left hrest

/-- The words of the blocks that readers see, from the oldest block on. -/
def LogView.readable (v : LogView) : List UInt64 :=
  v.arena.newestFirst.reverse.flatMap fun k => (BlockCopy.ofView v k).words

theorem readable_eq (v : LogView) : (List.range v.count).reverse.map v.word = v.readable := by
  have hview := map_wordIn v.arena v.regions
  unfold LogView.regions at hview
  rw [← List.map_reverse, List.flatMap_map] at hview
  exact hview

theorem length_readable (v : LogView) : v.readable.length = v.count := by
  rw [← readable_eq, List.length_map, List.length_reverse, List.length_range]

section History
variable [Platform P] {t : Tracer P}

/-- Readers of a tracer with one CPU see the first filling and those of the surviving openings. -/
theorem History.readable (h : History t log) (hcpus : t.config.cpus = 1) (hwritten : ∀ g ∈ log, g.words ≠ []) :
    t.view.readable = written 0 log ++ (surviving t.arena.usable (openings log)).flatMap (written · log) := by
  have hone := h.oneWriter (Or.inl hcpus)
  have hplacing : Placing t.arena 1 log := hcpus ▸ h.sized.cpus ▸ h.placed.placing.of_shape
  have hlaps : openings log ≤ t.arena.usable ∨ 2 ≤ t.arena.usable := by
    have := h.opened.two_le
    omega
  have hnewest : t.view.arena.newestFirst = recentFirst t.arena.usable (openings log) := h.opened.newestFirst_eq
  -- a filling is found in its block as long as the block was not taken again
  have hblock : ∀ i, i < openings log → i = 0 ∨ i ∈ surviving t.arena.usable (openings log) →
      (BlockCopy.ofView t.view (nthBlock t.arena.usable i)).words = written i log := by
    intro i hi hsurvives
    rw [h.copied_words hone hwritten (h.opened.nthBlock_lt_claimed hi),
      hplacing.sinceOpened_nthBlock hi fun j hij hj => nthBlock_ne_of_surviving hlaps hsurvives hij hj]
    rfl
  unfold LogView.readable
  rw [hnewest]
  cases hn : openings log with
  | zero =>
    rw [written, filling_of_le (Nat.le_of_eq hn)]
    rfl
  | succ n =>
    rw [hn] at hlaps hblock
    rw [recentFirst_succ hlaps, List.reverse_append, List.flatMap_append, ← List.map_reverse, List.reverse_reverse,
      List.flatMap_map]
    congr 1
    · have := hblock 0 (Nat.succ_pos n) (Or.inl rfl)
      simpa using this
    · exact List.flatMap_congr fun i hi => hblock i (mem_surviving_iff.mp hi).2.1 (Or.inr hi)

/-- The words written in a session are those of its fillings. -/
theorem History.flatMap_words (h : History t log) (u : Nat) :
    log.reverse.flatMap (·.words) =
      written 0 log ++ (overwritten u (openings log)).flatMap (written · log) ++
        (surviving u (openings log)).flatMap (written · log) := by
  have hfillings := h.placed.placing.of_shape.flatMap_filling
  rw [← hfillings, List.flatMap_assoc]
  rcases Nat.eq_zero_or_pos (openings log) with hn | hn
  · rw [written, filling_of_le (Nat.le_of_eq hn), hn]
    rfl
  · rw [range_eq_surviving u hn, List.flatMap_cons, List.flatMap_append, ← List.append_assoc]
    rfl

/-- Of what a tracer with one CPU writes, readers see the words of the first filling and of the surviving ones,
whole and in their order, and the count tells whether anything was lost. -/
theorem survivors (h : History t log) (hcpus : t.config.cpus = 1) (hwritten : ∀ g ∈ log, g.words ≠ []) :
    (∀ i, ∀ g ∈ filling i log, g.block = nthBlock t.arena.usable i) ∧
    ∃ first lost kept : List UInt64,
      first = written 0 log ∧
      lost = (overwritten t.arena.usable (openings log)).flatMap (written · log) ∧
      kept = (surviving t.arena.usable (openings log)).flatMap (written · log) ∧
      log.reverse.flatMap (·.words) = first ++ lost ++ kept ∧
      (List.range (first.length + kept.length)).reverse.map (fun i => (t.readWord i).1) = first ++ kept ∧
      t.snapshot.1.blocks.flatMap (·.words) = first ++ kept ∧
      (t.arena.wrapped = true ↔ t.arena.usable < openings log) ∧
      t.wordCount.1 =
        if t.arena.wrapped then ~~~ UInt64.ofNat (first.length + kept.length)
        else UInt64.ofNat (first.length + kept.length) := by
  have hplacing : Placing t.arena 1 log := hcpus ▸ h.sized.cpus ▸ h.placed.placing.of_shape
  have hreadable := h.readable hcpus hwritten
  have hcount : t.view.count = (written 0 log).length +
      ((surviving t.arena.usable (openings log)).flatMap (written · log)).length := by
    rw [← length_readable, hreadable, List.length_append]
  refine ⟨fun i g hg => hplacing.block_of_filling hg, _, _, _, rfl, rfl, rfl, h.flatMap_words _, ?_, ?_,
    h.opened.wrapped_iff, ?_⟩
  · rw [← hcount, ← hreadable, ← readable_eq]
    unfold Tracer.readWord
    dsimp only
    rw [t.off_same.2.2]
  · rw [← hreadable]
    unfold Tracer.snapshot Snapshot.ofView LogView.readable
    dsimp only
    rw [t.off_same.2.2, ← List.map_reverse, List.flatMap_map]
  · rw [← hcount]
    unfold Tracer.wordCount
    dsimp only
    rw [t.off_same.2.2, show t.off.arena = t.arena from congrArg LogView.arena t.off_same.2.2]

/-- The smallest ring: block 1 was taken again, and what was written to it before is lost. -/
theorem survivors_of_small_ring :
    ∃ (t : Tracer TimeOnly) (log : Ledger), History t log ∧ t.config.cpus = 1 ∧ (∀ g ∈ log, g.words ≠ []) ∧
      t.arena.usable = 2 ∧ openings log = 3 ∧ log.reverse.flatMap (·.words) = [1, 2, 3, 4, 4, 5] ∧
      (List.range 5).reverse.map (fun i => (t.readWord i).1) = [1, 2, 4, 4, 5] ∧
      t.snapshot.1.blocks.flatMap (·.words) = [1, 2, 4, 4, 5] ∧ t.arena.wrapped = true ∧ t.wordCount.1 = ~~~5 := by
  obtain ⟨t, log, hrun, hcpus, hwritten, husable, hopenings, hfirst, hlost, hkept⟩ :
      ∃ (t : Tracer TimeOnly) (log : Ledger), History t log ∧ t.config.cpus = 1 ∧ (∀ g ∈ log, g.words ≠ []) ∧
        t.arena.usable = 2 ∧ openings log = 3 ∧ written 0 log = [1, 2] ∧ written 1 log = [3] ∧
        written 2 log = [4, 4, 5] := by
    have hnew : History _ [] := .new (show Tracer.ofConfig ({} : TimeOnly) { blocks := 2 } = .ok _ from rfl)
    have hrun := (((((((hnew.act {} (.reset ⟨false, true⟩)).act {} (.insert 1 [])).act {} (.insert 2 [])).act {}
      (.execute .flush)).act {} (.insert 3 [])).act {} (.execute .flush)).act {} (.insert 4 [4])).act {} (.insert 5 [])
    exact ⟨_, _, hrun, by decide +kernel, fun g hg => (by revert g; decide +kernel), by decide +kernel,
      by decide +kernel, by decide +kernel, by decide +kernel, by decide +kernel⟩
  obtain ⟨-, _, _, _, rfl, rfl, rfl, hall, hread, hcopied, hwrapped, hcount⟩ := survivors hrun hcpus hwritten
  have hlost' : (overwritten t.arena.usable (openings log)).flatMap (written · log) = [3] := by
    rw [husable, hopenings, show overwritten 2 3 = [1] from rfl, List.flatMap_singleton, hlost]
  have hkept' : (surviving t.arena.usable (openings log)).flatMap (written · log) = [4, 4, 5] := by
    rw [husable, hopenings, show surviving 2 3 = [2] from rfl, List.flatMap_singleton, hkept]
  rw [hfirst, hkept'] at hread hcopied hcount
  rw [hfirst, hlost', hkept'] at hall
  have hlapped : t.arena.wrapped = true := hwrapped.mpr (by rw [husable, hopenings]; decide)
  rw [hlapped, if_pos rfl] at hcount
  exact ⟨t, log, hrun, hcpus, hwritten, husable, hopenings, hall, hread, hcopied, hlapped, hcount⟩

end History

end EventRecorder
