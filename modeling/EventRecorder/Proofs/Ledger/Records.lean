import EventRecorder.Proofs.Ledger.Contents
import EventRecorder.Proofs.Record.Head
import Mathlib.Data.List.Basic

/-! # Records read back

In a session that has not wrapped every block was opened once, and each CPU filled its blocks in the order
of their numbers. Readers that go through the blocks in this order find all records of a CPU as they were
inserted. -/

namespace EventRecorder

open Ledger LogView Arena

variable {P : Type} {a : Arena} {cpus c k n : Nat} {g p : Grant} {log : Ledger}

/-! ### Lists -/

theorem filter_append_of_pairwise {α : Type} {f : α → Nat} {l : List α} (hs : l.Pairwise fun x y => f x ≤ f y)
    (hn : ∀ x ∈ l, f x < n + 1) : l.filter (f · < n) ++ l.filter (f · == n) = l := by
  induction l with
  | nil => rfl
  | cons x l ih =>
    obtain ⟨hx, hs⟩ := List.pairwise_cons.mp hs
    have ih := ih hs fun y hy => hn y (List.mem_cons_of_mem _ hy)
    rcases Nat.lt_or_ge (f x) n with hlt | hge
    · rw [List.filter_cons_of_pos (by simpa using hlt), List.filter_cons_of_neg (by simp; omega), List.cons_append, ih]
    · have hlast : ∀ y ∈ x :: l, f y = n := by
        intro y hy
        have := hn y hy
        rcases List.mem_cons.mp hy with rfl | hy
        · omega
        · have := hx y hy
          omega
      rw [List.filter_eq_nil_iff.mpr fun y hy => by simp [hlast y hy],
        List.filter_eq_self.mpr fun y hy => by simp [hlast y hy], List.nil_append]

/-- A list that ascends in a number is its parts of equal numbers, put together in their order. -/
theorem flatMap_range_filter {α : Type} {f : α → Nat} {l : List α} (hs : l.Pairwise fun x y => f x ≤ f y)
    (hn : ∀ x ∈ l, f x < n) : (List.range n).flatMap (fun k => l.filter (f · == k)) = l := by
  induction n generalizing l with
  | zero =>
    cases l with
    | nil => rfl
    | cons x l => exact absurd (hn x List.mem_cons_self) (Nat.not_lt_zero _)
  | succ n ih =>
    have hbelow : ∀ k ∈ List.range n, l.filter (f · == k) = (l.filter (f · < n)).filter (f · == k) := by
      intro k hk
      rw [List.mem_range] at hk
      rw [List.filter_filter]
      refine List.filter_congr fun x _ => ?_
      by_cases hx : f x = k
      · simp [hx, hk]
      · simp [hx]
    rw [List.range_succ, List.flatMap_append, List.flatMap_singleton, List.flatMap_congr hbelow,
      ih (hs.filter _) fun x hx => by simpa using (List.mem_filter.mp hx).2]
    exact filter_append_of_pairwise hs hn

theorem flatMap_filter_eq {α β : Type} {r : α → Bool} {f h : α → List β} {l : List α}
    (hpos : ∀ x ∈ l, r x = true → f x = h x) (hneg : ∀ x ∈ l, r x = false → h x = []) :
    (l.filter r).flatMap f = l.flatMap h := by
  induction l with
  | nil => rfl
  | cons x l ih =>
    have ih := ih (fun y hy => hpos y (List.mem_cons_of_mem _ hy)) fun y hy => hneg y (List.mem_cons_of_mem _ hy)
    cases hx : r x
    · rw [List.filter_cons_of_neg (Bool.eq_false_iff.mp hx), ih, List.flatMap_cons, hneg x List.mem_cons_self hx,
        List.nil_append]
    · rw [List.filter_cons_of_pos hx, List.flatMap_cons, ih, List.flatMap_cons, hpos x List.mem_cons_self hx]

/-! ### Blocks opened once -/

namespace Placing

theorem block_lt (h : Placing a cpus log) (hle : openings log ≤ a.usable) : ∀ g ∈ log, g.block < openings log := by
  intro g hg
  obtain ⟨i, hi, hblock⟩ := (h.inside g hg).opened
  rw [nthBlock_of_lt (by omega)] at hblock
  omega

/-- The grants of a block that was opened once are all since it was last opened. -/
theorem sinceOpened_eq_filter (h : Placing a cpus log) (hle : openings log ≤ a.usable) (k : Nat) :
    sinceOpened k log = log.filter (·.block == k) := by
  induction h with
  | nil => rfl
  | @fresh g log hlog hf hc hblock hlt hstart hlen hstop ih =>
    rw [openings_of_fresh hf] at hle
    rw [nthBlock_of_lt (by omega)] at hblock
    by_cases hk : g.block = k
    · have hnone : log.filter (·.block == k) = [] := by
        refine List.filter_eq_nil_iff.mpr fun p hp => ?_
        have := hlog.block_lt (by omega) p hp
        simp only [beq_iff_eq]
        omega
      rw [sinceOpened_of_fresh hk hf, List.filter_cons_of_pos (by simpa using hk), hnone]
    · rw [sinceOpened_of_ne hk, List.filter_cons_of_neg (by simpa using hk), ih (by omega)]
  | @next g p log hlog hf hp hblock hstart hlen hstop ih =>
    rw [openings_of_not_fresh hf] at hle
    by_cases hk : g.block = k
    · rw [sinceOpened_of_not_fresh hk hf, List.filter_cons_of_pos (by simpa using hk), ih hle]
    · rw [sinceOpened_of_ne hk, List.filter_cons_of_neg (by simpa using hk), ih hle]

/-- The latest grant of a CPU comes before all its others. -/
theorem filter_of_latest (hp : latest? c log = some p) : ∃ l, log.filter (·.cpu == c) = p :: l := by
  rw [← List.head?_eq_some_iff, List.head?_filter]
  exact hp

/-- A CPU gets blocks of ever higher numbers. -/
theorem ascends (h : Placing a cpus log) (hle : openings log ≤ a.usable) (c : Nat) :
    (log.filter (·.cpu == c)).Pairwise fun g p => p.block ≤ g.block := by
  induction h with
  | nil => exact .nil
  | @fresh g log hlog hf hc hblock hlt hstart hlen hstop ih =>
    rw [openings_of_fresh hf] at hle
    rw [nthBlock_of_lt (by omega)] at hblock
    have ih := ih (by omega)
    by_cases hcpu : g.cpu = c
    · rw [List.filter_cons_of_pos (by simpa using hcpu)]
      refine List.pairwise_cons.mpr ⟨fun p hp => ?_, ih⟩
      have := hlog.block_lt (by omega) p (List.mem_of_mem_filter hp)
      omega
    · rw [List.filter_cons_of_neg (by simpa using hcpu)]
      exact ih
  | @next g p log hlog hf hp hblock hstart hlen hstop ih =>
    rw [openings_of_not_fresh hf] at hle
    have ih := ih hle
    by_cases hcpu : g.cpu = c
    · rw [List.filter_cons_of_pos (by simpa using hcpu)]
      subst hcpu
      -- the new grant is in the block of the latest one, which comes first among the others
      obtain ⟨l, hl⟩ := filter_of_latest hp
      rw [hl] at ih ⊢
      obtain ⟨hfirst, -⟩ := List.pairwise_cons.mp ih
      refine List.pairwise_cons.mpr ⟨fun q hq => ?_, ih⟩
      rw [hblock]
      rcases List.mem_cons.mp hq with rfl | hq
      · exact Nat.le_refl _
      · exact hfirst q hq
    · rw [List.filter_cons_of_neg (by simpa using hcpu)]
      exact ih

end Placing

/-! ### Records -/

/-- One record was written, as long as its first word announces. A zero word would start no record. -/
def Grant.isRecord (g : Grant) : Bool :=
  match g.words with
  | [] => false
  | first :: payload => first != 0 && Head.recordLength first == payload.length + 1

theorem Grant.exists_of_isRecord (h : g.isRecord = true) :
    ∃ first payload, g.words = first :: payload ∧ first ≠ 0 ∧ Head.recordLength first = payload.length + 1 := by
  unfold isRecord at h
  cases hw : g.words with
  | nil =>
    rw [hw] at h
    cases h
  | cons first payload =>
    simp only [hw, Bool.and_eq_true, bne_iff_ne, beq_iff_eq] at h
    exact ⟨first, payload, rfl, h.1, h.2⟩

/-- Records that were written one after another are told apart again. -/
theorem map_words_split {gs : List Grant} (h : ∀ g ∈ gs, g.isRecord = true) (rates : List UInt8) :
    (Record.split (gs.flatMap (·.words)) rates).map Record.words = gs.map (·.words) := by
  induction gs generalizing rates with
  | nil =>
    rw [List.flatMap_nil, Record.split]
    rfl
  | cons g gs ih =>
    obtain ⟨first, payload, hwords, hne, hlen⟩ := Grant.exists_of_isRecord (h g List.mem_cons_self)
    have hextra : Head.recordLength first - 1 = payload.length := by omega
    rw [List.flatMap_cons, hwords, List.cons_append, Record.split, if_neg hne]
    dsimp only
    rw [hextra, List.take_left, List.drop_left, List.map_cons, ih fun p hp => h p (List.mem_cons_of_mem _ hp),
      List.map_cons, hwords]
    rfl

/-- A record of the length that it announces is written as it is given. -/
theorem announced_of_length {first : UInt64} {rest : List UInt64} (h : Head.recordLength first = rest.length + 1) :
    announced (first :: rest) = (first, rest) := by
  have hrest : (List.range rest.length).map (rest.getD · 0) = rest := by
    refine List.ext_getElem (by simp) fun i hi hi' => ?_
    rw [List.getElem_map, List.getElem_range, List.getD_eq_getElem?_getD, List.getElem?_eq_getElem hi', Option.getD_some]
  unfold announced
  rw [List.headD_cons, List.tail_cons, h, Nat.add_sub_cancel, hrest]

section History
variable [Platform P] {t : Tracer P}

/-- An event of several words is written with all of them, the first one with the event code added. -/
theorem record?_traceWords (t : Tracer P) {event first : UInt64} {rest : List UInt64} (hbase : Event.IsBase event)
    (hfirst : Head.eventField.get first = 0) (hlen : Event.isValidLength (rest.length + 1) = true) :
    t.record? (.traceWords event (first :: rest)) =
      some (first ||| Head.eventField.place (Event.withLength event (rest.length + 1)), rest) := by
  unfold Tracer.record?
  dsimp only
  rw [List.modifyHead_cons, List.length_cons, announced_of_length]
  rw [Head.recordLength_or_place hfirst (Event.toNat_withLength_lt ..), Event.length_withLength hbase hlen]

theorem record?_traceName (t : Tracer P) (pid : UInt32) (name : TaskName) :
    t.record? (.traceName pid name) =
      some (Head.callWord Event.processNameRecord (Head.argField.get pid.toUInt64),
        [name.toWords.1, name.toWords.2]) := by
  unfold Tracer.record?
  dsimp only
  rw [announced_of_length]
  rw [Head.recordLength_callWord (by decide)]
  exact show Event.length Event.processNameRecord = 3 by decide

/-- In a session that has not wrapped a snapshot lists the blocks by their numbers. -/
theorem History.copied_blocks (h : History t log) (hwrapped : t.arena.wrapped = false) :
    t.snapshot.1.blocks = (List.range (openings log)).map (BlockCopy.ofView t.view) := by
  have hnewest : t.view.arena.newestFirst = (List.range (openings log)).reverse :=
    h.opened.newestFirst_eq.trans (recentFirst_of_le (h.openings_le hwrapped))
  unfold Tracer.snapshot Snapshot.ofView
  dsimp only
  rw [t.off_same.2.2, hnewest, List.map_reverse, List.reverse_reverse]

/-- The records that readers find in a block are those written to its grants. -/
theorem History.copied_records (h : History t log) (hwrapped : t.arena.wrapped = false)
    (hrecords : ∀ g ∈ log, g.isRecord = true) (hk : k < openings log) :
    (BlockCopy.ofView t.view k).records.map Record.words =
      (log.reverse.filter (·.block == k)).map (·.words) := by
  have hle := h.openings_le hwrapped
  have hone := h.oneWriter (Or.inr hwrapped)
  have hwritten : ∀ g ∈ log, g.words ≠ [] := by
    intro g hg hnil
    obtain ⟨first, payload, hwords, -⟩ := Grant.exists_of_isRecord (hrecords g hg)
    rw [hnil] at hwords
    cases hwords
  have hclaimed : k < t.arena.claimed := by
    rw [h.opened.claimed_eq]
    omega
  have hgrants := h.placed.placing.of_shape.sinceOpened_eq_filter hle k
  unfold BlockCopy.records
  rw [h.copied_words hone hwritten hclaimed, hgrants, ← List.filter_reverse]
  exact map_words_split (fun g hg => hrecords g (List.mem_reverse.mp (List.mem_of_mem_filter hg))) _

/-- The header of a block tells whether its grants are those of a CPU. -/
theorem History.filter_cpu (h : History t log) (hwrapped : t.arena.wrapped = false) (k : Nat) (c : UInt8) :
    (log.reverse.filter (·.cpu == c.toNat)).filter (·.block == k) =
      if (t.arena.header k).cpu == c then log.reverse.filter (·.block == k) else [] := by
  have hcpu : ∀ g ∈ log.reverse.filter (·.block == k), g.cpu = (t.arena.header k).cpu.toNat := by
    intro g hg
    refine h.cpu_of_block (h.oneWriter (Or.inr hwrapped)) ?_
    rw [h.placed.placing.of_shape.sinceOpened_eq_filter (h.openings_le hwrapped)]
    rw [List.filter_reverse] at hg
    exact List.mem_reverse.mp hg
  rw [List.filter_comm]
  split
  · rename_i heq
    refine List.filter_eq_self.mpr fun g hg => ?_
    rw [hcpu g hg, beq_iff_eq.mp heq, beq_iff_eq]
  · rename_i hne
    refine List.filter_eq_nil_iff.mpr fun g hg heq => hne ?_
    rw [hcpu g hg, beq_iff_eq] at heq
    exact beq_iff_eq.mpr (UInt8.toNat_inj.mp heq)

/-- In a session that has not wrapped, readers find all records of a CPU as they were inserted. -/
theorem History.recordsOf_snapshot (h : History t log) (hwrapped : t.arena.wrapped = false)
    (hrecords : ∀ g ∈ log, g.isRecord = true) (c : UInt8) :
    (t.snapshot.1.recordsOf c).map Record.words = (log.reverse.filter (·.cpu == c.toNat)).map (·.words) := by
  have hplacing := h.placed.placing.of_shape
  have hle := h.openings_le hwrapped
  have hsorted : (log.reverse.filter (·.cpu == c.toNat)).Pairwise fun g p => g.block ≤ p.block := by
    rw [List.filter_reverse]
    exact List.pairwise_reverse.mpr (hplacing.ascends hle _)
  have hbelow : ∀ g ∈ log.reverse.filter (·.cpu == c.toNat), g.block < openings log := fun g hg =>
    hplacing.block_lt hle g (List.mem_reverse.mp (List.mem_of_mem_filter hg))
  unfold Snapshot.recordsOf
  rw [h.copied_blocks hwrapped, List.filter_map, List.flatMap_map, List.map_flatMap,
    ← flatMap_range_filter hsorted hbelow, List.map_flatMap]
  refine flatMap_filter_eq (fun k hk hc => ?_) fun k hk hc => ?_
  · rw [List.mem_range] at hk
    replace hc : ((t.arena.header k).cpu == c) = true := hc
    rw [h.copied_records hwrapped hrecords hk, h.filter_cpu hwrapped, hc, if_pos rfl]
  · replace hc : ((t.arena.header k).cpu == c) = false := hc
    rw [h.filter_cpu hwrapped, hc, if_neg Bool.false_ne_true]
    rfl

/-- In a session that has not wrapped, readers find the records that each CPU wrote, whole and in their order. The
records of the hooks are those of their arguments: an event of several words comes with all of them, the first
one with the code and the length added, and the name of a process with its sixteen bytes. -/
theorem records_read_back (h : History t log) (hwrapped : t.arena.wrapped = false)
    (hrecords : ∀ g ∈ log, g.isRecord = true) :
    (∀ c : UInt8,
      (t.snapshot.1.recordsOf c).map Record.words = (log.reverse.filter (·.cpu == c.toNat)).map (·.words)) ∧
    (∀ (event first : UInt64) (rest : List UInt64), Event.IsBase event → Head.eventField.get first = 0 →
      Event.isValidLength (rest.length + 1) = true →
      t.record? (.traceWords event (first :: rest)) =
        some (first ||| Head.eventField.place (Event.withLength event (rest.length + 1)), rest)) ∧
    ∀ (pid : UInt32) (name : TaskName), t.record? (.traceName pid name) =
      some (Head.callWord Event.processNameRecord (Head.argField.get pid.toUInt64),
        [name.toWords.1, name.toWords.2]) :=
  ⟨h.recordsOf_snapshot hwrapped hrecords, fun _ _ _ hbase hfirst hlen => record?_traceWords t hbase hfirst hlen,
    record?_traceName t⟩

/-- Two CPUs insert records by turns. -/
theorem records_read_back_of_two_cpus :
    ∃ (t : Tracer TimeOnly) (log : Ledger), History t log ∧ t.arena.wrapped = false ∧
      (∀ g ∈ log, g.isRecord = true) ∧
      log.map (fun g => (g.cpu, g.words)) =
        [(0, [0x0000902000000000, 7]), (1, [0x0000820a00000000]), (0, [0x0000702000000005, 0])] ∧
      (∀ c : UInt8,
        (t.snapshot.1.recordsOf c).map Record.words = (log.reverse.filter (·.cpu == c.toNat)).map (·.words)) ∧
      t.record? (.traceWords 0x002 [5, 6, 7]) =
        some (5 ||| Head.eventField.place (Event.withLength 0x002 3), [6, 7]) := by
  have hnew : History _ [] := .new (show Tracer.ofConfig ({} : TimeOnly) { blocks := 2, cpus := 2 } = .ok _ from rfl)
  have hrun := ((hnew.act { time := 7 } (.insertMany [0x0000002000000005])).act { time := 8, cpu := 1 }
    (.insert 0x0000020a00000000 [])).act { time := 9 } (.insert 0x0000002000000000 [7])
  have hread := records_read_back hrun (by decide +kernel) fun g hg => (by revert g; decide +kernel)
  exact ⟨_, _, hrun, by decide +kernel, fun g hg => (by revert g; decide +kernel), by decide +kernel, hread.1,
    hread.2.1 0x002 5 [6, 7] (Or.inl (by decide)) (by decide) (by decide)⟩

end History

end EventRecorder
