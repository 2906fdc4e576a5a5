import EventRecorder.Proofs.Ledger.Placement

/-! # Stacks of grants

The grants of a block since it was last opened form a stack as long as only one CPU writes to the block:
the first one starts behind the header, and every other one starts where the one before it stops. -/

namespace EventRecorder

open Ledger LogView Arena

variable {a : Arena} {cpus c i k : Nat} {g p : Grant} {l log : Ledger}

/-- The grants of a block, the latest first, lie on one another without gaps, and all are of one CPU. -/
inductive Stack (a : Arena) : List Grant → Prop
  | nil : Stack a []
  | one {g : Grant} : g.span.start = a.recordStart g.block → Stack a [g]
  | more {g p : Grant} {l : List Grant} : Stack a (p :: l) → g.block = p.block → g.cpu = p.cpu →
      g.span.start = p.span.stop → Stack a (g :: p :: l)

/-! ### What a stack covers -/

namespace Stack

theorem recordStart_le (h : Stack a (g :: l)) : a.recordStart g.block ≤ g.span.start := by
  induction l generalizing g with
  | nil =>
    cases h with
    | one hstart => exact Nat.le_of_eq hstart.symm
  | cons p l ih =>
    cases h with
    | more h hblock _ hstart =>
      rw [hblock, hstart]
      exact Nat.le_trans (ih h) p.span.start_le_stop

theorem stop_le (h : Stack a (g :: l)) : ∀ p ∈ l, p.span.stop ≤ g.span.start := by
  induction l generalizing g with
  | nil =>
    intro p hp
    cases hp
  | cons p l ih =>
    cases h with
    | more h _ _ hstart =>
      intro q hq
      rcases List.mem_cons.mp hq with rfl | hq
      · exact Nat.le_of_eq hstart.symm
      · rw [hstart]
        exact Nat.le_trans (ih h q hq) p.span.start_le_stop

theorem of_blocks {b : Arena} (h : Stack a l) (hb : b.blocks = a.blocks) : Stack b l := by
  induction h with
  | nil => exact .nil
  | one hstart =>
    rw [← recordStart_congr hb] at hstart
    exact .one hstart
  | more _ hblock hcpu hstart ih => exact .more ih hblock hcpu hstart

theorem tail (h : Stack a (g :: l)) : Stack a l := by
  cases h with
  | one _ => exact .nil
  | more h _ _ _ => exact h

theorem pairwise (h : Stack a l) : l.Pairwise fun g p => p.span.stop ≤ g.span.start := by
  induction l with
  | nil => exact .nil
  | cons g l ih => exact List.pairwise_cons.mpr ⟨h.stop_le, ih h.tail⟩

theorem same_cpu (h : Stack a (g :: l)) : ∀ p ∈ g :: l, p.cpu = g.cpu := by
  induction l generalizing g with
  | nil =>
    intro p hp
    rw [List.mem_singleton.mp hp]
  | cons p l ih =>
    cases h with
    | more h _ hcpu _ =>
      intro q hq
      rcases List.mem_cons.mp hq with rfl | hq
      · rfl
      · rw [hcpu]
        exact ih h q hq

/-- A stack covers all words from behind the header up to the end of its latest grant. -/
theorem covers (h : Stack a (g :: l)) :
    (∃ p ∈ g :: l, p.span.start ≤ i ∧ i < p.span.stop) ↔ a.recordStart g.block ≤ i ∧ i < g.span.stop := by
  induction l generalizing g with
  | nil =>
    cases h with
    | one hstart => simp [hstart]
  | cons p l ih =>
    cases h with
    | more h hblock _ hstart =>
      have hle := h.recordStart_le
      have hp := p.span.start_le_stop
      have hg := g.span.start_le_stop
      have hbelow := ih h
      rw [hblock]
      constructor
      · rintro ⟨q, hq, hi⟩
        rcases List.mem_cons.mp hq with rfl | hq
        · omega
        · have := hbelow.mp ⟨q, hq, hi⟩
          omega
      · rintro ⟨hi, hi'⟩
        rcases Nat.lt_or_ge i g.span.start with hlt | hge
        · obtain ⟨q, hq, hiq⟩ := hbelow.mpr ⟨hi, by omega⟩
          exact ⟨q, List.mem_cons_of_mem _ hq, hiq⟩
        · exact ⟨g, List.mem_cons_self, hge, hi'⟩

theorem sum_len (h : Stack a (g :: l)) :
    a.recordStart g.block + ((g :: l).map fun p => p.span.len).sum = g.span.stop := by
  induction l generalizing g with
  | nil =>
    cases h with
    | one hstart =>
      rw [← hstart]
      simp [Span.stop]
  | cons p l ih =>
    cases h with
    | more h hblock _ hstart =>
      have hsum := ih h
      rw [List.map_cons, List.sum_cons, hblock, Span.stop, hstart]
      omega

end Stack

/-! ### Stacks grow -/

/-- A grant behind the top of its block's stack goes on top of it. -/
theorem Stack.extend (h : ∀ k, Stack a (sinceOpened k log)) (hp : (sinceOpened p.block log).head? = some p)
    (hfresh : g.fresh = false) (hblock : g.block = p.block) (hcpu : g.cpu = p.cpu)
    (hstart : g.span.start = p.span.stop) (k : Nat) : Stack a (sinceOpened k (g :: log)) := by
  by_cases hk : g.block = k
  · subst hk
    have hstack := h p.block
    rw [sinceOpened_of_not_fresh rfl hfresh, hblock]
    cases hl : sinceOpened p.block log with
    | nil =>
      rw [hl] at hp
      cases hp
    | cons q l =>
      rw [hl] at hp hstack
      obtain rfl := Option.some.inj hp
      exact .more hstack hblock hcpu hstart
  · rw [sinceOpened_of_ne hk]
    exact h k

theorem Stack.take (h : ∀ k, Stack a (sinceOpened k log)) (hfresh : g.fresh = true)
    (hstart : g.span.start = a.recordStart g.block) (k : Nat) : Stack a (sinceOpened k (g :: log)) := by
  by_cases hk : g.block = k
  · subst hk
    rw [sinceOpened_of_fresh rfl hfresh]
    exact .one hstart
  · rw [sinceOpened_of_ne hk]
    exact h k

/-! ### Blocks of one writer -/

/-- No block has had more than one writer: there is but one CPU, or no block has been opened twice. -/
def OneWriter (a : Arena) (cpus : Nat) (log : Ledger) : Prop := cpus = 1 ∨ openings log ≤ a.usable

theorem OneWriter.tail (h : OneWriter a cpus (g :: log)) : OneWriter a cpus log :=
  h.imp id fun h => Nat.le_trans (openings_le_cons g log) h

theorem OneWriter.of_same {b : Arena} {n : Nat} (h : OneWriter b n log) (hb : b.blocks = a.blocks)
    (hl : b.limit = a.limit) (hn : n = cpus) : OneWriter a cpus log := by
  unfold OneWriter at *
  rwa [hn, usable_congr hb hl] at h

theorem OneWriter.of_step {m : Mode} {x y : LogView × Ledger} (hs : Step m x y)
    (h : OneWriter y.1.arena y.1.cursors.size (shape y.2)) : OneWriter x.1.arena x.1.cursors.size (shape x.2) := by
  obtain ⟨hblocks, hlimit, hcpus⟩ := hs.same_layout
  refine (h.of_same hblocks hlimit hcpus).imp id fun h => ?_
  rw [openings_shape] at h ⊢
  exact Nat.le_trans hs.openings_le h

/-- A block of one writer is topped by the latest grant of the CPU that is in it. -/
theorem Placing.head_of_latest (h : Placing a cpus log) (hone : OneWriter a cpus log) (hp : latest? c log = some p) :
    (sinceOpened p.block log).head? = some p := by
  induction h generalizing c p with
  | nil => cases hp
  | @fresh g log hlog hf hc hblock hlt hstart hlen hstop ih =>
    obtain ⟨-, rfl⟩ | ⟨hcpu, hp⟩ := latest?_cons_inv hp
    · exact head?_sinceOpened_cons rfl
    · have hin := hlog.inside p (mem_of_latest? hp)
      -- either there is no other CPU, or the block just opened is not one of the earlier openings
      have hne : g.block ≠ p.block := by
        rcases hone with hone | hone
        · have := hin.cpu
          have := cpu_of_latest? hp
          omega
        · rw [openings_of_fresh hf] at hone
          obtain ⟨i, hi, heq⟩ := hin.opened
          rw [nthBlock_of_lt (by omega)] at heq hblock
          omega
      rw [sinceOpened_of_ne hne]
      exact ih hone.tail hp
  | @next g q log hlog hf hq hblock hstart hlen hstop ih =>
    obtain ⟨-, rfl⟩ | ⟨hcpu, hp⟩ := latest?_cons_inv hp
    · exact head?_sinceOpened_cons rfl
    · have hne : g.block ≠ p.block := by
        intro heq
        have hpq : some p = some q := by
          rw [← ih hone.tail hp, ← ih hone.tail hq, ← hblock, heq]
        obtain rfl := Option.some.inj hpq
        exact hcpu ((cpu_of_latest? hq).symm.trans (cpu_of_latest? hp))
      rw [sinceOpened_of_ne hne]
      exact ih hone.tail hp

/-- No two CPUs are in the same block of one writer. -/
theorem Placing.block_ne_of_latest {d : Nat} (h : Placing a cpus log) (hone : OneWriter a cpus log)
    (hp : latest? c log = some p) (hg : latest? d log = some g) (hne : c ≠ d) : p.block ≠ g.block := by
  intro heq
  have hhead := h.head_of_latest hone hp
  rw [heq, h.head_of_latest hone hg] at hhead
  obtain rfl := Option.some.inj hhead
  exact hne ((cpu_of_latest? hp).symm.trans (cpu_of_latest? hg))

/-- The grants of every block of one writer form a stack. -/
theorem Placing.stack (h : Placing a cpus log) (hone : OneWriter a cpus log) (k : Nat) :
    Stack a (sinceOpened k log) := by
  induction h generalizing k with
  | nil => exact .nil
  | fresh _ hf _ _ _ hstart _ _ ih => exact Stack.take (ih hone.tail) hf hstart k
  | next hlog hf hp hblock hstart _ _ ih =>
    exact Stack.extend (ih hone.tail) (hlog.head_of_latest hone.tail hp) hf hblock (cpu_of_latest? hp).symm hstart k

end EventRecorder
