import EventRecorder.Platform.TimeOnly
import EventRecorder.Proofs.Ledger.Overlaps
import EventRecorder.Proofs.Ledger.Stacks

/-! # Blocks with two writers

A session that wraps starts over at block 1 whatever the other CPUs do. A block may so be taken off the
frontier while another CPU can still write to it. This file tells when that happens, and that grants
cannot overlap before it has. -/

namespace EventRecorder

open Ledger LogView Arena

variable {P : Type} {a : Arena} {cpus c i k n : Nat} {g p : Grant} {log : Ledger} {m : Mode} {v w : LogView}

namespace Ledger

/-- How many blocks had been opened when a CPU got the block that it was in last. -/
def openingOf (cpu : Nat) : (log : Ledger) → Option Nat
  | [] => none
  | g :: log => if g.cpu = cpu ∧ g.fresh = true then some (openings log) else openingOf cpu log

theorem openingOf_shape (cpu : Nat) (log : Ledger) : openingOf cpu (shape log) = openingOf cpu log := by
  induction log with
  | nil => rfl
  | cons g log ih =>
    rw [shape_cons]
    unfold openingOf
    rw [openings_shape, ih]
    rfl

end Ledger

/-- The number of the opening gives the block that a CPU is in. -/
theorem Placing.openingOf (h : Placing a cpus log) (hp : latest? c log = some p) :
    ∃ i, Ledger.openingOf c log = some i ∧ i < openings log ∧ nthBlock a.usable i = p.block := by
  induction h generalizing p with
  | nil => cases hp
  | @fresh g log _ hf _ hblock _ _ _ _ ih =>
    rw [openings_of_fresh hf]
    unfold Ledger.openingOf
    obtain ⟨hcpu, rfl⟩ | ⟨hcpu, hp⟩ := latest?_cons_inv hp
    · exact ⟨openings log, if_pos ⟨hcpu, hf⟩, Nat.lt_succ_self _, hblock.symm⟩
    · obtain ⟨i, hi, hlt, heq⟩ := ih hp
      exact ⟨i, (if_neg fun hc => hcpu hc.1).trans hi, Nat.lt_succ_of_lt hlt, heq⟩
  | @next g q log _ hf hq hblock _ _ _ ih =>
    rw [openings_of_not_fresh hf]
    unfold Ledger.openingOf
    rw [if_neg fun hc => Bool.false_ne_true (hf.symm.trans hc.2)]
    obtain ⟨rfl, rfl⟩ | ⟨hcpu, hp⟩ := latest?_cons_inv hp
    · rw [hblock]
      exact ih hq
    · exact ih hp

/-! ### Blocks still in use -/

/-- A CPU with room is in the block to be taken next just when it got its own whole laps ago. -/
theorem Placed.limit_eq_iff (h : Placed m v (shape log)) (hroom : (v.cursor c).hasRoom = true)
    (hlt : nthBlock v.arena.usable (openings log) < v.arena.usable) :
    (v.cursor c).limit = v.arena.blockStop (nthBlock v.arena.usable (openings log)) ↔
      ∃ i, openingOf c log = some i ∧ 0 < i ∧ v.arena.usable - 1 ∣ openings log - i := by
  obtain ⟨p, hp, -, hstop, hin⟩ := h.latest_of_hasRoom hroom
  obtain ⟨i, hi, hbefore, heq⟩ := h.placing.openingOf hp
  rw [openingOf_shape] at hi
  rw [openings_shape] at hbefore
  have hlap : nthBlock v.arena.usable i = nthBlock v.arena.usable (openings log) ↔
      0 < i ∧ v.arena.usable - 1 ∣ openings log - i := by
    refine nthBlock_eq_iff ?_ hbefore
    have htwo := h.opened.two_le
    rw [openings_shape] at htwo
    have hpos := nthBlock_pos (u := v.arena.usable) (n := openings log) (by omega)
    omega
  have hblock : (v.cursor c).limit = v.arena.blockStop (nthBlock v.arena.usable (openings log)) ↔
      nthBlock v.arena.usable i = nthBlock v.arena.usable (openings log) := by
    rw [hstop, heq]
    exact ⟨blockStop_inj (h.opened.lt_blocks hin.block) (h.opened.lt_blocks hlt), congrArg _⟩
  rw [hblock, hlap, hi]
  simp

/-! ### Blocks used up before they are taken -/

/-- Blocks were opened only when at most `n` words of them were left to other CPUs. -/
def Spent (n : Nat) (log : Ledger) : Prop := ∀ g ∈ log, g.unspent ≤ n

instance : Decidable (Spent n log) := inferInstanceAs (Decidable (∀ g ∈ log, g.unspent ≤ n))

theorem spent_shape : Spent n (shape log) ↔ Spent n log := by
  unfold Spent shape
  rw [List.forall_mem_map]
  rfl

theorem Spent.of_book {o : Outcome} {words : List UInt64} (h : Spent n (v.book o words log)) : Spent n log := by
  cases o with
  | dropped => exact h
  | written cpu s => exact fun g hg => h g (List.mem_cons_of_mem _ hg)
  | merged cpu i =>
    unfold LogView.book at h
    dsimp only at h
    rwa [← spent_shape, shape_amendLatest, spent_shape] at h

/-- Every CPU that has more than `n` words of its block left is the last that got words of it. -/
def Sole (n : Nat) (v : LogView) (log : Ledger) : Prop :=
  ∀ c p, latest? c log = some p → (v.cursor c).fits n = true → (sinceOpened p.block log).head? = some p

/-- The latest grant of a CPU with room tops its block. -/
theorem Sole.head (h : Sole 0 v (shape log)) (hlatest : latest? c log = some p)
    (hroom : (v.cursor c).hasRoom = true) : (sinceOpened p.block log).head? = some p := by
  have hlatest' : latest? c (shape log) = some p.bare := by
    rw [latest?_shape, hlatest]
    rfl
  exact head_of_latest_of_shape hlatest (h c _ hlatest' hroom)

theorem Sole.of_fits (h : Sole n v log) (hfits : ∀ c, (w.cursor c).fits n = true → (v.cursor c).fits n = true) :
    Sole n w log := fun c p hc hr => h c p hc (hfits c hr)

theorem Sole.of_left {i l : Nat} (h : Sole n v log) (hw : Moved v w c i l) (hi : l ≤ i) : Sole n w log := by
  refine h.of_fits fun d hd => ?_
  by_cases hdc : d = c
  · have hroom := Cursor.hasRoom_of_fits hd
    rw [hdc, hw.hasRoom_iff] at hroom
    omega
  · exact hw.fits_of_ne hdc ▸ hd

/-- A grant to one CPU keeps every other CPU on top if its words are not from a block that another can write to. -/
theorem Sole.cons (h : Sole n v log) (hfits : ∀ d, g.cpu ≠ d → (w.cursor d).fits n = (v.cursor d).fits n)
    (hne : ∀ d q, g.cpu ≠ d → latest? d log = some q → (v.cursor d).fits n = true → g.block ≠ q.block) :
    Sole n w (g :: log) := by
  intro d q hq hd
  obtain ⟨-, rfl⟩ | ⟨hcpu, hq⟩ := latest?_cons_inv hq
  · exact head?_sinceOpened_cons rfl
  · rw [hfits d hcpu] at hd
    rw [sinceOpened_of_ne (hne d q hcpu hq hd)]
    exact h d q hq hd

theorem Sole.extended (h : Sole n v (shape log)) (hn : n ≤ 1) (he : Extended v w log p g) :
    Sole n w (shape (g :: log)) := by
  have hhead := h g.cpu p he.latest (Cursor.fits_of_le he.room hn)
  rw [shape_cons]
  refine h.cons (fun d hd => he.moved.fits_of_ne (Ne.symm hd)) fun d q hd hq hfits heq => ?_
  have htop : (sinceOpened p.block (shape log)).head? = some q := (heq.symm.trans he.block) ▸ h d q hq hfits
  obtain rfl := Option.some.inj (hhead.symm.trans htop)
  exact hd ((cpu_of_latest? he.latest).symm.trans (cpu_of_latest? hq))

theorem Sole.took {o : Opening} {header : Header} {task : Task} (h : Sole n v (shape log))
    (hp : Placed m v (shape log)) (ht : Took v w log g o a header task) (hg : g.unspent ≤ n) :
    Sole n w (shape (g :: log)) := by
  rw [shape_cons]
  refine h.cons (fun d hd => ht.moved.fits_of_ne (Ne.symm hd)) fun d q hd hq hfits heq => ?_
  have hleft : n < v.unspent g.cpu g.block :=
    LogView.lt_unspent_iff.mpr ⟨d, cpu_of_latest? hq ▸ (hp.placing.inside q (mem_of_latest? hq)).cpu, Ne.symm hd,
      heq ▸ hp.limit_of d q hq, hfits⟩
  rw [ht.unspent] at hg
  omega

/-- The grants of every block are a stack, with every CPU that has more than `n` words of its block left on top. -/
structure Stacked (n : Nat) (v : LogView) (log : Ledger) : Prop where
  sole : Sole n v log
  stack : ∀ k, Stack v.arena (sinceOpened k log)

namespace Stacked

theorem of_stayed (h : Stacked n v log) (hb : w.arena.blocks = v.arena.blocks) (hw : Stayed v w) : Stacked n w log :=
  ⟨h.sole.of_fits fun c hc => hw.fits c n ▸ hc, fun k => (h.stack k).of_blocks hb⟩

theorem of_left {i l : Nat} (h : Stacked n v log) (hb : w.arena.blocks = v.arena.blocks) (hw : Moved v w c i l)
    (hi : l ≤ i) : Stacked n w log :=
  ⟨h.sole.of_left hw hi, fun k => (h.stack k).of_blocks hb⟩

theorem extended (h : Stacked n v (shape log)) (hn : n ≤ 1) (he : Extended v w log p g) :
    Stacked n w (shape (g :: log)) := by
  have hhead := h.sole _ _ he.latest (Cursor.fits_of_le he.room hn)
  exact ⟨h.sole.extended hn he, fun k => (Stack.extend (g := g.bare) h.stack hhead he.fresh he.block
    (cpu_of_latest? he.latest).symm he.start k).of_blocks he.sameFrontier.blocks⟩

theorem took {o : Opening} {header : Header} {task : Task} (h : Stacked n v (shape log)) (hp : Placed m v (shape log))
    (ht : Took v w log g o a header task) (hg : g.unspent ≤ n) : Stacked n w (shape (g :: log)) :=
  ⟨h.sole.took hp ht hg, fun k => (Stack.take (g := g.bare) h.stack ht.fresh ht.start k).of_blocks ht.blocks⟩

theorem step (hn : n ≤ 1) {x y : LogView × Ledger} (hp : Placed m x.1 (shape x.2))
    (h : Spent n (shape x.2) → Stacked n x.1 (shape x.2)) (hs : Step m x y) (hy : Spent n (shape y.2)) :
    Stacked n y.1 (shape y.2) := by
  have hblocks := hs.same_layout.1
  cases hs with
  | rest _ hw => exact (h hy).of_stayed hblocks hw
  | extend hlen _ hfits hws ha hw =>
    obtain ⟨p, he⟩ := hp.extended hlen hfits hws ha hw
    exact (h fun g hg => hy g (List.mem_cons_of_mem _ hg)).extended hn he
  | leave _ hn _ _ hw => exact (h hy).of_left hblocks hw hn
  | exhaust _ hw => exact (h hy).of_stayed hblocks hw
  | take hlen hcpu hroom hws ho hheader ha hw =>
    exact (h fun g hg => hy g (List.mem_cons_of_mem _ hg)).took hp (hp.took hlen hcpu hroom hws ho hheader ha hw)
      (spent_shape.mp hy _ List.mem_cons_self)
  | fold _ _ hw =>
    rw [shape_amendLatest] at hy ⊢
    exact (h hy).of_stayed hblocks hw
  | rate _ _ _ hw => exact (h hy).of_stayed hblocks hw
  | flush _ _ _ hw => exact (h hy).of_left hblocks hw (Nat.le_refl _)

end Stacked

section History
variable [Platform P] {t : Tracer P}

theorem History.stacked (h : History t log) (hn : n ≤ 1) (hspent : Spent n log) : Stacked n t.view (shape log) :=
  h.invariant (I := fun v log => Spent n (shape log) → Stacked n v (shape log))
    (fun _ _ _ _ => ⟨fun _ _ hc => (by cases hc), fun _ => .nil⟩) (Stacked.step hn) (spent_shape.mpr hspent)

/-- A block taken off the frontier is still in use by another CPU just when that CPU got it a whole number of
laps ago. As long as other CPUs had at most one word of a block left when it was opened, the grants from a block
since it was last opened lie one behind the other; and once one had more left, there are claims that overlap. -/
theorem sharing (h : History t log) :
    (∀ (cpu len other : Nat) (s : Span), (t.claim cpu len).1 = some s → (t.cursor cpu).fits len = false →
      (t.cursor other).hasRoom = true →
      ((t.cursor other).limit = t.arena.blockStop (t.arena.blockOf s.start) ↔
        ∃ i, openingOf other log = some i ∧ 0 < i ∧ t.arena.usable - 1 ∣ openings log - i)) ∧
    (Spent 1 log → ∀ k, (sinceOpened k log).Pairwise fun g p => p.span.stop ≤ g.span.start) ∧
    (∀ (cpu len : Nat) (s : Span), (t.claim cpu len).1 = some s → (t.cursor cpu).fits len = false →
      1 < t.view.unspent cpu (t.arena.blockOf s.start) →
      ∃ claims u log', Tracer.enterClaims (t, log) ((cpu, len) :: claims) = (u, log') ∧ History u log' ∧
        ¬ (sinceOpened (t.arena.blockOf s.start) log').Pairwise fun g p => g.span.Apart p.span) := by
  refine ⟨fun cpu len other s hs hopen hroom => ?_, fun hspent k => ?_, fun cpu len s hs hopen hleft => ?_⟩
  · obtain ⟨hblock, hlt⟩ := h.block_of_opening hs hopen
    rw [hblock] at hlt ⊢
    exact h.placed.limit_eq_iff hroom hlt
  · have hpairwise := ((h.stacked (Nat.le_refl 1) hspent).stack k).pairwise
    rw [sinceOpened_shape] at hpairwise
    exact List.pairwise_map.mp hpairwise
  · obtain ⟨other, -, hne, hstop, hfits⟩ := LogView.lt_unspent_iff.mp hleft
    obtain ⟨claims, hclaims⟩ := h.overlap_of_opening hs hopen hne hfits hstop
    exact ⟨claims, _, _, rfl, h.claims ((cpu, len) :: claims), hclaims⟩

/-- The smallest tracer of two CPUs: one CPU laps the other. -/
theorem sharing_of_lapped_cpu :
    ∃ (t : Tracer TimeOnly) (log : Ledger), History t log ∧ (t.claim 0 1).1 = some ⟨6, 1⟩ ∧
      (t.cursor 0).fits 1 = false ∧ openings log = 2 ∧ t.arena.usable = 2 ∧ openingOf 1 log = some 1 ∧
      (t.cursor 1).limit = t.arena.blockStop (t.arena.blockOf 6) ∧
      (Spent 1 log ∧ ∀ k, (sinceOpened k log).Pairwise fun g p => p.span.stop ≤ g.span.start) ∧
      (1 < t.view.unspent 0 (t.arena.blockOf 6) ∧
        ∃ claims u log', Tracer.enterClaims (t, log) ((0, 1) :: claims) = (u, log') ∧ History u log' ∧
          ¬ (sinceOpened (t.arena.blockOf 6) log').Pairwise fun g p => g.span.Apart p.span) := by
  have hnew : History _ [] := .new (show Tracer.ofConfig ({} : TimeOnly) { blocks := 2, cpus := 2 } = .ok _ from rfl)
  have hrun := (((hnew.act {} (.reset ⟨false, true⟩)).act {} (.claim 0 1)).act {} (.execute .flush)).act {} (.claim 1 1)
  obtain ⟨huse, hpairwise, hoverlap⟩ := sharing hrun
  have hin := huse 0 1 1 ⟨6, 1⟩ (by decide +kernel) (by decide +kernel) (by decide +kernel)
  exact ⟨_, _, hrun, by decide +kernel, by decide +kernel, by decide +kernel, by decide +kernel, by decide +kernel,
    hin.mpr ⟨1, by decide +kernel, by decide, by decide +kernel⟩, ⟨by decide +kernel, hpairwise (by decide +kernel)⟩,
    by decide +kernel, hoverlap 0 1 ⟨6, 1⟩ (by decide +kernel) (by decide +kernel) (by decide +kernel)⟩

/-- A block is taken off the frontier that another CPU can still write to, and then both CPUs are granted the
same word. -/
theorem lapped_cpu_shares_block :
    ∃ (t : Tracer TimeOnly) (log : Ledger), History t log ∧ t.mode.wraps = true ∧
      ((t.claim 0 1).1 = some ⟨6, 1⟩ ∧ (t.cursor 0).fits 1 = false ∧ t.arena.blockOf 6 = 1 ∧
        (t.cursor 1).limit = t.arena.blockStop 1 ∧ (t.cursor 1).next < (t.cursor 1).limit) ∧
      ∃ (u : Tracer TimeOnly) (log' : Ledger), History u log' ∧ u.mode.wraps = true ∧
        (sinceOpened 1 log').map (fun g => (g.cpu, g.span)) = [(1, ⟨7, 1⟩), (0, ⟨7, 1⟩), (0, ⟨6, 1⟩)] := by
  have hnew : History _ [] := .new (show Tracer.ofConfig ({} : TimeOnly) { blocks := 2, cpus := 2 } = .ok _ from rfl)
  have hrun := (((hnew.act {} (.reset ⟨false, true⟩)).act {} (.claim 0 1)).act {} (.execute .flush)).act {} (.claim 1 1)
  have hrun' := ((hrun.act {} (.claim 0 1)).act {} (.claim 0 1)).act {} (.claim 1 1)
  exact ⟨_, _, hrun, by decide +kernel, ⟨by decide +kernel, by decide +kernel, by decide +kernel, by decide +kernel,
    by decide +kernel⟩, _, _, hrun', by decide +kernel, by decide +kernel⟩

end History

end EventRecorder
