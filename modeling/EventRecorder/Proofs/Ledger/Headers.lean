import EventRecorder.Proofs.Block.Header
import EventRecorder.Proofs.Ledger.Frames

/-! # Headers

The header of a block names the CPU that the block was opened for. It is written when the block is opened, and it
belongs to the frame of the block, which stays until the block is opened again. -/

namespace EventRecorder

open Ledger LogView Arena

variable {P : Type} {a b : Arena} {k : Nat} {g : Grant} {log : Ledger} {m : Mode} {v w : LogView}
  {x y : LogView × Ledger} {o : Opening} {header : Header} {task : Task}

/-- The header of every opened block names the CPU that the block was opened for. -/
def Headed (a : Arena) (log : Ledger) : Prop :=
  ∀ k g, (sinceOpened k log).getLast? = some g → (a.header k).cpu = UInt8.ofNat g.cpu

theorem header_cpu_congr (h : b.word (b.blockStart k) = a.word (a.blockStart k)) :
    (b.header k).cpu = (a.header k).cpu := by
  unfold Arena.header Header.ofWords
  rw [h]

/-- An opened block is one of the usable ones. -/
theorem Placed.usable_of_getLast? (h : Placed m v log) (hg : (sinceOpened k log).getLast? = some g) :
    k < v.arena.usable := by
  obtain ⟨hmem, rfl⟩ := mem_of_mem_sinceOpened (List.mem_of_getLast? hg)
  exact (h.placing.inside g hmem).block

theorem Ledger.getLast?_sinceOpened_cons (hg : g.block = k → g.fresh = false ∧ sinceOpened k log ≠ []) :
    (sinceOpened k (g :: log)).getLast? = (sinceOpened k log).getLast? := by
  by_cases hk : g.block = k
  · obtain ⟨hfresh, hne⟩ := hg hk
    rw [sinceOpened_of_not_fresh hk hfresh, List.getLast?_cons_of_ne_nil hne]
  · rw [sinceOpened_of_ne hk]

/-- The first grant of a block stays the first until the block is opened again. -/
theorem Step.first_kept (hs : Step m x y) (hp : Placed m x.1 (shape x.2))
    (hopen : openingsOf k y.2 ≤ openingsOf k x.2) :
    (sinceOpened k (shape y.2)).getLast? = (sinceOpened k (shape x.2)).getLast? := by
  cases hs with
  | extend hlen _ hfits hws ha hw =>
    obtain ⟨p, he⟩ := hp.extended hlen hfits hws ha hw
    refine getLast?_sinceOpened_cons fun hk => ⟨he.fresh, ?_⟩
    rw [← hk, Grant.bare, he.block]
    exact sinceOpened_ne_nil (mem_of_latest? he.latest)
  | take hlen hcpu hroom hws ho hheader ha hw =>
    exact getLast?_sinceOpened_cons fun hk => absurd hk (ne_of_openingsOf_le rfl hopen)
  | fold => exact congrArg (fun log => (sinceOpened k log).getLast?) (shape_amendLatest ..)
  | _ => rfl

theorem Took.word_blockStart (ht : Took v w log g o a header task) (hp : Placed m v (shape log)) :
    w.arena.word (v.arena.blockStart g.block) = header.toWords.1 := by
  have hstart := ht.start
  have hheader := v.arena.blockStart_lt_recordStart g.block
  rw [ht.arena, word_setWords_of_outside _ (by omega), word_startFilling, ← ht.opening_start]
  refine word_layOut_start o header task ?_
  rw [ht.opening_start, high_congr ht.taken.blocks]
  exact blockStop_le_high (hp.opened.lt_blocks ht.block_lt)

theorem Headed.step (hp : Placed m x.1 (shape x.2)) (h : Headed x.1.arena (shape x.2)) (hs : Step m x y) :
    Headed y.1.arena (shape y.2) := by
  intro k q hq
  rcases Nat.lt_or_ge (openingsOf k x.2) (openingsOf k y.2) with hopened | hkept
  · -- the block is opened for its first grant
    obtain ⟨g, o, a, header, task, rfl, hlog, ht⟩ := hs.took hp hopened
    rw [hlog, shape_cons, sinceOpened_of_fresh (g := g.bare) (k := g.block) rfl ht.fresh] at hq
    obtain rfl := Option.some.inj hq
    unfold Arena.header Header.ofWords
    dsimp only
    rw [blockStart_congr ht.blocks, ht.word_blockStart hp, Header.get_cpu]
    exact ht.header
  · rw [hs.first_kept hp hkept] at hq
    rw [← h k q hq]
    refine header_cpu_congr ?_
    rw [blockStart_congr hs.same_layout.1]
    have hrecord := x.1.arena.blockStart_lt_recordStart k
    rcases hs.frame hp (hp.usable_of_getLast? hq) (.of_header (Nat.le_refl _) hrecord) hkept with hsame | ⟨-, hbehind⟩
    · exact hsame
    · exact absurd hrecord (Nat.not_lt_of_le hbehind)

theorem History.headed [Platform P] {t : Tracer P} (h : History t log) : Headed t.arena (shape log) :=
  h.invariant (I := fun v log => Headed v.arena (shape log)) (fun _ _ _ k g hg => (by cases hg)) fun hp h hs =>
    h.step hp hs

end EventRecorder
