import EventRecorder.Proofs.Arena.Openings
import Mathlib.Data.Finset.Card
import Mathlib.Data.List.ReduceOption

/-! # The order of blocks

Readers see the blocks without any history of the openings: the frontier, the limit and two flags have to tell how many
blocks were handed out and which of them was opened last. This file runs an arena from its reset through any requests
for blocks, refused ones among them, and compares what readers see with the openings that took place. -/

namespace EventRecorder.Arena

variable {a b c : Arena} {i k n : Nat} {o : Opening} {os : List Opening}

/-- Asks for one block after another. -/
def openBlocks (a : Arena) : (wraps : List Bool) → List (Option Opening) × Arena
  | [] => ([], a)
  | wrap :: wraps =>
    let (o, a) := a.openBlock wrap
    let (os, a) := a.openBlocks wraps
    (o :: os, a)

/-- The blocks of a list of openings. -/
def openedBlocks (a : Arena) (os : List Opening) : List Nat := os.map (a.blockOf ·.start)

/-! ### Runs of requests -/

/-- The opening is the one that `n` others come before. -/
structure IsNth (a : Arena) (n : Nat) (o : Opening) : Prop where
  block_lt : nthBlock a.usable n < a.usable
  start : o.start = a.blockStart (nthBlock a.usable n)
  veryFirst : o.veryFirst = decide (n = 0)

theorem Takes.isNth (h : Takes a n o b) : IsNth a n o := ⟨h.block_lt, h.start, h.veryFirst⟩

theorem IsNth.congr (hblocks : b.blocks = a.blocks) (hlimit : b.limit = a.limit) (h : IsNth b n o) : IsNth a n o := by
  have husable : b.usable = a.usable := usable_congr hblocks hlimit
  refine ⟨husable ▸ h.block_lt, ?_, h.veryFirst⟩
  rw [h.start, husable, blockStart_congr hblocks]

/-- The arena `a`, which had handed out `n` blocks, became `b` as it handed out the blocks `os`. -/
structure HandsOut (a : Arena) (n : Nat) (os : List Opening) (b : Arena) : Prop where
  opened : b.Opened (n + os.length)
  blocks : b.blocks = a.blocks
  limit : b.limit = a.limit
  isNth : ∀ i o, os[i]? = some o → IsNth a (n + i) o

namespace HandsOut

theorem nil (h : a.Opened n) : HandsOut a n [] a := ⟨h, rfl, rfl, fun i o ho => by simp at ho⟩

/-- A refusal in front of the other requests hands out nothing. -/
theorem refused (hblocks : b.blocks = a.blocks) (hlimit : b.limit = a.limit) (h : HandsOut b n os c) :
    HandsOut a n os c :=
  ⟨h.opened, h.blocks.trans hblocks, h.limit.trans hlimit, fun i o ho => (h.isNth i o ho).congr hblocks hlimit⟩

theorem cons (ht : Takes a n o b) (h : HandsOut b (n + 1) os c) : HandsOut a n (o :: os) c := by
  have hnext : ∀ i, n + (i + 1) = n + 1 + i := fun i => by omega
  refine ⟨?_, h.blocks.trans ht.blocks, h.limit.trans ht.limit, fun i o' ho => ?_⟩
  · rw [List.length_cons, hnext]
    exact h.opened
  · cases i with
    | zero =>
      obtain rfl := Option.some.inj ho
      exact ht.isNth
    | succ i =>
      rw [List.getElem?_cons_succ] at ho
      rw [hnext]
      exact (h.isNth i o' ho).congr ht.blocks ht.limit

end HandsOut

theorem Opened.handsOut (h : a.Opened n) (wraps : List Bool) :
    HandsOut a n (a.openBlocks wraps).1.reduceOption (a.openBlocks wraps).2 := by
  induction wraps generalizing a n with
  | nil => exact .nil h
  | cons wrap wraps ih =>
    rw [openBlocks]
    cases ho : a.openBlock wrap with
    | mk o b =>
      cases o with
      | none =>
        rw [List.reduceOption_cons_of_none]
        obtain ⟨-, hmarks, hlimit⟩ := openBlock_none_same ho
        exact (ih (h.refuses ho).1).refused (congrArg Array.size hmarks) hlimit
      | some o =>
        rw [List.reduceOption_cons_of_some]
        exact (ih (h.takes ho).opened).cons (h.takes ho)

/-! ### What readers see -/

/-- The arena tells in which order it has handed out the blocks `os` since its reset. -/
structure TellsOrder (a : Arena) (os : List Opening) : Prop where
  limit_le : a.limit ≤ a.next
  next_le : a.next ≤ a.high
  dvd_limit : blockWords ∣ a.limit
  dvd_next : blockWords ∣ a.next
  dvd_high : blockWords ∣ a.high
  /-- Each block claimed was handed out, however often. -/
  claimed : a.claimed = (a.openedBlocks os).toFinset.card
  nodup : a.newestFirst.Nodup
  mem_iff : ∀ k, k ∈ a.newestFirst ↔ k ∈ a.openedBlocks os
  /-- Of two blocks the one comes first that was opened last. -/
  latest_first : a.newestFirst.Pairwise fun j k =>
    (a.openedBlocks os).reverse.idxOf j < (a.openedBlocks os).reverse.idxOf k
  first_iff : ∀ i o, os[i]? = some o → (i = 0 ↔ a.blockOf o.start = 0) ∧ (o.veryFirst = true ↔ i = 0)
  /-- A block handed out lies as a whole between the limit and the top. -/
  inside : ∀ o ∈ os, a.limit ≤ o.start ∧ o.start + blockWords ≤ a.high ∧ o.start = a.blockStart (a.blockOf o.start)

theorem recentFirst_pairwise (u n : Nat) : (recentFirst u n).Pairwise fun j k =>
    ((List.range n).map (nthBlock u)).reverse.idxOf j < ((List.range n).map (nthBlock u)).reverse.idxOf k := by
  induction n with
  | zero => exact .nil
  | succ n ih =>
    have hcons : ((List.range (n + 1)).map (nthBlock u)).reverse =
        nthBlock u n :: ((List.range n).map (nthBlock u)).reverse := by
      rw [List.range_succ, List.map_append, List.reverse_append]
      rfl
    rw [recentFirst, hcons]
    refine .cons (fun k hk => ?_) (.imp_of_mem (fun {j k} hj hk hlt => ?_) (ih.filter _))
    · have hne : nthBlock u n ≠ k := (bne_iff_ne.mp (List.mem_filter.mp hk).2).symm
      rw [List.idxOf_cons_self, List.idxOf_cons_ne _ hne]
      exact Nat.succ_pos _
    · have hj : nthBlock u n ≠ j := (bne_iff_ne.mp (List.mem_filter.mp hj).2).symm
      have hk : nthBlock u n ≠ k := (bne_iff_ne.mp (List.mem_filter.mp hk).2).symm
      rw [List.idxOf_cons_ne _ hj, List.idxOf_cons_ne _ hk]
      exact Nat.succ_lt_succ hlt

namespace HandsOut

theorem isNth_after (h : HandsOut a n os b) (ho : os[i]? = some o) : IsNth b (n + i) o :=
  (h.isNth i o ho).congr h.blocks.symm h.limit.symm

/-- The word where an opening starts tells its block. -/
theorem blockOf_start (h : HandsOut a n os b) (ho : os[i]? = some o) :
    b.blockOf o.start = nthBlock b.usable (n + i) := by
  have hnth := h.isNth_after ho
  rw [hnth.start]
  exact blockOf_blockStart (h.opened.lt_blocks hnth.block_lt)

theorem openedBlocks_eq (h : HandsOut a 0 os b) :
    b.openedBlocks os = (List.range os.length).map (nthBlock b.usable) := by
  refine List.ext_getElem (by simp [openedBlocks]) fun i hi _ => ?_
  have hi' : i < os.length := by simpa [openedBlocks] using hi
  simp [openedBlocks, h.blockOf_start (List.getElem?_eq_getElem hi')]

theorem mem_openedBlocks_iff (h : HandsOut a 0 os b) : k ∈ b.openedBlocks os ↔ k ∈ b.newestFirst := by
  have hopened : b.Opened os.length := Nat.zero_add os.length ▸ h.opened
  rw [h.openedBlocks_eq, hopened.newestFirst_eq, mem_recentFirst_iff]
  simp

theorem claimed_eq_card (h : HandsOut a 0 os b) : b.claimed = (b.openedBlocks os).toFinset.card := by
  have hperm := h.opened.newestFirst_perm
  have hset : (b.openedBlocks os).toFinset = b.newestFirst.toFinset := by
    ext k
    rw [List.mem_toFinset, List.mem_toFinset, h.mem_openedBlocks_iff]
  rw [hset, List.toFinset_card_of_nodup (hperm.nodup_iff.mpr List.nodup_range), hperm.length_eq, List.length_range]

theorem tellsOrder (h : HandsOut a 0 os b) : TellsOrder b os where
  limit_le := by
    have := h.opened.limit_add
    have := h.opened.next_add
    have := h.opened.depth_le
    unfold blockWords at *
    omega
  next_le := Nat.le_of_add_right_le h.opened.next_add.le
  dvd_limit := (Nat.dvd_add_left (Dvd.intro_left _ rfl)).mp (Dvd.intro_left b.blocks h.opened.limit_add.symm)
  dvd_next := (Nat.dvd_add_left (Dvd.intro_left _ rfl)).mp (Dvd.intro_left b.blocks h.opened.next_add.symm)
  dvd_high := Dvd.intro_left b.blocks rfl
  claimed := h.claimed_eq_card
  nodup := h.opened.newestFirst_perm.nodup_iff.mpr List.nodup_range
  mem_iff _ := h.mem_openedBlocks_iff.symm
  latest_first := by
    have hopened : b.Opened os.length := Nat.zero_add os.length ▸ h.opened
    rw [hopened.newestFirst_eq, h.openedBlocks_eq]
    exact recentFirst_pairwise _ _
  first_iff i o ho := by
    rw [h.blockOf_start ho, (h.isNth i o ho).veryFirst, decide_eq_true_iff, Nat.zero_add]
    refine ⟨?_, Iff.rfl⟩
    rcases Nat.eq_zero_or_pos i with rfl | hi
    · simp
    · exact iff_of_false hi.ne' (nthBlock_pos hi).ne'
  inside o ho := by
    obtain ⟨i, ho⟩ := List.mem_iff_getElem?.mp ho
    have hnth := h.isNth_after ho
    rw [h.blockOf_start ho, hnth.start]
    exact ⟨h.opened.limit_le_blockStart hnth.block_lt, blockStop_le_high (h.opened.lt_blocks hnth.block_lt), rfl⟩

end HandsOut

/-- Whatever blocks an arena hands out after a reset, what it keeps of them tells how many they are and in which order
they were opened. The limit stays where the reset has put it. -/
theorem reset_openBlocks_order (a : Arena) (rates : Bool) (wraps : List Bool) :
    let (os, b) := (a.reset rates).openBlocks wraps
    TellsOrder b os.reduceOption ∧ b.limit = (a.reset rates).limit ∧ b.high = (a.reset rates).high :=
  have h := (opened_reset a rates).handsOut wraps
  ⟨h.tellsOrder, h.limit, high_congr h.blocks⟩

end EventRecorder.Arena
