import EventRecorder.Proofs.Arena.Geometry
import Mathlib.Data.Nat.ModEq

/-! # The frontier after a number of openings

The blocks that a session opens are known from their number alone: the first openings take the blocks from
0 down to the limit, and every further lap takes the blocks from 1 down to the limit again. `Opened a n`
says that the frontier of `a` stands where `n` openings since the last reset have left it. Taking a block
off the frontier leads from `n` openings to `n + 1`, and a refusal changes nothing but a flag. The readers'
order `newestFirst` lists the blocks by their most recent opening. -/

namespace EventRecorder.Arena

/-- The number of blocks between frontier and top after `n` openings, of `usable` blocks in all. -/
def depth (usable : Nat) : (n : Nat) → Nat
  | 0 => 0
  | 1 => 1
  | n + 2 => if depth usable (n + 1) < usable then depth usable (n + 1) + 1 else 2

/-- The block that is taken when `n` blocks have been opened before. -/
def nthBlock (usable n : Nat) : Nat := depth usable (n + 1) - 1

/-- The frontier is where `n` openings since the last reset have left it. -/
structure Opened (a : Arena) (n : Nat) : Prop where
  limit_add : a.limit + a.usable * blockWords = a.high
  next_add : a.next + depth a.usable n * blockWords = a.high
  wrapped_iff : a.wrapped = true ↔ a.usable < n
  two_le : a.usable < n → 2 ≤ a.usable
  of_exhausted : a.exhausted = true → a.usable ≤ n

variable {a b : Arena} {m n u : Nat}

/-! ### Depth -/

theorem depth_pos (h : 0 < n) : 0 < depth u n := by
  match n with
  | 1 => exact Nat.one_pos
  | n + 2 =>
    rw [depth]
    split <;> omega

theorem two_le_depth (h : 2 ≤ n) : 2 ≤ depth u n := by
  obtain ⟨m, rfl⟩ : ∃ m, n = m + 2 := ⟨n - 2, by omega⟩
  have := depth_pos (u := u) (show 0 < m + 1 by omega)
  rw [depth]
  split <;> omega

theorem depth_succ_of_lt (h : depth u n < u) : depth u (n + 1) = depth u n + 1 := by
  match n with
  | 0 => rfl
  | n + 1 => rw [depth, if_pos h]

theorem depth_succ_of_le (hn : 0 < n) (h : u ≤ depth u n) : depth u (n + 1) = 2 := by
  obtain ⟨m, rfl⟩ : ∃ m, n = m + 1 := ⟨n - 1, by omega⟩
  rw [depth, if_neg (Nat.not_lt.mpr h)]

theorem depth_of_le (h : n ≤ u) : depth u n = n := by
  induction n with
  | zero => rfl
  | succ n ih =>
    have := ih (by omega)
    rw [depth_succ_of_lt (by omega), this]

theorem depth_le (h : u < n → 2 ≤ u) : depth u n ≤ u := by
  induction n with
  | zero => exact Nat.zero_le u
  | succ n ih =>
    have ih' : depth u n ≤ u := ih fun h' => h (by omega)
    rcases Nat.lt_or_ge (depth u n) u with hlt | hge
    · rw [depth_succ_of_lt hlt]
      exact hlt
    · rcases Nat.lt_or_ge u (n + 1) with hn | hn
      · rcases Nat.eq_zero_or_pos n with rfl | hpos
        · rw [depth_of_le (show 0 + 1 ≤ u by have := h hn; omega)]
          have := h hn
          omega
        · rw [depth_succ_of_le hpos hge]
          exact h hn
      · rw [depth_of_le hn]
        exact hn

@[simp] theorem nthBlock_zero (u : Nat) : nthBlock u 0 = 0 := rfl

theorem nthBlock_pos (h : 0 < n) : 0 < nthBlock u n := by
  have := two_le_depth (u := u) (show 2 ≤ n + 1 by omega)
  unfold nthBlock
  omega

theorem nthBlock_of_lt (h : n < u) : nthBlock u n = n := by
  unfold nthBlock
  rw [depth_of_le (show n + 1 ≤ u by omega)]
  omega

theorem nthBlock_lt (h : n < u ∨ 2 ≤ u) : nthBlock u n < u := by
  have := depth_le (u := u) (n := n + 1) (by omega)
  have := depth_pos (u := u) (show 0 < n + 1 by omega)
  unfold nthBlock
  omega

theorem nthBlock_succ (u n : Nat) : nthBlock u (n + 1) = if nthBlock u n + 1 < u then nthBlock u n + 1 else 1 := by
  have hpos := depth_pos (u := u) (show 0 < n + 1 by omega)
  unfold nthBlock
  rw [depth, Nat.sub_add_cancel hpos]
  split <;> omega

/-- Behind block 0 the blocks come round in laps of all but one of the usable ones. -/
theorem nthBlock_eq_mod (hu : 2 ≤ u) (n : Nat) : nthBlock u (n + 1) = n % (u - 1) + 1 := by
  induction n with
  | zero =>
    rw [nthBlock_succ, nthBlock_zero, if_pos (by omega), Nat.zero_mod]
  | succ n ih =>
    have hlt : n % (u - 1) < u - 1 := Nat.mod_lt _ (by omega)
    rw [nthBlock_succ, ih, Nat.add_mod_eq_ite]
    rcases Nat.lt_or_ge 1 (u - 1) with h1 | h1
    · rw [Nat.mod_eq_of_lt h1]
      split <;> split <;> omega
    · obtain h1 : u - 1 = 1 := by omega
      rw [h1, Nat.mod_one, Nat.mod_one, if_neg (by omega), if_neg (by omega)]

/-- A block is taken again after whole laps only. -/
theorem nthBlock_eq_iff {i : Nat} (hn : n < u ∨ 2 ≤ u) (hi : i < n) :
    nthBlock u i = nthBlock u n ↔ 0 < i ∧ u - 1 ∣ n - i := by
  have hu : 2 ≤ u := by omega
  obtain ⟨n, rfl⟩ : ∃ m, n = m + 1 := ⟨n - 1, by omega⟩
  rcases Nat.eq_zero_or_pos i with rfl | hpos
  · have := nthBlock_pos (u := u) hi
    rw [nthBlock_zero]
    omega
  · obtain ⟨i, rfl⟩ : ∃ j, i = j + 1 := ⟨i - 1, by omega⟩
    rw [nthBlock_eq_mod hu, nthBlock_eq_mod hu, Nat.add_sub_add_right, ← Nat.modEq_iff_dvd' (by omega)]
    exact ⟨fun h => ⟨hpos, Nat.succ.inj h⟩, fun h => congrArg Nat.succ h.2⟩

/-! ### Taking blocks off the frontier -/

namespace Opened

/-- An arena of the same size and limit whose frontier stands where `m` openings leave it. -/
theorem advance (h : a.Opened n) (hb : b.blocks = a.blocks) (hl : b.limit = a.limit)
    (hn : b.next + depth a.usable m * blockWords = a.high) (hw : b.wrapped = true ↔ a.usable < m)
    (h2 : a.usable < m → 2 ≤ a.usable) (he : b.exhausted = true → a.usable ≤ m) : b.Opened m := by
  have hh : b.high = a.high := high_congr hb
  have hu : b.usable = a.usable := usable_congr hb hl
  refine ⟨?_, ?_, ?_, ?_, ?_⟩ <;> rw [hu]
  · rw [hl, hh]
    exact h.limit_add
  · rw [hh]
    exact hn
  · exact hw
  · exact h2
  · exact he

theorem of_sameFrontier (h : a.Opened n) (s : SameFrontier a b) : b.Opened n :=
  h.advance s.blocks s.limit (s.next ▸ h.next_add) (s.wrapped ▸ h.wrapped_iff) h.two_le (s.exhausted ▸ h.of_exhausted)

theorem usable_le (h : a.Opened n) : a.usable ≤ a.blocks := by
  have := h.limit_add
  unfold high blockWords at this
  omega

theorem lt_blocks {k : Nat} (h : a.Opened n) (hk : k < a.usable) : k < a.blocks := Nat.lt_of_lt_of_le hk h.usable_le

theorem depth_le (h : a.Opened n) : depth a.usable n ≤ a.usable := Arena.depth_le h.two_le

theorem limit_le_blockStart (h : a.Opened n) {k : Nat} (hk : k < a.usable) : a.limit ≤ a.blockStart k := by
  have := h.limit_add
  have := h.usable_le
  unfold blockStart high blockWords at *
  omega

/-- A frontier without room for a block above the limit has come to the end of a lap. -/
theorem full (h : a.Opened n) (hfull : a.next < a.limit + blockWords) : depth a.usable n = a.usable ∧ a.usable ≤ n := by
  have h₁ := h.limit_add
  have h₂ := h.next_add
  have h₃ := h.depth_le
  have hd : depth a.usable n = a.usable := by
    unfold blockWords at *
    omega
  refine ⟨hd, Nat.le_of_not_lt fun hlt => ?_⟩
  rw [depth_of_le (Nat.le_of_lt hlt)] at hd
  omega

/-- What holds of the words above the limit holds of the words of the blocks. -/
theorem imp_inside (h : a.Opened n) {A B : Nat → Prop} (hAB : ∀ i, a.limit ≤ i → A i → B i) :
    ∀ k < a.usable, ∀ i, a.blockStart k ≤ i → A i → B i := fun _ hk i hi =>
  hAB i (Nat.le_trans (h.limit_le_blockStart hk) hi)

/-- Blocks are claimed once each, so their number stops at the usable ones. -/
theorem claimed_eq (h : a.Opened n) : a.claimed = min n a.usable := by
  have h₁ := h.next_add
  have h₂ := h.wrapped_iff
  have h₃ := h.of_exhausted
  unfold claimed
  split
  · rename_i hc
    rcases Bool.or_eq_true_iff.mp hc with hw | he
    · have := h₂.mp hw
      omega
    · have := h₃ he
      omega
  · rename_i hc
    have hw : ¬ a.usable < n := fun hlt => hc (by simp [h₂.mpr hlt])
    have : depth a.usable n = n := depth_of_le (by omega)
    rw [this] at h₁
    unfold blockWords at *
    omega

end Opened

theorem Opened.claimed_le (h : a.Opened n) : a.claimed ≤ a.usable := by
  rw [h.claimed_eq]
  exact Nat.min_le_right ..

theorem opened_reset (a : Arena) (rates : Bool) : (a.reset rates).Opened 0 := by
  have hb : (a.reset rates).blocks = a.blocks := by simp [blocks, reset]
  have hh : (a.reset rates).high = a.high := by simp [high, hb]
  have hl : (a.reset rates).limit = if rates then (a.blocks + 7) / 8 * blockWords else 0 := rfl
  refine ⟨?_, ?_, by simp [reset], by omega, by simp [reset]⟩
  · unfold usable
    rw [hh, hl]
    unfold high blockWords
    cases rates
    · simp
    · simp only [if_true]
      omega
  · rw [hh]
    simp [depth, reset]

/-- A block is taken above the limit, or on a new lap of a session that wraps. -/
theorem openBlock_some_inv {wrap : Bool} {o : Opening} (h : a.openBlock wrap = (some o, b)) :
    b.words = a.words ∧ b.marks = a.marks ∧ b.limit = a.limit ∧ b.exhausted = a.exhausted ∧
      ((a.limit + blockWords ≤ a.next ∧ o = ⟨a.next - blockWords, a.next == a.high, false⟩ ∧
          b.next = a.next - blockWords ∧ b.wrapped = a.wrapped) ∨
        (a.next < a.limit + blockWords ∧ wrap = true ∧ a.limit + 2 * blockWords ≤ a.high ∧
          o = ⟨a.high - 2 * blockWords, false, true⟩ ∧ b.next = a.high - 2 * blockWords ∧ b.wrapped = true)) := by
  unfold openBlock at h
  split at h
  · rename_i hroom
    obtain ⟨ho, rfl⟩ := Prod.mk.inj h
    obtain rfl := Option.some.inj ho
    exact ⟨rfl, rfl, rfl, rfl, Or.inl ⟨hroom, rfl, rfl, rfl⟩⟩
  · rename_i hroom
    split at h
    · rename_i hwrap
      obtain ⟨hw, hle⟩ : wrap = true ∧ a.limit + 2 * blockWords ≤ a.high := by simpa using hwrap
      obtain ⟨ho, rfl⟩ := Prod.mk.inj h
      obtain rfl := Option.some.inj ho
      exact ⟨rfl, rfl, rfl, rfl, Or.inr ⟨Nat.lt_of_not_le hroom, hw, hle, rfl, rfl, rfl⟩⟩
    · cases h

/-- A block is refused at the limit when the session does not wrap or has only block 0 to wrap onto. -/
theorem openBlock_none_inv {wrap : Bool} (h : a.openBlock wrap = (none, b)) :
    b = { a with exhausted := true } ∧ a.next < a.limit + blockWords ∧
      (wrap = true → a.high < a.limit + 2 * blockWords) := by
  unfold openBlock at h
  split at h
  · cases h
  · rename_i hroom
    split at h
    · cases h
    · rename_i hwrap
      obtain ⟨-, rfl⟩ := Prod.mk.inj h
      refine ⟨rfl, Nat.lt_of_not_le hroom, fun hw => ?_⟩
      simpa [hw] using hwrap

theorem openBlock_none_same {wrap : Bool} (h : a.openBlock wrap = (none, b)) :
    b.words = a.words ∧ b.marks = a.marks ∧ b.limit = a.limit := by
  obtain ⟨rfl, -⟩ := openBlock_none_inv h
  exact ⟨rfl, rfl, rfl⟩

/-- What a block just taken off the frontier is like, when `n` blocks have been opened before. -/
structure Takes (a : Arena) (n : Nat) (o : Opening) (b : Arena) : Prop where
  block_lt : nthBlock a.usable n < a.usable
  start : o.start = a.blockStart (nthBlock a.usable n)
  veryFirst : o.veryFirst = decide (n = 0)
  opened : b.Opened (n + 1)
  words : b.words = a.words
  marks : b.marks = a.marks
  limit : b.limit = a.limit

theorem Opened.takes_next (h : a.Opened n) (hwords : b.words = a.words) (hmarks : b.marks = a.marks)
    (hlimit : b.limit = a.limit) (hexh : b.exhausted = a.exhausted) (hroom : a.limit + blockWords ≤ a.next)
    (hnext : b.next = a.next - blockWords) (hwrapped : b.wrapped = a.wrapped) :
    Takes a n ⟨a.next - blockWords, a.next == a.high, false⟩ b := by
  have h₁ := h.limit_add
  have h₂ := h.next_add
  have hblocks : b.blocks = a.blocks := congrArg Array.size hmarks
  have hd : depth a.usable n < a.usable := by
    unfold blockWords at *
    omega
  have hdepth := depth_succ_of_lt hd
  have hnth : nthBlock a.usable n = depth a.usable n := by unfold nthBlock; omega
  have hfirst : a.next = a.high ↔ n = 0 := by
    rcases Nat.eq_zero_or_pos n with rfl | hn
    · simpa [depth] using h₂
    · have := depth_pos (u := a.usable) hn
      unfold blockWords at *
      omega
  have htwo : a.usable < n + 1 → 2 ≤ a.usable ∧ a.usable < n := fun hlt => by
    rcases Nat.lt_or_ge a.usable n with hn | hn
    · exact ⟨h.two_le hn, hn⟩
    · rw [depth_of_le hn] at hd
      omega
  refine ⟨hnth ▸ hd, ?_, ?_, h.advance hblocks hlimit ?_ ?_ (fun hlt => (htwo hlt).1) (fun he => ?_), hwords, hmarks,
    hlimit⟩
  · rw [hnth]
    simp only [blockStart]
    unfold blockWords at *
    omega
  · rw [Bool.eq_iff_iff, beq_iff_eq, decide_eq_true_iff]
    exact hfirst
  · rw [hdepth, hnext]
    unfold blockWords at *
    omega
  · rw [hwrapped, h.wrapped_iff]
    exact ⟨fun hlt => Nat.lt_succ_of_lt hlt, fun hlt => (htwo hlt).2⟩
  · exact Nat.le_succ_of_le (h.of_exhausted (hexh ▸ he))

theorem Opened.takes_first (h : a.Opened n) (hwords : b.words = a.words) (hmarks : b.marks = a.marks)
    (hlimit : b.limit = a.limit) (hfull : a.next < a.limit + blockWords) (htwo : a.limit + 2 * blockWords ≤ a.high)
    (hnext : b.next = a.high - 2 * blockWords) (hwrapped : b.wrapped = true) :
    Takes a n ⟨a.high - 2 * blockWords, false, true⟩ b := by
  have h₁ := h.limit_add
  have hblocks : b.blocks = a.blocks := congrArg Array.size hmarks
  obtain ⟨hd, hn⟩ := h.full hfull
  have hu : 2 ≤ a.usable := by
    unfold blockWords at *
    omega
  have hdepth : depth a.usable (n + 1) = 2 := depth_succ_of_le (by omega) (Nat.le_of_eq hd.symm)
  have hnth : nthBlock a.usable n = 1 := by unfold nthBlock; rw [hdepth]
  refine ⟨hnth ▸ hu, ?_, ?_, h.advance hblocks hlimit ?_ ?_ (fun _ => hu) (fun _ => Nat.le_succ_of_le hn), hwords,
    hmarks, hlimit⟩
  · rw [hnth]
    rfl
  · symm
    rw [decide_eq_false_iff_not]
    omega
  · rw [hdepth, hnext]
    unfold blockWords at *
    omega
  · rw [hwrapped]
    exact ⟨fun _ => Nat.lt_succ_of_le hn, fun _ => rfl⟩

/-- A block is taken off the frontier in the order of the numbers `nthBlock`. -/
theorem Opened.takes (h : a.Opened n) {wrap : Bool} {o : Opening} (ho : a.openBlock wrap = (some o, b)) :
    Takes a n o b := by
  obtain ⟨hwords, hmarks, hlimit, hexh, ⟨hroom, rfl, hnext, hwrapped⟩ | ⟨hfull, -, htwo, rfl, hnext, hwrapped⟩⟩ :=
    openBlock_some_inv ho
  · exact h.takes_next hwords hmarks hlimit hexh hroom hnext hwrapped
  · exact h.takes_first hwords hmarks hlimit hfull htwo hnext hwrapped

namespace Takes

variable {o : Opening}

theorem blocks (h : Takes a n o b) : b.blocks = a.blocks := by
  unfold Arena.blocks
  rw [h.marks]

/-- The first block is opened once. -/
theorem veryFirst_eq (h : Takes a n o b) : o.veryFirst = decide (nthBlock a.usable n = 0) := by
  rw [h.veryFirst]
  rcases Nat.eq_zero_or_pos n with rfl | hn
  · rfl
  · exact decide_eq_decide.mpr (iff_of_false (Nat.ne_of_gt hn) (Nat.ne_of_gt (nthBlock_pos hn)))

theorem recordStart (h : Takes a n o b) : o.recordStart = a.recordStart (nthBlock a.usable n) := by
  unfold Opening.recordStart Opening.taskStart Arena.recordStart headerWords
  rw [h.start, h.veryFirst_eq]
  unfold sessionWords firstHeaderWords plainHeaderWords
  rcases Nat.eq_zero_or_pos (nthBlock a.usable n) with hk | hk
  · simp [hk]
  · simp [Nat.ne_of_gt hk]

end Takes

/-- A refusal leaves the frontier where it is, after all usable blocks have been opened. -/
theorem Opened.refuses (h : a.Opened n) {wrap : Bool} (ho : a.openBlock wrap = (none, b)) :
    b.Opened n ∧ a.usable ≤ n ∧ (wrap = true → a.usable < 2) := by
  obtain ⟨rfl, hfull, htwo⟩ := openBlock_none_inv ho
  obtain ⟨-, hn⟩ := h.full hfull
  refine ⟨h.advance rfl rfl h.next_add h.wrapped_iff h.two_le (fun _ => hn), hn, fun hw => ?_⟩
  have := h.limit_add
  have := htwo hw
  unfold blockWords at *
  omega

/-! ### The readers' order -/

/-- The blocks of `n` openings, each at its most recent opening and the latest first. -/
def recentFirst (usable : Nat) : (n : Nat) → List Nat
  | 0 => []
  | n + 1 => nthBlock usable n :: (recentFirst usable n).filter (· != nthBlock usable n)

/-- The blocks above the limit, in the order of a session in a later lap that has come to block `r`. -/
def lap (usable r : Nat) : List Nat :=
  (List.range' 1 r).reverse ++ (List.range' (r + 1) (usable - (r + 1))).reverse ++ [0]

theorem filter_bne_of_not_mem {l : List Nat} {k : Nat} (h : k ∉ l) : l.filter (· != k) = l :=
  List.filter_eq_self.mpr fun _ hj => bne_iff_ne.mpr fun heq => h (heq ▸ hj)

theorem range'_eq_cons (s : Nat) {m : Nat} (h : 0 < m) : List.range' s m = s :: List.range' (s + 1) (m - 1) := by
  obtain ⟨l, rfl⟩ : ∃ l, m = l + 1 := ⟨m - 1, by omega⟩
  rfl

theorem lap_last (h : 0 < u) : lap u (u - 1) = (List.range u).reverse := by
  unfold lap
  rw [show u - (u - 1 + 1) = 0 by omega, List.range_eq_range', range'_eq_cons 0 h]
  simp

theorem recentFirst_of_le (h : n ≤ u) : recentFirst u n = (List.range n).reverse := by
  induction n with
  | zero => rfl
  | succ n ih =>
    have hnew : n ∉ (List.range n).reverse := by simp
    rw [recentFirst, ih (by omega), nthBlock_of_lt h, filter_bne_of_not_mem hnew, List.range_succ]
    simp

/-- Taking the block behind the frontier again moves it to the front of the order. -/
theorem lap_next {r : Nat} (h : r + 1 < u) :
    (r + 1) :: (lap u r).filter (· != r + 1) = lap u (r + 1) := by
  have h₁ : r + 1 ∉ (List.range' 1 r).reverse := by
    rw [List.mem_reverse, List.mem_range'_1]
    omega
  have h₂ : r + 1 ∉ (List.range' (r + 1 + 1) (u - (r + 1) - 1)).reverse := by
    rw [List.mem_reverse, List.mem_range'_1]
    omega
  unfold lap
  rw [range'_eq_cons (r + 1) (by omega), List.filter_append, List.filter_append, filter_bne_of_not_mem h₁,
    List.reverse_cons, List.filter_append, filter_bne_of_not_mem h₂,
    show u - (r + 1) - 1 = u - (r + 1 + 1) by omega, List.range'_concat]
  simp [Nat.add_comm 1 r]

theorem lap_first (h : 2 ≤ u) : 1 :: (lap u (u - 1)).filter (· != 1) = lap u 1 := by
  have h₁ : 1 ∉ (List.range' 2 (u - 2)).reverse := by simp
  unfold lap
  rw [range'_eq_cons 1 (show 0 < u - 1 by omega), show u - (u - 1 + 1) = 0 by omega, List.filter_append,
    List.filter_append, List.reverse_cons, List.filter_append, show u - 1 - 1 = u - 2 by omega,
    filter_bne_of_not_mem h₁]
  simp

theorem recentFirst_of_ge (h : 2 ≤ u) (hn : u ≤ n) : recentFirst u n = lap u (depth u n - 1) := by
  induction n with
  | zero => omega
  | succ n ih =>
    rcases Nat.lt_or_ge n u with hlt | hge
    · obtain rfl : u = n + 1 := by omega
      rw [recentFirst_of_le (Nat.le_refl _), depth_of_le (Nat.le_refl _), lap_last (by omega)]
    · rw [recentFirst, ih hge]
      have hle : depth u n ≤ u := depth_le fun _ => h
      have hpos := two_le_depth (u := u) (show 2 ≤ n by omega)
      rcases Nat.lt_or_ge (depth u n) u with hd | hd
      · have hdepth := depth_succ_of_lt hd
        have := lap_next (u := u) (r := depth u n - 1) (by omega)
        unfold nthBlock
        rw [hdepth]
        rwa [show depth u n - 1 + 1 = depth u n + 1 - 1 by omega] at this
      · have hdepth := depth_succ_of_le (show 0 < n by omega) hd
        unfold nthBlock
        rw [hdepth, show depth u n = u by omega]
        exact lap_first h

/-- Readers see the opened blocks by their most recent opening, the latest first. -/
theorem Opened.newestFirst_eq (h : a.Opened n) : a.newestFirst = recentFirst a.usable n := by
  unfold newestFirst
  split
  · rename_i hw
    have hn := h.wrapped_iff.mp hw
    have hd : (a.high - a.next) / blockWords = depth a.usable n := by
      have := h.next_add
      unfold blockWords at *
      omega
    rw [recentFirst_of_ge (h.two_le hn) (Nat.le_of_lt hn), hd]
    rfl
  · rename_i hw
    have hn : n ≤ a.usable := Nat.le_of_not_lt fun hlt => hw (h.wrapped_iff.mpr hlt)
    rw [recentFirst_of_le hn, h.claimed_eq, Nat.min_eq_left hn]

/-- The openings after the first whose blocks were not taken again: the latest ones, up to a lap. -/
def surviving (usable n : Nat) : List Nat :=
  List.range' (n - min (n - 1) (usable - 1)) (min (n - 1) (usable - 1))

/-- The openings whose blocks were taken again. -/
def overwritten (usable n : Nat) : List Nat := List.range' 1 (n - 1 - min (n - 1) (usable - 1))

theorem range_eq_surviving (u : Nat) (h : 0 < n) : List.range n = 0 :: (overwritten u n ++ surviving u n) := by
  obtain ⟨l, rfl⟩ : ∃ l, n = l + 1 := ⟨n - 1, by omega⟩
  have hsplit : l = l + 1 - 1 - min (l + 1 - 1) (u - 1) + min (l + 1 - 1) (u - 1) := by omega
  have hstart : 1 + (l + 1 - 1 - min (l + 1 - 1) (u - 1)) = l + 1 - min (l + 1 - 1) (u - 1) := by omega
  unfold overwritten surviving
  rw [List.range_eq_range', List.range'_succ, ← hstart, List.range'_append_1, ← hsplit]

theorem mem_surviving_iff {i : Nat} : i ∈ surviving u n ↔ 0 < i ∧ i < n ∧ n - i ≤ u - 1 := by
  unfold surviving
  rw [List.mem_range'_1]
  omega

/-- Neither block 0 nor the blocks of the surviving openings were taken again. -/
theorem nthBlock_ne_of_surviving {i j : Nat} (h : n ≤ u ∨ 2 ≤ u) (hi : i = 0 ∨ i ∈ surviving u n) (hij : i < j)
    (hj : j < n) : nthBlock u j ≠ nthBlock u i := by
  intro heq
  obtain ⟨hpos, hdvd⟩ := (nthBlock_eq_iff (by omega) hij).mp heq.symm
  have hle := Nat.le_of_dvd (by omega) hdvd
  rcases hi with rfl | hi
  · exact absurd hpos (Nat.lt_irrefl 0)
  · have := mem_surviving_iff.mp hi
    omega

/-- The blocks that readers see are block 0 and those of the surviving openings. -/
theorem recentFirst_succ (h : n + 1 ≤ u ∨ 2 ≤ u) :
    recentFirst u (n + 1) = (surviving u (n + 1)).reverse.map (nthBlock u) ++ [0] := by
  induction n with
  | zero => simp [recentFirst, surviving]
  | succ n ih =>
    have hu : 2 ≤ u := by omega
    have hzero : nthBlock u (n + 1) ∉ [0] := by
      have := nthBlock_pos (u := u) (show 0 < n + 1 by omega)
      simp only [List.mem_singleton]
      omega
    -- in the lap up to the new opening only the opening a whole lap ago took the same block
    have hkeep : ∀ s m, 0 < s → s + m ≤ n + 1 → n + 1 - s < u - 1 →
        nthBlock u (n + 1) ∉ (List.range' s m).reverse.map (nthBlock u) := by
      intro s m hpos hstop hlap hmem
      obtain ⟨i, hi, heq⟩ := List.mem_map.mp hmem
      rw [List.mem_reverse, List.mem_range'_1] at hi
      have hdvd := ((nthBlock_eq_iff (Or.inr hu) (by omega)).mp heq).2
      have := Nat.le_of_dvd (by omega) hdvd
      omega
    rw [recentFirst, ih (by omega), List.filter_append, filter_bne_of_not_mem hzero]
    unfold surviving
    rcases Nat.lt_or_ge n (u - 1) with hlt | hge
    · rw [show min (n + 1 - 1) (u - 1) = n by omega, show min (n + 1 + 1 - 1) (u - 1) = n + 1 by omega,
        show n + 1 - n = 1 by omega, show n + 1 + 1 - (n + 1) = 1 by omega,
        filter_bne_of_not_mem (hkeep 1 n Nat.one_pos (by omega) (by omega)), List.range'_concat]
      simp [Nat.add_comm 1 n]
    · obtain ⟨l, rfl⟩ : ∃ l, u = l + 2 := ⟨u - 2, by omega⟩
      have hold : nthBlock (l + 2) (n - l) = nthBlock (l + 2) (n + 1) := by
        refine (nthBlock_eq_iff (Or.inr hu) (by omega)).mpr ⟨by omega, ?_⟩
        rw [show n + 1 - (n - l) = l + 2 - 1 by omega]
      rw [show min (n + 1 - 1) (l + 2 - 1) = l + 1 by omega, show min (n + 1 + 1 - 1) (l + 2 - 1) = l + 1 by omega,
        show n + 1 - (l + 1) = n - l by omega, show n + 1 + 1 - (l + 1) = n - l + 1 by omega, List.range'_succ,
        List.reverse_cons, List.map_append, List.filter_append,
        filter_bne_of_not_mem (hkeep (n - l + 1) l (by omega) (by omega) (by omega)), List.range'_concat]
      simp [hold, show n - l + 1 + l = n + 1 by omega]

theorem mem_recentFirst_iff {k : Nat} : k ∈ recentFirst u n ↔ ∃ m < n, nthBlock u m = k := by
  induction n with
  | zero => simp [recentFirst]
  | succ n ih =>
    rw [recentFirst, List.mem_cons, List.mem_filter, ih, bne_iff_ne]
    constructor
    · rintro (rfl | ⟨⟨m, hm, rfl⟩, -⟩)
      · exact ⟨n, by omega, rfl⟩
      · exact ⟨m, by omega, rfl⟩
    · rintro ⟨m, hm, rfl⟩
      by_cases heq : nthBlock u m = nthBlock u n
      · exact Or.inl heq
      · refine Or.inr ⟨⟨m, ?_, rfl⟩, heq⟩
        rcases Nat.lt_succ_iff_lt_or_eq.mp hm with hlt | rfl
        · exact hlt
        · exact absurd rfl heq

theorem Opened.nthBlock_lt_claimed (h : a.Opened n) {i : Nat} (hi : i < n) : nthBlock a.usable i < a.claimed := by
  have htwo := h.two_le
  have hlt : nthBlock a.usable i < a.usable := nthBlock_lt (by omega)
  rw [h.claimed_eq]
  rcases Nat.lt_or_ge a.usable n with hn | hn
  · omega
  · rw [nthBlock_of_lt (by omega)] at hlt ⊢
    omega

theorem Opened.lt_claimed_of_mem (h : a.Opened n) {k : Nat} (hk : k ∈ a.newestFirst) : k < a.claimed := by
  rw [h.newestFirst_eq] at hk
  obtain ⟨i, hi, rfl⟩ := mem_recentFirst_iff.mp hk
  exact h.nthBlock_lt_claimed hi

theorem nodup_recentFirst (u n : Nat) : (recentFirst u n).Nodup := by
  induction n with
  | zero => exact List.nodup_nil
  | succ n ih =>
    rw [recentFirst, List.nodup_cons]
    exact ⟨fun h => by simp at h, ih.filter _⟩

/-- Readers see the blocks claimed, each of them once. -/
theorem Opened.newestFirst_perm (h : a.Opened n) : a.newestFirst.Perm (List.range a.claimed) := by
  rw [h.newestFirst_eq]
  refine (List.perm_ext_iff_of_nodup (nodup_recentFirst _ _) List.nodup_range).mpr fun k => ?_
  rw [mem_recentFirst_iff, List.mem_range]
  constructor
  · rintro ⟨i, hi, rfl⟩
    exact h.nthBlock_lt_claimed hi
  · intro hk
    rw [h.claimed_eq] at hk
    exact ⟨k, by omega, nthBlock_of_lt (by omega)⟩

end EventRecorder.Arena
