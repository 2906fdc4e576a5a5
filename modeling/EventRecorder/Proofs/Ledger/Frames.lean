import EventRecorder.Proofs.Arena.Words
import EventRecorder.Proofs.Ledger.Placement

/-! # The frame of a block

The words in front of the records of a block and its last word are its frame. Records, folds and rates are written
elsewhere, and a flush clears no more of the frame than the last word: the frame of a block changes when the block is
opened, and the last word of every opened block is zero. -/

namespace EventRecorder

open Ledger LogView Arena

variable {P : Type} {a b : Arena} {i j k n s : Nat} {g p : Grant} {log : Ledger} {m : Mode} {v w : LogView}
  {x y : LogView × Ledger}

/-- The word lies in block `k`, in front of its records or at its end. -/
structure Arena.InFrame (a : Arena) (k i : Nat) : Prop where
  start : a.blockStart k ≤ i
  stop : i < a.blockStop k
  outside : i < a.recordStart k ∨ i + 1 = a.blockStop k

theorem Arena.InFrame.of_header (h₁ : a.blockStart k ≤ i) (h₂ : i < a.recordStart k) : a.InFrame k i :=
  ⟨h₁, Nat.lt_trans h₂ (a.recordStart_lt_blockStop k), Or.inl h₂⟩

theorem Arena.InFrame.last (a : Arena) (k : Nat) : a.InFrame k (a.blockStop k - 1) := by
  have hlt := a.recordStart_lt_blockStop k
  have hheader := a.blockStart_lt_recordStart k
  exact ⟨by omega, by omega, Or.inr (by omega)⟩

/-- What lies between the header and the last word of a block lies outside of all frames. -/
theorem Arena.InFrame.apart (h : a.InFrame k i) (hk : k < a.blocks) (hj : j < a.blocks) (h₁ : a.recordStart j ≤ s)
    (h₂ : s + n < a.blockStop j) : i < s ∨ s + n ≤ i := by
  have hout := h.outside
  by_cases hkj : k = j
  · subst hkj
    omega
  · have hheader := a.blockStart_lt_recordStart j
    exact outside_of_ne hk hj hkj h.start h.stop (by omega) (Nat.le_of_lt h₂)

/-! ### Openings -/

theorem Step.openingsOf_le (h : Step m x y) : openingsOf k x.2 ≤ openingsOf k y.2 := by
  cases h with
  | extend | take => exact openingsOf_le_cons ..
  | fold => exact Nat.le_of_eq (openingsOf_amendLatest ..).symm
  | _ => exact Nat.le_refl _

/-- The claimed blocks are those that were opened. -/
theorem Placed.claimed_iff (h : Placed m v (shape log)) : k < v.arena.claimed ↔ 0 < openingsOf k log := by
  rw [← openingsOf_shape]
  unfold openingsOf
  rw [List.countP_pos_iff, h.opened.claimed_eq]
  constructor
  · intro hk
    have hnth := nthBlock_of_lt (u := v.arena.usable) (n := k) (by omega)
    obtain ⟨g, hg, hfresh, hblock⟩ := h.placing.exists_of_opening k (by omega)
    exact ⟨g, hg, by simp [hfresh, hblock, hnth]⟩
  · rintro ⟨g, hg, hfresh⟩
    obtain ⟨-, rfl⟩ : g.fresh = true ∧ g.block = k := by simpa using hfresh
    obtain ⟨i, hi, hblock⟩ := (h.placing.inside g hg).opened
    rw [← h.opened.claimed_eq, ← hblock]
    exact h.opened.nthBlock_lt_claimed hi

/-- What a CPU has left of its block lies behind the headers of all blocks. -/
theorem Placed.recordStart_le_of_room {c : Nat} (h : Placed m v log) (hroom : (v.cursor c).hasRoom = true)
    (hk : k < v.arena.usable) (hi : v.arena.InFrame k i) (h₁ : (v.cursor c).next ≤ i) (h₂ : i < (v.cursor c).limit) :
    v.arena.recordStart k ≤ i := by
  obtain ⟨p, -, hnext, hlimit, hin⟩ := h.latest_of_hasRoom hroom
  have hrecord := Nat.le_trans hin.start p.span.start_le_stop
  have hstart := v.arena.blockStart_lt_recordStart p.block
  by_cases hkp : k = p.block
  · subst hkp
    omega
  · have hout := outside_of_ne (n := blockWords) (h.opened.lt_blocks hk) (h.opened.lt_blocks hin.block) hkp hi.start hi.stop
      (Nat.le_refl _) (Nat.le_refl _)
    unfold blockStop at hlimit
    omega

/-! ### Steps -/

section Took
variable {o : Opening} {header : Header} {task : Task}

/-- Taking a block changes no other block. -/
theorem Took.word_of_outside (ht : Took v w log g o a header task)
    (hi : i < v.arena.blockStart g.block ∨ v.arena.blockStop g.block ≤ i) : w.arena.word i = v.arena.word i := by
  have hle := length_words_le ht.words
  have hstart := ht.start
  have hstop := ht.stop
  have hheader := v.arena.blockStart_lt_recordStart g.block
  rw [ht.arena, word_setWords_of_outside _ (by omega), word_startFilling, word_layOut_of_outside _ _ _ ?_,
    word_of_words ht.taken.words]
  rw [ht.opening_start]
  exact hi

theorem Took.last (ht : Took v w log g o a header task) :
    w.arena.word (v.arena.blockStop g.block - 1) = 0 := by
  have hle := length_words_le ht.words
  have hstop := ht.stop
  have hend : o.start + blockWords = v.arena.blockStop g.block := congrArg (· + blockWords) ht.opening_start
  rw [ht.arena, word_setWords_of_outside _ (by omega), word_startFilling]
  exact word_layOut_tail _ _ _ (by unfold tailWords; omega) (by omega)

end Took

/-- A step that opens no block changes its frame no further than by clearing the last word. -/
theorem Step.frame (hs : Step m x y) (hp : Placed m x.1 (shape x.2)) (hk : k < x.1.arena.usable)
    (hi : x.1.arena.InFrame k i) (hopen : openingsOf k y.2 ≤ openingsOf k x.2) :
    y.1.arena.word i = x.1.arena.word i ∨ y.1.arena.word i = 0 ∧ x.1.arena.recordStart k ≤ i := by
  have hlt := hp.opened.lt_blocks hk
  cases hs with
  | rest ha hw => exact Or.inl (congrArg (Arena.word · i) ha)
  | extend hlen _ hfits hws ha hw =>
    obtain ⟨p, he⟩ := hp.extended hlen hfits hws ha hw
    have hle := length_words_le he.words
    have hout := hi.apart hlt (he.block ▸ hp.opened.lt_blocks he.prior.block) he.start_ge (Nat.lt_of_le_of_lt hle he.stop)
    exact Or.inl ((congrArg (Arena.word · i) ha).trans (word_setWords_of_outside _ hout))
  | leave _ _ _ ha hw =>
    obtain ⟨-, ha⟩ | ⟨-, ha⟩ := ha
    · exact Or.inl (congrArg (Arena.word · i) ha)
    · exact Or.inl ((congrArg (Arena.word · i) ha).trans (word_close ..))
  | exhaust ha hw => exact Or.inl (word_of_words (openBlock_none_same ha).1 i)
  | take hlen hcpu hroom hws ho hheader ha hw =>
    have ht := hp.took hlen hcpu hroom hws ho hheader ha hw
    have hne := ne_of_openingsOf_le ht.fresh hopen
    exact Or.inl (ht.word_of_outside (outside_of_ne (n := blockWords) hlt (hp.opened.lt_blocks ht.block_lt) hne.symm
      hi.start hi.stop (Nat.le_refl _) (Nat.le_refl _)))
  | fold hroom ha hw =>
    obtain ⟨p, -, hnext, -, hin⟩ := hp.latest_of_hasRoom hroom
    have hlen := hin.len
    have hstart := hin.start
    have hstop := hin.stop
    have hspan : p.span.stop = p.span.start + p.span.len := rfl
    have hout := hi.apart (s := p.span.stop - 1) (n := 1) hlt (hp.opened.lt_blocks hin.block) (by omega) (by omega)
    dsimp only at hnext ⊢
    rw [ha, hnext]
    exact Or.inl (word_setWord_of_ne _ (by omega))
  | rate hrates hrate ha hw =>
    have hbelow := hp.rate_lt_limit hrates hrate
    have habove := hp.opened.limit_le_blockStart hk
    have hstart := hi.start
    refine Or.inl ((congrArg (Arena.word · i) ha).trans (word_setWord_of_ne _ (by omega)))
  | flush _ hroom ha hw =>
    have hword := congrArg (Arena.word · i) ha
    rw [word_zero, word_close] at hword
    split at hword
    · rename_i hcleared
      have hlt := Cursor.hasRoom_iff.mp hroom
      exact Or.inr ⟨hword, hp.recordStart_le_of_room hroom hk hi hcleared.1 (by dsimp only; omega)⟩
    · exact Or.inl hword

/-- A step that opens a block grants the first words of it. -/
theorem Step.took (hs : Step m x y) (hp : Placed m x.1 (shape x.2)) (hopen : openingsOf k x.2 < openingsOf k y.2) :
    ∃ g o a header task, g.block = k ∧ y.2 = g :: x.2 ∧ Took x.1 y.1 x.2 g o a header task := by
  cases hs with
  | extend =>
    rw [openingsOf_of_not_fresh (by rfl)] at hopen
    exact absurd hopen (Nat.lt_irrefl _)
  | take hlen hcpu hroom hws ho hheader ha hw =>
    have ht := hp.took hlen hcpu hroom hws ho hheader ha hw
    rw [openingsOf_of_fresh ht.fresh] at hopen
    split at hopen
    · rename_i hblock
      exact ⟨_, _, _, _, _, hblock, rfl, ht⟩
    · exact absurd hopen (Nat.lt_irrefl _)
  | fold =>
    dsimp only at hopen
    rw [openingsOf_amendLatest] at hopen
    exact absurd hopen (Nat.lt_irrefl _)
  | _ => exact absurd hopen (Nat.lt_irrefl _)

/-- The last words of all opened blocks are zero. -/
def Sealed (v : LogView) (log : Ledger) : Prop := ∀ k, 0 < openingsOf k log → v.arena.word (v.arena.blockStop k - 1) = 0

theorem Sealed.step (hp : Placed m x.1 (shape x.2)) (h : Sealed x.1 x.2) (hs : Step m x y) :
    Sealed y.1 y.2 := by
  intro k hk
  rw [blockStop_congr hs.same_layout.1]
  rcases Nat.lt_or_ge (openingsOf k x.2) (openingsOf k y.2) with hopened | hkept
  · obtain ⟨g, o, a, header, task, rfl, -, ht⟩ := hs.took hp hopened
    exact ht.last
  · have hopen : 0 < openingsOf k x.2 := Nat.lt_of_lt_of_le hk hkept
    have husable := Nat.lt_of_lt_of_le (hp.claimed_iff.mpr hopen) hp.opened.claimed_le
    rcases hs.frame hp husable (InFrame.last ..) hkept with hsame | ⟨hzero, -⟩
    · exact hsame.trans (h k hopen)
    · exact hzero

/-! ### Runs -/

/-- The header of a block stays as long as the block is not opened again. -/
theorem Leads.header {t u : Tracer P} {log' : Ledger} (h : Leads t log u log') (hp : Placed t.mode t.view (shape log))
    (hk : k < t.arena.usable) (hopen : openingsOf k log' ≤ openingsOf k log) (h₁ : t.arena.blockStart k ≤ i)
    (h₂ : i < t.arena.recordStart k) : u.arena.word i = t.arena.word i := by
  have hrun := h.induction (I := fun y => Placed t.mode y.1 (shape y.2) ∧ y.1.arena.blocks = t.arena.blocks ∧
      y.1.arena.limit = t.arena.limit ∧ openingsOf k log ≤ openingsOf k y.2 ∧
      (openingsOf k y.2 ≤ openingsOf k log → y.1.arena.word i = t.arena.word i))
    ⟨hp, rfl, rfl, Nat.le_refl _, fun _ => rfl⟩ ?_
  · exact hrun.2.2.2.2 hopen
  · rintro x y ⟨hp, hblocks, hlimit, hle, hsame⟩ hs
    obtain ⟨hblocks', hlimit', -⟩ := hs.same_layout
    have hmono := hs.openingsOf_le (k := k)
    refine ⟨hp.step hs, hblocks'.trans hblocks, hlimit'.trans hlimit, Nat.le_trans hle hmono, fun hlast => ?_⟩
    have hstart := blockStart_congr hblocks k
    have hrecord := recordStart_congr hblocks k
    have husable : k < x.1.arena.usable := (usable_congr hblocks hlimit).symm ▸ hk
    have hframe : x.1.arena.InFrame k i := .of_header (hstart.symm ▸ h₁) (hrecord.symm ▸ h₂)
    rcases hs.frame hp husable hframe (Nat.le_trans hlast hle) with hword | ⟨-, hbehind⟩
    · exact hword.trans (hsame (Nat.le_trans hmono hlast))
    · rw [hrecord] at hbehind
      exact absurd h₂ (Nat.not_lt_of_le hbehind)

theorem History.sealed [Platform P] {t : Tracer P} (h : History t log) (hk : k < t.arena.claimed) :
    t.arena.word (t.arena.blockStop k - 1) = 0 :=
  h.invariant (I := Sealed) (fun _ _ _ _ hk => absurd hk (Nat.not_lt_zero _)) Sealed.step k (h.placed.claimed_iff.mp hk)

end EventRecorder
