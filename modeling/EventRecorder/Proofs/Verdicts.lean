import EventRecorder.Proofs.Checked.Runs

/-! # Verdicts on claims

A CPU claims words by moving its cursor, and an interrupt may have sent the cursor to another block in between. All that
tells what became of the claim are the limits of the cursor before and after. Limits are ends of blocks, and no two
blocks share a word, so a claim in the block that was left is not taken for one in the new block. A claim that is
accepted keeps to its block, and one that runs over the end of the block begins in the zero words of its tail. -/

namespace EventRecorder

open Size Ledger Arena

variable {P : Type} {after before c i k l m : Nat} {claim : Span} {t : Tracer P} {log : Ledger}

/-! ### Ends of blocks -/

/-- A word index at which a block can end. -/
def IsBlockEnd (l : Nat) : Prop := 0 < l ∧ blockWords ∣ l

/-- The word `i` lies in the block that ends at `l`. -/
def InBlock (l i : Nat) : Prop := l - blockWords ≤ i ∧ i < l

instance : Decidable (InBlock l i) := inferInstanceAs (Decidable (_ ∧ _))

theorem IsBlockEnd.blockWords_le (h : IsBlockEnd l) : blockWords ≤ l := Nat.le_of_dvd h.1 h.2

/-- No word lies in two blocks. -/
theorem IsBlockEnd.eq_of_inBlock (hl : IsBlockEnd l) (hm : IsBlockEnd m) (hil : InBlock l i) (him : InBlock m i) :
    l = m := by
  unfold IsBlockEnd InBlock blockWords at *
  omega

theorem Arena.isBlockEnd_blockStop (a : Arena) (k : Nat) : IsBlockEnd (a.blockStop k) := by
  refine ⟨a.blockStop_pos k, ?_⟩
  unfold blockStop blockStart high
  rw [← Nat.sub_mul]
  exact Nat.dvd_add (Nat.dvd_mul_left ..) (Nat.dvd_refl _)

/-- The limit of a cursor is the end of a block, and the cursor stands in this block or behind it. -/
theorem History.limit_of_cursor [Platform P] (h : History t log) (c : Nat) : (t.cursor c).limit = 0 ∨
    IsBlockEnd (t.cursor c).limit ∧ (t.cursor c).limit - blockWords ≤ (t.cursor c).next := by
  rcases h.place_of_limit c with hunset | ⟨k, -, hlimit, hnext⟩
  · exact Or.inl hunset
  · have hstart : t.arena.blockStop k - blockWords = t.arena.blockStart k := Nat.add_sub_cancel ..
    rw [hlimit, hstart]
    exact Or.inr ⟨t.arena.isBlockEnd_blockStop k,
      Nat.le_trans (Nat.le_of_lt (t.arena.blockStart_lt_recordStart k)) hnext⟩

/-! ### What a verdict says -/

theorem verdict_of_set (h : after ≠ 0) : verdict before after claim =
    if before ≠ after ∧ ¬ InBlock after claim.start then .retry
    else if after ≤ claim.stop then .overflow else .accept := by
  have hmoved : (decide (before ≠ after) && !(decide (after - blockWords ≤ claim.start) && decide (claim.start < after)))
      = true ↔ before ≠ after ∧ ¬ InBlock after claim.start := by
    rw [Bool.and_eq_true, decide_eq_true_iff, ← Bool.decide_and, Bool.not_eq_true', decide_eq_false_iff_not]
    rfl
  simp only [verdict, if_neg h, hmoved]

/-- A claim is made again only if the limit has changed and the claim does not start in the new block. -/
theorem verdict_eq_retry_iff (h : after ≠ 0) :
    verdict before after claim = .retry ↔ before ≠ after ∧ ¬ InBlock after claim.start := by
  rw [verdict_of_set h]
  grind

theorem verdict_eq_overflow_iff (h : after ≠ 0) : verdict before after claim = .overflow ↔
    (before = after ∨ InBlock after claim.start) ∧ after ≤ claim.stop := by
  rw [verdict_of_set h]
  grind

theorem verdict_eq_accept_iff (h : after ≠ 0) : verdict before after claim = .accept ↔
    (before = after ∨ InBlock after claim.start) ∧ claim.stop < after := by
  rw [verdict_of_set h]
  grind

/-- What the verdict on a claim means when the limit of the cursor went from `before` to `after`. -/
structure Judged (before after : Nat) (claim : Span) : Prop where
  accept_iff : verdict before after claim = .accept ↔ after - blockWords ≤ claim.start ∧ claim.stop < after
  /-- The words of an accepted claim lie in one block, and its last word is none of them. -/
  inside : verdict before after claim = .accept →
    ∀ i, claim.start ≤ i → i < claim.stop → InBlock after i ∧ i ≠ after - 1
  /-- A claim in the block that was left is made again. -/
  left : before ≠ after → InBlock before claim.start → verdict before after claim = .retry
  /-- A claim that runs over the end of its block starts in the tail. -/
  overrun : verdict before after claim = .overflow → claim.start < after →
    after - claim.start ≤ claim.len ∧ after - claim.start ≤ tailWords
  /-- No check stops a machine on the way to the verdict if the end of the claim is a size. -/
  checked : claim.stop < 2 ^ 64 → verdict? before after claim = some (verdict before after claim)

theorem judged_of_blockEnds (hbefore : IsBlockEnd before) (hafter : IsBlockEnd after)
    (hlen : Event.isValidLength claim.len = true) (hstart : before = after → before - blockWords ≤ claim.start) :
    Judged before after claim := by
  have hset : after ≠ 0 := Nat.ne_of_gt hafter.1
  have haccept : verdict before after claim = .accept ↔ after - blockWords ≤ claim.start ∧ claim.stop < after := by
    rw [verdict_eq_accept_iff hset]
    constructor
    · rintro ⟨rfl | hin, hstop⟩
      · exact ⟨hstart rfl, hstop⟩
      · exact ⟨hin.1, hstop⟩
    · rintro ⟨hlow, hstop⟩
      exact ⟨Or.inr ⟨hlow, Nat.lt_of_le_of_lt claim.start_le_stop hstop⟩, hstop⟩
  refine ⟨haccept, ?_, ?_, ?_, ?_⟩
  · intro h i hi hlt
    obtain ⟨hlow, hstop⟩ := haccept.mp h
    exact ⟨⟨Nat.le_trans hlow hi, Nat.lt_trans hlt hstop⟩, by omega⟩
  · intro hne hin
    exact (verdict_eq_retry_iff hset).mpr ⟨hne, fun hin' => hne (hbefore.eq_of_inBlock hafter hin hin')⟩
  · intro h hlt
    have hstop : after ≤ claim.start + claim.len := ((verdict_eq_overflow_iff hset).mp h).2
    have hle : claim.len ≤ tailWords := (isValidLength_iff.mp hlen).2
    omega
  · intro hstop
    exact verdict?_eq (Or.inr hafter.blockWords_le) hstop before

/-- Whatever ends of blocks the limit of a cursor was before and after a claim of a possible length, the claim is accepted
just when it lies in the block that ends at the limit after it and leaves out the last word of this block. A limit that
did not change needs the claim to start in its block or behind it, and every cursor of a tracer with a block stands so. -/
theorem verdicts_keep_to_block [Platform P] :
    (∀ (before after : Nat) (claim : Span), IsBlockEnd before → IsBlockEnd after →
      Event.isValidLength claim.len = true → (before = after → before - blockWords ≤ claim.start) →
      Judged before after claim) ∧
    ∀ (t : Tracer P) (log : Ledger), History t log → ∀ c, (t.cursor c).limit = 0 ∨
      IsBlockEnd (t.cursor c).limit ∧ (t.cursor c).limit - blockWords ≤ (t.cursor c).next :=
  ⟨fun _ _ _ => judged_of_blockEnds, fun _ _ h => h.limit_of_cursor⟩

/-- The limit went from the end of block 0 to that of block 1. Of two claims that start one word apart in block 1, the first
still leaves out the last word; a claim in block 0 is made again, though the cursor of a CPU at work there allows for it. -/
theorem verdicts_keep_to_block_of_lower_block :
    IsBlockEnd 16384 ∧ IsBlockEnd 8192 ∧ Event.isValidLength 8 = true ∧
      Judged 16384 8192 ⟨8183, 8⟩ ∧ verdict 16384 8192 ⟨8183, 8⟩ = .accept ∧
      Judged 16384 8192 ⟨8184, 8⟩ ∧ verdict 16384 8192 ⟨8184, 8⟩ = .overflow ∧
      Judged 16384 8192 ⟨8212, 8⟩ ∧ verdict 16384 8192 ⟨8212, 8⟩ = .retry ∧
      ∃ (t : Tracer TimeOnly) (log : Ledger), History t log ∧ (t.cursor 0).limit = 16384 ∧ (t.cursor 0).next = 8212 ∧
        16384 - blockWords ≤ (t.cursor 0).next ∧ Judged 16384 16384 ⟨8212, 8⟩ := by
  obtain ⟨hjudged, hcursor⟩ := verdicts_keep_to_block (P := TimeOnly)
  have hhigh : IsBlockEnd 16384 := ⟨by decide, by decide⟩
  have hlow : IsBlockEnd 8192 := ⟨by decide, by decide⟩
  have hmoved : ∀ start, Judged 16384 8192 ⟨start, 8⟩ := fun start =>
    hjudged 16384 8192 ⟨start, 8⟩ hhigh hlow rfl fun h => absurd h (by decide)
  have hnew : History _ [] := .new (show Tracer.ofConfig ({} : TimeOnly) { blocks := 2 } = .ok _ from rfl)
  have hclaimed := hnew.act {} (.claim 0 8)
  refine ⟨hhigh, hlow, rfl, hmoved _, rfl, hmoved _, rfl, hmoved _, rfl, _, _, hclaimed, ?_, ?_, ?_, ?_⟩
  · decide +kernel
  · decide +kernel
  · exact ((hcursor _ _ hclaimed 0).resolve_left (by decide +kernel)).2
  · exact hjudged 16384 16384 ⟨8212, 8⟩ hhigh hhigh rfl fun _ => by decide

end EventRecorder
