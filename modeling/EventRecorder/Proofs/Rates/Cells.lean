import EventRecorder.Proofs.Bytes
import EventRecorder.Proofs.Checked.Arena
import Mathlib.Data.List.DropRight

/-! # Rates as cells

A rate byte is set, or bits are added to it, by a change of the word that holds it and seven others. After any number of
such writes each rate is what was last written to it, as if it had a cell of its own, and all words that hold no rate
written are as they were. The raw view of the rates counts its words down from the top of the rates, the raw view of the
log counts its words down from the top of the arena, and both count alike. -/

namespace EventRecorder.Arena

variable {a b : Arena} {i j : Nat}

/-! ### Writes -/

/-- A write to the rate of one word. -/
inductive RateWrite where
  | set (i : Nat) (b : UInt8)
  | add (i : Nat) (b : UInt8)
deriving DecidableEq

namespace RateWrite

/-- The word whose rate is written. -/
def index : RateWrite → Nat
  | set i _ | add i _ => i

/-- The byte that the rate of the word `i` is set to. -/
def setAt? (i : Nat) : RateWrite → Option UInt8
  | set j b => if j = i then some b else none
  | add .. => none

/-- The bits that are added to the rate of the word `i`. -/
def addedAt (i : Nat) : RateWrite → UInt8
  | set .. => 0
  | add j b => if j = i then b else 0

/-- The byte that the rate of the word `i` was last set to; `b` if it never was. -/
def lastSet (i : Nat) (b : UInt8) (writes : List RateWrite) : UInt8 :=
  (writes.filterMap (·.setAt? i)).getLastD b

/-- The bits that were added to the rate of the word `i` after it was last set. -/
def addedLater (i : Nat) (writes : List RateWrite) : UInt8 :=
  ((writes.rtakeWhile fun w => (w.setAt? i).isNone).map (·.addedAt i)).foldl (· ||| ·) 0

variable {w : RateWrite}

theorem setAt?_of_ne (h : w.index ≠ i) : w.setAt? i = none := by
  cases w with
  | set j b => exact if_neg h
  | add j b => rfl

theorem addedAt_of_ne (h : w.index ≠ i) : w.addedAt i = 0 := by
  cases w with
  | set j b => rfl
  | add j b => exact if_neg h

theorem lastSet_concat (i : Nat) (b : UInt8) (writes : List RateWrite) (w : RateWrite) :
    lastSet i b (writes ++ [w]) = (w.setAt? i).getD (lastSet i b writes) := by
  unfold lastSet
  cases h : w.setAt? i <;> simp [h]

theorem addedLater_concat (i : Nat) (writes : List RateWrite) (w : RateWrite) :
    addedLater i (writes ++ [w]) = if (w.setAt? i).isNone then addedLater i writes ||| w.addedAt i else 0 := by
  unfold addedLater
  cases h : w.setAt? i <;> simp [h]

end RateWrite

open RateWrite

def writeRate (a : Arena) : RateWrite → Arena
  | .set i b => a.setRate i b
  | .add i b => a.orRate i b

def writeRates (a : Arena) (writes : List RateWrite) : Arena := writes.foldl writeRate a

/-- Writes as a machine does. -/
def writeRate? (a : Arena) : RateWrite → Option Arena
  | .set i b => a.setRate? i b
  | .add i b => a.orRate? i b

variable {w : RateWrite} {writes : List RateWrite}

/-- A write changes at most the word that holds the rate. -/
theorem writeRate_eq (a : Arena) (w : RateWrite) : ∃ v, a.writeRate w = a.setWord (w.index / 8) v := by
  cases w with
  | set i b => exact ⟨_, rfl⟩
  | add i b => exact ⟨_, rfl⟩

theorem word_writeRate_of_ne (h : w.index / 8 ≠ j) : (a.writeRate w).word j = a.word j := by
  obtain ⟨v, hv⟩ := a.writeRate_eq w
  rw [hv, word_setWord_of_ne v h]

theorem writeRate_sameFrontier (a : Arena) (w : RateWrite) : a.SameFrontier (a.writeRate w) := by
  obtain ⟨v, hv⟩ := a.writeRate_eq w
  rw [hv]
  exact .setWord a _ v

@[simp] theorem marks_writeRate (a : Arena) (w : RateWrite) : (a.writeRate w).marks = a.marks := by
  obtain ⟨v, hv⟩ := a.writeRate_eq w
  rw [hv, marks_setWord]

theorem writeRate?_eq (h : w.index / 8 < a.high) : a.writeRate? w = some (a.writeRate w) := by
  cases w with
  | set i b => exact setRate?_eq h b
  | add i b => exact orRate?_eq h b

theorem rate_writeRate_of_ne (h : w.index ≠ i) : (a.writeRate w).rate i = a.rate i := by
  cases w with
  | set j b => exact rate_setRate_of_ne h b
  | add j b => exact rate_orRate_of_ne h b

/-- A write sets the rate that it is for, or adds to it, and leaves every other one as it was. -/
theorem rate_writeRate (h : w.index / 8 < a.high) (i : Nat) :
    (a.writeRate w).rate i = (w.setAt? i).getD (a.rate i) ||| w.addedAt i := by
  by_cases hi : w.index = i
  · subst hi
    cases w with
    | set j b =>
      have hrate : (a.setRate j b).rate j = b := rate_setRate h b
      simpa [writeRate, index, setAt?, addedAt] using hrate
    | add j b =>
      have hrate : (a.orRate j b).rate j = a.rate j ||| b := rate_orRate h b
      simpa [writeRate, index, setAt?, addedAt] using hrate
  · rw [rate_writeRate_of_ne hi, setAt?_of_ne hi, addedAt_of_ne hi, UInt8.or_zero, Option.getD_none]

/-! ### Cells -/

theorem writeRates_concat (a : Arena) (writes : List RateWrite) (w : RateWrite) :
    a.writeRates (writes ++ [w]) = (a.writeRates writes).writeRate w := List.foldl_concat ..

theorem writeRates_sameFrontier (a : Arena) (writes : List RateWrite) : a.SameFrontier (a.writeRates writes) := by
  induction writes generalizing a with
  | nil => exact .refl a
  | cons w writes ih => exact (a.writeRate_sameFrontier w).trans (ih _)

theorem marks_writeRates (a : Arena) (writes : List RateWrite) : (a.writeRates writes).marks = a.marks := by
  induction writes generalizing a with
  | nil => rfl
  | cons w writes ih => exact (ih _).trans (a.marks_writeRate w)

theorem word_writeRates_of_ne (h : ∀ w ∈ writes, w.index / 8 ≠ j) : (a.writeRates writes).word j = a.word j := by
  induction writes generalizing a with
  | nil => rfl
  | cons w writes ih =>
    obtain ⟨hw, hwrites⟩ := List.forall_mem_cons.mp h
    exact (ih hwrites).trans (word_writeRate_of_ne hw)

theorem writeRates?_eq (h : ∀ w ∈ writes, w.index / 8 < a.high) :
    writes.foldlM writeRate? a = some (a.writeRates writes) := by
  induction writes generalizing a with
  | nil => rfl
  | cons w writes ih =>
    obtain ⟨hw, hwrites⟩ := List.forall_mem_cons.mp h
    rw [List.foldlM_cons, writeRate?_eq hw]
    exact ih ((a.writeRate_sameFrontier w).high.symm ▸ hwrites)

/-- A rate is what it was last set to with the bits added later, or with all bits added if it was not set. -/
theorem rate_writeRates (h : ∀ w ∈ writes, w.index / 8 < a.high) (i : Nat) :
    (a.writeRates writes).rate i = lastSet i (a.rate i) writes ||| addedLater i writes := by
  -- from the last write on, since it alone decides if the ones before it count
  induction writes using List.reverseRecOn with
  | nil => exact UInt8.or_zero.symm
  | append_singleton writes w ih =>
    obtain ⟨hwrites, hw⟩ := List.forall_mem_append.mp h
    have hin : w.index / 8 < (a.writeRates writes).high :=
      (a.writeRates_sameFrontier writes).high.symm ▸ hw w (List.mem_singleton_self w)
    rw [writeRates_concat, rate_writeRate hin, ih hwrites, lastSet_concat, addedLater_concat]
    cases hset : w.setAt? i with
    | none => simp [UInt8.or_assoc]
    | some b =>
      have hnone : w.addedAt i = 0 := by
        cases w with
        | set j b => rfl
        | add j b => cases hset
      simp [hnone]

/-- For one rate the writes to the others might as well not take place. -/
theorem rate_writeRates_filter (h : ∀ w ∈ writes, w.index / 8 < a.high) (i : Nat) :
    (a.writeRates (writes.filter (·.index = i))).rate i = (a.writeRates writes).rate i := by
  have hin : ∀ (ws : List RateWrite) (w : RateWrite), w.index / 8 < a.high → w.index / 8 < (a.writeRates ws).high :=
    fun ws w hw => (a.writeRates_sameFrontier ws).high.symm ▸ hw
  induction writes using List.reverseRecOn with
  | nil => rfl
  | append_singleton writes w ih =>
    obtain ⟨hwrites, hw⟩ := List.forall_mem_append.mp h
    have hhigh := hw w (List.mem_singleton_self w)
    rw [List.filter_append, writeRates_concat]
    by_cases hi : w.index = i
    · rw [List.filter_cons_of_pos (by simpa using hi), List.filter_nil, writeRates_concat,
        rate_writeRate (hin _ _ hhigh), rate_writeRate (hin _ _ hhigh), ih hwrites]
    · rw [List.filter_cons_of_neg (by simpa using hi), List.filter_nil, List.append_nil, rate_writeRate_of_ne hi,
        ih hwrites]

/-! ### The whole -/

/-- The arena `a` became `b` by writes to rates, as if each rate had a cell of its own. -/
structure WritesCells (a : Arena) (writes : List RateWrite) (b : Arena) : Prop where
  /-- No check stops a machine that writes and reads. -/
  checked : writes.foldlM writeRate? a = some b ∧ ∀ i < a.high, b.rate? i = some (b.rate i)
  rate : ∀ i, b.rate i = lastSet i (a.rate i) writes ||| addedLater i writes
  /-- What was written to other rates makes no difference. -/
  alone : ∀ i, b.rate i = (a.writeRates (writes.filter (·.index = i))).rate i
  word : ∀ j, (∀ w ∈ writes, w.index / 8 ≠ j) → b.word j = a.word j
  marks : b.marks = a.marks
  frontier : a.SameFrontier b

/-- The raw view of the rates shows, byte for byte, the rates of the words in the raw view of the log. -/
structure ShowsRates (a : Arena) : Prop where
  word : ∀ i < a.rawCount, a.rawIndex i < a.high ∧ a.rawWord i = a.word (a.rawIndex i)
  rate : ∀ i < a.rawCount, (bytesOfWord 8 (a.rawRateWord (i / 8)))[i % 8]? = some (a.rate (a.rawIndex i))
  past : ∀ j, a.rawCount / 8 ≤ j → a.rawRateWord j = 0
  /-- No check stops a machine whose arena has handed out its blocks in order. -/
  checked : ∀ n, a.blocks < 2 ^ 40 → a.Opened n → ∀ i,
    a.rawWord? i = some (a.rawWord i) ∧ a.rawRateWord? i = some (a.rawRateWord i)

theorem writesCells (h : ∀ w ∈ writes, w.index / 8 < a.high) : WritesCells a writes (a.writeRates writes) where
  checked := by
    refine ⟨writeRates?_eq h, fun i hi => rate?_eq ?_⟩
    rw [(a.writeRates_sameFrontier writes).high]
    exact Nat.lt_of_le_of_lt (Nat.div_le_self ..) hi
  rate := rate_writeRates h
  alone i := (rate_writeRates_filter h i).symm
  word _ hj := word_writeRates_of_ne hj
  marks := a.marks_writeRates writes
  frontier := a.writeRates_sameFrontier writes

theorem showsRates (a : Arena) : ShowsRates a where
  word i hi := ⟨(rawIndex_spec (Nat.lt_of_lt_of_le hi a.rawCount_le_high)).1, rawWord_eq hi⟩
  rate i hi := by
    obtain ⟨-, hlane, -⟩ := rawIndex_spec (Nat.lt_of_lt_of_le hi a.rawCount_le_high)
    rw [getElem?_bytesOfWord (Nat.mod_lt i (by decide)), rawRateWord_eq hi, rate_eq_ofNat, hlane]
  past _ hj := if_pos hj
  checked _ hsmall ho i := ⟨rawWord?_eq hsmall ho i, rawRateWord?_eq hsmall ho i⟩

/-- In every arena, rates that are written in any order below its top are kept apart from each other and from all other
words, and the raw view of the rates shows beside every word of the log the rate that belongs to it, and zero past the
last one. -/
theorem rates_are_cells (a : Arena) :
    (∀ writes : List RateWrite, (∀ w ∈ writes, w.index < a.high) → WritesCells a writes (a.writeRates writes)) ∧
      ShowsRates a :=
  ⟨fun _ h => writesCells fun w hw => Nat.lt_of_le_of_lt (Nat.div_le_self ..) (h w hw), a.showsRates⟩

/-- Two rates of block 0 share a word. One of them is set, added to while the other is written, set again and added to
again, and reads back in the raw view. -/
theorem rates_are_cells_of_shared_word :
    ∃ (a b : Arena) (writes : List RateWrite), a = (((ofBlocks 16).reset true).openBlock false).2 ∧
      writes = [.set 122889 5, .add 122889 0x40, .set 122890 7, .set 122889 1, .add 122890 0x70, .add 122889 0x30] ∧
      (∀ w ∈ writes, w.index < a.high) ∧ WritesCells a writes b ∧ b.rate 122889 = 0x31 ∧ b.rate 122890 = 0x77 ∧
      9 < b.rawCount ∧ b.rawIndex 9 = 122889 ∧ (bytesOfWord 8 (b.rawRateWord 1))[1]? = some 0x31 := by
  have hwrites : ∀ w ∈ [RateWrite.set 122889 5, .add 122889 0x40, .set 122890 7, .set 122889 1, .add 122890 0x70,
      .add 122889 0x30], w.index < (((ofBlocks 16).reset true).openBlock false).2.high := by decide +kernel
  obtain ⟨b, hcells⟩ : ∃ b, WritesCells _ _ b := ⟨_, (rates_are_cells _).1 _ hwrites⟩
  have hfirst : b.rate 122889 = 0x31 := (hcells.rate _).trans (by decide +kernel)
  have hsecond : b.rate 122890 = 0x77 := (hcells.rate _).trans (by decide +kernel)
  have hcount : 9 < b.rawCount := by
    unfold rawCount
    rw [hcells.frontier.claimed]
    decide +kernel
  have hindex : b.rawIndex 9 = 122889 := by
    unfold rawIndex
    rw [hcells.frontier.blockStart]
    decide +kernel
  have hbyte := (rates_are_cells b).2.rate 9 hcount
  rw [hindex, hfirst] at hbyte
  exact ⟨_, b, _, rfl, rfl, hwrites, hcells, hfirst, hsecond, hcount, hindex, hbyte⟩

end EventRecorder.Arena
