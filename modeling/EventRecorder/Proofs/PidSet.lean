import EventRecorder.PidSet
import Mathlib.Data.Finset.Insert
import Mathlib.Data.Nat.Bitwise

/-! # Sets of processes as sets of numbers

A packed set of processes is a set of numbers below 2^16: it holds a process just when the low 16 bits of some number
inserted are those of the process. Whatever is asked of it, it answers as that set of numbers does, and an answer about
one number depends on nothing that was asked about another. -/

namespace EventRecorder.PidSet

variable {p q : UInt32}

/-- The number by which a set remembers a process. -/
def low (pid : UInt32) : Nat := pid.toNat % 65536

/-- The word in which a set looks for a process. -/
def word (s : PidSet) (pid : UInt32) : UInt64 := s.words.get (slot pid)

theorem low_eq_iff : low p = low q ↔ slot p = slot q ∧ p.toNat % 64 = q.toNat % 64 := by
  unfold low slot
  rw [Fin.mk.injEq]
  omega

theorem toNat_bit (pid : UInt32) : (bit pid).toNat = 2 ^ (pid.toNat % 64) := by
  have hlt : pid.toNat % 64 < 64 := Nat.mod_lt _ (by decide)
  have hpow : 2 ^ (pid.toNat % 64) < 2 ^ 64 := Nat.pow_lt_pow_right (by decide) hlt
  unfold bit
  rw [UInt64.toNat_shiftLeft, UInt64.toNat_ofNat', Nat.mod_eq_of_lt (Nat.lt_of_lt_of_le hlt (by decide)),
    Nat.mod_eq_of_lt hlt, show (1 : UInt64).toNat = 1 from rfl, Nat.one_shiftLeft]
  exact Nat.mod_eq_of_lt hpow

/-- A process is looked up by one bit of one word. -/
theorem contains_eq (s : PidSet) (pid : UInt32) :
    s.contains pid = (s.word pid).toNat.testBit (pid.toNat % 64) := by
  have hword : (s.word pid &&& bit pid).toNat =
      ((s.word pid).toNat.testBit (pid.toNat % 64)).toNat * 2 ^ (pid.toNat % 64) := by
    rw [UInt64.toNat_and, toNat_bit, Nat.and_two_pow]
  have hpow : 2 ^ (pid.toNat % 64) ≠ 0 := Nat.ne_of_gt (Nat.two_pow_pos _)
  change (s.word pid &&& bit pid != 0) = _
  rw [Bool.eq_iff_iff, bne_iff_ne, ne_eq, ← UInt64.toNat_inj, hword, UInt64.toNat_zero]
  cases (s.word pid).toNat.testBit (pid.toNat % 64) with
  | false => simp only [Bool.toNat_false, Nat.zero_mul, not_true_eq_false, Bool.false_eq_true]
  | true =>
    rw [Bool.toNat_true, Nat.one_mul]
    exact iff_of_true hpow rfl

@[simp] theorem contains_empty (pid : UInt32) : empty.contains pid = false := by
  have hword : empty.word pid = 0 := Vector.getElem_replicate _
  rw [contains_eq, hword, UInt64.toNat_zero, Nat.zero_testBit]

theorem word_insert_self (s : PidSet) (h : slot p = slot q) : (s.insert p).word q = s.word q ||| bit p := by
  change (s.words.set (slot p) (s.words.get (slot p) ||| bit p)).get (slot q) = s.words.get (slot q) ||| bit p
  rw [← h]
  exact Vector.getElem_set_self (slot p).isLt

theorem word_insert_of_ne (s : PidSet) (h : slot p ≠ slot q) : (s.insert p).word q = s.word q :=
  Vector.getElem_set_ne (slot p).isLt (slot q).isLt fun heq => h (Fin.ext heq)

/-- A set holds what it held before and the process inserted. -/
theorem contains_insert (s : PidSet) (p q : UInt32) : (s.insert p).contains q = (s.contains q || low p == low q) := by
  rw [contains_eq, contains_eq, Bool.eq_iff_iff, Bool.or_eq_true, beq_iff_eq, low_eq_iff]
  by_cases hslot : slot p = slot q
  · rw [s.word_insert_self hslot]
    simp [hslot, toNat_bit, Nat.testBit_two_pow]
  · rw [s.word_insert_of_ne hslot]
    simp [hslot]

/-! ### Queries -/

/-- What a set of processes is asked. -/
inductive Query where
  | testAndSet (pid : UInt32)
  | contains (pid : UInt32)
  | clear
deriving DecidableEq

/-- The query is about the number `r`, or about all of them. -/
def Query.concerns (r : Nat) : Query → Bool
  | .testAndSet pid => low pid == r
  | .contains pid => low pid == r
  | .clear => true

/-- The answer of a set and the set after it. To test and set tells if the process was missing, and adds it. -/
def ask (s : PidSet) : Query → Option Bool × PidSet
  | .testAndSet pid => (some (!s.contains pid), s.insert pid)
  | .contains pid => (some (s.contains pid), s)
  | .clear => (none, empty)

/-- The answer of a set of numbers and the set after it. -/
def askNumbers (S : Finset Nat) : Query → Option Bool × Finset Nat
  | .testAndSet pid => (some (decide (low pid ∉ S)), Insert.insert (low pid) S)
  | .contains pid => (some (decide (low pid ∈ S)), S)
  | .clear => (none, ∅)

/-- Queries asked in turn, each with its answer. -/
def transcript {σ : Type} (ask : σ → Query → Option Bool × σ) (s : σ) : List Query → List (Query × Option Bool)
  | [] => []
  | q :: qs => (q, (ask s q).1) :: transcript ask (ask s q).2 qs

variable {s t : PidSet} {S : Finset Nat} {r : Nat} {query : Query} {queries : List Query}

/-! ### Sets of numbers -/

/-- The packed set holds the processes whose numbers are in `S`. -/
def Packs (s : PidSet) (S : Finset Nat) : Prop := ∀ pid, s.contains pid = decide (low pid ∈ S)

theorem packs_empty : Packs empty ∅ := fun pid => by simp

theorem Packs.insert (h : Packs s S) (pid : UInt32) : Packs (s.insert pid) (Insert.insert (low pid) S) := by
  intro q
  rw [contains_insert, h q, Bool.eq_iff_iff]
  simp only [Bool.or_eq_true, beq_iff_eq, decide_eq_true_eq, Finset.mem_insert]
  rw [or_comm, eq_comm]

/-- A packed set answers as the numbers that it holds, and goes on to hold the same numbers as they. -/
theorem Packs.ask (h : Packs s S) (query : Query) :
    (s.ask query).1 = (askNumbers S query).1 ∧ Packs (s.ask query).2 (askNumbers S query).2 := by
  cases query with
  | testAndSet pid => exact ⟨by simp [PidSet.ask, askNumbers, h pid], h.insert pid⟩
  | contains pid => exact ⟨congrArg some (h pid), h⟩
  | clear => exact ⟨rfl, packs_empty⟩

theorem Packs.transcript_eq (h : Packs s S) (queries : List Query) :
    transcript PidSet.ask s queries = transcript askNumbers S queries := by
  induction queries generalizing s S with
  | nil => rfl
  | cons query queries ih =>
    obtain ⟨hanswer, hrest⟩ := h.ask query
    simp only [transcript, hanswer, ih hrest]

/-! ### One number at a time -/

/-- The sets do not differ in the number `r`. -/
def AgreeAt (r : Nat) (s t : PidSet) : Prop := ∀ pid, low pid = r → s.contains pid = t.contains pid

theorem AgreeAt.ask (h : AgreeAt r s t) (hquery : query.concerns r = true) :
    (s.ask query).1 = (t.ask query).1 ∧ AgreeAt r (s.ask query).2 (t.ask query).2 := by
  cases query with
  | testAndSet pid =>
    refine ⟨?_, fun q hq => ?_⟩
    · simp only [PidSet.ask, h pid (beq_iff_eq.mp hquery)]
    · simp only [PidSet.ask, contains_insert, h q hq]
  | contains pid => exact ⟨congrArg some (h pid (beq_iff_eq.mp hquery)), h⟩
  | clear => exact ⟨rfl, fun _ _ => rfl⟩

/-- What is asked about another number is not noticed. -/
theorem AgreeAt.ask_other (h : AgreeAt r s t) (hquery : query.concerns r = false) : AgreeAt r (s.ask query).2 t := by
  cases query with
  | testAndSet pid =>
    intro q hq
    have hne : low pid ≠ low q := fun heq => beq_eq_false_iff_ne.mp hquery (heq.trans hq)
    simp [PidSet.ask, contains_insert, hne, h q hq]
  | contains pid => exact h
  | clear => cases hquery

theorem AgreeAt.filter_transcript (h : AgreeAt r s t) (queries : List Query) :
    (transcript PidSet.ask s queries).filter (·.1.concerns r) =
      transcript PidSet.ask t (queries.filter (·.concerns r)) := by
  induction queries generalizing s t with
  | nil => rfl
  | cons query queries ih =>
    cases hquery : query.concerns r with
    | true =>
      obtain ⟨hanswer, hrest⟩ := h.ask hquery
      simp [transcript, hquery, hanswer, ih hrest]
    | false => simp [transcript, hquery, ih (h.ask_other hquery)]

/-- A new packed set answers any queries as the set of the numbers added since it was last cleared, and the queries about
one number as if no others were asked. -/
theorem queries_of_numbers (queries : List Query) :
    transcript ask empty queries = transcript askNumbers ∅ queries ∧
      ∀ r, (transcript ask empty queries).filter (·.1.concerns r) =
        transcript ask empty (queries.filter (·.concerns r)) :=
  ⟨packs_empty.transcript_eq queries, fun _ => AgreeAt.filter_transcript (fun _ _ => rfl) queries⟩

end EventRecorder.PidSet
