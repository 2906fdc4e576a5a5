import EventRecorder.Log.Snapshot

/-! # Records and the zeros between them

The words of a block are its records and the zero words in front of, between and behind them. Where the records are
is told by their first words alone, so a block can be read in one way only. -/

namespace EventRecorder.Record

variable {words rest : List UInt64} {rates : List UInt8} {r : Record} {spaced : List (Nat × Record)}
  {w : UInt64} {gap tail i n : Nat}

/-! ### Spaced records -/

/-- The words of records with some zero words in front of each and `tail` zero words behind all. -/
def spread (tail : Nat) : (spaced : List (Nat × Record)) → List UInt64
  | [] => List.replicate tail 0
  | (gap, r) :: spaced => List.replicate gap 0 ++ (r.words ++ spread tail spaced)

/-- Spaced records, each with the index of its first word. The words start at the index `i`. -/
def placed (i : Nat) : (spaced : List (Nat × Record)) → List (Nat × Record)
  | [] => []
  | (gap, r) :: spaced => (i + gap, r) :: placed (i + gap + r.words.length) spaced

/-- The record `r` is found at the index `i`: it is as long as it announces, but at least one word and no longer than
the words that are left. -/
structure FoundAt (words : List UInt64) (rates : List UInt8) (i : Nat) (r : Record) : Prop where
  first : r.first ≠ 0
  length : r.words.length = min (max (Head.recordLength r.first) 1) (words.length - i)
  rate : r.rate = rates[i]?

instance (words : List UInt64) (rates : List UInt8) (i : Nat) (r : Record) : Decidable (FoundAt words rates i r) :=
  decidable_of_iff (r.first ≠ 0 ∧ r.words.length = min (max (Head.recordLength r.first) 1) (words.length - i) ∧
      r.rate = rates[i]?)
    ⟨fun ⟨h₁, h₂, h₃⟩ => ⟨h₁, h₂, h₃⟩, fun ⟨h₁, h₂, h₃⟩ => ⟨h₁, h₂, h₃⟩⟩

/-- The words are made up of the spaced records and the zero words between them. -/
structure MadeOf (words : List UInt64) (rates : List UInt8) (spaced : List (Nat × Record)) (tail : Nat) : Prop where
  words_eq : words = spread tail spaced
  found : ∀ p ∈ placed 0 spaced, FoundAt words rates p.1 p.2

@[simp] theorem length_words (r : Record) : r.words.length = r.payload.length + 1 := rfl

theorem placed_cons (i gap : Nat) (r : Record) (spaced : List (Nat × Record)) :
    placed i ((gap, r) :: spaced) = (i + gap, r) :: placed (i + gap + r.words.length) spaced := rfl

theorem placed_add (i n : Nat) (spaced : List (Nat × Record)) :
    placed (i + n) spaced = (placed i spaced).map fun p => (p.1 + n, p.2) := by
  induction spaced generalizing i with
  | nil => rfl
  | cons p spaced ih =>
    obtain ⟨gap, r⟩ := p
    rw [placed_cons, placed_cons, List.map_cons, ← ih, Nat.add_right_comm i n gap, Nat.add_right_comm (i + gap) n]

/-- What is found behind other words is found without them. -/
theorem foundAt_append (front words : List UInt64) (rates : List UInt8) (i : Nat) (r : Record) :
    FoundAt (front ++ words) rates (i + front.length) r ↔ FoundAt words (rates.drop front.length) i r := by
  have hleft : (front ++ words).length - (i + front.length) = words.length - i := by
    rw [List.length_append]
    omega
  have hrate : (rates.drop front.length)[i]? = rates[i + front.length]? := by
    rw [List.getElem?_drop, Nat.add_comm]
  constructor
  · intro h
    exact ⟨h.first, hleft ▸ h.length, hrate ▸ h.rate⟩
  · intro h
    exact ⟨h.first, hleft.symm ▸ h.length, hrate.symm ▸ h.rate⟩

/-- Zero words in front of all records, the first record, and what the others make up. -/
theorem madeOf_cons_iff : MadeOf words rates ((gap, r) :: spaced) tail ↔
    ∃ rest, words = List.replicate gap 0 ++ (r.words ++ rest) ∧ FoundAt (r.words ++ rest) (rates.drop gap) 0 r ∧
      MadeOf rest (rates.drop (gap + r.words.length)) spaced tail := by
  have hfound : ∀ {rest : List UInt64},
      (∀ p ∈ placed 0 ((gap, r) :: spaced), FoundAt (List.replicate gap 0 ++ (r.words ++ rest)) rates p.1 p.2) ↔
        FoundAt (r.words ++ rest) (rates.drop gap) 0 r ∧
          ∀ p ∈ placed 0 spaced, FoundAt rest (rates.drop (gap + r.words.length)) p.1 p.2 := by
    intro rest
    have hfirst := foundAt_append (List.replicate gap 0) (r.words ++ rest) rates 0 r
    rw [List.length_replicate] at hfirst
    rw [placed_cons, List.forall_mem_cons, hfirst, Nat.add_assoc, placed_add, List.forall_mem_map, ← List.append_assoc]
    refine and_congr_right fun _ => forall₂_congr fun p _ => ?_
    have hothers := foundAt_append (List.replicate gap 0 ++ r.words) rest rates p.1 p.2
    rwa [List.length_append, List.length_replicate] at hothers
  constructor
  · rintro ⟨rfl, h⟩
    obtain ⟨hfirst, hothers⟩ := hfound.mp h
    exact ⟨spread tail spaced, rfl, hfirst, rfl, hothers⟩
  · rintro ⟨rest, rfl, hfirst, rfl, hothers⟩
    exact ⟨rfl, hfound.mpr ⟨hfirst, hothers⟩⟩

/-- A zero word in front belongs to no record. -/
theorem MadeOf.zero_cons (h : MadeOf rest (rates.drop 1) spaced tail) :
    ∃ spaced' tail', spaced'.map (·.2) = spaced.map (·.2) ∧ MadeOf (0 :: rest) rates spaced' tail' := by
  cases spaced with
  | nil =>
    refine ⟨[], tail + 1, rfl, ?_, List.forall_mem_nil _⟩
    rw [h.words_eq]
    rfl
  | cons p spaced =>
    obtain ⟨gap, r⟩ := p
    obtain ⟨rest, rfl, hfirst, hothers⟩ := madeOf_cons_iff.mp h
    rw [List.drop_drop, Nat.add_comm] at hfirst
    rw [List.drop_drop, ← Nat.add_assoc, Nat.add_comm 1 gap] at hothers
    exact ⟨(gap + 1, r) :: spaced, tail, rfl, madeOf_cons_iff.mpr ⟨rest, rfl, hfirst, hothers⟩⟩

/-! ### Splitting -/

/-- A record is as long as it announces, and ends where the words end. -/
theorem split_of_ne (hw : w ≠ 0) (rest : List UInt64) (rates : List UInt8) {len : Nat}
    (hlen : len = min (max (Head.recordLength w) 1) (rest.length + 1)) :
    split (w :: rest) rates =
      ⟨w, rest.take (len - 1), rates.head?⟩ :: split (rest.drop (len - 1)) (rates.drop len) := by
  rw [split, if_neg hw]
  dsimp only
  rcases Nat.lt_or_ge rest.length (Head.recordLength w - 1) with hcut | hwhole
  · -- past the end of the words nothing is left to take
    rw [List.take_of_length_le (Nat.le_of_lt hcut), List.take_of_length_le (show rest.length ≤ len - 1 by omega),
      List.drop_of_length_le (Nat.le_of_lt hcut), List.drop_of_length_le (show rest.length ≤ len - 1 by omega),
      split, split]
  · rw [show len - 1 = Head.recordLength w - 1 by omega, show len = Head.recordLength w - 1 + 1 by omega]

theorem split_replicate_append (n : Nat) (words : List UInt64) (rates : List UInt8) :
    split (List.replicate n 0 ++ words) rates = split words (rates.drop n) := by
  induction n generalizing rates with
  | zero => rfl
  | succ n ih =>
    rw [List.replicate_succ, List.cons_append, split, if_pos rfl, ih, List.drop_drop, Nat.add_comm 1 n]

/-- A record that is found in front is split off. -/
theorem split_words_append (h : FoundAt (r.words ++ rest) rates 0 r) :
    split (r.words ++ rest) rates = r :: split rest (rates.drop r.words.length) := by
  obtain ⟨first, payload, rate⟩ := r
  obtain ⟨hfirst, hlength, hrate⟩ := h
  dsimp only at hfirst hrate
  have hlen : payload.length + 1 = min (max (Head.recordLength first) 1) ((payload ++ rest).length + 1) := hlength
  refine (split_of_ne hfirst (payload ++ rest) rates hlen).trans ?_
  rw [Nat.add_sub_cancel, List.take_left, List.drop_left, hrate, List.head?_eq_getElem?]
  rfl

/-- The records that words are made of are those that they are split into. -/
theorem MadeOf.split_eq (h : MadeOf words rates spaced tail) : split words rates = spaced.map (·.2) := by
  induction spaced generalizing words rates with
  | nil =>
    rw [h.words_eq]
    unfold spread
    rw [← List.append_nil (List.replicate tail 0), split_replicate_append, split]
    rfl
  | cons p spaced ih =>
    obtain ⟨gap, r⟩ := p
    obtain ⟨rest, rfl, hfirst, hothers⟩ := madeOf_cons_iff.mp h
    rw [split_replicate_append, split_words_append hfirst, List.drop_drop, ih hothers]
    rfl

/-- All words are made of the records that they are split into. -/
theorem exists_madeOf (words : List UInt64) (rates : List UInt8) :
    ∃ spaced tail, spaced.map (·.2) = split words rates ∧ MadeOf words rates spaced tail := by
  induction hn : words.length using Nat.strongRecOn generalizing words rates with
  | ind n ih =>
    subst hn
    cases words with
    | nil =>
      rw [split]
      exact ⟨[], 0, rfl, rfl, List.forall_mem_nil _⟩
    | cons w rest =>
      by_cases hw : w = 0
      · subst hw
        obtain ⟨spaced, tail, hspaced, hmade⟩ := ih rest.length (Nat.lt_succ_self _) rest (rates.drop 1) rfl
        obtain ⟨spaced', tail', hspaced', hmade'⟩ := hmade.zero_cons
        rw [split, if_pos rfl]
        exact ⟨spaced', tail', hspaced'.trans hspaced, hmade'⟩
      · generalize hlen : min (max (Head.recordLength w) 1) (rest.length + 1) = len
        rw [split_of_ne hw rest rates hlen.symm]
        generalize hr : (⟨w, rest.take (len - 1), rates.head?⟩ : Record) = r
        have hwords : w :: rest = r.words ++ rest.drop (len - 1) := by
          rw [← hr]
          exact congrArg (w :: ·) (List.take_append_drop (len - 1) rest).symm
        have hlength : r.words.length = len := by
          rw [← hr, length_words, List.length_take]
          omega
        have hfound : FoundAt (w :: rest) rates 0 r := by
          refine ⟨?_, ?_, ?_⟩ <;> subst hr
          · exact hw
          · exact hlength.trans hlen.symm
          · exact List.head?_eq_getElem?
        obtain ⟨spaced, tail, hspaced, hmade⟩ :=
          ih (rest.drop (len - 1)).length (by rw [List.length_drop, List.length_cons]; omega) _ (rates.drop len) rfl
        refine ⟨(0, r) :: spaced, tail, congrArg _ hspaced, madeOf_cons_iff.mpr ⟨_, hwords, hwords ▸ hfound, ?_⟩⟩
        rwa [Nat.zero_add, hlength]

/-- A record that is as long as it announces. -/
structure IsWhole (r : Record) : Prop where
  first : r.first ≠ 0
  length : Head.recordLength r.first = r.words.length

instance (r : Record) : Decidable r.IsWhole :=
  decidable_of_iff (r.first ≠ 0 ∧ Head.recordLength r.first = r.words.length)
    ⟨fun ⟨h₁, h₂⟩ => ⟨h₁, h₂⟩, fun ⟨h₁, h₂⟩ => ⟨h₁, h₂⟩⟩

/-- The record with the rate that is found at the index of its first word. -/
def rateFrom (rates : List UInt8) (p : Nat × Record) : Record := { p.2 with rate := rates[p.1]? }

/-- Whole records are found wherever they lie. -/
theorem split_spread (h : ∀ p ∈ spaced, p.2.IsWhole) (tail : Nat) (rates : List UInt8) :
    split (spread tail spaced) rates = (placed 0 spaced).map (rateFrom rates) := by
  induction spaced generalizing rates with
  | nil =>
    have hnone : MadeOf (spread tail []) rates [] tail := ⟨rfl, List.forall_mem_nil _⟩
    exact hnone.split_eq
  | cons p spaced ih =>
    obtain ⟨gap, r⟩ := p
    obtain ⟨hwhole, hothers⟩ := List.forall_mem_cons.mp h
    have hfound : FoundAt ((rateFrom rates (gap, r)).words ++ spread tail spaced) (rates.drop gap) 0
        (rateFrom rates (gap, r)) := by
      have hwords : (rateFrom rates (gap, r)).words = r.words := rfl
      have hlength : Head.recordLength (rateFrom rates (gap, r)).first = r.words.length := hwhole.length
      have hpos := length_words r
      refine ⟨hwhole.first, ?_, ?_⟩
      · rw [hlength, hwords, List.length_append]
        omega
      · rw [List.getElem?_drop]
        rfl
    change split (List.replicate gap 0 ++ ((rateFrom rates (gap, r)).words ++ spread tail spaced)) rates = _
    rw [split_replicate_append, split_words_append hfound, placed_cons, Nat.zero_add, List.map_cons, List.drop_drop]
    congr 1
    rw [ih hothers, ← Nat.zero_add (gap + r.words.length), placed_add, List.map_map]
    refine List.map_congr_left fun p _ => ?_
    unfold rateFrom
    rw [List.getElem?_drop, Nat.add_comm]
    rfl

/-- The words of a block are made up of its records and the zero words between them, and of no others. Records that are
as long as they announce are found wherever they lie, each with the rate at the index of its first word. -/
theorem records_partition (b : BlockCopy) :
    (∃ spaced tail, spaced.map (·.2) = b.records ∧ MadeOf b.words b.rates spaced tail) ∧
    (∀ spaced tail, MadeOf b.words b.rates spaced tail → b.records = spaced.map (·.2)) ∧
    ∀ spaced tail, (∀ p ∈ spaced, p.2.IsWhole) → b.words = spread tail spaced →
      b.records = (placed 0 spaced).map (rateFrom b.rates) := by
  unfold BlockCopy.records
  refine ⟨exists_madeOf b.words b.rates, fun _ _ hmade => hmade.split_eq, fun spaced tail hwhole hwords => ?_⟩
  rw [hwords]
  exact split_spread hwhole tail b.rates

/-- Zero words lie in front of a record, inside of the next one and behind it, and the last record is cut. -/
theorem records_partition_of_cut_record :
    ∃ b : BlockCopy, b.words = [0, 0x0000020000000001, 0x0000003000000000, 0, 5, 0, 0x0000008000000000, 9] ∧
      MadeOf b.words b.rates [(1, ⟨0x0000020000000001, [], some 2⟩), (0, ⟨0x0000003000000000, [0, 5], some 3⟩),
        (1, ⟨0x0000008000000000, [9], none⟩)] 0 ∧
      b.records = [⟨0x0000020000000001, [], some 2⟩, ⟨0x0000003000000000, [0, 5], some 3⟩,
        ⟨0x0000008000000000, [9], none⟩] ∧
      ∃ b' : BlockCopy, (⟨0x0000003000000000, [0, 5], none⟩ : Record).IsWhole ∧
        b'.words = spread 1 [(2, ⟨0x0000003000000000, [0, 5], none⟩)] ∧
        b'.records = [⟨0x0000003000000000, [0, 5], some 3⟩] := by
  generalize hb : (⟨0, .ofWords 0 0, .idle,
    [0, 0x0000020000000001, 0x0000003000000000, 0, 5, 0, 0x0000008000000000, 9], [1, 2, 3]⟩ : BlockCopy) = b
  generalize hb' : (⟨0, .ofWords 0 0, .idle, [0, 0, 0x0000003000000000, 0, 5, 0], [1, 2, 3]⟩ : BlockCopy) = b'
  have hmade : MadeOf b.words b.rates [(1, ⟨0x0000020000000001, [], some 2⟩),
      (0, ⟨0x0000003000000000, [0, 5], some 3⟩), (1, ⟨0x0000008000000000, [9], none⟩)] 0 := by
    subst hb
    exact ⟨by decide, by decide⟩
  have hwords : b'.words = spread 1 [(2, ⟨0x0000003000000000, [0, 5], none⟩)] := hb' ▸ rfl
  have hrecords := (records_partition b').2.2 _ _ (by decide) hwords
  exact ⟨b, hb ▸ rfl, hmade, (records_partition b).2.1 _ _ hmade, b', by decide, hwords,
    hrecords.trans (hb' ▸ rfl)⟩

end EventRecorder.Record
