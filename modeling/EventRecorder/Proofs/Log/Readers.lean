import EventRecorder.Proofs.Ledger.Settled
import EventRecorder.Proofs.Ledger.Wraparound
import EventRecorder.Proofs.Sessions.Restart
import Mathlib.Algebra.Order.BigOperators.Group.List
import Mathlib.Algebra.Order.Group.Nat

/-! # Readers agree

A log can be read backward word by word, copied block by block, or looked up in the raw view by physical
position. Every reader goes its own way through the arena, and all of them show the same log. -/

namespace EventRecorder

open Ledger LogView Arena

variable {P : Type} {a : Arena} {i j k n : Nat} {log : Ledger} {v : LogView}

/-! ### Actions that only read -/

namespace Command

/-- The command reads the log or its size. -/
def readsLog : Command → Bool
  | stat | count | word _ | rawCount | rawWord _ => true
  | _ => false

end Command

namespace Action

/-- The action reads the log or its size, and does nothing else. -/
def readsLog (a : Action) : Bool :=
  match a with
  | .snapshot => true
  | a => a.command?.any (·.readsLog)

end Action

/-- The words of the log, block by block in the order in which the blocks were opened. -/
def Snapshot.words (s : Snapshot) : List UInt64 := s.blocks.flatMap (·.words)

/-- All readers show the same log. -/
structure ReadersAgree [Platform P] (t : Tracer P) : Prop where
  /-- A snapshot has a word for each word of the record view. -/
  length : t.snapshot.1.words.length = t.view.count
  /-- The record view counts back through the snapshot. -/
  word : ∀ i < t.view.count, t.snapshot.1.words[t.view.count - 1 - i]? = some (t.readWord i).1
  word_past : ∀ i, t.view.count ≤ i → (t.readWord i).1 = 0
  count : t.wordCount.1 = UInt64.ofNat t.view.count ↔ t.arena.wrapped = false
  count_wrapped : t.wordCount.1 = ~~~UInt64.ofNat t.view.count ↔ t.arena.wrapped = true
  count_le : t.view.count ≤ t.rawCount.1
  /-- A copy of a block holds words of the raw view. -/
  copied : ∀ b ∈ t.snapshot.1.blocks, ∀ j < b.words.length,
    b.words[j]? = some (t.readRawWord (b.index * blockWords + headerWords b.index + j)).1
  header : ∀ b ∈ t.snapshot.1.blocks,
    b.header = .ofWords (t.readRawWord (b.index * blockWords)).1 (t.readRawWord (b.index * blockWords + 1)).1
  /-- No block is copied twice. -/
  distinct : (t.snapshot.1.blocks.map (·.index)).Nodup
  index_lt : ∀ b ∈ t.snapshot.1.blocks, b.index < t.blocksUsed
  blocks : t.rawCount.1 / blockWords = t.blocksUsed
  raw_past : ∀ i, t.rawCount.1 ≤ i → (t.readRawWord i).1 = 0
  /-- The log stands still while it is read, and no reader changes what another one tells. -/
  still : ∀ reads : List ((P → P) × Action), (∀ call ∈ reads, call.2.readsLog = true) →
    (t.after reads).view = t.view ∧
    ∀ (f : P → P) (a : Action), a.readsLog = true →
      (((t.after reads).at (f (t.after reads).platform)).perform a).1 = (t.perform a).1

/-! ### The raw view -/

theorem Arena.rawWord_of_lt (hk : k < a.claimed) (hj : j < blockWords) :
    a.rawWord (k * blockWords + j) = a.word (a.blockStart k + j) := by
  have hlt : k * blockWords + j < a.rawCount := by
    unfold rawCount blockWords at *
    omega
  rw [rawWord_eq hlt, a.rawIndex_add k hj]

/-! ### The record view -/

theorem wordIn_of_le {regions : List Span} (h : (regions.map Span.len).sum ≤ i) : wordIn a regions i = 0 := by
  induction regions generalizing i with
  | nil => rfl
  | cons s regions ih =>
    rw [List.map_cons, List.sum_cons] at h
    rw [wordIn, if_neg (by omega), ih (by omega)]

theorem LogView.word_of_le (h : v.count ≤ i) : v.word i = 0 := wordIn_of_le h

/-- The record view is read from the end of the readable words. -/
theorem LogView.readable_getElem? (h : i < v.count) : v.readable[v.count - 1 - i]? = some (v.word i) := by
  rw [← readable_eq, List.getElem?_map, List.getElem?_reverse (by rw [List.length_range]; omega), List.length_range,
    List.getElem?_range (by omega), Option.map_some]
  congr 2
  omega

/-! ### Blocks -/

/-- A record region ends inside its block. -/
theorem Settled.region_le {A : Nat → Prop} (h : Settled A v) (ho : v.arena.Opened n) (hk : k < v.arena.usable) :
    headerWords k + (v.region k).len ≤ blockWords := by
  have hheader := headerWords_le k
  have hstart := v.region_start k
  rcases Nat.eq_zero_or_pos (v.region k).len with hlen | hlen
  · unfold blockWords
    omega
  · obtain ⟨-, hstop, -⟩ := h.region ho hk (i := (v.region k).start + ((v.region k).len - 1)) (Nat.le_add_right ..)
      (by unfold Span.stop; omega)
    unfold blockStop at hstop
    unfold recordStart at hstart
    omega

section Tracer
variable {t : Tracer P}

theorem Tracer.snapshot_eq (t : Tracer P) : t.snapshot.1 = .ofView t.view := congrArg Snapshot.ofView t.off_same.2.2

theorem Tracer.readWord_eq (t : Tracer P) (i : Nat) : (t.readWord i).1 = t.view.word i :=
  congrArg (LogView.word · i) t.off_same.2.2

theorem Tracer.off_arena (t : Tracer P) : t.off.arena = t.arena := congrArg LogView.arena t.off_same.2.2

theorem Tracer.readRawWord_eq (t : Tracer P) (i : Nat) : (t.readRawWord i).1 = t.arena.rawWord i :=
  congrArg (Arena.rawWord · i) t.off_arena

theorem Tracer.rawCount_eq (t : Tracer P) : t.rawCount.1 = t.arena.rawCount := congrArg Arena.rawCount t.off_arena

theorem Tracer.wordCount_eq (t : Tracer P) :
    t.wordCount.1 = if t.arena.wrapped then ~~~UInt64.ofNat t.view.count else UInt64.ofNat t.view.count := by
  have hview := t.off_same.2.2
  unfold wordCount
  dsimp only
  rw [hview, t.off_arena]

theorem Snapshot.words_ofView (v : LogView) : (Snapshot.ofView v).words = v.readable := by
  unfold words ofView readable
  rw [← List.map_reverse, List.flatMap_map]

theorem mem_snapshot {b : BlockCopy} (ho : t.arena.Opened n) (hb : b ∈ t.snapshot.1.blocks) :
    ∃ k < t.arena.claimed, b = .ofView t.view k := by
  rw [t.snapshot_eq] at hb
  obtain ⟨k, hk, rfl⟩ := List.mem_map.mp (List.mem_reverse.mp hb)
  exact ⟨k, ho.lt_claimed_of_mem hk, rfl⟩

/-! ### Reading twice -/

section Platform
variable [Platform P]

/-- A read tells what the view of the log decides, and leaves the view alone. -/
theorem Tracer.perform_of_readsLog {u : Tracer P} {a : Action} (ha : a.readsLog = true) (h : u.view = t.view) :
    (u.perform a).1 = (t.perform a).1 ∧ (t.perform a).2.view = t.view := by
  have harena : u.arena = t.arena := congrArg LogView.arena h
  have hcommand : ∀ c : Command, c.readsLog = true →
      (u.execute c).1 = (t.execute c).1 ∧ (t.execute c).2.view = t.view := by
    intro c hc
    cases c with
    | stat => exact ⟨congrArg (fun a : Arena => UInt64.ofNat a.claimed) harena, rfl⟩
    | count =>
      refine ⟨?_, t.off_same.2.2⟩
      change u.wordCount.1 = t.wordCount.1
      rw [u.wordCount_eq, t.wordCount_eq, h, harena]
    | word i =>
      refine ⟨?_, t.off_same.2.2⟩
      change (u.readWord i.toNat).1 = (t.readWord i.toNat).1
      rw [u.readWord_eq, t.readWord_eq, h]
    | rawCount =>
      refine ⟨?_, t.off_same.2.2⟩
      change UInt64.ofNat u.rawCount.1 = UInt64.ofNat t.rawCount.1
      rw [u.rawCount_eq, t.rawCount_eq, harena]
    | rawWord i =>
      refine ⟨?_, t.off_same.2.2⟩
      change (u.readRawWord i.toNat).1 = (t.readRawWord i.toNat).1
      rw [u.readRawWord_eq, t.readRawWord_eq, harena]
    | _ => cases hc
  cases a with
  | snapshot =>
    refine ⟨?_, t.off_same.2.2⟩
    change Answer.copied u.snapshot.1 = Answer.copied t.snapshot.1
    rw [u.snapshot_eq, t.snapshot_eq, h]
  | execute c =>
    obtain ⟨hanswer, hview⟩ := hcommand c ha
    exact ⟨congrArg Answer.number hanswer, hview⟩
  | control code arg =>
    unfold perform control
    dsimp only
    cases hcode : Command.ofCode? code arg with
    | none => exact ⟨rfl, rfl⟩
    | some c =>
      obtain ⟨hanswer, hview⟩ := hcommand c (by simpa [Action.readsLog, Action.command?, hcode] using ha)
      exact ⟨congrArg Answer.number hanswer, hview⟩
  | _ => cases ha

theorem Tracer.view_after_reads {reads : List ((P → P) × Action)} (h : ∀ call ∈ reads, call.2.readsLog = true) :
    (t.after reads).view = t.view := by
  induction reads generalizing t with
  | nil => rfl
  | cons call reads ih =>
    obtain ⟨hcall, hrest⟩ := List.forall_mem_cons.mp h
    exact (ih hrest).trans (perform_of_readsLog (t := t.at (call.1 t.platform)) hcall rfl).2

end Platform

end Tracer

/-! ### All readers -/

section History
variable [Platform P] {t : Tracer P}

theorem History.region_le (h : History t log) (hk : k < t.arena.claimed) :
    headerWords k + (t.view.region k).len ≤ blockWords :=
  h.places_settled.region_le h.opened (Nat.lt_of_lt_of_le hk h.opened.claimed_le)

theorem History.count_le (h : History t log) : t.view.count ≤ t.arena.rawCount := by
  have hlen : ∀ n ∈ t.view.regions.map Span.len, n ≤ blockWords := by
    intro n hn
    simp only [regions, List.map_map, List.mem_map] at hn
    obtain ⟨k, hk, rfl⟩ := hn
    exact Nat.le_trans (Nat.le_add_left ..) (h.region_le (h.opened.lt_claimed_of_mem hk))
  have hsum := List.sum_le_card_nsmul _ _ hlen
  have hclaimed : t.view.arena.newestFirst.length = t.arena.claimed :=
    h.opened.newestFirst_perm.length_eq.trans List.length_range
  simp only [regions, List.length_map, hclaimed, nsmul_eq_mul, Nat.cast_id] at hsum
  exact hsum

/-- A snapshot copies all opened blocks, each of them once. -/
theorem History.snapshot_indices (h : History t log) :
    (t.snapshot.1.blocks.map (·.index)).Perm (List.range t.arena.claimed) := by
  have hindex : (·.index) ∘ BlockCopy.ofView t.view = id := rfl
  rw [t.snapshot_eq]
  unfold Snapshot.ofView
  rw [List.map_reverse, List.map_map, hindex, List.map_id]
  exact (List.reverse_perm _).trans h.opened.newestFirst_perm

theorem History.copied_word (h : History t log) (hk : k < t.arena.claimed)
    (hj : j < (BlockCopy.ofView t.view k).words.length) :
    (BlockCopy.ofView t.view k).words[j]? = some (t.arena.rawWord (k * blockWords + headerWords k + j)) := by
  have hregion := h.region_le hk
  simp only [BlockCopy.ofView, List.length_map, List.length_range'] at hj ⊢
  rw [List.getElem?_map, List.getElem?_range' hj, Option.map_some, Nat.add_assoc (k * blockWords),
    rawWord_of_lt hk (by omega), t.view.region_start, recordStart, Nat.one_mul, Nat.add_assoc]
  rfl

/-- In every state of a tracer all readers show the same log. -/
theorem readers_agree (h : History t log) : ReadersAgree t where
  length := by rw [t.snapshot_eq, Snapshot.words_ofView, length_readable]
  word i hi := by rw [t.snapshot_eq, Snapshot.words_ofView, t.readWord_eq, readable_getElem? hi]
  word_past i hi := by rw [t.readWord_eq, word_of_le hi]
  count := by
    rw [t.wordCount_eq]
    cases t.arena.wrapped <;> simp
  count_wrapped := by
    rw [t.wordCount_eq]
    cases t.arena.wrapped <;> simp
  count_le := t.rawCount_eq.symm ▸ h.count_le
  copied b hb j hj := by
    obtain ⟨k, hk, rfl⟩ := mem_snapshot h.opened hb
    rw [t.readRawWord_eq]
    exact h.copied_word hk hj
  header b hb := by
    obtain ⟨k, hk, rfl⟩ := mem_snapshot h.opened hb
    have hfirst := t.arena.rawWord_of_lt hk (j := 0) (by decide)
    rw [Nat.add_zero, Nat.add_zero] at hfirst
    rw [t.readRawWord_eq, t.readRawWord_eq]
    dsimp only [BlockCopy.ofView]
    rw [hfirst, rawWord_of_lt hk (by decide)]
    rfl
  distinct := h.snapshot_indices.nodup_iff.mpr List.nodup_range
  index_lt b hb := List.mem_range.mp (h.snapshot_indices.mem_iff.mp (List.mem_map_of_mem hb))
  blocks := by
    rw [t.rawCount_eq]
    exact Nat.mul_div_cancel _ (by decide)
  raw_past i hi := by
    rw [t.rawCount_eq] at hi
    rw [t.readRawWord_eq, rawWord, if_pos hi]
  still reads hreads := by
    have hview := Tracer.view_after_reads (t := t) hreads
    refine ⟨hview, fun f a ha => ?_⟩
    exact (Tracer.perform_of_readsLog (u := (t.after reads).at (f (t.after reads).platform)) ha hview).1

/-- Two CPUs that still write to a log that has wrapped. -/
theorem readers_agree_of_two_cpus :
    ∃ (t : Tracer TimeOnly) (log : Ledger), History t log ∧ t.config.cpus = 2 ∧ t.arena.wrapped = true ∧
      t.room ≠ 0 ∧ t.view.count = 5 ∧ ReadersAgree t := by
  have hnew : History _ [] := .new (show Tracer.ofConfig ({} : TimeOnly) { blocks := 3, cpus := 2 } = .ok _ from rfl)
  have hrun := (((((hnew.act {} (.reset ⟨false, true⟩)).act {} (.insert 1 [2])).act { cpu := 1 } (.insert 3 [])).act {}
    (.execute .flush)).act {} (.insert 4 [])).act { cpu := 1 } (.insert 5 [6])
  exact ⟨_, _, hrun, by decide +kernel, by decide +kernel, by decide +kernel, by decide +kernel, readers_agree hrun⟩

end History

end EventRecorder
