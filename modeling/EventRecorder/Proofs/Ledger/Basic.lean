import EventRecorder.Proofs.Log.Places

/-! # Ledgers

A ledger lists all words granted since the last reset, the latest grant first. No tracer keeps a ledger:
it is what an observer of all calls would write down, and the log is described in terms of it. -/

namespace EventRecorder

theorem Span.start_le_stop (s : Span) : s.start ≤ s.stop := Nat.le_add_right _ _

/-- Words granted to a CPU. -/
structure Grant where
  cpu : Nat
  span : Span
  /-- The block that holds the words. -/
  block : Nat
  /-- The block was opened for this grant. -/
  fresh : Bool
  /-- The most words of the block that another CPU had left when it was opened for this grant. -/
  unspent : Nat
  /-- The words written to the span; none for words claimed without being written. -/
  words : List UInt64
deriving DecidableEq, Repr

namespace Grant

/-- The grant without what was written. -/
def bare (g : Grant) : Grant := { g with words := [] }

/-- The grant with its last written word replaced. -/
def amend (g : Grant) (w : UInt64) : Grant := { g with words := g.words.set (g.words.length - 1) w }

@[simp] theorem bare_amend (g : Grant) (w : UInt64) : (g.amend w).bare = g.bare := rfl

theorem stop_of_length {g : Grant} (h : g.words.length = g.span.len) :
    g.span.stop = g.span.start + g.words.length := by
  rw [h]
  rfl

end Grant

/-- The words granted since the last reset, the latest first. -/
abbrev Ledger := List Grant

namespace Ledger

/-- The ledger without what was written. -/
def shape (log : Ledger) : Ledger := log.map Grant.bare

/-- The number of blocks opened. -/
def openings (log : Ledger) : Nat := log.countP (·.fresh)

/-- The latest grant of a CPU. -/
def latest? (cpu : Nat) (log : Ledger) : Option Grant := log.find? (·.cpu == cpu)

/-- The grants of block `k` since it was last opened, the latest first. -/
def sinceOpened (k : Nat) : (log : Ledger) → List Grant
  | [] => []
  | g :: log =>
    if g.block = k then
      if g.fresh then [g] else g :: sinceOpened k log
    else sinceOpened k log

/-- Replaces the last word written by the latest grant of a CPU. -/
def amendLatest (cpu : Nat) (w : UInt64) : (log : Ledger) → Ledger
  | [] => []
  | g :: log => if g.cpu = cpu then g.amend w :: log else g :: amendLatest cpu w log

variable {g p : Grant} {log : Ledger} {cpu c d k : Nat}

/-! ### Openings -/

@[simp] theorem openings_nil : openings [] = 0 := rfl

theorem openings_of_fresh (h : g.fresh = true) : openings (g :: log) = openings log + 1 :=
  List.countP_cons_of_pos h

theorem openings_of_not_fresh (h : g.fresh = false) : openings (g :: log) = openings log :=
  List.countP_cons_of_neg (by simp [h])

theorem openings_le_cons (g : Grant) (log : Ledger) : openings log ≤ openings (g :: log) := by
  cases h : g.fresh
  · exact Nat.le_of_eq (openings_of_not_fresh h).symm
  · rw [openings_of_fresh h]
    exact Nat.le_succ _

/-! ### The latest grant of a CPU -/

@[simp] theorem latest?_nil : latest? cpu [] = none := rfl

theorem latest?_cons_self : latest? g.cpu (g :: log) = some g := by
  simp [latest?]

theorem latest?_cons_of_ne (h : g.cpu ≠ c) : latest? c (g :: log) = latest? c log := by
  simp [latest?, h]

theorem latest?_cons_inv (h : latest? c (g :: log) = some p) :
    (g.cpu = c ∧ g = p) ∨ (g.cpu ≠ c ∧ latest? c log = some p) := by
  by_cases hc : g.cpu = c
  · subst hc
    rw [latest?_cons_self] at h
    exact Or.inl ⟨rfl, Option.some.inj h⟩
  · rw [latest?_cons_of_ne hc] at h
    exact Or.inr ⟨hc, h⟩

theorem cpu_of_latest? (h : latest? cpu log = some g) : g.cpu = cpu := by
  simpa using List.find?_some h

theorem mem_of_latest? (h : latest? cpu log = some g) : g ∈ log := List.mem_of_find?_eq_some h

/-! ### The grants since a block was opened -/

@[simp] theorem sinceOpened_nil : sinceOpened k [] = [] := rfl

theorem sinceOpened_of_fresh (hk : g.block = k) (h : g.fresh = true) : sinceOpened k (g :: log) = [g] := by
  simp [sinceOpened, hk, h]

theorem sinceOpened_of_not_fresh (hk : g.block = k) (h : g.fresh = false) :
    sinceOpened k (g :: log) = g :: sinceOpened k log := by
  simp [sinceOpened, hk, h]

theorem sinceOpened_of_ne (h : g.block ≠ k) : sinceOpened k (g :: log) = sinceOpened k log := by
  simp [sinceOpened, h]

/-- The latest grant tops its block. -/
theorem head?_sinceOpened_cons (hk : g.block = k) : (sinceOpened k (g :: log)).head? = some g := by
  cases hf : g.fresh
  · rw [sinceOpened_of_not_fresh hk hf]
    rfl
  · rw [sinceOpened_of_fresh hk hf]
    rfl

theorem head?_sinceOpened_inv (h : (sinceOpened k (g :: log)).head? = some p) :
    (g.block = k ∧ g = p) ∨ (g.block ≠ k ∧ (sinceOpened k log).head? = some p) := by
  by_cases hk : g.block = k
  · rw [head?_sinceOpened_cons hk] at h
    exact Or.inl ⟨hk, Option.some.inj h⟩
  · rw [sinceOpened_of_ne hk] at h
    exact Or.inr ⟨hk, h⟩

theorem mem_sinceOpened_inv (h : p ∈ sinceOpened k (g :: log)) :
    (g.block = k ∧ g = p) ∨ (p ∈ sinceOpened k log ∧ (g.block = k → g.fresh = false)) := by
  by_cases hk : g.block = k
  · cases hf : g.fresh
    · rw [sinceOpened_of_not_fresh hk hf] at h
      rcases List.mem_cons.mp h with heq | h
      · exact Or.inl ⟨hk, heq.symm⟩
      · exact Or.inr ⟨h, fun _ => rfl⟩
    · rw [sinceOpened_of_fresh hk hf] at h
      exact Or.inl ⟨hk, (List.mem_singleton.mp h).symm⟩
  · rw [sinceOpened_of_ne hk] at h
    exact Or.inr ⟨h, fun heq => absurd heq hk⟩

theorem mem_of_mem_sinceOpened (h : g ∈ sinceOpened k log) : g ∈ log ∧ g.block = k := by
  induction log with
  | nil => cases h
  | cons p log ih =>
    obtain ⟨hk, rfl⟩ | ⟨h, -⟩ := mem_sinceOpened_inv h
    · exact ⟨List.mem_cons_self, hk⟩
    · exact ⟨List.mem_cons_of_mem _ (ih h).1, (ih h).2⟩

/-- The block of a grant has been opened. -/
theorem sinceOpened_ne_nil (h : g ∈ log) : sinceOpened g.block log ≠ [] := by
  induction log with
  | nil => cases h
  | cons p log ih =>
    by_cases hb : p.block = g.block
    · cases hf : p.fresh
      · rw [sinceOpened_of_not_fresh hb hf]
        exact List.cons_ne_nil _ _
      · rw [sinceOpened_of_fresh hb hf]
        exact List.cons_ne_nil _ _
    · rw [sinceOpened_of_ne hb]
      refine ih ((List.mem_cons.mp h).resolve_left fun hg => hb ?_)
      rw [hg]

theorem block_of_head? (h : (sinceOpened k log).head? = some g) : g ∈ log ∧ g.block = k :=
  mem_of_mem_sinceOpened (List.mem_of_head? h)

/-! ### Shapes -/

@[simp] theorem shape_nil : shape [] = [] := rfl

@[simp] theorem shape_cons : shape (g :: log) = g.bare :: shape log := rfl

@[simp] theorem openings_shape (log : Ledger) : openings (shape log) = openings log := by
  unfold openings shape
  rw [List.countP_map]
  rfl

theorem latest?_shape (cpu : Nat) (log : Ledger) : latest? cpu (shape log) = (latest? cpu log).map Grant.bare := by
  unfold latest? shape
  rw [List.find?_map]
  rfl

theorem sinceOpened_shape (k : Nat) (log : Ledger) :
    sinceOpened k (shape log) = (sinceOpened k log).map Grant.bare := by
  induction log with
  | nil => rfl
  | cons g log ih =>
    by_cases hb : g.block = k
    · cases hf : g.fresh
      · rw [sinceOpened_of_not_fresh hb hf, List.map_cons, ← ih]
        exact sinceOpened_of_not_fresh (g := g.bare) hb hf
      · rw [sinceOpened_of_fresh hb hf]
        exact sinceOpened_of_fresh (g := g.bare) hb hf
    · rw [sinceOpened_of_ne hb, ← ih]
      exact sinceOpened_of_ne (g := g.bare) hb

theorem bare_mem_sinceOpened (h : g ∈ sinceOpened k log) : g.bare ∈ sinceOpened k (shape log) := by
  rw [sinceOpened_shape]
  exact List.mem_map_of_mem h

@[simp] theorem shape_amendLatest (cpu : Nat) (w : UInt64) (log : Ledger) :
    shape (amendLatest cpu w log) = shape log := by
  induction log with
  | nil => rfl
  | cons g log ih =>
    by_cases h : g.cpu = cpu
    · simp only [amendLatest, if_pos h, shape_cons, Grant.bare_amend]
    · simp only [amendLatest, if_neg h, shape_cons, ih]

/-- What amending a grant keeps, amending the latest one keeps for all. -/
theorem forall_mem_amendLatest {q : Grant → Prop} {w : UInt64} (h : ∀ g ∈ log, q g)
    (hamend : ∀ g, g.cpu = c → q g → q (g.amend w)) : ∀ g ∈ amendLatest c w log, q g := by
  induction log with
  | nil => exact h
  | cons g log ih =>
    obtain ⟨hg, hrest⟩ := List.forall_mem_cons.mp h
    unfold amendLatest
    split
    · rename_i hcpu
      exact List.forall_mem_cons.mpr ⟨hamend g hcpu hg, hrest⟩
    · exact List.forall_mem_cons.mpr ⟨hg, ih hrest⟩

/-- What amending keeps of each grant, amending the latest one keeps of all. -/
theorem filterMap_amendLatest {α : Type} {f : Grant → Option α} {w : UInt64} (h : ∀ g : Grant, f (g.amend w) = f g)
    (c : Nat) (log : Ledger) : (amendLatest c w log).filterMap f = log.filterMap f := by
  induction log with
  | nil => rfl
  | cons g log ih =>
    unfold amendLatest
    split
    · rw [List.filterMap_cons, List.filterMap_cons, h]
    · rw [List.filterMap_cons, List.filterMap_cons, ih]

/-- If a block is topped by a grant of the CPU that is in it, it is topped by the latest one. -/
theorem head_of_latest_of_shape (hp : latest? c log = some p)
    (hhead : (sinceOpened p.block (shape log)).head? = some p.bare) : (sinceOpened p.block log).head? = some p := by
  rw [sinceOpened_shape, List.head?_map, Option.map_eq_some_iff] at hhead
  obtain ⟨q, hq, hbare⟩ := hhead
  have hcpu : q.cpu = c := by
    rw [← cpu_of_latest? hp]
    exact (congrArg Grant.cpu hbare :)
  rw [hq]
  congr 1
  clear hbare
  induction log with
  | nil => cases hp
  | cons g log ih =>
    obtain ⟨rfl, rfl⟩ | ⟨hg, hp⟩ := latest?_cons_inv hp
    · rw [head?_sinceOpened_cons rfl] at hq
      exact (Option.some.inj hq).symm
    · obtain ⟨-, rfl⟩ | ⟨-, hq⟩ := head?_sinceOpened_inv hq
      · exact absurd hcpu hg
      · exact ih hp hq

/-- Amending the latest grant of a CPU changes the top of its block. -/
theorem sinceOpened_amendLatest (w : UInt64) (hp : latest? c log = some p)
    (hhead : (sinceOpened p.block log).head? = some p) (k : Nat) :
    sinceOpened k (amendLatest c w log) =
      if p.block = k then p.amend w :: (sinceOpened k log).tail else sinceOpened k log := by
  induction log with
  | nil => cases hp
  | cons g log ih =>
    unfold amendLatest
    by_cases hg : g.cpu = c
    · subst hg
      rw [latest?_cons_self] at hp
      obtain rfl := Option.some.inj hp
      rw [if_pos rfl]
      by_cases hk : g.block = k
      · rw [if_pos hk]
        cases hf : g.fresh
        · rw [sinceOpened_of_not_fresh hk hf, sinceOpened_of_not_fresh (g := g.amend w) hk hf]
          rfl
        · rw [sinceOpened_of_fresh hk hf, sinceOpened_of_fresh (g := g.amend w) hk hf]
          rfl
      · rw [if_neg hk, sinceOpened_of_ne hk, sinceOpened_of_ne (g := g.amend w) hk]
    · rw [latest?_cons_of_ne hg] at hp
      rw [if_neg hg]
      have hb : g.block ≠ p.block := fun hb => by
        rw [head?_sinceOpened_cons hb] at hhead
        obtain rfl := Option.some.inj hhead
        exact hg (cpu_of_latest? hp)
      rw [sinceOpened_of_ne hb] at hhead
      by_cases hk : g.block = k
      · have hpk : p.block ≠ k := fun hpk => hb (hk.trans hpk.symm)
        rw [if_neg hpk]
        cases hf : g.fresh
        · rw [sinceOpened_of_not_fresh hk hf, sinceOpened_of_not_fresh hk hf, ih hp hhead, if_neg hpk]
        · rw [sinceOpened_of_fresh hk hf, sinceOpened_of_fresh hk hf]
      · rw [sinceOpened_of_ne hk, sinceOpened_of_ne hk, ih hp hhead]

/-! ### The openings of a block -/

/-- The number of times that block `k` was opened. -/
def openingsOf (k : Nat) (log : Ledger) : Nat := log.countP fun g => g.fresh && g.block == k

theorem openingsOf_le_cons (k : Nat) (g : Grant) (log : Ledger) : openingsOf k log ≤ openingsOf k (g :: log) := by
  unfold openingsOf
  rw [List.countP_cons]
  exact Nat.le_add_right _ _

theorem openingsOf_of_fresh (h : g.fresh = true) (log : Ledger) :
    openingsOf k (g :: log) = openingsOf k log + if g.block = k then 1 else 0 := by
  unfold openingsOf
  rw [List.countP_cons, h, Bool.true_and]
  simp

/-- A block that was not opened again is another one than the last that was. -/
theorem ne_of_openingsOf_le (hf : g.fresh = true) (h : openingsOf k (g :: log) ≤ openingsOf k log) : g.block ≠ k := by
  intro hk
  rw [openingsOf_of_fresh hf, if_pos hk] at h
  exact Nat.not_succ_le_self _ h

theorem openingsOf_of_not_fresh (h : g.fresh = false) (log : Ledger) : openingsOf k (g :: log) = openingsOf k log := by
  unfold openingsOf
  rw [List.countP_cons, h, Bool.false_and]
  simp

@[simp] theorem openingsOf_shape (k : Nat) (log : Ledger) : openingsOf k (shape log) = openingsOf k log := by
  unfold openingsOf shape
  rw [List.countP_map]
  rfl

@[simp] theorem openingsOf_amendLatest (k c : Nat) (w : UInt64) (log : Ledger) :
    openingsOf k (amendLatest c w log) = openingsOf k log := by
  rw [← openingsOf_shape, shape_amendLatest, openingsOf_shape]

/-! ### The grants of a CPU -/

theorem filter_cpu_self (h : g.cpu = c) (log : Ledger) :
    (g :: log).filter (·.cpu == c) = g :: log.filter (·.cpu == c) := by
  simp [h]

theorem filter_cpu_of_ne (h : g.cpu ≠ c) (log : Ledger) :
    (g :: log).filter (·.cpu == c) = log.filter (·.cpu == c) := by
  simp [h]

/-- Amending the latest grant of a CPU changes the first of its grants. -/
theorem filter_amendLatest_self {l : List Grant} (h : log.filter (·.cpu == c) = p :: l) (w : UInt64) :
    (amendLatest c w log).filter (·.cpu == c) = p.amend w :: l := by
  induction log with
  | nil => cases h
  | cons g log ih =>
    unfold amendLatest
    by_cases hg : g.cpu = c
    · rw [filter_cpu_self hg] at h
      obtain ⟨rfl, rfl⟩ := List.cons.inj h
      rw [if_pos hg, filter_cpu_self (g := g.amend w) hg]
    · rw [filter_cpu_of_ne hg] at h
      rw [if_neg hg, filter_cpu_of_ne hg, ih h]

theorem filter_amendLatest_of_ne (h : d ≠ c) (w : UInt64) (log : Ledger) :
    (amendLatest d w log).filter (·.cpu == c) = log.filter (·.cpu == c) := by
  induction log with
  | nil => rfl
  | cons g log ih =>
    unfold amendLatest
    by_cases hg : g.cpu = d
    · have hne : g.cpu ≠ c := hg ▸ h
      rw [if_pos hg, filter_cpu_of_ne hne, filter_cpu_of_ne (g := g.amend w) hne]
    · rw [if_neg hg, List.filter_cons, List.filter_cons, ih]

end Ledger

end EventRecorder
