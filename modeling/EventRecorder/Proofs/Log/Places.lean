import EventRecorder.Proofs.Arena.Geometry
import EventRecorder.Tracer.Readout
import Mathlib.Data.Finset.Lattice.Fold
import Mathlib.Data.Finset.Range
import Mathlib.Order.Lattice.Nat
import Mathlib.Order.Nat

/-! # Where the CPUs write

The place of a CPU is the pair of `next` and `limit` of its cursor. Of all that a step may do to the
cursors only a change of places matters to the log: `Stayed` says that no place changed, `Moved` that the
place of one CPU did. -/

namespace EventRecorder

variable {P : Type} {n : Nat}

/-- A claim of `n` words fits the block that the cursor is in. -/
def Cursor.fits (c : Cursor) (n : Nat) : Bool := c.next + n < c.limit

theorem Cursor.hasRoom_iff {c : Cursor} : c.hasRoom = true ↔ c.next < c.limit := decide_eq_true_iff

theorem Cursor.fits_iff {c : Cursor} : c.fits n = true ↔ c.next + n < c.limit := decide_eq_true_iff

theorem Cursor.fits_of_le {c : Cursor} {l : Nat} (h : c.fits n = true) (hl : l ≤ n) : c.fits l = true := by
  have := fits_iff.mp h
  exact fits_iff.mpr (by omega)

theorem Cursor.hasRoom_of_fits {c : Cursor} (h : c.fits n = true) : c.hasRoom = true := by
  have := fits_iff.mp h
  exact hasRoom_iff.mpr (by omega)

theorem Cursor.not_fits {c : Cursor} (h : c.hasRoom = false) (n : Nat) : c.fits n = false :=
  Bool.eq_false_iff.mpr fun hfits => Bool.false_ne_true (h.symm.trans (hasRoom_of_fits hfits))

namespace LogView

/-- The cursor of a CPU, empty for a CPU that has none. -/
def cursor (v : LogView) (cpu : Nat) : Cursor := v.cursors.getD cpu {}

/-- The most words that a CPU other than `cpu` has left of block `k`. -/
def unspent (v : LogView) (cpu k : Nat) : Nat :=
  ((Finset.range v.cursors.size).filter fun c => c ≠ cpu ∧ (v.cursor c).limit = v.arena.blockStop k).sup fun c =>
    (v.cursor c).limit - (v.cursor c).next

/-- All CPUs are at the places in `w` that they have in `v`. -/
structure Stayed (v w : LogView) : Prop where
  cpus : w.cursors.size = v.cursors.size
  next : ∀ c, (w.cursor c).next = (v.cursor c).next
  limit : ∀ c, (w.cursor c).limit = (v.cursor c).limit

/-- One CPU is at a given place in `w`, all others are where they are in `v`. -/
structure Moved (v w : LogView) (cpu next limit : Nat) : Prop where
  cpus : w.cursors.size = v.cursors.size
  next : (w.cursor cpu).next = next
  limit : (w.cursor cpu).limit = limit
  next_of_ne : ∀ c, c ≠ cpu → (w.cursor c).next = (v.cursor c).next
  limit_of_ne : ∀ c, c ≠ cpu → (w.cursor c).limit = (v.cursor c).limit

variable {u v w : LogView} {c cpu k l : Nat}

theorem cursor_mem (h : c < v.cursors.size) : v.cursor c ∈ v.cursors.toList := by
  unfold cursor
  rw [Array.getD_eq_getD_getElem?, Array.getElem?_eq_getElem h]
  exact Array.getElem_mem_toList h

theorem exists_cursor {x : Cursor} (h : x ∈ v.cursors.toList) : ∃ c < v.cursors.size, v.cursor c = x := by
  obtain ⟨c, hc, rfl⟩ := List.mem_iff_getElem.mp h
  refine ⟨c, hc, ?_⟩
  unfold cursor
  rw [Array.getD_eq_getD_getElem?, Array.getElem?_eq_getElem hc]
  rfl

/-- All CPUs start with an empty cursor. -/
@[simp] theorem cursor_replicate (a : Arena) (n c : Nat) : cursor ⟨a, Array.replicate n {}⟩ c = {} := by
  simp only [cursor, Array.getD_eq_getD_getElem?, Array.getElem?_replicate]
  split <;> rfl

theorem region_start (v : LogView) (k : Nat) : (v.region k).start = v.arena.recordStart k := by
  unfold region
  split <;> rfl

/-! ### Places that stay and places that move -/

theorem Stayed.of_eq (h : w.cursors = v.cursors) : Stayed v w := by
  refine ⟨?_, fun c => ?_, fun c => ?_⟩ <;> simp only [cursor, h]

theorem Stayed.trans (h₁ : Stayed u v) (h₂ : Stayed v w) : Stayed u w :=
  ⟨h₂.cpus.trans h₁.cpus, fun c => (h₂.next c).trans (h₁.next c), fun c => (h₂.limit c).trans (h₁.limit c)⟩

theorem Stayed.fits (h : Stayed v w) (c n : Nat) : (w.cursor c).fits n = (v.cursor c).fits n := by
  simp only [Cursor.fits, h.next, h.limit]

theorem Stayed.hasRoom (h : Stayed v w) (c : Nat) : (w.cursor c).hasRoom = (v.cursor c).hasRoom := h.fits c 0

theorem Moved.trans {n' l' : Nat} (h₁ : Moved u v cpu n l) (h₂ : Moved v w cpu n' l') : Moved u w cpu n' l' :=
  ⟨h₂.cpus.trans h₁.cpus, h₂.next, h₂.limit, fun c hc => (h₂.next_of_ne c hc).trans (h₁.next_of_ne c hc),
    fun c hc => (h₂.limit_of_ne c hc).trans (h₁.limit_of_ne c hc)⟩

theorem Moved.of_cursors {v' w' : LogView} (h : Moved v w cpu n l) (hv : v'.cursors = v.cursors)
    (hw : w'.cursors = w.cursors) : Moved v' w' cpu n l := by
  refine ⟨?_, ?_, ?_, fun c hc => ?_, fun c hc => ?_⟩ <;> simp only [cursor, hv, hw]
  · exact h.cpus
  · exact h.next
  · exact h.limit
  · exact h.next_of_ne c hc
  · exact h.limit_of_ne c hc

theorem Moved.after_stayed (h₁ : Stayed u v) (h₂ : Moved v w cpu n l) : Moved u w cpu n l :=
  ⟨h₂.cpus.trans h₁.cpus, h₂.next, h₂.limit, fun c hc => (h₂.next_of_ne c hc).trans (h₁.next c),
    fun c hc => (h₂.limit_of_ne c hc).trans (h₁.limit c)⟩

/-- A move inside of a block changes no limit. -/
theorem Moved.same_limit (h : Moved v w cpu n l) (hl : (v.cursor cpu).limit = l) (c : Nat) :
    (w.cursor c).limit = (v.cursor c).limit := by
  by_cases hc : c = cpu
  · rw [hc, h.limit, hl]
  · exact h.limit_of_ne c hc

theorem Moved.fits_of_ne {i : Nat} (h : Moved v w cpu n l) {c : Nat} (hc : c ≠ cpu) :
    (w.cursor c).fits i = (v.cursor c).fits i := by
  simp only [Cursor.fits, h.next_of_ne c hc, h.limit_of_ne c hc]

theorem Moved.hasRoom_of_ne (h : Moved v w cpu n l) {c : Nat} (hc : c ≠ cpu) :
    (w.cursor c).hasRoom = (v.cursor c).hasRoom := h.fits_of_ne (i := 0) hc

theorem Moved.hasRoom_iff (h : Moved v w cpu n l) : (w.cursor cpu).hasRoom = true ↔ n < l := by
  rw [Cursor.hasRoom_iff, h.next, h.limit]

/-! ### Blocks that are not used up -/

theorem lt_unspent_iff : n < v.unspent cpu k ↔
    ∃ c, c < v.cursors.size ∧ c ≠ cpu ∧ (v.cursor c).limit = v.arena.blockStop k ∧ (v.cursor c).fits n = true := by
  simp only [unspent, Finset.lt_sup_iff, Finset.mem_filter, Finset.mem_range, Cursor.fits_iff, Nat.lt_sub_iff_add_lt',
    and_assoc]

theorem unspent_of_moved (h : Moved v w cpu n l) (hb : w.arena.blockStop k = v.arena.blockStop k) :
    w.unspent cpu k = v.unspent cpu k := by
  refine eq_of_forall_lt_iff fun i => ?_
  rw [lt_unspent_iff, lt_unspent_iff, h.cpus, hb]
  refine exists_congr fun c => and_congr_right fun _ => and_congr_right fun hc => ?_
  rw [h.limit_of_ne c hc, h.fits_of_ne hc]

end LogView

namespace Tracer

variable {t : Tracer P} {cpu c : Nat} {f : Cursor → Cursor}

/-! ### Cursors of a tracer -/

@[simp] theorem view_cursor (t : Tracer P) (cpu : Nat) : t.view.cursor cpu = t.cursor cpu := rfl

@[simp] theorem size_modifyCursor : (t.modifyCursor cpu f).cursors.size = t.cursors.size := by
  simp [modifyCursor]

theorem cursor_modifyCursor (h : cpu < t.cursors.size) : (t.modifyCursor cpu f).cursor cpu = f (t.cursor cpu) := by
  simp only [cursor, modifyCursor, Array.getD_eq_getD_getElem?, Array.getElem?_modify]
  simp [h]

theorem cursor_modifyCursor_of_ne (h : c ≠ cpu) : (t.modifyCursor cpu f).cursor c = t.cursor c := by
  simp only [cursor, modifyCursor, Array.getD_eq_getD_getElem?, Array.getElem?_modify, Ne.symm h, if_false]

theorem cursor_modifyCursor_of_le (h : t.cursors.size ≤ cpu) : (t.modifyCursor cpu f).cursor cpu = t.cursor cpu := by
  simp only [cursor, modifyCursor, Array.getD_eq_getD_getElem?, Array.getElem?_modify]
  simp [h]

theorem moved_modifyCursor (h : cpu < t.cursors.size) :
    LogView.Moved t.view (t.modifyCursor cpu f).view cpu (f (t.cursor cpu)).next (f (t.cursor cpu)).limit := by
  refine ⟨size_modifyCursor, ?_, ?_, fun c hc => ?_, fun c hc => ?_⟩ <;> simp only [view_cursor]
  · rw [cursor_modifyCursor h]
  · rw [cursor_modifyCursor h]
  · rw [cursor_modifyCursor_of_ne hc]
  · rw [cursor_modifyCursor_of_ne hc]

/-- What a change of a cursor keeps of each cursor, it keeps of all. -/
theorem field_modifyCursor {α : Type} (g : Cursor → α) (hf : ∀ c, g (f c) = g c) (c : Nat) :
    g ((t.modifyCursor cpu f).cursor c) = g (t.cursor c) := by
  by_cases h : c = cpu
  · subst h
    rcases Nat.lt_or_ge c t.cursors.size with hc | hc
    · rw [cursor_modifyCursor hc, hf]
    · rw [cursor_modifyCursor_of_le hc]
  · rw [cursor_modifyCursor_of_ne h]

/-- A change of a cursor that keeps its place. -/
theorem stayed_modifyCursor (hn : ∀ c, (f c).next = c.next) (hl : ∀ c, (f c).limit = c.limit) :
    LogView.Stayed t.view (t.modifyCursor cpu f).view :=
  ⟨size_modifyCursor, field_modifyCursor Cursor.next hn, field_modifyCursor Cursor.limit hl⟩

end Tracer

end EventRecorder
