import EventRecorder.Proofs.Ledger.History
import Mathlib.Logic.Relation

/-! # The steps of a history

Every action comes down to a few elementary steps on the view of the log and the ledger. They are read off
the program alone, without knowing anything about the state: an invariant of the log is proved step by
step, and `History.induction` carries it over to all runs. -/

namespace EventRecorder

open LogView (Stayed Moved)

variable {P : Type}

/-- The elementary steps of a session in a mode. -/
inductive Step (m : Mode) : LogView × Ledger → LogView × Ledger → Prop
  /-- The places stay, and so does the arena. -/
  | rest {v w : LogView} {log : Ledger} : w.arena = v.arena → Stayed v w → Step m (v, log) (w, log)
  /-- A claim that fits the block of its CPU, and what is written to it. -/
  | extend {v w : LogView} {log : Ledger} {cpu len : Nat} {ws : List UInt64} :
      Event.isValidLength len = true → cpu < v.cursors.size → (v.cursor cpu).fits len = true →
      (ws = [] ∨ ws.length = len) → w.arena = v.arena.setWords (v.cursor cpu).next ws →
      Moved v w cpu ((v.cursor cpu).next + len) (v.cursor cpu).limit →
      Step m (v, log)
        (w, ⟨cpu, ⟨(v.cursor cpu).next, len⟩, v.arena.blockOf (v.cursor cpu).next, false, 0, ws⟩ :: log)
  /-- A CPU that has not more room than one record needs runs over the end of its block, which is closed. -/
  | leave {v w : LogView} {log : Ledger} {cpu n : Nat} :
      cpu < v.cursors.size → (v.cursor cpu).limit ≤ n →
      (v.cursor cpu).limit ≤ (v.cursor cpu).next + Event.maxRecordWords →
      ((v.cursor cpu).limit = 0 ∧ w.arena = v.arena ∨
        (v.cursor cpu).limit ≠ 0 ∧ w.arena = v.arena.close (v.arena.blockOf ((v.cursor cpu).limit - 1))
          (min (v.cursor cpu).next (v.cursor cpu).limit)) →
      Moved v w cpu n (v.cursor cpu).limit → Step m (v, log) (w, log)
  /-- A block is refused. -/
  | exhaust {v w : LogView} {log : Ledger} :
      v.arena.openBlock m.wraps = (none, w.arena) → Stayed v w → Step m (v, log) (w, log)
  /-- A claim by a CPU without room that opens a block, and what is written to it. -/
  | take {v w : LogView} {log : Ledger} {cpu len : Nat} {ws : List UInt64} {a : Arena} {o : Opening} {header : Header}
      {task : Task} :
      Event.isValidLength len = true → cpu < v.cursors.size → (v.cursor cpu).hasRoom = false →
      (ws = [] ∨ ws.length = len) → v.arena.openBlock m.wraps = (some o, a) → header.cpu = UInt8.ofNat cpu →
      w.arena = ((a.layOut o header task).startFilling (a.blockOf o.start)).setWords o.recordStart ws →
      Moved v w cpu (o.recordStart + len) (o.start + blockWords) →
      Step m (v, log)
        (w, ⟨cpu, ⟨o.recordStart, len⟩, v.arena.blockOf o.recordStart, true,
          v.unspent cpu (v.arena.blockOf o.recordStart), ws⟩ :: log)
  /-- A return is folded into the word before the place of its CPU. -/
  | fold {v w : LogView} {log : Ledger} {cpu : Nat} {x : UInt64} :
      (v.cursor cpu).hasRoom = true → w.arena = v.arena.setWord ((v.cursor cpu).next - 1) x → Stayed v w →
      Step m (v, log) (w, log.amendLatest cpu x)
  /-- A rate is noted for a word below the limit of some CPU. -/
  | rate {v w : LogView} {log : Ledger} {cpu i : Nat} {x : UInt64} :
      m.rates = true → i < (v.cursor cpu).limit → w.arena = v.arena.setWord (i / 8) x → Stayed v w →
      Step m (v, log) (w, log)
  /-- The block of a CPU is closed and the rest of it cleared. -/
  | flush {v w : LogView} {log : Ledger} {cpu : Nat} :
      cpu < v.cursors.size → (v.cursor cpu).hasRoom = true →
      w.arena = (v.arena.close (v.arena.blockOf ((v.cursor cpu).limit - 1))
        (min (v.cursor cpu).next (v.cursor cpu).limit)).zero (v.cursor cpu).next
          ((v.cursor cpu).limit - (v.cursor cpu).next) →
      Moved v w cpu (v.cursor cpu).limit (v.cursor cpu).limit → Step m (v, log) (w, log)

/-- `u` with the ledger `log'` comes after `t` with the ledger `log` in the same session. -/
structure Leads (t : Tracer P) (log : Ledger) (u : Tracer P) (log' : Ledger) : Prop where
  config : u.config = t.config
  mode : u.mode = t.mode
  steps : Relation.ReflTransGen (Step t.mode) (t.view, log) (u.view, log')

namespace Leads

variable {s t u : Tracer P} {log log₁ log₂ : Ledger}

theorem of_step (hc : u.config = t.config) (hm : u.mode = t.mode) (h : Step t.mode (t.view, log) (u.view, log₁)) :
    Leads t log u log₁ := ⟨hc, hm, .single h⟩

theorem of_view (hc : u.config = t.config) (hm : u.mode = t.mode) (hv : u.view = t.view) : Leads t log u log :=
  ⟨hc, hm, by rw [hv]⟩

theorem refl : Leads t log t log := of_view rfl rfl rfl

theorem trans (h₁ : Leads s log t log₁) (h₂ : Leads t log₁ u log₂) : Leads s log u log₂ :=
  ⟨h₂.config.trans h₁.config, h₂.mode.trans h₁.mode, h₁.steps.trans (h₁.mode ▸ h₂.steps)⟩

/-- What every step of the session keeps holds after all of them. -/
theorem induction {I : LogView × Ledger → Prop} (h : Leads t log u log₁) (start : I (t.view, log))
    (step : ∀ {x y : LogView × Ledger}, I x → Step t.mode x y → I y) : I (u.view, log₁) := by
  have hkept : ∀ y, Relation.ReflTransGen (Step t.mode) (t.view, log) y → I y := by
    intro y hy
    induction hy with
    | refl => exact start
    | tail _ hstep ih => exact step ih hstep
  exact hkept _ h.steps

/-- What only the unseen parts of a tracer tell apart leads to the same. -/
theorem of_same (h : Leads t log u log₁) (hc : s.config = t.config) (hm : s.mode = t.mode) (hv : s.view = t.view) :
    Leads s log u log₁ := (of_view hc.symm hm.symm hv.symm).trans h

end Leads

end EventRecorder
