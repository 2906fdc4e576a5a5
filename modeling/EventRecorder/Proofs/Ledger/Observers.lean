import EventRecorder.Proofs.Ledger.Induction

/-! # Observers

The ledger tells which words were granted and what was written to them. What else there is to know of a session is
noted by further observers, each from the state before an action and the action alone. -/

namespace EventRecorder

open LogView

variable {P α : Type} [Platform P] {note : Tracer P → Action → Option α} {t : Tracer P} {log : Ledger} {notes : List α}

/-- The runs of tracers, with the ledger of the last session and what an observer has noted of it, the latest first. -/
inductive Observed (note : Tracer P → Action → Option α) : Tracer P → Ledger → List α → Prop
  | new {platform : P} {config : Config} {t : Tracer P} : Tracer.ofConfig platform config = .ok t →
      Observed note t [] []
  | act {t : Tracer P} {log : Ledger} {notes : List α} (platform : P) (a : Action) : Observed note t log notes →
      Observed note ((t.at platform).perform a).2 ((t.at platform).enter a log)
        (if a.isReset && !t.tracing then [] else (note (t.at platform) a).toList ++ notes)

namespace Observed

theorem history (h : Observed note t log notes) : History t log := by
  induction h with
  | new hnew => exact .new hnew
  | act platform a _ ih => exact ih.act_at platform a

/-- What holds when a session starts and is kept by every action of the session, with what is noted of it. -/
theorem induction {I : Tracer P → Ledger → List α → Prop}
    (start : ∀ t : Tracer P, t.clock = {} → (∀ c, t.cursor c = {}) → I t [] [])
    (step : ∀ {t : Tracer P} {log : Ledger} {notes : List α} (platform : P) {a : Action}, History (t.at platform) log →
      (a.isReset && !t.tracing) = false → I t log notes →
      I ((t.at platform).perform a).2 ((t.at platform).enter a log) ((note (t.at platform) a).toList ++ notes))
    (h : Observed note t log notes) : I t log notes := by
  have begins : ∀ (t : Tracer P) (a : Arena) (n : Nat), t.clock = {} → t.view = ⟨a, Array.replicate n {}⟩ → I t [] [] := by
    intro t a n hclock hview
    refine start t hclock fun c => ?_
    change t.view.cursor c = {}
    rw [hview, cursor_replicate]
  induction h with
  | @new platform config t hnew =>
    obtain ⟨-, rfl⟩ := Tracer.eq_made hnew
    exact begins _ _ _ rfl rfl
  | @act t log notes platform a hrun ih =>
    cases hreset : a.isReset && !t.tracing
    · rw [if_neg Bool.false_ne_true]
      exact step platform (hrun.history.at platform) hreset ih
    · obtain ⟨hisReset, hoff⟩ : a.isReset = true ∧ t.tracing = false := by simpa using hreset
      obtain ⟨mode, -, -, hclock, hview⟩ := (t.at platform).perform_reset hisReset hoff
      have henter : (t.at platform).enter a log = [] := if_pos hreset
      rw [if_pos rfl, henter]
      exact begins _ _ _ hclock hview

end Observed

/-- Every run can be observed. -/
theorem History.observed (h : History t log) (note : Tracer P → Action → Option α) :
    ∃ notes, Observed note t log notes := by
  induction h with
  | new hnew => exact ⟨[], .new hnew⟩
  | act platform a _ ih =>
    obtain ⟨notes, hnotes⟩ := ih
    exact ⟨_, hnotes.act platform a⟩

end EventRecorder
