import EventRecorder.Proofs.Ledger.Contents
import EventRecorder.Proofs.Record.Merge

/-! # Traced events

Runs that trace events of one word, with anything in between that asks for no words and starts no session.
The observer notes of every event its stamped word, what became of it, and the word that absorbed it. -/

namespace EventRecorder

open Ledger LogView

/-- The first word of an event, not yet stamped. -/
def Head.eventWord (event arg : UInt64) : UInt64 :=
  if Event.isFoldableReturn event && fitsByte arg.toInt64 then returnWord event arg.toInt64 else callWord event arg

/-- An event that was traced. -/
structure Traced where
  event : UInt64
  arg : UInt64
  /-- The CPU that it was traced on. -/
  cpu : Nat
  /-- Its stamped word. -/
  word : UInt64
  outcome : Outcome
  /-- The word that it was folded into, as it was before. -/
  call? : Option UInt64
deriving DecidableEq

/-- The command neither asks for words nor for a new session. -/
def Command.isQuiet : Command → Bool
  | insertWord .. | insertUser .. | reset _ => false
  | _ => true

/-- The action neither asks for words nor for a new session. -/
def Action.isQuiet (a : Action) : Bool :=
  match a with
  | .execute command => command.isQuiet
  | .control code arg => (Command.ofCode? code arg).all (·.isQuiet)
  | .snapshot => true
  | _ => false

variable {P : Type} [Platform P] {t : Tracer P} {log : Ledger} {es : List Traced} {event arg : UInt64} {c : Nat}

/-- What the observer notes of an event that is traced in the state `t`. -/
def Tracer.observe (t : Tracer P) (event arg : UInt64) : Traced where
  event
  arg
  cpu := t.readTime.2.currentCpu
  word := Head.stamp (Head.eventWord event arg) t.readTime.1
  outcome := (t.traceEvent event arg).1
  call? := match (t.traceEvent event arg).1 with
    | .merged _ i => some (t.arena.word i)
    | _ => none

/-- The runs of a session that trace events of one word, with what was observed of them, the latest first. -/
inductive EventRun : Tracer P → Ledger → List Traced → Prop
  | start {t : Tracer P} : History t [] → EventRun t [] []
  | quiet {t : Tracer P} {log : Ledger} {es : List Traced} (platform : P) {a : Action} : EventRun t log es →
      a.isQuiet = true → EventRun ((t.at platform).perform a).2 log es
  | idle {t : Tracer P} {log : Ledger} {es : List Traced} (platform : P) (event arg : UInt64) : EventRun t log es →
      t.tracing = false → EventRun ((t.at platform).perform (.traceEvent event arg)).2 log es
  | event {t : Tracer P} {log : Ledger} {es : List Traced} (platform : P) (event arg : UInt64) : EventRun t log es →
      t.tracing = true →
      EventRun ((t.at platform).perform (.traceEvent event arg)).2
        ((t.at platform).enter (.traceEvent event arg) log) ((t.at platform).observe event arg :: es)

/-! ### Actions without words -/

theorem Action.isReset_of_quiet {a : Action} (h : a.isQuiet = true) : a.isReset = false := by
  cases a with
  | execute command =>
    cases command with
    | reset flags => cases h
    | _ => rfl
  | control code arg =>
    unfold isQuiet at h
    unfold isReset command?
    dsimp only at h ⊢
    cases hcode : Command.ofCode? code arg with
    | none => rfl
    | some command =>
      rw [hcode] at h
      cases command with
      | reset flags => cases h
      | _ => rfl
  | snapshot => rfl
  | _ => cases h

namespace Tracer

theorem record?_of_quiet {a : Action} (h : a.isQuiet = true) : t.record? a = none := by
  have hcommand : ∀ command : Command, command.isQuiet = true → t.commandRecord? command = none := by
    intro command hquiet
    cases command with
    | insertWord w forced => cases hquiet
    | insertUser address forced => cases hquiet
    | _ => rfl
  cases a with
  | execute command => exact hcommand command h
  | control code arg =>
    unfold Action.isQuiet at h
    unfold record?
    dsimp only at h ⊢
    cases hcode : Command.ofCode? code arg with
    | none => rfl
    | some command =>
      rw [hcode] at h
      exact hcommand command h
  | snapshot => rfl
  | _ => cases h

theorem enter_of_quiet {a : Action} (h : a.isQuiet = true) (log : Ledger) : t.enter a log = log := by
  have hclaim : ∀ cpu len, a ≠ .claim cpu len := by
    rintro cpu len rfl
    cases h
  unfold enter
  rw [Action.isReset_of_quiet h, outcome_of_record?_none hclaim (record?_of_quiet h)]
  rfl

end Tracer

/-! ### Events -/

namespace Tracer

theorem stamped_traceEvent (t : Tracer P) (event arg : UInt64) :
    t.stamped (.traceEvent event arg) = [(t.observe event arg).word] := by
  refine (stamped_of_record? (r := (Head.eventWord event arg, [])) ?_).trans rfl
  unfold record? Head.eventWord
  dsimp only
  split <;> rfl

theorem enter_traceEvent (t : Tracer P) (log : Ledger) (event arg : UInt64) :
    t.enter (.traceEvent event arg) log =
      t.view.book (t.observe event arg).outcome [(t.observe event arg).word] log := by
  unfold enter
  rw [stamped_traceEvent]
  rfl

theorem traceEvent_of_not_tracing (h : t.tracing = false) (event arg : UInt64) :
    t.traceEvent event arg = (.dropped, t) := by
  unfold traceEvent
  rw [h]
  rfl

end Tracer

namespace Tracer

/-- The event is a return, and the word `i` before the place of its CPU takes it and becomes `w`. -/
structure Folds (t : Tracer P) (event arg : UInt64) (i : Nat) (w : UInt64) : Prop where
  tracing : t.tracing = true
  foldable : Event.isFoldableReturn event = true
  fits : Head.fitsByte arg.toInt64 = true
  room : (t.cursor (t.observe event arg).cpu).hasRoom = true
  place : i = (t.cursor (t.observe event arg).cpu).next - 1
  merge : Head.merge? (t.arena.word i) (t.observe event arg).word = some w

/-- What may become of an event. -/
inductive Fate (t : Tracer P) (event arg : UInt64) : Prop
  | dropped : (t.observe event arg).outcome = .dropped → (t.observe event arg).call? = none → Fate t event arg
  | written {s : Span} : (t.observe event arg).outcome = .written (t.observe event arg).cpu s → s.len = 1 →
      (t.observe event arg).call? = none → Fate t event arg
  | merged {i : Nat} {w : UInt64} : (t.observe event arg).outcome = .merged (t.observe event arg).cpu i →
      (t.observe event arg).call? = some (t.arena.word i) → t.Folds event arg i w → Fate t event arg

/-- An insertion is dropped or gets as many words as it asks for. -/
theorem insertAt_outcome (t : Tracer P) (cpu : Nat) (now first : UInt64) (payload : List UInt64) :
    (t.insertAt cpu now first payload).1 = .dropped ∨
      ∃ s, (t.insertAt cpu now first payload).1 = .written cpu s ∧ s.len = payload.length + 1 := by
  have hclaim : ∀ s, (t.claim cpu (payload.length + 1)).1 = some s → s.len = payload.length + 1 := fun _ => len_of_claim
  unfold insertAt
  generalize t.claim cpu (payload.length + 1) = r at hclaim ⊢
  obtain ⟨_ | s, u⟩ := r
  · exact Or.inl rfl
  · exact Or.inr ⟨s, rfl, hclaim s rfl⟩

theorem traceEvent_of_foldable (htracing : t.tracing = true)
    (h : (Event.isFoldableReturn event && Head.fitsByte arg.toInt64) = true) :
    t.traceEvent event arg = t.insertReturn (Head.eventWord event arg) := by
  unfold traceEvent Head.eventWord
  rw [htracing, if_pos h, if_pos h]
  rfl

theorem traceEvent_of_not_foldable (htracing : t.tracing = true)
    (h : (Event.isFoldableReturn event && Head.fitsByte arg.toInt64) = false) :
    t.traceEvent event arg = t.insert (Head.eventWord event arg) [] := by
  unfold traceEvent Head.eventWord
  rw [htracing, h]
  rfl

/-- Such a return is folded, whatever record the word belongs to. -/
theorem Folds.traceEvent {i : Nat} {w : UInt64} (h : t.Folds event arg i w) :
    t.traceEvent event arg = (.merged (t.observe event arg).cpu i,
      { t.readTime.2 with arena := t.arena.setWord i w }.noteReturnRate (t.observe event arg).cpu i t.readTime.1) :=
  (traceEvent_of_foldable h.tracing (Bool.and_eq_true_iff.mpr ⟨h.foldable, h.fits⟩)).trans
    (insertReturn_of_some (merged?_eq_some_iff.mpr ⟨h.room, h.place, h.merge⟩))

theorem fate (t : Tracer P) (htracing : t.tracing = true) (event arg : UInt64) : t.Fate event arg := by
  -- what is not folded is inserted as a record of its own
  have hinsert : (t.traceEvent event arg).1 =
      (t.readTime.2.insertAt t.readTime.2.currentCpu t.readTime.1 (Head.eventWord event arg) []).1 →
      t.Fate event arg := by
    intro hout
    rcases insertAt_outcome t.readTime.2 t.readTime.2.currentCpu t.readTime.1 (Head.eventWord event arg) [] with
      hdrop | ⟨s, hs, hlen⟩
    · have hdropped := hout.trans hdrop
      refine .dropped hdropped ?_
      unfold observe
      rw [hdropped]
    · have hwritten := hout.trans hs
      refine .written hwritten hlen ?_
      unfold observe
      rw [hwritten]
  cases hfold : Event.isFoldableReturn event && Head.fitsByte arg.toInt64 with
  | false => exact hinsert (congrArg Prod.fst (traceEvent_of_not_foldable htracing hfold))
  | true =>
    cases hmerge : t.readTime.2.merged? t.readTime.2.currentCpu (t.observe event arg).word with
    | none =>
      exact hinsert (congrArg Prod.fst
        ((traceEvent_of_foldable htracing hfold).trans (insertReturn_of_none hmerge)))
    | some fold =>
      obtain ⟨i, w⟩ := fold
      obtain ⟨hroom, hi, hw⟩ := merged?_eq_some_iff.mp hmerge
      obtain ⟨hfoldable, hfits⟩ := Bool.and_eq_true_iff.mp hfold
      have hfolds : t.Folds event arg i w := ⟨htracing, hfoldable, hfits, hroom, hi, hw⟩
      have hmerged := congrArg Prod.fst hfolds.traceEvent
      refine .merged hmerged ?_ hfolds
      unfold observe
      rw [hmerged]

theorem exists_folds {i : Nat} (h : (t.traceEvent event arg).1 = .merged c i) :
    c = (t.observe event arg).cpu ∧ ∃ w, t.Folds event arg i w := by
  have htracing : t.tracing = true := by
    cases htracing : t.tracing
    · rw [traceEvent_of_not_tracing htracing] at h
      cases h
    · rfl
  obtain hdropped | ⟨hwritten, -, -⟩ | ⟨hmerged, -, hfolds⟩ := t.fate htracing event arg
  · exact absurd (h.symm.trans hdropped) Outcome.noConfusion
  · exact absurd (h.symm.trans hwritten) Outcome.noConfusion
  · obtain ⟨rfl, rfl⟩ := Outcome.merged.inj (h.symm.trans hmerged)
    exact ⟨rfl, _, hfolds⟩

end Tracer

/-! ### Runs -/

theorem EventRun.history (h : EventRun t log es) : History t log := by
  induction h with
  | start h => exact h
  | @quiet t log es platform a _ hquiet ih =>
    have hact := ih.act_at platform a
    rwa [Tracer.enter_of_quiet hquiet] at hact
  | @idle t log es platform event arg _ htracing ih =>
    have hact := ih.act_at platform (.traceEvent event arg)
    -- the event is not in the list, but it is dropped, so it is not in the ledger either
    have hdropped : ((t.at platform).observe event arg).outcome = .dropped :=
      congrArg Prod.fst (Tracer.traceEvent_of_not_tracing (t := t.at platform) htracing event arg)
    rwa [Tracer.enter_traceEvent, hdropped] at hact
  | event platform event arg _ _ ih => exact ih.act_at platform _

/-- A run goes on with a return that is folded. -/
theorem EventRun.fold {i : Nat} {w : UInt64} (h : EventRun t log es) {platform : P}
    (hfolds : (t.at platform).Folds event arg i w) :
    ∃ u : Tracer P,
      EventRun u (log.amendLatest ((t.at platform).observe event arg).cpu w)
        ((t.at platform).observe event arg :: es) ∧
      u.arena.wrapped = t.arena.wrapped ∧
      ((t.at platform).observe event arg).outcome = .merged ((t.at platform).observe event arg).cpu i ∧
      ((t.at platform).observe event arg).call? = some (t.arena.word i) := by
  have hrun := h.event platform event arg hfolds.tracing
  have hout : ((t.at platform).observe event arg).outcome = .merged ((t.at platform).observe event arg).cpu i :=
    congrArg Prod.fst hfolds.traceEvent
  have hmerge : Head.merge? ((t.at platform).view.arena.word i) ((t.at platform).observe event arg).word = some w :=
    hfolds.merge
  rw [Tracer.enter_traceEvent, hout, LogView.book, List.headD_cons, hmerge, Option.getD_some] at hrun
  refine ⟨_, hrun, ?_, hout, ?_⟩
  · refine (congrArg (fun r : Outcome × Tracer P => r.2.arena.wrapped) hfolds.traceEvent).trans ?_
    unfold Tracer.noteReturnRate
    dsimp only
    split <;> rfl
  · unfold Tracer.observe at hout ⊢
    dsimp only at hout ⊢
    rw [hout]
    rfl

end EventRecorder
