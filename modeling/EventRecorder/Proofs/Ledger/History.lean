import EventRecorder.Action
import EventRecorder.Proofs.Ledger.Basic

/-! # Histories

A history is a run of a tracer from its making, with any readings of the platform before each action,
together with the ledger that an observer keeps of it. The observer needs no more than the record that an
action asks for, what became of it, and the places of the CPUs just before. -/

namespace EventRecorder

variable {P : Type} [Platform P]

/-- The command that an action carries out, by name or by code. -/
def Action.command? : Action → Option Command
  | .execute command => some command
  | .control code arg => Command.ofCode? code arg
  | _ => none

/-- The action asks for a new session. -/
def Action.isReset (a : Action) : Bool :=
  match a, a.command? with
  | .reset _, _ => true
  | _, some (.reset _) => true
  | _, _ => false

/-- The record that begins with the first of `words` and has the length that it announces, with missing
words zero. -/
def announced (words : List UInt64) : UInt64 × List UInt64 :=
  (words.headD 0, (List.range (Head.recordLength (words.headD 0) - 1)).map (words.tail.getD · 0))

namespace Tracer

/-! ### What an action asks for -/

/-- The record in user memory. -/
def userRecord? (t : Tracer P) (address : UInt64) : Option (UInt64 × List UInt64) :=
  match Platform.userWords t.platform address with
  | .error _ => none
  | .ok words => some (announced words.toList)

/-- The record that a command asks for, as first word and payload. -/
def commandRecord? (t : Tracer P) : Command → Option (UInt64 × List UInt64)
  | .insertWord w _ => some (w, [])
  | .insertUser address _ => t.userRecord? address
  | _ => none

/-- The record that an action asks for, as first word and payload. The first word is not yet stamped. -/
def record? (t : Tracer P) : Action → Option (UInt64 × List UInt64)
  | .insert first payload => some (first, payload)
  | .insertReturn ret => some (ret, [])
  | .insertMany words => some (announced words)
  | .insertUser address => t.userRecord? address
  | .traceEvent event arg =>
    if Event.isFoldableReturn event && Head.fitsByte arg.toInt64 then some (Head.returnWord event arg.toInt64, [])
    else some (Head.callWord event arg, [])
  | .traceSample event pc => some (Head.callWord event (Platform.frequency t.platform), [pc])
  | .traceWords event words =>
    some (announced (words.modifyHead (· ||| Head.eventField.place (Event.withLength event words.length))))
  | .traceName pid name =>
    some (announced [Head.callWord Event.processNameRecord (Head.argField.get pid.toUInt64), name.toWords.1, name.toWords.2])
  | .execute command => t.commandRecord? command
  | .control code arg => (Command.ofCode? code arg).bind t.commandRecord?
  | .claim .. | .reset _ | .snapshot => none

/-- The words that an action asks to write: the record with its first word stamped with the time now. -/
def stamped (t : Tracer P) (a : Action) : List UInt64 :=
  match t.record? a with
  | some (first, payload) => Head.stamp first t.readTime.1 :: payload
  | none => []

theorem stamped_of_record? {t : Tracer P} {a : Action} {r : UInt64 × List UInt64} (h : t.record? a = some r) :
    t.stamped a = Head.stamp r.1 t.readTime.1 :: r.2 := by
  unfold stamped
  rw [h]

/-! ### What becomes of it -/

/-- What becomes of the record that a command asks for. -/
def commandOutcome (t : Tracer P) : Command → Outcome
  | .insertWord w forced => if forced || t.tracing then (t.insert w []).1 else .dropped
  | .insertUser address forced => if forced || t.tracing then (t.insertUser address).1 else .dropped
  | _ => .dropped

/-- What becomes of the words that an action asks for. -/
def outcome (t : Tracer P) : Action → Outcome
  | .claim cpu len => ((t.claim cpu len).1.map (.written cpu)).getD .dropped
  | .insert first payload => (t.insert first payload).1
  | .insertReturn ret => (t.insertReturn ret).1
  | .insertMany words => (t.insertMany words).1
  | .insertUser address => (t.insertUser address).1
  | .traceEvent event arg => (t.traceEvent event arg).1
  | .traceSample event pc => (t.traceSample event pc).1
  | .traceWords event words => (t.traceWords event words).1
  | .traceName pid name => (t.traceName pid name).1
  | .execute command => t.commandOutcome command
  | .control code arg => ((Command.ofCode? code arg).map t.commandOutcome).getD .dropped
  | .reset _ | .snapshot => .dropped

end Tracer

/-! ### The ledger of a run -/

namespace LogView

/-- The grant of `span` to a CPU by a claim made when the log looked like `v`. A block is opened for it unless
it fits the block that the CPU is in. -/
def grant (v : LogView) (cpu : Nat) (span : Span) (words : List UInt64) : Grant :=
  let block := v.arena.blockOf span.start
  let fresh := !(v.cursor cpu).fits span.len
  ⟨cpu, span, block, fresh, if fresh then v.unspent cpu block else 0, words⟩

/-- The ledger after words were asked for when the log looked like `v`. A return folded into its call changes
the last word of the latest grant. -/
def book (v : LogView) (o : Outcome) (words : List UInt64) (log : Ledger) : Ledger :=
  match o with
  | .dropped => log
  | .written cpu span => v.grant cpu span words :: log
  | .merged cpu i => log.amendLatest cpu ((Head.merge? (v.arena.word i) (words.headD 0)).getD 0)

variable {v w : LogView} {cpu n l : Nat} {s : Span}

theorem grant_of_fits (h : (v.cursor cpu).fits s.len = true) (ws : List UInt64) :
    v.grant cpu s ws = ⟨cpu, s, v.arena.blockOf s.start, false, 0, ws⟩ := by
  simp [grant, h]

theorem grant_of_not_fits (h : (v.cursor cpu).fits s.len = false) (ws : List UInt64) :
    v.grant cpu s ws = ⟨cpu, s, v.arena.blockOf s.start, true, v.unspent cpu (v.arena.blockOf s.start), ws⟩ := by
  simp [grant, h]

/-- A claim for which a block is opened is entered as if its CPU had left the block before. -/
theorem grant_of_moved (h : Moved v w cpu n l) (hsame : v.arena.SameFrontier w.arena)
    (hv : (v.cursor cpu).fits s.len = false) (hw : (w.cursor cpu).fits s.len = false) (ws : List UInt64) :
    w.grant cpu s ws = v.grant cpu s ws := by
  have hblock : w.arena.blockOf s.start = v.arena.blockOf s.start := by
    unfold Arena.blockOf
    rw [hsame.high]
  rw [grant_of_not_fits hv, grant_of_not_fits hw, hblock, unspent_of_moved h (hsame.blockStop _)]

end LogView

/-- The ledger after an action in the state `t`. A session that is not tracing can be ended by a reset. -/
def Tracer.enter (t : Tracer P) (a : Action) (log : Ledger) : Ledger :=
  if a.isReset && !t.tracing then [] else t.view.book (t.outcome a) (t.stamped a) log

/-- An action that starts no session is booked. -/
theorem Tracer.enter_eq_book {t : Tracer P} {a : Action} (h : (a.isReset && !t.tracing) = false) (log : Ledger) :
    t.enter a log = t.view.book (t.outcome a) (t.stamped a) log := by
  unfold enter
  rw [h, if_neg Bool.false_ne_true]

/-- Without a record nothing is written. -/
theorem Tracer.outcome_of_record?_none {t : Tracer P} {a : Action} (ha : ∀ cpu len, a ≠ .claim cpu len)
    (h : t.record? a = none) : t.outcome a = .dropped := by
  have huser : ∀ address, t.userRecord? address = none → (t.insertUser address).1 = .dropped := by
    intro address hnone
    unfold userRecord? at hnone
    unfold insertUser
    cases hwords : Platform.userWords t.platform address with
    | error e => rfl
    | ok words =>
      rw [hwords] at hnone
      cases hnone
  have hcommand : ∀ c, t.commandRecord? c = none → t.commandOutcome c = .dropped := by
    intro c hnone
    cases c with
    | insertWord w forced => cases hnone
    | insertUser address forced =>
      unfold commandOutcome
      dsimp only
      rw [huser address hnone, ite_self]
    | _ => rfl
  cases a with
  | claim cpu len => exact absurd rfl (ha cpu len)
  | insertUser address => exact huser address h
  | traceEvent event arg =>
    unfold record? at h
    dsimp only at h
    split at h <;> cases h
  | execute c => exact hcommand c h
  | control code arg =>
    unfold record? at h
    unfold outcome
    dsimp only at h ⊢
    cases hcode : Command.ofCode? code arg with
    | none => rfl
    | some c =>
      rw [hcode] at h
      exact hcommand c h
  | reset mode => rfl
  | snapshot => rfl
  | _ => cases h

/-! ### Tracers just made -/

namespace Tracer

variable {platform : P} {config : Config} {t : Tracer P}

omit [Platform P]

/-- The tracer that is made if the settings are valid. -/
def made (platform : P) (config : Config) : Tracer P :=
  let t : Tracer P :=
    { platform, config
      arena := .ofBlocks config.blocks
      cursors := Array.replicate config.cpus {}
      packets := .ofParams config.packetMask config.packetMatch }
  (t.reset {}).2.report (.ready config.blocks config.cpus)

theorem ofConfig_of_valid (h : config.validate = .ok ()) (platform : P) :
    ofConfig platform config = .ok (made platform config) := by
  unfold ofConfig
  rw [h]
  rfl

theorem ofConfig_of_invalid {e : Error} (h : config.validate = .error e) (platform : P) :
    ofConfig platform config = .error e := by
  unfold ofConfig
  rw [h]
  rfl

theorem eq_made (h : ofConfig platform config = .ok t) : config.validate = .ok () ∧ t = made platform config := by
  cases hvalid : config.validate with
  | error e =>
    rw [ofConfig_of_invalid hvalid] at h
    cases h
  | ok _ =>
    rw [ofConfig_of_valid hvalid] at h
    exact ⟨rfl, (Except.ok.inj h).symm⟩

end Tracer

/-- The runs of tracers, each with the ledger of its last session. -/
inductive History : Tracer P → Ledger → Prop
  | new {platform : P} {config : Config} {t : Tracer P} : Tracer.ofConfig platform config = .ok t → History t []
  | act {t : Tracer P} {log : Ledger} (platform : P) (a : Action) : History t log →
      History ({ t with platform }.perform a).2 ({ t with platform }.enter a log)

/-! ### Actions in turn -/

variable {t : Tracer P} {log : Ledger}

/-- The tracer with other readings of the platform. -/
def Tracer.at (t : Tracer P) (platform : P) : Tracer P := { t with platform }

theorem History.act_at (h : History t log) (platform : P) (a : Action) :
    History ((t.at platform).perform a).2 ((t.at platform).enter a log) := h.act platform a

/-- The readings of the platform may change at any time. -/
theorem History.at (h : History t log) (platform : P) : History (t.at platform) log :=
  h.act_at platform (.execute .test)

/-- The tracer and its ledger after some actions, with the readings of the platform before each. -/
def Tracer.enterAll (x : Tracer P × Ledger) (calls : List (P × Action)) : Tracer P × Ledger :=
  calls.foldl (fun x call => (((x.1.at call.1).perform call.2).2, (x.1.at call.1).enter call.2 x.2)) x

theorem History.enterAll (h : History t log) (calls : List (P × Action)) :
    History (Tracer.enterAll (t, log) calls).1 (Tracer.enterAll (t, log) calls).2 := by
  induction calls generalizing t log with
  | nil => exact h
  | cons call calls ih => exact ih (h.act_at call.1 call.2)

end EventRecorder
