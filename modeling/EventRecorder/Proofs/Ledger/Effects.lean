import EventRecorder.Proofs.Ledger.Actions

/-! # What an action comes down to

An action within a session rests, flushes, asks for words and is refused, claims words, writes a record or folds a
return, and so it comes down to elementary steps. Which records there are and what the hooks add to them makes no
further difference to the arena, the CPUs and their readings. A reset is the one action that starts a new session
instead. -/

namespace EventRecorder

open LogView (Stayed Moved)

variable {P : Type} {s t u : Tracer P} {a : Action} {names : PidSet} {ws : List UInt64}

/-- `u` differs from `t` at most in its platform, its notices, the processes named, and whether it is tracing. -/
structure Tracer.Akin (t u : Tracer P) : Prop where
  config : u.config = t.config
  mode : u.mode = t.mode
  arena : u.arena = t.arena
  cursors : u.cursors = t.cursors
  clock : u.clock = t.clock

namespace Tracer.Akin

theorem refl (t : Tracer P) : Akin t t := ⟨rfl, rfl, rfl, rfl, rfl⟩

theorem trans (h₁ : Akin s t) (h₂ : Akin t u) : Akin s u :=
  ⟨h₂.config.trans h₁.config, h₂.mode.trans h₁.mode, h₂.arena.trans h₁.arena, h₂.cursors.trans h₁.cursors,
    h₂.clock.trans h₁.clock⟩

theorem off (t : Tracer P) : Akin t t.off := by
  unfold Tracer.off
  split <;> exact ⟨rfl, rfl, rfl, rfl, rfl⟩

theorem on (t : Tracer P) : Akin t t.on := by
  unfold Tracer.on
  split <;> exact ⟨rfl, rfl, rfl, rfl, rfl⟩

theorem view (h : Akin t u) : u.view = t.view := by
  unfold Tracer.view
  rw [h.arena, h.cursors]

theorem cursor (h : Akin t u) (c : Nat) : u.cursor c = t.cursor c := by
  unfold Tracer.cursor
  rw [h.cursors]

theorem leads {log log' : Ledger} (h : Akin t s) (hl : Leads s log u log') : Leads t log u log' :=
  hl.of_same h.config.symm h.mode.symm h.view.symm

end Tracer.Akin

namespace Tracer

variable {cpu len : Nat} {span : Span}

theorem overrun_akin (t : Tracer P) (cpu len : Nat) :
    (t.overrun cpu len).platform = t.platform ∧ (t.overrun cpu len).clock = t.clock ∧ (t.overrun cpu len).mode = t.mode := by
  unfold overrun
  dsimp only
  split <;> exact ⟨rfl, rfl, rfl⟩

theorem named_off (t : Tracer P) : t.off.named = t.named := by
  unfold off
  split <;> rfl

theorem named_on (t : Tracer P) : t.on.named = t.named := by
  unfold on
  split <;> rfl

theorem frontierMoved_akin (t : Tracer P) (o : Opening) (a : Arena) :
    (t.frontierMoved o a).platform = t.platform ∧ (t.frontierMoved o a).clock = t.clock := by
  unfold frontierMoved
  split <;> exact ⟨rfl, rfl⟩

variable [Platform P]

/-- Words are granted to the CPUs that the tracer serves, as many as a record can have. -/
theorem served_of_claim (h : t.claim cpu len = (some span, u)) :
    Event.isValidLength len = true ∧ cpu < t.cursors.size := by
  have hlen : Event.isValidLength len = true := by
    by_contra hbad
    rw [claim_of_invalid (Bool.eq_false_iff.mpr hbad)] at h
    cases h
  refine ⟨hlen, ?_⟩
  by_contra hunserved
  rw [claim_of_unserved hlen (Nat.le_of_not_lt hunserved)] at h
  cases h

/-- A claim that does not fit is granted at the start of a block that is taken off the frontier. -/
theorem claim_opens (h : t.claim cpu len = (some span, u)) (hfits : (t.cursor cpu).fits len = false) :
    ∃ o a, (t.overrun cpu len).arena.openBlock t.mode.wraps = (some o, a) ∧ span = ⟨o.recordStart, len⟩ ∧
      u = (t.overrun cpu len).blockTaken cpu len o a := by
  obtain ⟨hlen, hcpu⟩ := served_of_claim h
  rw [claim_eq hlen hcpu, hfits, if_neg Bool.false_ne_true] at h
  rcases hopen : (t.overrun cpu len).arena.openBlock (t.overrun cpu len).mode.wraps with ⟨_ | o, a⟩
  · unfold claimFresh at h
    rw [hopen] at h
    cases h
  · rw [claimFresh_of_openBlock hopen] at h
    obtain ⟨hspan, rfl⟩ := Prod.mk.inj h
    rw [(t.overrun_akin cpu len).2.2] at hopen
    exact ⟨o, a, hopen, (Option.some.inj hspan).symm, rfl⟩

/-! ### What only openings change -/

/-- The clock and the processes named are the same. -/
structure Keeps (t u : Tracer P) : Prop where
  clock : u.clock = t.clock
  named : u.named = t.named

omit [Platform P] in
theorem Keeps.trans (h₁ : Keeps s t) (h₂ : Keeps t u) : Keeps s u :=
  ⟨h₂.clock.trans h₁.clock, h₂.named.trans h₁.named⟩

omit [Platform P] in
theorem keeps_overrun (t : Tracer P) (cpu len : Nat) : Keeps t (t.overrun cpu len) := by
  unfold overrun
  dsimp only
  split <;> exact ⟨rfl, rfl⟩

theorem keeps_prepareCounters (t : Tracer P) (cpu : Nat) : Keeps t (t.prepareCounters cpu) := by
  unfold prepareCounters
  split <;> exact ⟨rfl, rfl⟩

omit [Platform P] in
theorem keeps_flushAll (cpus : List Nat) (t : Tracer P) : Keeps t (cpus.foldl flushCpu t) := by
  induction cpus generalizing t with
  | nil => exact ⟨rfl, rfl⟩
  | cons cpu cpus ih =>
    refine Keeps.trans ?_ (ih _)
    unfold flushCpu
    dsimp only
    split <;> exact ⟨rfl, rfl⟩

theorem keeps_noteRate (t : Tracer P) (cpu i : Nat) (now : UInt64) : Keeps t (t.noteRate cpu i now) := by
  unfold noteRate
  split <;> exact ⟨rfl, rfl⟩

theorem keeps_noteReturnRate (t : Tracer P) (cpu i : Nat) (now : UInt64) : Keeps t (t.noteReturnRate cpu i now) := by
  unfold noteReturnRate
  split <;> exact ⟨rfl, rfl⟩

theorem keeps_of_refused (h : t.claim cpu len = (none, u)) : Keeps t u := by
  cases hlen : Event.isValidLength len
  · rw [claim_of_invalid hlen] at h
    obtain ⟨-, rfl⟩ := Prod.mk.inj h
    exact ⟨rfl, rfl⟩
  rcases Nat.lt_or_ge cpu t.cursors.size with hcpu | hunserved
  · rw [claim_eq hlen hcpu] at h
    split at h
    · cases h
    · have hover := t.keeps_overrun cpu len
      generalize t.overrun cpu len = s at h hover
      rcases hopen : s.arena.openBlock s.mode.wraps with ⟨_ | o, a⟩
      · unfold claimFresh at h
        rw [hopen] at h
        obtain ⟨-, rfl⟩ := Prod.mk.inj h
        refine hover.trans ?_
        dsimp only
        split <;> exact ⟨rfl, rfl⟩
      · rw [claimFresh_of_openBlock hopen] at h
        cases h
  · rw [claim_of_unserved hlen hunserved] at h
    obtain ⟨-, rfl⟩ := Prod.mk.inj h
    exact ⟨rfl, rfl⟩

end Tracer

variable [Platform P]

/-- What an action that asks for the words `ws` does to a tracer that goes on with its session. A record is written and
a return is folded by a tracer that has read the time; `names` are the processes named when it asks for the words. -/
inductive Effect (t : Tracer P) : (names : PidSet) → (ws : List UInt64) → Outcome → Tracer P → Prop
  | rest {names : PidSet} {ws : List UInt64} {u : Tracer P} : t.Akin u → u.named = names → Effect t names ws .dropped u
  | flush {ws : List UInt64} : Effect t t.named ws .dropped t.flush.2
  | refuse {ws : List UInt64} {s u : Tracer P} {cpu len : Nat} : t.Akin s → s.claim cpu len = (none, u) →
      Effect t s.named ws .dropped u
  | claim {u : Tracer P} {cpu len : Nat} {span : Span} : t.claim cpu len = (some span, u) →
      Effect t t.named [] (.written cpu span) u
  | write {s u : Tracer P} {first : UInt64} {payload : List UInt64} {span : Span} : t.Akin s →
      s.platform = t.readTime.2.platform → s.claim s.currentCpu (payload.length + 1) = (some span, u) →
      Effect t s.named (first :: payload) (.written s.currentCpu span)
        ({ u with arena := u.arena.setWords span.start (first :: payload) }.noteRate s.currentCpu span.start t.readTime.1)
  | fold {s : Tracer P} {ret w : UInt64} {i : Nat} : t.Akin s → s.platform = t.readTime.2.platform →
      s.merged? s.currentCpu ret = some (i, w) →
      Effect t s.named [ret] (.merged s.currentCpu i)
        ({ s with arena := s.arena.setWord i w }.noteReturnRate s.currentCpu i t.readTime.1)

/-- A return is folded into the word before the place of its CPU. -/
theorem Effect.of_merged {c i : Nat} (h : Effect t names ws (.merged c i) u) :
    (t.cursor c).hasRoom = true ∧ i = (t.cursor c).next - 1 ∧
      ∃ ret w, ws = [ret] ∧ Head.merge? (t.arena.word i) ret = some w := by
  cases h with
  | fold hakin _ hmerge =>
    obtain ⟨hroom, hi, hw⟩ := Tracer.merged?_eq_some_iff.mp hmerge
    rw [hakin.cursor] at hroom hi
    rw [hakin.arena] at hw
    exact ⟨hroom, hi, _, _, rfl, hw⟩

namespace Tracer

/-- The processes named when an action asks for its words: a process is taken for named before its record is written. -/
def namedBy (t : Tracer P) : Action → PidSet
  | .traceName pid _ => if !t.tracing || t.named.contains pid then t.named else t.named.insert pid
  | _ => t.named

/-! ### Records -/

/-- The time is read from the platform alone. -/
theorem readTime_of_platform (h : s.platform = t.platform) :
    s.readTime.1 = t.readTime.1 ∧ s.readTime.2.platform = t.readTime.2.platform := by
  unfold readTime
  rw [h]
  exact ⟨rfl, rfl⟩

/-- A record is inserted alike whatever processes are named. -/
theorem Akin.insert_effect (h : t.Akin s) (hp : s.platform = t.platform) (first : UInt64) (payload : List UInt64) :
    Effect t s.named (Head.stamp first t.readTime.1 :: payload) (s.insert first payload).1 (s.insert first payload).2 := by
  obtain ⟨hnow, hplatform⟩ := readTime_of_platform hp
  have hakin : t.Akin s.readTime.2 := h.trans ⟨rfl, rfl, rfl, rfl, rfl⟩
  have hnamed : s.readTime.2.named = s.named := rfl
  unfold insert insertAt
  generalize s.readTime = read at hnow hplatform hakin hnamed ⊢
  obtain ⟨now, r⟩ := read
  dsimp only at hnow hplatform hakin hnamed ⊢
  subst hnow
  rw [← hnamed]
  cases hclaim : r.claim r.currentCpu (payload.length + 1) with
  | mk span? u =>
    cases span? with
    | none => exact .refuse hakin hclaim
    | some span => exact .write hakin hplatform hclaim

theorem Akin.insertMany_effect (h : t.Akin s) (hp : s.platform = t.platform) (words : List UInt64) :
    Effect t s.named (Head.stamp (announced words).1 t.readTime.1 :: (announced words).2) (s.insertMany words).1
      (s.insertMany words).2 := by
  have hrefused : ∀ len, Akin s (s.refuseLength len) := fun _ => ⟨rfl, rfl, rfl, rfl, rfl⟩
  unfold insertMany
  cases words with
  | nil => exact .rest (h.trans (hrefused 0)) rfl
  | cons first rest =>
    dsimp only
    split
    · exact .rest (h.trans (hrefused _)) rfl
    · exact h.insert_effect hp first _

/-- A return is folded into the word before the place of its CPU if this word takes it. -/
theorem insertReturn_of_some {ret w : UInt64} {i : Nat}
    (h : t.readTime.2.merged? t.readTime.2.currentCpu (Head.stamp ret t.readTime.1) = some (i, w)) :
    t.insertReturn ret = (.merged t.readTime.2.currentCpu i,
      { t.readTime.2 with arena := t.arena.setWord i w }.noteReturnRate t.readTime.2.currentCpu i t.readTime.1) := by
  have hread : t.readTime.2.arena = t.arena := rfl
  unfold insertReturn
  generalize t.readTime = r at h hread ⊢
  obtain ⟨now, u⟩ := r
  dsimp only at h hread ⊢
  rw [h, hread]

theorem insertReturn_of_none {ret : UInt64}
    (h : t.readTime.2.merged? t.readTime.2.currentCpu (Head.stamp ret t.readTime.1) = none) :
    t.insertReturn ret = t.readTime.2.insertAt t.readTime.2.currentCpu t.readTime.1 ret [] := by
  unfold insertReturn
  generalize t.readTime = r at h ⊢
  obtain ⟨now, u⟩ := r
  dsimp only at h ⊢
  rw [h]

theorem insertReturn_effect (t : Tracer P) (ret : UInt64) :
    Effect t t.named [Head.stamp ret t.readTime.1] (t.insertReturn ret).1 (t.insertReturn ret).2 := by
  cases hmerge : t.readTime.2.merged? t.readTime.2.currentCpu (Head.stamp ret t.readTime.1) with
  | none =>
    rw [insertReturn_of_none hmerge]
    exact (Akin.refl t).insert_effect rfl ret []
  | some fold =>
    obtain ⟨i, w⟩ := fold
    rw [insertReturn_of_some hmerge]
    exact .fold (s := t.readTime.2) ⟨rfl, rfl, rfl, rfl, rfl⟩ rfl hmerge

theorem insertUser_effect (t : Tracer P) (address : UInt64) (ha : t.record? a = t.userRecord? address) :
    Effect t t.named (t.stamped a) (t.insertUser address).1 (t.insertUser address).2 := by
  unfold stamped
  rw [ha]
  unfold insertUser userRecord?
  cases Platform.userWords t.platform address with
  | error _ => exact .rest (.refl t) rfl
  | ok words => exact (Akin.refl t).insertMany_effect rfl words.toList

/-! ### Hooks -/

theorem traceEvent_effect (t : Tracer P) (event arg : UInt64) :
    Effect t t.named (t.stamped (.traceEvent event arg)) (t.traceEvent event arg).1 (t.traceEvent event arg).2 := by
  unfold traceEvent
  split
  · exact .rest (.refl t) rfl
  · split
    · rename_i hfold
      rw [stamped_of_record? (a := .traceEvent event arg) (if_pos hfold)]
      exact t.insertReturn_effect _
    · rename_i hfold
      rw [stamped_of_record? (a := .traceEvent event arg) (if_neg hfold)]
      exact (Akin.refl t).insert_effect rfl _ []

theorem traceSample_effect (t : Tracer P) (event pc : UInt64) :
    Effect t t.named (t.stamped (.traceSample event pc)) (t.traceSample event pc).1 (t.traceSample event pc).2 := by
  unfold traceSample
  split
  · exact .rest (.refl t) rfl
  · exact (Akin.refl t).insert_effect rfl _ [pc]

theorem traceWords_effect (t : Tracer P) (event : UInt64) (words : List UInt64) :
    Effect t t.named (t.stamped (.traceWords event words)) (t.traceWords event words).1 (t.traceWords event words).2 := by
  unfold traceWords
  split
  · exact .rest (.refl t) rfl
  · split
    · exact .rest ⟨rfl, rfl, rfl, rfl, rfl⟩ rfl
    · exact (Akin.refl t).insertMany_effect rfl _

theorem traceName_effect (t : Tracer P) (pid : UInt32) (name : TaskName) :
    Effect t (t.namedBy (.traceName pid name)) (t.stamped (.traceName pid name)) (t.traceName pid name).1
      (t.traceName pid name).2 := by
  unfold traceName namedBy
  by_cases hnamed : (!t.tracing || t.named.contains pid) = true
  · rw [if_pos hnamed]
    dsimp only
    rw [if_pos hnamed]
    exact .rest (.refl t) rfl
  · rw [if_neg hnamed]
    dsimp only
    rw [if_neg hnamed]
    exact Akin.insertMany_effect (t := t) (s := { t with named := t.named.insert pid }) ⟨rfl, rfl, rfl, rfl, rfl⟩ rfl
      [Head.callWord Event.processNameRecord (Head.argField.get pid.toUInt64), name.toWords.1, name.toWords.2]

/-! ### Actions -/

omit [Platform P] in
theorem reset_of_tracing {mode : Mode} (h : t.tracing = true) : t.reset mode = (.error .tracingActive, t) := by
  unfold reset
  rw [if_pos h]

theorem execute_effect {c : Command} (hrecord : t.record? a = t.commandRecord? c)
    (hreset : ∀ flags, c = .reset flags → t.tracing = true) :
    Effect t t.named (t.stamped a) (t.commandOutcome c) (t.execute c).2 := by
  cases c with
  | on => exact .rest (.on t) t.named_on
  | flush => exact .flush
  | reset flags =>
    unfold execute
    dsimp only
    rw [reset_of_tracing (hreset flags rfl)]
    exact .rest ⟨rfl, rfl, rfl, rfl, rfl⟩ rfl
  | insertWord w forced =>
    unfold execute commandOutcome
    dsimp only
    split
    · rw [stamped_of_record? hrecord]
      exact (Akin.refl t).insert_effect rfl w []
    · exact .rest (.refl t) rfl
  | insertUser address forced =>
    unfold execute commandOutcome
    dsimp only
    split
    · exact t.insertUser_effect address hrecord
    · exact .rest (.refl t) rfl
  | off | count | word | rateWord | rawCount | rawWord => exact .rest (.off t) t.named_off
  | stat | test | version => exact .rest (.refl t) rfl

theorem perform_effect (h : (a.isReset && !t.tracing) = false) :
    Effect t (t.namedBy a) (t.stamped a) (t.outcome a) (t.perform a).2 := by
  cases a with
  | claim cpu len =>
    unfold perform outcome
    dsimp only
    cases hclaim : t.claim cpu len with
    | mk span? u =>
      cases span? with
      | none => exact .refuse (.refl t) hclaim
      | some span => exact .claim hclaim
  | insert first payload => exact (Akin.refl t).insert_effect rfl first payload
  | insertReturn ret => exact t.insertReturn_effect ret
  | insertMany words => exact (Akin.refl t).insertMany_effect rfl words
  | insertUser address => exact t.insertUser_effect address rfl
  | traceEvent event arg => exact t.traceEvent_effect event arg
  | traceSample event pc => exact t.traceSample_effect event pc
  | traceWords event words => exact t.traceWords_effect event words
  | traceName pid name => exact t.traceName_effect pid name
  | reset mode =>
    have htracing : t.tracing = true := by simpa [Action.isReset] using h
    unfold perform
    dsimp only
    rw [reset_of_tracing htracing]
    exact .rest (.refl t) rfl
  | execute c =>
    refine execute_effect rfl ?_
    rintro flags rfl
    simpa [Action.isReset, Action.command?] using h
  | control code arg =>
    have hreset : ∀ flags, Command.ofCode? code arg = some (.reset flags) → t.tracing = true := by
      intro flags hcode
      simpa [Action.isReset, Action.command?, hcode] using h
    unfold perform control outcome
    dsimp only
    cases hcode : Command.ofCode? code arg with
    | none => exact .rest (.refl t) rfl
    | some c =>
      refine execute_effect ?_ ?_
      · exact congrArg (Option.bind · t.commandRecord?) hcode
      · rintro flags rfl
        exact hreset flags hcode
  | snapshot => exact .rest (.off t) t.named_off

theorem outcome_of_isReset (h : a.isReset = true) (t : Tracer P) : t.outcome a = .dropped := by
  cases a with
  | reset mode => rfl
  | execute command =>
    cases command with
    | reset flags => rfl
    | _ => cases h
  | control code arg =>
    unfold outcome
    dsimp only
    cases hcode : Command.ofCode? code arg with
    | none => rfl
    | some command =>
      cases command with
      | reset flags => rfl
      | _ => simp [Action.isReset, Action.command?, hcode] at h
  | _ => cases h

/-- Whatever the action, a return is folded into the word just before the place of a CPU with room. -/
theorem room_of_merged {c i : Nat} (h : t.outcome a = .merged c i) :
    (t.cursor c).hasRoom = true ∧ i = (t.cursor c).next - 1 := by
  cases hreset : a.isReset
  · have heffect := t.perform_effect (a := a) (by rw [hreset]; rfl)
    rw [h] at heffect
    obtain ⟨hroom, hi, -⟩ := heffect.of_merged
    exact ⟨hroom, hi⟩
  · rw [outcome_of_isReset hreset] at h
    cases h

end Tracer

/-! ### Steps -/

/-- The ledger is brought up to date by elementary steps. -/
theorem Effect.leads {o : Outcome} (h : Effect t names ws o u) (log : Ledger) : Leads t log u (t.view.book o ws log) := by
  cases h with
  | rest hakin _ => exact .of_view hakin.config hakin.mode hakin.view
  | flush => exact Tracer.flush_leads t log
  | @refuse _ s _ cpu len hakin hclaim =>
    have hgrants := s.claim_grants log cpu len
    rw [hclaim] at hgrants
    exact hakin.leads hgrants
  | @claim _ cpu len _ hclaim =>
    have hgrants := t.claim_grants log cpu len
    rw [hclaim] at hgrants
    exact hgrants.2.2 [] (Or.inl rfl)
  | @write s v first payload span hakin _ hclaim =>
    have hgrants := s.claim_grants log s.currentCpu (payload.length + 1)
    rw [hclaim] at hgrants
    obtain ⟨-, ⟨l, hmoved, hlt⟩, hwrite⟩ := hgrants
    have hlimit : span.start < (v.cursor s.currentCpu).limit := lt_of_lt_of_eq hlt hmoved.limit.symm
    have hwritten := hakin.leads (hwrite (first :: payload) (Or.inr rfl))
    rw [hakin.view] at hwritten
    -- the rate is noted once the words are written
    refine hwritten.trans ?_
    exact Tracer.noteRate_leads (t := { v with arena := v.arena.setWords span.start (first :: payload) }) hlimit _
  | @fold s ret w i hakin _ hmerge =>
    obtain ⟨hroom, rfl, hw⟩ := Tracer.merged?_eq_some_iff.mp hmerge
    have hlimit : (s.cursor s.currentCpu).next - 1 < (s.cursor s.currentCpu).limit := by
      have := Cursor.hasRoom_iff.mp hroom
      omega
    have hbook : s.view.book (.merged s.currentCpu ((s.cursor s.currentCpu).next - 1)) [ret] log =
        log.amendLatest s.currentCpu w :=
      congrArg (fun x : Option UInt64 => log.amendLatest s.currentCpu (x.getD 0)) hw
    have hfold : Leads s log { s with arena := s.arena.setWord ((s.cursor s.currentCpu).next - 1) w }
        (log.amendLatest s.currentCpu w) := .of_step rfl rfl (.fold hroom rfl (.of_eq rfl))
    rw [← hakin.view, hbook]
    refine hakin.leads (hfold.trans ?_)
    exact Tracer.noteReturnRate_leads (t := { s with arena := s.arena.setWord ((s.cursor s.currentCpu).next - 1) w })
      hlimit _

/-- An action within a session comes down to elementary steps. -/
theorem Tracer.perform_leads {log : Ledger} (h : (a.isReset && !t.tracing) = false) :
    Leads t log (t.perform a).2 (t.view.book (t.outcome a) (t.stamped a) log) := (perform_effect h).leads log

end EventRecorder
