import EventRecorder.Proofs.PidSet
import EventRecorder.Proofs.Sessions.Failures
import EventRecorder.Proofs.Sessions.Restart

/-! # Names of processes

The name of a process is meant to be in the log once. The hook that records names takes a process for named before its
record is written, and a tracer forgets all names when a session or a further lap starts. So a name is recorded only
once from then on, unless its own record is the first of the lap; and a name whose record failed is not recorded later
either. -/

namespace EventRecorder

open Ledger LogView Arena PidSet

variable {P : Type} {s t u : Tracer P} {a : Action} {names : PidSet} {ws : List UInt64} {o : Outcome}
  {cpu len : Nat} {span : Span} {pid q : UInt32}

namespace Tracer

/-! ### When names are forgotten -/

/-- The words were written to the first block of a further lap. -/
def opensLap (t : Tracer P) : Outcome → Bool
  | .written cpu span => !(t.cursor cpu).fits span.len && (t.arena.openBlock t.mode.wraps).1.any (·.wrapped)
  | _ => false

theorem opensLap_written (t : Tracer P) (cpu : Nat) (span : Span) : t.opensLap (.written cpu span) =
    (!(t.cursor cpu).fits span.len && (t.arena.openBlock t.mode.wraps).1.any (·.wrapped)) := rfl

theorem Akin.opensLap (h : t.Akin s) (o : Outcome) : s.opensLap o = t.opensLap o := by
  unfold Tracer.opensLap
  simp only [h.cursor, h.arena, h.mode]

variable [Platform P]

theorem named_blockTaken (t : Tracer P) (cpu len : Nat) (o : Opening) (a : Arena) :
    (t.blockTaken cpu len o a).named = if o.wrapped then .empty else t.named := by
  refine (((t.frontierMoved o a).laidOut cpu o).keeps_prepareCounters cpu).named.trans ?_
  change (t.frontierMoved o a).named = _
  unfold frontierMoved
  split <;> rfl

/-- All names are forgotten when the words claimed are the first of a lap. -/
theorem named_of_claim (h : t.claim cpu len = (some span, u)) :
    u.named = if t.opensLap (.written cpu span) then .empty else t.named := by
  have hspan : span.len = len := len_of_claim (congrArg Prod.fst h)
  obtain ⟨hlen, hcpu⟩ := served_of_claim h
  rw [opensLap_written, hspan]
  cases hfits : (t.cursor cpu).fits len
  · obtain ⟨o, a, hopen, -, rfl⟩ := claim_opens h hfits
    have hsame := (overrun_sameFrontier t cpu len).openBlock t.mode.wraps
    rw [hopen] at hsame
    rw [named_blockTaken, (keeps_overrun ..).named, ← hsame]
    rfl
  · rw [claim_of_fits hlen hcpu hfits] at h
    obtain ⟨-, rfl⟩ := Prod.mk.inj h
    rfl

end Tracer

/-! ### Actions -/

theorem Effect.named_eq [Platform P] (h : Effect t names ws o u) :
    u.named = if t.opensLap o then .empty else names := by
  cases h with
  | rest _ hnamed => exact hnamed
  | flush => exact (Tracer.keeps_flushAll _ t.off).named.trans t.named_off
  | refuse _ hclaim => exact (Tracer.keeps_of_refused hclaim).named
  | claim hclaim => exact Tracer.named_of_claim hclaim
  | write hakin _ hclaim =>
    have hnamed := Tracer.named_of_claim hclaim
    rw [(Tracer.keeps_noteRate ..).named, ← hakin.opensLap]
    exact hnamed
  | fold => exact (Tracer.keeps_noteReturnRate ..).named

namespace Tracer

/-- The action sets out to record the name of a process that the log cannot tell from `pid`. -/
def setsOut (t : Tracer P) (pid : UInt32) : Action → Bool
  | .traceName q _ => t.tracing && !t.named.contains q && low q == low pid
  | _ => false

theorem contains_namedBy (t : Tracer P) (pid : UInt32) (a : Action) :
    (t.namedBy a).contains pid = (t.named.contains pid || t.setsOut pid a) := by
  cases a with
  | traceName q name =>
    unfold namedBy setsOut
    cases htracing : t.tracing
    · simp
    · cases hnamed : t.named.contains q
      · simp [hnamed, contains_insert]
      · simp [hnamed]
  | _ => exact (Bool.or_false _).symm

variable [Platform P]

/-- The action starts a session or a further lap. -/
def forgets (t : Tracer P) (a : Action) : Bool := (a.isReset && !t.tracing) || t.opensLap (t.outcome a)

theorem perform_named (t : Tracer P) (a : Action) :
    (t.perform a).2.named = if t.forgets a then .empty else t.namedBy a := by
  unfold forgets
  cases hreset : a.isReset && !t.tracing
  · exact (perform_effect hreset).named_eq
  · obtain ⟨hisReset, hoff⟩ : a.isReset = true ∧ t.tracing = false := by simpa using hreset
    obtain ⟨mode, hmode⟩ := exists_reset hisReset hoff
    rw [hmode]
    unfold reset
    rw [if_neg (by simp [hoff])]
    rfl

/-- A process is named if it was named, or the action set out to name it, and the action did not forget all names. -/
theorem contains_perform (t : Tracer P) (pid : UInt32) (a : Action) :
    (t.perform a).2.named.contains pid = (!t.forgets a && (t.named.contains pid || t.setsOut pid a)) := by
  rw [perform_named]
  cases t.forgets a
  · exact t.contains_namedBy pid a
  · exact contains_empty pid

/-! ### Runs -/

/-- None of the calls starts a session or a further lap. -/
def staysInLap (t : Tracer P) : (calls : List ((P → P) × Action)) → Bool
  | [] => true
  | call :: calls =>
    let t := t.at (call.1 t.platform)
    !t.forgets call.2 && (t.perform call.2).2.staysInLap calls

/-- One of the calls set out to record the name of a process that the log cannot tell from `pid`, and neither that call
nor one behind it started a session or a further lap. -/
def HasSetOut (t : Tracer P) (pid : UInt32) (calls : List ((P → P) × Action)) : Prop :=
  ∃ before call after, calls = before ++ call :: after ∧
    ((t.after before).at (call.1 (t.after before).platform)).setsOut pid call.2 = true ∧
    (t.after before).staysInLap (call :: after) = true

theorem hasSetOut_cons {call : (P → P) × Action} {calls : List ((P → P) × Action)} :
    t.HasSetOut pid (call :: calls) ↔
      ((t.at (call.1 t.platform)).setsOut pid call.2 = true ∧ t.staysInLap (call :: calls) = true) ∨
        ((t.at (call.1 t.platform)).perform call.2).2.HasSetOut pid calls := by
  constructor
  · rintro ⟨before, call', after, hcalls, hsets, hstays⟩
    cases before with
    | nil =>
      obtain ⟨rfl, rfl⟩ := List.cons.inj hcalls
      exact Or.inl ⟨hsets, hstays⟩
    | cons first before =>
      obtain ⟨rfl, rfl⟩ := List.cons.inj hcalls
      exact Or.inr ⟨before, call', after, rfl, hsets, hstays⟩
  · rintro (⟨hsets, hstays⟩ | ⟨before, call', after, rfl, hsets, hstays⟩)
    · exact ⟨[], call, calls, rfl, hsets, hstays⟩
    · exact ⟨call :: before, call', after, rfl, hsets, hstays⟩

/-- After some calls a process counts as named if it did so before and nothing was forgotten since, or if a call has set
out to name it. -/
theorem contains_after (t : Tracer P) (pid : UInt32) (calls : List ((P → P) × Action)) :
    (t.after calls).named.contains pid = true ↔
      (t.named.contains pid = true ∧ t.staysInLap calls = true) ∨ t.HasSetOut pid calls := by
  induction calls generalizing t with
  | nil =>
    have hnone : ¬ t.HasSetOut pid [] := by
      rintro ⟨before, call, after, hcalls, -⟩
      exact absurd hcalls.symm (List.append_ne_nil_of_right_ne_nil _ (List.cons_ne_nil _ _))
    simp [hnone, staysInLap, after]
  | cons call calls ih =>
    have hstays : t.staysInLap (call :: calls) = (!(t.at (call.1 t.platform)).forgets call.2 &&
        ((t.at (call.1 t.platform)).perform call.2).2.staysInLap calls) := rfl
    refine (ih _).trans ?_
    rw [hasSetOut_cons, contains_perform, hstays, Bool.and_eq_true_iff, Bool.and_eq_true_iff, Bool.or_eq_true_iff]
    constructor
    · rintro (⟨⟨hkeeps, hnamed | hsets⟩, hrest⟩ | hlater)
      · exact Or.inl ⟨hnamed, hkeeps, hrest⟩
      · exact Or.inr (Or.inl ⟨hsets, hkeeps, hrest⟩)
      · exact Or.inr (Or.inr hlater)
    · rintro (⟨hnamed, hkeeps, hrest⟩ | ⟨hsets, hkeeps, hrest⟩ | hlater)
      · exact Or.inl ⟨⟨hkeeps, Or.inl hnamed⟩, hrest⟩
      · exact Or.inl ⟨⟨hkeeps, Or.inr hsets⟩, hrest⟩
      · exact Or.inr hlater

/-! ### Recording a name -/

theorem traceName_of_named {name : TaskName} (h : t.named.contains pid = true) : t.traceName pid name = (.dropped, t) := by
  unfold traceName
  rw [if_pos (by simp [h])]

theorem of_recorded {name : TaskName} (h : (t.traceName pid name).1 ≠ .dropped) :
    t.tracing = true ∧ t.named.contains pid = false := by
  have hgoes : ¬ (!t.tracing || t.named.contains pid) = true := by
    intro hstop
    unfold traceName at h
    rw [if_pos hstop] at h
    exact h rfl
  simpa using hgoes

theorem forgets_traceName (t : Tracer P) (pid : UInt32) (name : TaskName) :
    t.forgets (.traceName pid name) = t.opensLap (t.traceName pid name).1 := rfl

/-- A name that is not recorded although the hook set out to do so counts as recorded from then on. -/
theorem named_of_dropped {name : TaskName} (htracing : t.tracing = true) (hnamed : t.named.contains pid = false)
    (hdropped : (t.traceName pid name).1 = .dropped) : (t.traceName pid name).2.named = t.named.insert pid := by
  have hperform := t.perform_named (.traceName pid name)
  rw [forgets_traceName, hdropped] at hperform
  refine hperform.trans ?_
  unfold namedBy
  simp [opensLap, htracing, hnamed]

/-- The record of a name has three words, and so it fails for want of a CPU or of room only. -/
theorem fault_of_dropped {name : TaskName} (htracing : t.tracing = true) (hnamed : t.named.contains pid = false)
    (hdropped : (t.traceName pid name).1 = .dropped) :
    t.fault? (.traceName pid name) = some .cpu ∧ t.cursors.size ≤ t.readTime.2.currentCpu ∨
      t.fault? (.traceName pid name) = some .space ∧ (t.traceName pid name).2.tracing = false := by
  have hlength : Head.recordLength (Head.callWord Event.processNameRecord (Head.argField.get pid.toUInt64)) = 3 := by
    rw [Head.recordLength_callWord (by decide)]
    decide
  have hfault : t.fault? (.traceName pid name) = t.claimFault? t.readTime.2.currentCpu 3 := by
    unfold fault? traceNameFault? insertFault?
    simp [htracing, hnamed, hlength]
  obtain ⟨hfailed, hfails⟩ := t.traceName_faulted pid name
  change _ = (t.fault? (.traceName pid name)).isSome at hfailed
  rw [hdropped] at hfailed
  cases hf : t.fault? (.traceName pid name) with
  | none =>
    rw [hf] at hfailed
    cases hfailed
  | some f =>
    have hafter := hfails f hf
    rw [hf] at hfault
    unfold claimFault? at hfault
    rw [if_neg (by decide)] at hfault
    split at hfault
    · rename_i hunserved
      exact Or.inl ⟨hfault, hunserved⟩
    · split at hfault
      · obtain rfl := Option.some.inj hfault
        exact Or.inr ⟨rfl, hafter.tracing_off rfl⟩
      · cases hfault

end Tracer

/-! ### Names in the log -/

theorem Tracer.named_of_new {platform : P} {config : Config}
    (h : Tracer.ofConfig platform config = .ok t) : t.named = .empty := by
  obtain ⟨-, rfl⟩ := Tracer.eq_made h
  rfl

/-- A name is written once: the hook drops every further record of it, whatever happens in between, until a session or a
lap starts. A name whose own record is the first of a lap is forgotten with all the others. -/
theorem names_written_once [Platform P] {name : TaskName} (h : (t.traceName pid name).1 ≠ .dropped) :
    (t.opensLap (t.traceName pid name).1 = false →
      ∀ calls : List ((P → P) × Action), (t.traceName pid name).2.staysInLap calls = true →
        ∀ (platform : P) (q : UInt32) (name' : TaskName), low q = low pid →
          let u := ((t.traceName pid name).2.after calls).at platform
          u.traceName q name' = (.dropped, u)) ∧
    (t.opensLap (t.traceName pid name).1 = true → (t.traceName pid name).2.named = .empty) := by
  obtain ⟨htracing, hnamed⟩ := Tracer.of_recorded h
  refine ⟨fun hstays calls hcalls platform q name' hlow => ?_, fun hopens => ?_⟩
  · have hsets : t.setsOut q (.traceName pid name) = true := by
      simp [Tracer.setsOut, htracing, hnamed, hlow]
    have hfirst : (t.traceName pid name).2.named.contains q = true := by
      refine (t.contains_perform q (.traceName pid name)).trans ?_
      rw [Tracer.forgets_traceName, hstays, hsets, Bool.or_true]
      rfl
    exact Tracer.traceName_of_named ((Tracer.contains_after _ q calls).mpr (Or.inl ⟨hfirst, hcalls⟩))
  · refine (t.perform_named (.traceName pid name)).trans ?_
    rw [Tracer.forgets_traceName, hopens, if_pos rfl]

/-- A process has its name written. Tracing is stopped and started again, and a process with the same low bits is taken for
the one that is named. -/
theorem names_written_once_of_process :
    ∃ (t u : Tracer TimeOnly) (log : Ledger) (calls : List ((TimeOnly → TimeOnly) × Action)), History t log ∧
      calls = [(id, .traceEvent 0x801 5), (id, .execute .flush), (id, .execute .on)] ∧
      (t.traceName 42 (.ofBytes [0x77])).1 ≠ .dropped ∧ t.opensLap (t.traceName 42 (.ofBytes [0x77])).1 = false ∧
      (t.traceName 42 (.ofBytes [0x77])).2.staysInLap calls = true ∧
      u = ((t.traceName 42 (.ofBytes [0x77])).2.after calls).at {} ∧ u.tracing = true ∧
      u.readTime.2.currentCpu < u.cursors.size ∧ u.traceName 0x1002a (.ofBytes [0x78]) = (.dropped, u) ∧
      (u.traceName 43 (.ofBytes [0x78])).1 ≠ .dropped := by
  have hnew : History _ [] := .new (show Tracer.ofConfig ({} : TimeOnly) { blocks := 2 } = .ok _ from rfl)
  have hrun := hnew.act_at {} (.execute .on)
  refine ⟨_, _, _, [(id, .traceEvent 0x801 5), (id, .execute .flush), (id, .execute .on)], hrun, rfl, by decide +kernel,
    by decide +kernel, by decide +kernel, rfl, by decide +kernel, by decide +kernel, ?_, by decide +kernel⟩
  refine (names_written_once ?_).1 ?_ [(id, .traceEvent 0x801 5), (id, .execute .flush), (id, .execute .on)] ?_
    ({} : TimeOnly) 0x1002a (.ofBytes [0x78]) ?_ <;> decide +kernel

/-- A tracer in its last block wraps to write a name, forgets the name on the way, and writes it once more. -/
theorem lap_forgets_own_name :
    ∃ (t : Tracer TimeOnly) (log : Ledger), History t log ∧ t.tracing = true ∧
      (t.traceName 42 (.ofBytes [0x77])).1 = .written 0 ⟨6, 3⟩ ∧
      ((t.traceName 42 (.ofBytes [0x77])).2.traceName 42 (.ofBytes [0x77])).1 = .written 0 ⟨9, 3⟩ := by
  have hnew : History _ [] := .new (show Tracer.ofConfig ({} : TimeOnly) { blocks := 2 } = .ok _ from rfl)
  have hrun := (((((hnew.act_at {} (.reset ⟨false, true⟩)).act_at {} (.claim 0 1)).act_at {} (.execute .flush)).act_at {}
    (.claim 0 1)).act_at {} (.execute .flush)).act_at {} (.execute .on)
  exact ⟨_, _, hrun, by decide +kernel, by decide +kernel, by decide +kernel⟩

/-- Once the hook has set out to record a name, it drops the name until a session or a lap starts, whether or not the
record was written: a name that fails for want of a CPU or of room counts as recorded. -/
theorem dropped_names [Platform P] {platform : P} {config : Config} (hnew : Tracer.ofConfig platform config = .ok t)
    (calls : List ((P → P) × Action)) (platform' : P) (pid : UInt32) (name : TaskName) :
    let u := (t.after calls).at platform'
    u.tracing = true →
      (u.named.contains pid = false → (u.traceName pid name).1 = .dropped →
        (u.traceName pid name).2.named = u.named.insert pid ∧
          (u.fault? (.traceName pid name) = some .cpu ∨ u.fault? (.traceName pid name) = some .space)) ∧
      (u.readTime.2.currentCpu < u.cursors.size →
        ((u.traceName pid name).1 = .dropped ∧ (u.traceName pid name).2.tracing = true ↔ t.HasSetOut pid calls)) := by
  intro u htracing
  have hempty : t.named.contains pid = false := by
    rw [Tracer.named_of_new hnew, contains_empty]
  have hnamed_iff : u.named.contains pid = true ↔ t.HasSetOut pid calls := by
    refine (t.contains_after pid calls).trans ?_
    simp [hempty]
  refine ⟨fun hnamed hdropped => ⟨Tracer.named_of_dropped htracing hnamed hdropped, ?_⟩, fun hserved => ?_⟩
  · exact (Tracer.fault_of_dropped htracing hnamed hdropped).imp And.left And.left
  · rw [← hnamed_iff]
    constructor
    · rintro ⟨hdropped, hon⟩
      by_contra hnamed
      rcases Tracer.fault_of_dropped htracing (Bool.eq_false_iff.mpr hnamed) hdropped with ⟨-, hunserved⟩ | ⟨-, hoff⟩
      · exact absurd hserved (Nat.not_lt_of_le hunserved)
      · exact Bool.false_ne_true (hoff.symm.trans hon)
    · intro hnamed
      rw [Tracer.traceName_of_named hnamed]
      exact ⟨rfl, htracing⟩

/-- A name is dropped although its record was never written: its CPU was not served. -/
theorem dropped_names_of_unserved_cpu :
    ∃ t u : Tracer TimeOnly, Tracer.ofConfig {} { blocks := 2 } = .ok t ∧
      u = (t.after [(id, .execute .on), (fun _ => { cpu := 1 }, .traceName 42 (.ofBytes [0x77]))]).at {} ∧
      u.tracing = true ∧ u.readTime.2.currentCpu < u.cursors.size ∧
      (u.traceName 42 (.ofBytes [0x77])).1 = .dropped ∧ (u.traceName 42 (.ofBytes [0x77])).2.tracing = true ∧
      t.HasSetOut 42 [(id, .execute .on), (fun _ => { cpu := 1 }, .traceName 42 (.ofBytes [0x77]))] := by
  have hnew : Tracer.ofConfig ({} : TimeOnly) { blocks := 2 } = .ok _ := rfl
  refine ⟨_, _, hnew, rfl, by decide +kernel, by decide +kernel, by decide +kernel, by decide +kernel, ?_⟩
  refine ((dropped_names hnew [(id, .execute .on), (fun _ => { cpu := 1 }, .traceName 42 (.ofBytes [0x77]))] {} 42
    (.ofBytes [0x77]) ?_).2 ?_).mp ⟨?_, ?_⟩ <;> decide +kernel

/-- A name fails on a CPU that is not served, and is dropped on CPU 0 from then on although the log is empty. -/
theorem failed_name_is_dropped :
    ∃ (t u : Tracer TimeOnly), History t [] ∧ History u [] ∧ t.tracing = true ∧ t.named.contains 42 = false ∧
      (t.traceName 42 (.ofBytes [0x77])).1 = .dropped ∧ (t.traceName 42 (.ofBytes [0x77])).2.named.contains 42 = true ∧
      u = (t.traceName 42 (.ofBytes [0x77])).2.at {} ∧ u.tracing = true ∧ u.readTime.2.currentCpu < u.cursors.size ∧
      (u.traceName 42 (.ofBytes [0x77])).1 = .dropped := by
  have hnew : History _ [] := .new (show Tracer.ofConfig ({} : TimeOnly) { blocks := 2 } = .ok _ from rfl)
  have hrun := (hnew.act_at {} (.execute .on)).at { cpu := 1 }
  have hnamed := (hrun.act_at { cpu := 1 } (.traceName 42 (.ofBytes [0x77]))).at {}
  exact ⟨_, _, hrun, hnamed, by decide +kernel, by decide +kernel, by decide +kernel, by decide +kernel, rfl,
    by decide +kernel, by decide +kernel, by decide +kernel⟩

end EventRecorder
