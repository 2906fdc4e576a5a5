import EventRecorder.Platform.TimeOnly
import EventRecorder.Proofs.Ledger.Effects

/-! # The journal tells of tracing

Tracing is turned on by one command and ends in many ways: by command, by a reader, by a flush, by a record of
an impossible length, or when the arena is full. Every change is told by a notice, and nothing is told that did
not happen, so whoever reads the lines of the journal knows at every line whether the tracer is tracing. -/

namespace EventRecorder

variable {P : Type} {b : Bool} {n : Notice} {s t u : Tracer P} {log : Ledger} {cpu len : Nat}

/-! ### Lines -/

/-- The line tells that a record had an impossible length. -/
def tellsBadLength (line : String) : Bool :=
  "bad record length ".toList.isPrefixOf line.toList && ", tracing stopped".toList.isSuffixOf line.toList

/-- What a line tells of tracing: that it was turned on or off, or nothing. -/
def toldBy (line : String) : Option Bool :=
  if line = "tracing on" then some true
  else if line = "tracing off" || line = "trace arena full, tracing stopped" || tellsBadLength line then some false
  else none

/-- Whether a tracer is tracing as told by all its lines; tracers start with tracing off. -/
def replay (lines : List String) : Bool := lines.foldl (fun b line => (toldBy line).getD b) false

/-- The lines of the journal, the first one first. -/
def Tracer.lines (t : Tracer P) : List String := t.journal.reverse.map Notice.text

/-- What a notice tells of tracing. -/
def Notice.told : Notice → Option Bool
  | tracingOn => some true
  | tracingOff | arenaFull | badLength _ => some false
  | _ => none

/-- The beginnings of the lines that tell of tracing. -/
def tellingHeads : List String :=
  ["tracing on", "tracing off", "trace arena full, tracing stopped", "bad record length "]

/-- What begins like no telling line tells nothing. -/
theorem toldBy_eq_none {pre : String}
    (h : ∀ head ∈ tellingHeads, ¬ head.toList <+: pre.toList ∧ ¬ pre.toList <+: head.toList) (rest : String) :
    toldBy (pre ++ rest) = none := by
  have hhead : ∀ head ∈ tellingHeads, ¬ head.toList <+: (pre ++ rest).toList := by
    intro head hhead hprefix
    have hpre : pre.toList <+: (pre ++ rest).toList := by simp
    exact (List.prefix_or_prefix_of_prefix hprefix hpre).elim (h head hhead).1 (h head hhead).2
  have hline : ∀ head ∈ tellingHeads, pre ++ rest ≠ head := fun head hmem heq =>
    hhead head hmem (heq ▸ List.prefix_refl _)
  have hlength : tellsBadLength (pre ++ rest) = false := by
    have := hhead "bad record length " (by simp [tellingHeads])
    unfold tellsBadLength
    rw [Bool.and_eq_false_iff]
    exact Or.inl (Bool.eq_false_iff.mpr fun hp => this (List.isPrefixOf_iff_prefix.mp hp))
  unfold toldBy
  rw [if_neg (hline _ (by simp [tellingHeads])), if_neg]
  simp [hline "tracing off" (by simp [tellingHeads]), hlength,
    hline "trace arena full, tracing stopped" (by simp [tellingHeads])]

theorem toldBy_of_tellsBadLength {line : String} (h : tellsBadLength line = true) : toldBy line = some false := by
  have hne : line ≠ "tracing on" := by
    rintro rfl
    revert h
    decide +kernel
  unfold toldBy
  rw [if_neg hne, h, Bool.or_true, if_pos rfl]

theorem tellsBadLength_text (len : Nat) : tellsBadLength (Notice.badLength len).text = true := by
  have hsplit : (Notice.badLength len).text.toList =
      "bad record length ".toList ++ ((toString len).toList ++ ", tracing stopped".toList) := by
    rw [← String.toList_append, ← String.toList_append, ← String.append_assoc]
    rfl
  unfold tellsBadLength
  rw [hsplit, Bool.and_eq_true, List.isPrefixOf_iff_prefix, List.isSuffixOf_iff_suffix]
  exact ⟨List.prefix_append .., (List.suffix_append ..).trans (List.suffix_append ..)⟩

/-- A line tells what its notice tells. -/
theorem toldBy_text (n : Notice) : toldBy n.text = n.told := by
  cases n with
  | tracingOn | tracingOff | arenaFull | arenaWrapped | loaded => decide +kernel
  | badLength len => exact toldBy_of_tellsBadLength (tellsBadLength_text len)
  | _ =>
    unfold Notice.text
    simp only [String.append_assoc]
    exact toldBy_eq_none (by simp [tellingHeads, toString]) _

/-! ### Notices -/

/-- How tracing stands once a notice was told while it stood at `b`; none if the notice may not be told then. -/
def Notice.turn? (b : Bool) : Notice → Option Bool
  | tracingOn => if b then none else some true
  | tracingOff | arenaFull => if b then some false else none
  | badLength _ => some false
  | _ => some b

/-- `u` comes after `t`: every change of tracing between them was told when it happened, and tracing was not
turned on. -/
def Tracer.Tells (t u : Tracer P) : Prop :=
  ∃ news : List Notice, u.journal = news.reverse ++ t.journal ∧ .tracingOn ∉ news ∧
    news.foldlM Notice.turn? t.tracing = some u.tracing

namespace Tracer.Tells

theorem of_same (hj : u.journal = t.journal) (ht : u.tracing = t.tracing) : t.Tells u :=
  ⟨[], hj, List.not_mem_nil, congrArg some ht.symm⟩

theorem refl (t : Tracer P) : t.Tells t := of_same rfl rfl

theorem of_notice (hj : u.journal = n :: t.journal) (hn : n ≠ .tracingOn) (ht : n.turn? t.tracing = some u.tracing) :
    t.Tells u := by
  refine ⟨[n], hj, by simpa using hn.symm, ?_⟩
  rw [List.foldlM_cons, ht]
  rfl

theorem trans (h₁ : s.Tells t) (h₂ : t.Tells u) : s.Tells u := by
  obtain ⟨news₁, hj₁, hon₁, ht₁⟩ := h₁
  obtain ⟨news₂, hj₂, hon₂, ht₂⟩ := h₂
  refine ⟨news₁ ++ news₂, ?_, by simp [hon₁, hon₂], ?_⟩
  · rw [hj₂, hj₁, List.reverse_append, List.append_assoc]
  · rw [List.foldlM_append, ht₁]
    exact ht₂

end Tracer.Tells

namespace Tracer

/-! ### One function after another -/

theorem off_tells (t : Tracer P) : t.Tells t.off := by
  unfold off
  split
  · rename_i htracing
    exact .of_notice rfl Notice.noConfusion (if_pos htracing)
  · exact .refl t

theorem refuseLength_tells (t : Tracer P) (len : Nat) : t.Tells (t.refuseLength len) :=
  .of_notice rfl Notice.noConfusion rfl

theorem flushAll_tells (cpus : List Nat) (t : Tracer P) : t.Tells (cpus.foldl flushCpu t) := by
  induction cpus generalizing t with
  | nil => exact .refl t
  | cons cpu cpus ih =>
    refine .trans ?_ (ih _)
    unfold flushCpu
    dsimp only
    split <;> exact .of_same rfl rfl

theorem flush_tells (t : Tracer P) : t.Tells t.flush.2 :=
  (t.off_tells.trans (flushAll_tells _ _)).trans (.of_notice rfl Notice.noConfusion rfl)

theorem reset_tells (t : Tracer P) (mode : Mode) : t.Tells (t.reset mode).2 := by
  unfold reset
  split
  · exact .refl t
  · exact .of_notice rfl Notice.noConfusion rfl

section Platform
variable [Platform P]

theorem claimFresh_tells (t : Tracer P) (cpu len : Nat) : t.Tells (t.claimFresh cpu len).2 := by
  rcases hopen : t.arena.openBlock t.mode.wraps with ⟨_ | o, a⟩
  · unfold claimFresh
    rw [hopen]
    dsimp only
    split
    · rename_i htracing
      exact .of_notice rfl Notice.noConfusion (if_pos htracing)
    · exact .of_same rfl rfl
  · rw [claimFresh_of_openBlock hopen]
    have hmoved : t.Tells (t.frontierMoved o a) := by
      unfold frontierMoved
      split
      · exact .of_notice rfl Notice.noConfusion rfl
      · exact .of_same rfl rfl
    have hprepared : (t.frontierMoved o a).Tells (((t.frontierMoved o a).laidOut cpu o).prepareCounters cpu) := by
      unfold prepareCounters
      split <;> exact .of_same rfl rfl
    exact (hmoved.trans hprepared).trans (.of_notice rfl Notice.noConfusion rfl)

theorem claim_tells (t : Tracer P) (cpu len : Nat) : t.Tells (t.claim cpu len).2 := by
  cases hlen : Event.isValidLength len
  · rw [claim_of_invalid hlen]
    exact t.refuseLength_tells len
  · rcases Nat.lt_or_ge cpu t.cursors.size with hcpu | hcpu
    · rw [claim_eq hlen hcpu]
      split
      · exact .of_same rfl rfl
      · refine .trans ?_ (claimFresh_tells _ cpu len)
        unfold overrun
        dsimp only
        split <;> exact .of_same rfl rfl
    · rw [claim_of_unserved hlen hcpu]
      exact .refl t

theorem noteRate_tells (t : Tracer P) (cpu i : Nat) (now : UInt64) : t.Tells (t.noteRate cpu i now) := by
  unfold noteRate
  split <;> exact .of_same rfl rfl

theorem noteReturnRate_tells (t : Tracer P) (cpu i : Nat) (now : UInt64) : t.Tells (t.noteReturnRate cpu i now) := by
  unfold noteReturnRate
  split <;> exact .of_same rfl rfl

theorem insertAt_tells (t : Tracer P) (cpu : Nat) (now first : UInt64) (payload : List UInt64) :
    t.Tells (t.insertAt cpu now first payload).2 := by
  have hclaim := t.claim_tells cpu (payload.length + 1)
  unfold insertAt
  generalize t.claim cpu (payload.length + 1) = r at hclaim ⊢
  obtain ⟨_ | span, u⟩ := r
  · exact hclaim
  · have hwritten : u.Tells { u with arena := u.arena.setWords span.start (Head.stamp first now :: payload) } :=
      .of_same rfl rfl
    exact hclaim.trans (hwritten.trans (noteRate_tells _ cpu span.start now))

theorem readTime_tells (t : Tracer P) : t.Tells t.readTime.2 := .of_same rfl rfl

theorem insert_tells (t : Tracer P) (first : UInt64) (payload : List UInt64) : t.Tells (t.insert first payload).2 :=
  t.readTime_tells.trans (insertAt_tells _ _ _ _ _)

theorem insertReturn_tells (t : Tracer P) (ret : UInt64) : t.Tells (t.insertReturn ret).2 := by
  cases hmerge : t.readTime.2.merged? t.readTime.2.currentCpu (Head.stamp ret t.readTime.1) with
  | none =>
    rw [insertReturn_of_none hmerge]
    exact t.readTime_tells.trans (insertAt_tells _ _ _ _ _)
  | some fold =>
    rw [insertReturn_of_some hmerge]
    refine .trans ?_ (noteReturnRate_tells _ _ _ _)
    exact .of_same rfl rfl

theorem insertMany_tells (t : Tracer P) (words : List UInt64) : t.Tells (t.insertMany words).2 := by
  unfold insertMany
  cases words with
  | nil => exact t.refuseLength_tells 0
  | cons first rest =>
    dsimp only
    split
    · exact t.refuseLength_tells _
    · exact t.insert_tells first _

theorem insertUser_tells (t : Tracer P) (address : UInt64) : t.Tells (t.insertUser address).2 := by
  unfold insertUser
  split
  · exact .refl t
  · exact t.insertMany_tells _

theorem traceEvent_tells (t : Tracer P) (event arg : UInt64) : t.Tells (t.traceEvent event arg).2 := by
  unfold traceEvent
  split
  · exact .refl t
  · split
    · exact t.insertReturn_tells _
    · exact t.insert_tells _ _

theorem traceSample_tells (t : Tracer P) (event pc : UInt64) : t.Tells (t.traceSample event pc).2 := by
  unfold traceSample
  split
  · exact .refl t
  · exact t.insert_tells _ _

theorem traceWords_tells (t : Tracer P) (event : UInt64) (words : List UInt64) :
    t.Tells (t.traceWords event words).2 := by
  unfold traceWords
  split
  · exact .refl t
  · split
    · exact t.refuseLength_tells _
    · exact t.insertMany_tells _

theorem traceName_tells (t : Tracer P) (pid : UInt32) (name : TaskName) : t.Tells (t.traceName pid name).2 := by
  unfold traceName
  split
  · exact .refl t
  · refine .trans ?_ (insertMany_tells _ _)
    exact .of_same rfl rfl

/-- No command but ON turns tracing on. -/
theorem execute_tells (t : Tracer P) {c : Command} (hc : c ≠ .on) : t.Tells (t.execute c).2 := by
  cases c with
  | on => exact absurd rfl hc
  | flush => exact t.flush_tells
  | reset flags =>
    have hreset := t.reset_tells (.ofBits flags)
    unfold execute
    dsimp only
    generalize t.reset (.ofBits flags) = r at hreset ⊢
    obtain ⟨cause | _, u⟩ := r
    · exact hreset.trans (.of_notice rfl Notice.noConfusion rfl)
    · exact hreset
  | insertWord w forced =>
    unfold execute
    dsimp only
    split
    · exact t.insert_tells w []
    · exact .refl t
  | insertUser address forced =>
    unfold execute
    dsimp only
    split
    · exact t.insertUser_tells address
    · exact .refl t
  | off | count | word | rateWord | rawCount | rawWord => exact t.off_tells
  | stat | test | version => exact .refl t

theorem perform_tells (t : Tracer P) {a : Action} (ha : a.command? ≠ some .on) : t.Tells (t.perform a).2 := by
  cases a with
  | claim cpu len => exact t.claim_tells cpu len
  | insert first payload => exact t.insert_tells first payload
  | insertReturn ret => exact t.insertReturn_tells ret
  | insertMany words => exact t.insertMany_tells words
  | insertUser address => exact t.insertUser_tells address
  | traceEvent event arg => exact t.traceEvent_tells event arg
  | traceSample event pc => exact t.traceSample_tells event pc
  | traceWords event words => exact t.traceWords_tells event words
  | traceName pid name => exact t.traceName_tells pid name
  | reset mode => exact t.reset_tells mode
  | execute c => exact t.execute_tells fun hc => ha (congrArg some hc)
  | control code arg =>
    unfold perform control
    dsimp only
    cases hcode : Command.ofCode? code arg with
    | none => exact .refl t
    | some c => exact t.execute_tells fun hc => ha (hcode.trans (congrArg some hc))
  | snapshot => exact t.off_tells

/-- The command ON turns tracing on, and tells it unless tracing was on already. -/
theorem perform_of_on {a : Action} (ha : a.command? = some .on) : (t.perform a).2 = t.on := by
  cases a with
  | execute c =>
    obtain rfl := Option.some.inj ha
    rfl
  | control code arg =>
    unfold perform control
    dsimp only
    rw [show Command.ofCode? code arg = some .on from ha]
    rfl
  | _ => cases ha

/-- Every action tells the changes of tracing as they happen. -/
theorem perform_news (t : Tracer P) (a : Action) : ∃ news : List Notice,
    (t.perform a).2.journal = news.reverse ++ t.journal ∧
      news.foldlM Notice.turn? t.tracing = some (t.perform a).2.tracing := by
  by_cases ha : a.command? = some .on
  · rw [perform_of_on ha]
    unfold on
    cases htracing : t.tracing
    · exact ⟨[.tracingOn], rfl, rfl⟩
    · exact ⟨[], rfl, congrArg some htracing.symm⟩
  · obtain ⟨news, hjournal, -, hturns⟩ := t.perform_tells ha
    exact ⟨news, hjournal, hturns⟩

end Platform

end Tracer

/-! ### Reading the lines -/

theorem Notice.told_of_turn? {b' : Bool} (h : n.turn? b = some b') : n.told.getD b = b' := by
  cases n with
  | tracingOn | tracingOff | arenaFull =>
    unfold turn? at h
    cases b' <;> simp_all [told]
  | _ => exact Option.some.inj h

/-- Replaying the lines of notices that turned tracing gives what they turned it to. -/
theorem foldl_text {b' : Bool} {news : List Notice} (h : news.foldlM Notice.turn? b = some b') :
    (news.map Notice.text).foldl (fun b line => (toldBy line).getD b) b = b' := by
  induction news generalizing b with
  | nil => exact Option.some.inj h
  | cons n news ih =>
    rw [List.foldlM_cons] at h
    obtain ⟨c, hturn, hrest⟩ := Option.bind_eq_some_iff.mp h
    rw [List.map_cons, List.foldl_cons, toldBy_text, Notice.told_of_turn? hturn]
    exact ih hrest

theorem Notice.eq_of_text_on (h : n.text = "tracing on") : n = .tracingOn := by
  have htold : n.told = some true := by
    rw [← toldBy_text, h]
    rfl
  cases n with
  | tracingOn => rfl
  | _ => cases htold

theorem Notice.eq_of_text_off (h : n.text = "tracing off" ∨ n.text = "trace arena full, tracing stopped") :
    n = .tracingOff ∨ n = .arenaFull := by
  have hlength : tellsBadLength n.text = false := by
    rcases h with h | h <;> rw [h] <;> decide +kernel
  have htold : n.told = some false := by
    rw [← toldBy_text]
    rcases h with h | h <;> rw [h] <;> decide +kernel
  cases n with
  | tracingOff => exact Or.inl rfl
  | arenaFull => exact Or.inr rfl
  | badLength len => exact absurd (tellsBadLength_text len) (Bool.eq_false_iff.mp hlength)
  | _ => cases htold

/-- Without a notice that tracing was turned on it stays off. -/
theorem tracing_stays_off {news : List Notice} (hon : .tracingOn ∉ news)
    (h : news.foldlM Notice.turn? false = some b) : b = false := by
  induction news with
  | nil => exact (Option.some.inj h).symm
  | cons n news ih =>
    rw [List.foldlM_cons] at h
    obtain ⟨c, hturn, hrest⟩ := Option.bind_eq_some_iff.mp h
    have hc : c = false := by
      cases n with
      | tracingOn => exact absurd List.mem_cons_self hon
      | tracingOff | arenaFull => cases hturn
      | _ => exact (Option.some.inj hturn).symm
    subst hc
    exact ih (fun hmem => hon (List.mem_cons_of_mem _ hmem)) hrest

/-- When the lines tell that tracing ended, one of them tells the end. -/
theorem exists_told_false {news : List String} (h : news.foldl (fun b line => (toldBy line).getD b) true = false) :
    ∃ line ∈ news, toldBy line = some false := by
  induction news with
  | nil => cases h
  | cons line news ih =>
    rw [List.foldl_cons] at h
    rcases htold : toldBy line with _ | _ | _
    · rw [htold] at h
      obtain ⟨l, hl, hstop⟩ := ih h
      exact ⟨l, List.mem_cons_of_mem _ hl, hstop⟩
    · exact ⟨line, List.mem_cons_self, htold⟩
    · rw [htold] at h
      obtain ⟨l, hl, hstop⟩ := ih h
      exact ⟨l, List.mem_cons_of_mem _ hl, hstop⟩

/-! ### Runs -/

section History
variable [Platform P]

/-- From its making on, tracing turned as the notices of the journal tell. -/
theorem History.turns (h : History t log) : t.journal.reverse.foldlM Notice.turn? false = some t.tracing := by
  induction h with
  | @new platform config t hnew =>
    obtain ⟨-, rfl⟩ := Tracer.eq_made hnew
    rfl
  | @act t log platform a _ ih =>
    obtain ⟨news, hjournal, hturns⟩ := Tracer.perform_news { t with platform } a
    rw [hjournal, List.reverse_append, List.reverse_reverse, List.foldlM_append]
    dsimp only
    rw [ih]
    exact hturns

/-- At every line of a run tracing stood as the lines before it tell, and the notice of the line was in place. -/
theorem History.turn?_at (h : History t log) {earlier later : List String} {line : String}
    (hlines : t.lines = earlier ++ line :: later) :
    ∃ n : Notice, n.text = line ∧ (n.turn? (replay earlier)).isSome = true := by
  obtain ⟨before, rest, hjournal, rfl, hrest⟩ := List.map_eq_append_iff.mp hlines
  obtain ⟨n, after, rfl, rfl, -⟩ := List.map_eq_cons_iff.mp hrest
  have hturns := h.turns
  rw [hjournal, List.foldlM_append] at hturns
  obtain ⟨c, hbefore, hafter⟩ := Option.bind_eq_some_iff.mp hturns
  rw [List.foldlM_cons] at hafter
  obtain ⟨d, hturn, -⟩ := Option.bind_eq_some_iff.mp hafter
  refine ⟨n, rfl, ?_⟩
  rw [replay, foldl_text hbefore, hturn]
  rfl

/-- The lines of the journal tell whether a tracer is tracing. -/
structure LinesTell (t : Tracer P) : Prop where
  replayed : replay t.lines = t.tracing
  /-- Tracing is told to be turned on only when it is off. -/
  on_from_off : ∀ earlier later, t.lines = earlier ++ "tracing on" :: later → replay earlier = false
  /-- Tracing is told to have been turned off, or ended by a full arena, only when it is on. -/
  off_from_on : ∀ earlier line later, t.lines = earlier ++ line :: later →
    (line = "tracing off" ∨ line = "trace arena full, tracing stopped") → replay earlier = true
  /-- Lines are only added, those of an action tell how it leaves tracing, and one of them tells a stop. -/
  told : ∀ (platform : P) (a : Action), ∃ news, ((t.at platform).perform a).2.lines = t.lines ++ news ∧
    news.foldl (fun b line => (toldBy line).getD b) t.tracing = ((t.at platform).perform a).2.tracing ∧
    (t.tracing = true → ((t.at platform).perform a).2.tracing = false → ∃ line ∈ news, toldBy line = some false)
  /-- Only one command turns tracing on. -/
  turned_on : ∀ (platform : P) (a : Action), t.tracing = false → ((t.at platform).perform a).2.tracing = true →
    a.command? = some .on

/-- In every run, after every action, the lines of the journal tell whether the tracer is tracing. -/
theorem lines_tell_tracing (h : History t log) : LinesTell t where
  replayed := foldl_text h.turns
  on_from_off earlier later hlines := by
    obtain ⟨n, htext, hturn⟩ := h.turn?_at hlines
    obtain rfl := Notice.eq_of_text_on htext
    cases hearlier : replay earlier
    · rfl
    · rw [hearlier] at hturn
      cases hturn
  off_from_on earlier line later hlines hline := by
    obtain ⟨n, rfl, hturn⟩ := h.turn?_at hlines
    cases hearlier : replay earlier
    · rw [hearlier] at hturn
      obtain rfl | rfl := Notice.eq_of_text_off hline <;> cases hturn
    · rfl
  told platform a := by
    obtain ⟨news, hjournal, hturns⟩ := (t.at platform).perform_news a
    have hfold := foldl_text hturns
    refine ⟨news.map Notice.text, ?_, hfold, fun hon hoff => exists_told_false ?_⟩
    · unfold Tracer.lines
      rw [hjournal, List.reverse_append, List.reverse_reverse, List.map_append]
      rfl
    · rw [← hoff, ← hfold]
      exact congrArg (List.foldl _ · _) hon.symm
  turned_on platform a hoff hon := by
    refine Decidable.byContradiction fun ha => ?_
    obtain ⟨news, -, hnone, hturns⟩ := (t.at platform).perform_tells ha
    rw [show (t.at platform).tracing = false from hoff, hon] at hturns
    exact Bool.false_ne_true (tracing_stays_off hnone hturns).symm

/-- A session that a bad length ended, with a new one that a reader ended. -/
theorem lines_tell_tracing_of_two_stops :
    ∃ (t : Tracer TimeOnly) (log : Ledger), History t log ∧
      t.lines = ["trace reset: ipc=false wrap=false", "tracer ready: 2 blocks, 1 cpus", "tracing on",
        "bad record length 9, tracing stopped", "tracing on", "tracing off"] ∧ LinesTell t := by
  have hnew : History _ [] := .new (show Tracer.ofConfig ({} : TimeOnly) { blocks := 2, cpus := 1 } = .ok _ from rfl)
  have hrun := (((hnew.act {} (.execute .on)).act {} (.claim 0 9)).act {} (.control 1 0)).act {} .snapshot
  exact ⟨_, _, hrun, by decide +kernel, lines_tell_tracing hrun⟩

end History

end EventRecorder
