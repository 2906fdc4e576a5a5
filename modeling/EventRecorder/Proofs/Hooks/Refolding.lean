import EventRecorder.Platform.Simulated
import EventRecorder.Proofs.Hooks.Folding
import EventRecorder.Proofs.Record.Pairing

/-! # Folding more than once

Call and return are compared in elapsed time and return value, and not asked for being without. So a word that absorbed
a return takes a further one that comes with what the word already holds. Returns that bring no elapsed time, as those of
the hooks, are folded into a word once at most. -/

namespace EventRecorder

namespace Head

variable {call ret m w x : UInt64} {rets : List UInt64}

/-- The word `x` with returns folded into it one after another; the latest return comes first. -/
def mergeAll? (x : UInt64) : (rets : List UInt64) → Option UInt64
  | [] => some x
  | ret :: rets => (mergeAll? x rets).bind (merge? · ret)

theorem mergeAll?_cons_iff : mergeAll? x (ret :: rets) = some w ↔ ∃ m, mergeAll? x rets = some m ∧ merge? m ret = some w :=
  Option.bind_eq_some_iff

theorem delta_of_mergeAll? (h : mergeAll? x rets = some w) (hne : rets ≠ []) : deltaField.get w ≠ 0 := by
  cases rets with
  | nil => exact absurd rfl hne
  | cons ret rets =>
    obtain ⟨m, -, hw⟩ := mergeAll?_cons_iff.mp h
    exact (folded_of_merge? hw).delta_ne_zero

/-- All returns but the first bring elapsed time. -/
theorem delta_of_mem_dropLast (h : mergeAll? x rets = some w) : ∀ ret ∈ rets.dropLast, deltaField.get ret ≠ 0 := by
  induction rets generalizing w with
  | nil =>
    intro ret hret
    cases hret
  | cons ret rets ih =>
    obtain ⟨m, hm, hw⟩ := mergeAll?_cons_iff.mp h
    cases rets with
    | nil =>
      intro ret hret
      cases hret
    | cons first rets =>
      rw [List.dropLast_cons_of_ne_nil (List.cons_ne_nil first rets)]
      refine List.forall_mem_cons.mpr ⟨?_, ih hm⟩
      rw [← (folded_of_merge? hw).sameDelta]
      exact delta_of_mergeAll? hm (List.cons_ne_nil first rets)

/-- What a merged word takes is told by the call and the first return. -/
theorem refolds_iff (h : merge? call ret = some m) {ret' : UInt64} : (merge? m ret').isSome = true ↔
    eventField.get ret' = eventField.get ret ∧ deltaField.get ret' = deltaField.get m ∧
      retvalField.get ret' = retvalField.get m ∧ fitsByte (signedArg ret') = true ∧ (elapsed call ret').toNat < 2 ^ 8 := by
  have hfolded := folded_of_merge? h
  have helapsed : elapsed m ret' = elapsed call ret' := by
    unfold elapsed
    rw [hfolded.timestamp]
  have hevent : eventField.get m ^^^ eventField.get ret' = Event.returnBit ↔ eventField.get ret' = eventField.get ret := by
    rw [hfolded.event, ← hfolded.pair, UInt64.xor_right_inj]
  rw [merge?_isSome_iff]
  constructor
  · intro hpairs
    exact ⟨hevent.mp hpairs.event, hpairs.delta.symm, hpairs.retval.symm, hpairs.value, helapsed ▸ hpairs.ticks⟩
  · rintro ⟨hret, hdelta, hretval, hvalue, hticks⟩
    exact ⟨hevent.mpr hret, hdelta.symm, hretval.symm, hvalue, helapsed.symm ▸ hticks⟩

end Head

open Ledger LogView Arena Head

variable {P : Type} [Platform P] {t : Tracer P} {log : Ledger} {a : Action} {c i : Nat} {rets : List UInt64} {x : UInt64}

/-! ### Which actions fold -/

/-- A return was folded. -/
def Outcome.isFold : Outcome → Bool
  | .merged .. => true
  | _ => false

namespace Tracer

theorem isFold_insertAt (t : Tracer P) (cpu : Nat) (now first : UInt64) (payload : List UInt64) :
    (t.insertAt cpu now first payload).1.isFold = false := by
  obtain hdropped | ⟨s, hwritten, -⟩ := t.insertAt_outcome cpu now first payload
  · rw [hdropped]
    rfl
  · rw [hwritten]
    rfl

theorem isFold_insertMany (t : Tracer P) (words : List UInt64) : (t.insertMany words).1.isFold = false := by
  unfold insertMany
  cases words with
  | nil => rfl
  | cons first rest =>
    dsimp only
    split
    · rfl
    · exact isFold_insertAt ..

theorem isFold_insertUser (t : Tracer P) (address : UInt64) : (t.insertUser address).1.isFold = false := by
  unfold insertUser
  split
  · rfl
  · exact isFold_insertMany ..

theorem isFold_commandOutcome (t : Tracer P) (command : Command) : (t.commandOutcome command).isFold = false := by
  unfold commandOutcome
  split
  · split
    · exact isFold_insertAt ..
    · rfl
  · split
    · exact isFold_insertUser ..
    · rfl
  · rfl

/-- Only returns are folded, whether they are inserted as they are or come from a hook. -/
theorem isFold_outcome (t : Tracer P) (a : Action) : (t.outcome a).isFold = false ∨
    (∃ ret, a = .insertReturn ret) ∨ ∃ event arg, a = .traceEvent event arg := by
  cases a with
  | insertReturn ret => exact Or.inr (Or.inl ⟨ret, rfl⟩)
  | traceEvent event arg => exact Or.inr (Or.inr ⟨event, arg, rfl⟩)
  | claim cpu len =>
    refine Or.inl ?_
    unfold outcome
    dsimp only
    cases (t.claim cpu len).1 <;> rfl
  | insert first payload => exact Or.inl (isFold_insertAt ..)
  | insertMany words => exact Or.inl (t.isFold_insertMany words)
  | insertUser address => exact Or.inl (t.isFold_insertUser address)
  | traceSample event pc =>
    refine Or.inl ?_
    unfold outcome traceSample
    dsimp only
    split
    · rfl
    · exact isFold_insertAt ..
  | traceWords event words =>
    refine Or.inl ?_
    unfold outcome traceWords
    dsimp only
    split
    · rfl
    · split
      · rfl
      · exact isFold_insertMany ..
  | traceName pid name =>
    refine Or.inl ?_
    unfold outcome traceName
    dsimp only
    split
    · rfl
    · exact isFold_insertMany ..
  | execute command => exact Or.inl (t.isFold_commandOutcome command)
  | control code arg =>
    refine Or.inl ?_
    unfold outcome
    dsimp only
    cases Command.ofCode? code arg with
    | none => rfl
    | some command => exact t.isFold_commandOutcome command
  | reset mode | snapshot => exact Or.inl rfl

/-! ### What a word has absorbed -/

/-- The action folds a return into the word `i`. -/
def foldsInto (t : Tracer P) (a : Action) (i : Nat) : Bool :=
  match t.outcome a with
  | .merged _ j => j == i
  | _ => false

/-- The returns that were folded into the word `i` since it was changed in another way, once an action is done. The
latest return comes first. -/
def absorb (t : Tracer P) (a : Action) (i : Nat) (rets : List UInt64) : List UInt64 :=
  if t.foldsInto a i then t.stamped a ++ rets
  else if (t.perform a).2.arena.word i = t.arena.word i then rets
  else []

/-- The returns that were folded into the word `i`, once some actions are done. -/
def absorbAll (i : Nat) : (t : Tracer P) → (rets : List UInt64) → (calls : List (P × Action)) → List UInt64
  | _, rets, [] => rets
  | t, rets, call :: calls =>
    absorbAll i ((t.at call.1).perform call.2).2 ((t.at call.1).absorb call.2 i rets) calls

theorem absorbAll_cons (platform : P) (calls : List (P × Action)) : t.absorbAll i rets ((platform, a) :: calls) =
    ((t.at platform).perform a).2.absorbAll i ((t.at platform).absorb a i rets) calls := rfl

theorem foldsInto_iff : t.foldsInto a i = true ↔ ∃ cpu, t.outcome a = .merged cpu i := by
  unfold foldsInto
  cases t.outcome a <;> simp

theorem absorb_of_merged (h : t.outcome a = .merged c i) (rets : List UInt64) :
    t.absorb a i rets = t.stamped a ++ rets := if_pos (foldsInto_iff.mpr ⟨c, h⟩)

/-- Returns bring no elapsed time unless they are inserted with it. -/
theorem delta_of_absorb (hrets : ∀ ret ∈ rets, deltaField.get ret = 0)
    (ha : ∀ ret, a = .insertReturn ret → deltaField.get ret = 0) :
    ∀ ret ∈ t.absorb a i rets, deltaField.get ret = 0 := by
  unfold absorb
  split
  · rename_i hfolds
    obtain ⟨cpu, hm⟩ := foldsInto_iff.mp hfolds
    refine List.forall_mem_append.mpr ⟨?_, hrets⟩
    obtain hnone | ⟨ret, rfl⟩ | ⟨event, arg, rfl⟩ := t.isFold_outcome a
    · rw [hm] at hnone
      cases hnone
    · refine List.forall_mem_singleton.mpr ?_
      rw [get_stamp (by decide)]
      exact ha ret rfl
    · obtain ⟨-, w, hfolds⟩ := exists_folds hm
      rw [stamped_traceEvent]
      refine List.forall_mem_singleton.mpr ?_
      unfold observe eventWord
      rw [hfolds.foldable, hfolds.fits, get_stamp (by decide)]
      exact delta_returnWord ..
  · split
    · exact hrets
    · exact List.forall_mem_nil _

end Tracer

/-- A word is what it was changed to with the returns folded into it that were absorbed since. -/
theorem History.absorb (h : History t log) (a : Action) (hx : ∃ x, mergeAll? x rets = some (t.arena.word i)) :
    ∃ x, mergeAll? x (t.absorb a i rets) = some ((t.perform a).2.arena.word i) := by
  unfold Tracer.absorb
  split
  · rename_i hfolds
    obtain ⟨cpu, hm⟩ := Tracer.foldsInto_iff.mp hfolds
    obtain ⟨-, ret, w, -, -, -, hret, hw, hlimit, hwords⟩ := h.fold_word hm
    obtain ⟨x, hx⟩ := hx
    refine ⟨x, ?_⟩
    rw [hret, hwords i hlimit, if_pos rfl]
    exact mergeAll?_cons_iff.mpr ⟨_, hx, hw⟩
  · split
    · rename_i hsame
      rw [hsame]
      exact hx
    · exact ⟨_, rfl⟩

theorem History.absorbAll (h : History t log) (calls : List (P × Action))
    (hx : ∃ x, mergeAll? x rets = some (t.arena.word i)) :
    ∃ x, mergeAll? x (t.absorbAll i rets calls) = some ((Tracer.enterAll (t, log) calls).1.arena.word i) := by
  induction calls generalizing t log rets with
  | nil => exact hx
  | cons call calls ih => exact ih (h.act_at call.1 call.2) ((h.at call.1).absorb call.2 hx)

theorem Tracer.delta_of_absorbAll {calls : List (P × Action)} (hrets : ∀ ret ∈ rets, deltaField.get ret = 0)
    (hcalls : ∀ call ∈ calls, ∀ ret, call.2 = .insertReturn ret → deltaField.get ret = 0) :
    ∀ ret ∈ t.absorbAll i rets calls, deltaField.get ret = 0 := by
  induction calls generalizing t rets with
  | nil => exact hrets
  | cons call calls ih =>
    obtain ⟨hcall, hcalls⟩ := List.forall_mem_cons.mp hcalls
    exact ih (delta_of_absorb hrets hcall) hcalls

/-- A return is folded into a word that has the same elapsed time and the same return value as the return, none or some,
and so a merged word takes another return that comes with what it holds. In every run a word is what it was changed to
with some returns folded into it, of which all but the first bring elapsed time; there is one of them at most unless a
return is inserted with elapsed time. -/
theorem refolds_bring_elapsed_time (h : History t log) :
    (∀ call ret, (merge? call ret).isSome = true →
      deltaField.get call = deltaField.get ret ∧ retvalField.get call = retvalField.get ret) ∧
    (∀ call ret m ret', merge? call ret = some m → deltaField.get m ≠ 0 ∧ ((merge? m ret').isSome = true ↔
      eventField.get ret' = eventField.get ret ∧ deltaField.get ret' = deltaField.get m ∧
        retvalField.get ret' = retvalField.get m ∧ fitsByte (signedArg ret') = true ∧
        (elapsed call ret').toNat < 2 ^ 8)) ∧
    ∀ (calls : List (P × Action)) (i : Nat),
      (∃ x, mergeAll? x (t.absorbAll i [] calls) = some ((Tracer.enterAll (t, log) calls).1.arena.word i)) ∧
      (∀ ret ∈ (t.absorbAll i [] calls).dropLast, deltaField.get ret ≠ 0) ∧
      ((∀ call ∈ calls, ∀ ret, call.2 = .insertReturn ret → deltaField.get ret = 0) →
        (t.absorbAll i [] calls).length ≤ 1) := by
  refine ⟨fun call ret hsome => ?_, fun call ret m ret' hm => ⟨(folded_of_merge? hm).delta_ne_zero, refolds_iff hm⟩, ?_⟩
  · have hpairs := merge?_isSome_iff.mp hsome
    exact ⟨hpairs.delta, hpairs.retval⟩
  · intro calls i
    have hbase : ∃ x, mergeAll? x [] = some (t.arena.word i) := ⟨_, rfl⟩
    obtain ⟨x, hx⟩ := h.absorbAll calls hbase
    have hlater := delta_of_mem_dropLast hx
    refine ⟨⟨x, hx⟩, hlater, fun hcalls => ?_⟩
    have hplain := Tracer.delta_of_absorbAll (t := t) (i := i) (List.forall_mem_nil _) hcalls
    have hnone : (t.absorbAll i [] calls).dropLast = [] :=
      List.eq_nil_iff_forall_not_mem.mpr fun ret hret => hlater ret hret (hplain ret (List.mem_of_mem_dropLast hret))
    have hlength := congrArg List.length hnone
    rw [List.length_dropLast, List.length_nil] at hlength
    omega

/-- The return of a hook does not find room in a word that absorbed one. -/
theorem refolds_bring_elapsed_time_of_hooks :
    ∃ (t : Tracer Simulated) (log : Ledger), History t log ∧ log.map (·.words) = [[0x0001080100000005]] ∧
      (t.absorbAll 8204 [] [({ time := 18 }, .traceEvent 0xa01 3), ({ time := 20 }, .traceEvent 0xa01 3)]).length ≤ 1 ∧
      merge? 0x0001080100000005 0x00012a0100000003 = some 0x0001080102030005 ∧
      (merge? 0x0001080102030005 0x00014a0100000003).isSome = false := by
  have hnew : History _ [] := .new (show Tracer.ofConfig ({} : Simulated) { blocks := 2 } = .ok _ from rfl)
  have hrun := (hnew.act_at {} (.execute .on)).act_at { time := 16 } (.traceEvent 0x801 5)
  obtain ⟨-, hagain, hruns⟩ := refolds_bring_elapsed_time hrun
  have hmerge : merge? 0x0001080100000005 0x00012a0100000003 = some 0x0001080102030005 := by decide
  refine ⟨_, _, hrun, by decide +kernel, (hruns _ 8204).2.2 fun call hcall ret hret => ?_, hmerge, ?_⟩
  · rcases List.mem_pair.mp hcall with rfl | rfl <;> cases hret
  · rw [Bool.eq_false_iff, Ne, (hagain _ _ _ _ hmerge).2]
    decide

/-- A run goes on with a return that the last word of the latest record of its CPU absorbs. -/
theorem History.absorb_return {g : Grant} {w : UInt64} (h : History t log) (platform : P) (ret : UInt64)
    (hspent : Spent 0 log)
    (hc : (t.at platform).readTime.2.currentCpu = c) (hg : latest? c log = some g) (hx : g.words.getLast? = some x)
    (hroom : (t.cursor c).hasRoom = true) (hi : (t.cursor c).next - 1 = i)
    (hw : merge? x (stamp ret (t.at platform).readTime.1) = some w) :
    History ({ (t.at platform).readTime.2 with arena := t.arena.setWord i w }.noteReturnRate c i
        (t.at platform).readTime.1) (log.amendLatest c w) ∧
      ∀ rets calls, t.absorbAll i rets ((platform, .insertReturn ret) :: calls) =
        ({ (t.at platform).readTime.2 with arena := t.arena.setWord i w }.noteReturnRate c i
          (t.at platform).readTime.1).absorbAll i (stamp ret (t.at platform).readTime.1 :: rets) calls := by
  obtain ⟨hinsert, henter⟩ := (h.at platform).return_folds ret hspent hc hg hx hroom hi hw
  have hstate : ((t.at platform).perform (.insertReturn ret)).2 = ((t.at platform).insertReturn ret).2 := rfl
  have hact := h.act_at platform (.insertReturn ret)
  rw [hstate, hinsert, henter] at hact
  refine ⟨hact, fun rets calls => ?_⟩
  have hout : (t.at platform).outcome (.insertReturn ret) = .merged c i := congrArg Prod.fst hinsert
  have habsorb : (t.at platform).absorb (.insertReturn ret) i rets = stamp ret (t.at platform).readTime.1 :: rets :=
    Tracer.absorb_of_merged hout rets
  rw [Tracer.absorbAll_cons, habsorb, hstate, hinsert]
  rfl

/-- Two returns are inserted one after the other, and one word absorbs both, for the second one comes with the elapsed
time of the first. -/
theorem word_absorbs_two_returns :
    ∃ (t : Tracer Simulated) (log : Ledger), History t log ∧
      t.absorbAll 8204 [] [({ time := 18 }, .insertReturn 0x00000a0100000000),
        ({ time := 20 }, .insertReturn 0x00000a0102000000)] = [0x00014a0102000000, 0x00012a0100000000] ∧
      merge? 0x0001080100000000 0x00012a0100000000 = some 0x0001080102000000 ∧
      merge? 0x0001080102000000 0x00014a0102000000 = some 0x0001080106000000 := by
  have hnew : History _ [] := .new (show Tracer.ofConfig ({} : Simulated) { blocks := 2 } = .ok _ from rfl)
  have hcall := hnew.act_at { time := 16 } (.insert 0x0000080100000000 [])
  obtain ⟨hfolded, hfirst⟩ := hcall.absorb_return (c := 0) (i := 8204) (x := 0x0001080100000000) (w := 0x0001080102000000)
    (g := ⟨0, ⟨8204, 1⟩, 0, true, 0, [0x0001080100000000]⟩) { time := 18 } 0x00000a0100000000
    (by decide +kernel) rfl (by decide +kernel) rfl (by decide +kernel) (by decide +kernel) (by decide +kernel)
  obtain ⟨-, hsecond⟩ := hfolded.absorb_return (c := 0) (i := 8204) (x := 0x0001080102000000) (w := 0x0001080106000000)
    (g := ⟨0, ⟨8204, 1⟩, 0, true, 0, [0x0001080102000000]⟩) { time := 20 } 0x00000a0102000000
    (by decide +kernel) rfl (by decide +kernel) rfl (by decide +kernel) (by decide +kernel) (by decide +kernel)
  exact ⟨_, _, hcall, (hfirst [] _).trans ((hsecond _ []).trans (by decide +kernel)), by decide, by decide⟩

end EventRecorder
