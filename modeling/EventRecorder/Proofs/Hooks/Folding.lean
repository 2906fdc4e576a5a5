import EventRecorder.Platform.TimeOnly
import EventRecorder.Proofs.Hooks.Events

/-! # Where returns are folded

A return is folded into the word just before the place of its CPU. This is the last word of the latest
record of the CPU: the call if the record has one word, and a payload word otherwise. All other words of
the log stay as they were written. -/

namespace EventRecorder

open Ledger LogView Arena

variable {P : Type} [Platform P] {t : Tracer P} {log : Ledger} {event arg x : UInt64} {c i k : Nat} {g : Grant}
  {v : LogView}

/-! ### The word that absorbs a return -/

theorem Tracer.word_noteReturnRate {j n : Nat} {now : UInt64} (h : t.mode.rates = true → j ≠ n / 8) :
    (t.noteReturnRate c n now).arena.word j = t.arena.word j := by
  unfold noteReturnRate
  split
  · rename_i hrates
    have harena := (t.measureRate_spec c now).2.1
    generalize t.measureRate c now = r at harena ⊢
    obtain ⟨rate, u⟩ := r
    exact (word_setWord_of_ne _ (Ne.symm (h hrates))).trans (congrArg (Arena.word · j) harena)
  · rfl

theorem Tracer.word_noteRate {j n : Nat} {now : UInt64} (h : t.mode.rates = true → j ≠ n / 8) :
    (t.noteRate c n now).arena.word j = t.arena.word j := by
  unfold noteRate
  split
  · rename_i hrates
    exact word_setWord_of_ne _ (Ne.symm (h hrates))
  · rfl

/-! ### The words that stay -/

/-- The grant without its last word. -/
def Grant.withoutLast (g : Grant) : Grant := { g with words := g.words.dropLast }

@[simp] theorem Grant.withoutLast_amend (g : Grant) (w : UInt64) : (g.amend w).withoutLast = g.withoutLast := by
  unfold Grant.withoutLast Grant.amend
  dsimp only
  rw [List.dropLast_eq_take, List.dropLast_eq_take, List.length_set, List.take_set_of_le (Nat.le_refl _)]

namespace Ledger

/-- A new grant lies on the old ones of its block unless the block was opened for it. -/
theorem sinceOpened_suffix_cons (h : openingsOf k (g :: log) ≤ openingsOf k log) :
    sinceOpened k log <:+ sinceOpened k (g :: log) := by
  by_cases hk : g.block = k
  · cases hf : g.fresh
    · rw [sinceOpened_of_not_fresh hk hf]
      exact List.suffix_cons ..
    · exact absurd hk (ne_of_openingsOf_le hf h)
  · rw [sinceOpened_of_ne hk]

/-- Amending changes last words only. -/
theorem withoutLast_sinceOpened_amendLatest (c k : Nat) (w : UInt64) (log : Ledger) :
    (sinceOpened k (amendLatest c w log)).map Grant.withoutLast = (sinceOpened k log).map Grant.withoutLast := by
  -- whether a grant is listed depends on its block and on whether it is fresh, which amending keeps
  have hcons : ∀ {g g' : Grant} {l l' : Ledger}, g'.bare = g.bare → g'.withoutLast = g.withoutLast →
      (sinceOpened k l').map Grant.withoutLast = (sinceOpened k l).map Grant.withoutLast →
      (sinceOpened k (g' :: l')).map Grant.withoutLast = (sinceOpened k (g :: l)).map Grant.withoutLast := by
    intro g g' l l' hbare hg hl
    have hblock : g'.block = g.block := (congrArg Grant.block hbare :)
    have hfresh : g'.fresh = g.fresh := (congrArg Grant.fresh hbare :)
    unfold sinceOpened
    rw [hblock, hfresh]
    split
    · split
      · rw [List.map_singleton, List.map_singleton, hg]
      · rw [List.map_cons, List.map_cons, hg, hl]
    · exact hl
  induction log with
  | nil => rfl
  | cons g log ih =>
    unfold amendLatest
    split
    · exact hcons rfl (Grant.withoutLast_amend g w) rfl
    · exact hcons rfl rfl ih

end Ledger

/-- While a block is not opened again, its grants keep their words but for the last ones. -/
theorem LogView.book_keeps {o : Outcome} {words : List UInt64}
    (h : openingsOf k (v.book o words log) ≤ openingsOf k log) :
    (sinceOpened k log).map Grant.withoutLast <:+ (sinceOpened k (v.book o words log)).map Grant.withoutLast := by
  cases o with
  | dropped => exact List.suffix_refl _
  | written cpu s => exact (sinceOpened_suffix_cons h).map _
  | merged cpu i =>
    unfold book
    dsimp only
    rw [withoutLast_sinceOpened_amendLatest]

theorem LogView.openingsOf_le_book (v : LogView) (o : Outcome) (words : List UInt64) (log : Ledger) (k : Nat) :
    openingsOf k log ≤ openingsOf k (v.book o words log) := by
  cases o with
  | dropped => exact Nat.le_refl _
  | written cpu s => exact openingsOf_le_cons ..
  | merged cpu i => exact Nat.le_of_eq (openingsOf_amendLatest ..).symm

section History

/-- A fold changes the last word of the latest record of its CPU, and no other word of the log, whatever the action. -/
theorem History.fold_word {a : Action} (h : History t log) (hm : t.outcome a = .merged c i) :
    ∃ g ret w, latest? c log = some g ∧ i + 1 = g.span.stop ∧ (i = g.span.start ↔ g.span.len = 1) ∧
      t.stamped a = [ret] ∧ Head.merge? (t.arena.word i) ret = some w ∧ t.arena.limit ≤ i ∧
      ∀ j, t.arena.limit ≤ j → (t.perform a).2.arena.word j = if j = i then w else t.arena.word j := by
  have hgoes : (a.isReset && !t.tracing) = false := by
    cases hreset : a.isReset
    · rfl
    · rw [Tracer.outcome_of_isReset hreset] at hm
      cases hm
  have heffect := t.perform_effect hgoes
  rw [hm] at heffect
  generalize t.namedBy a = names at heffect
  generalize t.stamped a = ws at heffect ⊢
  generalize (t.perform a).2 = u at heffect ⊢
  cases heffect with
  | @fold s ret w _ hakin _ hmerge =>
    obtain ⟨hroom, hi, hw⟩ := Tracer.merged?_eq_some_iff.mp hmerge
    rw [hakin.cursor] at hroom hi
    rw [hakin.arena] at hw
    generalize s.currentCpu = c at hroom hi
    -- the CPU has room, so it stands right behind its latest grant
    obtain ⟨g, hg, hnext, hin⟩ := h.placed.written_of_hasRoom hroom
    have hlen := hin.len
    have hlimit := h.placed.opened.limit_le_blockStart hin.block
    have hrecord := t.arena.blockStart_lt_recordStart g.block
    have hstart := hin.start
    have hstop : i < (t.cursor c).limit := by
      have := Cursor.hasRoom_iff.mp hroom
      omega
    have hhigh : i < t.arena.high := Nat.lt_of_lt_of_le hstop (h.placed.limit_le_high c)
    replace hnext : (t.cursor c).next = g.span.start + g.span.len := hnext
    change t.arena.limit ≤ t.arena.blockStart g.block at hlimit
    change t.arena.recordStart g.block ≤ g.span.start at hstart
    refine ⟨g, ret, w, hg, ?_, ?_, rfl, hw, ?_, fun j hj => ?_⟩
    · unfold Span.stop
      omega
    · omega
    · omega
    · rw [Tracer.word_noteReturnRate, word_setWord, hakin.arena]
      · grind
      · intro hrates
        have hbelow := h.placed.rate_lt_limit (hakin.mode ▸ hrates) hstop
        exact Nat.ne_of_gt (Nat.lt_of_lt_of_le hbelow hj)

theorem History.fold_site (h : History t log) (hm : (t.traceEvent event arg).1 = .merged c i) :
    ∃ g w, latest? c log = some g ∧ i + 1 = g.span.stop ∧ (i = g.span.start ↔ g.span.len = 1) ∧
      Head.merge? (t.arena.word i) (t.observe event arg).word = some w ∧
      ∀ j, t.arena.limit ≤ j → (t.traceEvent event arg).2.arena.word j = if j = i then w else t.arena.word j := by
  obtain ⟨g, ret, w, hg, hstop, hstart, hret, hw, -, hwords⟩ := h.fold_word (a := .traceEvent event arg) hm
  rw [Tracer.stamped_traceEvent] at hret
  obtain rfl := List.singleton_inj.mp hret
  exact ⟨g, w, hg, hstop, hstart, hw, hwords⟩

theorem History.folds (h : History t log) (event arg : UInt64) {w : UInt64} (hspent : Spent 0 log)
    (hg : latest? (t.observe event arg).cpu log = some g) (hx : g.words.getLast? = some x) (htracing : t.tracing = true)
    (hfoldable : Event.isFoldableReturn event = true) (hfits : Head.fitsByte arg.toInt64 = true)
    (hroom : (t.cursor (t.observe event arg).cpu).hasRoom = true)
    (hi : (t.cursor (t.observe event arg).cpu).next - 1 = i) (hw : Head.merge? x (t.observe event arg).word = some w) :
    t.Folds event arg i w ∧ t.arena.word i = x := by
  have hword := h.word_of_latest hspent hroom hg hx hi
  exact ⟨⟨htracing, hfoldable, hfits, hroom, hi.symm, hword.symm ▸ hw⟩, hword⟩

/-- A return that is inserted is folded into the last word of the latest record of its CPU if this word takes it. -/
theorem History.return_folds (h : History t log) (ret : UInt64) {w : UInt64} (hspent : Spent 0 log)
    (hc : t.readTime.2.currentCpu = c) (hg : latest? c log = some g) (hx : g.words.getLast? = some x)
    (hroom : (t.cursor c).hasRoom = true) (hi : (t.cursor c).next - 1 = i)
    (hw : Head.merge? x (Head.stamp ret t.readTime.1) = some w) :
    t.insertReturn ret = (.merged c i,
      { t.readTime.2 with arena := t.arena.setWord i w }.noteReturnRate c i t.readTime.1) ∧
    t.enter (.insertReturn ret) log = log.amendLatest c w := by
  subst hc
  have hword := h.word_of_latest hspent hroom hg hx hi
  have hinsert := Tracer.insertReturn_of_some (Tracer.merged?_eq_some_iff.mpr ⟨hroom, hi.symm, hword.symm ▸ hw⟩)
  have hmerge : Head.merge? (t.view.arena.word i) (Head.stamp ret t.readTime.1) = some w := hword.symm ▸ hw
  refine ⟨hinsert, ?_⟩
  change t.view.book (t.insertReturn ret).1 [Head.stamp ret t.readTime.1] log = _
  rw [hinsert, LogView.book, List.headD_cons, hmerge, Option.getD_some]

/-- A return is folded just when the last word of the latest record of its CPU takes it, however many words the
record has. -/
theorem History.merged_iff (h : History t log) (hspent : Spent 0 log)
    (hg : latest? (t.observe event arg).cpu log = some g) (hx : g.words.getLast? = some x) :
    (∃ i, (t.traceEvent event arg).1 = .merged (t.observe event arg).cpu i) ↔
      t.tracing = true ∧ Event.isFoldableReturn event = true ∧ Head.fitsByte arg.toInt64 = true ∧
        (t.cursor (t.observe event arg).cpu).hasRoom = true ∧
        (Head.merge? x (t.observe event arg).word).isSome = true := by
  constructor
  · rintro ⟨i, hm⟩
    obtain ⟨-, w, hfolds⟩ := Tracer.exists_folds hm
    have hmerge := hfolds.merge
    rw [hfolds.place, h.word_of_latest hspent hfolds.room hg hx rfl] at hmerge
    exact ⟨hfolds.tracing, hfolds.foldable, hfolds.fits, hfolds.room, Option.isSome_iff_exists.mpr ⟨w, hmerge⟩⟩
  · rintro ⟨htracing, hfoldable, hfits, hroom, hmerge⟩
    obtain ⟨w, hw⟩ := Option.isSome_iff_exists.mp hmerge
    obtain ⟨hfolds, -⟩ := h.folds event arg hspent hg hx htracing hfoldable hfits hroom rfl hw
    exact ⟨_, congrArg Prod.fst hfolds.traceEvent⟩

/-- While a block is not opened again, its records keep their words but for the last ones, through any actions of
the session. -/
theorem History.keeps (h : History t log) {calls : List (P × Action)} (hcalls : ∀ call ∈ calls, call.2.isReset = false)
    {u : Tracer P} {log' : Ledger} (hu : Tracer.enterAll (t, log) calls = (u, log')) :
    openingsOf k log ≤ openingsOf k log' ∧ (openingsOf k log' ≤ openingsOf k log →
      (sinceOpened k log).map Grant.withoutLast <:+ (sinceOpened k log').map Grant.withoutLast) := by
  induction calls generalizing t log with
  | nil =>
    obtain ⟨-, rfl⟩ := Prod.mk.inj hu
    exact ⟨Nat.le_refl _, fun _ => List.suffix_refl _⟩
  | cons call calls ih =>
    obtain ⟨hcall, hcalls⟩ := List.forall_mem_cons.mp hcalls
    obtain ⟨hle, hkeeps⟩ := ih (h.act_at call.1 call.2) hcalls hu
    rw [Tracer.enter_eq_book (by rw [hcall]; rfl)] at hle hkeeps
    have hfirst := LogView.openingsOf_le_book (t.at call.1).view ((t.at call.1).outcome call.2)
      ((t.at call.1).stamped call.2) log k
    -- openings are never taken back, so a block that no call opens is not opened by the first one
    refine ⟨Nat.le_trans hfirst hle, fun hsame => ?_⟩
    exact (LogView.book_keeps (Nat.le_trans hle hsame)).trans (hkeeps (Nat.le_trans hsame hfirst))

/-- A return is folded into the last word of the latest record of its CPU, which is the first word of the record just
when the record has but one. This happens whenever that word takes the return, however many words the record has. All
other words of the records stay as long as their blocks are not opened again. -/
theorem folds_into_last_word (h : History t log) :
    (∀ (event arg : UInt64) (c i : Nat), (t.traceEvent event arg).1 = .merged c i →
      ∃ g w, latest? c log = some g ∧ i + 1 = g.span.stop ∧ (i = g.span.start ↔ g.span.len = 1) ∧
        Head.merge? (t.arena.word i) (t.observe event arg).word = some w ∧
        ∀ j, t.arena.limit ≤ j → (t.traceEvent event arg).2.arena.word j = if j = i then w else t.arena.word j) ∧
    (Spent 0 log → ∀ (event arg x : UInt64) (g : Grant), latest? (t.observe event arg).cpu log = some g →
      g.words.getLast? = some x →
      ((∃ i, (t.traceEvent event arg).1 = .merged (t.observe event arg).cpu i) ↔
        t.tracing = true ∧ Event.isFoldableReturn event = true ∧ Head.fitsByte arg.toInt64 = true ∧
          (t.cursor (t.observe event arg).cpu).hasRoom = true ∧
          (Head.merge? x (t.observe event arg).word).isSome = true)) ∧
    ∀ (calls : List (P × Action)) (u : Tracer P) (log' : Ledger) (k : Nat),
      (∀ call ∈ calls, call.2.isReset = false) → Tracer.enterAll (t, log) calls = (u, log') →
      openingsOf k log' ≤ openingsOf k log →
      (sinceOpened k log).map Grant.withoutLast <:+ (sinceOpened k log').map Grant.withoutLast ∧
        (Spent 0 log' → ∀ g ∈ sinceOpened k log', g.HeldIn u.arena) := by
  refine ⟨fun _ _ _ _ => h.fold_site, fun hspent _ _ _ _ => h.merged_iff hspent, ?_⟩
  intro calls u log' k hcalls hu hopened
  have hlater := h.enterAll calls
  rw [hu] at hlater
  exact ⟨(h.keeps hcalls hu).2 hopened, fun hspent => (hlater.holds hspent).held k⟩

end History

/-- A call is traced; its return is folded into it, and a sampled program counter would lie behind it. -/
theorem folds_into_last_word_of_call :
    ∃ (t : Tracer TimeOnly) (log : Ledger), History t log ∧
      latest? 0 log = some ⟨0, ⟨8204, 1⟩, 0, true, 0, [0x0000080100000005]⟩ ∧
      (∃ i, (t.traceEvent 0xa01 3).1 = .merged 0 i ∧
        ∃ g w, latest? 0 log = some g ∧ i + 1 = g.span.stop ∧ (i = g.span.start ↔ g.span.len = 1) ∧
          Head.merge? (t.arena.word i) (t.observe 0xa01 3).word = some w ∧
          ∀ j, t.arena.limit ≤ j → (t.traceEvent 0xa01 3).2.arena.word j = if j = i then w else t.arena.word j) ∧
      ∃ (u : Tracer TimeOnly) (log' : Ledger),
        Tracer.enterAll (t, log) [({}, .traceSample 0x120 7), ({}, .execute .flush)] = (u, log') ∧
        (sinceOpened 0 log').map (·.words) = [[0x0000012000000000, 7], [0x0000080100000005]] ∧
        (sinceOpened 0 log).map Grant.withoutLast <:+ (sinceOpened 0 log').map Grant.withoutLast ∧
        ∀ g ∈ sinceOpened 0 log', g.HeldIn u.arena := by
  have hnew : History _ [] := .new (show Tracer.ofConfig ({} : TimeOnly) { blocks := 2 } = .ok _ from rfl)
  have hrun := (hnew.act_at {} (.execute .on)).act_at {} (.traceEvent 0x801 5)
  obtain ⟨hsite, hmerged, hkeeps⟩ := folds_into_last_word hrun
  obtain ⟨i, hi⟩ := (hmerged (by decide +kernel) 0xa01 3 0x0000080100000005
    ⟨0, ⟨8204, 1⟩, 0, true, 0, [0x0000080100000005]⟩ (by decide +kernel) rfl).mpr
    ⟨by decide +kernel, by decide, by decide, by decide +kernel, by decide +kernel⟩
  obtain ⟨hkept, hheld⟩ := hkeeps [({}, .traceSample 0x120 7), ({}, .execute .flush)] _ _ 0
    (fun call hcall => by revert call; decide) rfl (by decide +kernel)
  exact ⟨_, _, hrun, by decide +kernel, ⟨i, hi, hsite 0xa01 3 0 i hi⟩, _, _, rfl, by decide +kernel, hkept,
    hheld (by decide +kernel)⟩

/-- A sampled program counter reads as a call, and the return that follows changes it. -/
theorem fold_changes_payload :
    ∃ (s t : Tracer TimeOnly) (log : Ledger), Tracer.ofConfig {} { blocks := 2 } = .ok s ∧
      Tracer.enterAll (s, []) [({}, .execute .on), ({}, .traceSample 0x120 0x0000080100000000)] = (t, log) ∧
      latest? 0 log = some ⟨0, ⟨8204, 2⟩, 0, true, 0, [0x0000012000000000, 0x0000080100000000]⟩ ∧
      (t.traceEvent 0xa01 0).1 = .merged 0 8205 ∧ t.arena.word 8205 = 0x0000080100000000 ∧
      (t.traceEvent 0xa01 0).2.arena.word 8205 = 0x0000080101000000 := by
  have hnew : History _ [] := .new (show Tracer.ofConfig ({} : TimeOnly) { blocks := 2 } = .ok _ from rfl)
  have hrun := hnew.enterAll [({}, .execute .on), ({}, .traceSample 0x120 0x0000080100000000)]
  obtain ⟨hfolds, hword⟩ := hrun.folds 0xa01 0 (i := 8205) (x := 0x0000080100000000)
    (w := 0x0000080101000000) (g := ⟨0, ⟨8204, 2⟩, 0, true, 0, [0x0000012000000000, 0x0000080100000000]⟩)
    (by decide +kernel) (by decide +kernel) rfl (by decide +kernel) (by decide) (by decide) (by decide +kernel)
    (by decide +kernel) (by decide +kernel)
  have hmerged := congrArg Prod.fst hfolds.traceEvent
  obtain ⟨g, w, -, -, -, hmerge, hwords⟩ := hrun.fold_site hmerged
  obtain rfl := Option.some.inj (hmerge.symm.trans hfolds.merge)
  refine ⟨_, _, _, ?_, Prod.mk.eta.symm, ?_, hmerged.trans ?_, hword, (hwords 8205 ?_).trans (if_pos rfl)⟩
  · rfl
  all_goals decide +kernel

end EventRecorder
