import EventRecorder.Proofs.Ledger.Step

/-! # Flushes, claims and rates as steps

Each function of a tracer that changes the arena or the place of a CPU comes down to elementary steps. -/

namespace EventRecorder

open LogView (Stayed Moved)

variable {P : Type} {t u : Tracer P} {log : Ledger} {cpu len : Nat}
  {r : Option Span × Tracer P}

theorem isValidLength_iff : Event.isValidLength len = true ↔ 0 < len ∧ len ≤ 8 := by
  unfold Event.isValidLength Event.maxRecordWords
  rw [Bool.and_eq_true, decide_eq_true_iff, decide_eq_true_iff]
  exact Iff.rfl

namespace Tracer

/-! ### Turning tracing on and off, and flushing -/

theorem off_same (t : Tracer P) : t.off.config = t.config ∧ t.off.mode = t.mode ∧ t.off.view = t.view := by
  unfold off
  split <;> exact ⟨rfl, rfl, rfl⟩

theorem off_leads (t : Tracer P) (log : Ledger) : Leads t log t.off log :=
  .of_view t.off_same.1 t.off_same.2.1 t.off_same.2.2

theorem flushCpu_leads (t : Tracer P) (log : Ledger) (hcpu : cpu < t.cursors.size) :
    Leads t log (t.flushCpu cpu) log ∧ (t.flushCpu cpu).cursors.size = t.cursors.size := by
  unfold flushCpu
  dsimp only
  split
  · rename_i hroom
    have hmoved := moved_modifyCursor (t := t.closeBlock (t.cursor cpu).limit (t.cursor cpu).next)
      (f := ({ · with next := (t.cursor cpu).limit })) hcpu
    exact ⟨.of_step rfl rfl (.flush hcpu hroom rfl (Moved.of_cursors hmoved rfl rfl)), hmoved.cpus⟩
  · exact ⟨.refl, rfl⟩

theorem flushAll_leads (cpus : List Nat) (t : Tracer P) (log : Ledger) (h : ∀ cpu ∈ cpus, cpu < t.cursors.size) :
    Leads t log (cpus.foldl flushCpu t) log := by
  induction cpus generalizing t with
  | nil => exact .refl
  | cons cpu cpus ih =>
    obtain ⟨hlead, hsize⟩ := flushCpu_leads t log (h cpu List.mem_cons_self)
    exact hlead.trans (ih _ fun c hc => hsize ▸ h c (List.mem_cons_of_mem _ hc))

theorem flush_leads (t : Tracer P) (log : Ledger) : Leads t log t.flush.2 log := by
  refine (off_leads t log).trans ((flushAll_leads (List.range t.off.cursors.size) t.off log fun c hc => ?_).trans ?_)
  · exact List.mem_range.mp hc
  · exact .of_view rfl rfl rfl

/-! ### Claims -/

/-- What a claim leads to: a refusal is a step of its own, and a claim granted moves the CPU behind it and is
entered together with what is then written to its words. -/
def Grants (t : Tracer P) (log : Ledger) (cpu len : Nat) : Option Span × Tracer P → Prop
  | (none, u) => Leads t log u log
  | (some s, u) => s.len = len ∧ (∃ l, Moved t.view u.view cpu s.stop l ∧ s.start < l) ∧
      ∀ ws : List UInt64, (ws = [] ∨ ws.length = len) →
        Leads t log { u with arena := u.arena.setWords s.start ws } (t.view.grant cpu s ws :: log)

/-- Leaving a block that a claim does not fit makes no difference to what is granted. -/
theorem Grants.of_leave {n l : Nat} (h : u.Grants log cpu len r) (hlead : Leads t log u log)
    (hmoved : Moved t.view u.view cpu n l) (hsame : t.arena.SameFrontier u.arena)
    (ht : (t.cursor cpu).fits len = false) (hu : (u.cursor cpu).fits len = false) : t.Grants log cpu len r := by
  obtain ⟨_ | s, v⟩ := r
  · exact hlead.trans h
  · obtain ⟨rfl, ⟨l', hmoved', hlt⟩, hwrite⟩ := h
    refine ⟨rfl, ⟨l', hmoved.trans hmoved', hlt⟩, fun ws hws => ?_⟩
    rw [← LogView.grant_of_moved hmoved hsame ht hu]
    exact hlead.trans (hwrite ws hws)

theorem verdict_same (l : Nat) (s : Span) :
    verdict l l s = if l = 0 then .retry else if l ≤ s.stop then .overflow else .accept := by
  simp [verdict]

/-- The tracer once a CPU has run over the end of its block, if it has one, with a claim of `len` words. The cursor
moves on twice if there is a block to close. -/
def overrun (t : Tracer P) (cpu len : Nat) : Tracer P :=
  let u := t.modifyCursor cpu fun c => { c with next := (t.cursor cpu).next + len }
  if (t.cursor cpu).limit = 0 then u
  else (u.closeBlock (t.cursor cpu).limit (t.cursor cpu).next).modifyCursor cpu fun c => { c with next := c.next + len }

theorem overrun_sameFrontier (t : Tracer P) (cpu len : Nat) : t.arena.SameFrontier (t.overrun cpu len).arena := by
  unfold overrun
  dsimp only
  split
  · exact .refl _
  · exact .close ..

/-- A claim that does not fit is short of one record at most. -/
theorem limit_le_of_not_fits {c : Cursor} (hlen : Event.isValidLength len = true) (hfits : c.fits len = false) :
    c.limit ≤ c.next + Event.maxRecordWords := by
  have hle := (isValidLength_iff.mp hlen).2
  have hover : ¬ c.next + len < c.limit := fun hlt => Bool.false_ne_true (hfits.symm.trans (Cursor.fits_iff.mpr hlt))
  unfold Event.maxRecordWords
  omega

theorem overrun_spec (hcpu : cpu < t.cursors.size) (hfits : (t.cursor cpu).fits len = false) :
    (t.overrun cpu len).config = t.config ∧ (t.overrun cpu len).mode = t.mode ∧
      (∃ n, (t.cursor cpu).limit ≤ n ∧ Moved t.view (t.overrun cpu len).view cpu n (t.cursor cpu).limit) ∧
      ((t.cursor cpu).limit = 0 ∧ (t.overrun cpu len).arena = t.arena ∨
        (t.cursor cpu).limit ≠ 0 ∧ (t.overrun cpu len).arena =
          t.arena.close (t.arena.blockOf ((t.cursor cpu).limit - 1))
            (min (t.cursor cpu).next (t.cursor cpu).limit)) := by
  have hover : (t.cursor cpu).limit ≤ (t.cursor cpu).next + len :=
    Nat.le_of_not_lt fun hlt => Bool.false_ne_true (hfits.symm.trans (Cursor.fits_iff.mpr hlt))
  have hmoved := moved_modifyCursor (t := t) (f := fun c => { c with next := (t.cursor cpu).next + len }) hcpu
  unfold overrun
  by_cases hunset : (t.cursor cpu).limit = 0
  · rw [if_pos hunset]
    exact ⟨rfl, rfl, ⟨_, hover, hmoved⟩, Or.inl ⟨hunset, rfl⟩⟩
  · rw [if_neg hunset]
    have hkeep : ∀ f : Cursor → Cursor, (t.modifyCursor cpu f).config = t.config ∧
        (t.modifyCursor cpu f).mode = t.mode ∧ (t.modifyCursor cpu f).arena = t.arena := fun _ => ⟨rfl, rfl, rfl⟩
    obtain ⟨hconfig, hmode, harena⟩ := hkeep fun c => { c with next := (t.cursor cpu).next + len }
    generalize t.modifyCursor cpu _ = u at hmoved hconfig hmode harena ⊢
    have hagain := moved_modifyCursor (t := u.closeBlock (t.cursor cpu).limit (t.cursor cpu).next)
      (f := fun c => { c with next := c.next + len }) (hmoved.cpus ▸ hcpu)
    have hboth : Moved t.view _ cpu ((u.cursor cpu).next + len) (u.cursor cpu).limit :=
      hmoved.trans (hagain.of_cursors rfl rfl)
    rw [show (u.cursor cpu).next = (t.cursor cpu).next + len from hmoved.next,
      show (u.cursor cpu).limit = (t.cursor cpu).limit from hmoved.limit] at hboth
    refine ⟨hconfig, hmode, ⟨_, Nat.le_trans hover (Nat.le_add_right _ len), hboth⟩, Or.inr ⟨hunset, ?_⟩⟩
    change u.arena.close (u.arena.blockOf _) _ = _
    rw [harena]

/-- A fold takes place where its CPU still has room. -/
theorem merged?_eq_some_iff {ret w : UInt64} {i : Nat} : t.merged? cpu ret = some (i, w) ↔
    (t.cursor cpu).hasRoom = true ∧ i = (t.cursor cpu).next - 1 ∧ Head.merge? (t.arena.word i) ret = some w := by
  unfold merged? priorIndex
  cases hroom : (t.cursor cpu).hasRoom
  · simp [hroom]
  · simp only [hroom, if_true, Option.bind_eq_bind, Option.bind_some, Option.bind_eq_some_iff]
    constructor
    · rintro ⟨x, hx, h⟩
      obtain ⟨rfl, rfl⟩ := Prod.mk.inj (Option.some.inj h)
      exact ⟨trivial, rfl, hx⟩
    · rintro ⟨-, rfl, hx⟩
      exact ⟨w, hx, rfl⟩

section Platform
variable [Platform P]

theorem stayed_prepareCounters (t : Tracer P) (cpu : Nat) :
    Stayed t.view (t.prepareCounters cpu).view ∧ (t.prepareCounters cpu).arena = t.arena ∧
      (t.prepareCounters cpu).config = t.config ∧ (t.prepareCounters cpu).mode = t.mode := by
  unfold prepareCounters
  split
  · exact ⟨.of_eq rfl, rfl, rfl, rfl⟩
  · refine ⟨?_, rfl, rfl, rfl⟩
    exact stayed_modifyCursor (t := { t with platform := Platform.setUpCounters t.platform cpu }) (fun _ => rfl)
      (fun _ => rfl)

/-- The header of a block that a CPU opens now. -/
def blockHeader (t : Tracer P) (cpu : Nat) : Header :=
  let (now, t) := t.readTime
  ⟨UInt8.ofNat cpu, (t.clock.stamp now (Platform.counterBits t.platform)).1, t.mode.flags, 0⟩

/-- The task of a block that is opened now. -/
def blockTask (t : Tracer P) : Task := Platform.currentTask t.readTime.2.platform

/-- The tracer once a block just opened is laid out. -/
def laidOut (t : Tracer P) (cpu : Nat) (o : Opening) : Tracer P :=
  let (now, u) := t.readTime
  { u with
    clock := (u.clock.stamp now (Platform.counterBits u.platform)).2
    arena := t.arena.layOut o (t.blockHeader cpu) t.blockTask }

/-- Marks a block that was laid out with a header as written to. -/
def markFilling (t : Tracer P) (header : Header) (cpu : Nat) (o : Opening) : Tracer P :=
  let block := t.arena.blockOf o.start
  { t with arena := t.arena.startFilling block }.report (.blockOpened block cpu header.timestamp)

theorem startBlock_eq (t : Tracer P) (cpu : Nat) (o : Opening) :
    t.startBlock cpu o = ((t.laidOut cpu o).prepareCounters cpu).markFilling (t.blockHeader cpu) cpu o := rfl

/-- A block just opened is laid out for its CPU and marked; no place changes. -/
theorem startBlock_spec (t : Tracer P) (cpu : Nat) (o : Opening) :
    (t.startBlock cpu o).arena =
        (t.arena.layOut o (t.blockHeader cpu) t.blockTask).startFilling (t.arena.blockOf o.start) ∧
      Stayed t.view (t.startBlock cpu o).view ∧ (t.startBlock cpu o).config = t.config ∧
      (t.startBlock cpu o).mode = t.mode := by
  obtain ⟨hstay, harena, hconfig, hmode⟩ := stayed_prepareCounters (t.laidOut cpu o) cpu
  have hlaid : Stayed t.view (t.laidOut cpu o).view := .of_eq rfl
  rw [startBlock_eq]
  generalize (t.laidOut cpu o).prepareCounters cpu = u at hstay harena hconfig hmode ⊢
  refine ⟨?_, hlaid.trans (hstay.trans (.of_eq rfl)), hconfig, hmode⟩
  unfold markFilling
  dsimp only
  rw [harena, ← Arena.blockOf_layOut t.arena o (t.blockHeader cpu) t.blockTask]
  rfl

/-- The tracer once a block is taken off the frontier. -/
def frontierMoved (t : Tracer P) (o : Opening) (a : Arena) : Tracer P :=
  if o.wrapped then { t with arena := a, named := .empty }.report .arenaWrapped else { t with arena := a }

omit [Platform P] in
theorem frontierMoved_same (t : Tracer P) (o : Opening) (a : Arena) :
    (t.frontierMoved o a).arena = a ∧ (t.frontierMoved o a).cursors = t.cursors ∧
      (t.frontierMoved o a).config = t.config ∧ (t.frontierMoved o a).mode = t.mode := by
  unfold frontierMoved
  split <;> exact ⟨rfl, rfl, rfl, rfl⟩

/-- The tracer once a CPU has opened a block and has claimed its first words for records. -/
def blockTaken (t : Tracer P) (cpu len : Nat) (o : Opening) (a : Arena) : Tracer P :=
  ((t.frontierMoved o a).startBlock cpu o).modifyCursor cpu
    ({ · with next := o.recordStart + len, limit := o.start + blockWords })

theorem claimFresh_of_openBlock {o : Opening} {a : Arena} (h : t.arena.openBlock t.mode.wraps = (some o, a)) :
    t.claimFresh cpu len = (some ⟨o.recordStart, len⟩, t.blockTaken cpu len o a) := by
  unfold claimFresh
  rw [h]
  rfl

theorem blockTaken_spec (t : Tracer P) (len : Nat) (o : Opening) (a : Arena) (hcpu : cpu < t.cursors.size) :
    (t.blockTaken cpu len o a).config = t.config ∧ (t.blockTaken cpu len o a).mode = t.mode ∧
      Moved t.view (t.blockTaken cpu len o a).view cpu (o.recordStart + len) (o.start + blockWords) ∧
      (t.blockTaken cpu len o a).arena =
        (a.layOut o ((t.frontierMoved o a).blockHeader cpu) (t.frontierMoved o a).blockTask).startFilling
          (a.blockOf o.start) := by
  obtain ⟨harena, hcursors, hconfig, hmode⟩ := t.frontierMoved_same o a
  unfold blockTaken
  generalize t.frontierMoved o a = s at harena hcursors hconfig hmode ⊢
  subst harena
  obtain ⟨harena, hstay, hconfig', hmode'⟩ := s.startBlock_spec cpu o
  have hsize : (s.startBlock cpu o).cursors.size = t.cursors.size := by
    have := hstay.cpus
    exact this.trans (congrArg Array.size hcursors)
  have hmoved := moved_modifyCursor (t := s.startBlock cpu o)
    (f := ({ · with next := o.recordStart + len, limit := o.start + blockWords })) (hsize ▸ hcpu)
  exact ⟨hconfig'.trans hconfig, hmode'.trans hmode,
    Moved.of_cursors (Moved.after_stayed hstay hmoved) hcursors.symm rfl, harena⟩

theorem claimFresh_grants (hlen : Event.isValidLength len = true) (hcpu : cpu < t.cursors.size)
    (hroom : (t.cursor cpu).hasRoom = false) : t.Grants log cpu len (t.claimFresh cpu len) := by
  rcases hopen : t.arena.openBlock t.mode.wraps with ⟨_ | o, a⟩
  · unfold claimFresh
    rw [hopen]
    refine .of_step ?_ ?_ (.exhaust ?_ ?_) <;> dsimp only <;> split <;>
      first | rfl | exact hopen | exact .of_eq rfl
  · rw [claimFresh_of_openBlock hopen]
    obtain ⟨hconfig, hmode, hmoved, harena⟩ := t.blockTaken_spec len o a hcpu
    refine ⟨rfl, ⟨o.start + blockWords, hmoved, ?_⟩, fun ws hws => .of_step hconfig hmode ?_⟩
    · unfold Opening.recordStart Opening.taskStart sessionWords blockWords
      dsimp only
      split <;> omega
    · rw [LogView.grant_of_not_fits (v := t.view) (s := ⟨o.recordStart, len⟩) (Cursor.not_fits hroom len)]
      exact .take hlen hcpu hroom hws hopen rfl (congrArg (Arena.setWords · o.recordStart ws) harena)
        (Moved.of_cursors hmoved rfl rfl)

/-- A block opened once the CPU has left its own is granted to the claim that made it leave. -/
theorem overrun_grants (hlen : Event.isValidLength len = true) (hcpu : cpu < t.cursors.size)
    (hfits : (t.cursor cpu).fits len = false) : t.Grants log cpu len ((t.overrun cpu len).claimFresh cpu len) := by
  obtain ⟨hconfig, hmode, ⟨n, hn, hmoved⟩, harena⟩ := overrun_spec hcpu hfits
  -- the CPU stands beyond its limit now, so the block is opened by a CPU without room
  have hroom : ((t.overrun cpu len).cursor cpu).hasRoom = false :=
    Bool.eq_false_iff.mpr fun h => Nat.not_lt_of_le hn (hmoved.hasRoom_iff.mp h)
  exact (claimFresh_grants hlen (hmoved.cpus ▸ hcpu) hroom).of_leave
    (.of_step hconfig hmode (.leave hcpu hn (limit_le_of_not_fits hlen hfits) harena hmoved)) hmoved
    (overrun_sameFrontier t cpu len) hfits (Cursor.not_fits hroom len)

theorem claim_of_invalid (hlen : Event.isValidLength len = false) (cpu : Nat) :
    t.claim cpu len = (none, t.refuseLength len) := by
  unfold claim
  rw [if_pos (by simp [hlen])]

theorem claim_of_unserved (hlen : Event.isValidLength len = true) (hcpu : t.cursors.size ≤ cpu) :
    t.claim cpu len = (none, t) := by
  unfold claim
  rw [if_neg (by simp [hlen]), if_pos hcpu]

/-- A claim is granted right behind the place of its CPU, or in a new block if it does not fit. -/
theorem claim_eq (hlen : Event.isValidLength len = true) (hcpu : cpu < t.cursors.size) :
    t.claim cpu len =
      if (t.cursor cpu).fits len then
        (some ⟨(t.cursor cpu).next, len⟩, t.modifyCursor cpu fun c => { c with next := (t.cursor cpu).next + len })
      else (t.overrun cpu len).claimFresh cpu len := by
  unfold claim
  rw [if_neg (by simp [hlen]), if_neg (Nat.not_le_of_lt hcpu)]
  dsimp only
  rw [verdict_same]
  unfold overrun Cursor.fits Span.stop
  dsimp only
  by_cases hunset : (t.cursor cpu).limit = 0
  · rw [if_pos hunset, if_pos hunset, if_neg (by simp [hunset])]
  · rw [if_neg hunset, if_neg hunset]
    by_cases hfull : (t.cursor cpu).limit ≤ (t.cursor cpu).next + len
    · rw [if_pos hfull, if_neg (by simpa using hfull)]
    · rw [if_neg hfull, if_pos (by simpa using hfull)]

theorem claim_of_fits (hlen : Event.isValidLength len = true) (hcpu : cpu < t.cursors.size)
    (hfits : (t.cursor cpu).fits len = true) :
    t.claim cpu len = (some ⟨(t.cursor cpu).next, len⟩,
      t.modifyCursor cpu fun c => { c with next := (t.cursor cpu).next + len }) := by
  rw [claim_eq hlen hcpu, if_pos hfits]

theorem claim_grants (t : Tracer P) (log : Ledger) (cpu len : Nat) : t.Grants log cpu len (t.claim cpu len) := by
  cases hlen : Event.isValidLength len
  · rw [claim_of_invalid hlen]
    exact .of_view rfl rfl rfl
  rcases Nat.lt_or_ge cpu t.cursors.size with hcpu | hunserved
  · rw [claim_eq hlen hcpu]
    cases hfits : (t.cursor cpu).fits len
    · rw [if_neg Bool.false_ne_true]
      exact overrun_grants hlen hcpu hfits
    · have hmoved := moved_modifyCursor (t := t) (f := fun c => { c with next := (t.cursor cpu).next + len }) hcpu
      have hstop := Cursor.fits_iff.mp hfits
      rw [if_pos rfl]
      refine ⟨rfl, ⟨(t.cursor cpu).limit, hmoved, ?_⟩, fun ws hws => .of_step rfl rfl ?_⟩
      · dsimp only
        omega
      · rw [LogView.grant_of_fits (v := t.view) (s := ⟨(t.cursor cpu).next, len⟩) hfits]
        exact .extend hlen hcpu hfits hws rfl (Moved.of_cursors hmoved rfl rfl)
  · rw [claim_of_unserved hlen hunserved]
    exact .refl

theorem len_of_claim {s : Span} (h : (t.claim cpu len).1 = some s) : s.len = len := by
  have hclaim := claim_grants t [] cpu len
  generalize t.claim cpu len = r at h hclaim
  obtain ⟨_, u⟩ := r
  obtain rfl := h
  exact hclaim.1

theorem moved_of_claim {s : Span} (h : (t.claim cpu len).1 = some s) :
    ∃ l, Moved t.view (t.claim cpu len).2.view cpu s.stop l := by
  have hclaim := claim_grants t [] cpu len
  generalize t.claim cpu len = r at h hclaim ⊢
  obtain ⟨_, u⟩ := r
  obtain rfl := h
  obtain ⟨-, ⟨l, hmoved, -⟩, -⟩ := hclaim
  exact ⟨l, hmoved⟩

/-! ### Rates -/

theorem measureRate_spec (t : Tracer P) (cpu : Nat) (now : UInt64) :
    Stayed t.view (t.measureRate cpu now).2.view ∧ (t.measureRate cpu now).2.arena = t.arena ∧
      (t.measureRate cpu now).2.config = t.config ∧ (t.measureRate cpu now).2.mode = t.mode := by
  refine ⟨?_, rfl, rfl, rfl⟩
  exact Stayed.trans (.of_eq rfl) (stayed_modifyCursor (t := t.readInstructions.2) (fun _ => rfl) (fun _ => rfl))

/-- A rate is measured at a word below the limit of its CPU, and written to the words of rates. -/
theorem rated_leads {i : Nat} (hrates : t.mode.rates = true) (h : i < (t.cursor cpu).limit) (now x : UInt64) :
    Leads t log { (t.measureRate cpu now).2 with arena := t.arena.setWord (i / 8) x } log := by
  obtain ⟨hstay, -, hconfig, hmode⟩ := t.measureRate_spec cpu now
  exact .of_step hconfig hmode (.rate hrates h rfl (Stayed.trans hstay (.of_eq rfl)))

theorem noteRate_leads {i : Nat} (h : i < (t.cursor cpu).limit) (now : UInt64) :
    Leads t log (t.noteRate cpu i now) log := by
  unfold noteRate
  split
  · exact rated_leads ‹_› h now _
  · exact .refl

theorem noteReturnRate_leads {i : Nat} (h : i < (t.cursor cpu).limit) (now : UInt64) :
    Leads t log (t.noteReturnRate cpu i now) log := by
  unfold noteReturnRate
  split
  · exact rated_leads ‹_› h now _
  · exact .refl

end Platform

end Tracer

end EventRecorder
