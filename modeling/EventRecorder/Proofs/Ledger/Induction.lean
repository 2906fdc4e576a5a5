import EventRecorder.Proofs.Arena.Openings
import EventRecorder.Proofs.Ledger.Effects

/-! # Induction over histories

What holds when a session starts and is kept by every elementary step holds at the end of every history. -/

namespace EventRecorder

open Ledger

variable {P : Type} [Platform P] {t u : Tracer P} {log : Ledger}

namespace Tracer

/-! ### Sessions -/

/-- Whatever the call that asks for a new session, a tracer that is not tracing is reset. -/
theorem exists_reset {a : Action} (h : a.isReset = true) (htracing : t.tracing = false) :
    ∃ mode, (t.perform a).2 = (t.reset mode).2 := by
  have hexecute : ∀ flags, (t.execute (.reset flags)).2 = (t.reset (.ofBits flags)).2 := by
    intro flags
    unfold execute reset
    simp only [htracing, Bool.false_eq_true, if_false]
  cases a with
  | reset mode => exact ⟨mode, rfl⟩
  | execute c =>
    cases c with
    | reset flags => exact ⟨.ofBits flags, hexecute flags⟩
    | _ => cases h
  | control code arg =>
    unfold perform control
    dsimp only
    cases hcode : Command.ofCode? code arg with
    | none => simp [Action.isReset, Action.command?, hcode] at h
    | some c =>
      cases c with
      | reset flags => exact ⟨.ofBits flags, hexecute flags⟩
      | _ => simp [Action.isReset, Action.command?, hcode] at h
  | _ => cases h

/-- A reset of a tracer that is not tracing starts a session. -/
theorem perform_reset {a : Action} (h : a.isReset = true) (htracing : t.tracing = false) :
    ∃ mode : Mode, (t.perform a).2.mode = mode ∧ (t.perform a).2.config = t.config ∧ (t.perform a).2.clock = {} ∧
      (t.perform a).2.view = ⟨t.arena.reset mode.rates, Array.replicate t.cursors.size {}⟩ := by
  obtain ⟨mode, hreset⟩ := exists_reset h htracing
  rw [hreset]
  unfold reset
  rw [if_neg (by simp [htracing])]
  exact ⟨mode, rfl, rfl, rfl, rfl⟩

end Tracer

/-! ### Histories -/

omit [Platform P] in
theorem Config.validate_ok_iff {c : Config} : c.validate = .ok () ↔ 2 ≤ c.blocks ∧ 0 < c.cpus ∧ c.cpus ≤ 256 := by
  unfold Config.validate Config.minBlocks Config.maxCpus
  split
  · exact ⟨fun h => (by cases h), fun h => (by omega)⟩
  · split
    · rename_i hcpus
      have hbad : c.cpus = 0 ∨ 256 < c.cpus := by simpa using hcpus
      exact ⟨fun h => (by cases h), fun h => (by omega)⟩
    · rename_i hcpus
      have hgood : ¬ (c.cpus = 0 ∨ 256 < c.cpus) := by simpa using hcpus
      exact ⟨fun _ => (by omega), fun _ => rfl⟩

/-- No step changes the size of the arena, its limit, or the number of CPUs. -/
theorem Step.same_layout {m : Mode} {x y : LogView × Ledger} (h : Step m x y) :
    y.1.arena.blocks = x.1.arena.blocks ∧ y.1.arena.limit = x.1.arena.limit ∧
      y.1.cursors.size = x.1.cursors.size := by
  have of_frontier : ∀ {v w : LogView}, v.arena.SameFrontier w.arena → w.cursors.size = v.cursors.size →
      w.arena.blocks = v.arena.blocks ∧ w.arena.limit = v.arena.limit ∧ w.cursors.size = v.cursors.size :=
    fun hs hc => ⟨hs.blocks, hs.limit, hc⟩
  cases h with
  | rest ha hm => exact of_frontier (ha ▸ .refl _) hm.cpus
  | extend _ _ _ _ ha hm => exact of_frontier (ha ▸ .setWords ..) hm.cpus
  | leave _ _ _ ha hm =>
    obtain ⟨-, ha⟩ | ⟨-, ha⟩ := ha
    · exact of_frontier (ha ▸ .refl _) hm.cpus
    · exact of_frontier (ha ▸ .close ..) hm.cpus
  | exhaust ha hm =>
    obtain ⟨-, hmarks, hlimit⟩ := Arena.openBlock_none_same ha
    exact ⟨congrArg Array.size hmarks, hlimit, hm.cpus⟩
  | @take v w _ _ _ _ a o header task _ _ _ _ ho _ ha hm =>
    obtain ⟨-, hmarks, hlimit, -⟩ := Arena.openBlock_some_inv ho
    have hs : a.SameFrontier w.arena := by
      rw [ha]
      exact ((Arena.SameFrontier.layOut ..).trans (.startFilling ..)).trans (.setWords ..)
    exact ⟨hs.blocks.trans (congrArg Array.size hmarks), hs.limit.trans hlimit, hm.cpus⟩
  | fold _ ha hm => exact of_frontier (ha ▸ .setWord ..) hm.cpus
  | rate _ _ ha hm => exact of_frontier (ha ▸ .setWord ..) hm.cpus
  | flush _ _ ha hm => exact of_frontier (ha ▸ (Arena.SameFrontier.close ..).trans (.zero ..)) hm.cpus

omit [Platform P] in
theorem Leads.same_layout {log' : Ledger} (h : Leads t log u log') :
    u.arena.blocks = t.arena.blocks ∧ u.arena.limit = t.arena.limit :=
  h.induction (I := fun y => y.1.arena.blocks = t.arena.blocks ∧ y.1.arena.limit = t.arena.limit) ⟨rfl, rfl⟩
    fun ih hstep =>
      have hsame := hstep.same_layout
      ⟨hsame.1.trans ih.1, hsame.2.1.trans ih.2⟩

theorem Step.openings_le {m : Mode} {x y : LogView × Ledger} (h : Step m x y) : openings x.2 ≤ openings y.2 := by
  cases h with
  | extend => exact openings_le_cons _ _
  | take => exact openings_le_cons _ _
  | @fold _ _ log cpu x =>
    refine Nat.le_of_eq ?_
    rw [← openings_shape (amendLatest cpu x log), shape_amendLatest, openings_shape]
  | _ => exact Nat.le_refl _

omit [Platform P] in
theorem Leads.openings_le {log' : Ledger} (h : Leads t log u log') : openings log ≤ openings log' :=
  h.induction (I := fun y => openings log ≤ openings y.2) (Nat.le_refl _) fun ih hstep =>
    Nat.le_trans ih hstep.openings_le

/-- The view of a log has the size that the settings ask for. -/
structure Sized (c : Config) (v : LogView) : Prop where
  blocks : v.arena.blocks = c.blocks
  cpus : v.cursors.size = c.cpus

theorem Sized.step {c : Config} {m : Mode} {x y : LogView × Ledger} (h : Sized c x.1) (hs : Step m x y) :
    Sized c y.1 := by
  obtain ⟨hblocks, -, hcpus⟩ := hs.same_layout
  exact ⟨hblocks.trans h.blocks, hcpus.trans h.cpus⟩

/-- What holds at the start of every session and is kept by every step holds at the end of every history. -/
theorem History.induction {I : Config → Mode → LogView × Ledger → Prop}
    (start : ∀ (c : Config) (m : Mode) (a : Arena), c.validate = .ok () → a.blocks = c.blocks →
      I c m (⟨a.reset m.rates, Array.replicate c.cpus {}⟩, []))
    (step : ∀ {c : Config} {m : Mode} {x y : LogView × Ledger}, c.validate = .ok () → I c m x → Step m x y → I c m y)
    (h : History t log) : t.config.validate = .ok () ∧ Sized t.config t.view ∧ I t.config t.mode (t.view, log) := by
  have begins : ∀ (c : Config) (m : Mode) (a : Arena) (n : Nat), c.validate = .ok () → a.blocks = c.blocks → n = c.cpus →
      Sized c ⟨a.reset m.rates, Array.replicate n {}⟩ ∧ I c m (⟨a.reset m.rates, Array.replicate n {}⟩, []) := by
    rintro c m a _ hc ha rfl
    exact ⟨⟨by simpa [Arena.blocks, Arena.reset] using ha, by simp⟩, start c m a hc ha⟩
  induction h with
  | @new platform config t hnew =>
    obtain ⟨hvalid, rfl⟩ := Tracer.eq_made hnew
    have hblocks : (Arena.ofBlocks config.blocks).blocks = config.blocks := by simp [Arena.blocks, Arena.ofBlocks]
    exact ⟨hvalid, begins config {} (.ofBlocks config.blocks) _ hvalid hblocks Array.size_replicate⟩
  | @act t log platform a _ ih =>
    -- an action starts a session or goes on with the present one by steps
    obtain ⟨hvalid, hsized, hinv⟩ := ih
    generalize hs : ({ t with platform } : Tracer P) = s
    obtain ⟨hconfig, hmode, hview⟩ : s.config = t.config ∧ s.mode = t.mode ∧ s.view = t.view := by
      subst hs
      exact ⟨rfl, rfl, rfl⟩
    rw [← hconfig] at hvalid hsized hinv
    rw [← hview] at hsized hinv
    rw [← hmode] at hinv
    unfold Tracer.enter
    cases hreset : a.isReset && !s.tracing
    · have hlead : Leads s log _ _ := Tracer.perform_leads hreset
      rw [hlead.config, hlead.mode]
      exact ⟨hvalid, hlead.induction (I := fun y => Sized s.config y.1 ∧ I s.config s.mode y) ⟨hsized, hinv⟩
        fun ih hstep => ⟨ih.1.step hstep, step hvalid ih.2 hstep⟩⟩
    · obtain ⟨hisReset, hoff⟩ : a.isReset = true ∧ s.tracing = false := by simpa using hreset
      obtain ⟨mode, hmode', hconfig', -, hview'⟩ := Tracer.perform_reset hisReset hoff
      rw [hmode', hconfig', hview']
      exact ⟨hvalid, begins _ _ _ _ hvalid hsized.blocks hsized.cpus⟩

theorem History.valid (h : History t log) : 2 ≤ t.config.blocks ∧ 0 < t.config.cpus ∧ t.config.cpus ≤ 256 :=
  Config.validate_ok_iff.mp (h.induction (I := fun _ _ _ => True) (fun _ _ _ _ _ => trivial) fun _ _ _ => trivial).1

theorem History.sized (h : History t log) : Sized t.config t.view :=
  (h.induction (I := fun _ _ _ => True) (fun _ _ _ _ _ => trivial) fun _ _ _ => trivial).2.1

end EventRecorder
