import EventRecorder.Platform.TimeOnly
import EventRecorder.Proofs.Checked.Sessions
import EventRecorder.Proofs.Ledger.Refusals

/-! # Checked runs

A cursor runs on past the end of its block by a few words with every claim that is refused, and nothing but a new
block or a new session brings it back. It takes more calls than a machine can make until it comes close to the end of
the sizes, and up to then no check stops a tracer. -/

namespace EventRecorder

open Size Ledger Arena

variable {P : Type} {b c cpu i len : Nat} {t u : Tracer P} {log : Ledger} {m : Mode} {names : PidSet} {ws : List UInt64}
  {o : Outcome}

/-! ### How far a cursor gets -/

namespace Tracer

/-- Neither the arena nor a cursor reaches beyond `b`. -/
structure Within (t : Tracer P) (b : Nat) : Prop where
  high : t.arena.high ≤ b
  next : ∀ c, (t.cursor c).next ≤ b

theorem next_overrun (hcpu : cpu < t.cursors.size) (len c : Nat) :
    ((t.overrun cpu len).cursor c).next ≤ (t.cursor c).next + 2 * len := by
  have hadvance : ∀ s : Tracer P, cpu < s.cursors.size → ∀ c,
      ((s.modifyCursor cpu fun c => { c with next := c.next + len }).cursor c).next ≤ (s.cursor c).next + len := by
    intro s hs c
    by_cases hc : c = cpu
    · subst hc
      rw [cursor_modifyCursor hs]
    · rw [cursor_modifyCursor_of_ne hc]
      exact Nat.le_add_right ..
  have hfirst : t.modifyCursor cpu (fun c => { c with next := (t.cursor cpu).next + len }) =
      t.modifyCursor cpu fun c => { c with next := c.next + len } := modifyCursor_congr rfl
  have honce := hadvance t hcpu c
  unfold overrun
  rw [hfirst]
  dsimp only
  split
  · omega
  · have htwice := hadvance ((t.modifyCursor cpu fun c => { c with next := c.next + len }).closeBlock
      (t.cursor cpu).limit (t.cursor cpu).next) (size_modifyCursor.symm ▸ hcpu) c
    refine Nat.le_trans htwice ?_
    change ((t.modifyCursor cpu fun c => { c with next := c.next + len }).cursor c).next + len ≤ _
    omega

theorem next_flushAll (hlimit : ∀ c, (t.cursor c).limit ≤ b) (cpus : List Nat) (c : Nat) :
    ((cpus.foldl flushCpu t).cursor c).next ≤ max (t.cursor c).next b := by
  induction cpus generalizing t with
  | nil => exact Nat.le_max_left ..
  | cons cpu cpus ih =>
    have hkept : ∀ c, ((t.flushCpu cpu).cursor c).limit ≤ b := fun c => (t.place_flushCpu cpu c).1.symm ▸ hlimit c
    have hrest := ih hkept
    have hfirst := (t.place_flushCpu cpu c).2
    have hb := hlimit c
    rw [List.foldl_cons]
    omega

variable [Platform P]

theorem next_noteRate (t : Tracer P) (cpu i : Nat) (now : UInt64) (c : Nat) :
    ((t.noteRate cpu i now).cursor c).next = (t.cursor c).next := by
  unfold noteRate
  split
  · exact (t.measureRate_spec cpu now).1.next c
  · rfl

theorem next_noteReturnRate (t : Tracer P) (cpu i : Nat) (now : UInt64) (c : Nat) :
    ((t.noteReturnRate cpu i now).cursor c).next = (t.cursor c).next := by
  unfold noteReturnRate
  split
  · exact (t.measureRate_spec cpu now).1.next c
  · rfl

/-- A claim moves its CPU on by at most twice the length of a record, or into a block. -/
theorem next_claim (hp : Placed t.mode t.view (shape log)) (cpu len c : Nat) :
    ((t.claim cpu len).2.cursor c).next ≤ max ((t.cursor c).next + 16) t.arena.high := by
  cases hlen : Event.isValidLength len
  · rw [claim_of_invalid hlen]
    exact Nat.le_trans (Nat.le_add_right _ 16) (Nat.le_max_left ..)
  rcases Nat.lt_or_ge cpu t.cursors.size with hcpu | hunserved
  · have hle := (isValidLength_iff.mp hlen).2
    cases hspan : (t.claim cpu len).1 with
    | none =>
      -- refused: the cursor has run over the end of its block and stays there
      obtain ⟨hfits, hopen⟩ := (claim_eq_none_iff hlen hcpu).mp hspan
      have hview := (claim_of_refused hlen hcpu hfits hopen).2.2
      have hcursor : (t.claim cpu len).2.cursor c = (t.overrun cpu len).cursor c := congrArg (LogView.cursor · c) hview
      have hover := next_overrun hcpu len c
      rw [hcursor]
      omega
    | some span =>
      -- granted: the cursor stands behind the words, which lie in the arena
      obtain ⟨-, hstop, -⟩ := bounds_of_claim hp (Prod.ext hspan rfl)
      obtain ⟨l, hmoved⟩ := moved_of_claim hspan
      by_cases hc : c = cpu
      · subst hc
        have hnext : ((t.claim c len).2.cursor c).next = span.start + span.len := hmoved.next
        rw [len_of_claim hspan] at hnext
        omega
      · have hnext : ((t.claim cpu len).2.cursor c).next = (t.cursor c).next := hmoved.next_of_ne c hc
        omega
  · rw [claim_of_unserved hlen hunserved]
    exact Nat.le_trans (Nat.le_add_right _ 16) (Nat.le_max_left ..)

end Tracer

variable [Platform P]

theorem Effect.next_le (h : Effect t names ws o u) (hp : Placed t.mode t.view (shape log)) (c : Nat) :
    (u.cursor c).next ≤ max ((t.cursor c).next + 16) t.arena.high := by
  have hclaim : ∀ {s v : Tracer P} {cpu len : Nat} {span? : Option Span}, t.Akin s → s.claim cpu len = (span?, v) →
      (v.cursor c).next ≤ max ((t.cursor c).next + 16) t.arena.high := by
    intro s v cpu len span? hakin hv
    have hnext := Tracer.next_claim (hakin.placed hp) cpu len c
    rw [hv, hakin.cursor, hakin.arena] at hnext
    exact hnext
  cases h with
  | rest hakin _ =>
    rw [hakin.cursor]
    omega
  | flush =>
    have hoff := Tracer.Akin.off t
    have hlimit : ∀ c, (t.off.cursor c).limit ≤ t.arena.high := fun c => (hoff.cursor c).symm ▸ hp.limit_le_high c
    have hnext := Tracer.next_flushAll hlimit (List.range t.off.cursors.size) c
    rw [hoff.cursor] at hnext
    change (((List.range t.off.cursors.size).foldl Tracer.flushCpu t.off).cursor c).next ≤ _
    omega
  | refuse hakin hv => exact hclaim hakin hv
  | claim hv => exact hclaim (.refl t) hv
  | @write s v first payload span hakin _ hv =>
    have hnext := hclaim hakin hv
    rw [Tracer.next_noteRate]
    exact hnext
  | @fold s ret w i hakin _ _ =>
    rw [Tracer.next_noteReturnRate]
    change (s.cursor c).next ≤ _
    rw [hakin.cursor]
    omega

namespace Tracer

/-- An action moves no cursor on by more than twice the length of a record. -/
theorem Within.perform (h : t.Within b) (ht : History t log) (a : Action) :
    (t.perform a).2.arena.blocks = t.arena.blocks ∧ (t.perform a).2.Within (b + 16) := by
  suffices hsame : (t.perform a).2.arena.blocks = t.arena.blocks ∧
      ∀ c, ((t.perform a).2.cursor c).next ≤ max ((t.cursor c).next + 16) t.arena.high by
    obtain ⟨hblocks, hnext⟩ := hsame
    have hhigh := h.high
    refine ⟨hblocks, ?_, fun c => ?_⟩
    · rw [high_congr hblocks]
      exact Nat.le_add_right_of_le hhigh
    · have hfirst := h.next c
      have hstep := hnext c
      omega
  cases hreset : a.isReset && !t.tracing
  · have hleads : Leads t log _ _ := perform_leads hreset
    exact ⟨hleads.same_layout.1, (perform_effect hreset).next_le ht.placed⟩
  · obtain ⟨hisReset, hoff⟩ : a.isReset = true ∧ t.tracing = false := by simpa using hreset
    obtain ⟨mode, -, -, -, hview⟩ := perform_reset hisReset hoff
    refine ⟨?_, fun c => ?_⟩
    · have hblocks : (t.perform a).2.arena.blocks = (t.arena.reset mode.rates).blocks :=
        congrArg (·.arena.blocks) hview
      rw [hblocks]
      simp [Arena.blocks, Arena.reset]
    · rw [← view_cursor, hview, LogView.cursor_replicate]
      exact Nat.zero_le _

/-! ### Runs -/

/-- What calls made in turn are answered. -/
def answers (t : Tracer P) : (calls : List ((P → P) × Action)) → List Answer
  | [] => []
  | (f, a) :: calls =>
    let (answer, t) := (t.at (f t.platform)).perform a
    answer :: t.answers calls

/-- Makes calls in turn, with what becomes of the platform before each. -/
def run? (t : Tracer P) : (calls : List ((P → P) × Action)) → Option (List Answer × Tracer P)
  | [] => some ([], t)
  | (f, a) :: calls => do
    let (answer, t) ← (t.at (f t.platform)).perform? a
    let (answers, t) ← t.run? calls
    return (answer :: answers, t)

end Tracer

namespace History

theorem inOrder (h : History t log) (hsmall : t.arena.blocks < 2 ^ 40) (hw : t.Within b) (hb : b + 16 < 2 ^ 64) :
    t.InOrder := by
  refine ⟨hsmall, ⟨log, h.placed⟩, fun c => ?_, h.sized.cpus ▸ h.valid.2.2⟩
  have hnext := hw.next c
  omega

theorem view_inOrder (h : History t log) (hsmall : t.arena.blocks < 2 ^ 40) : t.view.InOrder where
  small := hsmall
  opened := ⟨_, h.opened⟩
  limit_le := h.placed.limit_le_high
  mark_le k hk offset hmark := (h.places_settled.closed k hk offset hmark).1
  region_le _ hk := h.places_settled.region_le h.opened hk
  count_le := Nat.le_trans h.count_le (Arena.rawCount_le_high _)

/-- No check stops a run that leaves the cursors clear of the end of the sizes. -/
theorem run?_eq (h : History t log) (hsmall : t.arena.blocks < 2 ^ 40) (hw : t.Within b)
    {calls : List ((P → P) × Action)} (hcalls : b + 16 * calls.length < 2 ^ 64) :
    t.run? calls = some (t.answers calls, t.after calls) := by
  -- the bound grows with each call, and is clear of the end of the sizes until the calls are used up
  induction calls generalizing t log b with
  | nil => rfl
  | cons call calls ih =>
    obtain ⟨f, a⟩ := call
    rw [List.length_cons] at hcalls
    have hat := h.at (f t.platform)
    have hwat : (t.at (f t.platform)).Within b := ⟨hw.high, hw.next⟩
    obtain ⟨hblocks, hwnext⟩ := hwat.perform hat a
    have hrest := ih (h.act_at (f t.platform) a) (hblocks.symm ▸ hsmall) hwnext (by omega)
    unfold Tracer.run?
    rw [Tracer.perform?_eq (hat.inOrder hsmall hwat (by omega)) (hat.view_inOrder hsmall) a, Option.bind_eq_bind,
      Option.bind_some]
    dsimp only
    rw [hrest]
    rfl

/-- A cursor with a limit is behind the header of the block that ends there. -/
theorem place_of_limit (h : History t log) (c : Nat) : (t.cursor c).limit = 0 ∨
    ∃ k < t.arena.usable, (t.cursor c).limit = t.arena.blockStop k ∧ t.arena.recordStart k ≤ (t.cursor c).next := by
  have hp := h.placed
  cases hlatest : latest? c (shape log) with
  | none => exact Or.inl (hp.unset c hlatest)
  | some g =>
    have hin := hp.placing.inside g (mem_of_latest? hlatest)
    have hlimit : (t.cursor c).limit = t.arena.blockStop g.block := hp.limit_of c g hlatest
    refine Or.inr ⟨g.block, hin.block, hlimit, ?_⟩
    cases hroom : (t.cursor c).hasRoom with
    | true =>
      have hnext : (t.cursor c).next = g.span.stop := hp.next_of c g hlatest hroom
      rw [hnext]
      exact Nat.le_trans hin.start g.span.start_le_stop
    | false =>
      have hfull : (t.cursor c).limit ≤ (t.cursor c).next := Nat.le_of_not_lt fun hlt =>
        Bool.false_ne_true (hroom.symm.trans (Cursor.hasRoom_iff.mpr hlt))
      rw [hlimit] at hfull
      exact Nat.le_trans (Nat.le_of_lt (t.arena.recordStart_lt_blockStop g.block)) hfull

end History

/-! ### Bounds -/

/-- The cursors stand in their blocks or behind them, a claim can be judged by any limit that its cursor had before,
and every block of a snapshot can be split into records. -/
structure Tracer.InBounds (t : Tracer P) : Prop where
  limit : ∀ c, (t.cursor c).limit = 0 ∨ ∃ k < t.arena.usable, (t.cursor c).limit = t.arena.blockStop k ∧
    t.arena.limit + blockWords ≤ (t.cursor c).limit ∧ (t.cursor c).limit ≤ t.arena.high ∧
    t.arena.recordStart k ≤ (t.cursor c).next
  verdict : ∀ (c before : Nat) (claim : Span), claim.start + claim.len < 2 ^ 64 →
    verdict? before (t.cursor c).limit claim = some (EventRecorder.verdict before (t.cursor c).limit claim)
  records : ∀ b ∈ t.snapshot.1.blocks, b.records? = some b.records

theorem History.inBounds (h : History t log) : t.InBounds where
  limit c := by
    refine (h.place_of_limit c).imp_right ?_
    rintro ⟨k, hk, hlimit, hnext⟩
    have hlow := h.opened.limit_le_blockStart hk
    have hhigh := blockStop_le_high (h.opened.lt_blocks hk)
    refine ⟨k, hk, hlimit, ?_, hlimit ▸ hhigh, hnext⟩
    rw [hlimit]
    exact Nat.add_le_add_right hlow blockWords
  verdict c before claim hclaim := by
    refine verdict?_eq ?_ hclaim before
    exact (Nat.eq_zero_or_pos _).imp_right fun hset => Tracer.blockWords_le_limit h.placed (Nat.ne_zero_of_lt hset)
  records b hb := by
    obtain ⟨k, hk, rfl⟩ := List.mem_map.mp (List.mem_reverse.mp hb)
    rw [t.off_same.2.2] at hk ⊢
    have hregion := h.places_settled.region_le h.opened
      (Nat.lt_of_lt_of_le (h.opened.lt_claimed_of_mem hk) h.opened.claimed_le)
    refine BlockCopy.records?_eq ?_
    unfold BlockCopy.ofView
    rw [List.length_map, List.length_range']
    exact Nat.lt_of_le_of_lt (Nat.le_trans (Nat.le_add_left ..) hregion) (by decide)

/-- Making a tracer and calling it any number of times that is possible is never stopped by a sum or a difference that
is no size, by a division by zero or by an index out of range, if its arena is one that a machine can have. -/
theorem never_stops (platform : P) {config : Config} (hvalid : config.validate = .ok ()) (hsmall : config.blocks < 2 ^ 40)
    (calls : List ((P → P) × Action)) (hcalls : calls.length < 2 ^ 59) :
    ∃ t, Tracer.ofConfig platform config = .ok t ∧ Tracer.ofConfig? platform config = some (.ok t) ∧
      t.run? calls = some (t.answers calls, t.after calls) ∧ (t.after calls).InBounds := by
  obtain ⟨t, ht, hconfig, hcursor⟩ : ∃ t, Tracer.ofConfig platform config = .ok t ∧ t.config = config ∧
      ∀ c, t.cursor c = {} := by
    unfold Tracer.ofConfig
    rw [hvalid]
    exact ⟨_, rfl, rfl, fun c => LogView.cursor_replicate (.ofBlocks config.blocks) _ c⟩
  have h : History t [] := .new ht
  have hblocks : t.arena.blocks < 2 ^ 40 := by
    rw [show t.arena.blocks = t.config.blocks from h.sized.blocks, hconfig]
    exact hsmall
  have hhigh := high_lt hblocks
  have hwithin : t.Within t.arena.high := ⟨Nat.le_refl _, fun c => hcursor c ▸ Nat.zero_le _⟩
  obtain ⟨log, hafter⟩ := Tracer.exists_history_after h calls
  refine ⟨t, ht, ?_, h.run?_eq hblocks hwithin (by omega), hafter.inBounds⟩
  rw [Tracer.ofConfig?_eq hsmall, ht]

/-- A session that measures rates and wraps, with claims that are refused, and with readers. -/
theorem never_stops_of_small_ring :
    ∃ (config : Config) (calls : List ((TimeOnly → TimeOnly) × Action)) (t : Tracer TimeOnly),
      config.validate = .ok () ∧ config.blocks < 2 ^ 40 ∧ calls.length < 2 ^ 59 ∧
      Tracer.ofConfig {} config = .ok t ∧ Tracer.ofConfig? {} config = some (.ok t) ∧
      t.run? calls = some (t.answers calls, t.after calls) ∧ (t.after calls).InBounds ∧
      (t.after calls).arena.wrapped = true ∧ ((t.after calls).cursor 0).limit = 16384 := by
  have hvalid : ({ blocks := 3 } : Config).validate = .ok () := rfl
  obtain ⟨t, ht, hchecked, hrun, hbounds⟩ := never_stops ({} : TimeOnly) hvalid (by decide)
    [(id, .reset ⟨true, true⟩), (id, .execute .on), (fun p => { p with time := 9 }, .traceEvent 0x801 5),
      (id, .execute .flush), (id, .claim 0 8), (id, .execute .flush), (id, .claim 0 8), (id, .claim 7 1), (id, .claim 0 9),
      (id, .execute .count), (id, .execute (.word 0)), (id, .execute (.rateWord 0)), (id, .snapshot)]
    (by decide)
  refine ⟨_, _, t, hvalid, by decide, by decide, ht, hchecked, hrun, hbounds, ?_, ?_⟩
  · obtain rfl := Except.ok.inj ht
    decide +kernel
  · obtain rfl := Except.ok.inj ht
    decide +kernel

end EventRecorder
