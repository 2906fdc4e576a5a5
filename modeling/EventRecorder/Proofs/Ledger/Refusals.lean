import EventRecorder.Platform.TimeOnly
import EventRecorder.Proofs.Ledger.Frames

/-! # Refused claims

A claim is refused only when there is truly no room: the CPU has none left in its block, every usable block has been
opened, and the session must not start over. What an earlier flush or refusal left in the cursors makes no difference
to that. -/

namespace EventRecorder

open Ledger LogView Arena

variable {P : Type} {a b : Arena} {n : Nat} {log : Ledger} {m : Mode} {v w : LogView} {x y : LogView × Ledger}

/-- The blocks that a session in a mode can use: all but the reserve for the rates. -/
def Config.usable (c : Config) (m : Mode) : Nat := c.blocks - if m.rates then (c.blocks + 7) / 8 else 0

/-- The block that is next in turn: the one just below the frontier, or block 1 once the frontier has come down to
the limit. -/
def Arena.frontierBlock (a : Arena) : Nat := if a.limit + blockWords ≤ a.next then (a.high - a.next) / blockWords else 1

/-! ### The frontier -/

namespace Arena

theorem SameFrontier.openBlock (h : SameFrontier a b) (wrap : Bool) : (b.openBlock wrap).1 = (a.openBlock wrap).1 := by
  unfold Arena.openBlock
  rw [h.limit, h.next, h.high]
  split
  · rfl
  · split <;> rfl

/-- The block next in turn is the one that the number of openings tells. -/
theorem Opened.frontierBlock_eq (h : a.Opened n) (husable : 0 < a.usable) :
    a.frontierBlock = nthBlock a.usable n := by
  have hlimit := h.limit_add
  have hnext := h.next_add
  unfold frontierBlock
  split
  · rename_i hle
    have hd : depth a.usable n < a.usable := by
      unfold blockWords at *
      omega
    unfold nthBlock
    rw [depth_succ_of_lt hd]
    unfold blockWords at *
    omega
  · rename_i hgt
    obtain ⟨hd, hn⟩ := h.full (Nat.lt_of_not_le hgt)
    unfold nthBlock
    rw [depth_succ_of_le (by omega) (Nat.le_of_eq hd.symm)]

/-- A session that does not wrap, or has no block to wrap onto, opens every usable block once. -/
theorem Opened.le_usable {wrap : Bool} (h : a.Opened n) (hwrap : a.usable < n → wrap = true)
    (hstop : wrap = false ∨ a.usable < 2) : n ≤ a.usable := by
  refine Nat.le_of_not_lt fun hlt => ?_
  have htwo := h.two_le hlt
  rcases hstop with hstop | hfew
  · exact Bool.false_ne_true (hstop.symm.trans (hwrap hlt))
  · omega

/-- In a session that starts over only if it wraps, a block is refused just when all usable blocks have been opened
and the session does not wrap, or has no block to wrap onto. -/
theorem Opened.openBlock_none_iff {wrap : Bool} (h : a.Opened n) (hwrap : a.usable < n → wrap = true) :
    (a.openBlock wrap).1 = none ↔ a.usable ≤ n ∧ (wrap = false ∨ a.usable < 2) := by
  constructor
  · intro hnone
    obtain ⟨-, hn, hw⟩ := h.refuses (Prod.ext hnone rfl)
    refine ⟨hn, ?_⟩
    cases wrap
    · exact Or.inl rfl
    · exact Or.inr (hw rfl)
  · rintro ⟨hn, hstop⟩
    have hlimit := h.limit_add
    have hnext := h.next_add
    rw [Nat.le_antisymm (h.le_usable hwrap hstop) hn, depth_of_le (Nat.le_refl _)] at hnext
    unfold openBlock
    rw [if_neg (by unfold blockWords at *; omega), if_neg]
    rcases hstop with rfl | hfew
    · simp
    · rw [Bool.and_eq_true, decide_eq_true_iff]
      unfold blockWords at *
      omega

end Arena

/-! ### What a session does to the frontier -/

/-- A step leaves the frontier alone, is refused a block, or takes one. -/
theorem Step.frontier_cases (h : Step m x y) :
    (x.1.arena.SameFrontier y.1.arena ∧ openings y.2 = openings x.2) ∨
      (x.1.arena.openBlock m.wraps = (none, y.1.arena) ∧ openings y.2 = openings x.2) ∨
      ∃ o a, x.1.arena.openBlock m.wraps = (some o, a) ∧ a.SameFrontier y.1.arena ∧
        openings y.2 = openings x.2 + 1 := by
  cases h with
  | rest ha => exact Or.inl ⟨ha ▸ .refl _, rfl⟩
  | extend _ _ _ _ ha => exact Or.inl ⟨ha ▸ .setWords .., openings_of_not_fresh rfl⟩
  | leave _ _ _ ha =>
    obtain ⟨-, ha⟩ | ⟨-, ha⟩ := ha
    · exact Or.inl ⟨ha ▸ .refl _, rfl⟩
    · exact Or.inl ⟨ha ▸ .close .., rfl⟩
  | exhaust ha => exact Or.inr (Or.inl ⟨ha, rfl⟩)
  | take _ _ _ _ ho _ ha =>
    refine Or.inr (Or.inr ⟨_, _, ho, ?_, openings_of_fresh rfl⟩)
    rw [ha]
    exact ((SameFrontier.layOut ..).trans (.startFilling ..)).trans (.setWords ..)
  | @fold _ _ log cpu x _ ha =>
    refine Or.inl ⟨ha ▸ .setWord .., ?_⟩
    rw [← openings_shape (amendLatest cpu x log), shape_amendLatest, openings_shape]
  | rate _ _ ha => exact Or.inl ⟨ha ▸ .setWord .., rfl⟩
  | flush _ _ ha => exact Or.inl ⟨ha ▸ (SameFrontier.close ..).trans (.zero ..), rfl⟩

/-- Blocks are opened again only in a session that wraps, and none is refused to a session that wraps and has two of
them. -/
structure InMode (m : Mode) (a : Arena) (n : Nat) : Prop where
  wraps : a.usable < n → m.wraps = true
  exhausted : a.exhausted = true → m.wraps = false ∨ a.usable < 2

theorem InMode.of_sameFrontier (h : InMode m a n) (hs : a.SameFrontier b) : InMode m b n := by
  refine ⟨fun hlt => h.wraps (hs.usable ▸ hlt), fun he => ?_⟩
  rw [hs.usable]
  exact h.exhausted (hs.exhausted ▸ he)

theorem InMode.step (ho : x.1.arena.Opened (openings x.2)) (h : InMode m x.1.arena (openings x.2)) (hs : Step m x y) :
    InMode m y.1.arena (openings y.2) := by
  obtain ⟨hsame, hn⟩ | ⟨hopen, hn⟩ | ⟨o, a, hopen, hsame, hn⟩ := hs.frontier_cases
  · rw [hn]
    exact h.of_sameFrontier hsame
  · obtain ⟨-, hmarks, hlimit⟩ := openBlock_none_same hopen
    have husable := usable_congr (congrArg Array.size hmarks) hlimit
    obtain ⟨-, -, hfew⟩ := ho.refuses hopen
    rw [hn]
    refine ⟨fun hlt => h.wraps (husable ▸ hlt), fun _ => ?_⟩
    rw [husable]
    cases hw : m.wraps
    · exact Or.inl rfl
    · exact Or.inr (hfew hw)
  · obtain ⟨-, hmarks, hlimit, hexhausted, htaken⟩ := openBlock_some_inv hopen
    have husable := usable_congr (congrArg Array.size hmarks) hlimit
    rw [hn]
    refine InMode.of_sameFrontier ⟨fun hlt => ?_, fun he => ?_⟩ hsame
    · rw [husable] at hlt
      obtain ⟨hroom, -⟩ | ⟨-, hwrap, -⟩ := htaken
      · -- a block above the limit is left after the first lap only if the session has started over
        refine h.wraps (Nat.lt_of_le_of_ne (Nat.le_of_lt_succ hlt) fun heq => ?_)
        have hadd := ho.limit_add
        have hnext := ho.next_add
        rw [← heq, depth_of_le (Nat.le_refl _)] at hnext
        unfold blockWords at *
        omega
      · exact hwrap
    · rw [husable]
      exact h.exhausted (hexhausted ▸ he)

theorem History.inMode [Platform P] {t : Tracer P} (h : History t log) : InMode t.mode t.arena (openings log) := by
  have hrun := (h.induction (I := fun _ m x => Placed m x.1 (shape x.2) ∧ InMode m x.1.arena (openings x.2))
    (fun _ m a _ _ => ⟨Placed.start m a _,
      fun hlt => absurd hlt (Nat.not_lt_zero _), fun he => (by cases he)⟩)
    fun _ h hs => ⟨h.1.step hs, .step (openings_shape _ ▸ h.1.opened) h.2 hs⟩).2.2
  exact hrun.2

/-- The usable blocks are those that the settings leave. -/
theorem History.usable_eq [Platform P] {t : Tracer P} (h : History t log) : t.arena.usable = t.config.usable t.mode := by
  have hlimit : t.arena.limit = if t.mode.rates then (t.arena.blocks + 7) / 8 * blockWords else 0 := h.placed.limit
  have hadd := h.opened.limit_add
  have hblocks : t.arena.blocks = t.config.blocks := h.sized.blocks
  unfold Config.usable
  rw [← hblocks]
  unfold high blockWords at *
  cases hrates : t.mode.rates
  · rw [hrates, if_neg Bool.false_ne_true] at hlimit
    rw [if_neg Bool.false_ne_true]
    omega
  · rw [hrates, if_pos rfl] at hlimit
    rw [if_pos rfl]
    omega

/-- All usable blocks have been opened once there have been as many openings. -/
theorem Placed.all_opened_iff (h : Placed m v (shape log)) :
    (∀ k < v.arena.usable, 0 < openingsOf k log) ↔ v.arena.usable ≤ openings log := by
  have hclaimed := h.opened.claimed_eq
  rw [openings_shape] at hclaimed
  constructor
  · intro hall
    rcases Nat.eq_zero_or_pos v.arena.usable with hzero | hpos
    · omega
    · have := h.claimed_iff.mpr (hall (v.arena.usable - 1) (by omega))
      omega
  · intro hle k hk
    exact h.claimed_iff.mp (by omega)

/-! ### What becomes of a claim -/

section Claims
variable [Platform P] {t : Tracer P} {cpu len other : Nat} {s : Span} {o : Opening}

namespace Tracer

theorem claim_of_not_fits (hlen : Event.isValidLength len = true) (hcpu : cpu < t.cursors.size)
    (hfits : (t.cursor cpu).fits len = false) : t.claim cpu len = (t.overrun cpu len).claimFresh cpu len := by
  rw [claim_eq hlen hcpu, hfits, if_neg Bool.false_ne_true]

omit [Platform P] in
theorem overrun_tracing (t : Tracer P) (cpu len : Nat) : (t.overrun cpu len).tracing = t.tracing := by
  unfold overrun
  dsimp only
  split <;> rfl

theorem blockTaken_tracing (t : Tracer P) (cpu len : Nat) (o : Opening) (a : Arena) :
    (t.blockTaken cpu len o a).tracing = t.tracing := by
  have hmoved : (t.frontierMoved o a).tracing = t.tracing := by
    unfold frontierMoved
    split <;> rfl
  have hprepared : (((t.frontierMoved o a).laidOut cpu o).prepareCounters cpu).tracing = (t.frontierMoved o a).tracing := by
    unfold prepareCounters
    split <;> rfl
  exact hprepared.trans hmoved

omit [Platform P] in
theorem openBlock_overrun (t : Tracer P) (cpu len : Nat) :
    ((t.overrun cpu len).arena.openBlock (t.overrun cpu len).mode.wraps).1 = (t.arena.openBlock t.mode.wraps).1 := by
  rw [(t.overrun_akin cpu len).2.2]
  exact (overrun_sameFrontier t cpu len).openBlock _

/-- A claim that does not fit and gets no block ends tracing and leaves a mark in the arena; apart from that its CPU
has left its block. -/
theorem claim_of_refused (hlen : Event.isValidLength len = true) (hcpu : cpu < t.cursors.size)
    (hfits : (t.cursor cpu).fits len = false) (hopen : (t.arena.openBlock t.mode.wraps).1 = none) :
    (t.claim cpu len).1 = none ∧ (t.claim cpu len).2.tracing = false ∧
      (t.claim cpu len).2.view = ⟨{ (t.overrun cpu len).arena with exhausted := true }, (t.overrun cpu len).cursors⟩ := by
  have hnone := (t.openBlock_overrun cpu len).trans hopen
  rw [claim_of_not_fits hlen hcpu hfits]
  generalize t.overrun cpu len = u at hnone ⊢
  rcases hu : u.arena.openBlock u.mode.wraps with ⟨_ | o, a⟩
  · obtain ⟨rfl, -⟩ := openBlock_none_inv hu
    unfold claimFresh
    rw [hu]
    dsimp only
    split
    · exact ⟨rfl, rfl, rfl⟩
    · rename_i hoff
      exact ⟨rfl, Bool.eq_false_iff.mpr hoff, rfl⟩
  · rw [hu] at hnone
    cases hnone

theorem claim_eq_none_iff (hlen : Event.isValidLength len = true) (hcpu : cpu < t.cursors.size) :
    (t.claim cpu len).1 = none ↔ (t.cursor cpu).fits len = false ∧ (t.arena.openBlock t.mode.wraps).1 = none := by
  refine ⟨fun hnone => ?_, fun h => (claim_of_refused hlen hcpu h.1 h.2).1⟩
  cases hfits : (t.cursor cpu).fits len
  · refine ⟨rfl, ?_⟩
    rw [← t.openBlock_overrun cpu len]
    rcases hopen : (t.overrun cpu len).arena.openBlock (t.overrun cpu len).mode.wraps with ⟨_ | o, a⟩
    · rfl
    · rw [claim_of_not_fits hlen hcpu hfits, claimFresh_of_openBlock hopen] at hnone
      cases hnone
  · rw [claim_of_fits hlen hcpu hfits] at hnone
    cases hnone

/-- A claim moves no other CPU. -/
theorem moved_claim (t : Tracer P) (cpu len : Nat) : ∃ n l, Moved t.view (t.claim cpu len).2.view cpu n l := by
  have hstay : ∀ u : Tracer P, u.cursors = t.cursors → ∃ n l, Moved t.view u.view cpu n l := fun u hu =>
    ⟨_, _, Moved.of_cursors (v := t.view) (w := t.view) ⟨rfl, rfl, rfl, fun _ _ => rfl, fun _ _ => rfl⟩ rfl hu⟩
  cases hlen : Event.isValidLength len
  · rw [claim_of_invalid hlen]
    exact hstay _ rfl
  rcases Nat.lt_or_ge cpu t.cursors.size with hcpu | hunserved
  · cases hclaim : (t.claim cpu len).1 with
    | none =>
      obtain ⟨hfits, hopen⟩ := (claim_eq_none_iff hlen hcpu).mp hclaim
      obtain ⟨-, -, ⟨n, -, hmoved⟩, -⟩ := overrun_spec hcpu hfits
      rw [(claim_of_refused hlen hcpu hfits hopen).2.2]
      exact ⟨_, _, hmoved.of_cursors rfl rfl⟩
    | some s =>
      obtain ⟨l, hmoved⟩ := moved_of_claim hclaim
      exact ⟨_, _, hmoved⟩
  · rw [claim_of_unserved hlen hunserved]
    exact hstay _ rfl

/-! ### Claims in turn -/

/-- What the claims of one CPU are answered, among claims made in turn, each given by CPU and length. -/
def answersTo (other : Nat) (t : Tracer P) : (claims : List (Nat × Nat)) → List (Option Span)
  | [] => []
  | (cpu, len) :: claims =>
    let answers := (t.claim cpu len).2.answersTo other claims
    if cpu = other then (t.claim cpu len).1 :: answers else answers

end Tracer

/-- The lengths of the claims of one CPU. -/
def lengthsOf (other : Nat) (claims : List (Nat × Nat)) : List Nat := (claims.filter (·.1 == other)).map (·.2)

/-- Spans of the given lengths, one behind the other. -/
def spansFrom (next : Nat) : (lens : List Nat) → List Span
  | [] => []
  | len :: lens => ⟨next, len⟩ :: spansFrom (next + len) lens

theorem lengthsOf_cons (other cpu len : Nat) (claims : List (Nat × Nat)) : lengthsOf other ((cpu, len) :: claims) =
    if cpu = other then len :: lengthsOf other claims else lengthsOf other claims := by
  unfold lengthsOf
  by_cases h : cpu = other <;> simp [h]

/-- As long as a CPU has room for all that it claims, its claims are granted whatever other CPUs claim meanwhile. -/
theorem Tracer.answersTo_eq {claims : List (Nat × Nat)} (hcpu : other < t.cursors.size)
    (hlen : ∀ len ∈ lengthsOf other claims, Event.isValidLength len = true)
    (hroom : (t.cursor other).next + (lengthsOf other claims).sum < (t.cursor other).limit) :
    t.answersTo other claims = (spansFrom (t.cursor other).next (lengthsOf other claims)).map some := by
  induction claims generalizing t with
  | nil => rfl
  | cons claim claims ih =>
    obtain ⟨cpu, len⟩ := claim
    rw [lengthsOf_cons] at hlen hroom ⊢
    obtain ⟨n, l, hmoved⟩ := t.moved_claim cpu len
    have hcpu' : other < (t.claim cpu len).2.cursors.size := lt_of_lt_of_eq hcpu hmoved.cpus.symm
    unfold answersTo
    by_cases heq : cpu = other
    · subst heq
      rw [if_pos rfl] at hlen hroom ⊢
      rw [List.sum_cons] at hroom
      obtain ⟨hvalid, hrest⟩ := List.forall_mem_cons.mp hlen
      have hclaim := claim_of_fits hvalid hcpu (Cursor.fits_iff.mpr (by omega))
      have hcursor : (t.claim cpu len).2.cursor cpu = { t.cursor cpu with next := (t.cursor cpu).next + len } := by
        rw [hclaim]
        exact cursor_modifyCursor hcpu
      have hanswers := ih hcpu' hrest (by
        rw [hcursor]
        dsimp only
        omega)
      rw [hcursor] at hanswers
      rw [if_pos rfl, hanswers, hclaim]
      rfl
    · rw [if_neg heq] at hlen hroom ⊢
      have hnext : ((t.claim cpu len).2.cursor other).next = (t.cursor other).next := hmoved.next_of_ne other (Ne.symm heq)
      have hlimit : ((t.claim cpu len).2.cursor other).limit = (t.cursor other).limit :=
        hmoved.limit_of_ne other (Ne.symm heq)
      have hanswers := ih hcpu' hlen (by rwa [hnext, hlimit])
      rw [hnext] at hanswers
      rw [if_neg heq, hanswers]

open Tracer

/-! ### Claims are refused only without room -/

/-- What becomes of the claim of `len` words by a CPU. -/
structure RoomDecides (t : Tracer P) (log : Ledger) (cpu len : Nat) : Prop where
  /-- A claim is refused just when the CPU has no room for it, all usable blocks have been opened, and the session does
  not wrap or has no second block to wrap onto. -/
  refused_iff : (t.claim cpu len).1 = none ↔
    ¬ (t.cursor cpu).next + len < (t.cursor cpu).limit ∧
      (∀ k < t.config.usable t.mode, 0 < openingsOf k log) ∧ (t.mode.wraps = false ∨ t.config.usable t.mode < 2)
  refused : (t.claim cpu len).1 = none → (t.claim cpu len).2.tracing = false ∧ (t.claim cpu len).2.arena.exhausted = true
  /-- A claim is granted behind the cursor of the CPU if it fits there, and at the first word for records of the block
  next in turn otherwise. -/
  granted : ∀ s, (t.claim cpu len).1 = some s →
    s = ⟨if (t.cursor cpu).next + len < (t.cursor cpu).limit then (t.cursor cpu).next
      else t.arena.recordStart t.arena.frontierBlock, len⟩ ∧
    (t.claim cpu len).2.tracing = t.tracing ∧ (t.claim cpu len).2.arena.exhausted = t.arena.exhausted
  /-- A session that wraps onto two blocks or more refuses nothing. -/
  wraps : t.mode.wraps = true → 2 ≤ t.config.usable t.mode → (t.claim cpu len).1 ≠ none
  /-- Once the arena is exhausted a CPU is served until its own block is full. -/
  exhausted : t.arena.exhausted = true →
    ((t.claim cpu len).1 = none ↔ ¬ (t.cursor cpu).next + len < (t.cursor cpu).limit)
  /-- Up to then it is served whatever other CPUs claim. -/
  served : ∀ claims : List (Nat × Nat), (∀ n ∈ lengthsOf cpu claims, 1 ≤ n ∧ n ≤ 8) →
    (t.cursor cpu).next + (lengthsOf cpu claims).sum < (t.cursor cpu).limit →
    t.answersTo cpu claims = (spansFrom (t.cursor cpu).next (lengthsOf cpu claims)).map some

theorem History.openBlock_none_iff (h : History t log) : (t.arena.openBlock t.mode.wraps).1 = none ↔
    (∀ k < t.config.usable t.mode, 0 < openingsOf k log) ∧ (t.mode.wraps = false ∨ t.config.usable t.mode < 2) := by
  rw [h.opened.openBlock_none_iff h.inMode.wraps, ← h.usable_eq]
  exact and_congr_left' h.placed.all_opened_iff.symm

/-- A claim that opens a block starts at the first word for records of the block next in turn. -/
theorem History.recordStart_of_openBlock (h : History t log) (ho : (t.arena.openBlock t.mode.wraps).1 = some o) :
    o.recordStart = t.arena.recordStart t.arena.frontierBlock := by
  have htakes := h.opened.takes (Prod.ext ho rfl)
  rw [htakes.recordStart, h.opened.frontierBlock_eq (Nat.zero_lt_of_lt htakes.block_lt)]

theorem History.claim_granted (h : History t log) (hs : (t.claim cpu len).1 = some s) :
    s = ⟨if (t.cursor cpu).fits len then (t.cursor cpu).next else t.arena.recordStart t.arena.frontierBlock, len⟩ ∧
      (t.claim cpu len).2.tracing = t.tracing ∧ (t.claim cpu len).2.arena.exhausted = t.arena.exhausted := by
  have hclaim : t.claim cpu len = (some s, (t.claim cpu len).2) := Prod.ext hs rfl
  obtain ⟨hlen, hcpu⟩ := served_of_claim hclaim
  cases hfits : (t.cursor cpu).fits len
  · obtain ⟨o, a, hopen, rfl, hu⟩ := claim_opens hclaim hfits
    obtain ⟨-, -, -, hexhausted, -⟩ := openBlock_some_inv hopen
    obtain ⟨-, -, ⟨n, -, hmoved⟩, -⟩ := overrun_spec hcpu hfits
    obtain ⟨-, -, -, harena⟩ := (t.overrun cpu len).blockTaken_spec len o a (hmoved.cpus ▸ hcpu)
    rw [(overrun_sameFrontier t cpu len).exhausted] at hexhausted
    have hturn : (t.arena.openBlock t.mode.wraps).1 = some o := by
      rw [← (overrun_sameFrontier t cpu len).openBlock]
      exact congrArg Prod.fst hopen
    rw [hu, harena, (SameFrontier.startFilling ..).exhausted, (SameFrontier.layOut ..).exhausted]
    refine ⟨?_, (blockTaken_tracing ..).trans (t.overrun_tracing cpu len), hexhausted⟩
    rw [h.recordStart_of_openBlock hturn, if_neg Bool.false_ne_true]
  · rw [claim_of_fits hlen hcpu hfits] at hs ⊢
    obtain rfl := Option.some.inj hs
    exact ⟨by rw [if_pos rfl], rfl, rfl⟩

/-- A claim is refused only when there is truly no room for it. -/
theorem refused_without_room (h : History t log) (hcpu : cpu < t.config.cpus) (hlen : 1 ≤ len ∧ len ≤ 8) :
    RoomDecides t log cpu len := by
  have hvalid : Event.isValidLength len = true := isValidLength_iff.mpr hlen
  have hserved : cpu < t.cursors.size := lt_of_lt_of_eq hcpu h.sized.cpus.symm
  have hnone := claim_eq_none_iff hvalid hserved
  rw [h.openBlock_none_iff, ← Bool.not_eq_true, Cursor.fits_iff] at hnone
  refine ⟨hnone, fun hrefused => ?_, fun s hs => ?_, fun hwraps htwo hrefused => ?_, fun hexhausted => ?_,
    fun claims hlens hroom => ?_⟩
  · obtain ⟨hfits, hopen⟩ := (claim_eq_none_iff hvalid hserved).mp hrefused
    obtain ⟨-, htracing, hview⟩ := claim_of_refused hvalid hserved hfits hopen
    exact ⟨htracing, congrArg (·.arena.exhausted) hview⟩
  · have hgranted := h.claim_granted hs
    unfold Cursor.fits at hgranted
    simpa using hgranted
  · obtain ⟨-, -, hstops | hfew⟩ := hnone.mp hrefused
    · rw [hwraps] at hstops
      cases hstops
    · omega
  · -- all usable blocks have been opened when a block is refused, and the mode stays
    refine hnone.trans ⟨fun hall => hall.1, fun hfull => ⟨hfull, ?_⟩⟩
    rw [← h.openBlock_none_iff, h.opened.openBlock_none_iff h.inMode.wraps]
    exact ⟨h.opened.of_exhausted hexhausted, h.inMode.exhausted hexhausted⟩
  · exact answersTo_eq hserved (fun n hn => isValidLength_iff.mpr (hlens n hn)) hroom

/-- A CPU has exhausted the arena while another still has room in its own block. -/
theorem refused_without_room_of_two_cpus :
    ∃ (t : Tracer TimeOnly) (log : Ledger), History t log ∧ t.arena.exhausted = true ∧ (t.claim 0 1).1 = none ∧
      (t.claim 1 8).1 = some ⟨7, 8⟩ ∧ 1 < t.config.cpus ∧ (1 ≤ 8 ∧ 8 ≤ 8) ∧ RoomDecides t log 1 8 := by
  have hnew : History _ [] := .new (show Tracer.ofConfig ({} : TimeOnly) { blocks := 2, cpus := 2 } = .ok _ from rfl)
  have hrun := (((hnew.act {} (.claim 0 3)).act {} (.execute .flush)).act {} (.claim 1 1)).act {} (.claim 0 2)
  exact ⟨_, _, hrun, by decide +kernel, by decide +kernel, by decide +kernel, by decide +kernel, by decide,
    refused_without_room hrun (by decide +kernel) (by decide)⟩

end Claims

end EventRecorder
