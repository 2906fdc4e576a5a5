import EventRecorder.Platform.Simulated
import EventRecorder.Proofs.Block.Task
import EventRecorder.Proofs.Hooks.Folding
import EventRecorder.Proofs.Ledger.Observers

/-! # Inscriptions

A CPU that opens a block inscribes it with its number, the stamp of the moment and the task that runs. An observer of
all openings notes the same, and every opened block reads back as it was inscribed when it was last opened. -/

namespace EventRecorder

open Ledger LogView Arena

variable {P : Type} {a b : Arena} {cpu i k len : Nat} {log : Ledger} {m : Mode} {span : Span}

/-- What a CPU inscribes on a block that it opens. -/
structure Inscription where
  block : Nat
  cpu : Nat
  stamp : UInt64
  task : Task
deriving DecidableEq

namespace Inscription

/-- The header that is written for an inscription in a session. -/
def header (e : Inscription) (m : Mode) : Header := ⟨UInt8.ofNat e.cpu, e.stamp, m.flags, 0⟩

end Inscription

/-- A block reads back as it was inscribed. -/
structure Inscribed (a : Arena) (m : Mode) (e : Inscription) : Prop where
  header : a.header e.block = ⟨UInt8.ofNat e.cpu, e.stamp &&& ones 56, m.flags, 0⟩
  task : a.task e.block = e.task
  /-- The word behind the process of the task is not used. -/
  reserved : a.word (a.blockStart e.block + headerWords e.block - 3) = 0
  session : e.block = 0 → ∀ j < sessionWords, a.word (a.blockStart e.block + 2 + j) = 0

namespace Inscribed

variable {e : Inscription}

/-- Only the words in front of the records count. -/
theorem congr (h : Inscribed a m e) (hb : b.blocks = a.blocks)
    (hw : ∀ i, a.blockStart e.block ≤ i → i < a.recordStart e.block → b.word i = a.word i) : Inscribed b m e := by
  have hstart := blockStart_congr hb e.block
  have hheader := headerWords_pos e.block
  have hword : ∀ j < headerWords e.block, b.word (a.blockStart e.block + j) = a.word (a.blockStart e.block + j) :=
    fun j hj => hw _ (Nat.le_add_right ..) (by unfold recordStart; omega)
  have htask : ∀ j, a.blockStart e.block + headerWords e.block - 4 + j =
      a.blockStart e.block + (headerWords e.block - 4 + j) := fun j => by omega
  refine ⟨?_, ?_, ?_, fun hk j hj => ?_⟩
  · rw [← h.header]
    unfold Arena.header
    rw [hstart, hword 1 (by omega)]
    exact congrArg (Header.ofWords · _) (hword 0 (by omega))
  · rw [← h.task]
    unfold Arena.task
    dsimp only
    rw [hstart, htask, htask, hword _ (by omega), hword _ (by omega)]
    have hfirst := hword (headerWords e.block - 4) (by omega)
    rw [show a.blockStart e.block + headerWords e.block - 4 = a.blockStart e.block + (headerWords e.block - 4) by omega,
      hfirst]
  · rw [← h.reserved, hstart,
      show a.blockStart e.block + headerWords e.block - 3 = a.blockStart e.block + (headerWords e.block - 3) by omega]
    exact hword _ (by omega)
  · rw [← h.session hk j hj, hstart, Nat.add_assoc]
    refine hword _ ?_
    rw [hk]
    unfold headerWords firstHeaderWords
    unfold sessionWords at hj
    rw [if_pos rfl]
    omega

/-- A block that is laid out is inscribed. -/
theorem layOut {o : Opening} (hstart : o.start = a.blockStart e.block) (hfirst : o.veryFirst = decide (e.block = 0))
    (hhigh : o.start + blockWords ≤ a.high) : Inscribed (a.layOut o (e.header m) e.task) m e := by
  have hblocks : (a.layOut o (e.header m) e.task).blocks = a.blocks := (SameFrontier.layOut ..).blocks
  have htask : o.taskStart = a.blockStart e.block + headerWords e.block - 4 := by
    unfold Opening.taskStart headerWords sessionWords firstHeaderWords plainHeaderWords
    rw [hstart, hfirst]
    split <;> rename_i hk <;> simp at hk <;> simp [hk]
  have hword := fun j => word_layOut_task (a := a) o (e.header m) e.task (j := j) hhigh
  refine ⟨?_, ?_, ?_, fun hk j hj => ?_⟩
  · unfold Arena.header
    rw [blockStart_congr hblocks, ← hstart, word_layOut_start o _ _ hhigh, word_layOut_header o _ _ hhigh (by decide)]
    have hread := Header.ofWords_toWords (e.header m)
    rw [show (e.header m).wallClock = 0 from rfl, UInt64.zero_and] at hread
    exact hread
  · unfold Arena.task
    dsimp only
    rw [blockStart_congr hblocks, ← htask, hword 2 (by decide), hword 3 (by decide)]
    have hpid := hword 0 (by decide)
    rw [Nat.add_zero] at hpid
    rw [hpid]
    simp [TaskName.ofWords_toWords]
  · have hpos := headerWords_pos e.block
    rw [blockStart_congr hblocks,
      show a.blockStart e.block + headerWords e.block - 3 = o.taskStart + 1 by omega, hword 1 (by decide)]
    rfl
  · rw [blockStart_congr hblocks, ← hstart]
    exact word_layOut_session o _ _ (by rw [hfirst, hk]; rfl) hj

/-- A block that is taken off the frontier is inscribed when it is laid out. -/
theorem taken {n : Nat} {o : Opening} (h : b.Takes n o a) (hk : nthBlock b.usable n = e.block)
    (hlt : e.block < b.blocks) : Inscribed (a.layOut o (e.header m) e.task) m e := by
  have hstart : o.start = a.blockStart e.block := by rw [h.start, hk, blockStart_congr h.blocks]
  refine layOut hstart (hk ▸ h.veryFirst_eq) ?_
  rw [hstart]
  exact blockStop_le_high (h.blocks.symm ▸ hlt)

end Inscribed

/-! ### Openings -/

namespace Tracer

variable {s t u : Tracer P}

variable [Platform P]

/-- What a CPU inscribes when it opens a block now. -/
def inscription (t : Tracer P) (cpu block : Nat) : Inscription :=
  let (now, platform) := Platform.readTime t.platform
  ⟨block, cpu, (t.clock.stamp now (Platform.counterBits platform)).1, Platform.currentTask platform⟩

theorem inscription_congr (hp : s.platform = t.platform) (hc : s.clock = t.clock) (cpu block : Nat) :
    s.inscription cpu block = t.inscription cpu block := by
  unfold inscription
  rw [hp, hc]

theorem blockHeader_eq (t : Tracer P) (cpu block : Nat) : t.blockHeader cpu = (t.inscription cpu block).header t.mode := rfl

theorem blockTask_eq (t : Tracer P) (cpu block : Nat) : t.blockTask = (t.inscription cpu block).task := rfl

/-- A block that is opened for a claim is inscribed, and the claim lies right behind its header. -/
theorem inscribed_claim (hp : Placed t.mode t.view (shape log)) (h : t.claim cpu len = (some span, u))
    (hfits : (t.cursor cpu).fits len = false) :
    Inscribed u.arena t.mode (t.inscription cpu (t.arena.blockOf span.start)) ∧
      t.arena.blockOf span.start < t.arena.usable ∧ span.start = t.arena.recordStart (t.arena.blockOf span.start) ∧
      u.arena.blocks = t.arena.blocks ∧ u.mode = t.mode := by
  obtain ⟨-, hcpu⟩ := served_of_claim h
  obtain ⟨o, a, hopen, rfl, rfl⟩ := claim_opens h hfits
  obtain ⟨-, -, ⟨n, -, hmoved⟩, -⟩ := overrun_spec hcpu hfits
  have hsame := t.overrun_sameFrontier cpu len
  have hakin := t.overrun_akin cpu len
  have hsize : cpu < (t.overrun cpu len).cursors.size := hmoved.cpus.symm ▸ hcpu
  generalize t.overrun cpu len = s at hopen hsame hakin hsize ⊢
  obtain ⟨hplatform, hclock, hmode⟩ := hakin
  have htakes := (hp.opened.of_sameFrontier hsame).takes hopen
  generalize hk : nthBlock s.arena.usable (openings (shape log)) = k at htakes
  have hlt : k < s.arena.blocks := (hp.opened.of_sameFrontier hsame).lt_blocks (hk ▸ htakes.block_lt)
  -- the place of the claim tells the block
  have hrecord : o.recordStart = t.arena.recordStart k := hsame.recordStart k ▸ hk ▸ htakes.recordStart
  have hblock : t.arena.blockOf o.recordStart = k := by
    rw [hrecord]
    exact blockOf_recordStart (hsame.blocks ▸ hlt)
  -- the block is laid out with what is inscribed now
  obtain ⟨-, hmode', -, harena⟩ := s.blockTaken_spec len o a hsize
  obtain ⟨hplatform', hclock'⟩ := s.frontierMoved_akin o a
  have hinscription : (s.frontierMoved o a).inscription cpu k = t.inscription cpu k :=
    inscription_congr (hplatform'.trans hplatform) (hclock'.trans hclock) cpu k
  rw [(s.frontierMoved o a).blockHeader_eq cpu k, (s.frontierMoved o a).blockTask_eq cpu k, hinscription,
    (s.frontierMoved_same o a).2.2.2, hmode] at harena
  have hlaid : Inscribed _ t.mode (t.inscription cpu k) := .taken htakes hk hlt
  have hfilled := SameFrontier.startFilling (a.layOut o ((t.inscription cpu k).header t.mode) (t.inscription cpu k).task)
    (a.blockOf o.start)
  dsimp only
  rw [hblock, harena]
  refine ⟨hlaid.congr hfilled.blocks fun i _ _ => word_startFilling .., ?_, ?_, ?_, hmode'.trans hmode⟩
  · rw [← hsame.usable, ← hk]
    exact htakes.block_lt
  · exact hrecord
  · rw [hfilled.blocks, (SameFrontier.layOut ..).blocks, htakes.blocks, hsame.blocks]

theorem blocks_noteRate (t : Tracer P) (c n : Nat) (now : UInt64) : (t.noteRate c n now).arena.blocks = t.arena.blocks := by
  unfold noteRate
  split <;> rfl

/-- What the observer notes of an action that opens a block. An action that asks for a record has read the time before
it claims words. -/
def inscription? (t : Tracer P) (a : Action) : Option Inscription :=
  match t.outcome a with
  | .written cpu span =>
    if (t.cursor cpu).fits span.len then none
    else
      let s := if t.stamped a = [] then t else t.readTime.2
      some (s.inscription cpu (t.arena.blockOf span.start))
  | _ => none

end Tracer

section Platform
variable [Platform P] {s t u : Tracer P}

/-- An action that opens a block inscribes it. -/
theorem Effect.inscribed {names : PidSet} {ws : List UInt64} (h : Effect t names ws (.written cpu span) u)
    (hp : Placed t.mode t.view (shape log)) (hfits : (t.cursor cpu).fits span.len = false) :
    Inscribed u.arena t.mode
      ((if ws = [] then t else t.readTime.2).inscription cpu (t.arena.blockOf span.start)) := by
  cases h with
  | claim hclaim =>
    have hlen := Tracer.len_of_claim (congrArg Prod.fst hclaim)
    rw [hlen] at hfits
    exact (Tracer.inscribed_claim hp hclaim hfits).1
  | @write s u first payload _ hakin hplatform hclaim =>
    have hlen := Tracer.len_of_claim (congrArg Prod.fst hclaim)
    rw [hlen, ← hakin.cursor] at hfits
    have hplaced := hakin.placed hp
    obtain ⟨hinscribed, husable, hstart, hblocks, hmode⟩ := Tracer.inscribed_claim hplaced hclaim hfits
    rw [if_neg (List.cons_ne_nil first payload), ← Tracer.inscription_congr hplatform hakin.clock, ← hakin.arena, ← hakin.mode]
    refine hinscribed.congr ?_ fun i hi hi' => ?_
    · exact (Tracer.blocks_noteRate ..).trans (SameFrontier.setWords ..).blocks
    · rw [recordStart_congr hblocks] at hi'
      rw [blockStart_congr hblocks] at hi
      change i < s.arena.recordStart (s.arena.blockOf span.start) at hi'
      rw [Tracer.word_noteRate fun hrates => ?_]
      · exact word_setWords_of_outside _ (Or.inl (hstart ▸ hi'))
      · -- rates are kept below all blocks
        have hlow : s.arena.limit ≤ i := Nat.le_trans (hplaced.opened.limit_le_blockStart husable) hi
        have hhigh : s.arena.blockStop (s.arena.blockOf span.start) ≤ s.arena.high :=
          blockStop_le_high (hplaced.opened.lt_blocks husable)
        have hrecord := s.arena.recordStart_lt_blockStop (s.arena.blockOf span.start)
        have hbelow := hplaced.rate_lt_limit_of_high (i := span.start) (hmode ▸ hrates)
          (show span.start < s.arena.high by omega)
        exact Nat.ne_of_gt (Nat.lt_of_lt_of_le hbelow hlow)

end Platform

/-! ### Notes -/

namespace Ledger

/-- The blocks that were opened and the CPUs that opened them, the latest first. -/
def opened (log : Ledger) : List (Nat × Nat) := log.filterMap fun g => if g.fresh then some (g.block, g.cpu) else none

theorem opened_of_fresh {g : Grant} (h : g.fresh = true) (log : Ledger) :
    opened (g :: log) = (g.block, g.cpu) :: opened log := List.filterMap_cons_some (by rw [if_pos h])

theorem opened_of_not_fresh {g : Grant} (h : g.fresh = false) (log : Ledger) : opened (g :: log) = opened log :=
  List.filterMap_cons_none (by simp [h])

@[simp] theorem opened_amendLatest (c : Nat) (w : UInt64) (log : Ledger) : opened (amendLatest c w log) = opened log :=
  filterMap_amendLatest (fun _ => rfl) c log

theorem openingsOf_eq_countP (k : Nat) (log : Ledger) : openingsOf k log = (opened log).countP (·.1 == k) := by
  unfold openingsOf opened
  rw [List.countP_filterMap]
  exact List.countP_congr fun g _ => by cases g.fresh <;> simp

end Ledger

/-- What an observer of openings has noted are the openings of the ledger, and every block reads back as it was inscribed
last. -/
structure Inscribes (t : Tracer P) (log : Ledger) (es : List Inscription) : Prop where
  openings : (es.map fun e => (e.block, e.cpu)) = opened log
  latest : ∀ k e, es.find? (·.block == k) = some e → Inscribed t.arena t.mode e

namespace Inscribes

variable {s t u : Tracer P} {log' : Ledger} {e : Inscription} {es : List Inscription}

theorem openingsOf_eq (h : Inscribes t log es) (k : Nat) : openingsOf k log = es.countP (·.block == k) := by
  rw [openingsOf_eq_countP, ← h.openings, List.countP_map]
  rfl

theorem usable_of_find? (h : Inscribes t log es) (hp : Placed t.mode t.view (shape log))
    (he : es.find? (·.block == k) = some e) : e.block = k ∧ k < t.arena.usable := by
  have hblock : (e.block == k) = true := List.find?_some (p := fun e : Inscription => e.block == k) he
  refine ⟨eq_of_beq hblock, Nat.lt_of_lt_of_le (hp.claimed_iff.mpr ?_) hp.opened.claimed_le⟩
  rw [h.openingsOf_eq, List.countP_pos_iff]
  exact ⟨e, List.mem_of_find?_eq_some he, hblock⟩

/-- A block that is not opened keeps its inscription. -/
theorem kept (h : Inscribes t log es) (hl : Leads t log u log') (hp : Placed t.mode t.view (shape log))
    (hopen : openingsOf k log' ≤ openingsOf k log) (he : es.find? (·.block == k) = some e) :
    Inscribed u.arena u.mode e := by
  obtain ⟨rfl, husable⟩ := h.usable_of_find? hp he
  rw [hl.mode]
  exact (h.latest _ e he).congr hl.same_layout.1 fun _ => hl.header hp husable hopen

/-- An action that opens no block is not noted. -/
theorem keep (h : Inscribes t log es) (hl : Leads t log u log') (hp : Placed t.mode t.view (shape log))
    (hopened : opened log' = opened log) : Inscribes u log' es := by
  refine ⟨h.openings.trans hopened.symm, fun k e he => h.kept hl hp (Nat.le_of_eq ?_) he⟩
  rw [openingsOf_eq_countP, openingsOf_eq_countP, hopened]

theorem inscribe (h : Inscribes t log es) {g : Grant} (hl : Leads t log u (g :: log))
    (hp : Placed t.mode t.view (shape log)) (hfresh : g.fresh = true) (he : Inscribed u.arena t.mode e)
    (hblock : e.block = g.block) (hcpu : e.cpu = g.cpu) : Inscribes u (g :: log) (e :: es) := by
  refine ⟨?_, fun k e' he' => ?_⟩
  · rw [opened_of_fresh hfresh, List.map_cons, h.openings, hblock, hcpu]
  · by_cases hk : e.block = k
    · rw [List.find?_cons_of_pos (by simpa using hk)] at he'
      obtain rfl := Option.some.inj he'
      exact hl.mode ▸ he
    · rw [List.find?_cons_of_neg (by simpa using hk)] at he'
      refine h.kept hl hp (Nat.le_of_eq ?_) he'
      rw [openingsOf_of_fresh hfresh, if_neg (hblock ▸ hk), Nat.add_zero]

end Inscribes

section Platform
variable [Platform P] {t u : Tracer P} {es : List Inscription}

/-- Every action is noted as it inscribes. -/
theorem Inscribes.perform {a : Action} (h : Inscribes t log es) (hp : Placed t.mode t.view (shape log))
    (hgoes : (a.isReset && !t.tracing) = false) :
    Inscribes (t.perform a).2 (t.enter a log) ((t.inscription? a).toList ++ es) := by
  have hleads : Leads t log _ _ := Tracer.perform_leads hgoes
  have heffect := Tracer.perform_effect hgoes
  rw [Tracer.enter_eq_book hgoes]
  unfold Tracer.inscription?
  cases hout : t.outcome a with
  | dropped =>
    rw [hout] at hleads
    exact h.keep hleads hp rfl
  | merged cpu i =>
    rw [hout] at hleads
    exact h.keep hleads hp (opened_amendLatest ..)
  | written cpu span =>
    rw [hout] at hleads heffect
    unfold LogView.book at hleads ⊢
    dsimp only at hleads ⊢
    cases hfits : (t.cursor cpu).fits span.len with
    | true =>
      rw [grant_of_fits (v := t.view) hfits] at hleads ⊢
      exact h.keep hleads hp (opened_of_not_fresh rfl _)
    | false =>
      have hinscribed := heffect.inscribed hp hfits
      rw [grant_of_not_fits (v := t.view) hfits] at hleads ⊢
      rw [if_neg Bool.false_ne_true, Option.toList_some, List.singleton_append]
      exact h.inscribe hleads hp rfl hinscribed rfl rfl

theorem Observed.inscribes (h : Observed Tracer.inscription? t log es) : Inscribes t log es := by
  refine h.induction (I := Inscribes) (fun t _ _ => ⟨rfl, fun k e he => (by cases he)⟩) ?_
  intro t log es platform a hhistory hgoes ih
  exact Inscribes.perform (t := t.at platform) ⟨ih.openings, ih.latest⟩ hhistory.placed hgoes

/-! ### Intact headers -/

/-- The first grant of a block lies where its records begin. -/
theorem Placing.start_of_getLast? {cpus : Nat} {g : Grant} (h : Placing a cpus log)
    (hg : (sinceOpened k log).getLast? = some g) : g.span.start = a.recordStart k := by
  induction h with
  | nil => cases hg
  | @fresh g' log _ hfresh _ _ _ hstart _ _ ih =>
    by_cases hk : g'.block = k
    · rw [sinceOpened_of_fresh hk hfresh] at hg
      obtain rfl := Option.some.inj hg
      exact hk ▸ hstart
    · rw [sinceOpened_of_ne hk] at hg
      exact ih hg
  | @next g' p log _ hfresh hp hblock _ _ _ ih =>
    by_cases hk : g'.block = k
    · have hne : sinceOpened k log ≠ [] := by
        rw [← hk, hblock]
        exact sinceOpened_ne_nil (mem_of_latest? hp)
      rw [sinceOpened_of_not_fresh hk hfresh, List.getLast?_cons_of_ne_nil hne] at hg
      exact ih hg
    · rw [sinceOpened_of_ne hk] at hg
      exact ih hg

theorem Placed.exists_first {v : LogView} (h : Placed m v (shape log)) (hk : k < v.arena.claimed) :
    ∃ g, (sinceOpened k log).getLast? = some g ∧ g.span.start = v.arena.recordStart k := by
  obtain ⟨g, l, hl, -⟩ := h.exists_head hk
  rw [sinceOpened_shape] at hl
  have hne : sinceOpened k log ≠ [] := fun hnil => by
    rw [hnil] at hl
    cases hl
  have hlast := List.getLast?_eq_some_getLast hne
  exact ⟨_, hlast, h.placing.of_shape.start_of_getLast? hlast⟩

/-- The words of a block that hold no records are as they were when the block was inscribed. -/
structure Intact (t : Tracer P) (e : Inscription) : Prop where
  cpu : (t.arena.header e.block).cpu.toNat = e.cpu
  timestamp : (t.arena.header e.block).timestamp.toNat = e.stamp.toNat % 2 ^ 56
  flags : (t.arena.header e.block).flags = t.mode.flags
  wallClock : (t.arena.header e.block).wallClock = 0
  task : t.arena.task e.block = e.task
  reserved : t.arena.word (t.arena.blockStart e.block + headerWords e.block - 3) = 0
  session : e.block = 0 → ∀ j < sessionWords, t.arena.word (t.arena.blockStart e.block + 2 + j) = 0
  last : t.arena.word (t.arena.blockStop e.block - 1) = 0

theorem Observed.intact (h : Observed Tracer.inscription? t log es) (hk : k < t.arena.claimed) :
    ∃ e, es.find? (·.block == k) = some e ∧ Intact t e := by
  have hinscribes := h.inscribes
  have hopen := h.history.placed.claimed_iff.mp hk
  rw [hinscribes.openingsOf_eq, List.countP_pos_iff] at hopen
  obtain ⟨e, he⟩ := Option.isSome_iff_exists.mp (List.find?_isSome.mpr hopen)
  obtain ⟨rfl, -⟩ := hinscribes.usable_of_find? h.history.placed he
  have hinscribed := hinscribes.latest _ e he
  -- the number of a CPU fits the byte that the header has for it
  obtain ⟨g, hg, hcpu⟩ : ∃ g ∈ log, g.cpu = e.cpu := by
    have hmem := List.mem_map_of_mem (f := fun e => (e.block, e.cpu)) (List.mem_of_find?_eq_some he)
    rw [hinscribes.openings] at hmem
    obtain ⟨g, hg, heq⟩ := List.mem_filterMap.mp hmem
    split at heq
    · exact ⟨g, hg, congrArg Prod.snd (Option.some.inj heq)⟩
    · cases heq
  have hserved := (h.history.placed.placing.of_shape.inside g hg).cpu
  have hsmall : e.cpu < 256 := hcpu ▸ Nat.lt_of_lt_of_le (h.history.sized.cpus ▸ hserved) h.history.valid.2.2
  refine ⟨e, he, ?_, ?_, ?_, ?_, hinscribed.task, hinscribed.reserved, hinscribed.session, h.history.sealed hk⟩ <;>
    rw [hinscribed.header]
  · exact UInt8.toNat_ofNat_of_lt hsmall
  · exact toNat_and_ones e.stamp (by decide)

/-- An opened block reads back as it was inscribed when it was last opened, in every state of a tracer. The first words
granted from it lie where readers look for its records, and those of the next block will. -/
theorem headers_intact (h : Observed Tracer.inscription? t log es) :
    (es.map fun e => (e.block, e.cpu)) = opened log ∧
    (∀ k < t.arena.claimed,
      (∃ e, es.find? (·.block == k) = some e ∧ Intact t e) ∧
      (t.view.region k).start = t.arena.blockStart k + headerWords k ∧
      ∃ g, (sinceOpened k log).getLast? = some g ∧ g.span.start = (t.view.region k).start) ∧
    ∀ o b, t.arena.openBlock t.mode.wraps = (some o, b) →
      o.recordStart = o.start + 2 + (if o.veryFirst then 6 else 0) + 4 ∧
      o.recordStart = t.arena.blockStart (t.arena.blockOf o.start) + headerWords (t.arena.blockOf o.start) := by
  have hplaced := h.history.placed
  refine ⟨h.inscribes.openings, fun k hk => ⟨h.intact hk, t.view.region_start k, ?_⟩, fun o b hopen => ⟨rfl, ?_⟩⟩
  · rw [t.view.region_start]
    exact hplaced.exists_first hk
  · have htakes : t.arena.Takes _ o b := hplaced.opened.takes hopen
    have hlt : nthBlock t.arena.usable (openings (shape log)) < t.arena.blocks := hplaced.opened.lt_blocks htakes.block_lt
    rw [htakes.start, blockOf_blockStart hlt]
    exact htakes.recordStart

/-- A block that one CPU opened and, once the log had wrapped, another one. -/
theorem headers_intact_of_reopened :
    ∃ (t : Tracer Simulated) (log : Ledger) (es : List Inscription), Observed Tracer.inscription? t log es ∧
      es = [⟨1, 2, 0x1000000000000009, ⟨3, .ofBytes [115, 104]⟩⟩, ⟨1, 1, 7, .idle⟩, ⟨0, 0, 5, .idle⟩] ∧
      t.arena.claimed = 2 ∧ t.arena.wrapped = true ∧
      (es.map fun e => (e.block, e.cpu)) = opened log ∧
      (∀ k < t.arena.claimed,
        (∃ e, es.find? (·.block == k) = some e ∧ Intact t e) ∧
        (t.view.region k).start = t.arena.blockStart k + headerWords k ∧
        ∃ g, (sinceOpened k log).getLast? = some g ∧ g.span.start = (t.view.region k).start) ∧
      ∀ o b, t.arena.openBlock t.mode.wraps = (some o, b) →
        o.recordStart = o.start + 2 + (if o.veryFirst then 6 else 0) + 4 ∧
        o.recordStart = t.arena.blockStart (t.arena.blockOf o.start) + headerWords (t.arena.blockOf o.start) := by
  have hnew : Observed Tracer.inscription? _ [] [] :=
    .new (show Tracer.ofConfig ({} : Simulated) { blocks := 2, cpus := 3 } = .ok _ from rfl)
  have hrun := (((hnew.act {} (.reset ⟨false, true⟩)).act { time := 5 } (.insert 1 [])).act { time := 7, cpu := 1 }
    (.insert 2 [])).act { time := 0x1000000000000009, cpu := 2, task := ⟨3, .ofBytes [115, 104]⟩ } (.insert 3 [])
  have hintact := headers_intact hrun
  exact ⟨_, _, _, hrun, by decide +kernel, by decide +kernel, by decide +kernel, hintact⟩

end Platform

end EventRecorder
