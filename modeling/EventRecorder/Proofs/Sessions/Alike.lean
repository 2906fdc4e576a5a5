import EventRecorder.Proofs.Sessions.Agreement

/-! # Tracers that are alike

Two tracers are alike if they differ at most in words that their sessions have not settled, in their packet filters
and in their journals. Every function of a tracer keeps alike tracers alike and gives the same result for both: it
decides by what they share, and it looks only at words that are settled. -/

namespace EventRecorder

open Ledger LogView Arena

variable {P : Type}

namespace Tracer

/-- The tracer with another arena, packet filter and journal. -/
@[simps]
def swap (t : Tracer P) (arena : Arena) (packets : PacketFilter) (journal : List Notice) : Tracer P :=
  { t with arena, packets, journal }

/-- The tracers agree on all words that the session has settled, and on all that no word decides. -/
inductive Alike (t : Tracer P) : Tracer P → Prop
  | intro {b : Arena} (p : PacketFilter) (j : List Notice) : Agree t.view b → Alike t (t.swap b p j)

/-- Two calls answer the same and leave alike tracers. -/
def SameResult {α : Type} (r r' : α × Tracer P) : Prop := r'.1 = r.1 ∧ Alike r.2 r'.2

/-- Two claims are both refused, or grant the same words, and the tracers are alike once these have been written. -/
def SameClaim (len : Nat) : Option Span × Tracer P → Option Span × Tracer P → Prop
  | (none, t), (none, u) => Alike t u
  | (some s, t), (some s', u) => s' = s ∧ ∀ ws : List UInt64, ws.length = len →
      Alike { t with arena := t.arena.setWords s.start ws } { u with arena := u.arena.setWords s.start ws }
  | _, _ => False

variable {t u : Tracer P} {b : Arena} {p : PacketFilter} {j : List Notice} {cpu i len n : Nat} {log : Ledger}

theorem Alike.of_agree (h : Agree t.view b) (hu : u = t.swap b p j) : Alike t u := hu ▸ .intro p j h

/-! ### Small changes -/

namespace Alike

theorem platform (h : Alike t u) : u.platform = t.platform := by
  obtain ⟨p, j, -⟩ := h
  rfl

theorem cursors (h : Alike t u) : u.cursors = t.cursors := by
  obtain ⟨p, j, -⟩ := h
  rfl

theorem mode (h : Alike t u) : u.mode = t.mode := by
  obtain ⟨p, j, -⟩ := h
  rfl

theorem tracing (h : Alike t u) : u.tracing = t.tracing := by
  obtain ⟨p, j, -⟩ := h
  rfl

theorem named (h : Alike t u) : u.named = t.named := by
  obtain ⟨p, j, -⟩ := h
  rfl

end Alike

theorem Alike.report (h : Alike t u) (x y : Notice) : Alike (t.report x) (u.report y) := by
  obtain ⟨p, j, hb⟩ := h
  exact .of_agree (hb.of_stayed rfl (.of_eq rfl)) rfl

theorem Alike.off (h : Alike t u) : Alike t.off u.off := by
  obtain ⟨p, j, hb⟩ := h
  unfold Tracer.off
  rw [swap_tracing]
  split
  · exact .of_agree (hb.of_stayed rfl (.of_eq rfl)) rfl
  · exact .intro p j hb

theorem Alike.on (h : Alike t u) : Alike t.on u.on := by
  obtain ⟨p, j, hb⟩ := h
  unfold Tracer.on
  rw [swap_tracing]
  split
  · exact .intro p j hb
  · exact .of_agree (hb.of_stayed rfl (.of_eq rfl)) rfl

theorem Alike.refuseLength (h : Alike t u) (len : Nat) : Alike (t.refuseLength len) (u.refuseLength len) := by
  obtain ⟨p, j, hb⟩ := h
  exact .of_agree (hb.of_stayed rfl (.of_eq rfl)) rfl

theorem Alike.setWord (h : Alike t u) (hp : Placed t.mode t.view (shape log)) (i : Nat) (x : UInt64) :
    Alike { t with arena := t.arena.setWord i x } { u with arena := u.arena.setWord i x } := by
  obtain ⟨p, j, hb⟩ := h
  exact .of_agree (hb.setWord hp.opened rfl (.of_eq rfl)) rfl

theorem Alike.merged? (h : Alike t u) (hp : Placed t.mode t.view (shape log)) (cpu : Nat) (ret : UInt64) :
    u.merged? cpu ret = t.merged? cpu ret := by
  obtain @⟨b, p, j, hb⟩ := h
  refine Option.ext fun ⟨i, w⟩ => ?_
  rw [merged?_eq_some_iff, merged?_eq_some_iff, show (t.swap b p j).cursor cpu = t.cursor cpu from rfl]
  refine and_congr_right fun hroom => and_congr_right ?_
  rintro rfl
  rw [show (t.swap b p j).arena.word ((t.cursor cpu).next - 1) = t.arena.word ((t.cursor cpu).next - 1) from
    hb.prior hp hroom]

section Platform
variable [Platform P]

theorem Alike.readTime (h : Alike t u) : SameResult t.readTime u.readTime := by
  obtain ⟨p, j, hb⟩ := h
  exact ⟨rfl, .of_agree (hb.of_stayed rfl (.of_eq rfl)) rfl⟩

/-! ### Claims -/

theorem prepareCounters_swap (t : Tracer P) (b : Arena) (p : PacketFilter) (j : List Notice) (cpu : Nat) :
    (t.swap b p j).prepareCounters cpu = (t.prepareCounters cpu).swap b p j := by
  unfold prepareCounters
  rw [show (t.swap b p j).cursor cpu = t.cursor cpu from rfl]
  split <;> rfl

theorem startBlock_swap (t : Tracer P) (b : Arena) (p : PacketFilter) (j : List Notice) (cpu : Nat) (o : Opening) :
    ∃ j', (t.swap b p j).startBlock cpu o = (t.startBlock cpu o).swap
      ((b.layOut o (t.blockHeader cpu) t.blockTask).startFilling (b.blockOf o.start)) p j' := by
  have hlaid : (t.swap b p j).laidOut cpu o =
      (t.laidOut cpu o).swap (b.layOut o (t.blockHeader cpu) t.blockTask) p j := rfl
  rw [startBlock_eq, startBlock_eq, hlaid, prepareCounters_swap, ← blockOf_layOut b o (t.blockHeader cpu) t.blockTask]
  exact ⟨_, rfl⟩

theorem blockTaken_swap (t : Tracer P) (b : Arena) (p : PacketFilter) (j : List Notice) (cpu len : Nat) (o : Opening)
    (a b' : Arena) : ∃ j', (t.swap b p j).blockTaken cpu len o b' = (t.blockTaken cpu len o a).swap
      ((b'.layOut o ((t.frontierMoved o a).blockHeader cpu) (t.frontierMoved o a).blockTask).startFilling
        (b'.blockOf o.start)) p j' := by
  obtain ⟨j₁, hj₁⟩ : ∃ j₁, (t.swap b p j).frontierMoved o b' = (t.frontierMoved o a).swap b' p j₁ := by
    unfold frontierMoved
    split <;> exact ⟨_, rfl⟩
  obtain ⟨j₂, hj₂⟩ := startBlock_swap (t.frontierMoved o a) b' p j₁ cpu o
  refine ⟨j₂, ?_⟩
  unfold blockTaken
  rw [hj₁, hj₂]
  rfl

/-- A CPU without room opens the same block in both tracers. -/
theorem Alike.claimFresh (h : Alike t u) (hp : Placed t.mode t.view (shape log))
    (hlen : Event.isValidLength len = true) (hcpu : cpu < t.cursors.size) (hroom : (t.cursor cpu).hasRoom = false) :
    SameClaim len (t.claimFresh cpu len) (u.claimFresh cpu len) := by
  obtain @⟨b, p, j, hb⟩ := h
  rcases hopen : t.arena.openBlock t.mode.wraps with ⟨_ | o, a⟩
  · obtain ⟨b', hb', hagree⟩ := hb.refused (w := ⟨a, t.cursors⟩) hp.opened hopen (.of_eq rfl)
    unfold Tracer.claimFresh
    simp only [swap_arena, swap_mode, hopen, hb']
    rw [swap_tracing]
    split
    · exact .of_agree (hagree.of_stayed rfl (.of_eq rfl)) rfl
    · exact .of_agree hagree rfl
  · obtain ⟨b', hb', htwin, hwords⟩ := hb.twin.openBlock_some hopen
    obtain ⟨j', hj'⟩ := blockTaken_swap t b p j cpu len o a b'
    obtain ⟨-, -, hmoved, harena⟩ := t.blockTaken_spec len o a hcpu
    rw [claimFresh_of_openBlock hopen, claimFresh_of_openBlock (t := t.swap b p j) hb', hj']
    refine ⟨rfl, fun ws hws => .of_agree ?_ rfl⟩
    -- a step takes a block and writes to it at once, so the view is that after the words are written
    have htook := hp.took (w := { t.blockTaken cpu len o a with
      arena := (t.blockTaken cpu len o a).arena.setWords o.recordStart ws }.view) hlen hcpu hroom (Or.inr hws) hopen rfl
      (congrArg (Arena.setWords · o.recordStart ws) harena) (Moved.of_cursors hmoved rfl rfl)
    have hblock : b'.blockOf o.start = t.arena.blockOf o.recordStart := by
      have hlt := hp.opened.lt_blocks htook.block_lt
      rw [htwin.blockOf, htook.opening_start, ← blockStart_congr htook.taken.blocks]
      exact blockOf_blockStart (htook.taken.blocks ▸ hlt)
    rw [hblock]
    exact hb.took hp htook hws htwin hwords

omit [Platform P] in
/-- A CPU runs over the end of its block in both tracers. -/
theorem Alike.overrun (h : Alike t u) (hp : Placed t.mode t.view (shape log)) (hlen : Event.isValidLength len = true)
    (hcpu : cpu < t.cursors.size) (hfits : (t.cursor cpu).fits len = false) :
    Alike (t.overrun cpu len) (u.overrun cpu len) := by
  obtain @⟨b, p, j, hb⟩ := h
  obtain ⟨-, -, ⟨n, hn, hmoved⟩, ⟨hunset, harena⟩ | ⟨hset, harena⟩⟩ := overrun_spec hcpu hfits
  · refine .of_agree (b := b) (p := p) (j := j) (hb.of_unset hp.opened harena hunset hmoved) ?_
    unfold Tracer.overrun
    rw [if_pos hunset]
    exact if_pos hunset
  · refine .of_agree (p := p) (j := j)
      (hb.left_short hp.opened hset (limit_le_of_not_fits hlen hfits) harena hmoved) ?_
    unfold Tracer.overrun
    rw [if_neg hset]
    exact if_neg hset

theorem Alike.claim (h : Alike t u) (hp : Placed t.mode t.view (shape log)) (cpu len : Nat) :
    SameClaim len (t.claim cpu len) (u.claim cpu len) := by
  have hsize := congrArg Array.size h.cursors
  cases hlen : Event.isValidLength len
  · rw [claim_of_invalid hlen, claim_of_invalid hlen]
    exact h.refuseLength len
  rcases Nat.lt_or_ge cpu t.cursors.size with hcpu | hunserved
  · rw [claim_eq hlen hcpu, claim_eq hlen (hsize ▸ hcpu), show u.cursor cpu = t.cursor cpu by simp [cursor, h.cursors]]
    cases hfits : (t.cursor cpu).fits len
    · have hover := h.overrun hp hlen hcpu hfits
      obtain ⟨-, hmode, ⟨n, hn, hmoved⟩, -⟩ := overrun_spec hcpu hfits
      have hroom : ((t.overrun cpu len).cursor cpu).hasRoom = false :=
        Bool.eq_false_iff.mpr fun hlt => Nat.not_lt_of_le hn (hmoved.hasRoom_iff.mp hlt)
      have hplaced : Placed t.mode (t.overrun cpu len).view (shape log) :=
        hp.of_left (overrun_sameFrontier t cpu len) hmoved hn
      exact hover.claimFresh (hmode ▸ hplaced) hlen (hmoved.cpus ▸ hcpu) hroom
    · obtain @⟨b, p, j, hb⟩ := h
      have hmoved := moved_modifyCursor (t := t) (f := fun c => { c with next := (t.cursor cpu).next + len }) hcpu
      refine ⟨rfl, fun ws hws => .of_agree ?_ rfl⟩
      obtain ⟨q, hext⟩ := hp.extended (w := ⟨t.arena.setWords (t.cursor cpu).next ws, _⟩) hlen hfits (Or.inr hws) rfl
        (Moved.of_cursors hmoved rfl rfl)
      exact hb.extended hp hext hws
  · rw [claim_of_unserved hlen hunserved, claim_of_unserved hlen (hsize ▸ hunserved)]
    exact h

/-! ### Records -/

theorem Alike.rated (h : Alike t u) (hp : Placed t.mode t.view (shape log)) (hrates : t.mode.rates = true)
    (hi : i < (t.cursor cpu).limit) (now x y : UInt64) :
    Alike { (t.measureRate cpu now).2 with arena := t.arena.setWord (i / 8) x }
      { (u.measureRate cpu now).2 with arena := u.arena.setWord (i / 8) y } := by
  obtain ⟨p, j, hb⟩ := h
  refine .of_agree ?_ rfl
  exact hb.setRate hp.opened (hp.rate_lt_limit hrates hi) rfl ((t.measureRate_spec cpu now).1.trans (.of_eq rfl))

theorem Alike.noteRate (h : Alike t u) (hp : Placed t.mode t.view (shape log)) (hi : i < (t.cursor cpu).limit)
    (now : UInt64) : Alike (t.noteRate cpu i now) (u.noteRate cpu i now) := by
  unfold Tracer.noteRate
  rw [h.mode]
  split
  · exact h.rated hp ‹_› hi now _ _
  · exact h

theorem Alike.noteReturnRate (h : Alike t u) (hp : Placed t.mode t.view (shape log)) (hi : i < (t.cursor cpu).limit)
    (now : UInt64) : Alike (t.noteReturnRate cpu i now) (u.noteReturnRate cpu i now) := by
  unfold Tracer.noteReturnRate
  rw [h.mode]
  split
  · exact h.rated hp ‹_› hi now _ _
  · exact h

theorem Alike.insertAt (h : Alike t u) (hp : Placed t.mode t.view (shape log)) (cpu : Nat) (now first : UInt64)
    (payload : List UInt64) : SameResult (t.insertAt cpu now first payload) (u.insertAt cpu now first payload) := by
  have hclaim := h.claim hp cpu (payload.length + 1)
  have hgrants := claim_grants t log cpu (payload.length + 1)
  unfold Tracer.insertAt
  generalize t.claim cpu (payload.length + 1) = r at hclaim hgrants ⊢
  generalize u.claim cpu (payload.length + 1) = r' at hclaim ⊢
  obtain ⟨_ | s, t₁⟩ := r <;> obtain ⟨_ | s', u₁⟩ := r'
  · exact ⟨rfl, hclaim⟩
  · exact hclaim.elim
  · exact hclaim.elim
  · obtain ⟨rfl, hwrite⟩ := hclaim
    obtain ⟨-, ⟨l, hmoved, hlt⟩, hleads⟩ := hgrants
    -- the rate is noted once the words are written, when the CPU stands behind them
    have hplaced := (hleads (Head.stamp first now :: payload) (Or.inr rfl)).placed hp
    refine ⟨rfl, (hwrite (Head.stamp first now :: payload) rfl).noteRate hplaced ?_ now⟩
    exact Nat.lt_of_lt_of_eq hlt hmoved.limit.symm

theorem Alike.insert (h : Alike t u) (hp : Placed t.mode t.view (shape log)) (first : UInt64) (payload : List UInt64) :
    SameResult (t.insert first payload) (u.insert first payload) := by
  obtain ⟨hnow, hread⟩ := h.readTime
  unfold Tracer.insert
  dsimp only
  rw [hnow, show u.readTime.2.currentCpu = t.readTime.2.currentCpu from congrArg Platform.currentCpu hread.platform]
  exact hread.insertAt (t := t.readTime.2) hp _ _ first payload

/-- A return is folded in both tracers or in none. -/
theorem Alike.insertReturn (h : Alike t u) (hp : Placed t.mode t.view (shape log)) (ret : UInt64) :
    SameResult (t.insertReturn ret) (u.insertReturn ret) := by
  obtain ⟨hnow, hread⟩ := h.readTime
  unfold Tracer.insertReturn
  dsimp only
  rw [hnow, show u.readTime.2.currentCpu = t.readTime.2.currentCpu from congrArg Platform.currentCpu hread.platform,
    hread.merged? (t := t.readTime.2) hp]
  cases hmerged : t.readTime.2.merged? t.readTime.2.currentCpu (Head.stamp ret t.readTime.1) with
  | none => exact hread.insertAt (t := t.readTime.2) hp _ _ ret []
  | some x =>
    obtain ⟨i, w⟩ := x
    obtain ⟨hroom, hi, -⟩ := merged?_eq_some_iff.mp hmerged
    have hlt := Cursor.hasRoom_iff.mp hroom
    have hplaced : Placed t.mode { t.readTime.2 with arena := t.readTime.2.arena.setWord i w }.view (shape log) :=
      hp.of_stayed (.setWord ..) (.of_eq rfl)
    refine ⟨rfl, (hread.setWord (t := t.readTime.2) hp i w).noteReturnRate hplaced ?_ _⟩
    exact hi ▸ Nat.lt_of_le_of_lt (Nat.sub_le ..) hlt

theorem Alike.insertMany (h : Alike t u) (hp : Placed t.mode t.view (shape log)) (words : List UInt64) :
    SameResult (t.insertMany words) (u.insertMany words) := by
  cases words with
  | nil => exact ⟨rfl, h.refuseLength 0⟩
  | cons first rest =>
    unfold Tracer.insertMany
    dsimp only
    split
    · exact ⟨rfl, h.refuseLength _⟩
    · exact h.insert hp first _

theorem Alike.insertUser (h : Alike t u) (hp : Placed t.mode t.view (shape log)) (address : UInt64) :
    SameResult (t.insertUser address) (u.insertUser address) := by
  unfold Tracer.insertUser
  rw [h.platform]
  split
  · exact ⟨rfl, h⟩
  · exact h.insertMany hp _

/-! ### Hooks -/

theorem Alike.traceEvent (h : Alike t u) (hp : Placed t.mode t.view (shape log)) (event arg : UInt64) :
    SameResult (t.traceEvent event arg) (u.traceEvent event arg) := by
  unfold Tracer.traceEvent
  rw [h.tracing]
  split
  · exact ⟨rfl, h⟩
  · split
    · exact h.insertReturn hp _
    · exact h.insert hp _ []

theorem Alike.traceSample (h : Alike t u) (hp : Placed t.mode t.view (shape log)) (event pc : UInt64) :
    SameResult (t.traceSample event pc) (u.traceSample event pc) := by
  unfold Tracer.traceSample
  rw [h.tracing, h.platform]
  split
  · exact ⟨rfl, h⟩
  · exact h.insert hp _ [pc]

theorem Alike.traceWords (h : Alike t u) (hp : Placed t.mode t.view (shape log)) (event : UInt64)
    (words : List UInt64) : SameResult (t.traceWords event words) (u.traceWords event words) := by
  unfold Tracer.traceWords
  rw [h.tracing]
  split
  · exact ⟨rfl, h⟩
  · split
    · exact ⟨rfl, h.refuseLength _⟩
    · exact h.insertMany hp _

theorem Alike.traceName (h : Alike t u) (hp : Placed t.mode t.view (shape log)) (pid : UInt32) (name : TaskName) :
    SameResult (t.traceName pid name) (u.traceName pid name) := by
  have hnamed : ∀ named, Alike { t with named } { u with named } := fun named => by
    obtain ⟨p, j, hb⟩ := h
    exact .of_agree (hb.of_stayed rfl (.of_eq rfl)) rfl
  have hcond : (!u.tracing || u.named.contains pid) = (!t.tracing || t.named.contains pid) := by
    rw [h.tracing, h.named]
  unfold Tracer.traceName
  rw [hcond, show u.named.insert pid = t.named.insert pid from congrArg (PidSet.insert · pid) h.named]
  split
  · exact ⟨rfl, h⟩
  · exact (hnamed _).insertMany (t := { t with named := t.named.insert pid }) hp
      [Head.callWord Event.processNameRecord (Head.argField.get pid.toUInt64), name.toWords.1, name.toWords.2]

end Platform

/-! ### Flushes and resets -/

theorem Alike.flushCpu (h : Alike t u) (ho : t.arena.Opened n) (cpu : Nat) (hcpu : cpu < t.cursors.size) :
    Alike (t.flushCpu cpu) (u.flushCpu cpu) := by
  obtain @⟨b, p, j, hb⟩ := h
  unfold Tracer.flushCpu
  rw [show (t.swap b p j).cursor cpu = t.cursor cpu from rfl]
  dsimp only
  split
  · rename_i hroom
    have hmoved := moved_modifyCursor (t := t) (f := ({ · with next := (t.cursor cpu).limit })) hcpu
    refine .of_agree (hb.flushed ho hroom rfl (Moved.of_cursors hmoved rfl rfl)) rfl
  · exact .intro p j hb

theorem Alike.flushAll (h : Alike t u) (hp : Placed t.mode t.view (shape log)) {cpus : List Nat}
    (hcpus : ∀ cpu ∈ cpus, cpu < t.cursors.size) :
    Alike (cpus.foldl Tracer.flushCpu t) (cpus.foldl Tracer.flushCpu u) := by
  induction cpus generalizing t u with
  | nil => exact h
  | cons cpu cpus ih =>
    obtain ⟨hcpu, hrest⟩ := List.forall_mem_cons.mp hcpus
    obtain ⟨hlead, hsize⟩ := flushCpu_leads t log hcpu
    exact ih (h.flushCpu hp.opened cpu hcpu) (hlead.placed hp) fun c hc => hsize ▸ hrest c hc

theorem Alike.room (h : Alike t u) : u.room = t.room := by
  obtain ⟨p, j, -⟩ := h
  rfl

theorem Alike.flush (h : Alike t u) (hp : Placed t.mode t.view (shape log)) : SameResult t.flush u.flush := by
  have hoff := h.off
  have hroom := hoff.room
  refine ⟨hroom, ?_⟩
  unfold Tracer.flush
  dsimp only
  rw [hoff.cursors]
  exact (hoff.flushAll ((off_leads t log).placed hp) fun c hc => List.mem_range.mp hc).report _ _

/-- Tracers that are not tracing are alike once they are reset, whatever they recorded. -/
theorem reset_alike (hplatform : u.platform = t.platform) (hconfig : u.config = t.config)
    (hblocks : u.arena.blocks = t.arena.blocks) (hcpus : u.cursors.size = t.cursors.size) (ht : t.tracing = false)
    (hu : u.tracing = false) (mode : Mode) : SameResult (t.reset mode) (u.reset mode) := by
  unfold reset
  rw [if_neg (by simp [ht]), if_neg (by simp [hu])]
  refine ⟨rfl, .of_agree (p := u.packets) (j := .sessionReset mode.rates mode.wraps :: u.journal)
    (Agree.start hblocks mode.rates t.cursors.size) ?_⟩
  dsimp only [report, swap]
  rw [hplatform, hconfig, hcpus, ht, hu]

theorem Alike.reset (h : Alike t u) (mode : Mode) : SameResult (t.reset mode) (u.reset mode) := by
  cases htracing : t.tracing
  · obtain @⟨b, p, j, hb⟩ := h
    exact reset_alike (t := t) (u := t.swap b p j) rfl rfl hb.twin.blocks rfl htracing htracing mode
  · rw [reset_of_tracing htracing, reset_of_tracing (h.tracing.trans htracing)]
    exact ⟨rfl, h⟩

end Tracer

end EventRecorder
