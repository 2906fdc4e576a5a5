import EventRecorder.Proofs.Ledger.Induction

/-! # Placement

Where grants lie. A grant for which a block is opened starts behind the header of the block, every other
grant starts where the latest grant of its CPU stops, and all of them leave the last word of their block
free. The place of a CPU is known from its latest grant. -/

namespace EventRecorder

open Ledger LogView Arena

variable {P : Type} {a b : Arena} {cpus c k n : Nat} {g p q : Grant} {log : Ledger} {m : Mode} {v w : LogView}

/-- The grants of a ledger are placed one after another in the blocks of an arena. -/
inductive Placing (a : Arena) (cpus : Nat) : Ledger → Prop
  | nil : Placing a cpus []
  | fresh {g : Grant} {log : Ledger} : Placing a cpus log → g.fresh = true → g.cpu < cpus →
      g.block = nthBlock a.usable (openings log) → g.block < a.usable → g.span.start = a.recordStart g.block →
      0 < g.span.len → g.span.stop < a.blockStop g.block → Placing a cpus (g :: log)
  | next {g p : Grant} {log : Ledger} : Placing a cpus log → g.fresh = false → latest? g.cpu log = some p →
      g.block = p.block → g.span.start = p.span.stop → 0 < g.span.len → g.span.stop < a.blockStop g.block →
      Placing a cpus (g :: log)

/-- A grant lies between the header and the last word of its block, which is one of the `n` opened so far. -/
structure Inside (a : Arena) (cpus n : Nat) (g : Grant) : Prop where
  cpu : g.cpu < cpus
  start : a.recordStart g.block ≤ g.span.start
  len : 0 < g.span.len
  stop : g.span.stop < a.blockStop g.block
  block : g.block < a.usable
  opened : ∃ i < n, nthBlock a.usable i = g.block

/-- The grants and the places of the CPUs fit each other and the arena. -/
structure Placed (m : Mode) (v : LogView) (log : Ledger) : Prop where
  limit : v.arena.limit = if m.rates then (v.arena.blocks + 7) / 8 * blockWords else 0
  opened : v.arena.Opened (openings log)
  placing : Placing v.arena v.cursors.size log
  unset : ∀ c, latest? c log = none → (v.cursor c).limit = 0
  limit_of : ∀ c g, latest? c log = some g → (v.cursor c).limit = v.arena.blockStop g.block
  next_of : ∀ c g, latest? c log = some g → (v.cursor c).hasRoom = true → (v.cursor c).next = g.span.stop

/-- `g` was granted to a CPU behind its latest grant `p`. -/
structure Extended (v w : LogView) (log : Ledger) (p g : Grant) : Prop where
  latest : latest? g.cpu (shape log) = some p
  fresh : g.fresh = false
  block : g.block = p.block
  start : g.span.start = p.span.stop
  len : 0 < g.span.len
  stop : g.span.stop < v.arena.blockStop g.block
  words : g.words = [] ∨ g.words.length = g.span.len
  room : (v.cursor g.cpu).fits 1 = true
  prior : Inside v.arena v.cursors.size (openings log) p
  arena : w.arena = v.arena.setWords g.span.start g.words
  moved : Moved v w g.cpu g.span.stop (v.arena.blockStop g.block)

/-- `g` was granted to a CPU in a block taken off the frontier. -/
structure Took (v w : LogView) (log : Ledger) (g : Grant) (o : Opening) (a : Arena) (header : Header) (task : Task) :
    Prop where
  cpu : g.cpu < v.cursors.size
  fresh : g.fresh = true
  unspent : g.unspent = v.unspent g.cpu g.block
  block : g.block = nthBlock v.arena.usable (openings log)
  start : g.span.start = v.arena.recordStart g.block
  len : 0 < g.span.len
  stop : g.span.stop < v.arena.blockStop g.block
  words : g.words = [] ∨ g.words.length = g.span.len
  noRoom : (v.cursor g.cpu).hasRoom = false
  taken : Takes v.arena (openings log) o a
  arena : w.arena = ((a.layOut o header task).startFilling g.block).setWords g.span.start g.words
  header : header.cpu = UInt8.ofNat g.cpu
  moved : Moved v w g.cpu g.span.stop (v.arena.blockStop g.block)

/-! ### Grants -/

namespace Placing

theorem of_same (h : Placing a cpus log) (hb : b.blocks = a.blocks) (hl : b.limit = a.limit) : Placing b cpus log := by
  have hu := usable_congr hb hl
  induction h with
  | nil => exact .nil
  | fresh _ hf hc hblock hlt hstart hlen hstop ih =>
    rw [← hu] at hblock hlt
    rw [← recordStart_congr hb] at hstart
    rw [← blockStop_congr hb] at hstop
    exact .fresh ih hf hc hblock hlt hstart hlen hstop
  | next _ hf hp hblock hstart hlen hstop ih =>
    rw [← blockStop_congr hb] at hstop
    exact .next ih hf hp hblock hstart hlen hstop

theorem inside (h : Placing a cpus log) : ∀ g ∈ log, Inside a cpus (openings log) g := by
  induction h with
  | nil =>
    intro g hg
    cases hg
  | @fresh g log _ hf hc hblock hlt hstart hlen hstop ih =>
    intro g' hg'
    rw [openings_of_fresh hf]
    rcases List.mem_cons.mp hg' with rfl | hg'
    · exact ⟨hc, Nat.le_of_eq hstart.symm, hlen, hstop, hlt, ⟨openings log, Nat.lt_succ_self _, hblock.symm⟩⟩
    · obtain ⟨i, hi, heq⟩ := (ih g' hg').opened
      exact { ih g' hg' with opened := ⟨i, Nat.lt_succ_of_lt hi, heq⟩ }
  | @next g p log _ hf hp hblock hstart hlen hstop ih =>
    intro g' hg'
    rw [openings_of_not_fresh hf]
    rcases List.mem_cons.mp hg' with rfl | hg'
    · have hin := ih p (mem_of_latest? hp)
      refine ⟨?_, ?_, hlen, hstop, ?_, ?_⟩
      · rw [← cpu_of_latest? hp]
        exact hin.cpu
      · have hp' : p.span.start ≤ p.span.stop := Nat.le_add_right _ _
        rw [hblock, hstart]
        exact Nat.le_trans hin.start hp'
      · rw [hblock]
        exact hin.block
      · rw [hblock]
        exact hin.opened
    · exact ih g' hg'

theorem exists_of_opening (h : Placing a cpus log) :
    ∀ i < openings log, ∃ g ∈ log, g.fresh = true ∧ g.block = nthBlock a.usable i := by
  induction h with
  | nil =>
    intro i hi
    cases hi
  | @fresh g log _ hf _ hblock _ _ _ _ ih =>
    intro i hi
    rw [openings_of_fresh hf] at hi
    rcases Nat.lt_succ_iff_lt_or_eq.mp hi with hlt | rfl
    · obtain ⟨p, hp, heq⟩ := ih i hlt
      exact ⟨p, List.mem_cons_of_mem _ hp, heq⟩
    · exact ⟨g, List.mem_cons_self, hf, hblock⟩
  | next _ hf _ _ _ _ _ ih =>
    intro i hi
    rw [openings_of_not_fresh hf] at hi
    obtain ⟨p, hp, heq⟩ := ih i hi
    exact ⟨p, List.mem_cons_of_mem _ hp, heq⟩

theorem of_shape (h : Placing a cpus (shape log)) : Placing a cpus log := by
  induction log with
  | nil => exact .nil
  | cons g log ih =>
    rw [shape_cons] at h
    cases h with
    | fresh hlog hf hc hblock hlt hstart hlen hstop =>
      rw [openings_shape] at hblock
      exact .fresh (ih hlog) hf hc hblock hlt hstart hlen hstop
    | next hlog hf hp hblock hstart hlen hstop =>
      rw [latest?_shape, Option.map_eq_some_iff] at hp
      obtain ⟨p, hp, rfl⟩ := hp
      exact .next (ih hlog) hf hp hblock hstart hlen hstop

end Placing

/-! ### Places -/

namespace Placed

/-- What keeps the size and the limit of the arena, and where the CPUs with room are, keeps the placement. -/
theorem of_places (h : Placed m v log) (hb : w.arena.blocks = v.arena.blocks) (hl : w.arena.limit = v.arena.limit)
    (ho : w.arena.Opened (openings log)) (hcpus : w.cursors.size = v.cursors.size)
    (hlimit : ∀ c, (w.cursor c).limit = (v.cursor c).limit)
    (hroom : ∀ c, (w.cursor c).hasRoom = true → (w.cursor c).next = (v.cursor c).next) : Placed m w log := by
  refine ⟨?_, ho, ?_, fun c hc => ?_, fun c g hc => ?_, fun c g hc hw => ?_⟩
  · rw [hl, hb]
    exact h.limit
  · rw [hcpus]
    exact h.placing.of_same hb hl
  · rw [hlimit]
    exact h.unset c hc
  · rw [hlimit, blockStop_congr hb]
    exact h.limit_of c g hc
  · rw [hroom c hw]
    refine h.next_of c g hc ?_
    rw [Cursor.hasRoom_iff, ← hroom c hw, ← hlimit]
    exact Cursor.hasRoom_iff.mp hw

theorem of_stayed (h : Placed m v log) (hs : v.arena.SameFrontier w.arena) (hw : Stayed v w) : Placed m w log :=
  h.of_places hs.blocks hs.limit (h.opened.of_sameFrontier hs) hw.cpus hw.limit fun c _ => hw.next c

theorem of_left {n : Nat} (h : Placed m v log) (hs : v.arena.SameFrontier w.arena)
    (hw : Moved v w c n (v.cursor c).limit) (hn : (v.cursor c).limit ≤ n) : Placed m w log := by
  refine h.of_places hs.blocks hs.limit (h.opened.of_sameFrontier hs) hw.cpus (hw.same_limit rfl) fun d hd => ?_
  by_cases hdc : d = c
  · rw [hdc, hw.hasRoom_iff] at hd
    omega
  · exact hw.next_of_ne d hdc

/-- A CPU with room has a latest grant, and stands right behind it. -/
theorem latest_of_hasRoom (h : Placed m v log) (hroom : (v.cursor c).hasRoom = true) :
    ∃ p, latest? c log = some p ∧ (v.cursor c).next = p.span.stop ∧ (v.cursor c).limit = v.arena.blockStop p.block ∧
      Inside v.arena v.cursors.size (openings log) p := by
  cases hp : latest? c log with
  | none =>
    rw [Cursor.hasRoom_iff, h.unset c hp] at hroom
    omega
  | some p => exact ⟨p, rfl, h.next_of c p hp hroom, h.limit_of c p hp, h.placing.inside p (mem_of_latest? hp)⟩

theorem written_of_hasRoom (h : Placed m v (shape log)) (hroom : (v.cursor c).hasRoom = true) :
    ∃ p, latest? c log = some p ∧ (v.cursor c).next = p.span.stop ∧
      Inside v.arena v.cursors.size (openings log) p := by
  obtain ⟨p', hl, hnext, -, hin⟩ := h.latest_of_hasRoom hroom
  rw [latest?_shape, Option.map_eq_some_iff] at hl
  obtain ⟨p, hlatest, rfl⟩ := hl
  rw [openings_shape] at hin
  exact ⟨p, hlatest, hnext, hin.cpu, hin.start, hin.len, hin.stop, hin.block, hin.opened⟩

theorem limit_le_high (h : Placed m v log) (c : Nat) : (v.cursor c).limit ≤ v.arena.high := by
  cases hp : latest? c log with
  | none =>
    rw [h.unset c hp]
    exact Nat.zero_le _
  | some p =>
    rw [h.limit_of c p hp]
    exact blockStop_le_high
      (h.opened.lt_blocks (h.placing.inside p (mem_of_latest? hp)).block)

/-- Grants lie above the limit. -/
theorem bounds_of_inside (h : Placed m v log) (hg : Inside v.arena cpus n g) :
    v.arena.limit ≤ g.span.start ∧ g.span.stop ≤ v.arena.high := by
  have hheader := v.arena.blockStart_lt_recordStart g.block
  refine ⟨?_, ?_⟩
  · exact Nat.le_trans (Nat.le_trans (h.opened.limit_le_blockStart hg.block) (Nat.le_of_lt hheader)) hg.start
  · exact Nat.le_trans (Nat.le_of_lt hg.stop) (blockStop_le_high (h.opened.lt_blocks hg.block))

/-- The rates of all words are kept below the limit. -/
theorem rate_lt_limit_of_high {i : Nat} (h : Placed m v log) (hrates : m.rates = true) (hi : i < v.arena.high) :
    i / 8 < v.arena.limit := by
  have hlimit := h.limit
  rw [if_pos hrates] at hlimit
  unfold high blockWords at *
  omega

theorem rate_lt_limit {i : Nat} (h : Placed m v log) (hrates : m.rates = true) (hi : i < (v.cursor c).limit) :
    i / 8 < v.arena.limit := h.rate_lt_limit_of_high hrates (Nat.lt_of_lt_of_le hi (h.limit_le_high c))

/-- A new grant becomes the latest of its CPU, which moves behind it. -/
theorem cons (h : Placed m v log) (hb : w.arena.blocks = v.arena.blocks) (hl : w.arena.limit = v.arena.limit)
    (ho : w.arena.Opened (openings (g :: log))) (hg : Placing v.arena v.cursors.size (g :: log))
    (hw : Moved v w g.cpu g.span.stop (v.arena.blockStop g.block)) : Placed m w (g :: log) := by
  refine ⟨?_, ho, ?_, fun c hc => ?_, fun c p hc => ?_, fun c p hc hroom => ?_⟩
  · rw [hl, hb]
    exact h.limit
  · rw [hw.cpus]
    exact hg.of_same hb hl
  · by_cases hcg : g.cpu = c
    · rw [← hcg, latest?_cons_self] at hc
      cases hc
    · rw [latest?_cons_of_ne hcg] at hc
      rw [hw.limit_of_ne c (Ne.symm hcg)]
      exact h.unset c hc
  · rw [blockStop_congr hb]
    obtain ⟨rfl, rfl⟩ | ⟨hcg, hc⟩ := latest?_cons_inv hc
    · exact hw.limit
    · rw [hw.limit_of_ne c (Ne.symm hcg)]
      exact h.limit_of c p hc
  · obtain ⟨rfl, rfl⟩ | ⟨hcg, hc⟩ := latest?_cons_inv hc
    · exact hw.next
    · rw [hw.hasRoom_of_ne (Ne.symm hcg)] at hroom
      rw [hw.next_of_ne c (Ne.symm hcg)]
      exact h.next_of c p hc hroom

end Placed

/-! ### Claims -/

/-- A claim that fits lies behind the latest grant of its CPU. -/
theorem Placed.extended {cpu len : Nat} {ws : List UInt64} (h : Placed m v (shape log))
    (hlen : Event.isValidLength len = true) (hfits : (v.cursor cpu).fits len = true) (hws : ws = [] ∨ ws.length = len)
    (ha : w.arena = v.arena.setWords (v.cursor cpu).next ws)
    (hw : Moved v w cpu ((v.cursor cpu).next + len) (v.cursor cpu).limit) :
    ∃ p, Extended v w log p
      ⟨cpu, ⟨(v.cursor cpu).next, len⟩, v.arena.blockOf (v.cursor cpu).next, false, 0, ws⟩ := by
  obtain ⟨p, hp, hnext, hlimit, hin⟩ := h.latest_of_hasRoom (Cursor.hasRoom_of_fits hfits)
  rw [openings_shape] at hin
  have hblock : v.arena.blockOf (v.cursor cpu).next = p.block := by
    have := hin.stop
    have := hin.start
    have := v.arena.blockStart_lt_recordStart p.block
    have : p.span.start ≤ p.span.stop := Nat.le_add_right _ _
    exact blockOf_eq (h.opened.lt_blocks hin.block) (by omega) (by omega)
  have hstop := Cursor.fits_iff.mp hfits
  rw [hlimit, ← hblock] at hw hstop
  exact ⟨p, hp, rfl, hblock, hnext, (isValidLength_iff.mp hlen).1, hstop, hws,
    Cursor.fits_of_le hfits (isValidLength_iff.mp hlen).1, hin, ha, hw⟩

/-- A claim that opens a block lies behind its header. -/
theorem Placed.took {cpu len : Nat} {ws : List UInt64} {o : Opening} {header : Header} {task : Task}
    (h : Placed m v (shape log)) (hlen : Event.isValidLength len = true) (hcpu : cpu < v.cursors.size)
    (hroom : (v.cursor cpu).hasRoom = false) (hws : ws = [] ∨ ws.length = len)
    (ho : v.arena.openBlock m.wraps = (some o, a)) (hheader : header.cpu = UInt8.ofNat cpu)
    (ha : w.arena = ((a.layOut o header task).startFilling (a.blockOf o.start)).setWords o.recordStart ws)
    (hw : Moved v w cpu (o.recordStart + len) (o.start + blockWords)) :
    Took v w log ⟨cpu, ⟨o.recordStart, len⟩, v.arena.blockOf o.recordStart, true,
      v.unspent cpu (v.arena.blockOf o.recordStart), ws⟩ o a header task := by
  have htakes := h.opened.takes ho
  rw [openings_shape] at htakes
  have hlt : nthBlock v.arena.usable (openings log) < v.arena.blocks :=
    h.opened.lt_blocks htakes.block_lt
  have hstart := htakes.recordStart
  have hblock : v.arena.blockOf o.recordStart = nthBlock v.arena.usable (openings log) := by
    rw [hstart]
    exact blockOf_recordStart hlt
  have hblock' : a.blockOf o.start = v.arena.blockOf o.recordStart := by
    rw [hblock, htakes.start, ← blockStart_congr htakes.blocks]
    exact blockOf_blockStart (htakes.blocks ▸ hlt)
  obtain ⟨hpos, hle⟩ := isValidLength_iff.mp hlen
  rw [hblock'] at ha
  rw [htakes.start] at hw
  refine ⟨hcpu, rfl, rfl, hblock, ?_, hpos, ?_, hws, hroom, htakes, ha, hheader, ?_⟩
  · dsimp only
    rw [hblock, hstart]
  · dsimp only [Span.stop]
    rw [hblock, hstart]
    have := headerWords_le (nthBlock v.arena.usable (openings log))
    unfold Arena.recordStart Arena.blockStop blockWords
    omega
  · dsimp only
    rw [hblock]
    exact hw

theorem length_words_le (h : g.words = [] ∨ g.words.length = g.span.len) :
    g.span.start + g.words.length ≤ g.span.stop := by
  rcases h with h | h
  · rw [h]
    exact Nat.le_add_right _ _
  · rw [h]
    exact Nat.le_refl _

theorem Extended.placing (h : Extended v w log p g) (hlog : Placing v.arena v.cursors.size (shape log)) :
    Placing v.arena v.cursors.size (shape (g :: log)) :=
  .next hlog h.fresh h.latest h.block h.start h.len h.stop

theorem Extended.sameFrontier (h : Extended v w log p g) : v.arena.SameFrontier w.arena := by
  rw [h.arena]
  exact .setWords ..

theorem Extended.start_ge (h : Extended v w log p g) : v.arena.recordStart g.block ≤ g.span.start := by
  rw [h.block, h.start]
  exact Nat.le_trans h.prior.start p.span.start_le_stop

theorem Extended.words_le_high (h : Extended v w log p g) (ho : v.arena.Opened n) :
    g.span.start + g.words.length ≤ v.arena.high := by
  have hblock := blockStop_le_high (ho.lt_blocks (h.block ▸ h.prior.block))
  exact Nat.le_trans (length_words_le h.words) (Nat.le_trans (Nat.le_of_lt h.stop) hblock)

theorem Extended.hasRoom (h : Extended v w log p g) : (w.cursor g.cpu).hasRoom = true := h.moved.hasRoom_iff.mpr h.stop

/-- A CPU that is without room after a claim, in another block than that of the claim, was so before. -/
theorem Extended.noRoom_of_ne (h : Extended v w log p g) (hq : (sinceOpened k (shape log)).head? = some q)
    (hk : g.block ≠ k) (hroom : latest? q.cpu (shape (g :: log)) = some q → (w.cursor q.cpu).hasRoom = false)
    (hlatest : latest? q.cpu (shape log) = some q) : (v.cursor q.cpu).hasRoom = false := by
  by_cases hcpu : g.cpu = q.cpu
  · rw [← hcpu, h.latest] at hlatest
    obtain rfl := Option.some.inj hlatest
    exact absurd (h.block.trans (block_of_head? hq).2) hk
  · rw [← h.moved.hasRoom_of_ne (Ne.symm hcpu)]
    exact hroom ((latest?_cons_of_ne (g := g.bare) hcpu).trans hlatest)

section Took
variable {o : Opening} {header : Header} {task : Task}

theorem Took.block_lt (h : Took v w log g o a header task) : g.block < v.arena.usable := by
  rw [h.block]
  exact h.taken.block_lt

theorem Took.opening_start (h : Took v w log g o a header task) : o.start = v.arena.blockStart g.block := by
  rw [h.block]
  exact h.taken.start

theorem Took.recordStart_eq (h : Took v w log g o a header task) : o.recordStart = g.span.start := by
  rw [h.start, h.block, h.taken.recordStart]

/-- The words of the grant are written where there is memory for them. -/
theorem Took.words_le_high (h : Took v w log g o a header task) (ho : v.arena.Opened n) :
    g.span.start + g.words.length ≤ ((a.layOut o header task).startFilling g.block).high := by
  have hblock := blockStop_le_high (ho.lt_blocks h.block_lt)
  rw [((SameFrontier.layOut ..).trans (.startFilling ..)).high, high_congr h.taken.blocks]
  exact Nat.le_trans (length_words_le h.words) (Nat.le_trans (Nat.le_of_lt h.stop) hblock)

theorem Took.hasRoom (h : Took v w log g o a header task) : (w.cursor g.cpu).hasRoom = true :=
  h.moved.hasRoom_iff.mpr h.stop

/-- A CPU that is without room after a block was taken was so before. -/
theorem Took.noRoom_of_latest (h : Took v w log g o a header task)
    (hroom : latest? q.cpu (shape (g :: log)) = some q → (w.cursor q.cpu).hasRoom = false)
    (hlatest : latest? q.cpu (shape log) = some q) : (v.cursor q.cpu).hasRoom = false := by
  by_cases hcpu : g.cpu = q.cpu
  · exact hcpu ▸ h.noRoom
  · rw [← h.moved.hasRoom_of_ne (Ne.symm hcpu)]
    exact hroom ((latest?_cons_of_ne (g := g.bare) hcpu).trans hlatest)

theorem Took.placing (h : Took v w log g o a header task) (hlog : Placing v.arena v.cursors.size (shape log)) :
    Placing v.arena v.cursors.size (shape (g :: log)) :=
  .fresh hlog h.fresh h.cpu (h.block.trans (congrArg _ (openings_shape log).symm)) h.block_lt h.start h.len h.stop

theorem Took.sameFrontier (h : Took v w log g o a header task) : a.SameFrontier w.arena := by
  rw [h.arena]
  exact ((SameFrontier.layOut ..).trans (SameFrontier.startFilling ..)).trans (SameFrontier.setWords ..)

theorem Took.blocks (h : Took v w log g o a header task) : w.arena.blocks = v.arena.blocks :=
  h.sameFrontier.blocks.trans h.taken.blocks

theorem Took.limit (h : Took v w log g o a header task) : w.arena.limit = v.arena.limit :=
  h.sameFrontier.limit.trans h.taken.limit

/-- Taking a block claims no other one. -/
theorem Took.block_of_claimed (h : Took v w log g o a header task) (ho : v.arena.Opened (openings log)) {k : Nat}
    (hk : k < w.arena.claimed) : k = g.block ∨ k < v.arena.claimed := by
  rw [(h.taken.opened.of_sameFrontier h.sameFrontier).claimed_eq, usable_congr h.blocks h.limit] at hk
  rw [ho.claimed_eq, h.block]
  rcases Nat.lt_or_ge k (openings log) with hlt | hge
  · exact Or.inr (by omega)
  · rw [nthBlock_of_lt (by omega)]
    exact Or.inl (by omega)

end Took

/-! ### Runs -/

theorem Placed.step {x y : LogView × Ledger} (h : Placed m x.1 (shape x.2)) (hs : Step m x y) :
    Placed m y.1 (shape y.2) := by
  cases hs with
  | rest ha hw => exact h.of_stayed (ha ▸ .refl _) hw
  | extend hlen hcpu hfits hws ha hw =>
    obtain ⟨p, he⟩ := h.extended hlen hfits hws ha hw
    have hsame : SameFrontier _ _ := ha ▸ SameFrontier.setWords ..
    refine h.cons hsame.blocks hsame.limit ?_ (he.placing h.placing) he.moved
    rw [openings_of_not_fresh (by rfl)]
    exact h.opened.of_sameFrontier hsame
  | leave hcpu hn _ ha hw =>
    obtain ⟨-, ha⟩ | ⟨-, ha⟩ := ha
    · exact h.of_left (ha ▸ .refl _) hw hn
    · exact h.of_left (ha ▸ .close ..) hw hn
  | exhaust ha hw =>
    have hopened := (h.opened.refuses ha).1
    obtain ⟨-, hmarks, hlimit⟩ := openBlock_none_same ha
    exact h.of_places (congrArg Array.size hmarks) hlimit hopened hw.cpus hw.limit fun c _ => hw.next c
  | take hlen hcpu hroom hws ho hheader ha hw =>
    have ht := h.took hlen hcpu hroom hws ho hheader ha hw
    refine h.cons ht.blocks ht.limit ?_ (ht.placing h.placing) ht.moved
    rw [openings_of_fresh (by rfl), openings_shape]
    exact ht.taken.opened.of_sameFrontier ht.sameFrontier
  | fold _ ha hw =>
    dsimp only
    rw [shape_amendLatest]
    exact h.of_stayed (ha ▸ .setWord ..) hw
  | rate _ _ ha hw => exact h.of_stayed (ha ▸ .setWord ..) hw
  | flush _ _ ha hw => exact h.of_left (ha ▸ (SameFrontier.close ..).trans (.zero ..)) hw (Nat.le_refl _)

theorem Leads.placed {t u : Tracer P} {log' : Ledger} (h : Leads t log u log')
    (hp : Placed t.mode t.view (shape log)) : Placed u.mode u.view (shape log') :=
  h.mode ▸ h.induction (I := fun y => Placed t.mode y.1 (shape y.2)) hp Placed.step

theorem Placed.start (m : Mode) (a : Arena) (cpus : Nat) :
    Placed m ⟨a.reset m.rates, Array.replicate cpus {}⟩ [] := by
  have hblocks : (a.reset m.rates).blocks = a.blocks := by simp [Arena.blocks, Arena.reset]
  refine ⟨?_, opened_reset a m.rates, .nil, fun c _ => ?_, fun c g hc => (by cases hc), fun c g hc => (by cases hc)⟩
  · rw [hblocks]
    rfl
  · rw [cursor_replicate]

theorem Tracer.Akin.placed {t u : Tracer P} (h : t.Akin u) (hp : Placed t.mode t.view log) :
    Placed u.mode u.view log := by
  rw [h.mode, h.view]
  exact hp

theorem History.placed [Platform P] {t : Tracer P} (h : History t log) : Placed t.mode t.view (shape log) :=
  (h.induction (I := fun _ m x => Placed m x.1 (shape x.2))
    (fun _ m a _ _ => Placed.start m a _) fun _ h hs => h.step hs).2.2

theorem History.opened [Platform P] {t : Tracer P} (h : History t log) : t.arena.Opened (openings log) := by
  have hopened := h.placed.opened
  rw [openings_shape] at hopened
  exact hopened

/-- Induction over histories for what depends on the placement of the grants. -/
theorem History.invariant [Platform P] {t : Tracer P} {I : LogView → Ledger → Prop}
    (start : ∀ (m : Mode) (a : Arena) (cpus : Nat), I ⟨a.reset m.rates, Array.replicate cpus {}⟩ [])
    (step : ∀ {m : Mode} {x y : LogView × Ledger}, Placed m x.1 (shape x.2) → I x.1 x.2 → Step m x y → I y.1 y.2)
    (h : History t log) : I t.view log :=
  (h.induction (I := fun _ m x => Placed m x.1 (shape x.2) ∧ I x.1 x.2)
    (fun _ m a _ _ => ⟨Placed.start m a _, start m a _⟩)
    fun _ h hs => ⟨h.1.step hs, step h.1 h.2 hs⟩).2.2.2

end EventRecorder
