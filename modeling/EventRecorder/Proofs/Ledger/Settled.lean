import EventRecorder.Proofs.Arena.Words
import EventRecorder.Proofs.Ledger.Marks

/-! # Settled words

A reset leaves all words as they are, so a block holds old words until it is written. Readers see only words
that the present session has settled: those behind the place of a CPU in its block, the tail of a block in use,
and those below a fill mark. The other words of an opened block lie ahead of a CPU that still writes to it. This
holds whatever it means for a word to be settled, as long as the session settles every word that it writes. -/

namespace EventRecorder

open Ledger LogView Arena

variable {A B : Nat → Prop} {v w : LogView} {a : Arena} {c i k n l : Nat} {g p : Grant} {log : Ledger} {m : Mode}

/-- The words that readers can see satisfy `A`, by their index. -/
structure Settled (A : Nat → Prop) (v : LogView) : Prop where
  aligned : ∀ c, (v.cursor c).limit ≠ 0 → ∃ k < v.arena.usable, (v.cursor c).limit = v.arena.blockStop k
  behind : ∀ c, ∀ k < v.arena.usable, (v.cursor c).limit = v.arena.blockStop k → ∀ i, v.arena.blockStart k ≤ i →
    i < v.arena.blockStop k → i < (v.cursor c).next ∨ v.arena.blockStop k ≤ i + tailWords → A i
  closed : ∀ k < v.arena.usable, ∀ offset, v.arena.mark k = .closed offset → offset ≤ blockWords ∧
    ∀ i, v.arena.blockStart k ≤ i → i < v.arena.blockStart k + offset → A i
  ahead : ∀ k < v.arena.claimed, ∀ i, v.arena.blockStart k ≤ i → i < v.arena.blockStop k →
    A i ∨ ∃ c, (v.cursor c).limit = v.arena.blockStop k ∧ (v.cursor c).next ≤ i

namespace Settled

/-- A session starts with nothing to see. -/
theorem start (A : Nat → Prop) (a : Arena) (rates : Bool) (cpus : Nat) :
    Settled A ⟨a.reset rates, Array.replicate cpus {}⟩ := by
  have hlimit : ∀ c, (LogView.cursor ⟨a.reset rates, Array.replicate cpus {}⟩ c).limit = 0 := by simp
  have hclaimed : (a.reset rates).claimed = 0 := by simp [claimed, Arena.reset, high, blocks]
  refine ⟨fun c hc => absurd (hlimit c) hc, fun c k _ hk => ?_, fun k hk offset hmark => ?_, fun k hk => ?_⟩
  · have := (a.reset rates).blockStop_pos k
    rw [hlimit] at hk
    omega
  · have hunused : (a.reset rates).mark k = .unused := by
      unfold mark Arena.reset
      simp only [Array.getD_eq_getD_getElem?, Array.getElem?_replicate]
      split <;> rfl
    rw [hunused] at hmark
    obtain rfl := Mark.closed.inj hmark
    exact ⟨Nat.zero_le _, fun i hi hi' => absurd hi (Nat.not_le_of_lt hi')⟩
  · rw [hclaimed] at hk
    exact absurd hk (Nat.not_lt_zero k)

/-- Words that are settled are settled in any other sense that follows from it above the limit. -/
theorem mono (h : Settled A v) (ho : v.arena.Opened n) (hAB : ∀ i, v.arena.limit ≤ i → A i → B i) : Settled B v := by
  have hin := ho.imp_inside hAB
  refine ⟨h.aligned, ?_, ?_, ?_⟩
  · exact fun c k hk hck i hi hi' hbehind => hin k hk i hi (h.behind c k hk hck i hi hi' hbehind)
  · exact fun k hk offset hmark => (h.closed k hk offset hmark).imp id fun hA i hi hi' => hin k hk i hi (hA i hi hi')
  · exact fun k hk i hi hi' => (h.ahead k hk i hi hi').imp_left (hin k (Nat.lt_of_lt_of_le hk ho.claimed_le) i hi)

/-! ### Updates -/

theorem of_stayed (h : Settled A v) (ha : w.arena = v.arena) (hw : Stayed v w) : Settled A w := by
  refine ⟨?_, ?_, ?_, ?_⟩ <;> simp only [ha, hw.limit, hw.next]
  · exact h.aligned
  · exact h.behind
  · exact h.closed
  · exact h.ahead

/-- What leaves the places and the marks alone, and settled words settled. -/
theorem of_places (h : Settled A v) (ho : v.arena.Opened n) (hb : w.arena.blocks = v.arena.blocks)
    (hl : w.arena.limit = v.arena.limit) (hc : w.arena.claimed = v.arena.claimed)
    (hm : w.arena.marks = v.arena.marks) (hw : Stayed v w) (hAB : ∀ i, v.arena.limit ≤ i → A i → B i) :
    Settled B w := by
  have hstart := funext (blockStart_congr hb)
  have hstop := funext (blockStop_congr hb)
  have hB := h.mono ho hAB
  refine ⟨?_, ?_, ?_, ?_⟩ <;>
    simp only [usable_congr hb hl, hstart, hstop, hc, mark_of_marks hm, hw.limit, hw.next]
  · exact hB.aligned
  · exact hB.behind
  · exact hB.closed
  · exact hB.ahead

theorem of_setWord {x : UInt64} (h : Settled A v) (ho : v.arena.Opened n) (ha : w.arena = v.arena.setWord i x)
    (hw : Stayed v w) (hAB : ∀ i, v.arena.limit ≤ i → A i → B i) : Settled B w := by
  have hs : v.arena.SameFrontier w.arena := ha ▸ .setWord ..
  exact h.of_places ho hs.blocks hs.limit hs.claimed ((congrArg Arena.marks ha).trans (marks_setWord ..)) hw hAB

theorem refused {wrap : Bool} (h : Settled A v) (ho : v.arena.Opened n) (ha : v.arena.openBlock wrap = (none, w.arena))
    (hw : Stayed v w) (hAB : ∀ i, v.arena.limit ≤ i → A i → B i) : Settled B w := by
  obtain ⟨-, hmarks, hlimit⟩ := openBlock_none_same ha
  have hblocks := congrArg Array.size hmarks
  have hclaimed := (ho.refuses ha).1.claimed_eq
  rw [usable_congr hblocks hlimit, ← ho.claimed_eq] at hclaimed
  exact h.of_places ho hblocks hlimit hclaimed hmarks hw hAB

/-- A CPU moves on in its block over words that it settles. -/
theorem extended (h : Settled A v) (hp : Placed m v (shape log)) (he : Extended v w log p g)
    (hAB : ∀ i, v.arena.limit ≤ i → A i → B i) (hnew : ∀ i, g.span.start ≤ i → i < g.span.stop → B i) :
    Settled B w := by
  have hs := he.sameFrontier
  have hm : w.arena.marks = v.arena.marks := by rw [he.arena, marks_setWords]
  have hblock : (v.cursor g.cpu).limit = v.arena.blockStop g.block := by
    rw [he.block]
    exact hp.limit_of g.cpu p he.latest
  have hplace : (v.cursor g.cpu).next = g.span.start := by
    rw [he.start]
    exact hp.next_of g.cpu p he.latest (Cursor.hasRoom_of_fits he.room)
  have hstart := funext hs.blockStart
  have hstop := funext hs.blockStop
  have hB := h.mono hp.opened hAB
  have hlimit := he.moved.same_limit hblock
  -- what is behind a CPU now was behind it before, or is one of the new words
  have hmoved : ∀ d i, i < (w.cursor d).next → i < (v.cursor d).next ∨ B i := by
    intro d i hi
    by_cases hd : d = g.cpu
    · rw [hd, he.moved.next] at hi
      rw [hd, hplace]
      exact (Nat.lt_or_ge i g.span.start).imp_right fun hge => hnew i hge hi
    · rw [he.moved.next_of_ne d hd] at hi
      exact Or.inl hi
  refine ⟨?_, ?_, ?_, ?_⟩ <;> simp only [hs.usable, hstart, hstop, hs.claimed, mark_of_marks hm, hlimit]
  · exact hB.aligned
  · intro d k hk hdk i hi hi' hbehind
    rcases hbehind with hbehind | htail
    · exact (hmoved d i hbehind).elim (fun hlt => hB.behind d k hk hdk i hi hi' (Or.inl hlt)) id
    · exact hB.behind d k hk hdk i hi hi' (Or.inr htail)
  · exact hB.closed
  · intro k hk i hi hi'
    obtain hi₀ | ⟨d, hdk, hnext⟩ := hB.ahead k hk i hi hi'
    · exact Or.inl hi₀
    · rcases Nat.lt_or_ge i (w.cursor d).next with hlt | hge
      · exact (hmoved d i hlt).elim (fun hlt => absurd hnext (Nat.not_le_of_lt hlt)) Or.inl
      · exact Or.inr ⟨d, hdk, hge⟩

/-- The place of a CPU without a block does not matter. -/
theorem of_unset (h : Settled A v) (ho : v.arena.Opened n) (ha : w.arena = v.arena) (hl : (v.cursor c).limit = 0)
    (hw : Moved v w c l (v.cursor c).limit) (hAB : ∀ i, v.arena.limit ≤ i → A i → B i) : Settled B w := by
  have hB := h.mono ho hAB
  have hlimit := hw.same_limit rfl
  have hnext : ∀ d k, (v.cursor d).limit = v.arena.blockStop k → (w.cursor d).next = (v.cursor d).next := by
    intro d k hdk
    refine hw.next_of_ne d fun hd => ?_
    have hpos := v.arena.blockStop_pos k
    rw [← hdk, hd, hl] at hpos
    exact Nat.lt_irrefl 0 hpos
  refine ⟨?_, ?_, ?_, ?_⟩ <;> simp only [ha, hlimit]
  · exact hB.aligned
  · intro d k hk hdk i hi hi' hbehind
    rw [hnext d k hdk] at hbehind
    exact hB.behind d k hk hdk i hi hi' hbehind
  · exact hB.closed
  · intro k hk i hi hi'
    refine (hB.ahead k hk i hi hi').imp_right ?_
    rintro ⟨d, hdk, hle⟩
    exact ⟨d, hdk, (hnext d k hdk).symm ▸ hle⟩

/-- A CPU leaves its block, which is closed where the CPU stood, and settles the rest of it. -/
theorem left (h : Settled A v) (ho : v.arena.Opened n) (hs : v.arena.SameFrontier w.arena) (hset : (v.cursor c).limit ≠ 0)
    (hm : w.arena.marks = (v.arena.close (v.arena.blockOf ((v.cursor c).limit - 1))
      (min (v.cursor c).next (v.cursor c).limit)).marks)
    (hw : Moved v w c l (v.cursor c).limit) (hAB : ∀ i, v.arena.limit ≤ i → A i → B i)
    (hrest : ∀ i, (v.cursor c).next ≤ i → i < (v.cursor c).limit → B i) : Settled B w := by
  have hstart := funext hs.blockStart
  have hstop := funext hs.blockStop
  have hB := h.mono ho hAB
  have hlimit := hw.same_limit rfl
  obtain ⟨k₀, hk₀, hck⟩ := h.aligned c hset
  have hlt := ho.lt_blocks hk₀
  -- the whole block is settled: what was written before, and the rest now
  have hall : ∀ i, v.arena.blockStart k₀ ≤ i → i < v.arena.blockStop k₀ → B i := by
    intro i hi hi'
    rcases Nat.lt_or_ge i (v.cursor c).next with hbelow | hge
    · exact hB.behind c k₀ hk₀ hck i hi hi' (Or.inl hbelow)
    · exact hrest i hge (hck ▸ hi')
  refine ⟨?_, ?_, ?_, ?_⟩ <;> simp only [hs.usable, hstart, hstop, hs.claimed, hlimit]
  · exact hB.aligned
  · intro d k hk hdk i hi hi' hbehind
    by_cases hd : d = c
    · rw [hd, hck] at hdk
      obtain rfl := blockStop_inj hlt (ho.lt_blocks hk) hdk
      exact hall i hi hi'
    · rw [hw.next_of_ne d hd] at hbehind
      exact hB.behind d k hk hdk i hi hi' hbehind
  · intro k hk offset hoffset
    rw [mark_of_left hck hm hlt (ho.lt_blocks hk)] at hoffset
    split at hoffset
    · rename_i heq
      subst heq
      have hle : offset ≤ blockWords := by
        have hmin := offset_le_of_close hoffset
        rw [hck] at hmin
        unfold Arena.blockStop at hmin
        omega
      exact ⟨hle, fun i hi hi' => hall i hi (Nat.lt_of_lt_of_le hi' (Nat.add_le_add_left hle _))⟩
    · exact hB.closed k hk offset hoffset
  · intro k hk i hi hi'
    obtain hi₀ | ⟨d, hdk, hnext⟩ := hB.ahead k hk i hi hi'
    · exact Or.inl hi₀
    · by_cases hd : d = c
      · rw [hd] at hnext hdk
        exact Or.inl (hrest i hnext (hdk.symm ▸ hi'))
      · exact Or.inr ⟨d, hdk, hw.next_of_ne d hd ▸ hnext⟩

/-- A flush closes the block of a CPU with room, and clears the rest of it. -/
theorem flushed (h : Settled A v) (ho : v.arena.Opened n) (hroom : (v.cursor c).hasRoom = true)
    (ha : w.arena = (v.arena.close (v.arena.blockOf ((v.cursor c).limit - 1))
      (min (v.cursor c).next (v.cursor c).limit)).zero (v.cursor c).next ((v.cursor c).limit - (v.cursor c).next))
    (hw : Moved v w c l (v.cursor c).limit) (hAB : ∀ i, v.arena.limit ≤ i → A i → B i)
    (hrest : ∀ i, (v.cursor c).next ≤ i → i < (v.cursor c).limit → B i) : Settled B w := by
  have hset := Nat.ne_of_gt (Nat.zero_lt_of_lt (Cursor.hasRoom_iff.mp hroom))
  exact h.left ho (ha ▸ (SameFrontier.close ..).trans (.zero ..)) hset
    ((congrArg Arena.marks ha).trans (marks_zero ..)) hw hAB hrest

/-- A CPU that has no more than the tail of its block left leaves it. -/
theorem left_short (h : Settled A v) (ho : v.arena.Opened n) (hset : (v.cursor c).limit ≠ 0)
    (hshort : (v.cursor c).limit ≤ (v.cursor c).next + tailWords)
    (ha : w.arena = v.arena.close (v.arena.blockOf ((v.cursor c).limit - 1)) (min (v.cursor c).next (v.cursor c).limit))
    (hw : Moved v w c l (v.cursor c).limit) (hAB : ∀ i, A i → B i) : Settled B w := by
  refine h.left ho (ha ▸ .close ..) hset (congrArg Arena.marks ha) hw (fun i _ => hAB i) fun i hi hi' => ?_
  obtain ⟨k, hk, hlimit⟩ := h.aligned c hset
  have hin : v.arena.blockStart k ≤ i ∧ v.arena.blockStop k ≤ i + tailWords := by
    unfold Arena.blockStop tailWords blockWords at *
    omega
  exact hAB i (h.behind c k hk hlimit i hin.1 (hlimit ▸ hi') (Or.inr hin.2))

/-- A CPU without room takes a block off the frontier, and settles its header, its tail and the first words. -/
theorem took {o : Opening} {header : Header} {task : Task} (h : Settled A v) (hp : Placed m v (shape log))
    (ht : Took v w log g o a header task) (hAB : ∀ i, v.arena.limit ≤ i → A i → B i)
    (hnew : ∀ i, v.arena.blockStart g.block ≤ i → i < v.arena.blockStop g.block →
      i < g.span.stop ∨ v.arena.blockStop g.block ≤ i + tailWords → B i) : Settled B w := by
  have ho : v.arena.Opened (openings log) := openings_shape log ▸ hp.opened
  have hl := ht.limit
  have hstart := funext (blockStart_congr ht.blocks)
  have hstop := funext (blockStop_congr ht.blocks)
  have hu := usable_congr ht.blocks hl
  have hB := h.mono ho hAB
  have hlt := ho.lt_blocks ht.block_lt
  refine ⟨?_, ?_, ?_, ?_⟩ <;> simp only [hu, hstart, hstop]
  · intro d hd
    by_cases hdc : d = g.cpu
    · rw [hdc, ht.moved.limit]
      exact ⟨g.block, ht.block_lt, rfl⟩
    · rw [ht.moved.limit_of_ne d hdc] at hd ⊢
      exact hB.aligned d hd
  · intro d k hk hdk i hi hi' hbehind
    by_cases hdc : d = g.cpu
    · rw [hdc, ht.moved.limit] at hdk
      obtain rfl := blockStop_inj hlt (ho.lt_blocks hk) hdk
      rw [hdc, ht.moved.next] at hbehind
      exact hnew i hi hi' hbehind
    · rw [ht.moved.limit_of_ne d hdc] at hdk
      rw [ht.moved.next_of_ne d hdc] at hbehind
      exact hB.behind d k hk hdk i hi hi' hbehind
  · intro k hk offset hoffset
    rw [ht.mark (ho.lt_blocks hk)] at hoffset
    split at hoffset
    · cases hoffset
    · exact hB.closed k hk offset hoffset
  · intro k hk i hi hi'
    by_cases hnewest : k = g.block
    · subst hnewest
      rcases Nat.lt_or_ge i g.span.stop with hbelow | hge
      · exact Or.inl (hnew i hi hi' (Or.inl hbelow))
      · exact Or.inr ⟨g.cpu, ht.moved.limit, ht.moved.next.symm ▸ hge⟩
    · have hold := (ht.block_of_claimed ho hk).resolve_left hnewest
      obtain hi₀ | ⟨d, hdk, hnext⟩ := hB.ahead k hold i hi hi'
      · exact Or.inl hi₀
      · -- the CPU that the word lies ahead of has room, so it is not the one that takes the block
        have hdc : d ≠ g.cpu := by
          intro hd
          have hfull : (v.cursor d).hasRoom = true := Cursor.hasRoom_iff.mpr (by omega)
          rw [hd, ht.noRoom] at hfull
          cases hfull
        exact Or.inr ⟨d, (ht.moved.limit_of_ne d hdc).trans hdk, ht.moved.next_of_ne d hdc ▸ hnext⟩

/-! ### What readers see -/

/-- A block that is written to ends, for readers, where some CPU stands in it. -/
theorem exists_of_cursorStop? {s : Nat} (h : Settled A v) (ho : v.arena.Opened n) (hs : v.cursorStop? k = some s) :
    ∃ c, (v.cursor c).limit = v.arena.blockStop k ∧ s ≤ (v.cursor c).next := by
  unfold cursorStop? at hs
  obtain ⟨x, hx, rfl⟩ := Option.map_eq_some_iff.mp hs
  obtain ⟨hset, hblock⟩ : x.limit ≠ 0 ∧ v.arena.blockOf (x.limit - 1) = k := by simpa using List.find?_some hx
  obtain ⟨c, -, rfl⟩ := exists_cursor (List.mem_of_find?_eq_some hx)
  obtain ⟨j, hj, hlimit⟩ := h.aligned c hset
  rw [hlimit, blockOf_blockStop (ho.lt_blocks hj)] at hblock
  exact ⟨c, hblock ▸ hlimit, Nat.min_le_left ..⟩

/-- The record region of a block lies in the block, and is settled. -/
theorem region (h : Settled A v) (ho : v.arena.Opened n) (hk : k < v.arena.usable)
    (hi : (v.region k).start ≤ i) (hi' : i < (v.region k).stop) :
    v.arena.recordStart k ≤ i ∧ i < v.arena.blockStop k ∧ A i := by
  have hheader := headerWords_pos k
  have hstart := v.arena.blockStart_lt_recordStart k
  unfold LogView.region at hi hi'
  cases hmark : v.arena.mark k with
  | filling =>
    simp only [hmark, recordRegion, Span.stop] at hi hi'
    have hfill : ∀ s, i < v.arena.blockStart k + headerWords k +
        (min (s - v.arena.blockStart k) blockWords - headerWords k) → i < s ∧ i < v.arena.blockStart k + blockWords := by
      intro s hlt
      have hle : min (s - v.arena.blockStart k) blockWords ≤ s - v.arena.blockStart k := Nat.min_le_left ..
      have hle' : min (s - v.arena.blockStart k) blockWords ≤ blockWords := Nat.min_le_right ..
      generalize min (s - v.arena.blockStart k) blockWords = fill at *
      omega
    cases hs : v.cursorStop? k with
    | none =>
      rw [hs, Option.getD_none] at hi'
      exact absurd (hfill 0 hi').1 (Nat.not_lt_zero i)
    | some s =>
      rw [hs, Option.getD_some] at hi'
      obtain ⟨c, hlimit, hnext⟩ := h.exists_of_cursorStop? ho hs
      obtain ⟨hlt, hstop⟩ := hfill s hi'
      exact ⟨hi, hstop, h.behind c k hk hlimit i (Nat.le_trans (Nat.le_of_lt hstart) hi) hstop
        (Or.inl (Nat.lt_of_lt_of_le hlt hnext))⟩
  | closed offset =>
    simp only [hmark, recordRegion, Span.stop] at hi hi'
    obtain ⟨hle, hclosed⟩ := h.closed k hk offset hmark
    have hstop : i < v.arena.blockStop k := by
      unfold blockStop
      omega
    exact ⟨hi, hstop, hclosed i (Nat.le_trans (Nat.le_of_lt hstart) hi) (by omega)⟩

/-- The word before the place of a CPU with room lies in its block behind the header, and is settled. -/
theorem prior (h : Settled A v) (hp : Placed m v (shape log)) (hroom : (v.cursor c).hasRoom = true) :
    ∃ k < v.arena.usable, v.arena.recordStart k ≤ (v.cursor c).next - 1 ∧ (v.cursor c).next - 1 < v.arena.blockStop k ∧
      A ((v.cursor c).next - 1) := by
  obtain ⟨p, -, hnext, hlimit, hin⟩ := hp.latest_of_hasRoom hroom
  have hlen := hin.len
  have hspan : p.span.stop = p.span.start + p.span.len := rfl
  have hheader := v.arena.blockStart_lt_recordStart p.block
  have hrecord := hin.start
  have hlt := Cursor.hasRoom_iff.mp hroom
  rw [hlimit] at hlt
  have hbelow : (v.cursor c).next - 1 < v.arena.blockStop p.block := Nat.lt_of_le_of_lt (Nat.sub_le ..) hlt
  have hstart : v.arena.recordStart p.block ≤ (v.cursor c).next - 1 := by omega
  refine ⟨p.block, hin.block, hstart, hbelow, ?_⟩
  exact h.behind c p.block hin.block hlimit _ (Nat.le_trans (Nat.le_of_lt hheader) hstart) hbelow (Or.inl (by omega))

/-! ### Runs -/

/-- If every word counts as settled, what is left to say is where the places and the marks can be. -/
theorem step {x y : LogView × Ledger} (hp : Placed m x.1 (shape x.2)) (h : Settled (fun _ => True) x.1)
    (hs : Step m x y) : Settled (fun _ => True) y.1 := by
  have hall : ∀ {limit : Nat}, ∀ i, limit ≤ i → True → True := fun _ _ _ => trivial
  cases hs with
  | rest ha hw => exact h.of_stayed ha hw
  | extend hlen _ hfits hws ha hw =>
    obtain ⟨p, he⟩ := hp.extended hlen hfits hws ha hw
    exact h.extended hp he hall fun _ _ _ => trivial
  | leave _ _ hshort ha hw =>
    obtain ⟨hunset, ha⟩ | ⟨hset, ha⟩ := ha
    · exact h.of_unset hp.opened ha hunset hw hall
    · exact h.left_short hp.opened hset hshort ha hw fun _ _ => trivial
  | exhaust ha hw => exact h.refused hp.opened ha hw hall
  | take hlen hcpu hroom hws ho hheader ha hw =>
    exact h.took hp (hp.took hlen hcpu hroom hws ho hheader ha hw) hall fun _ _ _ _ => trivial
  | fold _ ha hw | rate _ _ ha hw => exact h.of_setWord hp.opened ha hw hall
  | flush _ hroom ha hw => exact h.flushed hp.opened hroom ha hw hall fun _ _ _ => trivial

end Settled

theorem History.places_settled {P : Type} [Platform P] {t : Tracer P} (h : History t log) :
    Settled (fun _ => True) t.view :=
  h.invariant (I := fun v _ => Settled (fun _ => True) v) (fun _ a cpus => .start _ a _ cpus) Settled.step

end EventRecorder
