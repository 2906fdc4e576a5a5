import EventRecorder.Platform.Simulated
import EventRecorder.Proofs.Hooks.Folding
import EventRecorder.Proofs.Ledger.Observers
import EventRecorder.Proofs.Rates.Readings

/-! # The rates of records

An observer of all measurements can tell what the rate byte of every record holds. Its low half is the bucket of the
record, and its high half collects the buckets of the returns that were folded into the first word of the record. There
is one of them at most unless a return comes with the elapsed time that the word already holds. -/

namespace EventRecorder

open Ledger LogView Arena

variable {P : Type} {c i k : Nat} {g p : Grant} {log : Ledger} {v : LogView}

/-! ### Ratings -/

/-- A measurement and the bucket that it gave. -/
structure Rating extends Measurement where
  bucket : UInt8
deriving DecidableEq

/-- The readings at the latest measurement of a CPU; zero before the first one. -/
def priorOf (c : Nat) (ms : List Measurement) : Reading := ((ms.find? (·.cpu == c)).map (·.reading)).getD ⟨0, 0⟩

/-- The ratings of the word `i`, the latest first. -/
def ratingsOf (i : Nat) : (ms : List Measurement) → List Rating
  | [] => []
  | m :: ms => if m.place = i then ⟨m, (priorOf m.cpu ms).bucket m.reading⟩ :: ratingsOf i ms else ratingsOf i ms

/-- The byte that the ratings of a word make up, if the word starts a record that was rated. -/
def byteOf : (rs : List Rating) → Option UInt8
  | [] => none
  | r :: rs => if r.ret?.isSome then (byteOf rs).map (r.mark · r.bucket) else some r.bucket

theorem priorOf_cons_self (m : Measurement) (ms : List Measurement) : priorOf m.cpu (m :: ms) = m.reading := by
  simp [priorOf]

theorem priorOf_cons_of_ne {m : Measurement} (h : m.cpu ≠ c) (ms : List Measurement) :
    priorOf c (m :: ms) = priorOf c ms := by
  simp [priorOf, h]

theorem ratingsOf_cons_self (m : Measurement) (ms : List Measurement) :
    ratingsOf m.place (m :: ms) = ⟨m, (priorOf m.cpu ms).bucket m.reading⟩ :: ratingsOf m.place ms := if_pos rfl

theorem ratingsOf_cons_of_ne {m : Measurement} (h : m.place ≠ i) (ms : List Measurement) :
    ratingsOf i (m :: ms) = ratingsOf i ms := if_neg h

/-- Buckets are numbers below 16. -/
theorem bucket_of_mem {ms : List Measurement} : ∀ r ∈ ratingsOf i ms, ∃ n < 16, r.bucket = UInt8.ofNat n := by
  induction ms with
  | nil =>
    intro r hr
    cases hr
  | cons m ms ih =>
    unfold ratingsOf
    split
    · exact List.forall_mem_cons.mpr ⟨⟨_, Rate.ofDeltas_lt .., rfl⟩, ih⟩
    · exact ih

/-- The buckets of the returns that were folded into a word, put together. -/
def collected (folds : List Rating) : UInt8 := folds.foldr (·.bucket ||| ·) 0

theorem collected_of_buckets {folds : List Rating} (h : ∀ f ∈ folds, ∃ n < 16, f.bucket = UInt8.ofNat n) :
    ∃ n < 16, collected folds = UInt8.ofNat n := by
  induction folds with
  | nil => exact ⟨0, by decide, rfl⟩
  | cons f folds ih =>
    obtain ⟨⟨b, hb, hf⟩, hfolds⟩ := List.forall_mem_cons.mp h
    obtain ⟨n, hn, heq⟩ := ih hfolds
    refine ⟨b ||| n, Nat.or_lt_two_pow (n := 4) hb hn, ?_⟩
    rw [UInt8.ofNat_or, ← hf, ← heq]
    rfl

theorem byteOf_of_latest {rs folds : List Rating} {r : Rating} (h : folds ++ [r] <+: rs) (hr : r.ret? = none)
    (hfolds : ∀ f ∈ folds, f.ret?.isSome = true) : byteOf rs = some (r.bucket ||| collected folds <<< 4) := by
  obtain ⟨older, rfl⟩ := h
  induction folds with
  | nil =>
    unfold byteOf collected
    simp [hr]
  | cons f folds ih =>
    obtain ⟨hf, hfolds⟩ := List.forall_mem_cons.mp hfolds
    have hbyte : byteOf (f :: folds ++ [r] ++ older) = (byteOf (folds ++ [r] ++ older)).map (f.mark · f.bucket) :=
      if_pos hf
    rw [hbyte, ih hfolds, Option.map_some]
    unfold Measurement.mark
    rw [if_pos hf, UInt8.or_assoc, UInt8.or_comm (collected folds <<< 4), ← UInt8.shiftLeft_or]
    rfl

/-! ### What is kept of measurements -/

/-- The rates of all words and the readings of all CPUs are as they were measured. -/
structure Rated (t : Tracer P) (ms : List Measurement) : Prop where
  place : ∀ m ∈ ms, t.arena.limit ≤ m.place ∧ m.place < t.arena.high ∧ m.place / 8 < t.arena.limit
  prior : ∀ c, (t.cursor c).prior = priorOf c ms
  rate : ∀ i x, i / 8 < t.arena.limit → byteOf (ratingsOf i ms) = some x → t.arena.rate i = x

namespace Rated

variable {t u : Tracer P} {ms : List Measurement} {m : Measurement}

theorem unmeasured (h : Rated t ms) (hu : t.Unmeasured u) (hhigh : u.arena.high = t.arena.high) : Rated u ms := by
  refine ⟨?_, fun c => (hu.prior c).trans (h.prior c), fun i x hi hx => ?_⟩
  · rw [hu.limit, hhigh]
    exact h.place
  · rw [hu.limit] at hi
    exact (hu.rate hi).trans (h.rate i x hi hx)

theorem measured (h : Rated t ms) (hu : t.Measured u m) (hlimit : u.arena.limit = t.arena.limit)
    (hhigh : u.arena.high = t.arena.high) : Rated u (m :: ms) := by
  refine ⟨?_, fun c => ?_, fun i x hi hx => ?_⟩
  · rw [hlimit, hhigh]
    exact List.forall_mem_cons.mpr ⟨hu.place, h.place⟩
  · by_cases hc : m.cpu = c
    · subst hc
      rw [hu.prior, priorOf_cons_self]
    · rw [hu.prior_of_ne c (Ne.symm hc), priorOf_cons_of_ne hc, h.prior]
  · rw [hlimit] at hi
    by_cases hplace : m.place = i
    · subst hplace
      rw [ratingsOf_cons_self, byteOf] at hx
      rw [hu.rate, h.prior]
      split at hx
      · obtain ⟨y, hy, rfl⟩ := Option.map_eq_some_iff.mp hx
        rw [h.rate _ y hi hy]
      · rename_i hwritten
        unfold Measurement.mark
        rw [if_neg hwritten]
        exact Option.some.inj hx
    · rw [ratingsOf_cons_of_ne hplace] at hx
      exact (hu.rate_of_ne i (Ne.symm hplace) hi).trans (h.rate i x hi hx)

end Rated

/-! ### Which records are rated -/

namespace Ledger

/-- The CPUs that wrote records and the places of these, the latest first. -/
def writtenPlaces (log : Ledger) : List (Nat × Nat) :=
  log.filterMap fun g => if g.words.isEmpty then none else some (g.cpu, g.span.start)

theorem writtenPlaces_cons (h : g.words ≠ []) (log : Ledger) :
    writtenPlaces (g :: log) = (g.cpu, g.span.start) :: writtenPlaces log :=
  List.filterMap_cons_some (by simp [h])

theorem writtenPlaces_cons_of_nil (h : g.words = []) (log : Ledger) : writtenPlaces (g :: log) = writtenPlaces log :=
  List.filterMap_cons_none (by simp [h])

theorem writtenPlaces_amendLatest (c : Nat) (w : UInt64) (log : Ledger) :
    writtenPlaces (amendLatest c w log) = writtenPlaces log :=
  filterMap_amendLatest (fun g => by simp [Grant.amend, List.isEmpty_iff]) c log

end Ledger

/-- Of the ratings `rs` of the word where the record `g` starts, the latest are one for each return that was folded into
the word, before them the one of the record. -/
structure RatedAs (g : Grant) (rs folds : List Rating) (r : Rating) : Prop where
  latest : folds ++ [r] <+: rs
  written : r.ret? = none
  folded : ∀ f ∈ folds, f.ret?.isSome = true
  cpu : r.cpu = g.cpu
  /-- A word that absorbed a return holds an elapsed time. -/
  merged : folds ≠ [] → ∃ x, g.words.head? = some x ∧ Head.deltaField.get x ≠ 0
  once : (∀ f ∈ folds, ∀ ret, f.ret? = some ret → Head.deltaField.get ret = 0) → folds.length ≤ 1

/-- All records of the log are rated. -/
def RecordsRated (log : Ledger) (ms : List Measurement) : Prop :=
  ∀ k, ∀ g ∈ sinceOpened k log, g.words ≠ [] → ∃ folds r, RatedAs g (ratingsOf g.span.start ms) folds r

namespace RatedAs

variable {m : Measurement} {ms : List Measurement} {folds : List Rating} {r : Rating} {ret w x : UInt64}

/-- A record has no returns when it is written. -/
theorem write (hret : m.ret? = none) (hcpu : m.cpu = g.cpu) (hplace : m.place = g.span.start) :
    ∃ r, RatedAs g (ratingsOf g.span.start (m :: ms)) [] r := by
  rw [← hplace, ratingsOf_cons_self]
  exact ⟨_, List.prefix_cons_inj _ |>.mpr List.nil_prefix, hret, List.forall_mem_nil _, hcpu, fun h => absurd rfl h,
    fun _ => Nat.zero_le 1⟩

/-- A return is folded into a record of one word. -/
theorem fold (h : RatedAs g (ratingsOf g.span.start ms) folds r) (hwords : g.words = [x])
    (hmerge : Head.merge? x ret = some w) (hret : m.ret? = some ret) (hplace : m.place = g.span.start) :
    ∃ f, RatedAs (g.amend w) (ratingsOf g.span.start (m :: ms)) (f :: folds) r := by
  have hfolded := Head.folded_of_merge? hmerge
  rw [← hplace, ratingsOf_cons_self]
  rw [← hplace] at h
  refine ⟨_, (List.prefix_cons_inj _).mpr h.latest, h.written, List.forall_mem_cons.mpr ⟨?_, h.folded⟩, h.cpu,
    fun _ => ⟨w, ?_, hfolded.delta_ne_zero⟩, fun hplain => ?_⟩
  · dsimp only
    rw [hret]
    rfl
  · unfold Grant.amend
    rw [hwords]
    rfl
  · -- a word that absorbed a return takes another one only with the elapsed time that it holds
    obtain ⟨hfirst, -⟩ := List.forall_mem_cons.mp hplain
    rcases folds with _ | ⟨f, folds⟩
    · exact Nat.le_refl 1
    · obtain ⟨y, hy, hdelta⟩ := h.merged (List.cons_ne_nil f folds)
      rw [hwords] at hy
      obtain rfl := Option.some.inj hy
      exact absurd (hfolded.sameDelta.trans (hfirst ret hret)) hdelta

/-- A return folded into another word of a record changes nothing. -/
theorem amend (h : RatedAs g (ratingsOf g.span.start ms) folds r) (hlen : 1 < g.words.length)
    (hplace : m.place ≠ g.span.start) (w : UInt64) :
    RatedAs (g.amend w) (ratingsOf g.span.start (m :: ms)) folds r := by
  rw [ratingsOf_cons_of_ne hplace]
  refine ⟨h.latest, h.written, h.folded, h.cpu, fun hne => ?_, h.once⟩
  obtain ⟨x, hx, hdelta⟩ := h.merged hne
  refine ⟨x, ?_, hdelta⟩
  unfold Grant.amend
  rw [List.head?_eq_getElem?, List.getElem?_set_ne (by omega), ← List.head?_eq_getElem?]
  exact hx

/-- A record stays rated when its last word absorbs a return. -/
theorem merge (h : RatedAs g (ratingsOf g.span.start ms) folds r) (hlast : g.words.getLast? = some x)
    (hplace : m.place + 1 = g.span.start + g.words.length) (hmerge : Head.merge? x ret = some w)
    (hret : m.ret? = some ret) : ∃ folds, RatedAs (g.amend w) (ratingsOf g.span.start (m :: ms)) folds r := by
  have hpos : 0 < g.words.length := List.length_pos_of_mem (List.mem_of_getLast? hlast)
  by_cases hone : g.words.length = 1
  · obtain ⟨y, hwords⟩ := List.length_eq_one_iff.mp hone
    rw [hwords] at hlast
    obtain rfl := Option.some.inj hlast
    obtain ⟨f, hf⟩ := h.fold hwords hmerge hret (by omega)
    exact ⟨_, hf⟩
  · exact ⟨folds, h.amend (by omega) (by omega) w⟩

end RatedAs

/-- The rate byte of a record: in its low half the bucket of the record, in its high half those of the returns that were
folded into its first word. -/
structure RateOf (t : Tracer P) (ms : List Measurement) (g : Grant) (folds : List Rating) (r : Rating) : Prop where
  latest : folds ++ [r] <+: ratingsOf g.span.start ms
  written : r.ret? = none
  folded : ∀ f ∈ folds, f.ret?.isSome = true
  cpu : r.cpu = g.cpu
  low : t.arena.rate g.span.start &&& 15 = r.bucket
  high : t.arena.rate g.span.start >>> 4 = collected folds
  /-- Returns that bring no elapsed time are not folded into one word. -/
  single : (∀ f ∈ folds, ∀ ret, f.ret? = some ret → Head.deltaField.get ret = 0) →
    folds = [] ∧ t.arena.rate g.span.start >>> 4 = 0 ∨ ∃ f, folds = [f] ∧ t.arena.rate g.span.start >>> 4 = f.bucket

theorem RatedAs.rateOf {t : Tracer P} {ms : List Measurement} {folds : List Rating} {r : Rating}
    (h : RatedAs g (ratingsOf g.span.start ms) folds r) (hrated : Rated t ms)
    (hplace : g.span.start / 8 < t.arena.limit) : RateOf t ms g folds r := by
  have hmem : ∀ f ∈ folds ++ [r], ∃ n < 16, f.bucket = UInt8.ofNat n := fun f hf =>
    bucket_of_mem f (h.latest.subset hf)
  obtain ⟨b, hb, hbucket⟩ := hmem r (by simp)
  obtain ⟨n, hn, hcollected⟩ := collected_of_buckets fun f hf => hmem f (List.mem_append_left _ hf)
  obtain ⟨hlow, hhigh⟩ := halves_or hb hn
  have hrate := hrated.rate _ _ hplace (byteOf_of_latest h.latest h.written h.folded)
  rw [← hbucket, ← hcollected, ← hrate] at hlow hhigh
  refine ⟨h.latest, h.written, h.folded, h.cpu, hlow, hhigh, fun hplain => ?_⟩
  rw [hhigh]
  match folds, h.once hplain with
  | [], _ => exact Or.inl ⟨rfl, rfl⟩
  | [f], _ => exact Or.inr ⟨f, rfl, UInt8.or_zero⟩

/-- No other record starts in the words of the grant that tops its block. -/
theorem Placed.start_outside {m : Mode} {l : List Grant} (hp : Placed m v (shape log))
    (hs : ∀ k, Stack v.arena (sinceOpened k (shape log))) (hl : sinceOpened p.block log = p :: l)
    (hg : g ∈ sinceOpened k log) (hother : k = p.block → g ∈ l) :
    ¬ (p.span.start ≤ g.span.start ∧ g.span.start < p.span.stop) := by
  obtain ⟨hmem, rfl⟩ := mem_of_mem_sinceOpened hg
  have hmem' : p ∈ log := (mem_of_mem_sinceOpened (hl ▸ List.mem_cons_self)).1
  have hin := hp.placing.of_shape.inside g hmem
  have hin' := hp.placing.of_shape.inside p hmem'
  have hlen := hin.len
  rintro ⟨hle, hlt⟩
  by_cases hk : g.block = p.block
  · have hstack := hs p.block
    rw [sinceOpened_shape, hl] at hstack
    have hbelow := hstack.stop_le g.bare (List.mem_map_of_mem (hother hk))
    change g.span.start + g.span.len ≤ p.span.start at hbelow
    omega
  · have hstart := v.arena.blockStart_lt_recordStart g.block
    have hstart' := v.arena.blockStart_lt_recordStart p.block
    have := hin.start
    have := hin.stop
    have := hin'.start
    have := hin'.stop
    have hstop : g.span.start < g.span.stop := Nat.lt_add_of_pos_right hlen
    have hout := outside_of_ne (n := p.span.len) (hp.opened.lt_blocks hin.block) (hp.opened.lt_blocks hin'.block) hk
      (show v.arena.blockStart g.block ≤ g.span.start by omega) (by omega)
      (show v.arena.blockStart p.block ≤ p.span.start by omega) (Nat.le_of_lt hin'.stop)
    unfold Span.stop at hlt
    omega

/-- A measurement for a word of the grant that tops its block is of no other record. -/
theorem RecordsRated.step {m : Mode} {l : List Grant} {log' : Ledger} {ms ms' : List Measurement}
    (h : RecordsRated log ms) (hp : Placed m v (shape log')) (hs : ∀ k, Stack v.arena (sinceOpened k (shape log')))
    (hl : sinceOpened p.block log' = p :: l)
    (hold : ∀ k g, g ∈ sinceOpened k log' → (k = p.block → g ∈ l) → g ∈ sinceOpened k log)
    (hms : ∀ i, ¬ (p.span.start ≤ i ∧ i < p.span.stop) → ratingsOf i ms' = ratingsOf i ms)
    (htop : p.words ≠ [] → ∃ folds r, RatedAs p (ratingsOf p.span.start ms') folds r) : RecordsRated log' ms' := by
  have hothers : ∀ k g, g ∈ sinceOpened k log' → (k = p.block → g ∈ l) → g.words ≠ [] →
      ∃ folds r, RatedAs g (ratingsOf g.span.start ms') folds r := by
    intro k g hg hother hwords
    rw [hms _ (hp.start_outside hs hl hg hother)]
    exact h k g (hold k g hg hother) hwords
  intro k g hg hwords
  by_cases hk : k = p.block
  · subst hk
    rcases List.mem_cons.mp (hl ▸ hg) with rfl | htail
    · exact htop hwords
    · exact hothers _ g hg (fun _ => htail) hwords
  · exact hothers k g hg (fun heq => absurd heq hk) hwords

section Platform
variable [Platform P] {t u : Tracer P} {ms : List Measurement} {a : Action} {cpu : Nat} {span : Span} {ws : List UInt64}

/-- A record is rated when it is written. -/
theorem RecordsRated.write (h : RecordsRated log ms) (hh : History u (g :: log)) (hspent : Spent 0 (g :: log))
    (hcpu : g.cpu = cpu) (hspan : g.span = span) (hwords : g.words = ws) :
    RecordsRated (g :: log) ((t.measurement ws (.written cpu span)).toList ++ ms) := by
  have hstack := (hh.stacked (Nat.zero_le 1) hspent).stack
  have hlen := (hh.placed.placing.of_shape.inside g List.mem_cons_self).len
  have hself : g.span.start ≤ g.span.start ∧ g.span.start < g.span.stop :=
    ⟨Nat.le_refl _, Nat.lt_add_of_pos_right hlen⟩
  have hhead : (sinceOpened g.block (g :: log)).head? = some g := head?_sinceOpened_cons rfl
  obtain ⟨l, hl⟩ := List.head?_eq_some_iff.mp hhead
  refine h.step hh.placed hstack hl (fun k q hq hother => ?_) (fun i hi => ?_) fun hne => ?_
  · rcases mem_sinceOpened_inv hq with ⟨-, rfl⟩ | ⟨hq', -⟩
    · exact absurd hself (hh.placed.start_outside hstack hl hq hother)
    · exact hq'
  · cases ws with
    | nil => rfl
    | cons first payload =>
      refine ratingsOf_cons_of_ne ?_ ms
      rintro rfl
      exact hi (hspan ▸ hself)
  · cases ws with
    | nil => exact absurd hwords hne
    | cons first payload => exact ⟨[], RatedAs.write rfl hcpu.symm (congrArg Span.start hspan.symm)⟩

/-- A return is rated when it is folded. -/
theorem RecordsRated.fold {ret w : UInt64} (h : RecordsRated log ms) (hh : History t log) (hspent : Spent 0 log)
    (hroom : (t.cursor c).hasRoom = true) (hi : i = (t.cursor c).next - 1)
    (hw : Head.merge? (t.arena.word i) ret = some w) :
    RecordsRated (amendLatest c w log) ((t.measurement [ret] (.merged c i)).toList ++ ms) := by
  have hstacked := hh.stacked (Nat.zero_le 1) hspent
  obtain ⟨p, hlatest, hnext, hlast⟩ := hh.last_word hspent hroom
  have hhead := hstacked.sole.head hlatest hroom
  have hsince := sinceOpened_amendLatest w hlatest hhead
  obtain ⟨l, hl⟩ := List.head?_eq_some_iff.mp hhead
  have hin := hh.placed.placing.of_shape.inside p (mem_of_latest? hlatest)
  have hstop : i + 1 = p.span.start + p.span.len := by
    have hlen := hin.len
    have hstop : (t.cursor c).next = p.span.start + p.span.len := hnext
    omega
  have hinside : p.span.start ≤ i ∧ i < p.span.stop := ⟨by have := hin.len; omega, by unfold Span.stop; omega⟩
  have hplaced : Placed t.mode t.view (shape (amendLatest c w log)) := by
    rw [shape_amendLatest]
    exact hh.placed
  refine h.step (p := p.amend w) (l := l) hplaced (by rw [shape_amendLatest]; exact hstacked.stack) ?_
    (fun k q hq hother => ?_) (fun j hj => ?_) fun hne => ?_
  · refine (hsince p.block).trans ?_
    rw [if_pos rfl, hl, List.tail_cons]
  · rw [hsince k] at hq
    split at hq
    · rename_i hk
      subst hk
      exact hl ▸ List.mem_cons_of_mem _ (hother rfl)
    · exact hq
  · refine ratingsOf_cons_of_ne ?_ ms
    rintro rfl
    exact hj hinside
  · have hwords : p.words ≠ [] := fun hnil => hne (by unfold Grant.amend; rw [hnil]; rfl)
    have hlen := ((hh.holds hspent).filled p (mem_of_latest? hlatest)).resolve_left hwords
    obtain ⟨folds, r, hr⟩ := h p.block p (List.mem_of_head? hhead) hwords
    obtain ⟨folds', hr'⟩ := hr.merge (m := ⟨c, i, some ret, t.readTime.1, _⟩) (hlast hwords) (hlen ▸ hstop) (hi ▸ hw) rfl
    exact ⟨folds', r, hr'⟩

/-! ### Runs -/

/-- A session that measures rates goes on with the rates as they are measured. -/
theorem Rated.perform (h : Rated t ms) (hp : Placed t.mode t.view (shape log)) (hrates : t.mode.rates = true)
    (hgoes : (a.isReset && !t.tracing) = false) : Rated (t.perform a).2 ((t.measurement? a).toList ++ ms) := by
  have hleads : Leads t log _ _ := Tracer.perform_leads hgoes
  obtain ⟨hblocks, hlimit⟩ := hleads.same_layout
  have heffect := (Tracer.perform_effect hgoes).measured hp hrates
  change t.MeasuredBy _ (t.measurement? a) at heffect
  cases hm : t.measurement? a with
  | none =>
    rw [hm] at heffect
    exact h.unmeasured heffect (high_congr hblocks)
  | some m =>
    rw [hm] at heffect
    exact h.measured heffect hlimit (high_congr hblocks)

theorem Observed.rated (h : Observed Tracer.measurement? t log ms) (hrates : t.mode.rates = true) : Rated t ms := by
  refine h.induction (I := fun t _ ms => t.mode.rates = true → Rated t ms) (fun t _ hnew _ => ?_) ?_ hrates
  · refine ⟨fun m hm => (by cases hm), fun c => ?_, fun i x _ hx => (by cases hx)⟩
    rw [hnew c]
    rfl
  · intro t log ms platform a hh hgoes ih hrates
    have hleads : Leads (t.at platform) log _ _ := Tracer.perform_leads hgoes
    rw [hleads.mode] at hrates
    have hrated := ih hrates
    exact Rated.perform (t := t.at platform) ⟨hrated.place, hrated.prior, hrated.rate⟩ hh.placed hrates hgoes

/-- The records that were measured and not only claimed are those that were written, and all of the log are rated. -/
structure Rates (log : Ledger) (ms : List Measurement) : Prop where
  written : ((ms.filter fun m => m.ret?.isNone).map fun m => (m.cpu, m.place)) = writtenPlaces log
  rated : Spent 0 log → RecordsRated log ms

theorem Rates.perform (h : Rates log ms) (hh : History t log) (hgoes : (a.isReset && !t.tracing) = false) :
    Rates (t.enter a log) ((t.measurement? a).toList ++ ms) := by
  have hafter : History _ (t.enter a log) := hh.act_at t.platform a
  have heffect := Tracer.perform_effect hgoes
  rw [Tracer.enter_eq_book hgoes] at hafter ⊢
  unfold Tracer.measurement?
  generalize t.stamped a = ws at heffect hafter ⊢
  cases hout : t.outcome a with
  | dropped =>
    have hnone : t.measurement ws .dropped = none := by cases ws <;> rfl
    rw [hnone]
    exact h
  | written cpu span =>
    rw [hout] at hafter
    refine ⟨?_, fun hspent => (h.rated hspent.of_book).write hafter hspent rfl rfl rfl⟩
    cases ws with
    | nil => exact h.written.trans (writtenPlaces_cons_of_nil rfl _).symm
    | cons first payload =>
      refine Eq.trans ?_ (writtenPlaces_cons (List.cons_ne_nil first payload) _).symm
      exact congrArg ((cpu, span.start) :: ·) h.written
  | merged cpu i =>
    rw [hout] at heffect
    obtain ⟨hroom, hi, ret, w, rfl, hw⟩ := heffect.of_merged
    have hbook : t.view.book (.merged cpu i) [ret] log = amendLatest cpu w log :=
      congrArg (fun x : Option UInt64 => amendLatest cpu (x.getD 0) log) hw
    rw [hbook]
    refine ⟨h.written.trans (writtenPlaces_amendLatest ..).symm, fun hspent => ?_⟩
    rw [← hbook] at hspent
    exact (h.rated hspent.of_book).fold hh hspent.of_book hroom hi hw

theorem Observed.rates (h : Observed Tracer.measurement? t log ms) : Rates log ms :=
  h.induction (I := fun _ => Rates) (fun _ _ _ => ⟨rfl, fun _ k g hg => (by cases hg)⟩)
    fun platform _ hh hgoes ih => ih.perform hh hgoes

/-- In a session that measures rates these lie below all blocks. As long as every block has one writer, the rate byte of
the first word of every record in the log is as it was measured: the bucket of the record and those of the returns folded
into the word, each of them from the readings of its CPU then and at the last record or fold before. -/
theorem rates_of_records (h : Observed Tracer.measurement? t log ms) (hrates : t.mode.rates = true)
    (hone : t.config.cpus = 1 ∨ t.arena.wrapped = false) :
    (∀ m ∈ ms, t.arena.limit ≤ m.place ∧ m.place < t.arena.high ∧ m.place / 8 < t.arena.limit) ∧
    (∀ (cpu i j : Nat) (now : UInt64), i < t.arena.high → t.arena.limit ≤ j →
      (t.noteRate cpu i now).arena.word j = t.arena.word j ∧
      (t.noteReturnRate cpu i now).arena.word j = t.arena.word j) ∧
    ((ms.filter fun m => m.ret?.isNone).map fun m => (m.cpu, m.place)) = writtenPlaces log ∧
    ∀ k, ∀ g ∈ sinceOpened k log, g.words ≠ [] → ∃ folds r, RateOf t ms g folds r := by
  have hh := h.history
  have hrated := h.rated hrates
  have hspent := hh.spent (hh.oneWriter hone)
  refine ⟨hrated.place, fun cpu i j now hi hj => ?_, h.rates.written, fun k g hg hwords => ?_⟩
  · have hbelow := hh.placed.rate_lt_limit_of_high hrates hi
    have hne : j ≠ i / 8 := Nat.ne_of_gt (Nat.lt_of_lt_of_le hbelow hj)
    exact ⟨Tracer.word_noteRate fun _ => hne, Tracer.word_noteReturnRate fun _ => hne⟩
  · obtain ⟨folds, r, hr⟩ := h.rates.rated hspent k g hg hwords
    have hin := hh.placed.placing.of_shape.inside g (mem_of_mem_sinceOpened hg).1
    obtain ⟨-, hstop⟩ := hh.placed.bounds_of_inside hin
    have hstart : g.span.start < t.arena.high := Nat.lt_of_lt_of_le (Nat.lt_add_of_pos_right hin.len) hstop
    exact ⟨folds, r, hr.rateOf hrated (hh.placed.rate_lt_limit_of_high hrates hstart)⟩

/-- A run goes on with a return that is folded into the last word of the latest record of its CPU. -/
theorem Observed.fold {w x : UInt64} (h : Observed Tracer.measurement? t log ms) (platform : P) (ret : UInt64)
    (hspent : Spent 0 log) (hc : (t.at platform).readTime.2.currentCpu = c) (hg : latest? c log = some g)
    (hx : g.words.getLast? = some x) (hroom : (t.cursor c).hasRoom = true) (hi : (t.cursor c).next - 1 = i)
    (hw : Head.merge? x (Head.stamp ret (t.at platform).readTime.1) = some w) :
    Observed Tracer.measurement?
      ({ (t.at platform).readTime.2 with arena := t.arena.setWord i w }.noteReturnRate c i (t.at platform).readTime.1)
      (log.amendLatest c w)
      (⟨c, i, some (Head.stamp ret (t.at platform).readTime.1), (t.at platform).readTime.1,
        (Platform.readInstructions (t.at platform).readTime.2.platform).1⟩ :: ms) := by
  obtain ⟨hinsert, henter⟩ := (h.history.at platform).return_folds ret hspent hc hg hx hroom hi hw
  have hnote : (t.at platform).measurement? (.insertReturn ret) =
      (t.at platform).measurement [Head.stamp ret (t.at platform).readTime.1] (.merged c i) := by
    unfold Tracer.measurement?
    rw [show (t.at platform).outcome (.insertReturn ret) = .merged c i from congrArg Prod.fst hinsert]
    rfl
  have hact := h.act platform (.insertReturn ret)
  rw [show ((t.at platform).perform (.insertReturn ret)).2 = ((t.at platform).insertReturn ret).2 from rfl, hinsert,
    henter, hnote] at hact
  exact hact

/-- A call that absorbs its return, with a record of another CPU in between. -/
theorem rates_of_records_of_call :
    ∃ (t : Tracer Simulated) (log : Ledger) (ms : List Measurement), Observed Tracer.measurement? t log ms ∧
      t.mode.rates = true ∧ (t.config.cpus = 1 ∨ t.arena.wrapped = false) ∧
      log.map (·.span) = [⟨8198, 1⟩, ⟨16396, 1⟩] ∧ (ratingsOf 16396 ms).map (·.bucket) = [8, 5] ∧
      (∀ m ∈ ms, t.arena.limit ≤ m.place ∧ m.place < t.arena.high ∧ m.place / 8 < t.arena.limit) ∧
      (∀ (cpu i j : Nat) (now : UInt64), i < t.arena.high → t.arena.limit ≤ j →
        (t.noteRate cpu i now).arena.word j = t.arena.word j ∧
        (t.noteReturnRate cpu i now).arena.word j = t.arena.word j) ∧
      ((ms.filter fun m => m.ret?.isNone).map fun m => (m.cpu, m.place)) = writtenPlaces log ∧
      ∀ k, ∀ g ∈ sinceOpened k log, g.words ≠ [] → ∃ folds r, RateOf t ms g folds r := by
  have hnew : Observed Tracer.measurement? _ [] [] :=
    .new (show Tracer.ofConfig ({} : Simulated) { blocks := 3, cpus := 2 } = .ok _ from rfl)
  have hrun := ((hnew.act {} (.reset ⟨true, false⟩)).act { time := 16, instructions := 640 }
    (.insert 0x0000080100000000 [])).act { time := 17, instructions := 9, cpu := 1 } (.insert 1 [])
  have hfold := hrun.fold (c := 0) (i := 16396) (x := 0x0001080100000000) (w := 0x0001080102000000)
    (g := ⟨0, ⟨16396, 1⟩, 0, true, 0, [0x0001080100000000]⟩) { time := 18, instructions := 768 } 0x00000a0100000000
    (by decide +kernel) rfl (by decide +kernel) rfl (by decide +kernel) (by decide +kernel) (by decide +kernel)
  have hrates := rates_of_records hfold (by decide +kernel) (Or.inr (by decide +kernel))
  refine ⟨_, _, _, hfold, ?_, Or.inr ?_, ?_, ?_, hrates⟩
  · decide +kernel
  · decide +kernel
  · decide +kernel
  · decide +kernel

/-- A call absorbs two returns, the second of which comes with the elapsed time of the first. The buckets of the returns
are 8 and 4, but the rate of the call has 12 for them. -/
theorem folds_mix_rates :
    ∃ (t : Tracer Simulated) (log : Ledger) (ms : List Measurement), Observed Tracer.measurement? t log ms ∧
      t.mode.rates = true ∧ t.config.cpus = 1 ∧ log = [⟨0, ⟨8204, 1⟩, 0, true, 0, [0x0001080106000000]⟩] ∧
      (ratingsOf 8204 ms).map (fun r => (r.ret?, r.bucket)) =
        [(some 0x00014a0102000000, 4), (some 0x00012a0100000000, 8), (none, 5)] ∧
      t.arena.rate 8204 >>> 4 = 12 := by
  have hnew : Observed Tracer.measurement? _ [] [] :=
    .new (show Tracer.ofConfig ({} : Simulated) { blocks := 2 } = .ok _ from rfl)
  have hcall := (hnew.act {} (.reset ⟨true, false⟩)).act { time := 16, instructions := 640 }
    (.insert 0x0000080100000000 [])
  have hfirst := hcall.fold (c := 0) (i := 8204) (x := 0x0001080100000000) (w := 0x0001080102000000)
    (g := ⟨0, ⟨8204, 1⟩, 0, true, 0, [0x0001080100000000]⟩) { time := 18, instructions := 768 } 0x00000a0100000000
    (by decide +kernel) rfl (by decide +kernel) rfl (by decide +kernel) (by decide +kernel) (by decide +kernel)
  have hsecond := hfirst.fold (c := 0) (i := 8204) (x := 0x0001080102000000) (w := 0x0001080106000000)
    (g := ⟨0, ⟨8204, 1⟩, 0, true, 0, [0x0001080102000000]⟩) { time := 20, instructions := 832 } 0x00000a0102000000
    (by decide +kernel) rfl (by decide +kernel) rfl (by decide +kernel) (by decide +kernel) (by decide +kernel)
  have hrate := (hsecond.rated (by decide +kernel)).rate 8204 0xc5 (by decide +kernel) (by decide +kernel)
  refine ⟨_, _, _, hsecond, ?_, ?_, ?_, ?_, ?_⟩
  · decide +kernel
  · decide +kernel
  · decide +kernel
  · decide +kernel
  · rw [hrate]
    decide

end Platform

end EventRecorder
