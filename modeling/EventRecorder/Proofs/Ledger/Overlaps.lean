import EventRecorder.Proofs.Ledger.Placement

/-! # Claims that overlap

A CPU is not told when another one takes its block off the frontier: both go on to claim from the block,
and there is an order of their claims in which a word is granted twice. -/

namespace EventRecorder

open Ledger LogView Arena

variable {P : Type} {k n cpu other len : Nat} {g p : Grant} {s : Span} {log : Ledger} {m : Mode} {v : LogView}

/-- Two spans have no word in common. -/
def Span.Apart (s r : Span) : Prop := s.stop ≤ r.start ∨ r.stop ≤ s.start

theorem not_pairwise_apart {l : List Grant} (h₁ : p.span.start < g.span.stop) (h₂ : g.span.start < p.span.stop) :
    ¬ (g :: p :: l).Pairwise fun g p => g.span.Apart p.span := fun h => by
  rcases (List.pairwise_cons.mp h).1 p List.mem_cons_self with h | h
  · exact Nat.not_lt_of_le h h₁
  · exact Nat.not_lt_of_le h h₂

/-- A CPU with room is in the block that its limit is the end of, behind the first record. -/
theorem Placed.next_of_limit (h : Placed m v log) (hroom : (v.cursor cpu).hasRoom = true) (hk : k < v.arena.blocks)
    (hlimit : (v.cursor cpu).limit = v.arena.blockStop k) :
    cpu < v.cursors.size ∧ v.arena.blockOf (v.cursor cpu).next = k ∧ v.arena.recordStart k < (v.cursor cpu).next := by
  obtain ⟨p, hp, hnext, hstop, hin⟩ := h.latest_of_hasRoom hroom
  obtain rfl := blockStop_inj (h.opened.lt_blocks hin.block) hk (hstop.symm.trans hlimit)
  have hstart : v.arena.recordStart p.block < (v.cursor cpu).next := by
    have hlen := hin.len
    rw [hnext]
    unfold Span.stop
    exact Nat.lt_of_le_of_lt hin.start (by omega)
  have hroom := Cursor.hasRoom_iff.mp hroom
  have hbehind := Nat.lt_trans (v.arena.blockStart_lt_recordStart p.block) hstart
  refine ⟨?_, blockOf_eq hk (Nat.le_of_lt hbehind) (hlimit ▸ hroom), hstart⟩
  rw [← cpu_of_latest? hp]
  exact hin.cpu

section Platform
variable [Platform P] {t : Tracer P}

/-! ### Claims in turn -/

namespace Tracer

/-- A claim, given by CPU and length, and the entry of it. -/
def enterClaim (x : Tracer P × Ledger) (claim : Nat × Nat) : Tracer P × Ledger :=
  ((x.1.perform (.claim claim.1 claim.2)).2, x.1.enter (.claim claim.1 claim.2) x.2)

/-- Claims one after another, and the entries of them. -/
def enterClaims (x : Tracer P × Ledger) (claims : List (Nat × Nat)) : Tracer P × Ledger :=
  claims.foldl enterClaim x

theorem enterClaims_cons (x : Tracer P × Ledger) (claim : Nat × Nat) (claims : List (Nat × Nat)) :
    enterClaims x (claim :: claims) = enterClaims (enterClaim x claim) claims := rfl

theorem enterClaims_append (x : Tracer P × Ledger) (claims claims' : List (Nat × Nat)) :
    enterClaims x (claims ++ claims') = enterClaims (enterClaims x claims) claims' := List.foldl_append

theorem enterClaim_of_claim (h : (t.claim cpu len).1 = some s) (log : Ledger) :
    enterClaim (t, log) (cpu, len) = ((t.claim cpu len).2, t.view.grant cpu s [] :: log) := by
  have henter : t.enter (.claim cpu len) log = t.view.grant cpu s [] :: log := by
    unfold enter outcome
    dsimp only
    rw [h]
    rfl
  exact Prod.ext rfl henter

end Tracer

open Tracer

theorem History.claim (h : History t log) (claim : Nat × Nat) :
    History (enterClaim (t, log) claim).1 (enterClaim (t, log) claim).2 :=
  h.act t.platform (.claim claim.1 claim.2)

theorem History.claims (h : History t log) (claims : List (Nat × Nat)) :
    History (enterClaims (t, log) claims).1 (enterClaims (t, log) claims).2 := by
  induction claims generalizing t log with
  | nil => exact h
  | cons claim claims ih => exact ih (h.claim claim)

/-- A word claimed by a CPU with room is entered on top of its block. -/
theorem History.enter_word (h : History t log) (hfits : (t.cursor cpu).fits 1 = true) (hk : k < t.arena.blocks)
    (hlimit : (t.cursor cpu).limit = t.arena.blockStop k) :
    ∃ u g, enterClaim (t, log) (cpu, 1) = (u, g :: log) ∧ History u (g :: log) ∧ g.span = ⟨(t.cursor cpu).next, 1⟩ ∧
      sinceOpened k (g :: log) = g :: sinceOpened k log ∧ u.arena = t.arena ∧
      Moved t.view u.view cpu ((t.cursor cpu).next + 1) (t.cursor cpu).limit := by
  obtain ⟨hcpu, hblock, -⟩ := h.placed.next_of_limit (Cursor.hasRoom_of_fits hfits) hk hlimit
  have hclaim := claim_of_fits (show Event.isValidLength 1 = true from rfl) hcpu hfits
  have henter := enterClaim_of_claim (congrArg Prod.fst hclaim) log
  have hmoved : Moved t.view (t.claim cpu 1).2.view cpu ((t.cursor cpu).next + 1) (t.cursor cpu).limit := by
    rw [hclaim]
    exact moved_modifyCursor hcpu
  have harena : (t.claim cpu 1).2.arena = t.arena := by
    rw [hclaim]
    rfl
  have hrun := h.claim (cpu, 1)
  rw [henter] at hrun
  refine ⟨_, _, henter, hrun, rfl, ?_, harena, hmoved⟩
  rw [LogView.grant_of_fits (v := t.view) (s := ⟨(t.cursor cpu).next, 1⟩) hfits]
  exact sinceOpened_of_not_fresh hblock rfl

/-- A CPU gets as far as there is room by claiming one word after another. -/
theorem History.enter_words (h : History t log) (hroom : (t.cursor cpu).next + n < (t.cursor cpu).limit)
    (hk : k < t.arena.blocks) (hlimit : (t.cursor cpu).limit = t.arena.blockStop k) :
    ∃ u log', enterClaims (t, log) (List.replicate n (cpu, 1)) = (u, log') ∧ History u log' ∧ u.arena = t.arena ∧
      Moved t.view u.view cpu ((t.cursor cpu).next + n) (t.cursor cpu).limit := by
  induction n generalizing t log with
  | zero => exact ⟨t, log, rfl, h, rfl, rfl, rfl, rfl, fun _ _ => rfl, fun _ _ => rfl⟩
  | succ n ih =>
    obtain ⟨u, g, henter, hu, -, -, harena, hmoved⟩ := h.enter_word (Cursor.fits_iff.mpr (by omega)) hk hlimit
    have hnext : (u.cursor cpu).next = (t.cursor cpu).next + 1 := hmoved.next
    have hstop : (u.cursor cpu).limit = (t.cursor cpu).limit := hmoved.limit
    obtain ⟨u', log', henter', hu', harena', hmoved'⟩ :=
      ih hu (by omega) (harena ▸ hk) (by rw [hstop, harena, hlimit])
    rw [hnext, hstop, Nat.add_assoc, Nat.add_comm 1 n] at hmoved'
    refine ⟨u', log', ?_, hu', harena'.trans harena, hmoved.trans hmoved'⟩
    rw [List.replicate_succ, enterClaims_cons, henter]
    exact henter'

/-! ### Openings -/

theorem History.limit_of_last (h : History t (g :: log)) : (t.cursor g.cpu).limit = t.arena.blockStop g.block :=
  h.placed.limit_of g.cpu g.bare (latest?_cons_self (g := g.bare))

/-- The grant for which a block was just opened lies behind the header of the block next in turn. -/
theorem History.last_of_fresh (h : History t (g :: log)) (hf : g.fresh = true) :
    g.block = nthBlock t.arena.usable (openings log) ∧ g.block < t.arena.usable ∧
      g.span.start = t.arena.recordStart g.block := by
  have hplacing := h.placed.placing
  rw [shape_cons] at hplacing
  cases hplacing with
  | fresh _ _ _ hblock hlt hstart =>
    rw [openings_shape] at hblock
    exact ⟨hblock, hlt, hstart⟩
  | next _ hf' => cases hf.symm.trans hf'

/-- A claim that opens a block, as the tracer and the ledger show it afterwards. -/
theorem History.opening (h : History t log) (hs : (t.claim cpu len).1 = some s)
    (hopen : (t.cursor cpu).fits len = false) :
    ∃ u g l, enterClaim (t, log) (cpu, len) = (u, g :: log) ∧ History u (g :: log) ∧ g.fresh = true ∧ g.cpu = cpu ∧
      g.block = t.arena.blockOf s.start ∧ u.arena.blocks = t.arena.blocks ∧ u.arena.limit = t.arena.limit ∧
      Moved t.view u.view cpu g.span.stop l := by
  have henter := enterClaim_of_claim hs log
  have hu := h.claim (cpu, len)
  have hlead : Leads t log (enterClaim (t, log) (cpu, len)).1 _ := perform_leads (by rfl)
  obtain ⟨hblocks, hlimit⟩ := hlead.same_layout
  obtain ⟨l, hmoved⟩ := moved_of_claim hs
  rw [henter] at hu hblocks hlimit
  have hfresh : (t.view.grant cpu s []).fresh = true := by
    rw [LogView.grant_of_not_fits]
    rw [len_of_claim hs]
    exact hopen
  exact ⟨_, _, l, henter, hu, hfresh, rfl, rfl, hblocks, hlimit, hmoved⟩

theorem History.block_of_opening (h : History t log) (hs : (t.claim cpu len).1 = some s)
    (hopen : (t.cursor cpu).fits len = false) :
    t.arena.blockOf s.start = nthBlock t.arena.usable (openings log) ∧ t.arena.blockOf s.start < t.arena.usable := by
  obtain ⟨u, g, l, -, hu, hfresh, -, hblock, hblocks, hlimit, -⟩ := h.opening hs hopen
  obtain ⟨hturn, hlt, -⟩ := hu.last_of_fresh hfresh
  rw [usable_congr hblocks hlimit] at hturn hlt
  exact hblock ▸ ⟨hturn, hlt⟩

/-! ### Overlaps -/

theorem History.overlap_of_next_eq (h : History t log) (hne : other ≠ cpu) (hk : k < t.arena.blocks)
    (hfits : (t.cursor cpu).fits 1 = true) (hlimit : (t.cursor cpu).limit = t.arena.blockStop k)
    (hnext : (t.cursor other).next = (t.cursor cpu).next) (hstop : (t.cursor other).limit = t.arena.blockStop k) :
    ¬ (sinceOpened k (enterClaims (t, log) [(cpu, 1), (other, 1)]).2).Pairwise fun g p => g.span.Apart p.span := by
  obtain ⟨u, g, henter, hu, hspan, hsince, harena, hmoved⟩ := h.enter_word hfits hk hlimit
  have hnext' : (u.cursor other).next = (t.cursor cpu).next := (hmoved.next_of_ne other hne).trans hnext
  have hstop' : (u.cursor other).limit = u.arena.blockStop k := by
    rw [harena, ← hstop]
    exact hmoved.limit_of_ne other hne
  have hfits' : (u.cursor other).fits 1 = true := by
    rw [Cursor.fits_iff, hnext', hstop', harena, ← hlimit]
    exact Cursor.fits_iff.mp hfits
  obtain ⟨u', g', henter', -, hspan', hsince', -⟩ := hu.enter_word hfits' (harena ▸ hk) hstop'
  rw [enterClaims_cons, henter, enterClaims_cons, henter']
  change ¬ (sinceOpened k (g' :: g :: log)).Pairwise _
  rw [hsince', hsince]
  refine not_pairwise_apart ?_ ?_ <;> rw [hspan, hspan', hnext'] <;> exact Nat.lt_succ_self _

/-- When another CPU can be granted a word of the block just opened, there are claims that overlap. -/
theorem History.overlap_of_shared (h : History t (g :: log)) (hfresh : g.fresh = true)
    (hlast : (t.cursor g.cpu).next = g.span.stop) (hne : other ≠ g.cpu) (hfits : (t.cursor other).fits 1 = true)
    (hstop : (t.cursor other).limit = t.arena.blockStop g.block) :
    ∃ claims, ¬ (sinceOpened g.block (enterClaims (t, g :: log) claims).2).Pairwise fun g p => g.span.Apart p.span := by
  obtain ⟨-, hlt, hstart⟩ := h.last_of_fresh hfresh
  have hk : g.block < t.arena.blocks := h.opened.lt_blocks hlt
  have hbehind : t.arena.recordStart g.block < (t.cursor other).next :=
    (h.placed.next_of_limit (Cursor.hasRoom_of_fits hfits) hk hstop).2.2
  rcases Nat.lt_or_ge (t.cursor other).next g.span.stop with hamong | hahead
  · -- the other CPU stands at a word just granted, and claims it
    obtain ⟨u, p, henter, -, hspan, hsince, -⟩ := h.enter_word hfits hk hstop
    refine ⟨[(other, 1)], ?_⟩
    rw [enterClaims_cons, henter]
    change ¬ (sinceOpened _ (p :: g :: log)).Pairwise _
    rw [hsince, sinceOpened_of_fresh rfl hfresh]
    refine not_pairwise_apart ?_ ?_ <;> rw [hspan]
    · unfold Span.stop
      dsimp only
      omega
    · exact hamong
  · -- the CPU that opened the block claims word after word until it stands where the other one does
    obtain ⟨n, hn⟩ := Nat.exists_eq_add_of_le hahead
    have hroom := Cursor.fits_iff.mp hfits
    have hlimit := h.limit_of_last
    obtain ⟨u, log', henter, hu, harena, hmoved⟩ := h.enter_words (n := n) (by omega) hk hlimit
    have hcpu_next : (u.cursor g.cpu).next = (t.cursor g.cpu).next + n := hmoved.next
    have hcpu_limit : (u.cursor g.cpu).limit = (t.cursor g.cpu).limit := hmoved.limit
    have hother_next : (u.cursor other).next = (t.cursor other).next := hmoved.next_of_ne other hne
    have hother_limit : (u.cursor other).limit = (t.cursor other).limit := hmoved.limit_of_ne other hne
    refine ⟨List.replicate n (g.cpu, 1) ++ [(g.cpu, 1), (other, 1)], ?_⟩
    rw [enterClaims_append, henter]
    refine hu.overlap_of_next_eq hne (harena ▸ hk) (Cursor.fits_iff.mpr ?_) ?_ ?_ ?_
    · omega
    · rw [hcpu_limit, hlimit, harena]
    · omega
    · rw [hother_limit, hstop, harena]

/-- Once a block is taken off the frontier while another CPU can be granted a word of it, there are claims that
overlap. -/
theorem History.overlap_of_opening (h : History t log) (hs : (t.claim cpu len).1 = some s)
    (hopen : (t.cursor cpu).fits len = false) (hne : other ≠ cpu) (hfits : (t.cursor other).fits 1 = true)
    (hstop : (t.cursor other).limit = t.arena.blockStop (t.arena.blockOf s.start)) :
    ∃ claims, ¬ (sinceOpened (t.arena.blockOf s.start) (enterClaims (t, log) ((cpu, len) :: claims)).2).Pairwise
      fun g p => g.span.Apart p.span := by
  obtain ⟨u, g, l, henter, hu, hfresh, rfl, hblock, hblocks, -, hmoved⟩ := h.opening hs hopen
  have hstop' : (u.cursor other).limit = u.arena.blockStop g.block := by
    rw [hblock, blockStop_congr hblocks, ← hstop]
    exact hmoved.limit_of_ne other hne
  obtain ⟨claims, hclaims⟩ :=
    hu.overlap_of_shared hfresh hmoved.next hne ((hmoved.fits_of_ne hne).trans hfits) hstop'
  refine ⟨claims, ?_⟩
  rw [enterClaims_cons, henter, ← hblock]
  exact hclaims

end Platform

end EventRecorder
