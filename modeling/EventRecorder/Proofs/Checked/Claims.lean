import EventRecorder.Proofs.Checked.Arena
import EventRecorder.Proofs.Ledger.Placement

/-! # Checked claims

The cursors of the CPUs go around the end of the sizes, and a claim judges and closes blocks by their limits. As long
as no cursor has come close to the end, a claim finds the blocks that it needs, and no check stops it. -/

namespace EventRecorder

open Size Ledger Arena

variable {P : Type} {a : Arena} {c cpu i j k len limit n start stop : Nat} {log : Ledger} {m : Mode}

/-! ### Clocks and verdicts -/

def BlockClock.stamp? (c : BlockClock) (raw : UInt64) (bits : Nat) : Option (UInt64 × BlockClock) := do
  if 64 ≤ bits then return (raw, ⟨raw⟩)
  let lap ← Word.shiftLeft? 1 bits
  let reading := raw ||| (c.prior &&& ~~~(← Word.sub? lap 1))
  let stamp := if reading < c.prior then reading + lap else reading
  return (stamp, ⟨stamp⟩)

/-- A lap of a counter of less than 64 bits is a word, and not zero. -/
theorem BlockClock.stamp?_eq (c : BlockClock) (raw : UInt64) (bits : Nat) :
    c.stamp? raw bits = some (c.stamp raw bits) := by
  unfold stamp? stamp
  split
  · rfl
  · rename_i hbits
    have hlap : (1 : UInt64) ≤ 1 <<< UInt64.ofNat bits := by
      have hmod : bits % 2 ^ 64 % 64 = bits := by omega
      have hlt : 2 ^ bits < 2 ^ 64 := Nat.pow_lt_pow_right (by decide) (by omega)
      rw [UInt64.le_iff_toNat_le, UInt64.toNat_shiftLeft, UInt64.toNat_ofNat', hmod, UInt64.toNat_one, Nat.one_shiftLeft,
        Nat.mod_eq_of_lt hlt]
      exact Nat.one_le_two_pow
    have hshift : Word.shiftLeft? 1 bits = some (1 <<< UInt64.ofNat bits) := if_pos (Nat.lt_of_not_le hbits)
    have hsub : Word.sub? (1 <<< UInt64.ofNat bits) 1 = some (1 <<< UInt64.ofNat bits - 1) := if_pos hlap
    simp only [hshift, hsub, Option.bind_eq_bind, Option.bind_some]
    rfl

/-- Judges a claim. The bounds are computed even if they turn out not to be needed. -/
def verdict? (before after : Nat) (claim : Span) : Option Verdict :=
  if after = 0 then some .retry
  else do
    let start ← sub? after blockWords
    let stop ← add? claim.start claim.len
    return if before ≠ after && !(start ≤ claim.start && claim.start < after) then .retry
      else if after ≤ stop then .overflow
      else .accept

/-- A claim can be judged by any limit that the cursor had before. -/
theorem verdict?_eq {after : Nat} {claim : Span} (hafter : after = 0 ∨ blockWords ≤ after)
    (hstop : claim.start + claim.len < 2 ^ 64) (before : Nat) :
    verdict? before after claim = some (verdict before after claim) := by
  unfold verdict? verdict
  split
  · rfl
  · rename_i hset
    rw [sub?_eq (hafter.resolve_left hset), add?_eq hstop]
    rfl

/-- A limit within the first block would stop the machine. -/
example : verdict? 8192 8191 ⟨8000, 1⟩ = none := by decide

/-! ### Closing blocks -/

/-- The cursor moves on, and around the end of the sizes. -/
def Cursor.advance (c : Cursor) (len : Nat) : Cursor := { c with next := (c.next + len) % 2 ^ 64 }

theorem Cursor.advance_eq {c : Cursor} (h : c.next + len < 2 ^ 64) :
    c.advance len = { c with next := c.next + len } := by
  unfold advance
  rw [Nat.mod_eq_of_lt h]

theorem Mark.close_close (h : i ≤ j) (m : Mark) : (m.close i).close j = m.close i := by
  cases m with
  | filling => exact congrArg Mark.closed (Nat.min_eq_left h)
  | closed old => exact congrArg Mark.closed (by omega)

namespace Arena

theorem blockOf_lt (h : i < a.high) : a.blockOf i < a.blocks := by
  unfold blockOf
  exact Nat.div_lt_of_lt_mul (by rw [Nat.mul_comm]; change a.high - 1 - i < a.high; omega)

/-- A block that is closed cannot be closed further up. -/
theorem close_close (h : i ≤ j) (a : Arena) (k : Nat) : (a.close k i).close k j = a.close k i := by
  have hstart := (SameFrontier.close a k i).blockStart k
  have hmarks : (a.marks.modify k (·.close (i - a.blockStart k))).modify k (·.close (j - a.blockStart k)) =
      a.marks.modify k (·.close (i - a.blockStart k)) := by
    refine Array.ext (by simp) fun l hl _ => ?_
    rw [Array.getElem_modify, Array.getElem_modify]
    split
    · exact Mark.close_close (Nat.sub_le_sub_right h _) _
    · rfl
  rw [close]
  simp only [hstart]
  unfold close
  simp only [hmarks]

end Arena

namespace Tracer

variable {t : Tracer P} {f g : Cursor → Cursor}

theorem modifyCursor_congr (h : f (t.cursor cpu) = g (t.cursor cpu)) : t.modifyCursor cpu f = t.modifyCursor cpu g := by
  have hcursors : t.cursors.modify cpu f = t.cursors.modify cpu g := by
    refine Array.ext (by simp) fun i hi _ => ?_
    rw [Array.getElem_modify, Array.getElem_modify]
    split
    · rename_i hcpu
      subst hcpu
      rw [Array.size_modify] at hi
      unfold cursor at h
      rwa [Array.getD_eq_getD_getElem?, Array.getElem?_eq_getElem hi] at h
    · rfl
  unfold modifyCursor
  rw [hcursors]

def closeBlock? (t : Tracer P) (limit stop : Nat) : Option (Tracer P) := do
  let k ← t.arena.blockOf? (← sub? limit 1)
  return { t with arena := ← t.arena.close? k (min stop limit) }

theorem closeBlock?_eq (hsmall : t.arena.blocks < 2 ^ 40) (hset : limit ≠ 0) (hlimit : limit ≤ t.arena.high)
    (stop : Nat) : t.closeBlock? limit stop = some (t.closeBlock limit stop) := by
  have hlast : limit - 1 < t.arena.high := by omega
  unfold closeBlock?
  simp only [sub?_eq (show 1 ≤ limit by omega), blockOf?_eq hlast, close?_eq hsmall (blockOf_lt hlast),
    Option.bind_eq_bind, Option.bind_some]
  rfl

theorem closeBlock_modifyCursor (t : Tracer P) (cpu : Nat) (f : Cursor → Cursor) (limit stop : Nat) :
    (t.modifyCursor cpu f).closeBlock limit stop = (t.closeBlock limit stop).modifyCursor cpu f := rfl

/-- A CPU that has closed its block cannot close it further up. -/
theorem closeBlock_closeBlock (h : i ≤ j) (t : Tracer P) (limit : Nat) :
    (t.closeBlock limit i).closeBlock limit j = t.closeBlock limit i := by
  have hblock : (t.arena.close (t.arena.blockOf (limit - 1)) (min i limit)).blockOf (limit - 1) =
      t.arena.blockOf (limit - 1) := by
    unfold Arena.blockOf
    rw [(SameFrontier.close ..).high]
  unfold closeBlock
  simp only [hblock, close_close (show min i limit ≤ min j limit by omega)]

/-! ### Opening blocks -/

section Platform
variable [Platform P]

/-- Starts a block just opened, and tells where its records start. -/
def startBlock? (t : Tracer P) (cpu : Nat) (o : Opening) : Option (Nat × Tracer P) := do
  let (now, t) := t.readTime
  let (timestamp, clock) ← t.clock.stamp? now (Platform.counterBits t.platform)
  let header := ⟨UInt8.ofNat cpu, timestamp, t.mode.flags, 0⟩
  let task := Platform.currentTask t.platform
  let (slot, arena) ← t.arena.layOut? o header task
  let t := { t with clock, arena }.prepareCounters cpu
  let block ← t.arena.blockOf? o.start
  let arena ← t.arena.startFilling? block
  return (slot, { t with arena }.report (.blockOpened block cpu timestamp))

def claimFresh? (t : Tracer P) (cpu len : Nat) : Option (Option Span × Tracer P) := do
  let (opening?, arena) ← t.arena.openBlock? t.mode.wraps
  let t := { t with arena }
  match opening? with
  | none => return (none, if t.tracing then { t with tracing := false }.report .arenaFull else t)
  | some o =>
    let t := if o.wrapped then { t with named := .empty }.report .arenaWrapped else t
    let (slot, t) ← t.startBlock? cpu o
    let next ← add? slot len
    let limit ← add? o.start blockWords
    return (some ⟨slot, len⟩, t.modifyCursor cpu ({ · with next, limit }))

theorem startBlock?_eq {o : Opening} (hsmall : t.arena.blocks < 2 ^ 40) (hstop : o.start + blockWords ≤ t.arena.high)
    (cpu : Nat) : t.startBlock? cpu o = some (o.recordStart, t.startBlock cpu o) := by
  have hread : t.readTime.2.arena = t.arena := rfl
  have hstart : o.start < t.arena.high := Nat.lt_of_lt_of_le (Nat.lt_add_of_pos_right (by decide)) hstop
  unfold startBlock? startBlock
  generalize t.readTime = r at hread ⊢
  obtain ⟨now, u⟩ := r
  dsimp only at hread ⊢
  rw [← hread] at hsmall hstop hstart
  simp only [BlockClock.stamp?_eq, layOut?_eq hsmall hstop, Option.bind_eq_bind, Option.bind_some]
  generalize u.clock.stamp now (Platform.counterBits u.platform) = stamped
  generalize Platform.currentTask u.platform = task
  generalize (⟨UInt8.ofNat cpu, stamped.1, u.mode.flags, 0⟩ : Header) = header
  have hsame := SameFrontier.layOut u.arena o header task
  have harena := (stayed_prepareCounters { u with clock := stamped.2, arena := u.arena.layOut o header task } cpu).2.1
  generalize prepareCounters (P := P) _ _ = s at harena ⊢
  dsimp only at harena
  rw [← hsame.blocks, ← harena] at hsmall
  rw [← hsame.high, ← harena] at hstart
  simp only [blockOf?_eq hstart, startFilling?_eq (blockOf_lt hstart), Option.bind_some]
  rfl

/-- A block taken off the frontier has place for its header, its tail, and a claim of any length. -/
theorem claimFresh?_eq (hsmall : t.arena.blocks < 2 ^ 40) (ho : t.arena.Opened n) (hlen : len < 2 ^ 63) (cpu : Nat) :
    t.claimFresh? cpu len = some (t.claimFresh cpu len) := by
  have hhigh := high_lt hsmall
  unfold claimFresh? claimFresh
  rw [openBlock?_eq hsmall ho, Option.bind_eq_bind, Option.bind_some]
  cases hopen : t.arena.openBlock t.mode.wraps with
  | mk opening? b =>
    cases opening? with
    | none => rfl
    | some o =>
      have htakes := ho.takes hopen
      have hstop := blockStop_le_high (ho.lt_blocks htakes.block_lt)
      have hb := high_congr htakes.blocks
      unfold Arena.blockStop at hstop
      rw [← htakes.start] at hstop
      rw [← hb] at hhigh hstop
      rw [← htakes.blocks] at hsmall
      have hmoved := (t.frontierMoved_same o b).1
      have hstarted := startBlock?_eq (t := t.frontierMoved o b) (hmoved.symm ▸ hsmall) (hmoved.symm ▸ hstop) cpu
      have hnext : add? o.recordStart len = some (o.recordStart + len) := by
        obtain ⟨-, htask⟩ := taskStart_bounds o
        unfold Opening.recordStart
        exact add?_eq (by omega)
      have hlimit := add?_eq (show o.start + blockWords < 2 ^ 64 by omega)
      change ((t.frontierMoved o b).startBlock? cpu o).bind _ = _
      rw [hstarted, Option.bind_some]
      simp only [hnext, hlimit]
      rfl

/-! ### Claims -/

/-- Claims words again once the lock of the frontier is held. -/
def slowClaim? (t : Tracer P) (cpu len : Nat) : Option (Option Span × Tracer P) := do
  let c := t.cursor cpu
  let t := t.modifyCursor cpu (·.advance len)
  if c.limit = 0 then t.claimFresh? cpu len
  else if (← add? c.next len) < c.limit then return (some ⟨c.next, len⟩, t)
  else (← t.closeBlock? c.limit c.next).claimFresh? cpu len

/-- Nothing moves a limit while it is read twice here, so a claim that would have to be made once more is none. -/
def claim? (t : Tracer P) (cpu len : Nat) : Option (Option Span × Tracer P) := do
  if !Event.isValidLength len then return (none, t.refuseLength len)
  if t.cursors.size ≤ cpu then return (none, t)
  let limit := (t.cursor cpu).limit
  if limit = 0 then t.slowClaim? cpu len
  else
    let claim : Span := ⟨(t.cursor cpu).next, len⟩
    let t := t.modifyCursor cpu (·.advance len)
    match ← verdict? limit (t.cursor cpu).limit claim with
    | .accept => return (some claim, t)
    | .retry => none
    | .overflow => (← t.closeBlock? limit claim.start).slowClaim? cpu len

omit [Platform P] in
theorem modifyCursor_advance (hnext : (t.cursor cpu).next + len < 2 ^ 64) :
    t.modifyCursor cpu (·.advance len) = t.modifyCursor cpu fun c => { c with next := (t.cursor cpu).next + len } :=
  modifyCursor_congr (Cursor.advance_eq hnext)

/-- A CPU without a block gets one. -/
theorem slowClaim?_of_unset (hsmall : t.arena.blocks < 2 ^ 40) (ho : t.arena.Opened n) (hlen : len ≤ 8)
    (hset : (t.cursor cpu).limit = 0) (hnext : (t.cursor cpu).next + 8 < 2 ^ 64) :
    t.slowClaim? cpu len = some ((t.overrun cpu len).claimFresh cpu len) := by
  have hover : t.overrun cpu len = t.modifyCursor cpu (·.advance len) := by
    unfold overrun
    rw [if_pos hset, modifyCursor_advance (by omega)]
  have hsame := t.overrun_sameFrontier cpu len
  unfold slowClaim?
  dsimp only
  rw [if_pos hset, ← hover]
  exact claimFresh?_eq (hsame.blocks ▸ hsmall) (ho.of_sameFrontier hsame) (by omega) cpu

/-- A CPU that has run over the end of its block closes it twice, the second time without effect. -/
theorem slowClaim?_of_full (hsmall : t.arena.blocks < 2 ^ 40) (ho : t.arena.Opened n) (hlen : len ≤ 8)
    (hcpu : cpu < t.cursors.size) (hset : (t.cursor cpu).limit ≠ 0) (hlimit : (t.cursor cpu).limit ≤ t.arena.high)
    (hnext : (t.cursor cpu).next + 16 < 2 ^ 64) (hfull : (t.cursor cpu).limit ≤ (t.cursor cpu).next + len) :
    ((t.modifyCursor cpu (·.advance len)).closeBlock (t.cursor cpu).limit (t.cursor cpu).next).slowClaim? cpu len =
      some ((t.overrun cpu len).claimFresh cpu len) := by
  have hfirst : t.modifyCursor cpu (·.advance len) =
      t.modifyCursor cpu fun c => { c with next := (t.cursor cpu).next + len } := modifyCursor_advance (by omega)
  have hover : t.overrun cpu len =
      ((t.modifyCursor cpu (·.advance len)).closeBlock (t.cursor cpu).limit (t.cursor cpu).next).modifyCursor cpu
        fun c => { c with next := c.next + len } := by
    unfold overrun
    rw [if_neg hset, hfirst]
  have hsame := t.overrun_sameFrontier cpu len
  generalize hu : (t.modifyCursor cpu (·.advance len)).closeBlock (t.cursor cpu).limit (t.cursor cpu).next = u at hover ⊢
  have hcursor : u.cursor cpu = { t.cursor cpu with next := (t.cursor cpu).next + len } := by
    rw [← hu, hfirst]
    exact cursor_modifyCursor (t := t) hcpu
  have hagain : u.modifyCursor cpu (·.advance len) = t.overrun cpu len := by
    rw [hover]
    exact modifyCursor_congr (Cursor.advance_eq (by rw [hcursor]; dsimp only; omega))
  -- the block is closed where the cursor was first, and closing it higher up changes nothing
  have hclosed : (t.overrun cpu len).closeBlock (t.cursor cpu).limit ((t.cursor cpu).next + len) = t.overrun cpu len := by
    rw [hover, ← hu, closeBlock_modifyCursor, closeBlock_closeBlock (Nat.le_add_right ..)]
  unfold slowClaim?
  simp only [hcursor, hset, hagain, if_false, add?_eq (show (t.cursor cpu).next + len + len < 2 ^ 64 by omega),
    Option.bind_eq_bind, Option.bind_some, show ¬ (t.cursor cpu).next + len + len < (t.cursor cpu).limit by omega]
  rw [closeBlock?_eq (hsame.blocks ▸ hsmall) hset (by rw [hsame.high]; exact hlimit), Option.bind_some, hclosed]
  exact claimFresh?_eq (hsame.blocks ▸ hsmall) (ho.of_sameFrontier hsame) (by omega) cpu

omit [Platform P] in
theorem blockWords_le_limit (hp : Placed t.mode t.view log) (hset : (t.cursor cpu).limit ≠ 0) :
    blockWords ≤ (t.cursor cpu).limit := by
  cases hlatest : latest? cpu log with
  | none => exact absurd (hp.unset cpu hlatest) hset
  | some g =>
    have hlimit : (t.cursor cpu).limit = t.arena.blockStop g.block := hp.limit_of cpu g hlatest
    rw [hlimit]
    exact Nat.le_add_left ..

omit [Platform P] in
/-- A CPU with a block judges its own claim by the end of the block alone. -/
theorem verdict?_of_set (hp : Placed t.mode t.view log) (hset : (t.cursor cpu).limit ≠ 0)
    (hstop : (t.cursor cpu).next + len < 2 ^ 64) :
    verdict? (t.cursor cpu).limit (t.cursor cpu).limit ⟨(t.cursor cpu).next, len⟩ =
      some (if (t.cursor cpu).limit ≤ (t.cursor cpu).next + len then .overflow else .accept) := by
  rw [verdict?_eq (Or.inr (blockWords_le_limit hp hset)) hstop, verdict_same, if_neg hset]
  rfl

/-- No check stops a claim while the place of its CPU is not close to the end of the sizes. -/
theorem claim?_eq (hp : Placed t.mode t.view log) (hsmall : t.arena.blocks < 2 ^ 40)
    (hnext : (t.cursor cpu).next + 16 < 2 ^ 64) (len : Nat) : t.claim? cpu len = some (t.claim cpu len) := by
  have ho : t.arena.Opened (openings log) := hp.opened
  have hlimit : (t.cursor cpu).limit ≤ t.arena.high := hp.limit_le_high cpu
  unfold claim?
  cases hlen : Event.isValidLength len
  · rw [Bool.not_false, if_pos rfl, claim_of_invalid hlen]
    rfl
  rw [Bool.not_true, if_neg Bool.false_ne_true]
  rcases Nat.lt_or_ge cpu t.cursors.size with hcpu | hunserved
  · have hle := (isValidLength_iff.mp hlen).2
    rw [if_neg (Nat.not_le_of_lt hcpu), claim_eq hlen hcpu]
    by_cases hset : (t.cursor cpu).limit = 0
    · -- nothing fits a CPU without a block
      have hfits : ¬ (t.cursor cpu).fits len = true := fun h => by
        have := Cursor.fits_iff.mp h
        omega
      rw [if_pos hset, slowClaim?_of_unset hsmall ho hle hset (by omega), if_neg hfits]
    · have hmoved : ((t.modifyCursor cpu (·.advance len)).cursor cpu).limit = (t.cursor cpu).limit :=
        field_modifyCursor Cursor.limit (fun _ => by rfl) cpu
      rw [if_neg hset]
      dsimp only
      rw [hmoved, verdict?_of_set hp hset (by omega), Option.bind_eq_bind, Option.bind_some]
      by_cases hfull : (t.cursor cpu).limit ≤ (t.cursor cpu).next + len
      · have hclosed := closeBlock?_eq (t := t.modifyCursor cpu (·.advance len)) hsmall hset hlimit (t.cursor cpu).next
        rw [if_pos hfull, if_neg fun h => Nat.not_lt_of_le hfull (Cursor.fits_iff.mp h)]
        dsimp only
        rw [hclosed]
        exact slowClaim?_of_full hsmall ho hle hcpu hset hlimit hnext hfull
      · rw [if_neg hfull, if_pos (Cursor.fits_iff.mpr (Nat.lt_of_not_le hfull)), ← modifyCursor_advance (by omega)]
        rfl
  · rw [if_pos hunserved, claim_of_unserved hlen hunserved]
    rfl

end Platform

end Tracer

end EventRecorder
