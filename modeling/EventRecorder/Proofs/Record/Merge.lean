import EventRecorder.Proofs.Record.Head
import EventRecorder.Record.Merge
import EventRecorder.Record.Split

/-! # Unfolding merged words

A call that absorbed its return still holds all that the return told, but for the tick that a return
without elapsed time is given. -/

namespace EventRecorder.Head

variable {call ret w : UInt64}

/-! ### What a merged word holds -/

/-- `w` is the word of `call` with the return `ret` folded into it. -/
structure Folded (call ret w : UInt64) : Prop where
  pair : eventField.get call ^^^ eventField.get ret = Event.returnBit
  sameDelta : deltaField.get call = deltaField.get ret
  sameRetval : retvalField.get call = retvalField.get ret
  value : fitsByte (signedArg ret) = true
  ticks : (elapsed call ret).toNat < 2 ^ 8
  timestamp : timestampField.get w = timestampField.get call
  event : eventField.get w = eventField.get call
  delta : deltaField.get w = deltaField.get call ||| elapsed call ret
  retval : retvalField.get w = retvalField.get call ||| argField.get ret &&& ones 8
  arg : argField.get w = argField.get call

/-- In every field of the mask the two words differ by the return bit alone. -/
theorem get_xor_of_pair (h : (call ^^^ ret) &&& pairMask = eventField.place Event.returnBit) {f : BitField}
    (hf : f.get pairMask = ones f.width) : f.get call ^^^ f.get ret = f.get (eventField.place Event.returnBit) := by
  have hfield := congrArg f.get h
  rwa [BitField.get_and, hf, BitField.get_and_ones, BitField.get_xor] at hfield

theorem folded_of_merge? (h : merge? call ret = some w) : Folded call ret w := by
  unfold merge? at h
  split at h
  · cases h
  rename_i hmask
  have hpair := Decidable.not_not.mp hmask
  have hevent := get_xor_of_pair hpair (f := eventField) (by decide)
  have hdelta := get_xor_of_pair hpair (f := deltaField) (by decide)
  have hretval := get_xor_of_pair hpair (f := retvalField) (by decide)
  rw [show eventField.get (eventField.place Event.returnBit) = Event.returnBit by decide] at hevent
  rw [BitField.get_place_of_apart (by decide), UInt64.xor_eq_zero_iff] at hdelta hretval
  split at h
  · cases h
  rename_i hvalue
  split at h
  · cases h
  rename_i hticks
  have hlt : (elapsed call ret).toNat < 2 ^ 8 := by
    rw [UInt64.lt_iff_toNat_lt] at hticks
    exact Nat.lt_succ_of_le (Nat.le_of_not_lt hticks)
  obtain rfl := Option.some.inj h
  -- the merged word is the union of the call, the elapsed time and the return value
  have hsame : ∀ {f : BitField}, f.Apart deltaField → f.Apart retvalField →
      f.get (call ||| deltaField.place (elapsed call ret) ||| retvalField.place (argField.get ret)) = f.get call := by
    intro f hapart hapart'
    rw [BitField.get_or, BitField.get_or, BitField.get_place_of_apart hapart, BitField.get_place_of_apart hapart',
      UInt64.or_zero, UInt64.or_zero]
  refine ⟨hevent, hdelta, hretval, by simpa using hvalue, hlt, hsame (by decide) (by decide),
    hsame (by decide) (by decide), ?_, ?_, hsame (by decide) (by decide)⟩ <;> rw [BitField.get_or, BitField.get_or]
  · rw [BitField.get_place deltaField hlt, BitField.get_place_of_apart (by decide), UInt64.or_zero]
  · rw [BitField.get_place_of_apart (by decide), BitField.get_place_eq, UInt64.or_zero]
    rfl

/-! ### Values of one byte -/

theorem fitsByte_iff {value : Int64} : fitsByte value = true ↔ -128 ≤ value.toInt ∧ value.toInt ≤ 127 := by
  unfold fitsByte
  rw [Bool.and_eq_true, decide_eq_true_iff, decide_eq_true_iff, Int64.le_iff_toInt_le, Int64.le_iff_toInt_le]
  exact Iff.rfl

theorem toNat_arg_lt (w : UInt64) : (argField.get w).toNat < 65536 := BitField.toNat_get_lt argField w

theorem toInt_signedArg (w : UInt64) : (signedArg w).toInt = (ofWord w).arg.toInt16.toInt := Int16.toInt_toInt64 _

theorem toInt_arg (w : UInt64) : (ofWord w).arg.toInt16.toInt = if 2 * (argField.get w).toNat < 0x10000
    then ((argField.get w).toNat : Int) else (argField.get w).toNat - 0x10000 := by
  rw [← toNat_arg]
  exact BitVec.toInt_eq_toNat_cond _

/-- A 16-bit argument is a signed byte if it lies at either end of its range. -/
theorem fitsByte_signedArg_iff :
    fitsByte (signedArg w) = true ↔ (argField.get w).toNat < 128 ∨ 65408 ≤ (argField.get w).toNat := by
  have hlt := toNat_arg_lt w
  rw [fitsByte_iff, toInt_signedArg, toInt_arg]
  split <;> omega

/-! ### Unfolding -/

/-- The call of a merged word. -/
def callOf (w : UInt64) : UInt64 := deltaField.clear (retvalField.clear w)

/-- The return of a merged word. -/
def returnOf (w : UInt64) : UInt64 :=
  stamp (returnWord (eventField.get w + Event.returnBit) (ofWord w).signedRetval.toInt64)
    (timestampField.get w + deltaField.get w)

/-- The words that were written as one: a merged word unfolds to its call and its return. -/
def unfold (w : UInt64) : List UInt64 := if (ofWord w).isMerged then [callOf w, returnOf w] else [w]

/-- The return `ret` as it is found again in the word of its call, one tick later if no time had elapsed. -/
def recovered (call ret : UInt64) : UInt64 :=
  if timestampField.get ret = timestampField.get call then stamp ret (timestampField.get ret + 1) else ret

theorem isMerged_ofWord_iff : (ofWord w).isMerged = true ↔ deltaField.get w ≠ 0 := by
  unfold isMerged
  rw [bne_iff_ne, Ne, ← UInt8.toNat_inj, toNat_delta, Ne, ← UInt64.toNat_inj]
  rfl

theorem unfold_of_delta (h : deltaField.get w = 0) : unfold w = [w] :=
  if_neg fun hmerged => isMerged_ofWord_iff.mp hmerged h

theorem elapsed_ne_zero (call ret : UInt64) : elapsed call ret ≠ 0 := by
  unfold elapsed
  dsimp only
  split
  · decide
  · assumption

/-- A merged word has elapsed time. -/
theorem Folded.delta_ne_zero (h : Folded call ret w) : deltaField.get w ≠ 0 := by
  rw [h.delta]
  intro hzero
  exact elapsed_ne_zero call ret (UInt64.or_eq_zero_iff.mp hzero).2

/-- A return with its bit cleared has the event of its call. -/
theorem event_pair {c r : UInt64} (h : c ^^^ r = Event.returnBit) (hr : r &&& Event.returnBit ≠ 0)
    (hlt : r.toNat < 2 ^ 12) : (c + Event.returnBit) &&& ones 12 = r := by
  -- rows of 64 codes, for a single range of all 4096 is too deep to be decided
  have hall : ∀ i < 64, ∀ j < 64, UInt64.ofNat (i * 64 + j) &&& Event.returnBit ≠ 0 →
      ((Event.returnBit ^^^ UInt64.ofNat (i * 64 + j)) + Event.returnBit) &&& ones 12 = UInt64.ofNat (i * 64 + j) := by
    decide +kernel
  have hc : c = Event.returnBit ^^^ r := by
    rw [← h, UInt64.xor_assoc, UInt64.xor_self, UInt64.xor_zero]
  have hcase := hall (r.toNat / 64) (by omega) (r.toNat % 64) (Nat.mod_lt _ (by decide))
  rw [Nat.div_add_mod' r.toNat 64, UInt64.ofNat_toNat] at hcase
  rw [hc]
  exact hcase hr

theorem elapsed_of_eq (h : timestampField.get ret = timestampField.get call) : elapsed call ret = 1 := by
  unfold elapsed
  dsimp only
  rw [h, UInt64.sub_self]
  rfl

theorem add_elapsed_of_ne (h : timestampField.get ret ≠ timestampField.get call) :
    (timestampField.get call + elapsed call ret) &&& ones 20 = timestampField.get ret := by
  have hcall : (timestampField.get call).toNat < 2 ^ 20 := BitField.toNat_get_lt timestampField call
  have hret : (timestampField.get ret).toNat < 2 ^ 20 := BitField.toNat_get_lt timestampField ret
  have hne : (timestampField.get ret).toNat ≠ (timestampField.get call).toNat := fun heq => h (UInt64.toNat_inj.mp heq)
  unfold elapsed
  dsimp only
  generalize timestampField.get call = c at *
  generalize timestampField.get ret = r at *
  have hticks : ((r - c) &&& ones 20).toNat = (r.toNat + 2 ^ 20 - c.toNat) % 2 ^ 20 := by
    rw [toNat_and_ones _ (by decide), UInt64.toNat_sub]
    omega
  rw [if_neg]
  · refine UInt64.toNat_inj.mp ?_
    rw [toNat_and_ones _ (by decide), UInt64.toNat_add, hticks]
    omega
  · rw [← UInt64.toNat_inj, hticks, UInt64.toNat_zero]
    omega

/-- The byte of a return value, read as a signed number, is the argument of the return again. -/
theorem arg_of_byte (h : fitsByte (signedArg ret) = true) :
    argField.get (argField.get ret &&& ones 8).toUInt8.toInt8.toInt64.toUInt64 = argField.get ret := by
  have hall : ∀ n < 256, (argField.get (UInt64.ofNat n).toUInt8.toInt8.toInt64.toUInt64).toNat =
      if n < 128 then n else n + 65280 := by decide +kernel
  have hends := fitsByte_signedArg_iff.mp h
  have hlt := toNat_arg_lt ret
  have hbyte : (argField.get ret &&& ones 8).toNat = (argField.get ret).toNat % 256 := toNat_and_ones _ (by decide)
  have hcase := hall (argField.get ret &&& ones 8).toNat (by omega)
  rw [UInt64.ofNat_toNat] at hcase
  refine UInt64.toNat_inj.mp ?_
  rw [hcase, hbyte]
  split <;> omega

namespace Folded

theorem callOf (h : Folded call ret w) (hdelta : deltaField.get call = 0) (hretval : retvalField.get call = 0) :
    callOf w = call := by
  unfold Head.callOf
  refine eq_of_fields ?_ ?_ ?_ ?_ ?_
  · rw [BitField.get_clear_of_apart (by decide), BitField.get_clear_of_apart (by decide), h.timestamp]
  · rw [BitField.get_clear_of_apart (by decide), BitField.get_clear_of_apart (by decide), h.event]
  · rw [BitField.get_clear, hdelta]
  · rw [BitField.get_clear_of_apart (by decide), BitField.get_clear, hretval]
  · rw [BitField.get_clear_of_apart (by decide), BitField.get_clear_of_apart (by decide), h.arg]

/-- A return with the event code of the one that was folded, made of the time and the value that the merged word holds,
is that return. -/
theorem stamp_returnWord (h : Folded call ret w) {event : UInt64} (hevent : event &&& ones 12 = eventField.get ret)
    (hdelta : deltaField.get call = 0) (hretval : retvalField.get call = 0) :
    stamp (returnWord event (ofWord w).signedRetval.toInt64) (timestampField.get w + deltaField.get w) =
      recovered call ret := by
  -- the call has no elapsed time and no return value of its own, so the merged word holds the return's
  have hd : deltaField.get w = elapsed call ret := by rw [h.delta, hdelta, UInt64.zero_or]
  have hr : retvalField.get w = argField.get ret &&& ones 8 := by rw [h.retval, hretval, UInt64.zero_or]
  have hsame : ∀ {f : BitField}, f.Apart timestampField → f.get (recovered call ret) = f.get ret := by
    intro f hf
    unfold recovered
    split
    · exact get_stamp hf ..
    · rfl
  refine eq_of_fields ?_ ?_ ?_ ?_ ?_
  · rw [timestamp_stamp, h.timestamp, hd]
    unfold recovered
    split
    · rename_i heq
      rw [timestamp_stamp, elapsed_of_eq heq, heq]
    · rename_i hne
      exact add_elapsed_of_ne hne
  · rw [get_stamp (by decide), event_returnWord, hsame (by decide), hevent]
  · rw [get_stamp (by decide), delta_returnWord, hsame (by decide), ← h.sameDelta, hdelta]
  · rw [get_stamp (by decide), retval_returnWord, hsame (by decide), ← h.sameRetval, hretval]
  · rw [get_stamp (by decide), arg_returnWord, hsame (by decide)]
    unfold signedRetval ofWord
    dsimp only
    rw [hr]
    exact arg_of_byte h.value

theorem returnOf (h : Folded call ret w) (hbit : eventField.get ret &&& Event.returnBit ≠ 0)
    (hdelta : deltaField.get call = 0) (hretval : retvalField.get call = 0) : returnOf w = recovered call ret := by
  refine h.stamp_returnWord ?_ hdelta hretval
  rw [h.event]
  exact event_pair h.pair hbit (BitField.toNat_get_lt eventField ret)

/-- A merged word unfolds to the call and the return that it was made of. -/
theorem unfold (h : Folded call ret w) (hbit : eventField.get ret &&& Event.returnBit ≠ 0)
    (hdelta : deltaField.get call = 0) (hretval : retvalField.get call = 0) :
    unfold w = [call, recovered call ret] := by
  unfold Head.unfold
  rw [if_pos (isMerged_ofWord_iff.mpr h.delta_ne_zero), h.callOf hdelta hretval, h.returnOf hbit hdelta hretval]

end Folded

end EventRecorder.Head
