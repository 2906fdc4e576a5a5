import EventRecorder.Proofs.Record.Merge

/-! # Which returns are folded, and what of them is kept

A return is folded into a call exactly if the two words pair, and the merged word is then determined by its five fields.
If call and return have neither elapsed time nor return value of their own, nothing of the call is lost, and nothing of
the return but whether it was stamped in the tick of its call or in the next one. -/

namespace EventRecorder.Head

variable {call ret call' ret' w w' : UInt64}

/-! ### Pairs -/

/-- The return `ret` can be folded into the word of `call`. -/
structure Pairs (call ret : UInt64) : Prop where
  event : eventField.get call ^^^ eventField.get ret = Event.returnBit
  delta : deltaField.get call = deltaField.get ret
  retval : retvalField.get call = retvalField.get ret
  value : fitsByte (signedArg ret) = true
  ticks : (elapsed call ret).toNat < 2 ^ 8

theorem Folded.pairs (h : Folded call ret w) : Pairs call ret := ⟨h.pair, h.sameDelta, h.sameRetval, h.value, h.ticks⟩

/-- The words differ by the return bit alone in the fields that they have to share. -/
theorem Pairs.xor_and_pairMask (h : Pairs call ret) : (call ^^^ ret) &&& pairMask = eventField.place Event.returnBit := by
  refine eq_of_fields ?_ ?_ ?_ ?_ ?_ <;> rw [BitField.get_and, BitField.get_xor]
  · rw [show timestampField.get pairMask = 0 by decide, UInt64.and_zero, BitField.get_place_of_apart (by decide)]
  · rw [h.event]
    decide
  · rw [h.delta, UInt64.xor_self, UInt64.zero_and, BitField.get_place_of_apart (by decide)]
  · rw [h.retval, UInt64.xor_self, UInt64.zero_and, BitField.get_place_of_apart (by decide)]
  · rw [show argField.get pairMask = 0 by decide, UInt64.and_zero, BitField.get_place_of_apart (by decide)]

theorem merge?_isSome_iff : (merge? call ret).isSome = true ↔ Pairs call ret := by
  constructor
  · intro h
    obtain ⟨w, hw⟩ := Option.isSome_iff_exists.mp h
    exact (folded_of_merge? hw).pairs
  · intro h
    have hticks : ¬ 255 < elapsed call ret := by
      rw [UInt64.lt_iff_toNat_lt]
      exact Nat.not_lt_of_le (Nat.le_of_lt_succ h.ticks)
    unfold merge?
    rw [if_neg (not_not_intro h.xor_and_pairMask), if_neg (by simp [h.value]), if_neg hticks]
    rfl

/-- The merged word is determined by its fields. -/
theorem Folded.unique (h : Folded call ret w) (h' : Folded call ret w') : w = w' :=
  eq_of_fields (h.timestamp.trans h'.timestamp.symm) (h.event.trans h'.event.symm) (h.delta.trans h'.delta.symm)
    (h.retval.trans h'.retval.symm) (h.arg.trans h'.arg.symm)

theorem merge?_eq_some_iff : merge? call ret = some w ↔ Folded call ret w := by
  refine ⟨folded_of_merge?, fun h => ?_⟩
  obtain ⟨w', hw'⟩ := Option.isSome_iff_exists.mp (merge?_isSome_iff.mpr h.pairs)
  rw [hw', h.unique (folded_of_merge? hw')]

/-! ### Elapsed time and values -/

/-- The time from a call to its return, modulo 2^20. -/
def ticksBetween (call ret : Head) : Int := ((ret.timestamp.toNat : Int) - call.timestamp.toNat) % 0x100000

/-- No elapsed time counts as one tick. -/
theorem toNat_elapsed (call ret : UInt64) :
    ((elapsed call ret).toNat : Int) = max (ticksBetween (ofWord call) (ofWord ret)) 1 := by
  have hcall : (timestampField.get call).toNat < 2 ^ 20 := BitField.toNat_get_lt timestampField call
  have hret : (timestampField.get ret).toNat < 2 ^ 20 := BitField.toNat_get_lt timestampField ret
  have hticks : (((timestampField.get ret - timestampField.get call) &&& ones 20).toNat : Int) =
      ticksBetween (ofWord call) (ofWord ret) := by
    unfold ticksBetween
    rw [toNat_and_ones _ (by decide), UInt64.toNat_sub, toNat_timestamp, toNat_timestamp]
    omega
  unfold elapsed
  dsimp only
  split
  · rename_i hzero
    rw [hzero] at hticks
    rw [← hticks]
    rfl
  · rename_i hne
    have hpos : ((timestampField.get ret - timestampField.get call) &&& ones 20).toNat ≠ 0 := fun h =>
      hne (UInt64.toNat_inj.mp h)
    rw [← hticks]
    omega

/-- The event codes differ in the return bit alone. -/
theorem event_xor_iff : (ofWord call).event ^^^ (ofWord ret).event = 0x200 ↔
    eventField.get call ^^^ eventField.get ret = Event.returnBit := by
  rw [← UInt16.toNat_inj, UInt16.toNat_xor, toNat_event, toNat_event, ← UInt64.toNat_xor, ← UInt64.toNat_inj]
  rfl

/-! ### Plain words -/

/-- The word has neither elapsed time nor return value. -/
structure Plain (w : UInt64) : Prop where
  delta : (ofWord w).delta = 0
  retval : (ofWord w).retval = 0

theorem plain_iff : Plain w ↔ deltaField.get w = 0 ∧ retvalField.get w = 0 := by
  have hdelta : (ofWord w).delta = 0 ↔ deltaField.get w = 0 := by
    rw [← UInt8.toNat_inj, toNat_delta, ← UInt64.toNat_inj]
    rfl
  have hretval : (ofWord w).retval = 0 ↔ retvalField.get w = 0 := by
    rw [← UInt8.toNat_inj, toNat_retval, ← UInt64.toNat_inj]
    rfl
  exact ⟨fun h => ⟨hdelta.mp h.delta, hretval.mp h.retval⟩, fun h => ⟨hdelta.mpr h.1, hretval.mpr h.2⟩⟩

/-- Returns are plain when they are stamped. -/
theorem plain_stamp_returnWord (event : UInt64) (value : Int64) (now : UInt64) : Plain (stamp (returnWord event value) now) := by
  rw [plain_iff, get_stamp (by decide), get_stamp (by decide)]
  exact ⟨delta_returnWord event value, retval_returnWord event value⟩

/-- Calls with an argument of 16 bits are plain when they are stamped. -/
theorem plain_stamp_callWord (event : UInt64) {arg : UInt64} (h : arg.toNat < 2 ^ 16) (now : UInt64) :
    Plain (stamp (callWord event arg) now) := by
  have hzero : ∀ f : BitField, 16 ≤ f.pos → f.get arg = 0 := fun f hlow =>
    BitField.get_eq_zero fun i _ => Nat.testBit_lt_two_pow
      (Nat.lt_of_lt_of_le h (Nat.pow_le_pow_right (by decide) (by omega)))
  rw [plain_iff, get_stamp (by decide), get_stamp (by decide), get_callWord (by decide), get_callWord (by decide)]
  exact ⟨hzero deltaField (by decide), hzero retvalField (by decide)⟩

/-! ### What is kept -/

/-- The word that was folded into a merged word, if time had elapsed. -/
def partnerOf (w : UInt64) : UInt64 :=
  stamp (returnWord (eventField.get w ^^^ Event.returnBit) (ofWord w).signedRetval.toInt64)
    (timestampField.get w + deltaField.get w)

theorem Folded.partnerOf (h : Folded call ret w) (hcall : Plain call) : partnerOf w = recovered call ret := by
  obtain ⟨hdelta, hretval⟩ := plain_iff.mp hcall
  refine h.stamp_returnWord ?_ hdelta hretval
  rw [h.event, ← h.pair, ← UInt64.xor_assoc, UInt64.xor_self, UInt64.zero_xor]
  exact BitField.get_and_ones eventField ret

theorem ticksBetween_eq_zero_iff : ticksBetween (ofWord call) (ofWord ret) = 0 ↔ timestampField.get ret = timestampField.get call := by
  have hcall : (timestampField.get call).toNat < 2 ^ 20 := BitField.toNat_get_lt timestampField call
  have hret : (timestampField.get ret).toNat < 2 ^ 20 := BitField.toNat_get_lt timestampField ret
  unfold ticksBetween
  rw [toNat_timestamp, toNat_timestamp, ← UInt64.toNat_inj]
  omega

/-- Two returns that are as long after a call have the same timestamp. -/
theorem timestamp_eq_of_ticksBetween (h : ticksBetween (ofWord call) (ofWord ret') = ticksBetween (ofWord call) (ofWord ret)) :
    timestampField.get ret' = timestampField.get ret := by
  have hret : (timestampField.get ret).toNat < 2 ^ 20 := BitField.toNat_get_lt timestampField ret
  have hret' : (timestampField.get ret').toNat < 2 ^ 20 := BitField.toNat_get_lt timestampField ret'
  unfold ticksBetween at h
  rw [toNat_timestamp, toNat_timestamp, toNat_timestamp] at h
  refine UInt64.toNat_inj.mp ?_
  omega

/-- Words that are the same without their timestamps agree in the other fields. -/
theorem get_of_clear_timestamp {v : UInt64} (h : timestampField.clear v = timestampField.clear w) {f : BitField}
    (hf : f.Apart timestampField) : f.get v = f.get w := by
  have hfield := congrArg f.get h
  rwa [BitField.get_clear_of_apart hf, BitField.get_clear_of_apart hf] at hfield

theorem clear_timestamp_stamp (w now : UInt64) : timestampField.clear (stamp w now) = timestampField.clear w := by
  refine eq_of_fields ?_ ?_ ?_ ?_ ?_
  · rw [BitField.get_clear, BitField.get_clear]
  all_goals
    rw [BitField.get_clear_of_apart (by decide), BitField.get_clear_of_apart (by decide), get_stamp (by decide)]

theorem clear_timestamp_recovered (call ret : UInt64) :
    timestampField.clear (recovered call ret) = timestampField.clear ret := by
  unfold recovered
  split
  · exact clear_timestamp_stamp ..
  · rfl

/-- The merged word holds the value of the return as a signed byte. -/
theorem Folded.toInt_signedRetval (h : Folded call ret w) (hcall : Plain call) :
    (ofWord w).signedRetval.toInt = (ofWord ret).arg.toInt16.toInt := by
  obtain ⟨-, hretval⟩ := plain_iff.mp hcall
  have hbyte : (ofWord w).retval.toNat = (argField.get ret).toNat % 256 := by
    rw [toNat_retval, h.retval, hretval, UInt64.zero_or]
    exact toNat_and_ones _ (by decide)
  have hends := fitsByte_signedArg_iff.mp h.value
  have hlt := toNat_arg_lt ret
  have hsigned : (ofWord w).signedRetval.toInt = if 2 * (ofWord w).retval.toNat < 2 ^ 8
      then ((ofWord w).retval.toNat : Int) else (ofWord w).retval.toNat - 2 ^ 8 := BitVec.toInt_eq_toNat_cond _
  rw [hsigned, toInt_arg, hbyte]
  split <;> split <;> omega

/-- Without elapsed time and return value of its own a call is told apart from all others when it is merged, and a return
from all but those that were stamped in the same tick as the call or in the next one. -/
theorem Folded.folded_iff (h : Folded call ret w) (hcall : Plain call) (hcall' : Plain call') :
    Folded call' ret' w ↔ call' = call ∧ (ret' = ret ∨ ticksBetween (ofWord call) (ofWord ret) ≤ 1 ∧
      ticksBetween (ofWord call) (ofWord ret') ≤ 1 ∧ timestampField.clear ret' = timestampField.clear ret) := by
  have hcalls := plain_iff.mp hcall
  have hcalls' := plain_iff.mp hcall'
  have helapsed := toNat_elapsed call ret
  have helapsed' := toNat_elapsed call ret'
  constructor
  · intro h'
    obtain rfl : call' = call := (h'.callOf hcalls'.1 hcalls'.2).symm.trans (h.callOf hcalls.1 hcalls.2)
    have hclear : timestampField.clear ret' = timestampField.clear ret := by
      rw [← clear_timestamp_recovered call' ret', ← h'.partnerOf hcall, h.partnerOf hcall, clear_timestamp_recovered]
    have hsame : elapsed call' ret' = elapsed call' ret := by
      have hdelta := h'.delta.symm.trans h.delta
      rwa [hcalls.1, UInt64.zero_or, UInt64.zero_or] at hdelta
    refine ⟨rfl, ?_⟩
    by_cases hticks : ticksBetween (ofWord call') (ofWord ret') = ticksBetween (ofWord call') (ofWord ret)
    · refine Or.inl (eq_of_fields (timestamp_eq_of_ticksBetween hticks) ?_ ?_ ?_ ?_) <;>
        exact get_of_clear_timestamp hclear (by decide)
    · rw [hsame] at helapsed'
      exact Or.inr ⟨by omega, by omega, hclear⟩
  · rintro ⟨rfl, rfl | ⟨hticks, hticks', hclear⟩⟩
    · exact h
    · have hsame : elapsed call' ret' = elapsed call' ret := UInt64.toNat_inj.mp (by omega)
      have hevent : eventField.get ret' = eventField.get ret := get_of_clear_timestamp hclear (by decide)
      have hdelta : deltaField.get ret' = deltaField.get ret := get_of_clear_timestamp hclear (by decide)
      have hretval : retvalField.get ret' = retvalField.get ret := get_of_clear_timestamp hclear (by decide)
      have harg : argField.get ret' = argField.get ret := get_of_clear_timestamp hclear (by decide)
      have hsigned : signedArg ret' = signedArg ret := by
        unfold signedArg
        rw [harg]
      exact ⟨hevent ▸ h.pair, hdelta ▸ h.sameDelta, hretval ▸ h.sameRetval, hsigned ▸ h.value, hsame ▸ h.ticks,
        h.timestamp, h.event, hsame ▸ h.delta, harg ▸ h.retval, h.arg⟩

/-- Calls with an argument of 16 bits and returns are plain words. For plain words a return is folded exactly if its event
code differs from that of the call in the return bit alone, its value is a signed byte and at most 255 ticks have
elapsed. The merged word holds both words again, but for the tick that a return without elapsed time is given. -/
theorem folds_losslessly :
    (∀ event arg now, arg.toNat < 2 ^ 16 → Plain (stamp (callWord event arg) now)) ∧
    (∀ event value now, Plain (stamp (returnWord event value) now)) ∧
    ∀ call ret, Plain call → Plain ret →
      ((merge? call ret).isSome = true ↔ (ofWord call).event ^^^ (ofWord ret).event = 0x200 ∧
        (-128 ≤ (ofWord ret).arg.toInt16.toInt ∧ (ofWord ret).arg.toInt16.toInt ≤ 127) ∧
        ticksBetween (ofWord call) (ofWord ret) ≤ 255) ∧
      ∀ w, merge? call ret = some w →
        (ofWord w).timestamp = (ofWord call).timestamp ∧ (ofWord w).event = (ofWord call).event ∧
        (ofWord w).arg = (ofWord call).arg ∧
        ((ofWord w).delta.toNat : Int) = max (ticksBetween (ofWord call) (ofWord ret)) 1 ∧
        (ofWord w).signedRetval.toInt = (ofWord ret).arg.toInt16.toInt ∧
        callOf w = call ∧
        (ticksBetween (ofWord call) (ofWord ret) ≠ 0 → partnerOf w = ret) ∧
        (ticksBetween (ofWord call) (ofWord ret) = 0 → partnerOf w = stamp ret (timestampField.get ret + 1)) ∧
        ∀ call' ret', Plain call' → Plain ret' → (merge? call' ret' = some w ↔ call' = call ∧
          (ret' = ret ∨ ticksBetween (ofWord call) (ofWord ret) ≤ 1 ∧ ticksBetween (ofWord call) (ofWord ret') ≤ 1 ∧
            timestampField.clear ret' = timestampField.clear ret)) := by
  refine ⟨fun event arg now h => plain_stamp_callWord event h now, plain_stamp_returnWord, ?_⟩
  intro call ret hcall hret
  have hcalls := plain_iff.mp hcall
  have hrets := plain_iff.mp hret
  have helapsed := toNat_elapsed call ret
  refine ⟨?_, fun w hw => ?_⟩
  · rw [merge?_isSome_iff, event_xor_iff, ← toInt_signedArg, ← fitsByte_iff]
    constructor
    · intro h
      have hticks := h.ticks
      exact ⟨h.event, h.value, by omega⟩
    · rintro ⟨hevent, hvalue, hticks⟩
      exact ⟨hevent, hcalls.1.trans hrets.1.symm, hcalls.2.trans hrets.2.symm, hvalue, by omega⟩
  · have h := folded_of_merge? hw
    have hpartner := h.partnerOf hcall
    refine ⟨congrArg UInt64.toUInt32 h.timestamp, congrArg UInt64.toUInt16 h.event, congrArg UInt64.toUInt16 h.arg, ?_,
      h.toInt_signedRetval hcall, h.callOf hcalls.1 hcalls.2, fun hne => ?_, fun hzero => ?_, ?_⟩
    · rw [toNat_delta, h.delta, hcalls.1, UInt64.zero_or, helapsed]
    · rw [hpartner]
      exact if_neg fun heq => hne (ticksBetween_eq_zero_iff.mpr heq)
    · rw [hpartner]
      exact if_pos (ticksBetween_eq_zero_iff.mp hzero)
    · intro call' ret' hcall' _
      rw [merge?_eq_some_iff]
      exact h.folded_iff hcall hcall'

/-- A return that is stamped in the tick of its call is merged as if it had been stamped in the next one, where the
timestamp goes round. -/
theorem folds_losslessly_of_one_tick :
    Plain 0xfffff80100000007 ∧ Plain 0x00000a010000ff80 ∧ Plain 0xfffffa010000ff80 ∧
    merge? 0xfffff80100000007 0x00000a010000ff80 = some 0xfffff80101800007 ∧
    callOf 0xfffff80101800007 = 0xfffff80100000007 ∧ partnerOf 0xfffff80101800007 = 0x00000a010000ff80 ∧
    (ofWord 0xfffff80101800007).signedRetval.toInt = -128 ∧
    merge? 0xfffff80100000007 0xfffffa010000ff80 = some 0xfffff80101800007 ∧
    (merge? 0xfffff80100000007 0x000ffa010000ff80).isSome = false := by
  have hcall : Plain 0xfffff80100000007 := ⟨by decide, by decide⟩
  have hret : Plain 0x00000a010000ff80 := ⟨by decide, by decide⟩
  have hret' : Plain 0xfffffa010000ff80 := ⟨by decide, by decide⟩
  have hmerge : merge? 0xfffff80100000007 0x00000a010000ff80 = some 0xfffff80101800007 := by decide
  obtain ⟨-, -, -, -, hvalue, hcallOf, hpartner, -, hsame⟩ := (folds_losslessly.2.2 _ _ hcall hret).2 _ hmerge
  have hlate := (folds_losslessly.2.2 _ 0x000ffa010000ff80 hcall ⟨by decide, by decide⟩).1
  refine ⟨hcall, hret, hret', hmerge, hcallOf, hpartner (by decide), hvalue.trans (by decide),
    (hsame _ _ hcall hret').mpr ⟨rfl, Or.inr ⟨by decide, by decide, by decide⟩⟩, ?_⟩
  rw [Bool.eq_false_iff, Ne, hlate]
  decide

end EventRecorder.Head
