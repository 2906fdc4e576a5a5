import EventRecorder.Proofs.Bits
import EventRecorder.Record.Head

/-! # First words

The five fields of a first word, how they read in the words of calls and returns, and the length that the
event code announces. -/

namespace EventRecorder

/-- Codes to which the length of a record is added. -/
def Event.IsBase (code : UInt64) : Prop := code < 0x010 ∨ (0x100 ≤ code ∧ code < 0x110)

theorem Event.toNat_withLength_lt (base : UInt64) (n : Nat) : (withLength base n).toNat < 2 ^ 12 := by
  unfold withLength
  rw [toNat_and_ones _ (by decide)]
  exact Nat.mod_lt _ (by decide)

theorem Event.length_withLength {base : UInt64} {n : Nat} (hb : IsBase base) (hn : isValidLength n = true) :
    length (withLength base n) = n := by
  -- the low and the high base codes are sixteen each, so all of them are tried with all lengths
  have hall : ∀ b < 16, ∀ n < 9, isValidLength n = true →
      length (withLength (UInt64.ofNat b) n) = n ∧ length (withLength (UInt64.ofNat (256 + b)) n) = n := by decide
  have hlt : n < 9 := by
    unfold isValidLength maxRecordWords at hn
    simp only [Bool.and_eq_true, decide_eq_true_eq] at hn
    omega
  obtain hb | ⟨hb, hb'⟩ := hb
  · have hsmall : base.toNat < 16 := UInt64.lt_iff_toNat_lt.mp hb
    have hlength := (hall base.toNat hsmall n hlt hn).1
    rwa [UInt64.ofNat_toNat] at hlength
  · have hlow : 256 ≤ base.toNat := UInt64.le_iff_toNat_le.mp hb
    have hhigh : base.toNat < 272 := UInt64.lt_iff_toNat_lt.mp hb'
    have hlength := (hall (base.toNat - 256) (by omega) n hlt hn).2
    rwa [Nat.add_sub_cancel' hlow, UInt64.ofNat_toNat] at hlength

namespace Head

variable {v w event arg now : UInt64} {value : Int64} {f : BitField}

/-! ### Fields -/

/-- The five fields make up the word. -/
theorem eq_of_fields (htimestamp : timestampField.get v = timestampField.get w)
    (hevent : eventField.get v = eventField.get w) (hdelta : deltaField.get v = deltaField.get w)
    (hretval : retvalField.get v = retvalField.get w) (harg : argField.get v = argField.get w) : v = w := by
  refine BitField.eq_of_get [timestampField, eventField, deltaField, retvalField, argField] (by decide) ?_
  simp [htimestamp, hevent, hdelta, hretval, harg]

theorem get_stamp (h : f.Apart timestampField) (w now : UInt64) : f.get (stamp w now) = f.get w :=
  BitField.get_set_of_apart h now w

theorem timestamp_stamp (w now : UInt64) : timestampField.get (stamp w now) = now &&& ones 20 :=
  BitField.get_set timestampField now w

/-! ### Fields as numbers -/

theorem toNat_timestamp (w : UInt64) : (ofWord w).timestamp.toNat = (timestampField.get w).toNat := by
  have hlt : (timestampField.get w).toNat < 2 ^ 20 := BitField.toNat_get_lt timestampField w
  exact (UInt64.toNat_toUInt32 _).trans (Nat.mod_eq_of_lt (by omega))

theorem toNat_event (w : UInt64) : (ofWord w).event.toNat = (eventField.get w).toNat := by
  have hlt : (eventField.get w).toNat < 2 ^ 12 := BitField.toNat_get_lt eventField w
  exact (UInt64.toNat_toUInt16 _).trans (Nat.mod_eq_of_lt (by omega))

theorem toNat_delta (w : UInt64) : (ofWord w).delta.toNat = (deltaField.get w).toNat :=
  (UInt64.toNat_toUInt8 _).trans (Nat.mod_eq_of_lt (BitField.toNat_get_lt deltaField w))

theorem toNat_retval (w : UInt64) : (ofWord w).retval.toNat = (retvalField.get w).toNat :=
  (UInt64.toNat_toUInt8 _).trans (Nat.mod_eq_of_lt (BitField.toNat_get_lt retvalField w))

theorem toNat_arg (w : UInt64) : (ofWord w).arg.toNat = (argField.get w).toNat :=
  (UInt64.toNat_toUInt16 _).trans (Nat.mod_eq_of_lt (BitField.toNat_get_lt argField w))

/-! ### Words of calls and returns -/

theorem event_callWord (event arg : UInt64) : eventField.get (callWord event arg) = event &&& ones 12 := by
  unfold callWord
  rw [BitField.get_or, BitField.get_place_eq, BitField.get_place_of_apart (by decide), UInt64.or_zero]
  rfl

/-- The fields below the event code are those of the argument. -/
theorem get_callWord (h : f.pos + f.width ≤ 32) (event arg : UInt64) : f.get (callWord event arg) = f.get arg := by
  unfold callWord
  rw [BitField.get_or, BitField.get_place_of_apart (Or.inl h), BitField.get_place_of_inside rfl h, UInt64.zero_or]

theorem event_returnWord (event : UInt64) (value : Int64) :
    eventField.get (returnWord event value) = event &&& ones 12 := by
  unfold returnWord
  rw [BitField.get_or, BitField.get_place_eq, BitField.get_place_of_apart (by decide), UInt64.or_zero]
  rfl

theorem get_returnWord (h : f.pos + f.width ≤ 32) (event : UInt64) (value : Int64) :
    f.get (returnWord event value) = f.get (argField.place value.toUInt64) := by
  unfold returnWord
  rw [BitField.get_or, BitField.get_place_of_apart (Or.inl h), UInt64.zero_or]

/-- A return has neither elapsed time nor return value. -/
theorem delta_returnWord (event : UInt64) (value : Int64) : deltaField.get (returnWord event value) = 0 :=
  (get_returnWord (by decide) event value).trans (BitField.get_place_of_apart (by decide) _)

theorem retval_returnWord (event : UInt64) (value : Int64) : retvalField.get (returnWord event value) = 0 :=
  (get_returnWord (by decide) event value).trans (BitField.get_place_of_apart (by decide) _)

theorem arg_returnWord (event : UInt64) (value : Int64) :
    argField.get (returnWord event value) = argField.get value.toUInt64 :=
  (get_returnWord (by decide) event value).trans (BitField.get_place_of_inside rfl (by decide) _)

/-! ### Lengths -/

/-- A word without an event code announces the length of the code added to it. -/
theorem recordLength_or_place {first code : UInt64} (hfirst : eventField.get first = 0) (hcode : code.toNat < 2 ^ 12) :
    recordLength (first ||| eventField.place code) = Event.length code := by
  unfold recordLength
  rw [BitField.get_or, hfirst, BitField.get_place eventField hcode, UInt64.zero_or]

theorem recordLength_callWord {event : UInt64} (h : event.toNat < 2 ^ 12) (arg : UInt64) :
    recordLength (callWord event arg) = Event.length event := by
  have hapart : eventField.Apart wideArgField := Or.inr (by decide)
  unfold recordLength callWord
  rw [BitField.get_or, BitField.get_place eventField h, BitField.get_place_of_apart hapart, UInt64.or_zero]

end Head

end EventRecorder
