import EventRecorder.Proofs.Block.Header
import EventRecorder.Proofs.Record.Head

/-! # Word formats

The first word of a record holds five fields side by side, and each of the two words of a block header holds two. The
fields take up every bit, so that a word is nothing but its fields, and the fields are nothing but the word, cut to their
widths. -/

namespace EventRecorder

/-! ### First words -/

namespace Head

variable {w : UInt64}

theorem fields_toWord (h : Head) :
    timestampField.get h.toWord = h.timestamp.toUInt64 &&& ones 20 ∧
      eventField.get h.toWord = h.event.toUInt64 &&& ones 12 ∧ deltaField.get h.toWord = h.delta.toUInt64 ∧
      retvalField.get h.toWord = h.retval.toUInt64 ∧ argField.get h.toWord = h.arg.toUInt64 := by
  have hdelta : h.delta.toUInt64.toNat < 2 ^ deltaField.width := h.delta.toNat_lt
  have hretval : h.retval.toUInt64.toNat < 2 ^ retvalField.width := h.retval.toNat_lt
  have harg : h.arg.toUInt64.toNat < 2 ^ argField.width := h.arg.toNat_lt
  unfold toWord
  -- of the five places each field takes in its own, and is apart from the others
  simp (disch := decide) only [BitField.get_or, BitField.get_place_of_apart, BitField.get_place _ hdelta,
    BitField.get_place _ hretval, BitField.get_place _ harg, BitField.get_place_eq, UInt64.or_zero, UInt64.zero_or]
  exact ⟨rfl, rfl, trivial, trivial, trivial⟩

/-- The fields of a word are read without a loss. -/
theorem fields_ofWord (w : UInt64) :
    (ofWord w).timestamp.toUInt64 = timestampField.get w ∧ (ofWord w).event.toUInt64 = eventField.get w ∧
      (ofWord w).delta.toUInt64 = deltaField.get w ∧ (ofWord w).retval.toUInt64 = retvalField.get w ∧
      (ofWord w).arg.toUInt64 = argField.get w :=
  ⟨UInt64.toNat_inj.mp (toNat_timestamp w), UInt64.toNat_inj.mp (toNat_event w), UInt64.toNat_inj.mp (toNat_delta w),
    UInt64.toNat_inj.mp (toNat_retval w), UInt64.toNat_inj.mp (toNat_arg w)⟩

theorem toWord_ofWord (w : UInt64) : (ofWord w).toWord = w := by
  obtain ⟨htimestamp, hevent, hdelta, hretval, harg⟩ := fields_toWord (ofWord w)
  obtain ⟨htimestamp', hevent', hdelta', hretval', harg'⟩ := fields_ofWord w
  refine eq_of_fields ?_ ?_ (hdelta.trans hdelta') (hretval.trans hretval') (harg.trans harg')
  · rw [htimestamp, htimestamp']
    exact BitField.get_and_ones timestampField w
  · rw [hevent, hevent']
    exact BitField.get_and_ones eventField w

theorem ofWord_toWord (h : Head) :
    ofWord h.toWord =
      { h with timestamp := .ofNat (h.timestamp.toNat % 2 ^ 20), event := .ofNat (h.event.toNat % 2 ^ 12) } := by
  obtain ⟨htimestamp, hevent, hdelta, hretval, harg⟩ := fields_toWord h
  unfold ofWord
  rw [htimestamp, hevent, hdelta, hretval, harg, Head.mk.injEq]
  refine ⟨UInt32.toNat_inj.mp ?_, UInt16.toNat_inj.mp ?_, by simp, by simp, by simp⟩
  · rw [UInt64.toNat_toUInt32, toNat_and_ones _ (by decide), UInt32.toNat_toUInt64, UInt32.toNat_ofNat']
  · rw [UInt64.toNat_toUInt16, toNat_and_ones _ (by decide), UInt16.toNat_toUInt64, UInt16.toNat_ofNat']

/-- A word as the sum of its fields, each at its place. -/
theorem toNat_eq_fields (w : UInt64) :
    w.toNat = (ofWord w).timestamp.toNat * 2 ^ 44 + (ofWord w).event.toNat * 2 ^ 32 + (ofWord w).delta.toNat * 2 ^ 24 +
      (ofWord w).retval.toNat * 2 ^ 16 + (ofWord w).arg.toNat := by
  rw [toNat_timestamp, toNat_event, toNat_delta, toNat_retval, toNat_arg]
  simp only [BitField.toNat_get, timestampField, eventField, deltaField, retvalField, argField]
  have := w.toNat_lt
  omega

/-- A stamp replaces the top 20 bits and nothing else. -/
theorem toNat_stamp (w now : UInt64) : (stamp w now).toNat = now.toNat % 2 ^ 20 * 2 ^ 44 + w.toNat % 2 ^ 44 := by
  have hbelow := get_stamp (f := ⟨0, 44, by decide, by decide⟩) (by decide) w now
  have htop := timestamp_stamp w now
  rw [← UInt64.toNat_inj, BitField.toNat_get, BitField.toNat_get] at hbelow
  rw [← UInt64.toNat_inj, BitField.toNat_get, toNat_and_ones _ (by decide)] at htop
  have := (stamp w now).toNat_lt
  simp only [timestampField] at hbelow htop
  omega

/-- The wide argument takes up the three lowest fields. -/
theorem toNat_wideArg (w : UInt64) :
    (wideArgField.get w).toNat =
      (ofWord w).delta.toNat * 2 ^ 24 + (ofWord w).retval.toNat * 2 ^ 16 + (ofWord w).arg.toNat := by
  rw [toNat_delta, toNat_retval, toNat_arg]
  simp only [BitField.toNat_get, wideArgField, deltaField, retvalField, argField]
  omega

theorem stamped_call (event arg now : UInt64) :
    (ofWord (stamp (callWord event arg) now)).timestamp.toNat = now.toNat % 2 ^ 20 ∧
      (ofWord (stamp (callWord event arg) now)).event.toNat = event.toNat % 2 ^ 12 ∧
      (wideArgField.get (stamp (callWord event arg) now)).toNat = arg.toNat % 2 ^ 32 := by
  refine ⟨?_, ?_, ?_⟩
  · rw [toNat_timestamp, timestamp_stamp, toNat_and_ones _ (by decide)]
  · rw [toNat_event, get_stamp (by decide), event_callWord, toNat_and_ones _ (by decide)]
  · rw [get_stamp (by decide), get_callWord (by decide), BitField.toNat_get]
    simp [wideArgField]

end Head

/-! ### Block headers -/

namespace Header

/-- The top of a word is read without a loss. -/
theorem toUInt64_top (w : UInt64) : (topField.get w).toUInt8.toUInt64 = topField.get w := by
  have hlt : (topField.get w).toNat < 2 ^ 8 := BitField.toNat_get_lt topField w
  rw [← UInt64.toNat_inj, UInt8.toNat_toUInt64, UInt64.toNat_toUInt8, Nat.mod_eq_of_lt hlt]

theorem place_time_or_top (w : UInt64) :
    timeField.place (timeField.get w) ||| topField.place (topField.get w).toUInt8.toUInt64 = w := by
  refine BitField.eq_of_get [timeField, topField] (by decide) ?_
  intro f hf
  rcases List.mem_cons.mp hf with rfl | hf
  · rw [get_time]
    exact BitField.get_and_ones timeField w
  · obtain rfl := List.mem_singleton.mp hf
    rw [← toUInt64_top, get_top, toUInt64_top]

theorem toWords_ofWords (w₀ w₁ : UInt64) : (ofWords w₀ w₁).toWords = (w₀, w₁) := by
  unfold toWords ofWords
  rw [place_time_or_top, place_time_or_top]

theorem ofWords_toWords_mod (h : Header) : ofWords h.toWords.1 h.toWords.2 =
    { h with timestamp := .ofNat (h.timestamp.toNat % 2 ^ 56), wallClock := .ofNat (h.wallClock.toNat % 2 ^ 56) } := by
  have hcut : ∀ v : UInt64, v &&& ones 56 = .ofNat (v.toNat % 2 ^ 56) := fun v => by
    rw [← toNat_and_ones v (by decide), UInt64.ofNat_toNat]
  rw [ofWords_toWords, hcut, hcut]

/-- The two words of a header as the sums of their fields. -/
theorem toNat_eq_fields (w₀ w₁ : UInt64) :
    w₀.toNat = (ofWords w₀ w₁).cpu.toNat * 2 ^ 56 + (ofWords w₀ w₁).timestamp.toNat ∧
      w₁.toNat = (ofWords w₀ w₁).flags.toNat * 2 ^ 56 + (ofWords w₀ w₁).wallClock.toNat := by
  have hword : ∀ w, w.toNat = (topField.get w).toUInt8.toNat * 2 ^ 56 + (timeField.get w).toNat := by
    intro w
    rw [UInt64.toNat_toUInt8, BitField.toNat_get, BitField.toNat_get]
    have := w.toNat_lt
    simp only [topField, timeField]
    omega
  exact ⟨hword w₀, hword w₁⟩

end Header

/-- The formats of first words and of block headers lose nothing: a word is decoded and encoded again to itself, and what
is encoded is decoded to itself, cut to the widths of its fields. The fields stand at their places in the word. A stamped
call reads as its time, its event code and its wide argument, and a stamp changes nothing but the top 20 bits; a field is
the same alone as in the decoded word. -/
theorem formats_lossless :
    (∀ w, (Head.ofWord w).toWord = w) ∧
    (∀ h : Head, Head.ofWord h.toWord =
      { h with timestamp := .ofNat (h.timestamp.toNat % 2 ^ 20), event := .ofNat (h.event.toNat % 2 ^ 12) }) ∧
    (∀ w₀ w₁, (Header.ofWords w₀ w₁).toWords = (w₀, w₁)) ∧
    (∀ h : Header, Header.ofWords h.toWords.1 h.toWords.2 =
      { h with timestamp := .ofNat (h.timestamp.toNat % 2 ^ 56), wallClock := .ofNat (h.wallClock.toNat % 2 ^ 56) }) ∧
    (∀ w, w.toNat = (Head.ofWord w).timestamp.toNat * 2 ^ 44 + (Head.ofWord w).event.toNat * 2 ^ 32 +
      (Head.ofWord w).delta.toNat * 2 ^ 24 + (Head.ofWord w).retval.toNat * 2 ^ 16 + (Head.ofWord w).arg.toNat) ∧
    (∀ w₀ w₁, w₀.toNat = (Header.ofWords w₀ w₁).cpu.toNat * 2 ^ 56 + (Header.ofWords w₀ w₁).timestamp.toNat ∧
      w₁.toNat = (Header.ofWords w₀ w₁).flags.toNat * 2 ^ 56 + (Header.ofWords w₀ w₁).wallClock.toNat) ∧
    (∀ event arg now, (Head.ofWord (Head.stamp (Head.callWord event arg) now)).timestamp.toNat = now.toNat % 2 ^ 20 ∧
      (Head.ofWord (Head.stamp (Head.callWord event arg) now)).event.toNat = event.toNat % 2 ^ 12 ∧
      (Head.wideArgField.get (Head.stamp (Head.callWord event arg) now)).toNat = arg.toNat % 2 ^ 32) ∧
    (∀ w now, (Head.stamp w now).toNat = now.toNat % 2 ^ 20 * 2 ^ 44 + w.toNat % 2 ^ 44) ∧
    (∀ w, Head.timestampField.get w = (Head.ofWord w).timestamp.toUInt64 ∧
      Head.eventField.get w = (Head.ofWord w).event.toUInt64 ∧ (Head.wideArgField.get w).toNat =
        (Head.ofWord w).delta.toNat * 2 ^ 24 + (Head.ofWord w).retval.toNat * 2 ^ 16 + (Head.ofWord w).arg.toNat) := by
  refine ⟨Head.toWord_ofWord, Head.ofWord_toWord, Header.toWords_ofWords, Header.ofWords_toWords_mod,
    Head.toNat_eq_fields, Header.toNat_eq_fields, Head.stamped_call, Head.toNat_stamp, fun w => ?_⟩
  obtain ⟨htimestamp, hevent, -, -, -⟩ := Head.fields_ofWord w
  exact ⟨htimestamp.symm, hevent.symm, Head.toNat_wideArg w⟩

end EventRecorder
