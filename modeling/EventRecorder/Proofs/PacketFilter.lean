import EventRecorder.PacketFilter
import EventRecorder.Proofs.Bytes
import Mathlib.Data.Nat.Bitwise

/-! # What a packet filter compares

The words that a filter hashes are made of the bytes of a packet, with those that are not selected blanked out. Folding the
two halves of a word onto each other moves every byte to its place in a group of four. Both steps commute with exclusive
or, so a packet passes exactly if the selected bytes, each at its place in its group, come to the number to match. -/

namespace EventRecorder.PacketFilter

/-! ### Exclusive or over a list -/

/-- The exclusive or of `f` over a list. -/
def xorOver {α : Type} (l : List α) (f : α → Nat) : Nat := l.foldr (fun a n => f a ^^^ n) 0

section XorOver
variable {α β : Type} {f g : α → Nat} {l : List α}

@[simp] theorem xorOver_nil (f : α → Nat) : xorOver [] f = 0 := rfl

@[simp] theorem xorOver_cons (a : α) (l : List α) (f : α → Nat) : xorOver (a :: l) f = f a ^^^ xorOver l f := rfl

theorem xorOver_append (l l' : List α) (f : α → Nat) : xorOver (l ++ l') f = xorOver l f ^^^ xorOver l' f := by
  induction l with
  | nil => simp
  | cons a l ih => simp [ih, Nat.xor_assoc]

theorem xorOver_map (l : List β) (g : β → α) (f : α → Nat) : xorOver (l.map g) f = xorOver l fun b => f (g b) := by
  simp [xorOver, List.foldr_map]

theorem xorOver_filter (l : List α) (p : α → Bool) (f : α → Nat) :
    xorOver (l.filter p) f = xorOver l fun a => if p a then f a else 0 := by
  induction l with
  | nil => rfl
  | cons a l ih => cases hp : p a <;> simp [hp, ih]

theorem xorOver_congr (h : ∀ a ∈ l, f a = g a) : xorOver l f = xorOver l g := by
  induction l with
  | nil => rfl
  | cons a l ih =>
    obtain ⟨ha, hl⟩ := List.forall_mem_cons.mp h
    simp [ha, ih hl]

/-- What commutes with exclusive or is applied entry by entry. -/
theorem map_xorOver {φ : Nat → Nat} (hzero : φ 0 = 0) (hxor : ∀ m n, φ (m ^^^ n) = φ m ^^^ φ n) (l : List α)
    (f : α → Nat) : φ (xorOver l f) = xorOver l fun a => φ (f a) := by
  induction l with
  | nil => exact hzero
  | cons a l ih => simp only [xorOver_cons, hxor, ih]

/-- The numbers below `8 * n` are run through in groups of eight. -/
theorem xorOver_range_eight (n : Nat) (f : Nat → Nat) :
    xorOver (List.range (8 * n)) f = xorOver (List.range n) fun k => xorOver (List.range 8) fun j => f (8 * k + j) := by
  induction n with
  | zero => rfl
  | succ n ih =>
    have hlast : List.range (n + 1) = List.range n ++ [n] := List.range_succ
    rw [Nat.mul_succ, List.range_add, xorOver_append, xorOver_map, ih, hlast, xorOver_append, xorOver_cons,
      xorOver_nil, Nat.xor_zero]

end XorOver

theorem xor_two_pow_mul {n i : Nat} (h : n < 2 ^ i) (m : Nat) : n ^^^ 2 ^ i * m = n + 2 ^ i * m := by
  rw [Nat.add_comm, Nat.two_pow_add_eq_or_of_lt h]
  refine Nat.eq_of_testBit_eq fun j => ?_
  rw [Nat.testBit_xor, Nat.testBit_or, Nat.testBit_two_pow_mul]
  by_cases hj : i ≤ j
  · simp [Nat.testBit_lt_two_pow (Nat.lt_of_lt_of_le h (Nat.pow_le_pow_right (by decide) hj))]
  · simp [hj]

/-- A number is the exclusive or of its bytes, each at its place. -/
theorem xorOver_bytes (w n : Nat) :
    (xorOver (List.range n) fun j => (w / 2 ^ (8 * j) % 2 ^ 8) <<< (8 * j)) = w % 2 ^ (8 * n) := by
  induction n with
  | zero => simp [Nat.mod_one]
  | succ n ih =>
    have hlow : w % 2 ^ (8 * n) < 2 ^ (8 * n) := Nat.mod_lt _ (Nat.two_pow_pos _)
    rw [List.range_succ, xorOver_append, ih, xorOver_cons, xorOver_nil, Nat.xor_zero, Nat.shiftLeft_eq,
      Nat.mul_comm (_ % 2 ^ 8), xor_two_pow_mul hlow, Nat.mul_succ, Nat.pow_add, Nat.mod_mul]

/-! ### Halves -/

/-- The two halves of a 64-bit number folded onto each other. -/
def halves (n : Nat) : Nat := n % 2 ^ 32 ^^^ n / 2 ^ 32

theorem halves_xor (m n : Nat) : halves (m ^^^ n) = halves m ^^^ halves n := by
  unfold halves
  rw [Nat.xor_mod_two_pow, Nat.xor_div_two_pow]
  ac_rfl

/-- A byte of a word is moved to its place in a group of four. -/
theorem halves_byte {b j : Nat} (hb : b < 2 ^ 8) (hj : j < 8) : halves (b <<< (8 * j)) = b <<< (8 * (j % 4)) := by
  have hplace : ∀ i < 4, b <<< (8 * i) < 2 ^ 32 := by
    intro i hi
    calc b <<< (8 * i) = b * 2 ^ (8 * i) := Nat.shiftLeft_eq ..
      _ < 2 ^ 8 * 2 ^ (8 * i) := Nat.mul_lt_mul_of_pos_right hb (Nat.two_pow_pos _)
      _ = 2 ^ (8 + 8 * i) := (Nat.pow_add ..).symm
      _ ≤ 2 ^ 32 := Nat.pow_le_pow_right (by decide) (by omega)
  unfold halves
  rcases Nat.lt_or_ge j 4 with hlow | hhigh
  · rw [Nat.mod_eq_of_lt (hplace j hlow), Nat.div_eq_of_lt (hplace j hlow), Nat.xor_zero, Nat.mod_eq_of_lt hlow]
  · obtain ⟨i, rfl⟩ := Nat.exists_eq_add_of_le' hhigh
    have hi : i < 4 := by omega
    have hshift : b <<< (8 * (i + 4)) = b <<< (8 * i) * 2 ^ 32 := by
      rw [Nat.mul_add, Nat.shiftLeft_add, Nat.shiftLeft_eq (b <<< (8 * i))]
    rw [hshift, Nat.mul_mod_left, Nat.mul_div_cancel _ (by decide), Nat.zero_xor, Nat.add_mod_right,
      Nat.mod_eq_of_lt hi]

/-- The halves of a word agree exactly if nothing is left of them. -/
theorem accepts_iff_halves (f : PacketFilter) (payload : List UInt8) :
    f.accepts payload = true ↔ halves (f.hash payload).toNat = 0 := by
  have hlt := (f.hash payload).toNat_lt
  unfold accepts halves
  rw [beq_iff_eq, ← UInt64.toNat_inj, toNat_and_ones _ (by decide), UInt64.toNat_xor, UInt64.toNat_shiftRight,
    show (32 : UInt64).toNat % 64 = 32 from rfl, Nat.shiftRight_eq_div_pow, Nat.xor_mod_two_pow,
    Nat.mod_eq_of_lt (show (f.hash payload).toNat / 2 ^ 32 < 2 ^ 32 by omega), UInt64.toNat_zero]

/-! ### Bytes of words -/

/-- The bytes of the words of a packet are the bytes of the packet. -/
theorem get_packetWord (payload : List UInt8) (k : Nat) (j : Fin 8) :
    (byteLane j).get (packetWord payload k) = (payload.getD (8 * k + j) 0).toUInt64 := by
  refine eq_of_testBit fun i => ?_
  rw [BitField.testBit_get, packetWord, testBit_wordOfBytes]
  change (decide (i < 8) && (decide (i + 8 * j.val < 64) && _)) = _
  rcases Nat.lt_or_ge i 8 with hi | hi
  · have hj := j.isLt
    have hdiv : (i + 8 * j.val) / 8 = j := by omega
    have hmod : (i + 8 * j.val) % 8 = i := by omega
    have hlt : i + 8 * j.val < 64 := by omega
    simp [byteLane, hdiv, hmod, hi, hlt, List.getElem?_drop]
  · rw [UInt8.toNat_toUInt64, testBit_byte_of_le _ hi, decide_eq_false (Nat.not_lt_of_le hi), Bool.false_and]

theorem get_mask_byteLane (i j : Fin 8) : (byteLane i).get (byteLane j).mask = if i = j then ones 8 else 0 := by
  revert i j
  decide

theorem bit_eq_zero_iff (bits : UInt64) (j : Fin 8) :
    (bits >>> UInt64.ofNat j.val) &&& 1 = 0 ↔ bits.toNat.testBit j = false := by
  have hj := j.isLt
  rw [← UInt64.toNat_inj, UInt64.toNat_and, UInt64.toNat_shiftRight, UInt64.toNat_ofNat', UInt64.toNat_one,
    Nat.and_one_is_mod, Nat.mod_eq_of_lt (show j.val < 2 ^ 64 by omega), Nat.mod_eq_of_lt (show j.val < 64 by omega),
    Nat.shiftRight_eq_div_pow, Nat.testBit_eq_decide_div_mod_eq, UInt64.toNat_zero]
  simp

/-- The masks that a list of bits selects are collected in a mask of bytes, each under its own bit. -/
theorem get_foldl_mask (bits : UInt64) (i : Fin 8) (l : List (Fin 8)) (m : UInt64) :
    (byteLane i).get (l.foldl (fun (m : UInt64) (j : Fin 8) =>
      if (bits >>> UInt64.ofNat j.val) &&& 1 = 0 then m else m ||| (byteLane j).mask) m) =
    (byteLane i).get m ||| if l.contains i && bits.toNat.testBit i then ones 8 else 0 := by
  induction l generalizing m with
  | nil => simp
  | cons j l ih =>
    rw [List.foldl_cons, ih]
    by_cases hij : i = j
    · subst hij
      cases hbit : bits.toNat.testBit i with
      | false => simp [(bit_eq_zero_iff bits i).mpr hbit]
      | true =>
        have hset : ¬ (bits >>> UInt64.ofNat i.val) &&& 1 = 0 := by simp [bit_eq_zero_iff, hbit]
        cases l.contains i <;> simp [hset, BitField.get_or, get_mask_byteLane, UInt64.or_assoc]
    · by_cases hbit : (bits >>> UInt64.ofNat j.val) &&& 1 = 0
      · simp [hbit, hij]
      · simp [hbit, hij, BitField.get_or, get_mask_byteLane]

theorem get_byteMask (bits : UInt64) (i : Fin 8) :
    (byteLane i).get (byteMask bits) = if bits.toNat.testBit i then ones 8 else 0 := by
  unfold byteMask
  simp [get_foldl_mask]

/-! ### Selected bytes -/

/-- The mask selects byte `i` of a packet. -/
def selects (mask : Int64) (i : Nat) : Bool := mask.toUInt64.toNat.testBit i

/-- The exclusive or of the selected bytes among the first 24, each moved to its place in a group of four. -/
def digest (mask : Int64) (payload : List UInt8) : Nat :=
  xorOver ((List.range 24).filter (selects mask)) fun i => (payload.getD i 0).toNat <<< (8 * (i % 4))

/-- Byte `i` of a packet if the mask selects it, and zero else. -/
def kept (mask : Int64) (payload : List UInt8) (i : Nat) : UInt8 := if selects mask i then payload.getD i 0 else 0

variable {mask mask' matching : Int64} {payload payload' : List UInt8}

theorem digest_eq_kept (mask : Int64) (payload : List UInt8) :
    digest mask payload = xorOver (List.range 24) fun i => (kept mask payload i).toNat <<< (8 * (i % 4)) := by
  unfold digest
  rw [xorOver_filter]
  refine xorOver_congr fun i _ => ?_
  cases hi : selects mask i <;> simp [kept, hi]

theorem masks_ofParams (hzero : mask ≠ 0) (hall : mask ≠ -1) (matching : Int64) (k : Fin 3) :
    (ofParams mask matching).masks.get k = byteMask (mask.toUInt64 >>> UInt64.ofNat (8 * k)) := by
  unfold ofParams
  rw [if_neg hzero, if_neg hall]
  match k with
  | 0 => exact congrArg byteMask UInt64.shiftRight_zero.symm
  | 1 => rfl
  | 2 => rfl

theorem init_ofParams (hzero : mask ≠ 0) (hall : mask ≠ -1) (matching : Int64) :
    (ofParams mask matching).init = matching.toUInt64 &&& ones 32 := by
  unfold ofParams
  rw [if_neg hzero, if_neg hall]

/-- A filter keeps the selected bytes of a word and blanks out the others. -/
theorem get_masked (hzero : mask ≠ 0) (hall : mask ≠ -1) (matching : Int64) (payload : List UInt8) (k : Fin 3)
    (j : Fin 8) : (byteLane j).get (packetWord payload k &&& (ofParams mask matching).masks.get k) =
      (kept mask payload (8 * k + j)).toUInt64 := by
  have hbit : (mask.toUInt64 >>> UInt64.ofNat (8 * k)).toNat.testBit j = selects mask (8 * k + j) := by
    have hk : 8 * k.val < 64 := by omega
    rw [UInt64.toNat_shiftRight, UInt64.toNat_ofNat', Nat.mod_eq_of_lt (show 8 * k.val < 2 ^ 64 by omega),
      Nat.mod_eq_of_lt hk, Nat.testBit_shiftRight]
    rfl
  rw [BitField.get_and, get_packetWord, masks_ofParams hzero hall, get_byteMask, hbit]
  unfold kept
  cases selects mask (8 * k + j) with
  | false => simp
  | true =>
    rw [if_pos rfl, if_pos rfl, ← UInt64.toNat_inj, toNat_and_ones _ (by decide), UInt8.toNat_toUInt64]
    exact Nat.mod_eq_of_lt (UInt8.toNat_lt _)

/-! ### The hash -/

/-- A word of a packet folded onto itself is made of its selected bytes, each at its place in a group of four. -/
theorem halves_masked (hzero : mask ≠ 0) (hall : mask ≠ -1) (matching : Int64) (payload : List UInt8) (k : Fin 3) :
    halves (packetWord payload k &&& (ofParams mask matching).masks.get k).toNat =
      xorOver (List.range 8) fun j => (kept mask payload (8 * k + j)).toNat <<< (8 * ((8 * k + j) % 4)) := by
  generalize hword : packetWord payload k &&& (ofParams mask matching).masks.get k = w
  have hbyte : ∀ j < 8, w.toNat / 2 ^ (8 * j) % 2 ^ 8 = (kept mask payload (8 * k + j)).toNat := by
    intro j hj
    have hget := congrArg UInt64.toNat (get_masked hzero hall matching payload k ⟨j, hj⟩)
    rw [hword, BitField.toNat_get, UInt8.toNat_toUInt64] at hget
    exact hget
  have hsum : w.toNat = xorOver (List.range 8) fun j => (w.toNat / 2 ^ (8 * j) % 2 ^ 8) <<< (8 * j) := by
    rw [xorOver_bytes, Nat.mod_eq_of_lt w.toNat_lt]
  rw [hsum, map_xorOver rfl halves_xor]
  refine xorOver_congr fun j hj => ?_
  have hj := List.mem_range.mp hj
  rw [hbyte j hj, halves_byte (UInt8.toNat_lt _) hj]
  congr 2
  omega

theorem toNat_hash (f : PacketFilter) (payload : List UInt8) :
    (f.hash payload).toNat =
      f.init.toNat ^^^ xorOver (List.finRange 3) fun k => (packetWord payload k &&& f.masks.get k).toNat := by
  have hfold : ∀ (l : List (Fin 3)) (h : UInt64),
      (l.foldl (fun (h : UInt64) (k : Fin 3) => h ^^^ (packetWord payload k &&& f.masks.get k)) h).toNat =
        h.toNat ^^^ xorOver l fun k => (packetWord payload k &&& f.masks.get k).toNat := by
    intro l
    induction l with
    | nil => simp
    | cons k l ih =>
      intro h
      rw [List.foldl_cons, ih, UInt64.toNat_xor, xorOver_cons, Nat.xor_assoc]
  exact hfold _ _

theorem halves_hash (hzero : mask ≠ 0) (hall : mask ≠ -1) (matching : Int64) (payload : List UInt8) :
    halves ((ofParams mask matching).hash payload).toNat =
      matching.toUInt64.toNat % 2 ^ 32 ^^^ digest mask payload := by
  have hmatch : halves (matching.toUInt64.toNat % 2 ^ 32) = matching.toUInt64.toNat % 2 ^ 32 := by
    have hlt := Nat.mod_lt matching.toUInt64.toNat (show 0 < 2 ^ 32 by decide)
    unfold halves
    rw [Nat.mod_eq_of_lt hlt, Nat.div_eq_of_lt hlt, Nat.xor_zero]
  rw [toNat_hash, halves_xor, map_xorOver rfl halves_xor, init_ofParams hzero hall, toNat_and_ones _ (by decide),
    hmatch, digest_eq_kept, show 24 = 8 * 3 from rfl, xorOver_range_eight,
    show List.range 3 = (List.finRange 3).map Fin.val from rfl, xorOver_map]
  congr 1
  exact xorOver_congr fun k _ => halves_masked hzero hall matching payload k

/-- The sign of a number does not show in its low 32 bits. -/
theorem toInt_mod (n : Int64) : n.toInt % 2 ^ 32 = (n.toUInt64.toNat % 2 ^ 32 : Nat) := by
  have hsigned : n.toInt = if 2 * n.toUInt64.toNat < 2 ^ 64 then (n.toUInt64.toNat : Int)
      else (n.toUInt64.toNat : Int) - (2 ^ 64 : Nat) := BitVec.toInt_eq_toNat_cond n.toBitVec
  split at hsigned <;> omega

/-- A packet passes a filter of some bytes exactly if those bytes come to the number to match. -/
theorem accepts_iff (hzero : mask ≠ 0) (hall : mask ≠ -1) (matching : Int64) (payload : List UInt8) :
    (ofParams mask matching).accepts payload = true ↔ (digest mask payload : Int) = matching.toInt % 2 ^ 32 := by
  rw [accepts_iff_halves, halves_hash hzero hall, toInt_mod, Nat.xor_eq_zero_iff, Int.natCast_inj]
  exact eq_comm

/-- Without selected bytes the start value alone decides. -/
theorem accepts_of_blank (init : UInt64) (payload : List UInt8) :
    (PacketFilter.mk #v[0, 0, 0] init).accepts payload = true ↔ halves init.toNat = 0 := by
  have hmasks : ∀ k : Fin 3, (#v[0, 0, 0] : Vector UInt64 3).get k = 0 := by decide
  have hblank : (PacketFilter.mk #v[0, 0, 0] init).hash payload = init := by
    rw [← UInt64.toNat_inj, toNat_hash]
    simp [hmasks, List.finRange_succ]
  rw [accepts_iff_halves, hblank]

theorem accepts_none (matching : Int64) (payload : List UInt8) : (ofParams 0 matching).accepts payload = false :=
  Bool.eq_false_iff.mpr fun h => absurd ((accepts_of_blank 1 payload).mp h) (by decide)

theorem accepts_all (matching : Int64) (payload : List UInt8) : (ofParams (-1) matching).accepts payload = true :=
  (accepts_of_blank 0 payload).mpr (by decide)

theorem digest_congr_payload (h : ∀ i < 24, selects mask i = true → payload.getD i 0 = payload'.getD i 0) :
    digest mask payload = digest mask payload' := by
  refine xorOver_congr fun i hi => ?_
  obtain ⟨hrange, hselected⟩ := List.mem_filter.mp hi
  rw [h i (List.mem_range.mp hrange) hselected]

theorem digest_congr_mask (h : ∀ i < 24, selects mask i = selects mask' i) (payload : List UInt8) :
    digest mask payload = digest mask' payload := by
  unfold digest
  rw [List.filter_congr fun i hi => h i (List.mem_range.mp hi)]

/-- Without selected bytes there is nothing to compare but zero. -/
theorem digest_eq_zero (h : ∀ i < 24, selects mask i = false) (payload : List UInt8) : digest mask payload = 0 := by
  have hnone : (List.range 24).filter (selects mask) = [] :=
    List.filter_eq_nil_iff.mpr fun i hi => Bool.eq_false_iff.mp (h i (List.mem_range.mp hi))
  unfold digest
  rw [hnone, xorOver_nil]

/-- Two masks that neither 0 nor -1 tells apart decide by what the selected bytes come to. -/
theorem accepts_congr (hzero : mask = 0 ↔ mask' = 0) (hall : mask = -1 ↔ mask' = -1)
    (h : digest mask payload = digest mask' payload') :
    (ofParams mask matching).accepts payload = (ofParams mask' matching).accepts payload' := by
  by_cases hz : mask = 0
  · rw [hz, hzero.mp hz, accepts_none, accepts_none]
  · by_cases ha : mask = -1
    · rw [ha, hall.mp ha, accepts_all, accepts_all]
    · rw [Bool.eq_iff_iff, accepts_iff hz ha, accepts_iff (mt hzero.mpr hz) (mt hall.mpr ha), h]

/-- The mask 0 lets no packet pass and the mask -1 every packet; under any other mask a packet passes exactly if its
selected bytes, each at its place in a group of four, come to the low 32 bits of the number to match. The other bytes make
no difference, and neither do the bits of the mask from 24 up, but for those that tell it from 0 or from -1: a mask that
selects no byte and is not 0 lets every packet pass if the low 32 bits of the number to match are 0, and no packet else. -/
theorem passes_by_selected_bytes :
    (∀ matching payload, (ofParams 0 matching).accepts payload = false) ∧
    (∀ matching payload, (ofParams (-1) matching).accepts payload = true) ∧
    (∀ mask matching payload, mask ≠ 0 → mask ≠ -1 →
      ((ofParams mask matching).accepts payload = true ↔ (digest mask payload : Int) = matching.toInt % 2 ^ 32)) ∧
    (∀ mask matching payload payload',
      (∀ i < 24, selects mask i = true → payload.getD i 0 = payload'.getD i 0) →
      (ofParams mask matching).accepts payload = (ofParams mask matching).accepts payload') ∧
    (∀ mask mask' matching payload, (mask = 0 ↔ mask' = 0) → (mask = -1 ↔ mask' = -1) →
      (∀ i < 24, selects mask i = selects mask' i) →
      (ofParams mask matching).accepts payload = (ofParams mask' matching).accepts payload) ∧
    (∀ mask matching payload, mask ≠ 0 → (∀ i < 24, selects mask i = false) →
      ((ofParams mask matching).accepts payload = true ↔ matching.toInt % 2 ^ 32 = 0)) := by
  refine ⟨accepts_none, accepts_all, fun mask matching payload hzero hall => accepts_iff hzero hall matching payload,
    ?_, ?_, ?_⟩
  · intro mask matching payload payload' hsame
    exact accepts_congr Iff.rfl Iff.rfl (digest_congr_payload hsame)
  · intro mask mask' matching payload hzero hall hsame
    exact accepts_congr hzero hall (digest_congr_mask hsame payload)
  · intro mask matching payload hzero hnone
    have hall : mask ≠ -1 := by
      rintro rfl
      exact absurd (hnone 0 (by decide)) (by decide)
    rw [accepts_iff hzero hall, digest_eq_zero hnone]
    exact eq_comm

/-- Bytes 0, 1 and 9 of a packet of ten bytes are compared, byte 23 is not there, and bit 40 of the mask selects nothing,
also if no other bit is set. -/
theorem passes_by_selected_bytes_of_short_packet :
    (digest 0x10000800203 [0, 1, 2, 3, 4, 5, 6, 7, 8, 9] : Int) = (0x800 - 2 ^ 32 : Int64).toInt % 2 ^ 32 ∧
      (ofParams 0x10000800203 (0x800 - 2 ^ 32)).accepts [0, 1, 2, 3, 4, 5, 6, 7, 8, 9] = true ∧
      (∀ i < 24, selects 0x10000800203 i = true →
        [0, 1, 2, 3, 4, 5, 6, 7, 8, 9].getD i (0 : UInt8) = [0, 1, 20, 30, 40, 50, 60, 70, 80, 9].getD i 0) ∧
      (ofParams 0x10000800203 (0x800 - 2 ^ 32)).accepts [0, 1, 2, 3, 4, 5, 6, 7, 8, 9] =
        (ofParams 0x10000800203 (0x800 - 2 ^ 32)).accepts [0, 1, 20, 30, 40, 50, 60, 70, 80, 9] ∧
      (∀ i < 24, selects 0x10000800203 i = selects 0x800203 i) ∧
      (ofParams 0x10000800203 (0x800 - 2 ^ 32)).accepts [0, 1, 2, 3, 4, 5, 6, 7, 8, 9] =
        (ofParams 0x800203 (0x800 - 2 ^ 32)).accepts [0, 1, 2, 3, 4, 5, 6, 7, 8, 9] ∧
      (∀ i < 24, selects 0x10000000000 i = false) ∧
      (ofParams 0x10000000000 (2 ^ 32)).accepts [0, 1, 2, 3, 4, 5, 6, 7, 8, 9] = true := by
  obtain ⟨-, -, hmatch, hbytes, hmask, hnone⟩ := passes_by_selected_bytes
  have hdigest : (digest 0x10000800203 [0, 1, 2, 3, 4, 5, 6, 7, 8, 9] : Int) =
      (0x800 - 2 ^ 32 : Int64).toInt % 2 ^ 32 := by decide
  have hsame : ∀ i < 24, selects 0x10000800203 i = true →
      [0, 1, 2, 3, 4, 5, 6, 7, 8, 9].getD i (0 : UInt8) = [0, 1, 20, 30, 40, 50, 60, 70, 80, 9].getD i 0 := by decide
  have hlow : ∀ i < 24, selects 0x10000800203 i = selects 0x800203 i := by decide
  have hhigh : ∀ i < 24, selects 0x10000000000 i = false := by decide
  exact ⟨hdigest, (hmatch _ _ _ (by decide) (by decide)).mpr hdigest, hsame, hbytes _ _ _ _ hsame, hlow,
    hmask _ _ _ _ (by decide) (by decide) hlow, hhigh, (hnone _ _ _ (by decide) hhigh).mpr (by decide)⟩

/-- Bit 24 selects no byte and does not complete the mask to -1, but a mask of this bit alone lets a packet pass that the
mask 0 does not. -/
theorem high_bit_tells_mask_from_zero :
    (0x1000000 : Int64) ≠ -1 ∧ (∀ i < 24, selects 0x1000000 i = selects 0 i) ∧
      (ofParams 0x1000000 0).accepts [0xaa] = true ∧ (ofParams 0 0).accepts [0xaa] = false := by
  have hlow : ∀ i < 24, selects 0x1000000 i = selects 0 i := by decide
  exact ⟨by decide, hlow, (accepts_iff (by decide) (by decide) 0 [0xaa]).mpr (by decide), accepts_none 0 [0xaa]⟩

end EventRecorder.PacketFilter
