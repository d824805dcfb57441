import MochimoWallet.TagText
import MochimoWallet.Lib.BitPoly

/-!
# The checksum divides

The table holds eight steps of the shift register, so a byte of the loop is eight bits of the
division, and the register holds the remainder of what has been read (`crcPoly_crc16`). What
changes a tag within sixteen bits changes its checksum, and the destination is refused
(`crc16_divides`).
-/

namespace MochimoWallet

open Codec BitPoly Polynomial

/-! ## The register -/

/-- The bits of a message, the most significant of each byte first. -/
def messageBits (input : Bytes) : List Bool := input.flatMap fun byte => msbBits byte.toBitVec

/-- The lower coefficients of the generator. -/
abbrev crcGenerator : BitVec 16 := 0x1021

theorem toBitVec_crcStep (crc : UInt16) : (crcStep crc).toBitVec = step crcGenerator crc.toBitVec := by
  have htest : (crc &&& 0x8000 ≠ 0) ↔ crc.toBitVec.msb = true := by
    have hmask : (crc &&& 0x8000).toBitVec = crc.toBitVec &&& BitVec.twoPow 16 15 := rfl
    rw [ne_eq, ← UInt16.toBitVec_inj, hmask, BitVec.and_twoPow, BitVec.msb_eq_getLsbD_last]
    by_cases h : crc.toBitVec.getLsbD 15 = true
    · rw [if_pos h]
      exact iff_of_true (by decide) h
    · rw [if_neg h]
      exact iff_of_false (not_not.mpr rfl) h
  unfold crcStep step
  by_cases h : crc.toBitVec.msb = true
  · rw [if_pos (htest.mpr h), if_pos h]
    rfl
  · rw [if_neg (mt htest.mp h), if_neg h]
    rfl

theorem toBitVec_crcSteps (crc : UInt16) (n : ℕ) :
    (crcStep^[n] crc).toBitVec = (step crcGenerator)^[n] crc.toBitVec := by
  induction n with
  | zero => rfl
  | succ n ih => rw [Function.iterate_succ_apply', Function.iterate_succ_apply', toBitVec_crcStep, ih]

/-! ## Halves -/

theorem toBitVec_halves (crc : UInt16) :
    crc.toBitVec = (crc >>> 8).toUInt8.toBitVec ++ crc.toUInt8.toBitVec := by
  refine BitVec.eq_of_getLsbD_eq fun i hi => ?_
  rw [BitVec.getLsbD_append]
  by_cases hlow : i < 8
  · simp [hlow]
  · have hback : 8 + (i - 8) = i := by omega
    have hhigh : i - 8 < 8 := by omega
    simp [hlow, hback, hhigh]

theorem toBitVec_shiftLeft_eight (crc : UInt16) :
    (crc <<< 8).toBitVec = crc.toUInt8.toBitVec ++ 0#8 := by
  refine BitVec.eq_of_getLsbD_eq fun i hi => ?_
  rw [BitVec.getLsbD_append]
  by_cases hlow : i < 8
  · simp [hlow]
  · have hhigh : i - 8 < 8 := by omega
    simp [hlow, hhigh, hi, -BitVec.getLsbD_eq_getElem]

theorem toBitVec_high (byte : UInt8) : (byte.toUInt16 <<< 8).toBitVec = byte.toBitVec ++ 0#8 := by
  refine BitVec.eq_of_getLsbD_eq fun i hi => ?_
  rw [BitVec.getLsbD_append]
  by_cases hlow : i < 8
  · simp [hlow]
  · have hhigh : i - 8 < 8 := by omega
    simp [hlow, hhigh, hi]

/-! ## The division -/

noncomputable section

/-- What the register holds. -/
def crcPoly (crc : UInt16) : GF2[X] := ofWord crc.toBitVec

theorem crcPoly_injective : Function.Injective crcPoly := fun _ _ h =>
  UInt16.toBitVec_inj.mp (ofWord_injective h)

theorem crcPoly_xor (a b : UInt16) : crcPoly (a ^^^ b) = crcPoly a + crcPoly b := ofWord_xor _ _

theorem generator_eq : generator crcGenerator = X ^ 16 + X ^ 12 + X ^ 5 + 1 := by
  have hbits : msbBits crcGenerator = [false, false, false, true, false, false, false, false,
      false, false, true, false, false, false, false, true] := by decide
  rw [generator, ofWord, hbits]
  simp only [ofBits, List.foldl_cons, List.foldl_nil, coeffOf]
  simp
  ring

theorem crcPoly_lt (crc : UInt16) : crcPoly crc %ₘ generator crcGenerator = crcPoly crc := by
  rw [modByMonic_eq_self_iff (generator_monic _), degree_generator]
  exact degree_ofWord_lt _

/-- An entry of the table is what the byte leaves, sixteen places up. -/
theorem crcPoly_table (byte : UInt8) :
    crcPoly (crc16Table byte) = (X ^ 16 * ofWord byte.toBitVec) %ₘ generator crcGenerator := by
  rw [crcPoly, crc16Table, toBitVec_crcSteps, ofWord_steps, toBitVec_high, ofWord_append, ofWord_zero,
    add_zero]
  refine congrArg (· %ₘ generator crcGenerator) ?_
  ring

/-- A byte of the loop is eight bits of the division. -/
theorem crcPoly_byte (crc : UInt16) (byte : UInt8) :
    crcPoly ((crc <<< 8) ^^^ crc16Table ((crc >>> 8).toUInt8 ^^^ byte)) =
      (X ^ 8 * crcPoly crc + X ^ 16 * ofWord byte.toBitVec) %ₘ generator crcGenerator := by
  have hhalves : crcPoly crc =
      ofWord (crc >>> 8).toUInt8.toBitVec * X ^ 8 + ofWord crc.toUInt8.toBitVec := by
    conv_lhs => rw [crcPoly, toBitVec_halves]
    rw [ofWord_append]
  have hshift : crcPoly (crc <<< 8) = ofWord crc.toUInt8.toBitVec * X ^ 8 := by
    rw [crcPoly, toBitVec_shiftLeft_eight, ofWord_append, ofWord_zero, add_zero]
  have hindex : ofWord ((crc >>> 8).toUInt8 ^^^ byte).toBitVec =
      ofWord (crc >>> 8).toUInt8.toBitVec + ofWord byte.toBitVec := ofWord_xor _ _
  rw [crcPoly_xor, crcPoly_table, hindex, ← crcPoly_lt (crc <<< 8), ← add_modByMonic, hshift, hhalves]
  refine congrArg (· %ₘ generator crcGenerator) ?_
  ring

theorem ofBits_messageBits_concat (input : Bytes) (byte : UInt8) :
    ofBits (messageBits (input ++ [byte])) =
      ofBits (messageBits input) * X ^ 8 + ofWord byte.toBitVec := by
  rw [messageBits, List.flatMap_append, List.flatMap_singleton, ofBits_append, length_msbBits]
  rfl

/-- The checksum is the remainder of the message, sixteen places up. -/
theorem crcPoly_crc16 (input : Bytes) :
    crcPoly (crc16 input) = (X ^ 16 * ofBits (messageBits input)) %ₘ generator crcGenerator := by
  induction input using List.reverseRecOn with
  | nil =>
    have hzero : ofBits (messageBits []) = 0 := rfl
    rw [hzero, mul_zero, zero_modByMonic]
    exact ofWord_zero
  | append_singleton input byte ih =>
    have hstep : crc16 (input ++ [byte]) =
        (crc16 input <<< 8) ^^^ crc16Table ((crc16 input >>> 8).toUInt8 ^^^ byte) := by
      rw [crc16, List.foldl_append]
      rfl
    rw [hstep, crcPoly_byte, ih, add_modByMonic, mul_modByMonic_modByMonic (generator_monic _),
      ← add_modByMonic, ofBits_messageBits_concat]
    refine congrArg (· %ₘ generator crcGenerator) ?_
    ring

/-! ## What it catches -/

theorem length_messageBits (input : Bytes) : (messageBits input).length = 8 * input.length := by
  induction input with
  | nil => rfl
  | cons byte input ih =>
    rw [messageBits, List.flatMap_cons, List.length_append, length_msbBits, ← messageBits, ih,
      List.length_cons, Nat.mul_succ, Nat.add_comm]

/-- The bits of a message are the message. -/
theorem messageBits_injective {x y : Bytes} (hlen : x.length = y.length)
    (h : messageBits x = messageBits y) : x = y := by
  induction x generalizing y with
  | nil => exact (List.length_eq_zero_iff.mp hlen.symm).symm
  | cons a x ih =>
    rcases y with _ | ⟨b, y⟩
    · cases hlen
    obtain ⟨hhead, htail⟩ := List.append_inj (h : msbBits a.toBitVec ++ messageBits x =
      msbBits b.toBitVec ++ messageBits y) (by rw [length_msbBits, length_msbBits])
    have hword : ofWord a.toBitVec = ofWord b.toBitVec := congrArg ofBits hhead
    rw [UInt8.toBitVec_inj.mp (ofWord_injective hword), ih (Nat.succ.inj hlen) htail]

theorem ofBits_messageBits_xor {x y : Bytes} (hlen : x.length = y.length) :
    ofBits (messageBits (x.zipWith (· ^^^ ·) y)) = ofBits (messageBits x) + ofBits (messageBits y) := by
  induction x generalizing y with
  | nil =>
    obtain rfl := List.length_eq_zero_iff.mp hlen.symm
    exact (add_zero _).symm
  | cons a x ih =>
    rcases y with _ | ⟨b, y⟩
    · cases hlen
    have hcons : ∀ (c : UInt8) (z : Bytes), ofBits (messageBits (c :: z)) =
        ofWord c.toBitVec * X ^ (8 * z.length) + ofBits (messageBits z) := by
      intro c z
      rw [messageBits, List.flatMap_cons, ofBits_append, ← messageBits, length_messageBits]
      rfl
    have hxor : ofWord (a ^^^ b).toBitVec = ofWord a.toBitVec + ofWord b.toBitVec := ofWord_xor _ _
    rw [List.zipWith_cons_cons, hcons, hcons, hcons, ih (Nat.succ.inj hlen), hxor, List.length_zipWith,
      ← Nat.succ.inj hlen, Nat.min_self]
    ring

theorem crc16_xor {x y : Bytes} (hlen : x.length = y.length) :
    crc16 (x.zipWith (· ^^^ ·) y) = crc16 x ^^^ crc16 y := by
  refine crcPoly_injective ?_
  rw [crcPoly_crc16, ofBits_messageBits_xor hlen, mul_add, add_modByMonic, crcPoly_xor, crcPoly_crc16,
    crcPoly_crc16]

/-- Two messages differ within sixteen bits in a row. -/
def DifferWithin16 (x y : Bytes) : Prop :=
  x ≠ y ∧ ∃ start, ∀ i, (messageBits x)[i]? ≠ (messageBits y)[i]? → start ≤ i ∧ i < start + 16

theorem crc16_ne {x y : Bytes} (hlen : x.length = y.length) (h : DifferWithin16 x y) :
    crc16 x ≠ crc16 y := by
  obtain ⟨hne, start, hwindow⟩ := h
  have hlow : (generator crcGenerator).coeff 0 ≠ 0 := by
    rw [generator_eq]
    simp
  intro hcrc
  refine remainder_ne_of_window hlow ?_ (fun hbits => hne (messageBits_injective hlen hbits)) hwindow 16 ?_
  · rw [length_messageBits, length_messageBits, hlen]
  · rw [← crcPoly_crc16, ← crcPoly_crc16, hcrc]

/-- The checksum is polynomial division; it is linear, and no burst of sixteen bits passes it. -/
theorem crc16_divides :
    (∀ input, ofWord (crc16 input).toBitVec =
      (X ^ 16 * ofBits (messageBits input)) %ₘ (X ^ 16 + X ^ 12 + X ^ 5 + 1)) ∧
    (∀ x y : Bytes, x.length = y.length → crc16 (x.zipWith (· ^^^ ·) y) = crc16 x ^^^ crc16 y) ∧
    (∀ x y : Bytes, x.length = y.length → DifferWithin16 x y → crc16 x ≠ crc16 y) ∧
    ∀ (tag tag' : Tag) text, DifferWithin16 tag.1 tag'.1 →
      base58Encode (tag'.1 ++ (u16le (crc16 tag.1)).1) = .ok text →
      tagFromBase58 text = .error (.checksum (crc16 tag.1) (crc16 tag'.1)) := by
  refine ⟨fun input => ?_, fun x y hlen => crc16_xor hlen, fun x y hlen h => crc16_ne hlen h,
    fun tag tag' text h htext => ?_⟩
  · rw [← generator_eq]
    exact crcPoly_crc16 input
  · rw [tagFromBase58_encoded htext]
    exact if_pos (crc16_ne (tag.2.trans tag'.2.symm) h)

end

end MochimoWallet
