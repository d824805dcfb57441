import MochimoWallet.Base58
import MochimoWallet.Lib.Hex

/-!
# The text of a destination

`tagFromBase58` reads what `tagToBase58` writes. The codec and the checksum leave a tag one text:
what is read as a tag is what that tag is written as (`tagFromBase58_eq_ok`).
-/

namespace MochimoWallet

open Codec

abbrev tagBase58MinChars : ℕ := 22
abbrev tagBase58MaxChars : ℕ := 31

/-- Why a text is not a tag. -/
inductive NotATag where
  | length (chars : ℕ)
  | notBase58 (e : ReferenceError)
  | payloadLen (got : ℕ)
  | checksum (found computed : UInt16)
  deriving DecidableEq

def ReferenceError.display (e : ReferenceError) : Text :=
  "reference ".toList ++ e.function.toList ++ "() returned ".toList ++ (toString e.rc).toList

/-- A checksum as it is shown, `0x` and four digits. -/
def showCrc (crc : UInt16) : Text := "0x".toList ++ Hex.ofBytes (u16le crc).1.reverse

def NotATag.display : NotATag → Text
  | length chars =>
    "it is ".toList ++ .ofNat chars ++
      " character(s); a destination is Base58 over a tag and its checksum, which is ".toList ++
      .ofNat tagBase58MinChars ++ " to ".toList ++ .ofNat tagBase58MaxChars
  | notBase58 e =>
    "it is not Base58 (".toList ++ e.display ++
      ("). The alphabet excludes 0, O, I and l, so a character that looks like a digit or a " ++
        "letter may not be one").toList
  | payloadLen got =>
    "it is Base58 for ".toList ++ .ofNat got ++ " byte(s); a destination is ".toList ++
      .ofNat (addrTagLen + 2) ++ " (a ".toList ++ .ofNat addrTagLen ++
      "-byte tag and a 2-byte checksum)".toList
  | checksum found computed =>
    "the checksum does not match: the string carries ".toList ++ showCrc found ++
      " and the tag in it computes ".toList ++ showCrc computed ++
      (". One character is wrong -- this is the check that exists so a mistyped destination is " ++
        "refused here rather than paid to an address nobody holds").toList

/-- The tag a text is the destination of. -/
def tagFromBase58 (text : Text) : Except NotATag Tag :=
  let chars := text.length
  if ¬ (tagBase58MinChars ≤ chars ∧ chars ≤ tagBase58MaxChars) then .error (.length chars)
  else
    match base58Decode text.utf8 with
    | .error e => .error (.notBase58 e)
    | .ok raw =>
      if h : raw.length = addrTagLen + 2 then
        let payload : Block (addrTagLen + 2) := ⟨raw, h⟩
        let tag : Tag := payload.slice 0 addrTagLen
        let found := ofU16le (payload.slice addrTagLen 2)
        let computed := crc16 tag.1
        if found ≠ computed then .error (.checksum found computed) else .ok tag
      else .error (.payloadLen raw.length)

/-- A tag and its checksum, as they are encoded. -/
def tagPayload (tag : Tag) : Block (addrTagLen + 2) := tag.append (u16le (crc16 tag.1))

theorem tagToBase58_eq (tag : Tag) : tagToBase58 tag = base58Encode (tagPayload tag).1 := rfl

/-- Twenty-two bytes fit the window. -/
theorem length_base58Encode {input : Bytes} {text : Text} (hinput : input.length = addrTagLen + 2)
    (h : base58Encode input = .ok text) :
    tagBase58MinChars ≤ text.length ∧ text.length ≤ tagBase58MaxChars := by
  have hne : input ≠ [] := fun hnil => by
    rw [hnil] at hinput
    cases hinput
  have hbytes : ∀ d ∈ input.map UInt8.toNat, d < 256 := by
    intro d hd
    obtain ⟨b, -, rfl⟩ := List.mem_map.mp hd
    exact b.toNat_lt
  have hlen : (input.map UInt8.toNat).length = 22 := (List.length_map _).trans hinput
  rw [base58Encode_eq hne] at h
  cases h
  rw [List.length_map]
  constructor
  · rw [show tagBase58MinChars = (input.map UInt8.toNat).length from hlen.symm]
    exact Radix.le_length_convert (by decide) (by decide) hbytes
  · refine Radix.length_convert_le (by decide) (by decide) hbytes ?_
    rw [hlen]
    decide

/-- What is read from the text of a payload. -/
theorem tagFromBase58_encoded {tag : Tag} {found : UInt16} {text : Text}
    (h : base58Encode (tag.append (u16le found)).1 = .ok text) : tagFromBase58 text =
      if found ≠ crc16 tag.1 then .error (.checksum found (crc16 tag.1)) else .ok tag := by
  have hpayload : (tag.append (u16le found)).1 ≠ [] := fun hnil => by
    have hlen := (tag.append (u16le found)).2
    rw [hnil] at hlen
    cases hlen
  obtain ⟨text', htext', hdecode⟩ := base58Decode_encode hpayload
  obtain rfl : text' = text := Except.ok.inj (htext'.symm.trans h)
  have hchars := length_base58Encode (tag.append (u16le found)).2 h
  have htag : Block.slice (tag.append (u16le found)) 0 addrTagLen = tag := Block.slice_append_left ..
  have hcrc : Block.slice (tag.append (u16le found)) addrTagLen 2 = u16le found :=
    Block.slice_append_right ..
  unfold tagFromBase58
  rw [if_neg (not_not.mpr hchars), hdecode]
  simp only [dif_pos (tag.append (u16le found)).2, htag, hcrc, ofU16le_u16le]

theorem tagFromBase58_eq_ok {text : Text} {tag : Tag} :
    tagFromBase58 text = .ok tag ↔ tagToBase58 tag = .ok text := by
  constructor
  · intro h
    unfold tagFromBase58 at h
    by_cases hchars : tagBase58MinChars ≤ text.length ∧ text.length ≤ tagBase58MaxChars
    case neg =>
      rw [if_pos hchars] at h
      cases h
    rw [if_neg (not_not.mpr hchars)] at h
    rcases hdecode : base58Decode text.utf8 with e | raw
    · rw [hdecode] at h
      cases h
    rw [hdecode] at h
    by_cases hlen : raw.length = addrTagLen + 2
    case neg =>
      simp only [dif_neg hlen] at h
      cases h
    simp only [dif_pos hlen] at h
    split_ifs at h with hcrc
    cases h
    rw [ne_eq, not_not] at hcrc
    rw [tagToBase58_eq, tagPayload, ← hcrc, u16le_ofU16le, Block.append_slice]
    exact base58Encode_decode hdecode
  · intro h
    rw [tagFromBase58_encoded h]
    exact if_neg (not_not.mpr rfl)

end MochimoWallet
