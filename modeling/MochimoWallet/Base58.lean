import MochimoWallet.Destination
import MochimoWallet.Lib.Radix
import MochimoWallet.Lib.Result
import Mathlib.Data.List.GetD
import Mathlib.Data.List.Iterate
import Mathlib.Logic.Function.Basic

/-!
# Base58

Both directions of the codec are one conversion between bases, with the zeros in front kept: the
digits a loop holds are always the digits of the number read so far (`pushDigit_digits`), so each
direction is `Radix.convert` between two spellings of the digits (`base58Encode_eq`,
`base58Decode_eq`).
-/

namespace MochimoWallet

open Codec

/-! ## The decoder -/

/-- The byte of a digit. -/
def base58Byte (d : ℕ) : UInt8 := .ofNat (base58Alphabet.getD d '1').toNat

/-- The digit of a byte, `0xff` for none: filled in from the alphabet. -/
def base58Map : UInt8 → UInt8 :=
  (List.range 58).foldl (fun map i => Function.update map (base58Byte i) (.ofNat i)) fun _ => 0xff

def base58Reject : ReferenceError := ⟨"base58_decode", -1⟩

def base58Push (bytes : List ℕ) (c : UInt8) : Except ReferenceError (List ℕ) :=
  let v := base58Map c
  if v = 0xff then .error base58Reject else .ok (pushDigit 58 256 bytes v.toNat)

def base58Decode (s : Bytes) : Except ReferenceError Bytes :=
  if s = [] then .error base58Reject
  else do
    let zeros := (s.takeWhile (· = base58Byte 0)).length
    let bytes ← (s.drop zeros).foldlM base58Push []
    .ok (List.replicate zeros 0 ++ bytes.reverse.map .ofNat)

/-! ## The carries -/

/-- What the carry holds while one digit is pushed: where it starts, after each addition and after
each division. -/
def carries (r b : ℕ) : List ℕ → ℕ → List ℕ
  | [], carry => List.iterate (· / b) carry ((Nat.digits b carry).length + 1)
  | d :: ds, carry =>
    let sum := carry + d * r
    carry :: sum :: carries r b ds (sum / b)

def encodeCarries (digits : List ℕ) : Bytes → List ℕ
  | [] => []
  | byte :: input =>
    carries 256 58 digits byte.toNat ++ encodeCarries (pushDigit 256 58 digits byte.toNat) input

def decodeCarries (bytes : List ℕ) : Bytes → List ℕ
  | [] => []
  | c :: s =>
    let v := base58Map c
    if v = 0xff then []
    else carries 58 256 bytes v.toNat ++ decodeCarries (pushDigit 58 256 bytes v.toNat) s

/-- Every value of the carry while `input` is encoded. -/
def base58EncodeCarries (input : Bytes) : List ℕ :=
  encodeCarries [] (input.drop (input.takeWhile (· = 0)).length)

/-- Every value of the carry while `s` is decoded. -/
def base58DecodeCarries (s : Bytes) : List ℕ :=
  decodeCarries [] (s.drop (s.takeWhile (· = base58Byte 0)).length)

/-! ## What pushing a digit does -/

/-- A digit pushed into the digits of `n` leaves the digits of the longer number. -/
theorem pushDigit_digits {r b : ℕ} (hr : 0 < r) (hb : 1 < b) (n carry : ℕ) :
    pushDigit r b (Nat.digits b n) carry = Nat.digits b (carry + r * n) := by
  induction n using Nat.strong_induction_on generalizing carry with
  | _ n ih =>
    rcases Nat.eq_zero_or_pos n with rfl | hn
    · simp [pushDigit]
    have hdiv : n / b < n := Nat.div_lt_self hn hb
    have hsum : carry + r * n = carry + n % b * r + b * (r * (n / b)) := by
      conv_lhs => rw [← Nat.mod_add_div n b]
      ring
    have hpos : 0 < carry + r * n := Nat.add_pos_right _ (Nat.mul_pos hr hn)
    rw [Nat.digits_def' hb hn, Nat.digits_def' hb hpos, pushDigit, ih _ hdiv, hsum,
      Nat.add_mul_mod_self_left, Nat.add_mul_div_left _ _ (Nat.zero_lt_of_lt hb)]

theorem pushDigits_digits {r b : ℕ} (hr : 0 < r) (hb : 1 < b) (xs : List ℕ) (n : ℕ) :
    xs.foldl (pushDigit r b) (Nat.digits b n) = Nat.digits b (xs.foldl (fun n x => x + r * n) n) := by
  induction xs generalizing n with
  | nil => rfl
  | cons x xs ih => rw [List.foldl_cons, List.foldl_cons, pushDigit_digits hr hb, ih]

/-- What a loop leaves is the digits of what it read. -/
theorem pushDigits_nil {r b : ℕ} (hr : 0 < r) (hb : 1 < b) (xs : List ℕ) :
    xs.foldl (pushDigit r b) [] = Nat.digits b (Radix.value r xs) := by
  rw [Radix.value_eq_foldl, ← pushDigits_digits hr hb, Nat.digits_zero]

/-- A pushed digit leaves digits. -/
theorem pushDigit_lt {r b : ℕ} (hb : 1 < b) (ds : List ℕ) (carry : ℕ) :
    ∀ d ∈ pushDigit r b ds carry, d < b := by
  induction ds generalizing carry with
  | nil => exact fun d hd => Nat.digits_lt_base hb hd
  | cons d ds ih =>
    rw [pushDigit, List.forall_mem_cons]
    exact ⟨Nat.mod_lt _ (Nat.zero_lt_of_lt hb), ih _⟩

/-- A carry below the base it is taken from stays below the product of the two. -/
theorem carries_lt {r b : ℕ} (hb : 1 < b) {ds : List ℕ} {carry : ℕ} (hds : ∀ d ∈ ds, d < b)
    (hcarry : carry < r) : ∀ c ∈ carries r b ds carry, c < r * b := by
  induction ds generalizing carry with
  | nil =>
    intro c hc
    obtain ⟨m, -, rfl⟩ := List.mem_iterate.mp hc
    have hle : (· / b)^[m] carry ≤ carry := by
      clear hc
      induction m with
      | zero => exact Nat.le_refl _
      | succ m ih =>
        rw [Function.iterate_succ_apply']
        exact (Nat.div_le_self _ _).trans ih
    calc (· / b)^[m] carry ≤ carry := hle
      _ < r := hcarry
      _ ≤ r * b := Nat.le_mul_of_pos_right r (Nat.zero_lt_of_lt hb)
  | cons d ds ih =>
    rw [List.forall_mem_cons] at hds
    have hsum : carry + d * r < r * b := by
      calc carry + d * r < r + d * r := Nat.add_lt_add_right hcarry _
        _ = (d + 1) * r := by ring
        _ ≤ b * r := Nat.mul_le_mul_right r hds.1
        _ = r * b := Nat.mul_comm _ _
    have hrest : (carry + d * r) / b < r := Nat.div_lt_of_lt_mul (Nat.mul_comm r b ▸ hsum)
    have hstart : carry < r * b :=
      hcarry.trans_le (Nat.le_mul_of_pos_right r (Nat.zero_lt_of_lt hb))
    rw [carries]
    exact List.forall_mem_cons.mpr ⟨hstart, List.forall_mem_cons.mpr ⟨hsum, ih hds.2 hrest⟩⟩

theorem encodeCarries_lt {digits : List ℕ} (hdigits : ∀ d ∈ digits, d < 58) (input : Bytes) :
    ∀ c ∈ encodeCarries digits input, c < 256 * 58 := by
  induction input generalizing digits with
  | nil => exact fun _ hc => by cases hc
  | cons byte input ih =>
    rw [encodeCarries]
    intro c hc
    rcases List.mem_append.mp hc with hc | hc
    · exact carries_lt (by decide) hdigits byte.toNat_lt c hc
    · exact ih (pushDigit_lt (by decide) _ _) c hc

/-! ## The alphabet -/

theorem base58Map_byte : ∀ d < 58, base58Map (base58Byte d) = .ofNat d := by decide +kernel

/-- A map filled in from a list is as it was where no key of the list is. -/
theorem foldl_update_eq {α β : Type*} [DecidableEq α] (key : ℕ → α) (entry : ℕ → β) (is : List ℕ)
    (map : α → β) {a : α} (h : ∀ i ∈ is, a ≠ key i) :
    is.foldl (fun map i => Function.update map (key i) (entry i)) map a = map a := by
  induction is generalizing map with
  | nil => rfl
  | cons i is ih =>
    rw [List.forall_mem_cons] at h
    rw [List.foldl_cons, ih _ h.2, Function.update_of_ne h.1]

theorem base58_of_map {c : UInt8} (h : base58Map c ≠ 0xff) :
    base58Byte (base58Map c).toNat = c ∧ (base58Map c).toNat < 58 := by
  by_cases hkey : ∃ d < 58, c = base58Byte d
  · obtain ⟨d, hd, rfl⟩ := hkey
    have hnat : (UInt8.ofNat d).toNat = d := Nat.mod_eq_of_lt (Nat.lt_trans hd (by decide))
    rw [base58Map_byte d hd, hnat]
    exact ⟨rfl, hd⟩
  · refine absurd (foldl_update_eq _ _ _ _ fun d hd heq => hkey ⟨d, List.mem_range.mp hd, heq⟩) h

theorem base58Alphabet_ascii : Text.isAscii base58Alphabet = true := by decide

theorem base58Alphabet_utf8 : Text.utf8 base58Alphabet = (List.range 58).map base58Byte := by
  rw [Text.utf8_ascii base58Alphabet_ascii]
  decide

/-- A byte has a digit when it is the alphabet's. -/
theorem base58Map_ne_iff {c : UInt8} : base58Map c ≠ 0xff ↔ c ∈ Text.utf8 base58Alphabet := by
  rw [base58Alphabet_utf8, List.mem_map]
  constructor
  · intro h
    obtain ⟨hbyte, hlt⟩ := base58_of_map h
    exact ⟨_, List.mem_range.mpr hlt, hbyte⟩
  · rintro ⟨d, hd, rfl⟩ h
    have hlt : d < 58 := List.mem_range.mp hd
    rw [base58Map_byte d hlt] at h
    have hnat : d % 256 = 255 := congrArg UInt8.toNat h
    omega

theorem base58Byte_zero_iff {d : ℕ} (hd : d < 58) : base58Byte d = base58Byte 0 ↔ d = 0 := by
  refine ⟨fun h => ?_, fun h => h ▸ rfl⟩
  have hmap := congrArg base58Map h
  rw [base58Map_byte d hd, base58Map_byte 0 (by decide)] at hmap
  have hnat : d % 256 = 0 := congrArg UInt8.toNat hmap
  omega

theorem decodeCarries_lt {bytes : List ℕ} (hbytes : ∀ d ∈ bytes, d < 256) (s : Bytes) :
    ∀ c ∈ decodeCarries bytes s, c < 58 * 256 := by
  induction s generalizing bytes with
  | nil => exact fun _ hc => by cases hc
  | cons byte s ih =>
    rw [decodeCarries]
    intro c hc
    by_cases hv : base58Map byte = 0xff
    · rw [if_pos hv] at hc
      cases hc
    rw [if_neg hv] at hc
    rcases List.mem_append.mp hc with hc | hc
    · exact carries_lt (by decide) hbytes (base58_of_map hv).2 c hc
    · exact ih (pushDigit_lt (by decide) _ _) c hc

/-! ## Each direction is a conversion -/

/-- `takeWhile` of an image, by a test that agrees with one of the preimages. -/
theorem takeWhile_map {α β : Type*} {p : α → Bool} {q : β → Bool} (f : α → β) (l : List α)
    (h : ∀ a ∈ l, q (f a) = p a) : (l.map f).takeWhile q = (l.takeWhile p).map f := by
  induction l with
  | nil => rfl
  | cons a l ih =>
    rw [List.forall_mem_cons] at h
    rw [List.map_cons, List.takeWhile_cons, List.takeWhile_cons, h.1, ih h.2]
    split <;> rfl

theorem base58Encode_eq {input : Bytes} (h : input ≠ []) : base58Encode input =
    .ok ((Radix.convert 256 58 (input.map UInt8.toNat)).map fun d => base58Alphabet.getD d '1') := by
  have hzeros : (input.takeWhile (· = 0)).length = Radix.zeros (input.map UInt8.toNat) := by
    rw [Radix.zeros, takeWhile_map (p := fun b : UInt8 => decide (b = 0)), List.length_map]
    intro b _
    exact decide_eq_decide.mpr ⟨fun hb => UInt8.toNat_inj.mp hb, fun hb => hb ▸ rfl⟩
  have hfold : (input.drop (Radix.zeros (input.map UInt8.toNat))).foldl
      (fun digits byte => pushDigit 256 58 digits byte.toNat) [] =
        Nat.digits 58 (Radix.value 256 (input.map UInt8.toNat)) := by
    rw [← Radix.value_drop_zeros, ← pushDigits_nil (by decide) (by decide), ← List.map_drop,
      List.foldl_map]
  rw [base58Encode, if_neg h, hzeros]
  dsimp only
  rw [hfold, Radix.convert, Radix.spell, List.map_append, List.map_replicate]
  rfl

theorem foldlM_push {s : Bytes} (h : ∀ c ∈ s, base58Map c ≠ 0xff) (bytes : List ℕ) :
    s.foldlM base58Push bytes = .ok ((s.map fun c => (base58Map c).toNat).foldl (pushDigit 58 256) bytes) := by
  induction s generalizing bytes with
  | nil => rfl
  | cons c s ih =>
    rw [List.forall_mem_cons] at h
    rw [List.foldlM_cons, base58Push, if_neg h.1, List.map_cons, List.foldl_cons, ← ih h.2]
    rfl

theorem foldlM_reject {s : Bytes} (h : ∃ c ∈ s, base58Map c = 0xff) (bytes : List ℕ) :
    s.foldlM base58Push bytes = .error base58Reject := by
  induction s generalizing bytes with
  | nil => cases h.choose_spec.1
  | cons c s ih =>
    rw [List.foldlM_cons, base58Push]
    by_cases hc : base58Map c = 0xff
    · rw [if_pos hc]
      rfl
    · rw [if_neg hc]
      obtain ⟨d, hd, hbad⟩ := h
      rcases List.mem_cons.mp hd with rfl | hd
      · exact absurd hbad hc
      · exact ih ⟨d, hd, hbad⟩ _

/-- The text of some digits decodes to their conversion. -/
theorem base58Decode_eq {ds : List ℕ} (hne : ds ≠ []) (hds : ∀ d ∈ ds, d < 58) :
    base58Decode (ds.map base58Byte) = .ok ((Radix.convert 58 256 ds).map .ofNat) := by
  have hzeros : ((ds.map base58Byte).takeWhile (· = base58Byte 0)).length = Radix.zeros ds := by
    rw [Radix.zeros, takeWhile_map (p := fun d : ℕ => decide (d = 0)), List.length_map]
    exact fun d hd => decide_eq_decide.mpr (base58Byte_zero_iff (hds d hd))
  have hmap : ∀ l : List ℕ, (∀ d ∈ l, d < 58) →
      ((l.map base58Byte).map fun c => (base58Map c).toNat) = l := by
    intro l hl
    rw [List.map_map]
    refine (List.map_congr_left fun d hd => ?_).trans (List.map_id l)
    rw [Function.comp_apply, base58Map_byte d (hl d hd), UInt8.toNat_ofNat']
    exact Nat.mod_eq_of_lt (Nat.lt_trans (hl d hd) (by decide))
  have hdrop : ∀ d ∈ ds.drop (Radix.zeros ds), d < 58 := fun d hd => hds d (List.mem_of_mem_drop hd)
  have hgood : ∀ c ∈ (ds.drop (Radix.zeros ds)).map base58Byte, base58Map c ≠ 0xff := by
    intro c hc
    obtain ⟨d, hd, rfl⟩ := List.mem_map.mp hc
    rw [base58Map_ne_iff, base58Alphabet_utf8]
    exact List.mem_map_of_mem (List.mem_range.mpr (hdrop d hd))
  rw [base58Decode, if_neg (by simpa using hne)]
  dsimp only
  rw [hzeros, ← List.map_drop, foldlM_push hgood, hmap _ hdrop, pushDigits_nil (by decide) (by decide),
    Radix.value_drop_zeros, Radix.convert, Radix.spell, List.map_append, List.map_replicate]
  rfl

/-- A text over the alphabet is the text of its digits. -/
theorem base58_spelled {s : Bytes} (h : ∀ c ∈ s, c ∈ Text.utf8 base58Alphabet) :
    ∃ ds : List ℕ, (∀ d ∈ ds, d < 58) ∧ s = ds.map base58Byte := by
  refine ⟨s.map fun c => (base58Map c).toNat, ?_, ?_⟩
  · intro d hd
    obtain ⟨c, hc, rfl⟩ := List.mem_map.mp hd
    exact (base58_of_map (base58Map_ne_iff.mpr (h c hc))).2
  · rw [List.map_map]
    refine ((List.map_congr_left fun c hc => ?_).trans (List.map_id s)).symm
    exact (base58_of_map (base58Map_ne_iff.mpr (h c hc))).1

/-- What the decoder refuses. -/
theorem base58Decode_reject_iff {s : Bytes} : base58Decode s = .error base58Reject ↔
    s = [] ∨ ∃ c ∈ s, c ∉ Text.utf8 base58Alphabet := by
  by_cases hne : s = []
  · subst hne
    exact iff_of_true rfl (.inl rfl)
  by_cases hbad : ∃ c ∈ s, c ∉ Text.utf8 base58Alphabet
  · obtain ⟨c, hc, hout⟩ := hbad
    have hmap : base58Map c = 0xff := of_not_not fun h => hout (base58Map_ne_iff.mp h)
    refine iff_of_true ?_ (.inr ⟨c, hc, hout⟩)
    have hdrop : c ∈ s.drop (s.takeWhile (· = base58Byte 0)).length := by
      have happend := List.take_append_drop (s.takeWhile (· = base58Byte 0)).length s
      rw [← happend] at hc
      refine (List.mem_append.mp hc).resolve_left fun hones => ?_
      rw [← List.prefix_iff_eq_take.mp (List.takeWhile_prefix _)] at hones
      have hone : c = base58Byte 0 := by simpa using List.mem_takeWhile_imp hones
      rw [hone] at hmap
      exact absurd hmap (by decide)
    rw [base58Decode, if_neg hne]
    dsimp only
    rw [foldlM_reject ⟨c, hdrop, hmap⟩]
    rfl
  · have hin : ∀ c ∈ s, c ∈ Text.utf8 base58Alphabet := fun c hc => of_not_not fun h => hbad ⟨c, hc, h⟩
    obtain ⟨ds, hds, rfl⟩ := base58_spelled hin
    rw [base58Decode_eq (by simpa using hne) hds]
    refine iff_of_false (fun h => by cases h) ?_
    rintro (h | h)
    · exact hne h
    · exact hbad h

/-- The decoder has one refusal. -/
theorem base58Decode_error {s : Bytes} {e : ReferenceError} (h : base58Decode s = .error e) :
    e = base58Reject := by
  by_cases hgood : s ≠ [] ∧ ∀ c ∈ s, c ∈ Text.utf8 base58Alphabet
  · obtain ⟨ds, hds, rfl⟩ := base58_spelled hgood.2
    rw [base58Decode_eq (by simpa using hgood.1) hds] at h
    cases h
  · have hreject : base58Decode s = .error base58Reject := by
      rw [base58Decode_reject_iff]
      by_contra hnot
      push Not at hnot
      exact hgood hnot
    rw [hreject] at h
    cases h
    rfl

/-- The text of some digits is ASCII, and these bytes. -/
theorem base58_text {ds : List ℕ} (hds : ∀ d ∈ ds, d < 58) :
    Text.isAscii (ds.map fun d => base58Alphabet.getD d '1') = true ∧
      Text.utf8 (ds.map fun d => base58Alphabet.getD d '1') = ds.map base58Byte := by
  have hascii : Text.isAscii (ds.map fun d => base58Alphabet.getD d '1') = true := by
    rw [Text.isAscii_iff]
    intro c hc
    obtain ⟨d, hd, rfl⟩ := List.mem_map.mp hc
    rw [List.getD_eq_getElem base58Alphabet '1' (hds d hd)]
    exact Text.isAscii_iff.mp base58Alphabet_ascii _ (List.getElem_mem _)
  refine ⟨hascii, ?_⟩
  rw [Text.utf8_ascii hascii, List.map_map]
  rfl

theorem map_ofNat_toNat {ds : List ℕ} (h : ∀ d ∈ ds, d < 256) :
    (ds.map UInt8.ofNat).map UInt8.toNat = ds := by
  rw [List.map_map]
  refine (List.map_congr_left fun d hd => ?_).trans (List.map_id ds)
  exact Nat.mod_eq_of_lt (h d hd)

/-- Every string of bytes is decoded from its text. -/
theorem base58Decode_encode {input : Bytes} (h : input ≠ []) :
    ∃ text, base58Encode input = .ok text ∧ base58Decode (Text.utf8 text) = .ok input := by
  have hbytes : ∀ d ∈ input.map UInt8.toNat, d < 256 := by
    intro d hd
    obtain ⟨b, -, rfl⟩ := List.mem_map.mp hd
    exact b.toNat_lt
  refine ⟨_, base58Encode_eq h, ?_⟩
  rw [(base58_text (Radix.convert_lt (by decide))).2,
    base58Decode_eq (Radix.convert_ne_nil (by decide) hbytes (by simpa using h))
      (Radix.convert_lt (by decide)), Radix.convert_convert (by decide) hbytes, List.map_map]
  refine congrArg Except.ok ((List.map_congr_left fun b _ => ?_).trans (List.map_id input))
  exact UInt8.ofNat_toNat

/-- Every text that decodes is what its bytes encode to. -/
theorem base58Encode_decode {text : Text} {input : Bytes} (h : base58Decode text.utf8 = .ok input) :
    base58Encode input = .ok text := by
  have hgood : text.utf8 ≠ [] ∧ ∀ c ∈ text.utf8, c ∈ Text.utf8 base58Alphabet := by
    by_contra hnot
    have hreject : base58Decode text.utf8 = .error base58Reject := by
      rw [base58Decode_reject_iff]
      by_contra hgood
      push Not at hgood
      exact hnot hgood
    rw [hreject] at h
    cases h
  obtain ⟨ds, hds, htext⟩ := base58_spelled hgood.2
  have hne : ds ≠ [] := fun hnil => hgood.1 (by rw [htext, hnil]; rfl)
  have hascii : text.isAscii = true := by
    refine Text.isAscii_of_utf8 fun b hb => ?_
    have hb := hgood.2 b hb
    rw [Text.utf8_ascii base58Alphabet_ascii] at hb
    obtain ⟨c, hc, rfl⟩ := List.mem_map.mp hb
    have hlow := Text.isAscii_iff.mp base58Alphabet_ascii c hc
    rwa [UInt8.toNat_ofNat', Nat.mod_eq_of_lt (Nat.lt_trans hlow (by decide))]
  obtain ⟨hdigits, hutf8⟩ := base58_text hds
  have hbytes : ∀ d ∈ Radix.convert 58 256 ds, d < 256 := Radix.convert_lt (by decide)
  have hinput : input.map UInt8.toNat = Radix.convert 58 256 ds := by
    rw [htext, base58Decode_eq hne hds] at h
    cases h
    exact map_ofNat_toNat hbytes
  have hinput_ne : input ≠ [] := by
    have hconvert := Radix.convert_ne_nil (b := 256) (by decide) hds hne
    rw [← hinput] at hconvert
    simpa using hconvert
  rw [base58Encode_eq hinput_ne, hinput, Radix.convert_convert (by decide) hds]
  exact congrArg Except.ok (Text.utf8_ascii_inj hdigits hascii (hutf8.trans htext.symm))

/-- The two directions are inverse to each other, the decoder refuses what is not of the alphabet,
and no carry of either leaves 32 bits. -/
theorem base58_mutually_inverse :
    (∀ x : Bytes, x ≠ [] → ∃ text, base58Encode x = .ok text ∧ base58Decode (Text.utf8 text) = .ok x) ∧
    (∀ s : Text, s ≠ [] → (∀ c ∈ s, c ∈ base58Alphabet) →
      ∃ x, base58Decode s.utf8 = .ok x ∧ base58Encode x = .ok s) ∧
    (∀ s : Bytes, (∃ e, base58Decode s = .error e) ↔ s = [] ∨ ∃ c ∈ s, c ∉ Text.utf8 base58Alphabet) ∧
    (∀ x : Bytes, ∀ carry ∈ base58EncodeCarries x, carry < 2 ^ 32) ∧
    ∀ s : Bytes, ∀ carry ∈ base58DecodeCarries s, carry < 2 ^ 32 := by
  refine ⟨fun x hx => base58Decode_encode hx, ?_, ?_, ?_, ?_⟩
  · intro s hne hs
    have hascii : s.isAscii = true := Text.isAscii_iff.mpr fun c hc =>
      Text.isAscii_iff.mp base58Alphabet_ascii c (hs c hc)
    rcases hdecode : base58Decode s.utf8 with e | x
    · rw [base58Decode_error hdecode, base58Decode_reject_iff, Text.utf8_ascii hascii,
        Text.utf8_ascii base58Alphabet_ascii] at hdecode
      rcases hdecode with hnil | ⟨b, hb, hout⟩
      · exact absurd (List.map_eq_nil_iff.mp hnil) hne
      · obtain ⟨c, hc, rfl⟩ := List.mem_map.mp hb
        exact absurd (List.mem_map_of_mem (hs c hc)) hout
    · exact ⟨x, rfl, base58Encode_decode hdecode⟩
  · intro s
    rw [← base58Decode_reject_iff]
    refine ⟨?_, fun h => ⟨_, h⟩⟩
    rintro ⟨e, h⟩
    rw [h, base58Decode_error h]
  · intro x carry hcarry
    exact (encodeCarries_lt (fun _ hd => by cases hd) _ carry hcarry).trans (by decide)
  · intro s carry hcarry
    exact (decodeCarries_lt (fun _ hd => by cases hd) _ carry hcarry).trans (by decide)

end MochimoWallet
