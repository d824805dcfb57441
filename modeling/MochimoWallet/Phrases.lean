import MochimoWallet.Mnemonic
import MochimoWallet.Lib.Radix
import Mathlib.Data.List.GetD

/-!
# Phrases and entropy

A phrase is a number of words, and the words' places in the list are the bits of the entropy and its
checksum in groups of eleven. Both directions are that one equation between bits (`Spells`), so each
undoes the other.
-/

namespace MochimoWallet.Mnemonic

open Codec Radix

/-! ## Bits and bytes -/

theorem ofBits_eq (bits : List ℕ) : ofBits bits = value 2 bits := by
  rw [value_eq_foldl, ofBits]
  congr 1
  funext n bit
  exact Nat.add_comm _ _

theorem wordBits_eq (index : ℕ) : wordBits index = fixed 2 11 index := rfl

theorem bitOf_lt (b : Bytes) (i : ℕ) : bitOf b i < 2 := Nat.mod_lt _ (by decide)

/-- The bits of a byte string. -/
def bitsOf (b : Bytes) : List ℕ := (List.range (8 * b.length)).map (bitOf b)

theorem group_bitsOf {b : Bytes} {i : ℕ} (hi : i < b.length) :
    group 8 i (bitsOf b) = fixed 2 8 b[i].toNat := by
  have hle : 8 * i + 8 ≤ 8 * b.length := by omega
  rw [bitsOf, group_map_range _ hle, fixed]
  refine List.map_congr_left fun k hk => ?_
  have hk : k < 8 := List.mem_range.mp hk
  have hdiv : (8 * i + k) / 8 = i := by omega
  have hmod : (8 * i + k) % 8 = k := by omega
  rw [bitOf, hdiv, hmod, List.getD_eq_getElem _ _ hi]

/-- A byte string is spelled by its bits. -/
theorem bytesOfBits_bitsOf (b : Bytes) : bytesOfBits b.length (bitsOf b) = b := by
  refine List.ext_getElem (by simp [bytesOfBits]) fun i hi hi' => ?_
  have hgroup := group_bitsOf hi'
  rw [group] at hgroup
  simp only [bytesOfBits, List.getElem_map, List.getElem_range]
  rw [hgroup, ofBits_eq, value_fixed, Nat.mod_eq_of_lt (b[i]).toNat_lt, UInt8.ofNat_toNat]

theorem length_bytesOfBits (len : ℕ) (bits : List ℕ) : (bytesOfBits len bits).length = len := by
  simp [bytesOfBits]

/-- Bits are the bits of the bytes they spell. -/
theorem bitsOf_bytesOfBits {len : ℕ} {bits : List ℕ} (hlen : bits.length = 8 * len)
    (hbits : ∀ bit ∈ bits, bit < 2) : bitsOf (bytesOfBits len bits) = bits := by
  have hbytes : (bitsOf (bytesOfBits len bits)).length = 8 * len := by
    rw [bitsOf, List.length_map, List.length_range, length_bytesOfBits]
  have hgroups : ∀ i ∈ List.range len, group 8 i (bitsOf (bytesOfBits len bits)) = group 8 i bits := by
    intro i hi
    have hi : i < len := List.mem_range.mp hi
    have hgroup : ∀ bit ∈ group 8 i bits, bit < 2 := fun bit hbit =>
      hbits bit (List.mem_of_mem_drop (List.mem_of_mem_take hbit))
    have hsize : (group 8 i bits).length = 8 := length_group hlen hi
    have hfits := value_lt hgroup
    rw [hsize] at hfits
    have hin : i < (bytesOfBits len bits).length := by rwa [length_bytesOfBits]
    have hbyte : (bytesOfBits len bits)[i].toNat = value 2 (group 8 i bits) := by
      simp only [bytesOfBits, List.getElem_map, List.getElem_range]
      rw [ofBits_eq, UInt8.toNat_ofNat']
      exact Nat.mod_eq_of_lt hfits
    rw [group_bitsOf hin, hbyte, fixed_value hsize hgroup]
  calc bitsOf (bytesOfBits len bits)
      = (List.range len).flatMap (fun i => group 8 i (bitsOf (bytesOfBits len bits))) :=
        (flatMap_group hbytes).symm
    _ = (List.range len).flatMap (fun i => group 8 i bits) := List.flatMap_congr hgroups
    _ = bits := flatMap_group hlen

/-! ## The phrase's bits -/

/-- The lengths entropy can have. -/
def EntropyLen (len : ℕ) : Prop := 16 ≤ len ∧ len ≤ 32 ∧ len % 4 = 0

theorem entropyLen_iff {len : ℕ} : EntropyLen len ↔ len ∈ [16, 20, 24, 28, 32] := by
  simp only [EntropyLen, List.mem_cons, List.not_mem_nil, or_false]
  omega

section
variable [Crypto]

/-- The bits a phrase of `entropy` spells, in a row. -/
def phraseBits (entropy : Bytes) : List ℕ :=
  (List.range (entropy.length * 8 + entropy.length / 4)).map (bitAt entropy)

theorem phraseBits_lt (entropy : Bytes) : ∀ bit ∈ phraseBits entropy, bit < 2 := by
  intro bit hbit
  obtain ⟨i, -, rfl⟩ := List.mem_map.mp hbit
  unfold bitAt
  split_ifs <;> exact bitOf_lt _ _

theorem length_phraseBits {entropy : Bytes} (h : EntropyLen entropy.length) :
    (phraseBits entropy).length = 11 * (3 * (entropy.length / 4)) := by
  obtain ⟨-, -, hmod⟩ := h
  rw [phraseBits, List.length_map, List.length_range]
  omega

/-- The entropy's bits come first, and then those of its hash. -/
theorem phraseBits_eq (entropy : Bytes) : phraseBits entropy =
    bitsOf entropy ++ (List.range (entropy.length / 4)).map (bitOf (Crypto.sha256 entropy).1) := by
  have hsum : entropy.length * 8 + entropy.length / 4 = 8 * entropy.length + entropy.length / 4 := by
    omega
  rw [phraseBits, hsum, List.range_add, List.map_append, bitsOf, List.map_map]
  congr 1
  · refine List.map_congr_left fun i hi => ?_
    have hi : i < 8 * entropy.length := List.mem_range.mp hi
    exact if_pos (by omega)
  · refine List.map_congr_left fun i _ => ?_
    rw [Function.comp_apply, bitAt, if_neg (by omega)]
    congr 1
    omega

/-- The places of a phrase's words spell the bits of the entropy and its checksum. -/
def Spells (indices : List ℕ) (entropy : Bytes) : Prop :=
  (∀ i ∈ indices, i < 2048) ∧ EntropyLen entropy.length ∧ indices.flatMap wordBits = phraseBits entropy

/-- The places of the words of `entropy`. -/
def indicesOf (entropy : Bytes) : List ℕ :=
  (List.range ((entropy.length * 8 + entropy.length / 4) / 11)).map fun j =>
    ofBits ((List.range 11).map fun k => bitAt entropy (11 * j + k))

theorem indicesOf_eq {entropy : Bytes} (h : EntropyLen entropy.length) : indicesOf entropy =
    (List.range (3 * (entropy.length / 4))).map fun j => value 2 (group 11 j (phraseBits entropy)) := by
  have hcount : (entropy.length * 8 + entropy.length / 4) / 11 = 3 * (entropy.length / 4) := by
    obtain ⟨-, -, hmod⟩ := h
    omega
  rw [indicesOf, hcount]
  refine List.map_congr_left fun j hj => ?_
  have hj : j < 3 * (entropy.length / 4) := List.mem_range.mp hj
  have hle : 11 * j + 11 ≤ entropy.length * 8 + entropy.length / 4 := by
    obtain ⟨-, -, hmod⟩ := h
    omega
  rw [ofBits_eq, phraseBits, group_map_range _ hle]

theorem spells_indicesOf {entropy : Bytes} (h : EntropyLen entropy.length) :
    Spells (indicesOf entropy) entropy := by
  have hgroup : ∀ j < 3 * (entropy.length / 4),
      (∀ bit ∈ group 11 j (phraseBits entropy), bit < 2) ∧ (group 11 j (phraseBits entropy)).length = 11 :=
    fun j hj => ⟨fun bit hbit => phraseBits_lt entropy bit (List.mem_of_mem_drop (List.mem_of_mem_take hbit)),
      length_group (length_phraseBits h) hj⟩
  refine ⟨fun i hi => ?_, h, ?_⟩
  · rw [indicesOf_eq h] at hi
    obtain ⟨j, hj, rfl⟩ := List.mem_map.mp hi
    obtain ⟨hbits, hlen⟩ := hgroup j (List.mem_range.mp hj)
    have hlt := value_lt hbits
    rwa [hlen] at hlt
  · rw [indicesOf_eq h, List.flatMap_map]
    refine (List.flatMap_congr fun j hj => ?_).trans (flatMap_group (length_phraseBits h))
    obtain ⟨hbits, hlen⟩ := hgroup j (List.mem_range.mp hj)
    rw [wordBits_eq, fixed_value hlen hbits]

/-- Only the entropy's own places spell it. -/
theorem Spells.eq_indicesOf {indices : List ℕ} {entropy : Bytes} (h : Spells indices entropy) :
    indices = indicesOf entropy := by
  obtain ⟨hlt, hentropy, hbits⟩ := h
  have hword : ∀ i, (wordBits i).length = 11 := fun i => by rw [wordBits_eq, length_fixed]
  have hcount : indices.length = 3 * (entropy.length / 4) := by
    have hlen := congrArg List.length hbits
    rw [length_phraseBits hentropy, List.length_flatMap, List.map_congr_left fun i _ => hword i,
      List.map_const', List.sum_replicate_nat] at hlen
    omega
  rw [indicesOf_eq hentropy]
  refine List.ext_getElem (by simpa using hcount) fun j hj hj' => ?_
  rw [List.getElem_map, List.getElem_range, ← hbits, group_flatMap hword indices hj, wordBits_eq,
    value_fixed]
  exact (Nat.mod_eq_of_lt (hlt _ (List.getElem_mem hj))).symm

end

/-! ## Words -/

section
variable [Bip39]

/-- The list as it ships: as many words as eleven bits number, in order, each of lower-case letters. -/
structure WordlistSound : Prop where
  length : Bip39.wordlist.length = 2048
  sorted : Bip39.wordlist.Pairwise (· < ·)
  lower : ∀ word ∈ Bip39.wordlist, word ≠ [] ∧ ∀ c ∈ word, 'a' ≤ c ∧ c ≤ 'z'

def wordAt (index : ℕ) : Text := Bip39.wordlist.getD index []

/-- The words at some places, a space between two. -/
def joinWords (indices : List ℕ) : Text := [' '].intercalate (indices.map wordAt)

theorem wordAt_mem (h : WordlistSound) {i : ℕ} (hi : i < 2048) : wordAt i ∈ Bip39.wordlist := by
  have hlt : i < Bip39.wordlist.length := h.length ▸ hi
  rw [wordAt, List.getD_eq_getElem _ _ hlt]
  exact List.getElem_mem hlt

/-- A word's place is where the list has it. -/
theorem idxOf_eq_some (h : WordlistSound) {word : Text} {i : ℕ} :
    Bip39.wordlist.idxOf? word = some i ↔ i < 2048 ∧ word = wordAt i := by
  have hnodup : Bip39.wordlist.Nodup := h.sorted.imp fun {a b} hab => by
    rintro rfl
    exact List.lt_irrefl _ hab
  rw [List.idxOf?_eq_some_iff]
  constructor
  · rintro ⟨hi, hword, -⟩
    refine ⟨h.length ▸ hi, ?_⟩
    rw [wordAt, List.getD_eq_getElem _ _ hi, hword]
  · rintro ⟨hi, rfl⟩
    have hlt : i < Bip39.wordlist.length := h.length ▸ hi
    rw [wordAt, List.getD_eq_getElem _ _ hlt]
    refine ⟨hlt, rfl, fun j hj heq => ?_⟩
    exact absurd (hnodup.getElem_inj_iff.mp heq) hj.ne

/-- The place of a word, as the decoder asks for it. -/
def wordIndex (word : Text) : Except MnemonicError ℕ :=
  match Bip39.wordlist.idxOf? word with
  | some index => Except.ok index
  | none => .error ⟨"a word is not in the English wordlist"⟩

theorem wordIndex_eq_ok (h : WordlistSound) {word : Text} {i : ℕ} :
    wordIndex word = .ok i ↔ i < 2048 ∧ word = wordAt i := by
  rw [← idxOf_eq_some h, wordIndex]
  rcases Bip39.wordlist.idxOf? word with _ | j
  · exact iff_of_false (fun h => by cases h) fun h => by cases h
  · rw [Except.ok.injEq, Option.some.injEq]

theorem mapM_wordIndex_eq_ok (h : WordlistSound) {words : List Text} {indices : List ℕ} :
    words.mapM wordIndex = .ok indices ↔ (∀ i ∈ indices, i < 2048) ∧ words = indices.map wordAt := by
  induction words generalizing indices with
  | nil =>
    constructor
    · rintro ⟨⟩
      exact ⟨fun _ hi => (by cases hi), rfl⟩
    · rintro ⟨-, hmap⟩
      obtain rfl := List.map_eq_nil_iff.mp hmap.symm
      rfl
  | cons word words ih =>
    rw [List.mapM_cons, bind_eq_ok]
    constructor
    · rintro ⟨i, hi, hrest⟩
      obtain ⟨is, his, hdone⟩ := bind_eq_ok.mp hrest
      cases hdone
      obtain ⟨hlt, rfl⟩ := (wordIndex_eq_ok h).mp hi
      obtain ⟨hlts, rfl⟩ := ih.mp his
      exact ⟨List.forall_mem_cons.mpr ⟨hlt, hlts⟩, rfl⟩
    · rintro ⟨hlt, hmap⟩
      rcases indices with _ | ⟨i, is⟩
      · cases hmap
      obtain ⟨rfl, rfl⟩ := List.cons.inj hmap
      rw [List.forall_mem_cons] at hlt
      exact ⟨i, (wordIndex_eq_ok h).mpr ⟨hlt.1, rfl⟩, bind_eq_ok.mpr ⟨is, ih.mpr ⟨hlt.2, rfl⟩, rfl⟩⟩

omit [Bip39] in
theorem intercalate_append_head {c : Char} (a b : Text) (ts : List Text) :
    [c].intercalate ((a ++ b) :: ts) = a ++ [c].intercalate (b :: ts) := by
  rcases ts with _ | ⟨t, ts⟩
  · rw [List.intercalate_singleton, List.intercalate_singleton]
  · rw [List.intercalate_cons_cons, List.intercalate_cons_cons, List.append_assoc, List.append_assoc]
    simp

omit [Bip39] in
/-- Words pushed one after the other are joined by spaces. -/
theorem foldl_pushWord {words : List Text} (hwords : ∀ word ∈ words, word ≠ []) :
    words.foldl pushWord [] = [' '].intercalate words := by
  have hfrom : ∀ (ws : List Text) (phrase : Text), phrase ≠ [] →
      ws.foldl pushWord phrase = [' '].intercalate (phrase :: ws) := by
    intro ws
    induction ws with
    | nil => exact fun phrase _ => List.intercalate_singleton.symm
    | cons w ws ih =>
      intro phrase hphrase
      have hpush : pushWord phrase w = (phrase ++ [' ']) ++ w := by rw [pushWord, if_neg hphrase]
      rw [List.foldl_cons, hpush, ih _ (by simp), intercalate_append_head, List.intercalate_cons_cons]
  rcases words with _ | ⟨w, ws⟩
  · rfl
  · exact hfrom ws w (hwords w List.mem_cons_self)

end

/-! ## Both directions -/

section
variable [Crypto] [Bip39]

theorem phraseFromEntropy_eq_ok (h : WordlistSound) {entropy : Bytes} {phrase : Text} :
    phraseFromEntropy entropy = .ok phrase ↔
      ∃ indices, Spells indices entropy ∧ phrase = joinWords indices := by
  by_cases hlen : EntropyLen entropy.length
  case neg =>
    have hrefused : phraseFromEntropy entropy = .error ⟨"entropy is not 16, 20, 24, 28 or 32 bytes"⟩ :=
      if_pos hlen
    rw [hrefused]
    exact iff_of_false (fun hok => by cases hok) fun ⟨_, hspells, _⟩ => hlen hspells.2.1
  have hphrase : phraseFromEntropy entropy = .ok (joinWords (indicesOf entropy)) := by
    have hwords : ∀ word ∈ (indicesOf entropy).map wordAt, word ≠ [] := by
      intro word hword
      obtain ⟨i, hi, rfl⟩ := List.mem_map.mp hword
      exact (h.lower _ (wordAt_mem h ((spells_indicesOf hlen).1 i hi))).1
    rw [joinWords, ← foldl_pushWord hwords, List.foldl_map, indicesOf, List.foldl_map]
    exact if_neg (not_not.mpr hlen)
  rw [hphrase, Except.ok.injEq]
  constructor
  · rintro rfl
    exact ⟨_, spells_indicesOf hlen, rfl⟩
  · rintro ⟨indices, hspells, rfl⟩
    rw [hspells.eq_indicesOf]

omit [Crypto] in
theorem joinWords_split (h : WordlistSound) {indices : List ℕ} (hlt : ∀ i ∈ indices, i < 2048)
    (hne : indices ≠ []) :
    (joinWords indices).isAscii = true ∧ (joinWords indices).split ' ' = indices.map wordAt := by
  have hlower : ∀ i ∈ indices, ∀ c ∈ wordAt i, 97 ≤ c.toNat ∧ c.toNat ≤ 122 := by
    intro i hi c hc
    obtain ⟨hlo, hhi⟩ := (h.lower _ (wordAt_mem h (hlt i hi))).2 c hc
    exact ⟨hlo, hhi⟩
  constructor
  · rw [Text.isAscii_iff]
    intro c hc
    rcases Text.mem_intercalate hc with rfl | ⟨t, ht, hc⟩
    · decide
    · obtain ⟨i, hi, rfl⟩ := List.mem_map.mp ht
      exact (hlower i hi c hc).2.trans_lt (by decide)
  · refine Text.split_intercalate (fun t ht hspace => ?_) (by simpa using hne)
    obtain ⟨i, hi, rfl⟩ := List.mem_map.mp ht
    exact absurd (hlower i hi _ hspace).1 (by decide)

/-- What the decoder makes of the places of `count` words. -/
def entropyOf (count : ℕ) (indices : List ℕ) : Except MnemonicError Bytes :=
  let entropyLen := count * 11 * 32 / 33 / 8
  let bits := indices.flatMap wordBits
  let entropy := bytesOfBits entropyLen (bits.take (entropyLen * 8))
  let checksum := (bits.drop (entropyLen * 8)).take (entropyLen / 4)
  if checksum ≠ (List.range checksum.length).map (bitOf (Crypto.sha256 entropy).1) then
    .error ⟨"checksum mismatch"⟩
  else .ok entropy

/-- The places of 12, 15, 18, 21 or 24 words. -/
def PhraseLen (count : ℕ) : Prop := 12 ≤ count ∧ count ≤ 24 ∧ count % 3 = 0

omit [Bip39] in
theorem entropyOf_eq_ok {indices : List ℕ} {entropy : Bytes} (hcount : PhraseLen indices.length)
    (hlt : ∀ i ∈ indices, i < 2048) : entropyOf indices.length indices = .ok entropy ↔ Spells indices entropy := by
  obtain ⟨m, hm⟩ : ∃ m, indices.length = 3 * m := ⟨indices.length / 3, by
    obtain ⟨-, -, hmod⟩ := hcount
    omega⟩
  have hlen : indices.length * 11 * 32 / 33 / 8 = 4 * m := by omega
  let bits := indices.flatMap wordBits
  have hword : ∀ i, (wordBits i).length = 11 := fun i => by rw [wordBits_eq, length_fixed]
  have hbitsLen : bits.length = 33 * m := by
    rw [List.length_flatMap, List.map_congr_left fun i _ => hword i, List.map_const',
      List.sum_replicate_nat, hm]
    omega
  have hbits : ∀ bit ∈ bits, bit < 2 := by
    intro bit hbit
    obtain ⟨i, -, hbit⟩ := List.mem_flatMap.mp hbit
    rw [wordBits_eq] at hbit
    exact fixed_lt (by decide) 11 i bit hbit
  have hfour : 4 * m / 4 = m := by omega
  have hdrop : (bits.drop (4 * m * 8)).take m = bits.drop (4 * m * 8) :=
    List.take_of_length_le (by rw [List.length_drop, hbitsLen]; omega)
  have hdropLen : (bits.drop (4 * m * 8)).length = m := by
    rw [List.length_drop, hbitsLen]
    omega
  have htakeLen : (bits.take (4 * m * 8)).length = 8 * (4 * m) := by
    rw [List.length_take, hbitsLen]
    omega
  have hread : entropyOf indices.length indices =
      if bits.drop (4 * m * 8) ≠ (List.range m).map
        (bitOf (Crypto.sha256 (bytesOfBits (4 * m) (bits.take (4 * m * 8)))).1) then
        .error ⟨"checksum mismatch"⟩
      else .ok (bytesOfBits (4 * m) (bits.take (4 * m * 8))) := by
    unfold entropyOf
    simp only [hlen, hfour]
    rw [hdrop, hdropLen]
  rw [hread]
  constructor
  · intro h
    split_ifs at h with hsum
    cases h
    rw [ne_eq, not_not] at hsum
    have hbytes : (bytesOfBits (4 * m) (bits.take (4 * m * 8))).length = 4 * m := length_bytesOfBits _ _
    refine ⟨hlt, ?_, ?_⟩
    · obtain ⟨hmin, hmax, -⟩ := hcount
      rw [EntropyLen, hbytes]
      omega
    · rw [phraseBits_eq, hbytes, hfour, ← hsum,
        bitsOf_bytesOfBits htakeLen fun bit hbit => hbits bit (List.mem_of_mem_take hbit)]
      exact (List.take_append_drop _ _).symm
  · rintro ⟨-, hentropy, hspells⟩
    have hentropyLen : entropy.length = 4 * m := by
      have hcounts := congrArg List.length hspells
      rw [length_phraseBits hentropy] at hcounts
      obtain ⟨-, -, hmod⟩ := hentropy
      have hcounts' : bits.length = 11 * (3 * (entropy.length / 4)) := hcounts
      omega
    have hsplit : bits = bitsOf entropy ++ (List.range m).map (bitOf (Crypto.sha256 entropy).1) := by
      have hboth : bits = phraseBits entropy := hspells
      rw [hboth, phraseBits_eq, hentropyLen, hfour]
    have hfront : (bitsOf entropy).length = 4 * m * 8 := by
      rw [bitsOf, List.length_map, List.length_range, hentropyLen]
      omega
    have htake : bits.take (4 * m * 8) = bitsOf entropy := by
      rw [hsplit, ← hfront, List.take_left]
    have hback : bits.drop (4 * m * 8) = (List.range m).map (bitOf (Crypto.sha256 entropy).1) := by
      rw [hsplit, ← hfront, List.drop_left]
    rw [htake, hback, ← hentropyLen, bytesOfBits_bitsOf]
    exact if_neg (not_not.mpr rfl)

theorem entropyFromPhrase_eq_ok (h : WordlistSound) {phrase : Text} {entropy : Bytes} :
    entropyFromPhrase phrase = .ok entropy ↔
      ∃ indices, Spells indices entropy ∧ phrase = joinWords indices := by
  have hunfold : entropyFromPhrase phrase =
      if ¬ phrase.isAscii then .error ⟨"phrase is not ASCII"⟩
      else if ¬ (12 ≤ (phrase.split ' ').length ∧ (phrase.split ' ').length ≤ 24 ∧
        (phrase.split ' ').length % 3 = 0) then
        .error ⟨"word count is not 12, 15, 18, 21 or 24"⟩
      else (phrase.split ' ').mapM wordIndex >>= entropyOf (phrase.split ' ').length := rfl
  rw [hunfold]
  constructor
  · intro hok
    split_ifs at hok with hascii hcount
    obtain ⟨indices, hindices, hok⟩ := bind_eq_ok.mp hok
    obtain ⟨hlt, hwords⟩ := (mapM_wordIndex_eq_ok h).mp hindices
    rw [hwords, List.length_map] at hcount hok
    have hcount : PhraseLen indices.length := hcount
    refine ⟨indices, (entropyOf_eq_ok hcount hlt).mp hok, ?_⟩
    rw [joinWords, ← hwords, Text.intercalate_split]
  · rintro ⟨indices, hspells, rfl⟩
    have hlt := hspells.1
    have hcount : PhraseLen indices.length := by
      obtain ⟨hmin, hmax, hmod⟩ := hspells.2.1
      have hlen : indices.length = (entropy.length * 8 + entropy.length / 4) / 11 := by
        rw [hspells.eq_indicesOf, indicesOf, List.length_map, List.length_range]
      rw [PhraseLen, hlen]
      omega
    have hne : indices ≠ [] := fun hnil => by
      rw [hnil] at hcount
      exact absurd hcount.1 (by decide)
    obtain ⟨hascii, hsplit⟩ := joinWords_split h hlt hne
    have hbounds : 12 ≤ indices.length ∧ indices.length ≤ 24 ∧ indices.length % 3 = 0 := hcount
    rw [if_neg (not_not.mpr hascii), hsplit, List.length_map, if_neg (not_not.mpr hbounds)]
    exact bind_eq_ok.mpr ⟨indices, (mapM_wordIndex_eq_ok h).mpr ⟨hlt, rfl⟩,
      (entropyOf_eq_ok hcount hlt).mpr hspells⟩

/-- The two directions are one relation. -/
theorem entropyFromPhrase_iff (h : WordlistSound) {phrase : Text} {entropy : Bytes} :
    entropyFromPhrase phrase = .ok entropy ↔ phraseFromEntropy entropy = .ok phrase := by
  rw [entropyFromPhrase_eq_ok h, phraseFromEntropy_eq_ok h]

/-- Phrases and entropy are inverse to each other, and a text that is not the phrase of some entropy
is refused. -/
theorem phrases_and_entropy_inverse (h : WordlistSound) :
    (∀ entropy : Bytes, entropy.length ∈ [16, 20, 24, 28, 32] →
      ∃ phrase, phraseFromEntropy entropy = .ok phrase ∧ entropyFromPhrase phrase = .ok entropy) ∧
    (∀ phrase entropy, entropyFromPhrase phrase = .ok entropy → phraseFromEntropy entropy = .ok phrase) ∧
    (∀ phrase entropy, phraseFromEntropy entropy = .ok phrase →
      entropy.length ∈ [16, 20, 24, 28, 32] ∧ ∃ words, phrase = [' '].intercalate words ∧
        (∀ word ∈ words, word ∈ Bip39.wordlist) ∧ words.length = 3 * (entropy.length / 4)) ∧
    ∀ phrase, (∀ entropy, phraseFromEntropy entropy ≠ .ok phrase) →
      ∃ e, entropyFromPhrase phrase = .error e := by
  refine ⟨fun entropy hlen => ?_, fun phrase entropy hok => (entropyFromPhrase_iff h).mp hok,
    fun phrase entropy hok => ?_, fun phrase hnone => ?_⟩
  · have hspells := spells_indicesOf (entropyLen_iff.mpr hlen)
    have hphrase := (phraseFromEntropy_eq_ok h).mpr ⟨_, hspells, rfl⟩
    exact ⟨_, hphrase, (entropyFromPhrase_iff h).mpr hphrase⟩
  · obtain ⟨indices, hspells, rfl⟩ := (phraseFromEntropy_eq_ok h).mp hok
    refine ⟨entropyLen_iff.mp hspells.2.1, indices.map wordAt, rfl, fun word hword => ?_, ?_⟩
    · obtain ⟨i, hi, rfl⟩ := List.mem_map.mp hword
      exact wordAt_mem h (hspells.1 i hi)
    · rw [List.length_map, hspells.eq_indicesOf, indicesOf_eq hspells.2.1, List.length_map, List.length_range]
  · rcases hok : entropyFromPhrase phrase with e | entropy
    · exact ⟨e, rfl⟩
    · exact absurd ((entropyFromPhrase_iff h).mp hok) (hnone entropy)

end

section
attribute [local instance] Crypto.plain

def letter (d : ℕ) : Char := .ofNat (97 + d)

/-- A word that spells its own place, in base 16. -/
def letters (i : ℕ) : Text := [letter (i / 256), letter (i / 16 % 16), letter (i % 16)]

/-- The words that spell their own places. -/
@[reducible] def lettered : Bip39 :=
  ⟨(List.range 2048).map letters, fun password _ _ => fit 64 password⟩

attribute [local instance] lettered

theorem letter_lt : ∀ d < 16, ∀ e < 16, d < e → letter d < letter e := by decide

theorem letter_lower : ∀ d < 16, 'a' ≤ letter d ∧ letter d ≤ 'z' := by decide

theorem letters_lt {i j : ℕ} (hj : j < 2048) (h : i < j) : letters i < letters j := by
  have hdigits : i / 256 < j / 256 ∨ i / 256 = j / 256 ∧
      (i / 16 % 16 < j / 16 % 16 ∨ i / 16 % 16 = j / 16 % 16 ∧ i % 16 < j % 16) := by omega
  rw [letters, letters, List.cons_lt_cons_iff, List.cons_lt_cons_iff, List.cons_lt_cons_iff]
  rcases hdigits with hlt | ⟨heq, hlt | ⟨heq', hlt⟩⟩
  · exact .inl (letter_lt _ (by omega) _ (by omega) hlt)
  · exact .inr ⟨congrArg letter heq, .inl (letter_lt _ (by omega) _ (by omega) hlt)⟩
  · exact .inr ⟨congrArg letter heq, .inr ⟨congrArg letter heq',
      .inl (letter_lt _ (by omega) _ (by omega) hlt)⟩⟩

theorem lettered_sound : WordlistSound := by
  refine ⟨(List.length_map _).trans List.length_range, ?_, fun word hword => ?_⟩
  · refine List.pairwise_map.mpr (List.pairwise_lt_range.imp_of_mem fun {i j} _ hj h => ?_)
    exact letters_lt (List.mem_range.mp hj) h
  · obtain ⟨i, hi, rfl⟩ := List.mem_map.mp hword
    have hi : i < 2048 := List.mem_range.mp hi
    refine ⟨List.cons_ne_nil _ _, ?_⟩
    rw [letters, List.forall_mem_cons, List.forall_mem_cons, List.forall_mem_singleton]
    exact ⟨letter_lower _ (by omega), letter_lower _ (by omega), letter_lower _ (by omega)⟩

theorem phrases_and_entropy_inverse_lettered :
    (∃ phrase, phraseFromEntropy (List.replicate 16 7) = .ok phrase ∧
      entropyFromPhrase phrase = .ok (List.replicate 16 7)) ∧
    ∃ e, entropyFromPhrase "aaa aab".toList = .error e :=
  ⟨(phrases_and_entropy_inverse lettered_sound).1 _ (by decide), _, rfl⟩

end

end MochimoWallet.Mnemonic
