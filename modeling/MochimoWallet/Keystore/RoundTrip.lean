import MochimoWallet.Keystore.Format
import MochimoWallet.Lib.Result

/-!
# An encoded image parses to what was encoded

`encodeRecords_eq_ok` says when the encoder accepts a record list and what it
writes; `parseRecord_recordBytes` that one written record reads back as its slot;
`parseWithKey_encode` assembles them: under the key it was sealed with, an image is
read as the state it was encoded from.
-/

namespace MochimoWallet.Keystore

open Codec

/-! ## The cursor over written bytes -/

namespace Cursor

@[simp] theorem take_append {n : ℕ} (b : Block n) (rest : Bytes) (offset : ℕ) (what : String) :
    (⟨b.1 ++ rest, offset⟩ : Cursor).take n what = .ok (b, ⟨rest, offset + n⟩) := by
  have hn : b.1.length = n := b.2
  have hle : n ≤ (b.1 ++ rest).length := by rw [List.length_append, hn]; omega
  have ht : (b.1 ++ rest).take n = b.1 := by
    rw [List.take_append_of_le_length hn.ge, List.take_of_length_le hn.le]
  have hd : (b.1 ++ rest).drop n = rest := by
    rw [List.drop_append_of_le_length hn.ge, List.drop_of_length_le hn.le, List.nil_append]
  simp only [take, dif_pos hle, ht, hd]

@[simp] theorem takeByte_cons (x : UInt8) (rest : Bytes) (offset : ℕ) (what : String) :
    (⟨x :: rest, offset⟩ : Cursor).takeByte what = .ok (x, ⟨rest, offset + 1⟩) := rfl

end Cursor

/-! ## What a record may hold -/

/-- A block, where one is occupied, stands at the position before the index. -/
def BlockBefore (index : WotsIndex) (block : Option Pending) : Prop :=
  ∀ p, block = some p → p.spentIndex.pos + 1 = index.pos

theorem blockBefore_iff {index : WotsIndex} {block : Option Pending} :
    BlockBefore index block ↔
      ¬ (block.any fun p => p.spentIndex.advanced.toOption ≠ some index) = true := by
  cases block with
  | none => simp [BlockBefore]
  | some p =>
    have h : p.spentIndex.advanced.toOption = some index ↔ p.spentIndex.advanced = .ok index := by
      cases p.spentIndex.advanced <;> simp [Except.toOption]
    simp only [BlockBefore, Option.some.injEq, forall_eq', Option.any_some, ne_eq, decide_not,
      Bool.not_eq_true', decide_eq_false_iff_not, Decidable.not_not, h, WotsIndex.advanced_eq_ok]
    exact eq_comm

/-! ## Lengths of what is written -/

theorem length_keyBytes (k : KeyMaterial) : (keyBytes k).length = 97 := by
  cases k <;> simp [keyBytes, Block.length_eq, firstKeyLen, seedLen]

theorem length_figuresBytes (f : Option Figures) : (figuresBytes f).length = 17 := by
  cases f <;> simp [figuresBytes, Block.length_eq]

theorem length_blockBytes (state : UInt8) (b : Option Pending) :
    (blockBytes state b).length = 54 := by
  cases b <;> simp [blockBytes, length_figuresBytes, Block.length_eq, hashLen]

theorem length_headerBytes (kdf : Kdf) (salt : Block saltLen) (nonce : Block nonceLen) :
    (headerBytes kdf salt nonce).length = headerLen := by
  simp [headerBytes, Block.length_eq, headerLen, saltLen, nonceLen]

theorem length_bodyHeaderBytes (generation : UInt64) (count : ℕ) (master : Option Secret) :
    (bodyHeaderBytes generation count master).length = bodyHeaderLen := by
  cases master <;> simp [bodyHeaderBytes, Block.length_eq, bodyHeaderLen, seedLen]

theorem bodyLenAt_version {count : ℕ} (h : count ≤ maxAccounts) :
    bodyLenAt version count = some (count * recordLen + bodyHeaderLen) := by
  have hr : recordLenAt version = recordLen := if_neg (by decide)
  have hrec : recordLen = 195 := rfl
  have hbody : bodyHeaderLen = 45 := rfl
  have h1 : count * recordLen < 2 ^ 64 := by rw [hrec]; simp only [maxAccounts] at h; omega
  have h2 : count * recordLen + bodyHeaderLen < 2 ^ 64 := by
    rw [hrec, hbody]; simp only [maxAccounts] at h; omega
  rw [bodyLenAt, hr, usize, if_pos h1]
  exact if_pos h2

theorem imageLen_eq {count : ℕ} (h : count ≤ maxAccounts) :
    imageLen count = some (count * recordLen + bodyHeaderLen + headerLen + trailerLen) := by
  have hrec : recordLen = 195 := rfl
  have hbody : bodyHeaderLen = 45 := rfl
  have hhead : headerLen = 51 := rfl
  have htail : trailerLen = 16 := rfl
  simp only [maxAccounts] at h
  have h1 : count * recordLen + bodyHeaderLen + headerLen < 2 ^ 64 := by rw [hrec]; omega
  have h2 : count * recordLen + bodyHeaderLen + headerLen + trailerLen < 2 ^ 64 := by
    rw [hrec]; omega
  rw [imageLen, bodyLen, bodyLenAt_version h]
  show (do let headed ← usize (count * recordLen + bodyHeaderLen + headerLen)
           usize (headed + trailerLen)) = _
  rw [usize, if_pos h1]
  exact if_pos h2

/-! ## Reading the fields of a record back -/

theorem any_zero (n : ℕ) : (Block.zero n).bytes.any (· ≠ 0) = false := by
  simp [Block.zero, Block.replicate]

theorem version_ne_v3 : ¬ version = v3Version := by decide

theorem takeFigures_figuresBytes (f : Option Figures) (rest : Bytes) (offset : ℕ) :
    ∃ raw, takeFigures version ⟨figuresBytes f ++ rest, offset⟩ =
        .ok (some raw, ⟨rest, offset + 17⟩) ∧
      (∀ at', checkFigures at' (some raw) = .ok f) ∧ (f = none → raw.1 = 0) := by
  cases f with
  | none =>
    refine ⟨(0, 0, 0), ?_, fun _ => rfl, fun _ => rfl⟩
    simp only [takeFigures, if_neg version_ne_v3, figuresBytes, List.append_assoc,
      List.cons_append, List.nil_append, Cursor.takeByte_cons, Cursor.take_append, ok_bind]
    rfl
  | some f =>
    refine ⟨(1, f.reservedBalance, f.blkToLive), ?_, fun _ => rfl, fun h => by cases h⟩
    simp only [takeFigures, if_neg version_ne_v3, figuresBytes, List.append_assoc,
      List.cons_append, List.nil_append, Cursor.takeByte_cons, Cursor.take_append, ok_bind, ofU64le_u64le]

theorem checkMaster_written (master : Option Secret) :
    ∃ (flag : UInt8) (bytes : Secret),
      (∀ (generation : UInt64) (count : ℕ), bodyHeaderBytes generation count master =
        (u64le generation).1 ++ ((u32le (.ofNat count)).1 ++ (flag :: bytes.1))) ∧
      ∀ at', checkMaster at' flag bytes = .ok master := by
  cases master with
  | none =>
    refine ⟨0, .zero seedLen, fun _ _ => by simp [bodyHeaderBytes], fun at' => ?_⟩
    simp only [checkMaster, if_true, any_zero, Bool.false_eq_true, if_false]
  | some m => exact ⟨1, m, fun _ _ => by simp [bodyHeaderBytes], fun _ => rfl⟩

variable [Crypto]

/-- What the encoder accepts and the parser produces: at most one block, and that one before the
index by one. -/
structure Slot.Wf (s : Slot) : Prop where
  one_block : s.pending = none ∨ s.settled = none
  pending_before : BlockBefore s.account.wotsIndex s.pending
  settled_before : BlockBefore s.account.wotsIndex s.settled

namespace RecordRef

/-- The slot a record reads back as. -/
def slot (r : RecordRef) : Slot := ⟨{ r.account with wotsIndex := r.wotsIndex }, r.pending, r.settled⟩

/-- What the encoder reads of a record. -/
def core (r : RecordRef) : Tag × KeyMaterial × WotsIndex × Option Pending × Option Pending :=
  (r.tag, r.account.key, r.wotsIndex, r.pending, r.settled)

end RecordRef

/-- The encoder's two representable refusals, as the slot's well-formedness. -/
theorem slot_wf_iff {r : RecordRef} :
    r.slot.Wf ↔ (r.pending.isSome && r.settled.isSome) = false ∧
      BlockBefore r.wotsIndex (blockOf r).2 := by
  obtain ⟨tag, account, index, pending, settled⟩ := r
  have hnone : BlockBefore index none := fun p h => by cases h
  cases pending with
  | none =>
    cases settled with
    | none => exact ⟨fun _ => ⟨rfl, hnone⟩, fun _ => ⟨.inl rfl, hnone, hnone⟩⟩
    | some s => exact ⟨fun h => ⟨rfl, h.settled_before⟩, fun h => ⟨.inl rfl, hnone, h.2⟩⟩
  | some p =>
    cases settled with
    | none => exact ⟨fun h => ⟨rfl, h.pending_before⟩, fun h => ⟨.inr rfl, h.2, hnone⟩⟩
    | some s =>
      refine iff_of_false (fun h => ?_) fun h => ?_
      · rcases h.one_block with h | h <;> cases h
      · cases h.1

/-! ## What the encoder writes -/

theorem encodeRecords_eq_ok {rs : List RecordRef} {image out : Bytes} {prev : Option Tag} :
    encodeRecords image prev rs = .ok out ↔
      out = image ++ rs.flatMap recordBytes ∧ (∀ r ∈ rs, r.slot.Wf) ∧
        rs.Pairwise (fun a b => a.tag < b.tag) ∧ ∀ p ∈ prev, ∀ r ∈ rs, p < r.tag := by
  induction rs generalizing image prev with
  | nil => simp [encodeRecords, eq_comm]
  | cons r rs ih =>
    have hstep : encodeRecords image prev (r :: rs) = .ok out ↔
        (∀ p ∈ prev, p < r.tag) ∧ r.slot.Wf ∧
          encodeRecords (image ++ recordBytes r) (some r.tag) rs = .ok out := by
      rw [slot_wf_iff, blockBefore_iff, encodeRecords]
      have hprev : (∀ p ∈ prev, p < r.tag) ↔ ¬ prev.any (fun p => decide (r.tag ≤ p)) = true := by
        cases prev <;> simp
      rw [hprev]
      split
      · next h => exact iff_of_false (by simp) fun hc => hc.1 h
      split
      · next h => exact iff_of_false (by simp) fun hc => Bool.eq_false_iff.mp hc.2.1.1 h
      split
      · next h => exact iff_of_false (by simp) fun hc => hc.2.1.2 h
      · next h h' h'' =>
        exact ⟨fun he => ⟨h, ⟨Bool.eq_false_iff.mpr h', h''⟩, he⟩, fun hc => hc.2.2⟩
    rw [hstep, ih]
    simp only [List.flatMap_cons, List.append_assoc, List.forall_mem_cons, List.pairwise_cons,
      Option.mem_def, Option.some.injEq, forall_eq']
    constructor
    · rintro ⟨hp, hr, rfl, hrs, hs, hlt⟩
      exact ⟨rfl, ⟨hr, hrs⟩, ⟨hlt, hs⟩, fun p h => ⟨hp p h, fun a ha => (hp p h).trans (hlt a ha)⟩⟩
    · rintro ⟨rfl, ⟨hr, hrs⟩, ⟨hlt, hs⟩, hp⟩
      exact ⟨fun p h => (hp p h).1, hr, rfl, hrs, hs, hlt⟩

/-! ## One record -/

/-- The body and first key of written key material, and the record they are read as. -/
theorem checkKind_keyBytes (a : Account) :
    ∃ (kind : UInt8) (body : Block 32) (first : Block firstKeyLen),
      keyBytes a.key = kind :: (body.1 ++ first.1) ∧
      ∀ at', checkKind at' kind a.tag body first a.key.stream a.wotsIndex = .ok a.toRecord := by
  obtain ⟨tag, key, index, verified⟩ := a
  cases key with
  | derived accountIndex stream =>
    refine ⟨kindDerived, (u32le accountIndex).append (.zero 28), .zero firstKeyLen, ?_, fun at' => ?_⟩
    · simp [keyBytes, Block.append]
    · have hpad : ((u32le accountIndex).append (.zero 28)).slice 4 28 = .zero 28 :=
        Block.slice_append_right ..
      have hidx : ((u32le accountIndex).append (.zero 28)).slice 0 4 = u32le accountIndex :=
        Block.slice_append_left ..
      simp only [checkKind, if_true, hpad, hidx, any_zero, Bool.false_eq_true, if_false,
        ofU32le_u32le, KeyMaterial.stream, Account.toRecord]
  | imported root first stream =>
    exact ⟨kindImported, root, first.toBytes, by simp [keyBytes], fun _ => rfl⟩

/-- A written record's block, and what the parser makes of it. -/
theorem checkBlock_blockBytes {r : RecordRef} (hw : r.slot.Wf) :
    ∃ (flag : UInt8) (spentIndex : UInt32) (digest : Digest) (figures : Option Figures),
      blockBytes (blockOf r).1 (blockOf r).2 =
        flag :: ((u32le spentIndex).1 ++ digest.1 ++ figuresBytes figures) ∧
      ∀ at' figuresFlag, (figures = none → figuresFlag = 0) →
        checkBlock version at' flag r.wotsIndex spentIndex digest (some figuresFlag) figures =
          .ok (r.pending, r.settled) := by
  obtain ⟨hone, hbefore⟩ := slot_wf_iff.mp hw
  obtain ⟨tag, account, index, pending, settled⟩ := r
  have hzero : u32le 0 = .zero 4 := by decide
  have hadv {p : Pending} (h : BlockBefore index (some p)) :
      (WotsIndex.mk p.spentIndex.raw).advanced.toOption = some index := by
    have : p.spentIndex.advanced = .ok index := WotsIndex.advanced_eq_ok.mpr (h p rfl).symm
    rw [show WotsIndex.mk p.spentIndex.raw = p.spentIndex from rfl, this]
    rfl
  cases pending with
  | none =>
    cases settled with
    | none =>
      refine ⟨0, 0, .zero 32, none, ?_, fun at' fl hfl => ?_⟩
      · simp [blockOf, blockBytes, hzero]
      · simp [checkBlock, hfl rfl]
    | some p =>
      refine ⟨2, p.spentIndex.raw, p.digest, p.figures, rfl, fun at' fl _ => ?_⟩
      simp [checkBlock, hadv hbefore, version_ne_v3]
  | some p =>
    cases settled with
    | none =>
      refine ⟨1, p.spentIndex.raw, p.digest, p.figures, rfl, fun at' fl _ => ?_⟩
      simp [checkBlock, hadv hbefore]
    | some q => cases hone

theorem length_recordBytes (r : RecordRef) : (recordBytes r).length = recordLen := by
  simp [recordBytes, length_keyBytes, length_blockBytes, Block.length_eq, recordLen, addrTagLen,
    firstKeyLen, seedLen]

theorem recordBytes_congr {r r' : RecordRef} (h : r.core = r'.core) :
    recordBytes r = recordBytes r' := by
  obtain ⟨tag, account, index, pending, settled⟩ := r
  obtain ⟨tag', account', index', pending', settled'⟩ := r'
  simp only [RecordRef.core, Prod.mk.injEq] at h
  obtain ⟨rfl, hk, rfl, rfl, rfl⟩ := h
  simp only [recordBytes, hk, blockOf]

/-- A written record reads back as its slot. -/
theorem parseRecord_recordBytes {r : RecordRef} (hw : r.slot.Wf) (ht : r.account.tag = r.tag)
    {prev : Option Tag} (hprev : ∀ p ∈ prev, p < r.tag) (rest : Bytes) (offset : ℕ) :
    parseRecord version prev ⟨recordBytes r ++ rest, offset⟩ =
      .ok ((r.tag, r.slot), ⟨rest, offset + recordLen⟩) := by
  obtain ⟨kind, body, first, hk, hkind⟩ :=
    checkKind_keyBytes r.slot.account
  obtain ⟨flag, spentIndex, digest, figures, hb, hblock⟩ := checkBlock_blockBytes hw
  have hany : prev.any (fun p => decide (r.tag ≤ p)) = false := by
    cases prev with
    | none => rfl
    | some q => simpa using hprev q rfl
  obtain ⟨raw, hraw, hfig, hnone⟩ := takeFigures_figuresBytes figures rest
    (offset + addrTagLen + 1 + 32 + firstKeyLen + addrTagLen + 4 + 1 + 4 + 32)
  have hbytes : recordBytes r ++ rest = r.tag.1 ++ (kind :: (body.1 ++ (first.1 ++
      (r.account.key.stream.bytes.1 ++ ((u32le r.wotsIndex.raw).1 ++ (flag ::
        ((u32le spentIndex).1 ++ (digest.1 ++ (figuresBytes figures ++ rest))))))))) := by
    have hk : keyBytes r.account.key = kind :: (body.1 ++ first.1) := hk
    simp only [recordBytes, hk, hb, List.append_assoc, List.cons_append]
  have hrestore (at' : ℕ) : restoreRecord at' r.slot.account.toRecord = .ok r.slot.account := by
    simp only [restoreRecord, Account.restoreFromRecord_toRecord]
  have hkind (at' : ℕ) : checkKind at' kind r.tag body first ⟨r.account.key.stream.bytes⟩
      ⟨r.wotsIndex.raw⟩ = .ok r.slot.account.toRecord := by
    rw [← ht]; exact hkind at'
  rw [hbytes, parseRecord]
  simp only [Cursor.take_append, Cursor.takeByte_cons, ok_bind, hany, Bool.false_eq_true, if_false,
    hraw, hfig, ofU32le_u32le, Option.map_some, hblock _ _ hnone]
  rw [hkind, ok_bind, hrestore, ok_bind]
  rfl

/-! ## The records -/

theorem parseRecords_flatMap {rs : List RecordRef} (hw : ∀ r ∈ rs, r.slot.Wf)
    (ht : ∀ r ∈ rs, r.account.tag = r.tag) (hs : rs.Pairwise fun a b => a.tag < b.tag)
    {prev : Option Tag} (hprev : ∀ p ∈ prev, ∀ r ∈ rs, p < r.tag)
    {m : OrdMap Tag Slot} (hm : ∀ e ∈ m.entries, ∀ r ∈ rs, e.1 < r.tag) (offset : ℕ) :
    ∃ m' end', parseRecords version rs.length prev m ⟨rs.flatMap recordBytes, offset⟩ =
        .ok (m', ⟨[], end'⟩) ∧
      m'.entries = m.entries ++ rs.map fun r => (r.tag, r.slot) := by
  induction rs generalizing prev m offset with
  | nil => exact ⟨m, offset, rfl, by simp⟩
  | cons r rs ih =>
    simp only [List.forall_mem_cons, List.pairwise_cons] at hw ht hs
    have hlast : ∀ e ∈ m.entries, e.1 < r.tag := fun e he => hm e he r List.mem_cons_self
    have hins := OrdMap.entries_insert_last hlast r.slot
    have hprev' : ∀ p ∈ some r.tag, ∀ r' ∈ rs, p < r'.tag := fun p hp r' hr' => by
      cases hp
      exact hs.1 r' hr'
    obtain ⟨m', end', hparse, hentries⟩ := ih hw.2 ht.2 hs.2 hprev' (m := m.insert r.tag r.slot)
      (fun e he r' hr' => by
        rw [hins, List.mem_append, List.mem_singleton] at he
        rcases he with he | rfl
        · exact hm e he r' (List.mem_cons_of_mem _ hr')
        · exact hs.1 r' hr')
      (offset + recordLen)
    refine ⟨m', end', ?_, by simp [hentries, hins]⟩
    rw [List.flatMap_cons, List.length_cons, parseRecords,
      parseRecord_recordBytes hw.1 ht.1 fun p hp => hprev p hp r List.mem_cons_self, ok_bind]
    exact hparse

theorem length_flatMap_recordBytes (rs : List RecordRef) :
    (rs.flatMap recordBytes).length = rs.length * recordLen := by
  induction rs with
  | nil => rfl
  | cons r rs ih =>
    simp only [List.flatMap_cons, List.length_append, length_recordBytes, ih, List.length_cons]
    ring

/-! ## The image -/

theorem parseBody_written {rs : List RecordRef} (hn : rs.length ≤ maxAccounts)
    (hw : ∀ r ∈ rs, r.slot.Wf) (ht : ∀ r ∈ rs, r.account.tag = r.tag)
    (hs : rs.Pairwise fun a b => a.tag < b.tag) (generation : UInt64) (master : Option Secret) :
    ∃ m : OrdMap Tag Slot, m.entries = rs.map (fun r => (r.tag, r.slot)) ∧
      parseBody version (bodyHeaderBytes generation rs.length master ++ rs.flatMap recordBytes) =
        .ok ⟨generation, m, master⟩ := by
  obtain ⟨flag, bytes, hwritten, hmaster⟩ := checkMaster_written master
  have hprev : ∀ p ∈ (none : Option Tag), ∀ r ∈ rs, p < r.tag := fun p hp => by cases hp
  obtain ⟨m, end', hparse, hentries⟩ := parseRecords_flatMap hw ht hs hprev (m := .empty)
    (fun e he => by cases he) (0 + 8 + 4 + 1 + seedLen)
  refine ⟨m, by simpa [OrdMap.empty] using hentries, ?_⟩
  have hcount : (UInt32.ofNat rs.length).toNat = rs.length := by
    simp only [maxAccounts] at hn
    rw [UInt32.toNat_ofNat', Nat.mod_eq_of_lt (by omega)]
  have hlen : (bodyHeaderBytes generation rs.length master ++ rs.flatMap recordBytes).length =
      rs.length * recordLen + bodyHeaderLen := by
    rw [List.length_append, length_bodyHeaderBytes, length_flatMap_recordBytes, Nat.add_comm]
  rw [parseBody, hlen, hwritten]
  simp only [List.append_assoc, List.cons_append, Cursor.take_append, Cursor.takeByte_cons,
    ok_bind, ofU32le_u32le, hcount, hmaster, ofU64le_u64le]
  rw [if_neg (by omega), bodyLenAt_version hn]
  simp only [ne_eq, not_true_eq_false, if_false, hparse, ok_bind]

/-- The header a writer puts before a ciphertext is read back whole. -/
theorem readHeader_written {kdf : Kdf} (hk : kdf.checked = .ok kdf) (salt : Block saltLen)
    (nonce : Block nonceLen) {ciphertext : Bytes} (hc : bodyHeaderLen ≤ ciphertext.length)
    (tag : Block trailerLen)
    (hlen : (headerBytes kdf salt nonce ++ ciphertext ++ tag.1).length ≤ maxImageLen) :
    readHeader (headerBytes kdf salt nonce ++ ciphertext ++ tag.1) =
      .ok ⟨version, ⟨kdf, salt, nonce⟩, headerBytes kdf salt nonce, ciphertext, tag⟩ := by
  have hhead := length_headerBytes kdf salt nonce
  have htag : tag.1.length = trailerLen := tag.2
  have hfront : (headerBytes kdf salt nonce ++ ciphertext ++ tag.1).length - trailerLen =
      (headerBytes kdf salt nonce ++ ciphertext).length := by
    rw [List.length_append, htag]; omega
  have hshort : ¬ (headerBytes kdf salt nonce ++ ciphertext ++ tag.1).length < trailerLen := by
    rw [List.length_append, htag]; omega
  have hcursor (offset : ℕ) : (⟨headerBytes kdf salt nonce ++ ciphertext, offset⟩ : Cursor) =
      ⟨magic.1 ++ ((u16le version).1 ++ (kdfArgon2idV13 :: ((u32le kdf.mCostKib).1 ++
        ((u32le kdf.tCost).1 ++ ((u32le kdf.pCost).1 ++ (salt.1 ++
          (nonce.1 ++ ciphertext))))))), offset⟩ := by
    simp only [headerBytes, List.append_assoc, List.cons_append, List.nil_append]
  have hoffset : 0 + 8 + 2 + 1 + 4 + 4 + 4 + saltLen + nonceLen = headerLen := rfl
  rw [readHeader, if_neg (by omega), dif_neg hshort]
  simp only [hfront, List.take_left, List.drop_left, hcursor, Cursor.take_append,
    Cursor.takeByte_cons, ok_bind, ofU16le_u16le, ofU32le_u32le, hk, hoffset, lenMatches, if_true]
  have hdrop : (headerBytes kdf salt nonce ++ ciphertext).drop headerLen = ciphertext := by
    rw [← hhead, List.drop_left]
  have htake : (headerBytes kdf salt nonce ++ ciphertext).take headerLen =
      headerBytes kdf salt nonce := by
    rw [← hhead, List.take_left]
  simp only [hdrop, htake, ne_eq, not_true_eq_false, false_and, if_false, if_neg hc.not_gt]

/-! ## The encoder's image parses -/

/-- What an accepted record list is sealed as: every step of `encode` that can refuse did not. -/
theorem encode_eq_ok {rs : List RecordRef} {generation : UInt64} {master : Option Secret}
    {kdf : Kdf} {salt : Block saltLen} {key : Block keyLen} {nonce : Block nonceLen}
    {image : Bytes} (h : encode rs generation master kdf salt key nonce = .ok image) :
    rs.length ≤ maxAccounts ∧ kdf.checked = .ok kdf ∧
      (∀ r ∈ rs, r.slot.Wf) ∧ rs.Pairwise (fun a b => a.tag < b.tag) ∧
      ∃ ciphertext tag, image = headerBytes kdf salt nonce ++ ciphertext ++ tag.1 ∧
        image.length = rs.length * recordLen + bodyHeaderLen + headerLen + trailerLen ∧
        Crypto.aeadSeal key nonce (headerBytes kdf salt nonce)
          (bodyHeaderBytes generation rs.length master ++ rs.flatMap recordBytes) =
            some (ciphertext, tag) := by
  unfold encode at h
  split at h
  · cases h
  next hn =>
  have hn : rs.length ≤ maxAccounts := by omega
  rw [imageLen_eq hn] at h
  rcases hk : kdf.checked with e | kdf'
  · rw [hk] at h; cases h
  cases Kdf.checked_eq_ok hk
  rw [hk] at h
  simp only [ok_bind, length_headerBytes, lenMatches, if_true] at h
  rcases he : encodeRecords (headerBytes kdf salt nonce ++
      bodyHeaderBytes generation rs.length master) none rs with e | body
  · rw [he] at h; cases h
  rw [he, ok_bind] at h
  obtain ⟨rfl, hw, hs, -⟩ := encodeRecords_eq_ok.mp he
  rw [List.append_assoc, ← length_headerBytes kdf salt nonce, List.drop_left, aeadSeal] at h
  rcases hseal : Crypto.aeadSeal key nonce (headerBytes kdf salt nonce)
      (bodyHeaderBytes generation rs.length master ++ rs.flatMap recordBytes) with
    _ | ⟨ciphertext, tag⟩
  · rw [hseal] at h; cases h
  rw [hseal] at h
  simp only [ok_bind] at h
  split at h
  · next hlen =>
    cases h
    exact ⟨hn, rfl, hw, hs, ciphertext, tag, rfl, by rw [hlen, length_headerBytes], rfl⟩
  · cases h

/-- The header of what was encoded is read as the parameters it was sealed under, whatever the key. -/
theorem readHeader_encode (hl : Crypto.Lawful) {rs : List RecordRef} {generation : UInt64}
    {master : Option Secret} {kdf : Kdf} {salt : Block saltLen} {key : Block keyLen}
    {nonce : Block nonceLen} {image : Bytes}
    (h : encode rs generation master kdf salt key nonce = .ok image) :
    ∃ ciphertext tag, image.length ≤ maxImageLen ∧
      readHeader image = .ok ⟨version, ⟨kdf, salt, nonce⟩, headerBytes kdf salt nonce, ciphertext, tag⟩ ∧
      Crypto.aeadSeal key nonce (headerBytes kdf salt nonce)
        (bodyHeaderBytes generation rs.length master ++ rs.flatMap recordBytes) =
          some (ciphertext, tag) := by
  obtain ⟨hn, hk, -, -, ciphertext, tag, rfl, hlen, hseal⟩ := encode_eq_ok h
  have hct : ciphertext.length = rs.length * recordLen + bodyHeaderLen := by
    have h : ciphertext.length = _ := hl.length_seal hseal
    rw [h, List.length_append, length_bodyHeaderBytes, length_flatMap_recordBytes, Nat.add_comm]
  have hmax : (headerBytes kdf salt nonce ++ ciphertext ++ tag.1).length ≤ maxImageLen := by
    have hle : rs.length * recordLen ≤ maxAccounts * recordLen := Nat.mul_le_mul_right _ hn
    rw [hlen]
    simp only [maxImageLen]
    omega
  exact ⟨ciphertext, tag, hmax, readHeader_written hk salt nonce (by omega) tag hmax, hseal⟩

/-- Under the key it was sealed with, an image is read as what was encoded, and its header as the
parameters it was sealed under. -/
theorem parseWithKey_encode (hl : Crypto.Lawful) {rs : List RecordRef} {generation : UInt64}
    {master : Option Secret} {kdf : Kdf} {salt : Block saltLen} {key : Block keyLen}
    {nonce : Block nonceLen} {image : Bytes} (ht : ∀ r ∈ rs, r.account.tag = r.tag)
    (h : encode rs generation master kdf salt key nonce = .ok image) :
    ∃ (f : Framed) (m : OrdMap Tag Slot), readHeader image = .ok f ∧ f.version = version ∧
      f.header = ⟨kdf, salt, nonce⟩ ∧ image.length ≤ maxImageLen ∧
      m.entries = rs.map (fun r => (r.tag, r.slot)) ∧
      parseWithKey image key = .ok ⟨generation, m, master⟩ := by
  obtain ⟨hn, -, hw, hs, -⟩ := encode_eq_ok h
  obtain ⟨ciphertext, tag, hmax, hread, hseal⟩ := readHeader_encode hl h
  obtain ⟨m, hm, hparse⟩ := parseBody_written hn hw ht hs generation master
  refine ⟨_, m, hread, rfl, rfl, hmax, hm, ?_⟩
  rw [parseWithKey, hread, ok_bind]
  simp only [aeadOpen, hl.open_seal hseal, ok_bind]
  exact hparse

end MochimoWallet.Keystore
