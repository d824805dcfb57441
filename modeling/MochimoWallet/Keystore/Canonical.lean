import MochimoWallet.Keystore.Writes

/-!
# One state, one image

Every state of a store that can be encoded is, and the image reads back as it
(`snapshot_round_trip`). The other way round, each reading lemma of the parser has one
here that says the bytes it consumed: they are what the writer gives for the value it
returned. So an accepted body is the body its state is encoded to (`parseBody_written_back`),
and where the cipher's seal inverts its open an accepted image is the image of its state.
-/

namespace MochimoWallet.Keystore

open Codec

/-- The plaintext header of an image of version `v`. -/
def Header.bytesAt (v : UInt16) (h : Header) : Bytes :=
  magic.1 ++ (u16le v).1 ++ [kdfArgon2idV13] ++ (u32le h.kdf.mCostKib).1 ++
    (u32le h.kdf.tCost).1 ++ (u32le h.kdf.pCost).1 ++ h.salt.1 ++ h.nonce.1

theorem headerBytes_eq (h : Header) : headerBytes h.kdf h.salt h.nonce = h.bytesAt version := rfl

theorem eq_zero_of_any {n : ℕ} {b : Block n} (h : ¬ b.1.any (· ≠ 0) = true) : b = .zero n := by
  refine Block.ext (List.eq_replicate_iff.mpr ⟨b.2, fun x hx => ?_⟩)
  by_contra hne
  exact h (List.any_eq_true.mpr ⟨x, hx, decide_eq_true hne⟩)

/-! ## The fields of a record -/

/-- The seventeen bytes of the figures are those of the figures they are read as. -/
theorem figures_written {c c' : Cursor} {raw : Option (UInt8 × UInt64 × UInt64)}
    {figures : Option Figures} {at' : ℕ} (htake : takeFigures version c = .ok (raw, c'))
    (hcheck : checkFigures at' raw = .ok figures) :
    c.rest = figuresBytes figures ++ c'.rest ∧
      ∃ flag, raw.map (·.1) = some flag ∧ (flag = 0 → figures = none) := by
  rw [takeFigures, if_neg version_ne_v3] at htake
  obtain ⟨⟨flag, c1⟩, hflag, htake⟩ := bind_eq_ok.mp htake
  obtain ⟨⟨balance, c2⟩, hbalance, htake⟩ := bind_eq_ok.mp htake
  obtain ⟨⟨expiry, c3⟩, hexpiry, htake⟩ := bind_eq_ok.mp htake
  cases htake
  have hrest : c.rest = flag :: (balance.1 ++ (expiry.1 ++ c'.rest)) := by
    rw [(Cursor.takeByte_eq_ok hflag).1, (Cursor.take_eq_ok hbalance).1,
      (Cursor.take_eq_ok hexpiry).1]
  have hbytes {v : UInt64} {b : Block 8} (h : ofU64le b = v) : b = u64le v := by
    rw [← h, u64le_ofU64le]
  unfold checkFigures at hcheck
  dsimp only at hcheck
  split at hcheck
  · next hzero =>
    split at hcheck <;> cases hcheck
    next hnone =>
    refine ⟨?_, flag, rfl, fun _ => rfl⟩
    have h0 : u64le 0 = .zero 8 := by decide
    rw [hrest, hzero, hbytes hnone.1, hbytes hnone.2, h0]
    rfl
  next hnonzero =>
  split at hcheck <;> cases hcheck
  next hone =>
  refine ⟨?_, flag, rfl, fun h => absurd h hnonzero⟩
  rw [hrest, hone, figuresBytes, u64le_ofU64le, u64le_ofU64le]
  simp only [List.append_assoc, List.cons_append, List.nil_append]

theorem master_written {at' : ℕ} {flag : UInt8} {bytes : Secret} {master : Option Secret}
    (h : checkMaster at' flag bytes = .ok master) (generation : UInt64) (count : ℕ) :
    bodyHeaderBytes generation count master =
      (u64le generation).1 ++ ((u32le (.ofNat count)).1 ++ (flag :: bytes.1)) := by
  unfold checkMaster at h
  split at h
  · next hflag =>
    split at h <;> cases h
    next hzero =>
    rw [hflag, eq_zero_of_any hzero]
    simp only [bodyHeaderBytes, List.append_assoc, List.cons_append, List.nil_append]
  split at h <;> cases h
  next hflag =>
  rw [hflag]
  simp only [bodyHeaderBytes, List.append_assoc, List.cons_append, List.nil_append]

section
variable [Crypto]

/-- The block a record's state byte and fields are read as is written as they are. -/
theorem block_written {at' : ℕ} {flag figuresFlag : UInt8} {index : WotsIndex} {spent : UInt32}
    {digest : Digest} {figures : Option Figures} {pending settled : Option Pending}
    (hfigures : figuresFlag = 0 → figures = none)
    (h : checkBlock version at' flag index spent digest (some figuresFlag) figures =
      .ok (pending, settled)) (tag : Tag) (account : Account) :
    blockBytes (blockOf ⟨tag, account, index, pending, settled⟩).1
        (blockOf ⟨tag, account, index, pending, settled⟩).2 =
      flag :: ((u32le spent).1 ++ (digest.1 ++ figuresBytes figures)) := by
  unfold checkBlock at h
  split at h
  · next hflag =>
    split at h <;> cases h
    next hzero =>
    simp only [not_or, Decidable.not_not, Option.any_some, decide_not, Bool.not_eq_true',
      decide_eq_false_iff_not] at hzero
    obtain ⟨hspent, hdigest, hnone⟩ := hzero
    have h0 : u32le 0 = .zero 4 := by decide
    rw [hflag, hspent, hdigest, hfigures hnone, h0]
    rfl
  split at h
  · split at h
    · cases h
    split at h <;> cases h
    · next hone =>
      rw [hone]
      simp only [blockOf, blockBytes, List.append_assoc, List.cons_append, List.nil_append]
    · next hstate _ hone =>
      rw [(hstate.resolve_left hone).1]
      simp only [blockOf, blockBytes, List.append_assoc, List.cons_append, List.nil_append]
  · cases h

/-- The kind, body and first key a record's account is built from are that account's. -/
theorem key_written {at' : ℕ} {kind : UInt8} {tag : Tag} {body : Block 32}
    {first : Block firstKeyLen} {stream : StreamId} {index : WotsIndex} {record : AccountRecord}
    {account : Account} (hkind : checkKind at' kind tag body first stream index = .ok record)
    (hrestore : restoreRecord at' record = .ok account) :
    keyBytes account.key = kind :: (body.1 ++ first.1) ∧ account.key.stream = stream := by
  have hok : Account.restoreFromRecord record = .ok account := by
    unfold restoreRecord at hrestore
    split at hrestore <;> cases hrestore
    assumption
  clear hrestore
  unfold checkKind at hkind
  split at hkind
  · next hderived =>
    split at hkind
    · cases hkind
    next hpadding =>
    split at hkind <;> cases hkind
    next hfirst =>
    cases hok
    have hsplit : (body.slice 0 4).1 ++ (Block.zero 28).1 = body.1 := by
      have happend := congrArg Block.bytes (Block.append_slice (m := 4) (n := 28) body
        (by decide) (by decide))
      rw [← eq_zero_of_any hpadding]
      exact happend
    refine ⟨?_, rfl⟩
    rw [hderived, eq_zero_of_any hfirst, ← hsplit]
    simp only [keyBytes, u32le_ofU32le, List.append_assoc, List.cons_append, List.nil_append]
  split at hkind <;> cases hkind
  next himported =>
  unfold Account.restoreFromRecord at hok
  dsimp only at hok
  split at hok
  · cases hok
  split at hok <;> cases hok
  next hstream =>
  refine ⟨?_, Decidable.not_not.mp hstream⟩
  rw [himported, keyBytes, toBytes_firstKeyFrom]
  simp only [List.cons_append, List.nil_append]

/-- The bytes a record was read from are those its slot is written as. -/
theorem record_written {prev : Option Tag} {c c' : Cursor} {tag : Tag} {slot : Slot}
    (h : parseRecord version prev c = .ok ((tag, slot), c')) :
    c.rest = recordBytes (recordOf (tag, slot)) ++ c'.rest ∧ ∀ p ∈ prev, p < tag := by
  obtain ⟨f, hf⟩ := fields_of_parseRecord h
  obtain ⟨mid, hraw, hrest⟩ := hf.read
  obtain ⟨figures, hfigures, hblock⟩ := hf.block
  obtain ⟨record, hkind, hrestore⟩ := hf.account
  obtain ⟨hmid, figuresFlag, hmap, hnone⟩ := figures_written hraw hfigures
  rw [hmap] at hblock
  obtain ⟨hkey, hstream⟩ := key_written hkind hrestore
  have hindex : slot.account.wotsIndex = ⟨ofU32le f.index⟩ := by
    rw [(restoreRecord_tag hrestore).2, (checkKind_tag hkind).2]
  have hwritten : recordBytes (recordOf (tag, slot)) = tag.1 ++ (f.kind :: (f.body.1 ++
      (f.first.1 ++ (f.stream.1 ++ (f.index.1 ++ (f.flag ::
        (f.spent.1 ++ (f.digest.1 ++ figuresBytes figures)))))))) := by
    rw [recordBytes, recordOf, hindex, block_written hnone hblock, hkey, hstream, u32le_ofU32le,
      u32le_ofU32le]
    simp only [List.append_assoc, List.cons_append]
  refine ⟨?_, hf.ascending⟩
  rw [hwritten, hrest, hmid]
  simp only [List.append_assoc, List.cons_append]

/-! ## The body -/

theorem records_written {count : ℕ} {prev : Option Tag} {m m' : OrdMap Tag Slot} {c c' : Cursor}
    (h : parseRecords version count prev m c = .ok (m', c'))
    (hm : ∀ e ∈ m.entries, ∃ p ∈ prev, e.1 ≤ p) :
    ∃ es : List (Tag × Slot), m'.entries = m.entries ++ es ∧ es.length = count ∧
      c.rest = (es.map recordOf).flatMap recordBytes ++ c'.rest := by
  induction count generalizing prev m c with
  | zero =>
    cases h
    exact ⟨[], (List.append_nil _).symm, rfl, rfl⟩
  | succ count ih =>
    obtain ⟨⟨⟨tag, slot⟩, c1⟩, hrecord, h⟩ := bind_eq_ok.mp h
    obtain ⟨hrest, hprev⟩ := record_written hrecord
    have hlast : (m.insert tag slot).entries = m.entries ++ [(tag, slot)] :=
      OrdMap.entries_insert_last (fun e he => by
        obtain ⟨p, hp, hle⟩ := hm e he
        exact lt_of_le_of_lt hle (hprev p hp)) slot
    obtain ⟨es, hentries, hlen, hrest'⟩ := ih h fun e he => by
      rw [hlast, List.mem_append, List.mem_singleton] at he
      rcases he with he | rfl
      · obtain ⟨p, hp, hle⟩ := hm e he
        exact ⟨tag, rfl, hle.trans (hprev p hp).le⟩
      · exact ⟨tag, rfl, le_rfl⟩
    refine ⟨(tag, slot) :: es, ?_, by rw [List.length_cons, hlen], ?_⟩
    · rw [hentries, hlast, List.append_assoc, List.singleton_append]
    · rw [hrest, hrest', List.map_cons, List.flatMap_cons, List.append_assoc]

/-- An accepted body is the body of its state. -/
theorem body_written {body : Bytes} {p : Parsed} (h : parseBody version body = .ok p) :
    body = bodyHeaderBytes p.generation (recordsOf p.slots).length p.master ++
      (recordsOf p.slots).flatMap recordBytes := by
  obtain ⟨count, flag, bytes, hread⟩ := read_of_parseBody h
  obtain ⟨at', hmaster⟩ := hread.master
  obtain ⟨c, c', hparse, hend, hbody⟩ := hread.records
  obtain ⟨es, hentries, hlen, hrest⟩ := records_written hparse fun e he => by cases he
  have hslots : recordsOf p.slots = es.map recordOf := by
    rw [recordsOf, hentries]
    rfl
  have hcount : u32le (.ofNat es.length) = count := by
    rw [hlen, UInt32.ofNat_toNat, u32le_ofU32le]
  rw [hslots, List.length_map, master_written hmaster, hcount, hbody, hrest, hend,
    List.append_nil]
  simp only [List.append_assoc, List.cons_append]

/-! ## The image -/

omit [Crypto] in
theorem length_bytesAt (v : UInt16) (h : Header) : (h.bytesAt v).length = headerLen := by
  simp [Header.bytesAt, Block.length_eq, headerLen, saltLen, nonceLen]

/-- What an accepted header was read from, and how long what follows it is. -/
structure Framed.Of (f : Framed) (image : Bytes) : Prop where
  image_eq : image = f.header.bytesAt f.version ++ f.ciphertext ++ f.tag.1
  aad_eq : f.aad = f.header.bytesAt f.version
  known : f.version = Keystore.version ∨ f.version = v3Version
  checked : f.header.kdf.checked = .ok f.header.kdf
  most : image.length ≤ maxImageLen
  body : bodyHeaderLen ≤ f.ciphertext.length

theorem header_written {image : Bytes} {f : Framed} (h : readHeader image = .ok f) : f.Of image := by
  unfold readHeader at h
  split at h
  · cases h
  next hmost =>
  split at h
  · cases h
  next hshort =>
  dsimp only at h
  obtain ⟨⟨m, c1⟩, hm, h⟩ := bind_eq_ok.mp h
  dsimp only at h
  split at h
  · cases h
  next hmagic =>
  obtain ⟨⟨v, c2⟩, hv, h⟩ := bind_eq_ok.mp h
  dsimp only at h
  split at h
  · cases h
  next hversion =>
  obtain ⟨⟨kdfId, c3⟩, hkdfId, h⟩ := bind_eq_ok.mp h
  dsimp only at h
  split at h
  · cases h
  next hid =>
  obtain ⟨⟨mCost, c4⟩, hmCost, h⟩ := bind_eq_ok.mp h
  obtain ⟨⟨tCost, c5⟩, htCost, h⟩ := bind_eq_ok.mp h
  obtain ⟨⟨pCost, c6⟩, hpCost, h⟩ := bind_eq_ok.mp h
  obtain ⟨kdf, hkdf, h⟩ := bind_eq_ok.mp h
  obtain ⟨⟨salt, c7⟩, hsalt, h⟩ := bind_eq_ok.mp h
  obtain ⟨⟨nonce, c8⟩, hnonce, h⟩ := bind_eq_ok.mp h
  obtain ⟨⟨⟩, -, h⟩ := bind_eq_ok.mp h
  dsimp only at h
  split at h
  · cases h
  next hbody =>
  cases h
  cases Kdf.checked_eq_ok hkdf
  rw [not_not] at hmagic hid
  have hfront : image.take (image.length - trailerLen) = m.1 ++ c1.rest := (Cursor.take_eq_ok hm).1
  have hfields : image.take (image.length - trailerLen) = (Header.bytesAt (ofU16le v)
      ⟨⟨ofU32le mCost, ofU32le tCost, ofU32le pCost⟩, salt, nonce⟩) ++ c8.rest := by
    rw [hfront, (Cursor.take_eq_ok hv).1, (Cursor.takeByte_eq_ok hkdfId).1,
      (Cursor.take_eq_ok hmCost).1, (Cursor.take_eq_ok htCost).1, (Cursor.take_eq_ok hpCost).1,
      (Cursor.take_eq_ok hsalt).1, (Cursor.take_eq_ok hnonce).1, hmagic, hid]
    simp only [Header.bytesAt, u16le_ofU16le, u32le_ofU32le, List.append_assoc, List.cons_append,
      List.nil_append]
  have htake : (image.take (image.length - trailerLen)).take headerLen = Header.bytesAt (ofU16le v)
      ⟨⟨ofU32le mCost, ofU32le tCost, ofU32le pCost⟩, salt, nonce⟩ := by
    rw [hfields, List.take_left' (length_bytesAt ..)]
  refine ⟨?_, htake, ?_, hkdf, not_lt.mp hmost, not_lt.mp hbody⟩
  · show image = _ ++ (image.take _).drop headerLen ++ image.drop _
    rw [← htake, List.take_append_drop, List.take_append_drop]
  · by_contra hneither
    exact hversion (not_or.mp hneither)

/-! ## Encoding -/

/-- The encoder refuses no state that is well formed and sealed. -/
theorem encode_of_seal {rs : List RecordRef} {generation : UInt64} {master : Option Secret}
    {kdf : Kdf} {salt : Block saltLen} {key : Block keyLen} {nonce : Block nonceLen}
    (hn : rs.length ≤ maxAccounts) (hk : kdf.checked = .ok kdf) (hw : ∀ r ∈ rs, r.slot.Wf)
    (hs : rs.Pairwise fun a b => a.tag < b.tag) {ciphertext : Bytes} {tag : Block tagLen}
    (hseal : Crypto.aeadSeal key nonce (headerBytes kdf salt nonce)
      (bodyHeaderBytes generation rs.length master ++ rs.flatMap recordBytes) = some (ciphertext, tag))
    (hlen : ciphertext.length = rs.length * recordLen + bodyHeaderLen) :
    encode rs generation master kdf salt key nonce =
      .ok (headerBytes kdf salt nonce ++ ciphertext ++ tag.1) := by
  have hrecords : encodeRecords (headerBytes kdf salt nonce ++
      bodyHeaderBytes generation rs.length master) none rs = .ok (headerBytes kdf salt nonce ++
        bodyHeaderBytes generation rs.length master ++ rs.flatMap recordBytes) :=
    encodeRecords_eq_ok.mpr ⟨rfl, hw, hs, fun p hp => by cases hp⟩
  have hsealed : (headerBytes kdf salt nonce ++ ciphertext ++ tag.1).length =
      rs.length * recordLen + bodyHeaderLen + headerLen + trailerLen := by
    have htag : tag.1.length = trailerLen := tag.2
    rw [List.length_append, List.length_append, length_headerBytes, hlen, htag]
    omega
  rw [encode, if_neg (not_lt.mpr hn), imageLen_eq hn]
  simp only [hk, ok_bind, length_headerBytes, lenMatches, if_true, hrecords]
  rw [List.append_assoc (headerBytes kdf salt nonce), ← length_headerBytes kdf salt nonce,
    List.drop_left, aeadSeal, hseal]
  simp only [ok_bind, hsealed, length_headerBytes, if_true]

/-- Every list of well-formed records in tag order is encoded, and its image read back as it. -/
theorem snapshot_round_trip (hl : Crypto.Lawful) (hshort : Crypto.TakesShort) {rs : List RecordRef}
    (generation : UInt64) (master : Option Secret) {kdf : Kdf} (salt : Block saltLen)
    (key : Block keyLen) (nonce : Block nonceLen) (hn : rs.length ≤ maxAccounts)
    (hk : kdf.checked = .ok kdf) (htags : ∀ r ∈ rs, r.account.tag = r.tag)
    (hw : ∀ r ∈ rs, r.slot.Wf) (hs : rs.Pairwise fun a b => a.tag < b.tag) :
    ∃ image slots, encode rs generation master kdf salt key nonce = .ok image ∧
      parseWithKey image key = .ok ⟨generation, slots, master⟩ ∧
      slots.entries = rs.map fun r => (r.tag, r.slot) := by
  have hbody : (bodyHeaderBytes generation rs.length master ++ rs.flatMap recordBytes).length =
      rs.length * recordLen + bodyHeaderLen := by
    rw [List.length_append, length_bodyHeaderBytes, length_flatMap_recordBytes, Nat.add_comm]
  have hsome := hshort key nonce (headerBytes kdf salt nonce)
    (bodyHeaderBytes generation rs.length master ++ rs.flatMap recordBytes) (by
      have hrec : recordLen = 195 := rfl
      have hhead : bodyHeaderLen = 45 := rfl
      simp only [maxAccounts] at hn
      rw [hbody, hrec, hhead]
      omega)
  obtain ⟨⟨ciphertext, tag⟩, hseal⟩ := Option.isSome_iff_exists.mp hsome
  have hencode := encode_of_seal hn hk hw hs hseal ((hl.length_seal hseal).trans hbody)
  obtain ⟨-, slots, -, -, -, -, hslots, hparse⟩ := parseWithKey_encode hl htags hencode
  exact ⟨_, slots, hencode, hparse, hslots⟩

/-- The state of a well-formed store is sealed. -/
theorem imageOf_ok (hl : Crypto.Lawful) (hshort : Crypto.TakesShort) {crypto : StoreCrypto} {p : Parsed}
    (hk : crypto.kdf.checked = .ok crypto.kdf) (hp : p.Wf) : ∃ image, imageOf crypto p = .ok image := by
  have hmem {r : RecordRef} (hr : r ∈ recordsOf p.slots) :
      ∃ e, p.slots.get? e.1 = some e.2 ∧ recordOf e = r := by
    obtain ⟨e, he, rfl⟩ := List.mem_map.mp hr
    exact ⟨e, OrdMap.mem_entries_iff.mp he, rfl⟩
  obtain ⟨image, -, himage, -⟩ := snapshot_round_trip hl hshort p.generation p.master crypto.salt
    crypto.key (nonceFor crypto.nonceSeed p.generation) (by
      rw [recordsOf, List.length_map]
      exact hp.size) hk (fun r hr => by
      obtain ⟨e, he, rfl⟩ := hmem hr
      exact hp.tags he) (fun r hr => by
      obtain ⟨e, he, rfl⟩ := hmem hr
      exact hp.slots he) (pairwise_recordsOf p.slots)
  exact ⟨image, himage⟩

/-! ## Canonical images -/

/-- An accepted image is the image of its state under its own header. -/
theorem encode_of_parse (hl : Crypto.Lawful) (hback : Crypto.SealsBack) {image : Bytes} {f : Framed}
    {key : Block keyLen} {p : Parsed} (hread : readHeader image = .ok f) (hv : f.version = version)
    (hparse : parseWithKey image key = .ok p) :
    encode (recordsOf p.slots) p.generation p.master f.header.kdf f.header.salt key
      f.header.nonce = .ok image := by
  obtain ⟨himage, haad, -, hk, -, -⟩ := header_written hread
  have hwf := wf_of_parseWithKey hparse
  rw [parseWithKey, hread, ok_bind] at hparse
  obtain ⟨body, hopen, hparse⟩ := bind_eq_ok.mp hparse
  have hopen : Crypto.aeadOpen key f.header.nonce f.aad f.ciphertext f.tag = some body := by
    unfold aeadOpen at hopen
    split at hopen <;> cases hopen
    assumption
  rw [hv] at hparse haad himage
  have hbody := body_written hparse
  have hseal := hback _ _ _ _ _ _ hopen
  have hlen : f.ciphertext.length = (recordsOf p.slots).length * recordLen + bodyHeaderLen := by
    rw [hl.length_seal hseal, hbody, List.length_append, length_bodyHeaderBytes,
      length_flatMap_recordBytes, Nat.add_comm]
  rw [haad, ← headerBytes_eq, hbody] at hseal
  rw [encode_of_seal (by simpa [recordsOf, OrdMap.size] using hwf.size) hk (fun r hr => ?_)
    (pairwise_recordsOf _) hseal hlen, headerBytes_eq, ← himage]
  obtain ⟨⟨tag, slot⟩, he, rfl⟩ := List.mem_map.mp hr
  exact hwf.slots (OrdMap.mem_entries_iff.mp he)

/-- The count a body states is how long it is. -/
theorem length_of_parseBody {v : UInt16} {body : Bytes} {p : Parsed}
    (h : parseBody v body = .ok p) : ∃ (generation : Block 8) (count : Block 4) (rest : Bytes),
      body = generation.1 ++ (count.1 ++ rest) ∧
        bodyLenAt v (ofU32le count).toNat = some body.length := by
  obtain ⟨count, flag, bytes, hread⟩ := read_of_parseBody h
  obtain ⟨c, c', -, -, hbody⟩ := hread.records
  exact ⟨u64le p.generation, count, _, hbody, hread.length⟩

/-- No accepted body goes on from another. -/
theorem parseBody_unique {v : UInt16} {body body' : Bytes} {p p' : Parsed}
    (h : parseBody v body = .ok p) (h' : parseBody v body' = .ok p') (hfront : body <+: body') :
    body = body' := by
  obtain ⟨generation, count, rest, hbody, hlen⟩ := length_of_parseBody h
  obtain ⟨generation', count', rest', hbody', hlen'⟩ := length_of_parseBody h'
  obtain ⟨more, hmore⟩ := hfront
  have hsame : generation.1 ++ (count.1 ++ (rest ++ more)) = generation'.1 ++ (count'.1 ++ rest') := by
    rw [← hbody', ← hmore, hbody, List.append_assoc, List.append_assoc]
  obtain ⟨-, hsame⟩ := List.append_inj hsame (by rw [generation.2, generation'.2])
  obtain ⟨hcount, -⟩ := List.append_inj hsame (by rw [count.2, count'.2])
  rw [Block.ext hcount, hlen', Option.some.injEq, ← hmore, List.length_append] at hlen
  rw [← hmore, List.eq_nil_of_length_eq_zero (by omega : more.length = 0), List.append_nil]

omit [Crypto] in
theorem bytesAt_injective {v v' : UInt16} {h h' : Header} (heq : h.bytesAt v = h'.bytesAt v') :
    v = v' ∧ h = h' := by
  have hblocks {n : ℕ} {a a' : Bytes} {b b' : Block n} (h : a ++ b.1 = a' ++ b'.1) :
      a = a' ∧ b = b' := by
    obtain ⟨ha, hb⟩ := List.append_inj' h (by rw [b.2, b'.2])
    exact ⟨ha, Block.ext hb⟩
  obtain ⟨heq, hnonce⟩ := hblocks heq
  obtain ⟨heq, hsalt⟩ := hblocks heq
  obtain ⟨heq, hpCost⟩ := hblocks heq
  obtain ⟨heq, htCost⟩ := hblocks heq
  obtain ⟨heq, hmCost⟩ := hblocks heq
  obtain ⟨heq, -⟩ := List.append_inj' heq rfl
  obtain ⟨-, hversion⟩ := hblocks heq
  obtain ⟨⟨mCost, tCost, pCost⟩, salt, nonce⟩ := h
  obtain ⟨⟨mCost', tCost', pCost'⟩, salt', nonce'⟩ := h'
  refine ⟨by simpa using congrArg ofU16le hversion, ?_⟩
  cases u32le_injective hmCost
  cases u32le_injective htCost
  cases u32le_injective hpCost
  cases hsalt
  cases hnonce
  rfl

/-- An accepted body, lengthened or cut short and sealed again, is refused. -/
theorem resealed_refused (hl : Crypto.Lawful) {image : Bytes} {f : Framed} {key : Block keyLen}
    {p : Parsed} {body body' : Bytes} (hread : readHeader image = .ok f)
    (hopen : Crypto.aeadOpen key f.header.nonce f.aad f.ciphertext f.tag = some body)
    (hparse : parseWithKey image key = .ok p) (hne : body' ≠ body)
    (hpart : body' <+: body ∨ body <+: body') {sealed : Bytes × Block 16}
    (hseal : Crypto.aeadSeal key f.header.nonce f.aad body' = some sealed) :
    ∃ e, parseWithKey (f.aad ++ sealed.1 ++ sealed.2.1) key = .error e := by
  rcases hparse' : parseWithKey (f.aad ++ sealed.1 ++ sealed.2.1) key with e | p'
  · exact ⟨e, rfl⟩
  exfalso
  have haad := (header_written hread).aad_eq
  rw [parseWithKey, hread, ok_bind, aeadOpen, hopen, ok_bind] at hparse
  obtain ⟨f', hread', hparse'⟩ := bind_eq_ok.mp hparse'
  obtain ⟨himage', haad', -⟩ := header_written hread'
  rw [haad, List.append_assoc, List.append_assoc] at himage'
  obtain ⟨hheader, hrest⟩ := List.append_inj himage' (by rw [length_bytesAt, length_bytesAt])
  obtain ⟨hciphertext, htag⟩ := List.append_inj' hrest (by rw [sealed.2.2, f'.tag.2])
  obtain ⟨hversion, hsame⟩ := bytesAt_injective hheader
  obtain ⟨opened, hopened, hparse'⟩ := bind_eq_ok.mp hparse'
  have hopened' : aeadOpen key f'.header.nonce f'.aad f'.ciphertext f'.tag = .ok body' := by
    rw [aeadOpen, haad', ← hsame, ← hversion, ← haad, ← hciphertext, ← Block.ext htag,
      hl.open_seal hseal]
  rw [hopened'] at hopened
  cases hopened
  rw [← hversion] at hparse'
  rcases hpart with hpart | hpart
  · exact hne (parseBody_unique hparse' hparse hpart)
  · exact hne (parseBody_unique hparse hparse' hpart).symm

/-- What a version-4 image says and what it is are one: encoding its state under its header gives it
back, no other image under that header says the same, and no body that begins with its own or that
its own begins with is accepted in its place. -/
theorem one_state_one_image (hl : Crypto.Lawful) (hback : Crypto.SealsBack) {image : Bytes}
    {f : Framed} {key : Block keyLen} {p : Parsed} (hread : readHeader image = .ok f)
    (hv : f.version = version) (hparse : parseWithKey image key = .ok p) :
    encode (recordsOf p.slots) p.generation p.master f.header.kdf f.header.salt key
        f.header.nonce = .ok image ∧
      (∀ image' f', readHeader image' = .ok f' → f'.version = version → f'.header = f.header →
        parseWithKey image' key = .ok p → image' = image) ∧
      ∀ body body' sealed,
        Crypto.aeadOpen key f.header.nonce f.aad f.ciphertext f.tag = some body → body' ≠ body →
        (body' <+: body ∨ body <+: body') →
        Crypto.aeadSeal key f.header.nonce f.aad body' = some sealed →
        ∃ e, parseWithKey (f.aad ++ sealed.1 ++ sealed.2.1) key = .error e := by
  have hencode := encode_of_parse hl hback hread hv hparse
  refine ⟨hencode, fun image' f' hread' hv' hheader hparse' => ?_,
    fun body body' sealed hopen hne hpart hseal =>
      resealed_refused hl hread hopen hparse hne hpart hseal⟩
  have hencode' := encode_of_parse hl hback hread' hv' hparse'
  rw [hheader, hencode] at hencode'
  exact (Except.ok.inj hencode').symm

end

/-! ## An open reservation, and an import beside it -/

section
attribute [local instance] Crypto.plain

/-- An account at its second position, its first key reserved. -/
def reservedRecord : RecordRef :=
  ⟨.zero addrTagLen, ⟨.zero addrTagLen, .derived 0 ⟨.zero addrTagLen⟩, ⟨1⟩, trivial⟩, ⟨1⟩,
    some ⟨⟨0⟩, .zero 32, some ⟨5, 6⟩⟩, none⟩

theorem snapshot_round_trip_reserved :
    ∃ image slots, encode [reservedRecord] 3 none ⟨8, 1, 1⟩ (.zero 16) (.zero 32) (.zero 12) =
        .ok image ∧ parseWithKey image (.zero 32) = .ok ⟨3, slots, none⟩ ∧
      slots.entries = [(.zero addrTagLen, reservedRecord.slot)] := by
  have hn : [reservedRecord].length ≤ maxAccounts := by decide
  refine snapshot_round_trip Crypto.plain_lawful Crypto.plain_takesShort 3 none (.zero 16)
    (.zero 32) (.zero 12) hn rfl ?_ ?_ (List.pairwise_singleton _ _)
  · exact fun r hr => by rw [List.mem_singleton.mp hr]; rfl
  · intro r hr
    rw [List.mem_singleton.mp hr]
    exact ⟨.inr rfl, fun b hb => by cases hb; rfl, fun b hb => by cases hb⟩

end

section
attribute [local instance] Crypto.tagged

def fours : FirstKey := ⟨.replicate seedLen 4, ⟨[4, 0, 0, 0, 0, 0, 0, 0], rfl⟩⟩

/-- An import that settled its first key, and a derived account whose first key is reserved. -/
def heldRecords : List RecordRef :=
  [⟨.zero addrTagLen, Account.ofFirst (.replicate seedLen 9) fours, ⟨1⟩, none, some ⟨⟨0⟩, .zero 32, none⟩⟩,
    ⟨.replicate addrTagLen 1, ⟨.replicate addrTagLen 1, .derived 0 ⟨.zero addrTagLen⟩, ⟨1⟩, trivial⟩, ⟨1⟩,
      some ⟨⟨0⟩, .replicate 32 6, some ⟨5, 6⟩⟩, none⟩]

def heldBody : Bytes :=
  bodyHeaderBytes 3 2 (some (.replicate seedLen 7)) ++ heldRecords.flatMap recordBytes

/-- The plain image of a body. -/
def plainImage (body : Bytes) : Bytes :=
  headerBytes ⟨8, 1, 1⟩ (.zero 16) (.zero 12) ++ body ++ (Block.zero 16).1

theorem readHeader_plainImage {body : Bytes} (hleast : bodyHeaderLen ≤ body.length)
    (hmost : (plainImage body).length ≤ maxImageLen) : readHeader (plainImage body) =
      .ok ⟨version, ⟨⟨8, 1, 1⟩, .zero 16, .zero 12⟩, headerBytes ⟨8, 1, 1⟩ (.zero 16) (.zero 12), body,
        .zero 16⟩ :=
  readHeader_written rfl (.zero 16) (.zero 12) hleast (.zero 16) hmost

theorem parseWithKey_heldBody : ∃ slots, slots.entries = heldRecords.map (fun r => (r.tag, r.slot)) ∧
    parseWithKey (plainImage heldBody) (.zero 32) = .ok ⟨3, slots, some (.replicate seedLen 7)⟩ := by
  have hn : heldRecords.length ≤ maxAccounts := by decide
  have hkdf : (⟨8, 1, 1⟩ : Kdf).checked = .ok ⟨8, 1, 1⟩ := rfl
  have htags : ∀ r ∈ heldRecords, r.account.tag = r.tag := by
    intro r hr
    rcases List.mem_pair.mp hr with rfl | rfl <;> rfl
  have hwf : ∀ r ∈ heldRecords, r.slot.Wf := by
    intro r hr
    rcases List.mem_pair.mp hr with rfl | rfl
    · exact ⟨.inl rfl, fun b hb => (by cases hb), fun b hb => by cases hb; rfl⟩
    · exact ⟨.inr rfl, fun b hb => by cases hb; rfl, fun b hb => by cases hb⟩
  have hsorted : heldRecords.Pairwise fun a b => a.tag < b.tag := by
    refine List.pairwise_pair.mpr ?_
    decide
  obtain ⟨image, slots, hencode, hparse, hentries⟩ := snapshot_round_trip Crypto.tagged_lawful
    (fun _ _ _ _ _ => rfl) 3 (some (.replicate seedLen 7)) (.zero 16) (.zero 32) (.zero 12) hn hkdf htags
    hwf hsorted
  have himage : encode heldRecords 3 (some (.replicate seedLen 7)) ⟨8, 1, 1⟩ (.zero 16) (.zero 32)
      (.zero 12) = .ok (plainImage heldBody) := by decide +kernel
  rw [himage] at hencode
  cases hencode
  exact ⟨slots, hentries, hparse⟩

/-- The image is the encoder's own. With a byte of padding set it says something else or nothing, and with
its last byte cut off, or one byte more, its body is refused. -/
theorem one_state_one_image_held : ∃ slots, slots.entries = heldRecords.map (fun r => (r.tag, r.slot)) ∧
    parseWithKey (plainImage heldBody) (.zero 32) = .ok ⟨3, slots, some (.replicate seedLen 7)⟩ ∧
    encode (recordsOf slots) 3 (some (.replicate seedLen 7)) ⟨8, 1, 1⟩ (.zero 16) (.zero 32) (.zero 12) =
      .ok (plainImage heldBody) ∧
    parseWithKey (plainImage (heldBody.set 340 1)) (.zero 32) ≠
      .ok ⟨3, slots, some (.replicate seedLen 7)⟩ ∧
    (∃ e, parseWithKey (plainImage heldBody.dropLast) (.zero 32) = .error e) ∧
    ∃ e, parseWithKey (plainImage (heldBody ++ [0])) (.zero 32) = .error e := by
  obtain ⟨slots, hentries, hparse⟩ := parseWithKey_heldBody
  have hlen : bodyHeaderLen ≤ heldBody.length := by decide +kernel
  have hset : bodyHeaderLen ≤ (heldBody.set 340 1).length := by decide +kernel
  have hread := readHeader_plainImage hlen (by decide +kernel)
  obtain ⟨hencode, hother, hbody⟩ := one_state_one_image Crypto.tagged_lawful Crypto.tagged_sealsBack
    hread rfl hparse
  refine ⟨slots, hentries, hparse, hencode, fun hsame => ?_, ?_, ?_⟩
  · have hne : plainImage (heldBody.set 340 1) ≠ plainImage heldBody := by decide +kernel
    exact hne (hother _ _ (readHeader_plainImage hset (by decide +kernel)) rfl rfl hsame)
  · exact hbody heldBody _ (heldBody.dropLast, .zero 16) rfl (by decide +kernel)
      (.inl (List.dropLast_prefix _)) rfl
  · exact hbody heldBody _ (heldBody ++ [0], .zero 16) rfl (by decide +kernel)
      (.inr (List.prefix_append _ _)) rfl

end

end MochimoWallet.Keystore
