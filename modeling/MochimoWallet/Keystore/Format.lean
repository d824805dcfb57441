import MochimoWallet.Keystore.Crypt
import MochimoWallet.Lib.OrdMap

/-!
# The snapshot format

One image holds the whole store: a plaintext header the reader needs before it can
decrypt, then the sealed body (generation, count, master seed and one fixed-width
record for each account in tag order), then the cipher's tag. `encode` writes
version 4; `parseWithKey` reads versions 3 and 4. The parser goes through a bounded
cursor and refuses at the offset it stopped at.
-/

namespace MochimoWallet.Keystore

open Codec

/-- `MCMKSTOR`. -/
def magic : Block 8 := ⟨[0x4D, 0x43, 0x4D, 0x4B, 0x53, 0x54, 0x4F, 0x52], rfl⟩

abbrev version : UInt16 := 4
abbrev v3Version : UInt16 := 3
abbrev headerLen : ℕ := 8 + 2 + 1 + 4 + 4 + 4 + saltLen + nonceLen
abbrev bodyHeaderLen : ℕ := 8 + 4 + 1 + seedLen
abbrev recordLen : ℕ :=
  addrTagLen + 1 + 32 + firstKeyLen + addrTagLen + 4 + 1 + 4 + 32 + 1 + 8 + 8
abbrev v3RecordLen : ℕ := 178
abbrev trailerLen : ℕ := tagLen
/-- The most accounts one snapshot holds. -/
abbrev maxAccounts : ℕ := 65536
abbrev maxImageLen : ℕ := headerLen + bodyHeaderLen + maxAccounts * recordLen + trailerLen
abbrev minImageLen : ℕ := headerLen + bodyHeaderLen + trailerLen

abbrev kindDerived : UInt8 := 0
abbrev kindImported : UInt8 := 1

/-! ## The parsed state -/

/-- The figures of a reserved spend, recorded beside its digest. -/
structure Figures where
  reservedBalance : UInt64
  blkToLive : UInt64
  deriving DecidableEq

/-- A reserved key: open, or retained after it settled. -/
structure Pending where
  spentIndex : WotsIndex
  digest : Digest
  figures : Option Figures
  deriving DecidableEq

variable [Crypto]

structure Slot where
  account : Account
  pending : Option Pending
  settled : Option Pending

/-- What the encoder reads of one record: the account, and the index and blocks the caller may be
overriding for the record it is about to commit. -/
structure RecordRef where
  tag : Tag
  account : Account
  wotsIndex : WotsIndex
  pending : Option Pending
  settled : Option Pending

structure Parsed where
  generation : UInt64
  slots : OrdMap Tag Slot
  master : Option Secret

/-! ## Lengths -/

/-- A length that fits the machine's `usize`. -/
def usize (n : ℕ) : Option ℕ := if n < 2 ^ 64 then some n else none

def recordLenAt (v : UInt16) : ℕ := if v = v3Version then v3RecordLen else recordLen

def bodyLenAt (v : UInt16) (count : ℕ) : Option ℕ := do
  let records ← usize (count * recordLenAt v)
  usize (records + bodyHeaderLen)

def bodyLen (count : ℕ) : Option ℕ := bodyLenAt version count

def imageLen (count : ℕ) : Option ℕ := do
  let body ← bodyLen count
  let headed ← usize (body + headerLen)
  usize (headed + trailerLen)

/-! ## Encoding -/

def lenMatches (written expected : ℕ) : Except Error Unit :=
  if written = expected then .ok ()
  else .error (.corrupt "encoded length disagrees with the closed formula" written)

/-- The plaintext header, which is also the cipher's associated data. -/
def headerBytes (kdf : Kdf) (salt : Block saltLen) (nonce : Block nonceLen) : Bytes :=
  magic.1 ++ (u16le version).1 ++ [kdfArgon2idV13] ++ (u32le kdf.mCostKib).1 ++
    (u32le kdf.tCost).1 ++ (u32le kdf.pCost).1 ++ salt.1 ++ nonce.1

def bodyHeaderBytes (generation : UInt64) (count : ℕ) (master : Option Secret) : Bytes :=
  (u64le generation).1 ++ (u32le (.ofNat count)).1 ++
    match master with
    | none => [0] ++ (Block.zero seedLen).1
    | some m => [1] ++ m.1

/-- Kind, body and first key of a record. -/
def keyBytes : KeyMaterial → Bytes
  | .derived accountIndex _ =>
    [kindDerived] ++ (u32le accountIndex).1 ++ (Block.zero 28).1 ++ (Block.zero firstKeyLen).1
  | .imported root first _ => [kindImported] ++ root.1 ++ first.toBytes.1

def figuresBytes : Option Figures → Bytes
  | none => [0] ++ (Block.zero 8).1 ++ (Block.zero 8).1
  | some f => [1] ++ (u64le f.reservedBalance).1 ++ (u64le f.blkToLive).1

/-- The reservation block under its state byte. -/
def blockBytes (state : UInt8) : Option Pending → Bytes
  | none => [0] ++ (Block.zero 4).1 ++ (Block.zero 32).1 ++ figuresBytes none
  | some p => [state] ++ (u32le p.spentIndex.raw).1 ++ p.digest.1 ++ figuresBytes p.figures

/-- The state byte of a record, and the block it stands before. -/
def blockOf (r : RecordRef) : UInt8 × Option Pending :=
  match r.pending, r.settled with
  | some p, none => (1, some p)
  | none, some s => (2, some s)
  | _, _ => (0, none)

def recordBytes (r : RecordRef) : Bytes :=
  r.tag.1 ++ keyBytes r.account.key ++ r.account.key.stream.bytes.1 ++ (u32le r.wotsIndex.raw).1 ++
    blockBytes (blockOf r).1 (blockOf r).2

/-- Append the records to `image`, refusing what has no reading back. -/
def encodeRecords : Bytes → Option Tag → List RecordRef → Except Error Bytes
  | image, _, [] => .ok image
  | image, prev, r :: records =>
    let recordOffset := image.length
    if prev.any (fun p => r.tag ≤ p) then
      .error (.corrupt "records not strictly ascending by tag" recordOffset)
    else if r.pending.isSome && r.settled.isSome then
      .error (.corrupt "both an open and a settled reservation in one record" recordOffset)
    else if (blockOf r).2.any fun p => p.spentIndex.advanced.toOption ≠ some r.wotsIndex then
      .error (.corrupt "pending index does not precede wots_index by one" recordOffset)
    else encodeRecords (image ++ recordBytes r) (some r.tag) records

/-- A sorted, duplicate-free record list as its canonical image. -/
def encode (records : List RecordRef) (generation : UInt64) (master : Option Secret) (kdf : Kdf)
    (salt : Block saltLen) (key : Block keyLen) (nonce : Block nonceLen) : Except Error Bytes := do
  if records.length > maxAccounts then
    .error (.range "keystore account count" 0 maxAccounts records.length)
  else
  match imageLen records.length with
  | none => .error (.corrupt "image length overflow" 0)
  | some len =>
  let kdf ← kdf.checked
  let header := headerBytes kdf salt nonce
  lenMatches header.length headerLen
  let image ← encodeRecords (header ++ bodyHeaderBytes generation records.length master) none records
  let body := image.drop headerLen
  let (ciphertext, tag) ← aeadSeal key nonce header body
  let image := header ++ ciphertext ++ tag.1
  lenMatches image.length len
  .ok image

/-! ## The cursor -/

structure Cursor where
  rest : Bytes
  offset : ℕ

namespace Cursor

/-- The next `n` bytes, or a refusal at the offset the cursor stopped at. -/
def take (c : Cursor) (n : ℕ) (what : String) : Except Error (Block n × Cursor) :=
  if h : n ≤ c.rest.length then
    .ok (⟨c.rest.take n, List.length_take_of_le h⟩, ⟨c.rest.drop n, c.offset + n⟩)
  else .error (.corrupt what c.offset)

def takeByte (c : Cursor) (what : String) : Except Error (UInt8 × Cursor) :=
  match c.rest with
  | b :: rest => .ok (b, ⟨rest, c.offset + 1⟩)
  | [] => .error (.corrupt what c.offset)

end Cursor

/-! ## Reading the header -/

structure Header where
  kdf : Kdf
  salt : Block saltLen
  nonce : Block nonceLen
  deriving DecidableEq

/-- An image split into its regions. -/
structure Framed where
  version : UInt16
  header : Header
  aad : Bytes
  ciphertext : Bytes
  tag : Block trailerLen

/-- The first record's tag and kind of an image of version 1 or 2, when its length is that
version's own. -/
def olderFirstAccount (v : UInt16) (image : Bytes) : Option (Tag × AccountKind) := do
  let oldRecordLen ← if v = 1 then some 94 else if v = 2 then some 178 else none
  let c : Cursor := ⟨image, 0⟩
  let (_, c) ← (c.take 8 "magic").toOption
  let (_, c) ← (c.take 2 "version").toOption
  let (_, c) ← (c.take 8 "generation").toOption
  let (count, c) ← (c.take 4 "count").toOption
  let count := (ofU32le count).toNat
  let expected ← usize (count * oldRecordLen + 22 + 32)
  if count = 0 ∨ image.length ≠ expected then none
  else
  let (tag, c) ← (c.take addrTagLen "first tag").toOption
  let (kind, _) ← (c.takeByte "first kind").toOption
  if kind = 0 then some (tag, .derived) else if kind = 1 then some (tag, .imported) else none

/-- Read the plaintext header. Nothing here needs the key. -/
def readHeader (image : Bytes) : Except Error Framed := do
  if image.length > maxImageLen then
    .error (.range "keystore image length" minImageLen maxImageLen image.length)
  else
  if h : image.length < trailerLen then .error (.corrupt "tag" image.length)
  else
  let bodyAndHeader := image.take (image.length - trailerLen)
  let tag : Block trailerLen := ⟨image.drop (image.length - trailerLen), by
    rw [List.length_drop]; omega⟩
  let c : Cursor := ⟨bodyAndHeader, 0⟩
  let (m, c) ← c.take 8 "magic"
  if m ≠ magic then .error (.corrupt "magic" 0)
  else
  let (v, c) ← c.take 2 "version"
  let v := ofU16le v
  if v ≠ version ∧ v ≠ v3Version then
    .error (.unsupportedVersion v version (olderFirstAccount v image))
  else
  let (kdfId, c) ← c.takeByte "kdf id"
  if kdfId ≠ kdfArgon2idV13 then
    .error (.unsupportedVersion kdfId.toUInt16 kdfArgon2idV13.toUInt16 none)
  else
  let (mCost, c) ← c.take 4 "kdf m_cost"
  let (tCost, c) ← c.take 4 "kdf t_cost"
  let (pCost, c) ← c.take 4 "kdf p_cost"
  let kdf ← Kdf.checked ⟨ofU32le mCost, ofU32le tCost, ofU32le pCost⟩
  let (salt, c) ← c.take saltLen "kdf salt"
  let (nonce, c) ← c.take nonceLen "nonce"
  lenMatches c.offset headerLen
  let ciphertext := bodyAndHeader.drop headerLen
  if ciphertext.length < bodyHeaderLen then
    .error (.corrupt "ciphertext shorter than a body header" headerLen)
  else
  .ok ⟨v, ⟨kdf, salt, nonce⟩, bodyAndHeader.take headerLen, ciphertext, tag⟩

/-! ## Parsing the body -/

/-- A version-4 record's figures; a version-3 record has none. -/
def takeFigures (v : UInt16) (c : Cursor) :
    Except Error (Option (UInt8 × UInt64 × UInt64) × Cursor) := do
  if v = v3Version then .ok (none, c)
  else
  let (flag, c) ← c.takeByte "figures flag"
  let (reservedBalance, c) ← c.take 8 "reserved_balance"
  let (blkToLive, c) ← c.take 8 "blk_to_live"
  .ok (some (flag, ofU64le reservedBalance, ofU64le blkToLive), c)

/-- The figures' own rules: the flag is 0 or 1, and zero figures under a 0. -/
def checkFigures (recordOffset : ℕ) : Option (UInt8 × UInt64 × UInt64) →
    Except Error (Option Figures)
  | none => .ok none
  | some (flag, reservedBalance, blkToLive) =>
    if flag = 0 then
      if reservedBalance = 0 ∧ blkToLive = 0 then .ok none
      else .error (.corrupt "figures not zero while figures == 0" recordOffset)
    else if flag = 1 then .ok (some ⟨reservedBalance, blkToLive⟩)
    else .error (.corrupt "figures flag" recordOffset)

/-- The reservation's rules: no field under a 0, and the block before the index by one under a 1
(open) or, in version 4 only, a 2 (settled and retained). -/
def checkBlock (v : UInt16) (recordOffset : ℕ) (pendingFlag : UInt8) (wotsIndex : WotsIndex)
    (spentIndex : UInt32) (digest : Digest) (figuresFlag : Option UInt8)
    (figures : Option Figures) : Except Error (Option Pending × Option Pending) :=
  if pendingFlag = 0 then
    if spentIndex ≠ 0 ∨ digest ≠ .zero 32 ∨ figuresFlag.any (· ≠ 0) then
      .error (.corrupt "pending fields not zero while pending == 0" recordOffset)
    else .ok (none, none)
  else if pendingFlag = 1 ∨ (pendingFlag = 2 ∧ v ≠ v3Version) then
    if (WotsIndex.mk spentIndex).advanced.toOption ≠ some wotsIndex then
      .error (.corrupt "pending index does not precede wots_index by one" recordOffset)
    else
      let block : Pending := ⟨⟨spentIndex⟩, digest, figures⟩
      if pendingFlag = 1 then .ok (some block, none) else .ok (none, some block)
  else .error (.corrupt "pending flag" recordOffset)

/-- The account record of a kind byte and its body. -/
def checkKind (recordOffset : ℕ) (kind : UInt8) (tag : Tag) (body : Block 32)
    (first : Block firstKeyLen) (streamId : StreamId) (wotsIndex : WotsIndex) :
    Except Error AccountRecord :=
  if kind = kindDerived then
    if (body.slice 4 28).1.any (· ≠ 0) then
      .error (.corrupt "derived body padding not zero" recordOffset)
    else if first.1.any (· ≠ 0) then
      .error (.corrupt "derived first-key field not zero" recordOffset)
    else .ok (.derived tag (ofU32le (body.slice 0 4)) streamId wotsIndex)
  else if kind = kindImported then .ok (.imported tag body first streamId wotsIndex)
  else .error (.corrupt "kind" recordOffset)

/-- The verifying constructor, with its refusals named as damage to this record. -/
def restoreRecord (recordOffset : ℕ) (record : AccountRecord) : Except Error Account :=
  match Account.restoreFromRecord record with
  | .ok account => .ok account
  | .error .firstAddressNotReproduced =>
    .error (.corrupt "imported record: the root does not reproduce the stored tag" recordOffset)
  | .error .streamIdNotReproduced =>
    .error (.corrupt "imported record: the root does not reproduce the stored key-stream identity"
      recordOffset)
  | .error other => .error other

def parseRecord (v : UInt16) (prev : Option Tag) (c : Cursor) :
    Except Error ((Tag × Slot) × Cursor) := do
  let recordOffset := c.offset
  let (tag, c) ← c.take addrTagLen "tag"
  if prev.any (fun p => tag ≤ p) then
    .error (.corrupt "records not strictly ascending by tag" recordOffset)
  else
  let (kind, c) ← c.takeByte "kind"
  let (body, c) ← c.take 32 "body"
  let (first, c) ← c.take firstKeyLen "first key components"
  let (streamId, c) ← c.take addrTagLen "stream identity"
  let (wotsIndex, c) ← c.take 4 "wots_index"
  let wotsIndex : WotsIndex := ⟨ofU32le wotsIndex⟩
  let (pendingFlag, c) ← c.takeByte "pending flag"
  let (spentIndex, c) ← c.take 4 "spent_index"
  let (digest, c) ← c.take 32 "digest"
  let (figuresBytes, c) ← takeFigures v c
  let figures ← checkFigures recordOffset figuresBytes
  let (pending, settled) ← checkBlock v recordOffset pendingFlag wotsIndex (ofU32le spentIndex)
    digest (figuresBytes.map (·.1)) figures
  let record ← checkKind recordOffset kind tag body first ⟨streamId⟩ wotsIndex
  let account ← restoreRecord recordOffset record
  .ok ((tag, ⟨account, pending, settled⟩), c)

def parseRecords (v : UInt16) : ℕ → Option Tag → OrdMap Tag Slot → Cursor →
    Except Error (OrdMap Tag Slot × Cursor)
  | 0, _, slots, c => .ok (slots, c)
  | count + 1, prev, slots, c => do
    let ((tag, slot), c) ← parseRecord v prev c
    parseRecords v count (some tag) (slots.insert tag slot) c

/-- The master seed behind its presence flag. -/
def checkMaster (offset : ℕ) (masterPresent : UInt8) (masterBytes : Secret) :
    Except Error (Option Secret) :=
  if masterPresent = 0 then
    if masterBytes.1.any (· ≠ 0) then
      .error (.corrupt "master seed present flag is 0 with non-zero bytes" offset)
    else .ok none
  else if masterPresent = 1 then .ok (some masterBytes)
  else .error (.corrupt "master seed present flag is not 0 or 1" offset)

/-- The decrypted body of an image of version `v`. -/
def parseBody (v : UInt16) (body : Bytes) : Except Error Parsed := do
  let c : Cursor := ⟨body, 0⟩
  let (generation, c) ← c.take 8 "generation"
  let (count, c) ← c.take 4 "count"
  let count := (ofU32le count).toNat
  let (masterPresent, c) ← c.takeByte "master present"
  let (masterBytes, c) ← c.take seedLen "master seed"
  let master ← checkMaster c.offset masterPresent masterBytes
  if count > maxAccounts then
    .error (.range "keystore account count" 0 maxAccounts count)
  else
  match bodyLenAt v count with
  | none => .error (.corrupt "image length overflow" c.offset)
  | some expected =>
  if body.length ≠ expected then
    .error (.corrupt "image length disagrees with count" c.offset)
  else
  let (slots, c) ← parseRecords v count none .empty c
  if c.rest ≠ [] then .error (.corrupt "trailing bytes" c.offset)
  else
  .ok ⟨ofU64le generation, slots, master⟩

/-- Parse an image with the key already derived. -/
def parseWithKey (image : Bytes) (key : Block keyLen) : Except Error Parsed := do
  let f ← readHeader image
  let body ← aeadOpen key f.header.nonce f.aad f.ciphertext f.tag
  parseBody f.version body

end MochimoWallet.Keystore
