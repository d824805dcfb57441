import MochimoWallet.Keystore.RoundTrip

/-!
# What the parser accepts is well formed

`Parsed.Wf` is the invariant of a store's state: each slot stands under its own
account's tag, holds at most one block, and that block stands before the index by
one; and no store holds more accounts than an image does. Every state the parser
returns has it (`wf_of_parseWithKey`), whatever the bytes. A record and a body are
taken apart once each (`fields_of_parseRecord`, `read_of_parseBody`).
-/

namespace MochimoWallet.Keystore

open Codec

/-! ## The cursor, from what it read -/

namespace Cursor

theorem take_eq_ok {c c' : Cursor} {n : ℕ} {what : String} {b : Block n}
    (h : c.take n what = .ok (b, c')) : c.rest = b.1 ++ c'.rest ∧ c'.offset = c.offset + n := by
  unfold take at h
  split at h <;> cases h
  exact ⟨(List.take_append_drop n c.rest).symm, rfl⟩

theorem takeByte_eq_ok {c c' : Cursor} {what : String} {x : UInt8}
    (h : c.takeByte what = .ok (x, c')) : c.rest = x :: c'.rest ∧ c'.offset = c.offset + 1 := by
  unfold takeByte at h
  split at h <;> cases h
  next hrest => exact ⟨hrest, rfl⟩

end Cursor

/-! ## Records -/

namespace AccountRecord

def tag : AccountRecord → Tag
  | .derived tag .. | .imported tag .. => tag

def wotsIndex : AccountRecord → WotsIndex
  | .derived _ _ _ index | .imported _ _ _ _ index => index

end AccountRecord

theorem checkBlock_ok {v : UInt16} {at' : ℕ} {flag : UInt8} {index : WotsIndex} {spent : UInt32}
    {digest : Digest} {figuresFlag : Option UInt8} {figures : Option Figures}
    {pending settled : Option Pending}
    (h : checkBlock v at' flag index spent digest figuresFlag figures = .ok (pending, settled)) :
    (pending = none ∨ settled = none) ∧ BlockBefore index pending ∧ BlockBefore index settled := by
  have hnone : BlockBefore index none := fun p h => by cases h
  unfold checkBlock at h
  split at h
  · split at h
    · cases h
    · cases h; exact ⟨.inl rfl, hnone, hnone⟩
  split at h
  · split at h
    · cases h
    next hadv =>
    have hblock : BlockBefore index (some ⟨⟨spent⟩, digest, figures⟩) := by
      rw [blockBefore_iff]
      simpa using hadv
    split at h <;> cases h
    · exact ⟨.inr rfl, hblock, hnone⟩
    · exact ⟨.inl rfl, hnone, hblock⟩
  · cases h

theorem checkKind_tag {at' : ℕ} {kind : UInt8} {tag : Tag} {body : Block 32}
    {first : Block firstKeyLen} {stream : StreamId} {index : WotsIndex} {record : AccountRecord}
    (h : checkKind at' kind tag body first stream index = .ok record) :
    AccountRecord.tag record = tag ∧ AccountRecord.wotsIndex record = index := by
  unfold checkKind at h
  split at h
  · split at h
    · cases h
    split at h
    · cases h
    · cases h; exact ⟨rfl, rfl⟩
  split at h
  · cases h; exact ⟨rfl, rfl⟩
  · cases h

variable [Crypto]

theorem restoreRecord_tag {at' : ℕ} {record : AccountRecord} {account : Account}
    (h : restoreRecord at' record = .ok account) :
    account.tag = AccountRecord.tag record ∧ account.wotsIndex = AccountRecord.wotsIndex record := by
  have h : Account.restoreFromRecord record = .ok account := by
    unfold restoreRecord at h
    split at h <;> cases h
    assumption
  cases record with
  | derived tag accountIndex stream index => cases h; exact ⟨rfl, rfl⟩
  | imported tag root first stream index =>
    unfold Account.restoreFromRecord at h
    dsimp only at h
    split at h
    · cases h
    split at h
    · cases h
    · cases h; exact ⟨rfl, rfl⟩

/-- What a record is read as before its checks: its fields after the tag, in their order. -/
structure RecordFields where
  kind : UInt8
  body : Block 32
  first : Block firstKeyLen
  stream : Block addrTagLen
  index : Block 4
  flag : UInt8
  spent : Block 4
  digest : Digest
  figures : Option (UInt8 × UInt64 × UInt64)

/-- The fields `f` stand at `c` and pass every check: `slot` is what they say of `tag`. -/
structure RecordFields.Pass (f : RecordFields) (v : UInt16) (prev : Option Tag) (c c' : Cursor)
    (tag : Tag) (slot : Slot) : Prop where
  ascending : ∀ p ∈ prev, p < tag
  read : ∃ mid, takeFigures v mid = .ok (f.figures, c') ∧
    c.rest = tag.1 ++ (f.kind :: (f.body.1 ++ (f.first.1 ++ (f.stream.1 ++ (f.index.1 ++
      (f.flag :: (f.spent.1 ++ (f.digest.1 ++ mid.rest))))))))
  block : ∃ figures, checkFigures c.offset f.figures = .ok figures ∧
    checkBlock v c.offset f.flag ⟨ofU32le f.index⟩ (ofU32le f.spent) f.digest
      (f.figures.map (·.1)) figures = .ok (slot.pending, slot.settled)
  account : ∃ record, checkKind c.offset f.kind tag f.body f.first ⟨f.stream⟩ ⟨ofU32le f.index⟩ =
    .ok record ∧ restoreRecord c.offset record = .ok slot.account

/-- A record that parses is made of fields that pass. -/
theorem fields_of_parseRecord {v : UInt16} {prev : Option Tag} {c c' : Cursor} {tag : Tag}
    {slot : Slot} (h : parseRecord v prev c = .ok ((tag, slot), c')) :
    ∃ f : RecordFields, f.Pass v prev c c' tag slot := by
  unfold parseRecord at h
  obtain ⟨⟨t, c1⟩, htag, h⟩ := bind_eq_ok.mp h
  dsimp only at h
  split at h
  · cases h
  next hprev =>
  obtain ⟨⟨kind, c2⟩, hkindByte, h⟩ := bind_eq_ok.mp h
  obtain ⟨⟨body, c3⟩, hbody, h⟩ := bind_eq_ok.mp h
  obtain ⟨⟨first, c4⟩, hfirst, h⟩ := bind_eq_ok.mp h
  obtain ⟨⟨stream, c5⟩, hstream, h⟩ := bind_eq_ok.mp h
  obtain ⟨⟨index, c6⟩, hindex, h⟩ := bind_eq_ok.mp h
  obtain ⟨⟨flag, c7⟩, hflag, h⟩ := bind_eq_ok.mp h
  obtain ⟨⟨spent, c8⟩, hspent, h⟩ := bind_eq_ok.mp h
  obtain ⟨⟨digest, c9⟩, hdigest, h⟩ := bind_eq_ok.mp h
  obtain ⟨⟨raw, c10⟩, hraw, h⟩ := bind_eq_ok.mp h
  obtain ⟨figures, hfigures, h⟩ := bind_eq_ok.mp h
  obtain ⟨⟨pending, settled⟩, hblock, h⟩ := bind_eq_ok.mp h
  obtain ⟨record, hkind, h⟩ := bind_eq_ok.mp h
  obtain ⟨account, hrestore, h⟩ := bind_eq_ok.mp h
  cases h
  refine ⟨⟨kind, body, first, stream, index, flag, spent, digest, raw⟩, fun p hp => ?_,
    ⟨c9, hraw, ?_⟩, ⟨figures, hfigures, hblock⟩, ⟨record, hkind, hrestore⟩⟩
  · rw [Option.mem_def] at hp
    rw [hp] at hprev
    simpa using hprev
  · rw [(Cursor.take_eq_ok htag).1, (Cursor.takeByte_eq_ok hkindByte).1,
      (Cursor.take_eq_ok hbody).1, (Cursor.take_eq_ok hfirst).1, (Cursor.take_eq_ok hstream).1,
      (Cursor.take_eq_ok hindex).1, (Cursor.takeByte_eq_ok hflag).1, (Cursor.take_eq_ok hspent).1,
      (Cursor.take_eq_ok hdigest).1]

theorem parseRecord_ok {v : UInt16} {prev : Option Tag} {c c' : Cursor} {tag : Tag} {slot : Slot}
    (h : parseRecord v prev c = .ok ((tag, slot), c')) : slot.Wf ∧ slot.account.tag = tag := by
  obtain ⟨f, hf⟩ := fields_of_parseRecord h
  obtain ⟨figures, -, hblock⟩ := hf.block
  obtain ⟨record, hkind, hrestore⟩ := hf.account
  obtain ⟨hone, hp, hs⟩ := checkBlock_ok hblock
  obtain ⟨htag, hindex⟩ := checkKind_tag hkind
  obtain ⟨htag', hindex'⟩ := restoreRecord_tag hrestore
  rw [hindex] at hindex'
  exact ⟨⟨hone, by rw [hindex']; exact hp, by rw [hindex']; exact hs⟩, htag'.trans htag⟩

/-! ## Stores -/

/-- The state of a store, as every image that parses holds it. -/
structure Parsed.Wf (p : Parsed) : Prop where
  tags : ∀ {tag slot}, p.slots.get? tag = some slot → slot.account.tag = tag
  slots : ∀ {tag slot}, p.slots.get? tag = some slot → slot.Wf
  size : p.slots.size ≤ maxAccounts

/-- What holds of every record that parses holds of every slot of a record list that does. -/
theorem parseRecords_slots {v : UInt16} {P : Tag → Slot → Prop}
    (hP : ∀ {prev c c' tag slot}, parseRecord v prev c = .ok ((tag, slot), c') → P tag slot)
    {count : ℕ} {prev : Option Tag} {m m' : OrdMap Tag Slot} {c c' : Cursor}
    (h : parseRecords v count prev m c = .ok (m', c'))
    (hm : ∀ {tag slot}, m.get? tag = some slot → P tag slot) {tag : Tag} {slot : Slot}
    (hget : m'.get? tag = some slot) : P tag slot := by
  induction count generalizing prev m c with
  | zero => cases h; exact hm hget
  | succ count ih =>
    obtain ⟨⟨⟨t, s⟩, c1⟩, hrecord, h⟩ := bind_eq_ok.mp h
    refine ih h fun {t' s'} hget' => ?_
    rw [OrdMap.get?_insert] at hget'
    split at hget'
    · next ht => cases hget'; subst ht; exact hP hrecord
    · exact hm hget'

theorem size_of_parseRecords {v : UInt16} {count : ℕ} {prev : Option Tag} {m m' : OrdMap Tag Slot}
    {c c' : Cursor} (h : parseRecords v count prev m c = .ok (m', c')) : m'.size ≤ m.size + count := by
  induction count generalizing prev m c with
  | zero => cases h; exact le_refl _
  | succ count ih =>
    obtain ⟨⟨⟨tag, slot⟩, c1⟩, -, h⟩ := bind_eq_ok.mp h
    have hle := OrdMap.size_insert_le m tag slot
    have hsize := ih h
    omega

/-- What a body holds before its records, and that they follow: `p` is what a body made of
these fields says. -/
structure BodyRead (v : UInt16) (body : Bytes) (p : Parsed) (count : Block 4) (flag : UInt8)
    (bytes : Secret) : Prop where
  bounded : (ofU32le count).toNat ≤ maxAccounts
  length : bodyLenAt v (ofU32le count).toNat = some body.length
  master : ∃ at', checkMaster at' flag bytes = .ok p.master
  records : ∃ c c', parseRecords v (ofU32le count).toNat none .empty c = .ok (p.slots, c') ∧
    c'.rest = [] ∧ body = (u64le p.generation).1 ++ (count.1 ++ (flag :: (bytes.1 ++ c.rest)))

/-- An accepted body is its header and the records it counts. -/
theorem read_of_parseBody {v : UInt16} {body : Bytes} {p : Parsed} (h : parseBody v body = .ok p) :
    ∃ count flag bytes, BodyRead v body p count flag bytes := by
  unfold parseBody at h
  obtain ⟨⟨generation, c1⟩, hgeneration, h⟩ := bind_eq_ok.mp h
  obtain ⟨⟨count, c2⟩, hcount, h⟩ := bind_eq_ok.mp h
  obtain ⟨⟨flag, c3⟩, hflag, h⟩ := bind_eq_ok.mp h
  obtain ⟨⟨bytes, c4⟩, hbytes, h⟩ := bind_eq_ok.mp h
  obtain ⟨master, hmaster, h⟩ := bind_eq_ok.mp h
  dsimp only at h
  split at h
  · cases h
  next hbound =>
  split at h
  · cases h
  next expected hexpected =>
  split at h
  · cases h
  next hlen =>
  obtain ⟨⟨slots, c5⟩, hparse, h⟩ := bind_eq_ok.mp h
  split at h
  · cases h
  next hend =>
  cases h
  have hfront : body = generation.1 ++ c1.rest := (Cursor.take_eq_ok hgeneration).1
  refine ⟨count, flag, bytes, not_lt.mp hbound, ?_, ⟨_, hmaster⟩, c4, c5, hparse,
    Decidable.not_not.mp hend, ?_⟩
  · rw [hexpected, Decidable.not_not.mp hlen]
  · rw [u64le_ofU64le, hfront, (Cursor.take_eq_ok hcount).1, (Cursor.takeByte_eq_ok hflag).1,
      (Cursor.take_eq_ok hbytes).1]

/-- The slots of an accepted body are the records it counts. -/
theorem parseBody_records {v : UInt16} {body : Bytes} {p : Parsed} (h : parseBody v body = .ok p) :
    ∃ count c c', count ≤ maxAccounts ∧ parseRecords v count none .empty c = .ok (p.slots, c') := by
  obtain ⟨count, flag, bytes, hread⟩ := read_of_parseBody h
  obtain ⟨c, c', hparse, -⟩ := hread.records
  exact ⟨_, c, c', hread.bounded, hparse⟩

theorem parseBody_slots {v : UInt16} {P : Tag → Slot → Prop}
    (hP : ∀ {prev c c' tag slot}, parseRecord v prev c = .ok ((tag, slot), c') → P tag slot)
    {body : Bytes} {p : Parsed} (h : parseBody v body = .ok p) {tag : Tag} {slot : Slot}
    (hget : p.slots.get? tag = some slot) : P tag slot := by
  obtain ⟨count, c, c', -, hparse⟩ := parseBody_records h
  exact parseRecords_slots hP hparse (fun hget => by cases hget) hget

theorem wf_of_parseBody {v : UInt16} {body : Bytes} {p : Parsed} (h : parseBody v body = .ok p) :
    p.Wf := by
  obtain ⟨count, c, c', hcount, hparse⟩ := parseBody_records h
  have hzero : (OrdMap.empty : OrdMap Tag Slot).size = 0 := rfl
  have hsize := size_of_parseRecords hparse
  exact ⟨fun hget => parseBody_slots (fun h => (parseRecord_ok h).2) h hget,
    fun hget => parseBody_slots (fun h => (parseRecord_ok h).1) h hget, by omega⟩

theorem wf_of_parseWithKey {image : Bytes} {key : Block keyLen} {p : Parsed}
    (h : parseWithKey image key = .ok p) : p.Wf := by
  obtain ⟨f, -, h⟩ := bind_eq_ok.mp h
  obtain ⟨body, -, h⟩ := bind_eq_ok.mp h
  exact wf_of_parseBody h

end MochimoWallet.Keystore
