import MochimoWallet.Keystore.Format
import MochimoWallet.Lib.Call

/-!
# The keystore handle

A handle holds the store's state in memory and writes it through the layout's commit
steps. Each of the five writers checks its arguments, seals the whole state it would
produce, commits the image, and only then changes memory; a commit that fails poisons
the handle before its error is returned. The layouts differ in `Layout.steps` alone,
so everything here is generic in the medium `D`.
-/

namespace MochimoWallet

open Codec Words

variable [Crypto]

namespace Keystore

inductive State where
  | live (generation : UInt64) (slots : OrdMap Tag Slot)
  | poisoned (first : Error)

/-- What a handle seals its images with. -/
structure StoreCrypto where
  key : Block keyLen
  kdf : Kdf
  salt : Block saltLen
  nonceSeed : Block nonceSeedLen

end Keystore

open Keystore in
/-- An open store. -/
structure Keystore where
  state : State
  master : Option Secret
  crypto : StoreCrypto
  openedVersion : UInt16
  onDiskVersion : UInt16

namespace Keystore

/-- The steps a commit takes to make an image the store's newest, on the medium `D`. -/
class Layout (D : Type) where
  steps : Bytes → Call D Error Unit

/-- A handle and the medium under it: what a call on the handle acts on. -/
structure Opened (D : Type) where
  ks : Keystore
  medium : D

/-- The witness that an image is on the device. -/
structure Durable where

variable {D : Type}

/-! ## Reading the handle -/

def live (ks : Keystore) : Except Error (UInt64 × OrdMap Tag Slot) :=
  match ks.state with
  | .live generation slots => .ok (generation, slots)
  | .poisoned first => .error (.poisoned first)

def generation (ks : Keystore) : Except Error UInt64 := do
  let (generation, _) ← ks.live
  .ok generation

structure AccountView where
  tag : Tag
  kind : AccountKind
  wotsIndex : WotsIndex
  pending : Option Pending
  settled : Option Pending
  deriving DecidableEq

def view (ks : Keystore) (tag : Tag) : Except Error (Option AccountView) := do
  let (_, slots) ← ks.live
  .ok ((slots.get? tag).map fun s =>
    ⟨tag, s.account.kind, s.account.wotsIndex, s.pending, s.settled⟩)

/-- The version read at open, once a commit has written another. -/
def upgradedFrom (ks : Keystore) : Option UInt16 :=
  if ks.openedVersion ≠ ks.onDiskVersion then some ks.openedVersion else none

/-- The slot of `tag`, or the refusal every call makes of a tag the store does not hold. -/
def slotOf (slots : OrdMap Tag Slot) (tag : Tag) : Except Error Slot :=
  match slots.get? tag with
  | some slot => .ok slot
  | none => .error .noSuchAccount

def storedStreamId (account : Account) : StreamId := account.key.stream

def streamId (ks : Keystore) (tag : Tag) : Except Error StreamId := do
  let (_, slots) ← ks.live
  let slot ← slotOf slots tag
  .ok (storedStreamId slot.account)

def masterSeed (ks : Keystore) : Except Error (Option Secret) := do
  let _ ← ks.live
  .ok ks.master

def tags (ks : Keystore) : Except Error (List Tag) := do
  let (_, slots) ← ks.live
  .ok slots.keys

def intoRecords (ks : Keystore) : Except Error (List AccountRecord) := do
  let (_, slots) ← ks.live
  .ok (slots.values.map fun s => s.account.toRecord)

def importedRoots (slots : OrdMap Tag Slot) : List Secret :=
  slots.values.filterMap fun s => s.account.key.root?

/-! ## Sealing and committing -/

/-- The one site that produces an image from the handle's own master seed. -/
def sealImage (ks : Keystore) (records : List RecordRef) (generation : UInt64) : Except Error Bytes :=
  encode records generation ks.master ks.crypto.kdf ks.crypto.salt ks.crypto.key
    (nonceFor ks.crypto.nonceSeed generation)

/-- The record list of an image: the slots, with one record's index and blocks overridden or one
account added. -/
def recordsWith (slots : OrdMap Tag Slot)
    (overridden : Option (Tag × WotsIndex × Option Pending × Option Pending))
    (extra : Option (Account × Tag)) : List RecordRef :=
  let out : List RecordRef := slots.entries.map fun (tag, slot) =>
    match overridden with
    | some (t, index, pending, settled) =>
      if t = tag then ⟨tag, slot.account, index, pending, settled⟩
      else ⟨tag, slot.account, slot.account.wotsIndex, slot.pending, slot.settled⟩
    | none => ⟨tag, slot.account, slot.account.wotsIndex, slot.pending, slot.settled⟩
  match extra with
  | some (account, tag) =>
    let added : RecordRef := ⟨tag, account, account.wotsIndex, none, none⟩
    (out ++ [added]).insertionSort fun a b => a.tag ≤ b.tag
  | none => out

/-- The commit's steps, and the poisoning of the handle when one of them fails. -/
def commit [Layout D] (image : Bytes) : Call (Opened D) Error Durable := fun s =>
  match Layout.steps image s.medium with
  | (.ok (), m) => (.ok ⟨⟩, ⟨{ s.ks with onDiskVersion := version }, m⟩)
  | (.err e, m) => (.err e, ⟨{ s.ks with state := .poisoned e }, m⟩)
  | (.killed, m) => (.killed, ⟨s.ks, m⟩)

/-- The application half of a commit: an error after the image is durable poisons the handle. -/
def poisonOn {α : Type} (applied : Call (Opened D) Error α) : Call (Opened D) Error α := fun s =>
  match applied s with
  | (.err e, t) => (.err e, ⟨{ t.ks with state := .poisoned e }, t.medium⟩)
  | r => r

/-- Change the live state, or refuse as every call on a poisoned handle does. -/
def liveMut (f : UInt64 → OrdMap Tag Slot → UInt64 × OrdMap Tag Slot) :
    Call (Opened D) Error Unit := fun s =>
  match s.ks.state with
  | .live generation slots =>
    let (generation, slots) := f generation slots
    (.ok (), ⟨{ s.ks with state := .live generation slots }, s.medium⟩)
  | .poisoned first => (.err (.poisoned first), s)

/-- The generation a commit writes. -/
def nextGeneration (generation : UInt64) (max got : ℕ) : Except Error UInt64 :=
  match checkedAdd64 generation 1 with
  | some next => .ok next
  | none => .error (.range "keystore generation" 0 max got)

/-! ## The writers -/

/-- Put a master seed into a store that has none. -/
def adoptMaster [Layout D] (master : Secret) : Call (Opened D) Error Durable := do
  let s ← Call.get
  let (generation, slots) ← Call.check s.ks.live
  if s.ks.master.isSome then Call.refuse (.exists "master seed")
  else
  let nextGen ← Call.check (nextGeneration generation u64Max u64Max)
  let image ← Call.check (encode (recordsWith slots none none) nextGen (some master)
    s.ks.crypto.kdf s.ks.crypto.salt s.ks.crypto.key (nonceFor s.ks.crypto.nonceSeed nextGen))
  let durable ← commit image
  Call.modify fun s => { s with ks := { s.ks with
    master := some master
    state := match s.ks.state with
      | .live _ slots => .live nextGen slots
      | .poisoned first => .poisoned first } }
  pure durable

/-- The stream identity an account's key material produces, where a store with this master seed can
recompute it. -/
def recomputedStreamId (master : Option Secret) (account : Account) : Except Error StreamId :=
  match account.key with
  | .imported root _ _ => .ok (MochimoWallet.streamId root)
  | .derived accountIndex stream =>
    match master with
    | some master =>
      let derived := deriveAccount master accountIndex
      if derived.tag ≠ account.tag then .error (.derivedTagNotReproduced accountIndex)
      else
        let recomputed := MochimoWallet.streamId derived.seed
        if recomputed ≠ stream then .error .streamIdNotReproduced
        else .ok recomputed
    | none => .ok stream

/-- Add an account: the tag, an imported root and the key stream must all be new. -/
def add [Layout D] (account : Account) : Call (Opened D) Error Unit := do
  let s ← Call.get
  let tag := account.tag
  let (generation, slots) ← Call.check s.ks.live
  if slots.contains tag then Call.refuse (.exists "account tag")
  else if account.key.root?.any fun root => (importedRoots slots).any (· = root) then
    Call.refuse (.exists "imported root")
  else
  let incoming ← Call.check (recomputedStreamId s.ks.master account)
  if slots.values.any fun s => storedStreamId s.account = incoming then
    Call.refuse (.exists "key stream")
  else
  let nextGen ← Call.check (nextGeneration generation (u64Max - 1) generation.toNat)
  let image ← Call.check (s.ks.sealImage (recordsWith slots none (some (account, tag))) nextGen)
  let _ ← commit image
  liveMut fun _ slots => (nextGen, slots.insert tag ⟨account, none, none⟩)

/-- One commit that moves the index and sets both blocks to what the caller passes. -/
def advanceCommitted [Layout D] (tag : Tag) (generation : UInt64) (next : WotsIndex)
    (pending settled : Option Pending) : Call (Opened D) Error AdvanceReceipt := do
  let nextGen ← Call.check (nextGeneration generation (u64Max - 1) generation.toNat)
  let s ← Call.get
  let (_, slots) ← Call.check s.ks.live
  let image ← Call.check
    (s.ks.sealImage (recordsWith slots (some (tag, next, pending, settled)) none) nextGen)
  let _ ← commit image
  poisonOn do
    liveMut fun _ slots => (nextGen, slots)
    let s ← Call.get
    let (_, slots) ← Call.check s.ks.live
    let slot ← Call.check (slotOf slots tag)
    let account ← Call.check (slot.account.advanceTo next)
    liveMut fun generation slots => (generation, slots.modify tag fun _ => ⟨account, pending, settled⟩)
    pure ⟨tag, next⟩

/-- The refusal of a call that an open reservation stands in the way of. -/
def refuseOpen (slot : Slot) : Except Error Unit :=
  match slot.pending with
  | some p => .error (.pendingUnresolved p.spentIndex.raw)
  | none => .ok ()

/-- Reserve the account's current key for `digest` and advance the index by one. -/
def persistAdvance [Layout D] (tag : Tag) (digest : Digest) (figures : Figures) :
    Call (Opened D) Error AdvanceReceipt := do
  let s ← Call.get
  let (generation, slots) ← Call.check s.ks.live
  let slot ← Call.check (slotOf slots tag)
  Call.check (refuseOpen slot)
  let current := slot.account.wotsIndex
  let next ← Call.check current.advanced
  advanceCommitted tag generation next (some ⟨current, digest, some figures⟩) none

/-- Move the index forward to `target` without reserving a key. -/
def persistAdvanceTo [Layout D] (tag : Tag) (target : WotsIndex) :
    Call (Opened D) Error AdvanceReceipt := do
  let s ← Call.get
  let (generation, slots) ← Call.check s.ks.live
  let slot ← Call.check (slotOf slots tag)
  Call.check (refuseOpen slot)
  let stored := slot.account.wotsIndex
  if target.pos ≤ stored.pos then
    Call.refuse (.range "wots index for tag" (stored.pos + 1) u32Max target.pos)
  else advanceCommitted tag generation target none none

/-- Move the open reservation to the retained settled block. -/
def persistSettled [Layout D] (tag : Tag) : Call (Opened D) Error Unit := do
  let s ← Call.get
  let (generation, slots) ← Call.check s.ks.live
  let slot ← Call.check (slotOf slots tag)
  match slot.pending with
  | none => Call.refuse .nothingPending
  | some block =>
  let index := slot.account.wotsIndex
  let nextGen ← Call.check (nextGeneration generation (u64Max - 1) generation.toNat)
  let image ← Call.check
    (s.ks.sealImage (recordsWith slots (some (tag, index, none, some block)) none) nextGen)
  let _ ← commit image
  poisonOn do
    liveMut fun _ slots => (nextGen, slots)
    let s ← Call.get
    let (_, slots) ← Call.check s.ks.live
    let slot ← Call.check (slotOf slots tag)
    liveMut fun generation slots =>
      (generation, slots.modify tag fun _ => ⟨slot.account, none, some block⟩)

end Keystore

end MochimoWallet
