import MochimoWallet.Keystore.Handle

/-!
# Signing and spend addresses

The key at a position is derived in one place, `keyAt`, behind one set of refusals;
the two releases of a signature and the two address readings all go through it.
`signSpend` takes the digest from its caller and holds it to the reservation;
`resignReserved` takes no digest at all.
-/

namespace MochimoWallet.Keystore

open Codec

/-- What a caller holds of an account's key material. -/
inductive KeyAccess where
  | master (seed : Secret)
  | storedRoot

/-- A released signature, and the public parts of the key that made it. -/
structure SpendSignature where
  spentIndex : WotsIndex
  signature : Block sigLen
  pubSeed : Block seedLen
  adrs : Adrs
  publicKey : Block pkLen
  deriving DecidableEq

structure SpendAddresses where
  tag : Tag
  position : WotsIndex
  source : Address
  change : Address
  deriving DecidableEq

variable [Crypto]

/-- The key at `position` of a slot's account. -/
def keyAt (slots : OrdMap Tag Slot) (slot : Slot) (position : WotsIndex) (access : KeyAccess) :
    Except Error WotsKey :=
  match slot.account.key, access with
  | .derived .., .storedRoot => .error (.keyAccessMismatch .derived)
  | .imported .., .master _ => .error (.keyAccessMismatch .imported)
  | .derived accountIndex stream, .master master =>
    let derived := deriveAccount master accountIndex
    if derived.tag ≠ slot.account.tag then .error (.derivedTagNotReproduced accountIndex)
    else if (importedRoots slots).any (· = derived.seed) then
      .error .keyStreamSharedWithImportedAccount
    else if MochimoWallet.streamId derived.seed ≠ stream then .error .streamIdNotReproduced
    else
      match position.rotation with
      | none => .ok derived.first
      | some rotation => .ok (deriveWotsKey derived.seed rotation)
  | .imported root first _, .storedRoot =>
    match position.rotation with
    | none => .ok (firstKeyFromComponents root first.pubSeed first.adrs)
    | some rotation => .ok (deriveWotsKey root rotation)

/-- The signature of `digest` under `key`, at the position it was reserved for. -/
def signWith (key : WotsKey) (spentIndex : WotsIndex) (digest : Digest) : SpendSignature :=
  ⟨spentIndex, (wotsSign digest key.secret key.pubSeed key.adrs).1, key.pubSeed, key.adrs, key.pk⟩

/-- Sign again what the open reservation was made for. -/
def resignReserved (ks : Keystore) (tag : Tag) (access : KeyAccess) :
    Except Error SpendSignature := do
  let (_, slots) ← ks.live
  let slot ← slotOf slots tag
  match slot.pending with
  | none => .error .nothingPending
  | some pending =>
  let key ← keyAt slots slot pending.spentIndex access
  .ok (signWith key pending.spentIndex pending.digest)

/-- The checks on a receipt, and the key at the reserved position. -/
def resolve (ks : Keystore) (digest : Digest) (receipt : AdvanceReceipt) (access : KeyAccess) :
    Except Error (WotsIndex × WotsKey) := do
  let (_, slots) ← ks.live
  let slot ← slotOf slots receipt.tag
  let stored := slot.account.wotsIndex
  if stored ≠ receipt.index then .error (.staleReceipt receipt.index.raw stored.raw)
  else
  match slot.pending with
  | none => .error .noReservation
  | some pending =>
  if pending.spentIndex.advanced.toOption ≠ some receipt.index then .error .noReservation
  else if pending.digest ≠ digest then .error .digestMismatch
  else
  let key ← keyAt slots slot pending.spentIndex access
  .ok (pending.spentIndex, key)

def checkSpend (ks : Keystore) (digest : Digest) (receipt : AdvanceReceipt) (access : KeyAccess) :
    Except Error Unit := do
  let _ ← ks.resolve digest receipt access
  .ok ()

/-- Sign `digest` with the key `receipt` reserved for it. -/
def signSpend (ks : Keystore) (digest : Digest) (receipt : AdvanceReceipt) (access : KeyAccess) :
    Except Error SpendSignature := do
  let (spentIndex, key) ← ks.resolve digest receipt access
  .ok (signWith key spentIndex digest)

def addressAt (ks : Keystore) (tag : Tag) (position : WotsIndex) (access : KeyAccess) :
    Except Error Address := do
  let (_, slots) ← ks.live
  let slot ← slotOf slots tag
  let key ← keyAt slots slot position access
  .ok (key.address tag)

/-- The address the account spends from and the one its change returns to. -/
def spendAddresses (ks : Keystore) (tag : Tag) (access : KeyAccess) :
    Except Error SpendAddresses := do
  let (_, slots) ← ks.live
  let slot ← slotOf slots tag
  refuseOpen slot
  let position := slot.account.wotsIndex
  let next ← position.advanced
  let source ← keyAt slots slot position access
  let change ← keyAt slots slot next access
  .ok ⟨tag, position, source.address tag, change.address tag⟩

end MochimoWallet.Keystore
