import MochimoWallet.Keystore.Accepted
import MochimoWallet.Keystore.Sign
import MochimoWallet.Tx.Wire
import MochimoWallet.WotsRecover

/-!
# Spend plans

A plan is a spend laid out against one ledger entry: destinations in the order of
their images, totals that add up to the balance, and the digest to reserve a key
for. Only `SpendPlan.new` makes one, which is a field of the type. `attach` puts a
signature to it and checks that the signature recovers, so what it returns depends
on the plan's transfer and position alone (`attach_congr`).
-/

namespace MochimoWallet

open Codec Words Keystore

/-- What the ledger holds under a tag. -/
structure LedgerEntry where
  address : Address
  balance : UInt64
  deriving DecidableEq

/-! ## References -/

inductive RefState where
  | start
  | digitDash
  | digit
  | upperDash
  | upper
  | zero
  deriving DecidableEq

def isDigit (c : UInt8) : Bool := 0x30 ≤ c && c ≤ 0x39
def isUpper (c : UInt8) : Bool := 0x41 ≤ c && c ≤ 0x5A
abbrev dash : UInt8 := 0x2D

/-- Runs of digits and of capitals in turn, a dash between two, and zeros to the end. -/
def RefState.next (c : UInt8) : RefState → Option RefState
  | .start => if c = 0 then some .zero else if isDigit c then some .digit
    else if isUpper c then some .upper else none
  | .digitDash => if isUpper c then some .upper else none
  | .upperDash => if isDigit c then some .digit else none
  | .digit => if isDigit c then some .digit else if c = dash then some .digitDash
    else if c = 0 then some .zero else none
  | .upper => if isUpper c then some .upper else if c = dash then some .upperDash
    else if c = 0 then some .zero else none
  | .zero => if c = 0 then some .zero else none

def RefState.walk : RefState → Bytes → Option RefState
  | s, [] => some s
  | s, c :: cs => (s.next c).bind (walk · cs)

def referenceIsValid (reference : Block addrRefLen) : Bool :=
  match RefState.start.walk reference.1 with
  | some .zero | some .digit | some .upper => true
  | _ => false

/-! ## Laying a spend out -/

structure PlanFields where
  position : WotsIndex
  srcAddr : Address
  chgAddr : Address
  sendTotal : UInt64
  changeTotal : UInt64
  feeTotal : UInt64
  blkToLive : UInt64
  balance : UInt64
  dsts : List Destination
  digest : Digest
  deriving DecidableEq

/-- Check the destinations one by one, and add their amounts up. -/
def checkDsts (srcTag : Tag) : ℕ → UInt64 → List Destination → Except Error UInt64
  | _, total, [] => .ok total
  | index, total, d :: ds =>
    if d.amount = 0 then .error (.zeroAmount index)
    else if d.tag = srcTag then .error (.destinationIsSource index)
    else
    match checkedAdd64 total d.amount with
    | none => .error (.overflow "send total")
    | some total =>
      if ¬ referenceIsValid d.reference then .error (.invalidReference index)
      else checkDsts srcTag (index + 1) total ds

/-- Destinations in the order the node requires. -/
def sortDsts (dsts : List Destination) : List Destination :=
  dsts.insertionSort fun a b => a.mdstImage ≤ b.mdstImage

/-- Destinations that are a rearrangement of each other are laid out alike. -/
theorem sortDsts_perm {ds ds' : List Destination} (h : ds.Perm ds') : sortDsts ds = sortDsts ds' := by
  have htotal : Std.Total (fun a b : Destination => a.mdstImage ≤ b.mdstImage) :=
    ⟨fun a b => le_total a.mdstImage b.mdstImage⟩
  have htrans : IsTrans Destination (fun a b => a.mdstImage ≤ b.mdstImage) :=
    ⟨fun _ _ _ => le_trans⟩
  have hperm : (sortDsts ds).Perm (sortDsts ds') :=
    (List.perm_insertionSort ..).trans (h.trans (List.perm_insertionSort ..).symm)
  refine hperm.eq_of_pairwise (fun a b _ _ hab hba => ?_) (List.pairwise_insertionSort ..)
    (List.pairwise_insertionSort ..)
  exact Destination.mdstImage_injective (le_antisymm hab hba)

theorem sortDsts_perm_self (ds : List Destination) : (sortDsts ds).Perm ds :=
  List.perm_insertionSort ..

theorem Transaction.new_eq_ok {ds : List Destination} {tx : Transaction}
    (h : Transaction.new ds = .ok tx) : tx.dsts = ds := by
  obtain ⟨⟨⟩, -, h⟩ := bind_eq_ok.mp h
  cases h
  rfl

def PlanFields.transfer (f : PlanFields) : Transfer :=
  ⟨f.srcAddr, f.chgAddr, f.sendTotal, f.changeTotal, f.feeTotal, f.blkToLive, 0, f.dsts⟩

variable [Crypto]

def PlanFields.build (addresses : SpendAddresses) (entry : LedgerEntry) (dsts : List Destination)
    (feeTotal blkToLive : UInt64) : Except Error PlanFields := do
  if entry.address ≠ addresses.source then
    .error (.chainAddressMismatch addresses.position.raw)
  else
  let tx ← Transaction.new (sortDsts dsts)
  let sendTotal ← checkDsts (tagOf addresses.source) 0 0 tx.dsts
  match checkedMul64 (.ofNat mfee) (.ofNat tx.dstCount) with
  | none => .error (.overflow "fee floor")
  | some minFee =>
  if feeTotal < minFee then .error (.feeBelowMinimum feeTotal minFee)
  else
  match checkedAdd64 sendTotal feeTotal with
  | none => .error (.overflow "send plus fee")
  | some needed =>
  if entry.balance < needed then .error (.insufficientBalance entry.balance needed)
  else
  let transfer : Transfer := ⟨addresses.source, addresses.change, sendTotal,
    entry.balance - needed, feeTotal, blkToLive, 0, tx.dsts⟩
  .ok ⟨addresses.position, addresses.source, addresses.change, sendTotal, entry.balance - needed,
    feeTotal, blkToLive, entry.balance, tx.dsts, Transaction.messageDigest transfer⟩

/-- The fields are what the planner made of some spend. -/
def PlanFields.Made (f : PlanFields) : Prop :=
  ∃ addresses entry dsts feeTotal blkToLive,
    PlanFields.build addresses entry dsts feeTotal blkToLive = .ok f

structure SpendPlan extends PlanFields where
  made : toPlanFields.Made

namespace SpendPlan

def new (addresses : SpendAddresses) (entry : LedgerEntry) (dsts : List Destination)
    (feeTotal blkToLive : UInt64) : Except Error SpendPlan :=
  match h : PlanFields.build addresses entry dsts feeTotal blkToLive with
  | .ok f => .ok ⟨f, addresses, entry, dsts, feeTotal, blkToLive, h⟩
  | .error e => .error e

def tag (plan : SpendPlan) : Tag := tagOf plan.srcAddr

def figures (plan : SpendPlan) : Figures := ⟨plan.balance, plan.blkToLive⟩

/-- The plan's transaction, without a signature. -/
def unsigned (plan : SpendPlan) : Except Error Transaction := do
  let tx ← Transaction.new plan.dsts
  .ok { tx with toTransfer := plan.transfer }

end SpendPlan

/-! ## Attaching a signature -/

structure SignedTransaction where
  tx : Transaction
  deriving DecidableEq

/-- The signature recovers a key whose hash the source address carries, and leaves the address
scheme as the transaction states it. -/
def verifyWots (tx : Transaction) : Except Error Unit :=
  let digest := Transaction.messageDigest tx.toTransfer
  let supplied := Adrs.fromLeImage tx.wots.adrs
  let (recovered, working) := wotsPkFromSig tx.wots.signature digest tx.wots.pubSeed supplied
  if working ≠ supplied then .error (.signatureDoesNotRecover "address scheme")
  else if hashOf (addrFromWots recovered) ≠ hashOf tx.srcAddr then
    .error (.signatureDoesNotRecover "source address hash")
  else .ok ()

namespace SignedTransaction

def attach (plan : SpendPlan) (sig : SpendSignature) : Except Error SignedTransaction := do
  if sig.spentIndex ≠ plan.position then
    .error (.positionMismatch plan.position.raw sig.spentIndex.raw)
  else
  let tx ← plan.unsigned
  let digest := Transaction.messageDigest tx.toTransfer
  let (recovered, adrs) := wotsPkFromSig sig.signature digest sig.pubSeed sig.adrs
  if recovered ≠ sig.publicKey then .error (.signatureDoesNotRecover "public key")
  else
  let tx := { tx with wots := ⟨sig.signature, sig.pubSeed, adrs.leImage⟩ }
  verifyWots tx
  .ok ⟨tx.seal'⟩

def wire (signed : SignedTransaction) : Bytes := signed.tx.toWire

def id (signed : SignedTransaction) : Digest := signed.tx.idDigest

end SignedTransaction

/-! ## What the planner makes -/

section
variable {addresses : SpendAddresses} {entry : LedgerEntry} {dsts : List Destination}
  {feeTotal blkToLive : UInt64} {f : PlanFields}

/-- Everything a plan says of the spend it was made for. -/
theorem PlanFields.build_eq_ok
    (h : PlanFields.build addresses entry dsts feeTotal blkToLive = .ok f) :
    entry.address = addresses.source ∧ f.position = addresses.position ∧
      f.srcAddr = addresses.source ∧ f.chgAddr = addresses.change ∧ f.feeTotal = feeTotal ∧
      f.blkToLive = blkToLive ∧ f.balance = entry.balance ∧ f.dsts = sortDsts dsts ∧
      f.digest = Transaction.messageDigest f.transfer := by
  unfold PlanFields.build at h
  split at h
  · cases h
  next hsource =>
  obtain ⟨tx, htx, h⟩ := bind_eq_ok.mp h
  obtain ⟨sendTotal, hsend, h⟩ := bind_eq_ok.mp h
  split at h
  · cases h
  split at h
  · cases h
  split at h
  · cases h
  split at h
  · cases h
  cases h
  exact ⟨not_not.mp hsource, rfl, rfl, rfl, rfl, rfl, rfl, Transaction.new_eq_ok htx, rfl⟩

theorem SpendPlan.new_eq_ok {plan : SpendPlan} :
    SpendPlan.new addresses entry dsts feeTotal blkToLive = .ok plan ↔
      PlanFields.build addresses entry dsts feeTotal blkToLive = .ok plan.toPlanFields := by
  unfold SpendPlan.new
  split
  · next f hf =>
    constructor
    · intro h
      cases h
      exact hf
    · intro h
      obtain ⟨f', made⟩ := plan
      cases hf.symm.trans h
      rfl
  · next e he =>
    constructor
    · intro h
      cases h
    · intro h
      cases he.symm.trans h

theorem SpendPlan.digest_eq (plan : SpendPlan) :
    plan.digest = Transaction.messageDigest plan.transfer := by
  obtain ⟨_, _, _, _, _, h⟩ := plan.made
  exact (PlanFields.build_eq_ok h).2.2.2.2.2.2.2.2

/-- A plan's own figures, against the same addresses and entry, make the plan again. -/
theorem PlanFields.build_again {addresses' : SpendAddresses} {entry' : LedgerEntry}
    {dsts' : List Destination} (h : PlanFields.build addresses entry dsts feeTotal blkToLive = .ok f)
    (hposition : addresses'.position = f.position) (hsource : addresses'.source = f.srcAddr)
    (hchange : addresses'.change = f.chgAddr) (haddress : entry'.address = f.srcAddr)
    (hbalance : entry'.balance = f.balance) (hdsts : dsts'.Perm f.dsts) :
    PlanFields.build addresses' entry' dsts' f.feeTotal f.blkToLive = .ok f := by
  obtain ⟨hentry, hp, hs, hc, hfee, hblk, hb, hd, -⟩ := PlanFields.build_eq_ok h
  have hsort : sortDsts dsts' = sortDsts dsts :=
    sortDsts_perm (hdsts.trans (hd ▸ sortDsts_perm_self dsts))
  obtain ⟨tag, position, source, change⟩ := addresses
  obtain ⟨tag', position', source', change'⟩ := addresses'
  obtain ⟨address, balance⟩ := entry
  obtain ⟨address', balance'⟩ := entry'
  dsimp only at *
  subst hposition hsource hchange haddress hbalance
  rw [hp, hs, hc, hfee, hblk, hb]
  subst hentry
  rw [← h]
  unfold PlanFields.build
  rw [hsort]

end

/-! ## What attaching depends on -/

/-- Two plans of one transfer at one position take one signature alike. -/
theorem SignedTransaction.attach_congr {plan plan' : SpendPlan}
    (htransfer : plan.transfer = plan'.transfer) (hposition : plan.position = plan'.position)
    (sig : SpendSignature) : attach plan sig = attach plan' sig := by
  have hunsigned : plan.unsigned = plan'.unsigned := by
    unfold SpendPlan.unsigned
    rw [htransfer, show plan.dsts = plan'.dsts from congrArg Transfer.dsts htransfer]
  unfold attach
  rw [hunsigned, hposition]

/-- A plan's destinations are few enough for a transaction. -/
theorem SpendPlan.unsigned_eq_ok (plan : SpendPlan) :
    ∃ tx, plan.unsigned = .ok tx ∧ tx.toTransfer = plan.transfer := by
  obtain ⟨addresses, entry, dsts, feeTotal, blkToLive, h⟩ := plan.made
  have hdsts := (PlanFields.build_eq_ok h).2.2.2.2.2.2.2.1
  unfold PlanFields.build at h
  split at h
  · cases h
  obtain ⟨tx, htx, -⟩ := bind_eq_ok.mp h
  refine ⟨{ tx with toTransfer := plan.transfer }, ?_, rfl⟩
  rw [SpendPlan.unsigned, hdsts, htx]
  rfl

/-- A transaction whose address scheme is what a recovery left verifies, when the key recovered is
the one its source is of. -/
theorem verifyWots_again {tx : Transaction} {adrs : Adrs} {r : Block pkLen × Adrs}
    (hr : wotsPkFromSig tx.wots.signature (Transaction.messageDigest tx.toTransfer) tx.wots.pubSeed
      adrs = r) (hadrs : tx.wots.adrs = r.2.leImage)
    (hhash : hashOf (addrFromWots r.1) = hashOf tx.srcAddr) : verifyWots tx = .ok () := by
  have hagain := wotsPkFromSig_again tx.wots.signature (Transaction.messageDigest tx.toTransfer)
    tx.wots.pubSeed adrs
  rw [hr] at hagain
  unfold verifyWots
  rw [hadrs, Adrs.fromLeImage_leImage]
  simp only [hagain, hhash, ne_eq, not_true_eq_false, if_false]

/-- A signature of the plan's digest by the key of its source attaches. -/
theorem SignedTransaction.attach_signWith {plan : SpendPlan} {key : WotsKey} {tag : Tag}
    (hsource : key.address tag = plan.srcAddr) :
    ∃ signed, attach plan (signWith key plan.position plan.digest) = .ok signed := by
  obtain ⟨tx, htx, htransfer⟩ := plan.unsigned_eq_ok
  have hdigest : Transaction.messageDigest tx.toTransfer = plan.digest := by
    rw [htransfer, plan.digest_eq]
  rcases hr : wotsPkFromSig (signWith key plan.position plan.digest).signature plan.digest
    (signWith key plan.position plan.digest).pubSeed (signWith key plan.position plan.digest).adrs
    with ⟨recovered, adrs⟩
  have hpk : recovered = key.pk := by
    have h := wotsPkFromSig_wotsSign plan.digest key.secret key.pubSeed key.adrs
    rw [← key.pk_eq] at h
    rw [← h]
    exact (congrArg Prod.fst hr).symm
  have hverify : verifyWots { tx with wots := ⟨(signWith key plan.position plan.digest).signature,
      (signWith key plan.position plan.digest).pubSeed, adrs.leImage⟩ } = .ok () := by
    have hrecover : wotsPkFromSig (signWith key plan.position plan.digest).signature
        (Transaction.messageDigest tx.toTransfer) (signWith key plan.position plan.digest).pubSeed
        (signWith key plan.position plan.digest).adrs = (recovered, adrs) := by rw [hdigest, hr]
    refine verifyWots_again hrecover rfl ?_
    show _ = hashOf tx.srcAddr
    rw [htransfer]
    show _ = hashOf plan.srcAddr
    rw [← hsource, hpk, WotsKey.address, hashOf_append, WotsKey.implicitAddress]
  unfold attach
  rw [if_neg (show ¬ (signWith key plan.position plan.digest).spentIndex ≠ plan.position from
    not_not.mpr rfl), htx, ok_bind]
  simp only [hdigest, hr]
  rw [if_neg (show ¬ recovered ≠ (signWith key plan.position plan.digest).publicKey from
    not_not.mpr hpk), hverify]
  exact ⟨_, rfl⟩

/-! ## What attaching gives -/

/-- What attaching keeps of the plan. -/
theorem SignedTransaction.attach_transfer {plan : SpendPlan} {sig : SpendSignature}
    {signed : SignedTransaction} (h : attach plan sig = .ok signed) :
    signed.tx.toTransfer = plan.transfer ∧ sig.spentIndex = plan.position := by
  unfold attach at h
  split at h
  · cases h
  next hposition =>
  obtain ⟨tx, htx, h⟩ := bind_eq_ok.mp h
  obtain ⟨tx', htx', hunsigned⟩ := bind_eq_ok.mp htx
  cases hunsigned
  dsimp only at h
  split at h
  · cases h
  obtain ⟨⟨⟩, -, h⟩ := bind_eq_ok.mp h
  cases h
  exact ⟨rfl, not_not.mp hposition⟩

/-- What attaching gives verifies. -/
theorem SignedTransaction.attach_verifies {plan : SpendPlan} {sig : SpendSignature}
    {signed : SignedTransaction} (h : attach plan sig = .ok signed) :
    verifyWots signed.tx = .ok () := by
  unfold attach at h
  split at h
  · cases h
  obtain ⟨tx, -, h⟩ := bind_eq_ok.mp h
  dsimp only at h
  split at h
  · cases h
  obtain ⟨⟨⟩, hverify, h⟩ := bind_eq_ok.mp h
  cases h
  exact hverify

end MochimoWallet
