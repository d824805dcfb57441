import MochimoWallet.Recon.Advance
import MochimoWallet.Recon.Classify
import MochimoWallet.Tx.Codec

/-!
# Sending a reverted settle again

A settle rests on one answer of the node, which a reorganisation can take back. The
store then has the digest, the position and the figures of the spend and no signature,
and `resubmitRevertedSettle` sends the copy the operator kept. Every check is read off
as an iff, so that the bytes go out exactly when all of them pass
(`resubmit_posted_iff`), and a passed check is never one on other bytes.
-/

namespace MochimoWallet

open Codec Keystore

/-- The refusals of a resubmission; `other` are the library's. -/
inductive ResubmitError where
  | other (cause : Error)
  | reservationOpen (spentIndex : UInt32)
  | notARevertedSettle (what : String)
  | figuresNotRecorded
  | savedArtifactNotATransaction (cause : Error)
  | savedArtifactNotWhole (given described : ℕ)
  | notTheSettledSpend
  | settledBalanceMoved (reserved current : UInt64)
  | settledExpired (blkToLive tip : UInt64)
  | payloadTooLarge (what : String) (max got : ℕ)
  deriving DecidableEq

abbrev maxRequestBytes : ℕ := 30 * 1024
/-- What a submit request has around its image, which it carries as hexadecimal. -/
abbrev submitEnvelopeLen : ℕ := 91

def requestSubmitWire (wire : Bytes) : Except ResubmitError Unit :=
  let len := submitEnvelopeLen + 2 * wire.length
  if len > maxRequestBytes then
    .error (.payloadTooLarge "submit request body" maxRequestBytes len)
  else .ok ()

/-- The id the node echoes, held to the one that was computed. -/
def Node.echo (id : Digest) : Call Node ResubmitError Digest := fun n =>
  match n.echoes with
  | [] => (.err (.other silence), n)
  | .error e :: echoes => (.err (.other e), { n with echoes })
  | .ok echoed :: echoes =>
    if echoed ≠ id then (.err (.other .submitIdMismatch), { n with echoes })
    else (.ok echoed, { n with echoes })

/-- The positions one below, at and one above the store's. -/
def narrow : ScanScope := ⟨0, some 1⟩

/-- How the expiry stands, for a spend that is to be sent. -/
def refuseExpired (blkToLive : UInt64) : Expiry → Except ResubmitError Unit
  | .noExpiry | .below _ => .ok ()
  | .reached tip => .error (.settledExpired blkToLive tip)
  | .unreadable cause => .error (.other cause)

/-- The balance at the position one behind the store, where the settle moved past it. -/
def revertedBalance (settled : Pending) :
    Except Divergence AccountStatus → Except ResubmitError UInt64
  | .ok _ => .error (.notARevertedSettle "the chain is in sync")
  | .error (.indexMismatch _ _ _ _ balance _ found revertedSettle) =>
    match found with
    | .behind index gap =>
      if gap = 1 ∧ index = settled.spentIndex ∧ revertedSettle = some settled then .ok balance
      else .error (.notARevertedSettle "the chain is at another position")
    | .ahead .. => .error (.notARevertedSettle "the chain is ahead of the store")
    | .unlocated .. => .error (.notARevertedSettle "the chain is at another position")
  | .error (.tagUnresolved ..) => .error (.notARevertedSettle "tag unresolved by the node")
  | .error (.chainUnreachable ..) => .error (.notARevertedSettle "the chain could not be read")
  | .error _ => .error (.notARevertedSettle "the account could not be reconciled")

section
variable [Crypto]

/-- The settle an account retains, with its figures, and no reservation open. -/
def retainedSettle (ks : Keystore) (tag : Tag) : Except ResubmitError (Pending × Figures) :=
  match ks.view tag with
  | .error cause => .error (.other cause)
  | .ok none => .error (.other .noSuchAccount)
  | .ok (some view) =>
    match view.pending with
    | some open' => .error (.reservationOpen open'.spentIndex.raw)
    | none =>
    match view.settled with
    | none => .error (.notARevertedSettle "no settle is retained")
    | some settled =>
    match settled.figures with
    | none => .error .figuresNotRecorded
    | some figures => .ok (settled, figures)

/-- The saved bytes as the settled spend's transaction. -/
def savedArtifact (settled : Pending) (saved : Bytes) : Except ResubmitError Transaction :=
  match Transaction.fromWire saved with
  | .error cause => .error (.savedArtifactNotATransaction cause)
  | .ok tx =>
    if tx.toWire ≠ saved then .error (.savedArtifactNotWhole saved.length tx.wireLen)
    else if Transaction.messageDigest tx.toTransfer ≠ settled.digest then .error .notTheSettledSpend
    else
    match verifyWots tx with
    | .error cause => .error (.other cause)
    | .ok () => .ok tx

/-- A session, and the images posted to the node's submit endpoint, the newest first. -/
structure Posting (D : Type) where
  session : Session D
  posted : List Bytes

namespace Posting

variable {D ε α : Type}

/-- Ask the node, reading the handle. -/
def asking (x : Keystore → Call Node ε α) : Call (Posting D) ε α :=
  Call.zoom Posting.session (fun s t => { t with session := s }) (Session.asking x)

def submitWire (wire : Bytes) (id : Digest) : Call (Posting D) ResubmitError Digest := do
  Call.check (requestSubmitWire wire)
  Call.modify fun t => { t with posted := wire :: t.posted }
  asking fun _ => Node.echo id

/-- Send again a saved copy of the artifact of a settle the chain has reverted. -/
def resubmitRevertedSettle (tag : Tag) (access : KeyAccess) (saved : Bytes) :
    Call (Posting D) ResubmitError Digest := do
  let t ← Call.get
  let (settled, figures) ← Call.check (retainedSettle t.session.store.ks tag)
  let tx ← Call.check (savedArtifact settled saved)
  let found ← asking fun ks => (reconcileAccountWith ks tag access narrow .never).attempt
  let balance ← Call.check (revertedBalance settled found)
  if balance ≠ figures.reservedBalance then
    Call.refuse (.settledBalanceMoved figures.reservedBalance balance)
  else do
  let expiry ← asking fun _ => Call.of fun n =>
    let (expiry, n) := expiryOf figures.blkToLive n
    (.ok expiry, n)
  Call.check (refuseExpired figures.blkToLive expiry)
  submitWire saved tx.idDigest

end Posting

/-! ## What each check says -/

theorem retainedSettle_eq_ok {ks : Keystore} {p : Parsed} (hm : ks.memory = some p) {tag : Tag}
    {settled : Pending} {figures : Figures} :
    retainedSettle ks tag = .ok (settled, figures) ↔ ∃ slot, p.slots.get? tag = some slot ∧
      slot.pending = none ∧ slot.settled = some settled ∧ settled.figures = some figures := by
  unfold retainedSettle
  rw [Keystore.view, live_of_memory hm, ok_bind]
  dsimp only
  rcases p.slots.get? tag with _ | slot
  · simp
  · rcases hopen : slot.pending with _ | pending
    · rcases hsettled : slot.settled with _ | block
      · simp [hopen, hsettled]
      · rcases hfigures : block.figures with _ | recorded
        · simp only [Option.map_some, hopen, hsettled, hfigures]
          refine iff_of_false (by simp) ?_
          rintro ⟨slot', hslot, -, hblock, hrecorded⟩
          cases hslot
          cases hsettled.symm.trans hblock
          cases hfigures.symm.trans hrecorded
        · simp only [Option.map_some, hopen, hsettled, hfigures]
          constructor
          · rintro ⟨⟩
            exact ⟨slot, rfl, hopen, hsettled, hfigures⟩
          · rintro ⟨slot', hslot, -, hblock, hrecorded⟩
            cases hslot
            cases hsettled.symm.trans hblock
            cases hfigures.symm.trans hrecorded
            rfl
    · simp [hopen]

theorem retainedSettle_poisoned {ks : Keystore} (hm : ks.memory = none) (tag : Tag) :
    ∃ e, retainedSettle ks tag = .error e := by
  obtain ⟨first, hfirst⟩ := poisoned_of_memory hm
  refine ⟨.other (.poisoned first), ?_⟩
  unfold retainedSettle
  rw [Keystore.view, live, hfirst]
  rfl

theorem verifyWots_eq_ok {tx : Transaction} : verifyWots tx = .ok () ↔
    (wotsPkFromSig tx.wots.signature (Transaction.messageDigest tx.toTransfer) tx.wots.pubSeed
      (Adrs.fromLeImage tx.wots.adrs)).2 = Adrs.fromLeImage tx.wots.adrs ∧
    hashOf (addrFromWots (wotsPkFromSig tx.wots.signature
      (Transaction.messageDigest tx.toTransfer) tx.wots.pubSeed
      (Adrs.fromLeImage tx.wots.adrs)).1) = hashOf tx.srcAddr := by
  unfold verifyWots
  dsimp only
  split
  · next h => exact iff_of_false (by simp) fun h' => h h'.1
  · next h =>
    split
    · next h' => exact iff_of_false (by simp) fun h'' => h' h''.2
    · next h' => exact iff_of_true rfl ⟨not_not.mp h, not_not.mp h'⟩

theorem savedArtifact_eq_ok {settled : Pending} {saved : Bytes} {tx : Transaction} :
    savedArtifact settled saved = .ok tx ↔ Transaction.fromWire saved = .ok tx ∧
      tx.toWire = saved ∧ Transaction.messageDigest tx.toTransfer = settled.digest ∧
      verifyWots tx = .ok () := by
  unfold savedArtifact
  rcases Transaction.fromWire saved with cause | tx'
  · simp
  · dsimp only
    by_cases hwire : tx'.toWire = saved
    · rw [if_neg (not_not.mpr hwire)]
      by_cases hdigest : Transaction.messageDigest tx'.toTransfer = settled.digest
      · rw [if_neg (not_not.mpr hdigest)]
        rcases hverify : verifyWots tx' with cause | ⟨⟩
        · refine iff_of_false (by simp) ?_
          rintro ⟨⟨⟩, -, -, h⟩
          cases hverify.symm.trans h
        · constructor
          · rintro ⟨⟩
            exact ⟨rfl, hwire, hdigest, hverify⟩
          · rintro ⟨⟨⟩, -⟩
            rfl
      · rw [if_pos hdigest]
        refine iff_of_false (by simp) ?_
        rintro ⟨⟨⟩, -, h, -⟩
        exact hdigest h
    · rw [if_pos hwire]
      refine iff_of_false (by simp) ?_
      rintro ⟨⟨⟩, h, -⟩
      exact hwire h

/-- A signed transaction has as many destinations as the layout can state. -/
theorem countHeld_of_attach {plan : SpendPlan} {sig : SpendSignature} {signed : SignedTransaction}
    (h : SignedTransaction.attach plan sig = .ok signed) : signed.tx.CountHeld := by
  obtain ⟨tx, hunsigned, -⟩ := plan.unsigned_eq_ok
  obtain ⟨unsigned, hnew, -⟩ := bind_eq_ok.mp hunsigned
  have hheld := Transaction.countHeld_new hnew
  have hdsts : signed.tx.dsts = plan.dsts :=
    congrArg Transfer.dsts (SignedTransaction.attach_transfer h).1
  rw [Transaction.CountHeld, Transaction.new_eq_ok hnew] at hheld
  rw [Transaction.CountHeld, hdsts]
  exact hheld

omit [Crypto] in
/-- No transaction is too long for a request. -/
theorem requestSubmitWire_fromWire {wire : Bytes} {tx : Transaction}
    (h : Transaction.fromWire wire = .ok tx) : requestSubmitWire wire = .ok () := by
  obtain ⟨count, -, -, hmost⟩ := Transaction.framed_of_fromWire h
  have hcount : count.toNat < 256 := count.toNat_lt
  rw [Transaction.txSzAt] at hmost
  simp only [sizeofTxhdr, sizeofMdst, sizeofWotsval, sizeofTxtlr, addrLen, addrTagLen, addrRefLen,
    sigLen, wotsLen, wotsLen1, wotsLen2, hashLen] at hmost
  unfold requestSubmitWire
  exact if_neg (by simp only [maxRequestBytes, submitEnvelopeLen]; omega)

omit [Crypto] in
theorem refuseExpired_ok {blkToLive : UInt64} {n n' : Node} {expiry : Expiry}
    (h : expiryOf blkToLive n = (expiry, n')) :
    refuseExpired blkToLive expiry = .ok () ↔
      blkToLive = 0 ∨ ∃ tip tips, n.tips = .ok tip :: tips ∧ tip < blkToLive := by
  unfold expiryOf at h
  split at h
  · next hzero =>
    cases h
    exact iff_of_true rfl (.inl hzero)
  next hlive =>
  unfold Node.networkStatus at h
  rcases htips : n.tips with _ | ⟨cause | tip, tips⟩ <;> rw [htips] at h
  · cases h
    exact iff_of_false (by simp [refuseExpired]) (by simp [hlive])
  · cases h
    exact iff_of_false (by simp [refuseExpired]) (by simp [hlive])
  · dsimp only at h
    cases h
    split
    · next hreached =>
      refine iff_of_false (by simp [refuseExpired]) ?_
      rintro (hzero | ⟨tip', tips', htip, hlt⟩)
      · exact hlive hzero
      · cases htip
        exact absurd hlt (UInt64.not_lt.mpr hreached)
    · next hbelow => exact iff_of_true rfl (.inr ⟨tip, tips, rfl, UInt64.not_le.mp hbelow⟩)

/-! ## The walk from one behind -/

omit [Crypto] in
theorem walk_never {target : Address} {addressAt : WotsIndex → Except Error Address}
    {ps : List WotsIndex} {n n' : Node} {w : Walk}
    (h : walk target .never addressAt ps n = (w, n')) : n' = n := by
  induction ps generalizing n with
  | nil =>
    cases h
    rfl
  | cons p ps ih =>
    unfold walk at h
    rw [Node.stop_never] at h
    dsimp only at h
    split at h
    · cases h
      rfl
    · split at h
      · cases h
        rfl
      · exact ih h

omit [Crypto] in
theorem locate_never {chain : Address} {stored : WotsIndex} {scope : ScanScope} {n n' : Node}
    {addressAt : WotsIndex → Except Error Address} {found : ChainPosition}
    (h : locate chain stored scope .never addressAt n = (found, n')) : n' = n := by
  unfold locate at h
  rcases hwalk : walk chain .never addressAt (scope.positions (some stored)) n with ⟨w, m⟩
  rw [hwalk] at h
  obtain rfl := walk_never hwalk
  cases w with
  | found i =>
    dsimp only at h
    split at h <;> cases h <;> rfl
  | notFound =>
    cases h
    rfl
  | failed stoppedAt cause =>
    cases h
    rfl

omit [Crypto] in
/-- The narrow scope begins with the position one behind, at every stored one that has it: the
last, whose successor does not exist, and the second, whose predecessor is the first. -/
theorem narrow_positions {spent stored : WotsIndex} (h : stored.pos = spent.pos + 1) :
    ∃ rest, narrow.positions (some stored) = spent :: rest := by
  have hstored := stored.pos_lt
  have hmax : u32Max = 2 ^ 32 - 1 := rfl
  have hone : (1 : UInt32).toNat = 1 := rfl
  obtain ⟨len, hlen⟩ : ∃ len, min (min (stored.pos + 1) u32Max) (u32Max - 1) + 1 -
      (stored.pos - 1) = len + 1 := ⟨_, (Nat.succ_pred_eq_of_pos (by omega)).symm⟩
  unfold ScanScope.positions ScanScope.windowEdges narrow
  dsimp only
  rw [hone, hlen, List.range'_succ, List.cons_append, List.map_cons]
  exact ⟨_, congrArg (· :: _) (by rw [h, Nat.add_sub_cancel]; exact spent.ofNat_pos)⟩

omit [Crypto] in
theorem locate_spent {at' : WotsIndex → Address} {addressAt : WotsIndex → Except Error Address}
    {chain : Address} {spent stored : WotsIndex} {n : Node}
    (hat : ∀ q, addressAt q = .ok (at' q)) (h : stored.pos = spent.pos + 1)
    (hchain : at' spent = chain) :
    locate chain stored narrow .never addressAt n = (.behind spent 1, n) := by
  obtain ⟨rest, hpositions⟩ := narrow_positions h
  have hwalk : walk chain .never addressAt (spent :: rest) n = (.found spent, n) := by
    rw [walk, Node.stop_never]
    simp only [hat, hchain, if_true]
  have hgap : stored.raw - spent.raw = 1 := by
    have hle : spent.raw ≤ stored.raw := UInt32.le_iff_toNat_le.mpr (by simp only [WotsIndex.pos] at h; omega)
    refine UInt32.toNat_inj.mp ?_
    rw [UInt32.toNat_sub_of_le _ _ hle]
    simp only [WotsIndex.pos] at h
    show _ = 1
    omega
  unfold locate
  rw [hpositions, hwalk]
  dsimp only
  rw [if_neg (by omega), hgap]

/-! ## One behind -/

section
variable {ks : Keystore} {p : Parsed} {tag : Tag} {access : KeyAccess} {n n' : Node} {slot : Slot}
  {settled : Pending}

omit [Crypto] in
theorem revertedBalance_eq_ok {found : Except Divergence AccountStatus} {balance : UInt64} :
    revertedBalance settled found = .ok balance ↔ ∃ tag stored storedAddress chain stream,
      found = .error (.indexMismatch tag stored storedAddress chain balance stream
        (.behind settled.spentIndex 1) (some settled)) := by
  constructor
  · intro h
    unfold revertedBalance at h
    split at h
    · cases h
    · split at h
      · split at h
        · next hat =>
          obtain ⟨rfl, rfl, rfl⟩ := hat
          cases h
          exact ⟨_, _, _, _, _, rfl⟩
        · cases h
      · cases h
      · cases h
    · cases h
    · cases h
    · cases h
  · rintro ⟨_, _, _, _, _, rfl⟩
    exact if_pos ⟨rfl, rfl, rfl⟩

omit [Crypto] in
variable (settled) in
/-- A lookup is answered with an entry of its tag, or ends in no mismatch. -/
theorem entryOf_answered {view : AccountView} {r : Reply Divergence LedgerEntry}
    (h : entryOf tag view n = (r, n')) :
    (∃ entry entries, n.entries = .ok entry :: entries ∧ tagOf entry.address = tag) ∨
      ∃ d, r = .err d ∧ ∀ balance, revertedBalance settled (.error d) ≠ .ok balance := by
  unfold entryOf at h
  rcases hr : Node.resolveTag tag n with ⟨r', m⟩
  rw [hr] at h
  rcases Node.resolveTag_cases hr with ⟨entry, rfl, htag, -⟩ | ⟨⟨e, rfl⟩, -⟩
  · obtain ⟨entries, hentries⟩ := Node.resolveTag_entries hr
    exact .inl ⟨entry, entries, hentries, htag⟩
  · refine .inr ?_
    split at h
    · next heq => cases heq
    · cases h
      exact ⟨_, rfl, by simp [revertedBalance]⟩
    · cases h
      exact ⟨_, rfl, by simp [revertedBalance]⟩
    · next heq => cases heq

omit [Crypto] in
theorem entryOf_tips {view : AccountView} {r : Reply Divergence LedgerEntry}
    (h : entryOf tag view n = (r, n')) : n'.tips = n.tips := by
  have hkeeps : (Node.resolveTag tag n).2.tips = n.tips := by
    unfold Node.resolveTag
    split
    · rfl
    · rfl
    · split <;> rfl
  unfold entryOf at h
  split at h <;> next heq =>
    cases h
    rwa [heq] at hkeeps

/-- The node answered with the address of the position one behind, and that is not the stored
one's. -/
structure OneBehind (ks : Keystore) (n : Node) (tag : Tag) (access : KeyAccess) (slot : Slot)
    (settled : Pending) (entry : LedgerEntry) : Prop where
  answered : ∃ entries, n.entries = .ok entry :: entries
  spent : ks.addressAt tag settled.spentIndex access = .ok entry.address
  behind : slot.account.wotsIndex.pos = settled.spentIndex.pos + 1
  moved : ks.addressAt tag slot.account.wotsIndex access ≠ .ok entry.address

theorem reconcile_behind (hm : ks.memory = some p) (hslot : p.slots.get? tag = some slot)
    (hopen : slot.pending = none) (hsettled : slot.settled = some settled)
    {found : Except Divergence AccountStatus} {balance : UInt64}
    (h : reconcileAccountWith ks tag access narrow .never n = (.ofExcept found, n')) :
    revertedBalance settled found = .ok balance ↔
      ∃ entry, OneBehind ks n tag access slot settled entry ∧ entry.balance = balance := by
  constructor
  · intro hbalance
    obtain ⟨entry, entries, hentries, htag⟩ : ∃ entry entries,
        n.entries = .ok entry :: entries ∧ tagOf entry.address = tag := by
      have h' := h
      unfold reconcileAccountWith at h'
      rw [(viewOf_eq_ok hm).mpr ⟨slot, hslot, rfl⟩, Call.check_ok, Call.pure_bind] at h'
      rcases Call.bind_cases h' with ⟨entry, m, he, -⟩ | ⟨d, he, hr⟩ | ⟨-, hr⟩
      · rcases entryOf_answered settled he with hanswered | ⟨d, hd, -⟩
        · exact hanswered
        · cases hd
      · rcases entryOf_answered settled he with hanswered | ⟨d', hd, hnone⟩
        · exact hanswered
        · cases hd
          rcases found with d'' | status <;> cases hr
          exact absurd hbalance (hnone balance)
      · rcases found with d | status <;> cases hr
    rw [reconcile_heard hm hslot hentries htag, hopen] at h
    dsimp only at h
    unfold reconcileClosed at h
    rcases haddress : ks.addressAt tag slot.account.wotsIndex access with cause | storedAddress
    · rw [haddress] at h
      rcases found with d | status <;> cases h
      simp [revertedBalance] at hbalance
    obtain ⟨at', hat⟩ := addressAt_all hm haddress
    obtain rfl : at' slot.account.wotsIndex = storedAddress :=
      Except.ok.inj ((hat _).symm.trans haddress)
    rw [haddress, orCannot, Call.check_ok, Call.pure_bind, Call.ite_apply] at h
    split at h
    · rcases found with d | status <;> cases h
      simp [revertedBalance] at hbalance
    next hne =>
    rw [Call.of_apply] at h
    rcases hlocate : locate entry.address slot.account.wotsIndex narrow .never
      (fun q => ks.addressAt tag q access) { n with entries, heard := (tag, entry) :: n.heard }
      with ⟨position, m⟩
    have hexact := locate_exact hat (Ne.symm hne) hlocate
    rw [hlocate] at h
    rcases found with d | status <;> cases h
    obtain ⟨_, _, _, _, _, hmismatch⟩ := revertedBalance_eq_ok.mp hbalance
    simp only [Except.error.injEq, Divergence.indexMismatch.injEq] at hmismatch
    obtain ⟨-, -, -, -, hentry, -, rfl, -⟩ := hmismatch
    obtain ⟨-, hchain, -, hgap⟩ := hexact
    refine ⟨entry, ⟨⟨entries, hentries⟩, by rw [hat, hchain], by rw [← hgap]; rfl, ?_⟩, hentry⟩
    rw [haddress]
    exact fun heq => hne (Except.ok.inj heq).symm
  · rintro ⟨entry, ⟨⟨entries, hentries⟩, hspent, hbehind, hmoved⟩, rfl⟩
    obtain ⟨slot', key, -, -, haddress⟩ := (addressAt_eq_ok hm).mp hspent
    have htag : tagOf entry.address = tag := haddress ▸ key.tagOf_address _
    obtain ⟨at', hat⟩ := addressAt_all hm hspent
    rw [hat] at hmoved hspent
    rw [reconcile_heard hm hslot hentries htag, hopen] at h
    dsimp only at h
    unfold reconcileClosed at h
    rw [hat, orCannot, Call.check_ok, Call.pure_bind, Call.ite_apply,
      if_neg (fun heq => hmoved (congrArg Except.ok heq.symm)), Call.of_apply,
      locate_spent hat hbehind (Except.ok.inj hspent), hsettled] at h
    dsimp only at h
    rw [if_pos rfl] at h
    rcases found with d | status <;> cases h
    exact revertedBalance_eq_ok.mpr ⟨_, _, _, _, _, rfl⟩

theorem reconcileClosed_never {view : AccountView} {entry : LedgerEntry} {stream : StreamId}
    {scope : ScanScope} {r : Reply Divergence AccountStatus}
    (h : reconcileClosed ks tag access scope .never view entry stream n = (r, n')) : n' = n := by
  unfold reconcileClosed at h
  rcases Call.check_bind_cases h with ⟨d, -, -, rfl⟩ | ⟨storedAddress, -, h⟩
  · rfl
  rw [Call.ite_apply] at h
  split at h
  · cases h
    rfl
  · rcases hlocate : locate entry.address view.wotsIndex scope .never
      (fun q => ks.addressAt tag q access) n with ⟨position, m⟩
    obtain rfl := locate_never hlocate
    rw [Call.of_apply, hlocate] at h
    cases h
    rfl

/-- Reconciling an account with no reservation reads no tip. -/
theorem reconcile_tips (hm : ks.memory = some p) (hslot : p.slots.get? tag = some slot)
    (hopen : slot.pending = none) {scope : ScanScope} {r : Reply Divergence AccountStatus}
    (h : reconcileAccountWith ks tag access scope .never n = (r, n')) : n'.tips = n.tips := by
  unfold reconcileAccountWith at h
  rw [(viewOf_eq_ok hm).mpr ⟨slot, hslot, rfl⟩, Call.check_ok, Call.pure_bind] at h
  rcases Call.bind_cases h with ⟨entry, m, he, h⟩ | ⟨d, he, -⟩ | ⟨he, -⟩
  · rcases Call.check_bind_cases h with ⟨d, -, -, rfl⟩ | ⟨stream, -, h⟩
    · exact entryOf_tips he
    · rw [hopen] at h
      rw [reconcileClosed_never h, entryOf_tips he]
  · exact entryOf_tips he
  · exact entryOf_tips he

end

/-! ## What a resubmission sends -/

/-- Everything a resubmission asks of the store, the saved bytes and the node. -/
structure Resubmittable (ks : Keystore) (n : Node) (tag : Tag) (access : KeyAccess) (saved : Bytes)
    (slot : Slot) (settled : Pending) (figures : Figures) (tx : Transaction) (entry : LedgerEntry) :
    Prop where
  held : ∃ p, ks.memory = some p ∧ p.slots.get? tag = some slot
  closed : slot.pending = none
  retained : slot.settled = some settled
  recorded : settled.figures = some figures
  image : Transaction.fromWire saved = .ok tx
  whole : tx.toWire = saved
  digest : Transaction.messageDigest tx.toTransfer = settled.digest
  scheme : (wotsPkFromSig tx.wots.signature settled.digest tx.wots.pubSeed
    (Adrs.fromLeImage tx.wots.adrs)).2 = Adrs.fromLeImage tx.wots.adrs
  recovers : hashOf (addrFromWots (wotsPkFromSig tx.wots.signature settled.digest tx.wots.pubSeed
    (Adrs.fromLeImage tx.wots.adrs)).1) = hashOf tx.srcAddr
  reverted : OneBehind ks n tag access slot settled entry
  balance : entry.balance = figures.reservedBalance
  live : figures.blkToLive = 0 ∨ ∃ tip tips, n.tips = .ok tip :: tips ∧ tip < figures.blkToLive

section
variable {ks : Keystore} {n n' : Node} {tag : Tag} {access : KeyAccess} {saved : Bytes} {slot : Slot}
  {settled : Pending} {figures : Figures} {tx : Transaction} {entry : LedgerEntry}

theorem Resubmittable.retains
    (h : Resubmittable ks n tag access saved slot settled figures tx entry) :
    retainedSettle ks tag = .ok (settled, figures) := by
  obtain ⟨p, hm, hslot⟩ := h.held
  exact (retainedSettle_eq_ok hm).mpr ⟨slot, hslot, h.closed, h.retained, h.recorded⟩

theorem Resubmittable.artifact
    (h : Resubmittable ks n tag access saved slot settled figures tx entry) :
    savedArtifact settled saved = .ok tx := by
  refine savedArtifact_eq_ok.mpr ⟨h.image, h.whole, h.digest, verifyWots_eq_ok.mpr ?_⟩
  rw [h.digest]
  exact ⟨h.scheme, h.recovers⟩

theorem Resubmittable.reconciles
    (h : Resubmittable ks n tag access saved slot settled figures tx entry)
    {found : Except Divergence AccountStatus}
    (hfound : reconcileAccountWith ks tag access narrow .never n = (.ofExcept found, n')) :
    revertedBalance settled found = .ok figures.reservedBalance := by
  obtain ⟨p, hm, hslot⟩ := h.held
  exact (reconcile_behind hm hslot h.closed h.retained hfound).mpr ⟨entry, h.reverted, h.balance⟩

end

namespace Posting

variable {D : Type} {s s' : Posting D} {tag : Tag} {access : KeyAccess} {saved : Bytes}

theorem asking_cases {ε α : Type} {x : Keystore → Call Node ε α} {r : Reply ε α}
    (h : asking x s = (r, s')) : s'.session.store = s.session.store ∧ s'.posted = s.posted ∧
      x s.session.store.ks s.session.node = (r, s'.session.node) := by
  obtain ⟨t, hasked, rfl⟩ := Call.zoom_cases h
  obtain ⟨hstore, hx⟩ := Session.asking_cases hasked
  exact ⟨hstore, rfl, hx⟩

/-- A submission posts its image once, unless that is too long to be asked for. -/
theorem submitWire_cases {wire : Bytes} {id : Digest} {r : Reply ResubmitError Digest}
    (h : submitWire wire id s = (r, s')) (hfits : requestSubmitWire wire = .ok ()) :
    s'.session.store = s.session.store ∧ s'.posted = wire :: s.posted := by
  unfold submitWire at h
  rw [hfits, Call.check_ok, Call.pure_bind, Call.modify_bind] at h
  obtain ⟨hstore, hposted, -⟩ := asking_cases h
  exact ⟨hstore, hposted⟩

/-- A resubmission leaves the store as it is. It posts nothing, and then something it asks is not
so; or everything is, and it posts the saved bytes. -/
theorem resubmit_cases {r : Reply ResubmitError Digest}
    (h : resubmitRevertedSettle tag access saved s = (r, s')) :
    s'.session.store = s.session.store ∧
      ((s'.posted = s.posted ∧ ¬ ∃ slot settled figures tx entry, Resubmittable s.session.store.ks
          s.session.node tag access saved slot settled figures tx entry) ∨
        s'.posted = saved :: s.posted ∧ ∃ slot settled figures tx entry, Resubmittable
          s.session.store.ks s.session.node tag access saved slot settled figures tx entry) := by
  unfold resubmitRevertedSettle at h
  rw [Call.get_bind] at h
  rcases hm : s.session.store.ks.memory with _ | p
  · obtain ⟨e, he⟩ := retainedSettle_poisoned hm tag
    rw [he] at h
    cases h
    refine ⟨rfl, .inl ⟨rfl, ?_⟩⟩
    rintro ⟨_, _, _, _, _, hall⟩
    cases he.symm.trans hall.retains
  rcases Call.check_bind_cases h with ⟨e, he, -, rfl⟩ | ⟨⟨settled, figures⟩, hsettled, h⟩
  · refine ⟨rfl, .inl ⟨rfl, ?_⟩⟩
    rintro ⟨_, _, _, _, _, hall⟩
    cases he.symm.trans hall.retains
  obtain ⟨slot, hslot, hopen, hretained, hrecorded⟩ := (retainedSettle_eq_ok hm).mp hsettled
  rcases Call.check_bind_cases h with ⟨e, he, -, rfl⟩ | ⟨tx, htx, h⟩
  · refine ⟨rfl, .inl ⟨rfl, ?_⟩⟩
    rintro ⟨_, _, _, _, _, hall⟩
    cases hsettled.symm.trans hall.retains
    cases he.symm.trans hall.artifact
  obtain ⟨himage, hwhole, hdigest, hverify⟩ := savedArtifact_eq_ok.mp htx
  -- the reconciliation
  rcases Call.bind_cases h with ⟨found, t, hasked, h⟩ | ⟨e, hasked, -⟩ | ⟨hasked, -⟩ <;>
    obtain ⟨hstore, hposted, hfound⟩ := asking_cases hasked <;>
    rcases Call.attempt_cases hfound with ⟨found', hr, hfound⟩ | ⟨hr, hkilled⟩ <;> cases hr
  on_goal 2 => exact absurd rfl (reconcile_not_killed hkilled)
  rcases Call.check_bind_cases h with ⟨e, he, -, rfl⟩ | ⟨balance, hbalance, h⟩
  · refine ⟨hstore, .inl ⟨hposted, ?_⟩⟩
    rintro ⟨_, _, _, _, _, hall⟩
    cases hsettled.symm.trans hall.retains
    cases he.symm.trans (hall.reconciles hfound)
  obtain ⟨entry, hreverted, rfl⟩ := (reconcile_behind hm hslot hopen hretained hfound).mp hbalance
  rw [Call.ite_apply] at h
  split at h
  · next hmoved =>
    cases h
    refine ⟨hstore, .inl ⟨hposted, ?_⟩⟩
    rintro ⟨_, _, _, _, _, hall⟩
    cases hsettled.symm.trans hall.retains
    exact hmoved (Except.ok.inj (hbalance.symm.trans (hall.reconciles hfound)))
  next hreserved =>
  -- the expiry
  rcases Call.bind_cases h with ⟨expiry, u, hasked', h⟩ | ⟨e, hasked', -⟩ | ⟨hasked', -⟩ <;>
    obtain ⟨hstore', hposted', hexpiry⟩ := asking_cases hasked' <;>
    rcases hread : expiryOf figures.blkToLive t.session.node with ⟨expiry', m⟩ <;>
    rw [Call.of_apply, hread] at hexpiry <;> cases hexpiry
  have hlive := refuseExpired_ok hread
  rw [reconcile_tips hm hslot hopen hfound] at hlive
  have hstore := hstore'.trans hstore
  have hposted := hposted'.trans hposted
  rcases Call.check_bind_cases h with ⟨e, he, -, rfl⟩ | ⟨⟨⟩, hpassed, h⟩
  · refine ⟨hstore, .inl ⟨hposted, ?_⟩⟩
    rintro ⟨_, _, _, _, _, hall⟩
    cases hsettled.symm.trans hall.retains
    cases he.symm.trans (hlive.mpr hall.live)
  obtain ⟨hstore'', hposted''⟩ := submitWire_cases h (requestSubmitWire_fromWire himage)
  obtain ⟨hscheme, hrecovers⟩ := verifyWots_eq_ok.mp hverify
  rw [hdigest] at hscheme hrecovers
  exact ⟨hstore''.trans hstore, .inr ⟨by rw [hposted'', hposted], slot, settled, figures, tx, entry,
    ⟨p, hm, hslot⟩, hopen, hretained, hrecorded, himage, hwhole, hdigest, hscheme, hrecovers,
    hreverted, not_not.mp hreserved, hlive.mp hpassed⟩⟩

/-- A resubmission leaves the store as it is and posts at most once, and then the saved bytes. It
posts exactly when everything it asks is so: no reservation open and a settle retained with its
figures, the bytes the whole image of the spend that was settled, signed by the key its source is
of, and the node's answers those of a chain one position behind, at the key that was spent, with
the balance it was built against and its expiry not reached. What is posted has then the source
and the change address of any spend of the settled digest, unless two spends have that digest. -/
theorem resubmit_sends_settled (s : Posting D) (tag : Tag) (access : KeyAccess) (saved : Bytes) :
    (resubmitRevertedSettle tag access saved s).2.session.store = s.session.store ∧
      ((resubmitRevertedSettle tag access saved s).2.posted = s.posted ∨
        (resubmitRevertedSettle tag access saved s).2.posted = saved :: s.posted) ∧
      ((resubmitRevertedSettle tag access saved s).2.posted = saved :: s.posted ↔
        ∃ slot settled figures tx entry, Resubmittable s.session.store.ks s.session.node tag access
          saved slot settled figures tx entry) ∧
      ∀ slot settled figures tx entry, Resubmittable s.session.store.ks s.session.node tag access
          saved slot settled figures tx entry →
        ∀ plan : SpendPlan, plan.digest = settled.digest →
          (Crypto.sha256 tx.signedPrefix = Crypto.sha256 plan.transfer.signedPrefix →
            tx.signedPrefix = plan.transfer.signedPrefix) →
          tx.srcAddr = plan.srcAddr ∧ tx.chgAddr = plan.chgAddr := by
  rcases h : resubmitRevertedSettle tag access saved s with ⟨r, s'⟩
  obtain ⟨hstore, hposted⟩ := resubmit_cases h
  have hne : s.posted ≠ saved :: s.posted := fun he => by
    have := congrArg List.length he
    simp at this
  refine ⟨hstore, ?_, ?_, ?_⟩
  · exact hposted.imp And.left And.left
  · rcases hposted with ⟨hposted, hnone⟩ | ⟨hposted, hall⟩
    · exact iff_of_false (fun he => hne (hposted.symm.trans he)) hnone
    · exact iff_of_true hposted hall
  · intro slot settled figures tx entry hall plan hplan hcollide
    have htransfer : tx.toTransfer = plan.transfer := by
      refine signedPrefix_inj (hcollide ?_)
      show Transaction.messageDigest tx.toTransfer = Transaction.messageDigest plan.transfer
      rw [hall.digest, ← hplan, plan.digest_eq]
    exact ⟨congrArg Transfer.srcAddr htransfer, congrArg Transfer.chgAddr htransfer⟩

end Posting

end

/-! ## A settle that was reverted -/

section
attribute [local instance] Crypto.numbering

/-- A spend with the second key was settled; the node is back at its address, and its saved copy goes
out. -/
theorem resubmit_sends_settled_behind : ∃ (s : Posting Unit) (saved : Bytes) (tx : Transaction)
    (plan : SpendPlan), Transaction.fromWire saved = .ok tx ∧ s.posted = [] ∧
    (Posting.resubmitRevertedSettle lastTag (.master sevens) saved s).2.posted = [saved] ∧
    (Posting.resubmitRevertedSettle lastTag (.master sevens) saved s).2.session.store = s.session.store ∧
    plan.srcAddr = lastAddress ⟨1⟩ ∧ tx.srcAddr = plan.srcAddr ∧ tx.chgAddr = plan.chgAddr := by
  have hplan : (SpendPlan.new ⟨lastTag, ⟨1⟩, lastAddress ⟨1⟩, lastAddress ⟨2⟩⟩ ⟨lastAddress ⟨1⟩, 1000⟩
      [⟨.zero addrTagLen, .zero addrRefLen, 100⟩] 500 0).toOption.isSome := by decide +kernel
  obtain ⟨plan, hplan⟩ := Option.isSome_iff_exists.mp hplan
  obtain ⟨-, hposition, hsrc, -, -, hblk, hbalance, -⟩ :=
    PlanFields.build_eq_ok (SpendPlan.new_eq_ok.mp (toOption_eq_some.mp hplan))
  have hkey : (derivedKeyAt (deriveAccount sevens 0xffffffff) ⟨1⟩).address lastTag = plan.srcAddr :=
    hsrc.symm
  obtain ⟨⟨tx⟩, hattach⟩ := SignedTransaction.attach_signWith hkey
  obtain ⟨htransfer, -⟩ := SignedTransaction.attach_transfer hattach
  have hdigest : Transaction.messageDigest tx.toTransfer = plan.digest := by
    rw [plan.digest_eq]
    exact congrArg Transaction.messageDigest htransfer
  obtain ⟨hscheme, hrecovers⟩ := verifyWots_eq_ok.mp (SignedTransaction.attach_verifies hattach)
  rw [hdigest] at hscheme hrecovers
  have hread := Transaction.fromWire_toWire (countHeld_of_attach hattach)
  let settled : Pending := ⟨⟨1⟩, plan.digest, some plan.figures⟩
  let s : Posting Unit := ⟨⟨⟨loneStore (usedTwice none (some settled)), ()⟩,
    ⟨[.ok ⟨lastAddress ⟨1⟩, 1000⟩], [], [], [], []⟩⟩, []⟩
  have hmoved : lastAddress ⟨2⟩ ≠ lastAddress ⟨1⟩ := fun he =>
    absurd (congrArg WotsIndex.pos (derivedKeyAt_injective sevens lastTag he)) (by decide)
  have hreverted : OneBehind s.session.store.ks s.session.node lastTag (.master sevens)
      (usedTwice none (some settled)) settled ⟨lastAddress ⟨1⟩, 1000⟩ := by
    refine ⟨⟨[], rfl⟩, addressAt_usedTwice _ _ _, rfl, fun he => hmoved ?_⟩
    exact Except.ok.inj ((addressAt_usedTwice _ _ _).symm.trans he)
  have hall : Resubmittable s.session.store.ks s.session.node lastTag (.master sevens) tx.toWire
      (usedTwice none (some settled)) settled plan.figures tx ⟨lastAddress ⟨1⟩, 1000⟩ :=
    ⟨⟨_, rfl, loneState_get?⟩, rfl, rfl, rfl, hread, rfl, hdigest, hscheme, hrecovers, hreverted,
      hbalance.symm, .inl hblk⟩
  obtain ⟨hstore, -, hposts, haddresses⟩ :=
    Posting.resubmit_sends_settled s lastTag (.master sevens) tx.toWire
  obtain ⟨hsource, hchange⟩ := haddresses _ _ _ _ _ hall plan rfl fun _ =>
    congrArg Transfer.signedPrefix htransfer
  exact ⟨s, tx.toWire, tx, plan, hread, rfl, hposts.mpr ⟨_, _, _, _, _, hall⟩, hstore, hsrc, hsource,
    hchange⟩

end

end MochimoWallet
