import MochimoWallet.Cli.Outcome

/-!
# Deciding a command

The commands that need no wallet answer first: restore, address, discover, submit, the five that only
read the node, status and reconcile. The others open a wallet, and one that names an account which
did not reconcile is refused with that account's report.
-/

namespace MochimoWallet.Cli

open Codec Keystore Session Mesh

section
variable [Crypto] {D ε : Type}

/-! ## Key access and addresses -/

/-- The access an account's kind demands, a refusal as the error a command renders. -/
def keyAccess (ks : Keystore) (tag : Tag) (master : Option Secret) : Except Error KeyAccess :=
  match accessFor ks tag master with
  | .ok access => .ok access
  | .error (.noMasterForDerivedAccount _) => .error (.keyAccessMismatch .derived)
  | .error (.cannotReconcile _ cause) => .error cause
  | .error _ => .error (.reconciliationRefused
      "the store's view of this account could not choose its key access")

/-- Run a call of the session under the access an account's kind demands. -/
def withAccess {α : Type} (tag : Tag) (master : Option Secret) (x : KeyAccess → Call (Session D) Error α) :
    Call (Session D) Error α := do
  let s ← Call.get
  let access ← Call.check (keyAccess s.store.ks tag master)
  x access

/-- What the store holds, from its records alone. -/
def accountsIn (ks : Keystore) : Except Error (List Command.Held) := do
  let tags ← ks.tags
  let views ← tags.mapM ks.view
  .ok (views.filterMap (·.map fun v => ⟨v.tag, v.kind, v.wotsIndex⟩))

/-- The address an account stands at, and its index. -/
def addressOf (ks : Keystore) (tag : Tag) (access : KeyAccess) : Except Error (Address × WotsIndex) := do
  match ← ks.view tag with
  | none => .error .noSuchAccount
  | some view => do
    let address ← ks.addressAt tag view.wotsIndex access
    .ok (address, view.wotsIndex)

/-! ## Spends -/

/-- A spend of one destination that asked for all. -/
def Spend.spendsEverything (s : Spend) : Bool := s.dsts.length = 1 && s.dsts.any fun d => d.amount.isNone

/-- The destinations as the wire wants them, with `all` resolved. -/
def spendDestinations (s : Spend) (resolved : UInt64) : List Destination :=
  s.dsts.map fun d => ⟨d.toTag, d.reference, d.amount.getD resolved⟩

/-- The balance less the fee. -/
def spendAllAmount (balance feeTotal : UInt64) : Except Error UInt64 :=
  if balance.toNat ≤ feeTotal.toNat then
    .error (.insufficientBalance balance (.ofNat (min (feeTotal.toNat + 1) (2 ^ 64 - 1))))
  else .ok (balance - feeTotal)

/-- Lay a spend out; `all` is resolved against the answer the plan is made on. -/
def planSpend (part : Partition) (s : Spend) (access : KeyAccess) : Call (Session D) Error SpendPlan :=
  if s.spendsEverything then do
    let addresses ← Wallet.spendAddresses part s.tag access
    let entry ← asking fun _ => Node.resolveTag s.tag
    let amount ← Call.check (spendAllAmount entry.balance s.feeTotal)
    Call.check (SpendPlan.new addresses entry (spendDestinations s amount) s.feeTotal s.blkToLive)
  else Wallet.plan part s.tag access (spendDestinations s 0) s.feeTotal s.blkToLive

/-- The destinations a reserved plan is rebuilt from. -/
def resignDestinations (s : Spend) : Call (Session D) Error (List Destination) :=
  if s.spendsEverything then do
    let entry ← asking fun _ => Node.resolveTag s.tag
    let amount ← Call.check (spendAllAmount entry.balance s.feeTotal)
    pure (spendDestinations s amount)
  else pure (spendDestinations s 0)

/-- Every destination in the form a page shows it, or the first that has none. -/
def destinationLines (dsts : List Destination) : Except (Tag × ReferenceError) (List Text) :=
  dsts.mapM fun d => (destination d.tag).mapError fun e => (d.tag, e)

/-- Whether the page of a spend can be rendered. -/
def renders (source : Tag) (dsts : List Destination) : Except (Tag × ReferenceError) Unit := do
  let _ ← (destination source).mapError fun e => (source, e)
  let _ ← destinationLines dsts
  .ok ()

/-! ## Before the gate -/

open Command (Decided)
open Desk

def cmdRestore [Layout D] (master : Option Secret) (account : UInt32) (scanTo : Option UInt32) :
    Call (Desk D) ε Command.Outcome :=
  match master with
  | none => pure .restoreNeedsMaster
  | some master => do
    let restored ← onSession (restoreAsking master account scanTo .never)
    let t ← Call.get
    match restored with
    | .ok r => pure (.restored account r.found r.heldAt t.session.store.ks.upgradedFrom)
    | .error (.refused failure) => pure (.restoreRefused account failure)
    -- A call that cannot be stopped is not cancelled.
    | .error .cancelled => pure .handledBeforeTheWallet

def cmdAccounts (ks : Keystore) : Command.Outcome :=
  match accountsIn ks with
  | .ok held => .accounts held
  | .error e => .failed e

def cmdAddressOfUnstoredAccount (ks : Keystore) (account : UInt32) (master : Option Secret) : Command.Outcome :=
  match master with
  | none => .noMasterSeed
  | some master =>
    let tag := deriveAccountTag master account
    match ks.view tag with
    | .ok (some view) => .accountAlreadyStored account tag view.wotsIndex
    | .ok none => .unstoredAddress account tag (derivedAddressAt master account .zero)
    | .error e => .failed e

def cmdAddress (ks : Keystore) (tag : Option Tag) (account : Option UInt32) (master : Option Secret) :
    Command.Outcome :=
  match account, tag with
  | some n, _ => cmdAddressOfUnstoredAccount ks n master
  | none, none => cmdAccounts ks
  | none, some tag =>
    match do addressOf ks tag (← keyAccess ks tag master) with
    | .ok (address, index) => .address tag address index
    | .error .noSuchAccount => .noAccountToAddress tag
    | .error e => .failed e

def cmdDiscover (master : Option Secret) (to' : UInt32) : Call (Desk D) ε Command.Outcome :=
  match master with
  | none => pure .discoverNeedsMaster
  | some master => do
    match ← onSession (sweepAsking master to' .never) with
    | .ok sweep => pure (.discovered sweep)
    | .error (.refused (.chainUnreachable account searched cause)) =>
      pure (.sweepStopped account searched to' cause)
    | .error .cancelled => pure .handledBeforeTheWallet

/-- Reconcile one account now. -/
def accountStatus (tag : Tag) (master : Option Secret) (scanTo : Option UInt32) :
    Call (Session D) Divergence AccountStatus := do
  let s ← Call.get
  let access ← Call.check (accessFor s.store.ks tag master)
  asking fun ks => reconcileAccountWith ks tag access (scopeTo scanTo) .never

/-- What status decides: a divergence that is an answer about the account is no refusal. -/
def statusOutcome (tag : Tag) : Except Divergence AccountStatus → Command.Outcome
  | .ok status => .status tag status
  | .error (.cannotReconcile _ .noSuchAccount) => .noSuchAccount tag
  | .error d =>
    match d with
    | .indexMismatch .. | .reservationUnexplained .. | .tagUnresolved .. => .statusDiverged tag d
    | _ => .statusRefused d

def cmdStatus (tag : Tag) (master : Option Secret) (scanTo : Option UInt32) : Call (Desk D) ε Command.Outcome := do
  let compared ← onSession (accountStatus tag master scanTo)
  pure (statusOutcome tag compared)

def cmdReconcile [Layout D] (tag : Tag) (master : Option Secret) (advanceTo : UInt32) :
    Call (Desk D) ε Command.Outcome := do
  let reviewed ← onSession (reviewAsking tag master advanceTo .never)
  let t ← Call.get
  match reviewed with
  | .ok reviewed => pure (.reconciled tag advanceTo reviewed t.session.store.ks.upgradedFrom)
  | .error (.refused e) => pure (.failed e)
  | .error .cancelled => pure .handledBeforeTheWallet

/-- The artifact, checked for its layout. -/
def artifactOf (artifact : Text) : Except Command.Outcome Transaction :=
  match Hex.decode artifact.trim "artifact" with
  | .error cause => .error (.artifactNotHex cause)
  | .ok bytes =>
  match Transaction.fromWire bytes with
  | .error cause => .error (.artifactNotATransaction cause)
  | .ok tx => if tx.toWire ≠ bytes then .error (.artifactNotWhole bytes.length tx.wireLen) else .ok tx

/-- Write an artifact to the socket as it is, with no store. -/
def cmdSubmit (artifact : Text) : Call (Desk D) ε Command.Outcome :=
  match artifactOf artifact with
  | .error outcome => pure outcome
  | .ok tx =>
    let source := tagOf tx.srcAddr
    match destination source with
    | .error cause => pure (.cannotRender source cause)
    | .ok _ => do
      let said ← ship tx.toWire tx.idDigest
      pure (.submitted source tx.toWire said)

/-! ## The node, read -/

variable (read : Bytes → Option Json.Value)

def cmdTransaction (hash : Block hashLen) : Call (Desk D) ε Command.Outcome := do
  match ← onExplorer (searchByHash read hash) with
  | .error cause => pure (.searchFailed cause)
  | .ok page =>
    if page.transactions = [] then pure (.transactionNotFound hash)
    else pure (.lookedUpTransaction page)

/-- The first page is asked for without an offset. -/
def cmdRecentTransactionsFrom (tag : Tag) (count skip : UInt64) : Call (Desk D) ε Command.Outcome := do
  let page ← onExplorer (if skip = 0 then searchByAccount read tag count
    else searchByAccountFrom read tag count skip)
  match page with
  | .ok page => pure (.recentTransactions tag skip page)
  | .error cause => pure (.searchFailed cause)

def cmdBlock (place : BlockAt) : Call (Desk D) ε Command.Outcome := do
  let got ← onExplorer (match place with
    | .index i => blockByIndex read i
    | .hash h => blockByHash read h)
  match got with
  | .ok block => pure (.block block)
  | .error cause => pure (.blockNotServed (match place with | .hash _ => true | .index _ => false) cause)

/-- The blocks from the `i`-th below the tip on, `left` of them at most, and none below index 1. -/
def walkBlocks (tip : UInt64) : ℕ → ℕ → List MeshBlock → Call Transport (UInt64 × QueryError) (List MeshBlock)
  | 0, _, rows => pure rows
  | left + 1, i, rows =>
    if tip.toNat ≤ i then pure rows
    else do
      let index := .ofNat (tip.toNat - i)
      let block ← (blockByIndex read index).mapErr fun cause => (index, cause)
      walkBlocks tip left (i + 1) (rows ++ [block])

def cmdBlocks (count : UInt64) : Call (Desk D) ε Command.Outcome := do
  match ← onExplorer (networkStatus read) with
  | .error cause => pure (.explorerFailed cause)
  | .ok tip => do
    match ← onExplorer (walkBlocks read tip.index count.toNat 0 []) with
    | .ok rows => pure (.blocks count tip rows)
    | .error (index, cause) => pure (.blocksStopped index cause)

/-- A waiting transaction; one that has left the queue since is no failure. -/
def mempoolRowOf (id : Digest) : Call Transport (Digest × QueryError) MempoolRow := do
  match ← (mempoolTransaction read id).attempt with
  | .ok t => pure ⟨id, some t⟩
  | .error (.reply (.mesh 3 _)) => pure ⟨id, none⟩
  | .error cause => Call.refuse (id, cause)

def walkMempool : List Digest → List MempoolRow → Call Transport (Digest × QueryError) (List MempoolRow)
  | [], rows => pure rows
  | id :: ids, rows => do
    let row ← mempoolRowOf read id
    walkMempool ids (rows ++ [row])

def cmdMempool (count : UInt64) : Call (Desk D) ε Command.Outcome := do
  match ← onExplorer (Mesh.mempool read) with
  | .error cause => pure (.explorerFailed cause)
  | .ok ids => do
    match ← onExplorer (walkMempool read (ids.take count.toNat) []) with
    | .ok rows => pure (.mempool count ids.length rows)
    | .error (id, cause) => pure (.mempoolStopped id cause)

/-! ## Behind the gate -/

section
variable (part : Partition)

def cmdBalance : Command.Outcome := .balance (part.accounts.map fun (tag, status) => ⟨tag, status⟩)

def cmdSettle [Layout D] (tag : Tag) (master : Option Secret) : Call (Desk D) ε Command.Outcome := do
  let settlement ← onSession (withAccess tag master fun access => Wallet.settleIfLanded tag access)
  let t ← Call.get
  match settlement with
  | .ok settlement => pure (.settled settlement t.session.store.ks.upgradedFrom)
  | .error e => pure (.failed e)

/-- Plan, reserve, sign and write. -/
def cmdSend [Layout D] (s : Spend) (master : Option Secret) : Call (Desk D) ε Command.Outcome := do
  let planned ← onSession (withAccess s.tag master fun access => planSpend part s access)
  match planned with
  | .error e => pure (.failed e)
  | .ok plan =>
  -- Whether the page can be rendered is settled before a key is spent.
  match renders s.tag plan.dsts with
  | .error (tag, cause) => pure (.cannotRender tag cause)
  | .ok () => do
    let signed ← onSession (withAccess s.tag master fun access =>
      Wallet.reserveAndSign part plan access)
    match signed with
    | .error e => pure (.failed e)
    | .ok signed => do
      let said ← ship signed.wire signed.id
      let t ← Call.get
      pure (.sent ⟨s.tag, plan.dsts, plan.blkToLive, signed.wire, said⟩ plan.sendTotal plan.feeTotal
        plan.changeTotal t.session.store.ks.upgradedFrom)

/-- What resign decides from the wallet's answer; a reproduction is written to the socket. -/
def resignOutcome (source : Tag) (listed : List Destination) (blkToLive : UInt64) :
    Except Error SignedTransaction → Call (Desk D) ε Command.Outcome
  | .ok signed =>
    match destination source with
    | .error cause => pure (.reproducedButUnrenderable source listed blkToLive signed.wire cause)
    | .ok _ => do
      let said ← ship signed.wire signed.id
      pure (.resigned ⟨source, listed, blkToLive, signed.wire, said⟩)
  | .error .digestMismatch => pure .notTheReservedSpend
  | .error (.reservationLanded spentIndex settledIndex) =>
    pure (.reservationAlreadyLanded source spentIndex settledIndex)
  | .error e => pure (.failed e)

def cmdResign (s : Spend) (master : Option Secret) : Call (Desk D) ε Command.Outcome := do
  let asked ← onSession (withAccess s.tag master fun access => do
    let dsts ← resignDestinations s
    pure (access, dsts))
  match asked with
  | .error e => pure (.failed e)
  | .ok (access, dsts) => do
    let resigned ← onSession (Wallet.resignPending part s.tag access dsts s.feeTotal s.blkToLive)
    resignOutcome s.tag (sortDsts dsts) s.blkToLive resigned

end

/-! ## One command -/

/-- The account a command behind the gate acts on. -/
def Command.addressed : Command → Option Tag
  | .settle tag | .resign ⟨tag, _, _, _⟩ | .send ⟨tag, _, _, _⟩ => some tag
  | _ => none

def beforeTheGate (x : Call (Desk D) ε Command.Outcome) : Call (Desk D) ε Decided := do
  let outcome ← x
  pure ⟨[], outcome⟩

/-- `submit` before any store is opened. -/
def runSubmit (artifact : Text) : Call (Desk D) ε Decided := beforeTheGate (cmdSubmit artifact)

/-- The verbs that read the node and nothing else. -/
def runExplorer (command : Command) : Call (Desk D) ε Command.Outcome :=
  match command with
  | .lookupTransaction hash => cmdTransaction read hash
  | .recentTransactions tag count skip => cmdRecentTransactionsFrom read tag count skip
  | .block place => cmdBlock read place
  | .blocks count => cmdBlocks read count
  | .mempool count => cmdMempool read count
  | other => pure (.notAReadOnlyVerb other)

/-- The commands that a wallet is opened for. -/
def behindTheGate [Layout D] (part : Partition) (master : Option Secret) (command : Command) :
    Call (Desk D) ε Command.Outcome :=
  match command with
  | .balance => pure (cmdBalance part)
  | .settle tag => cmdSettle tag master
  | .send s => cmdSend part s master
  | .resign s => cmdResign part s master
  | _ => pure .handledBeforeTheWallet

def openAndDecide [Layout D] (master : Option Secret) (command : Command) : Call (Desk D) ε Decided := do
  match ← onSession (Wallet.openAsking master .never) with
  | .error (.refused refusal) => pure ⟨[], .startupRefused refusal⟩
  | .error .cancelled => pure ⟨[], .handledBeforeTheWallet⟩
  | .ok part =>
    match command.addressed.bind part.divergenceFor with
    | some d => pure ⟨[], .diverged d⟩
    | none => do
      let outcome ← behindTheGate part master command
      pure ⟨part.diverged, outcome⟩

def Command.decide [Layout D] (command : Command) : Call (Desk D) ε Decided := do
  let t ← Call.get
  let ks := t.session.store.ks
  match ks.masterSeed with
  | .error e => pure ⟨[], .storeUnreadable e⟩
  | .ok master =>
    match command with
    | .restore account scanTo => beforeTheGate (cmdRestore master account scanTo)
    | .address tag account => pure ⟨[], cmdAddress ks tag account master⟩
    | .discover to' => beforeTheGate (cmdDiscover master to')
    | .submit artifact => beforeTheGate (cmdSubmit artifact)
    | .lookupTransaction _ | .recentTransactions .. | .block _ | .blocks _ | .mempool _ =>
      beforeTheGate (runExplorer read command)
    | .status tag scanTo => beforeTheGate (cmdStatus tag master scanTo)
    | .reconcile tag advanceTo => beforeTheGate (cmdReconcile tag master advanceTo)
    | .create _ | .balance | .settle _ | .resign _ | .send _ => openAndDecide master command

end

end MochimoWallet.Cli
