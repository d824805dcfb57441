import MochimoWallet.Cli.Discover
import MochimoWallet.Cli.Pages
import MochimoWallet.Cli.Reconcile
import MochimoWallet.Mesh.Queries
import MochimoWallet.Wallet.Gate

/-!
# What a command decides

A command ends in a value before anything is said in words: what it established, in the types of the
layers below, and the accounts that could not be reconciled while it ran. `Outcome.code` is the code
its page exits with. A command acts on a `Desk`: the store and the node a wallet has, what was
written to the submit endpoint, and the node's read-only side.
-/

namespace MochimoWallet.Cli

open Codec Keystore Session Mesh

/-! ## Outcomes -/

namespace Command

/-- One account's line in a listing. -/
structure AccountLine where
  tag : Tag
  status : AccountStatus
  deriving DecidableEq

/-- One account of the store, from its record alone. -/
structure Held where
  tag : Tag
  kind : AccountKind
  index : WotsIndex
  deriving DecidableEq

/-- The version a store was read at, where this invocation wrote another. -/
abbrev Upgraded := Option UInt16

/-- A spend that was signed and written to the socket, and what the socket said. -/
structure Shipped where
  source : Tag
  /-- In the order that goes on the wire. -/
  destinations : List Destination
  blkToLive : UInt64
  wire : Bytes
  submitted : Except ResubmitError Digest

inductive Outcome where
  -- The store, read.
  | balance (accounts : List AccountLine)
  | accounts (held : List Held)
  | address (tag : Tag) (address : Address) (index : WotsIndex)
  | unstoredAddress (account : UInt32) (tag : Tag) (address : Address)
  -- The store, written.
  | restored (account : UInt32) (found : RestoredAccount) (heldAt : Option WotsIndex)
      (upgraded : Upgraded)
  | settled (settlement : Settlement) (upgraded : Upgraded)
  | planned (source : Tag) (destinations : List Destination)
      (sendTotal feeTotal changeTotal blkToLive : UInt64)
  | sent (shipped : Shipped) (sendTotal feeTotal changeTotal : UInt64) (upgraded : Upgraded)
  | resigned (shipped : Shipped)
  | submitted (source : Tag) (bytes : Bytes) (said : Except ResubmitError Digest)
  -- Reconciled now.
  | status (tag : Tag) (status : AccountStatus)
  | statusDiverged (tag : Tag) (divergence : Divergence)
  | statusRefused (divergence : Divergence)
  | reconciled (tag : Tag) (advanceTo : UInt32) (reviewed : Reviewed) (upgraded : Upgraded)
  | discovered (sweep : Sweep)
  | discoverNeedsMaster
  | sweepStopped (account searched to' : UInt32) (cause : Error)
  -- The artifact refusals, before any socket.
  | artifactNotHex (cause : ReplyError)
  | artifactNotATransaction (cause : Error)
  | artifactNotWhole (given described : ℕ)
  -- The node, read.
  | lookedUpTransaction (page : SearchPage)
  | transactionNotFound (hash : Digest)
  | recentTransactions (tag : Tag) (skip : UInt64) (page : SearchPage)
  | block (block : MeshBlock)
  | blockNotServed (byHash : Bool) (cause : QueryError)
  | blocks (count : UInt64) (tip : ChainTip) (rows : List MeshBlock)
  | blocksStopped (index : UInt64) (cause : QueryError)
  | mempool (count : UInt64) (total : ℕ) (rows : List MempoolRow)
  | mempoolStopped (id : Digest) (cause : QueryError)
  | explorerFailed (cause : QueryError)
  | searchFailed (cause : QueryError)
  | reproducedButUnrenderable (source : Tag) (destinations : List Destination) (blkToLive : UInt64)
      (wire : Bytes) (cause : ReferenceError)
  | notTheReservedSpend
  | reservationAlreadyLanded (source : Tag) (spentIndex settledIndex : UInt32)
  -- The refusals that carry a shape.
  | restoreNeedsMaster
  | restoreRefused (account : UInt32) (failure : RestoreFailure)
  | noSuchAccount (tag : Tag)
  | noAccountToAddress (tag : Tag)
  | noMasterSeed
  | accountAlreadyStored (account : UInt32) (tag : Tag) (index : WotsIndex)
  | diverged (divergence : Divergence)
  | cannotRender (tag : Tag) (cause : ReferenceError)
  | failed (cause : Error)
  -- The wallet never opened.
  | storeUnreadable (cause : Error)
  | startupRefused (refusal : StartupRefusal)
  | handledBeforeTheWallet
  | notAReadOnlyVerb (command : Command)

/-- A command, decided, and the accounts its opening could not reconcile. -/
structure Decided where
  standing : List Divergence
  outcome : Outcome

namespace Outcome

/-- The signed image a page carries. -/
def wire? : Outcome → Option Bytes
  | sent shipped .. | resigned shipped => some shipped.wire
  | .submitted _ bytes _ => some bytes
  | reproducedButUnrenderable _ _ _ wire _ => some wire
  | _ => none

/-- What the socket said to it. -/
def submitted? : Outcome → Option (Except ResubmitError Digest)
  | sent shipped .. | resigned shipped => some shipped.submitted
  | .submitted _ _ said => some said
  | _ => none

/-- The code of a page that a socket write ends. -/
def codeOf {ε : Type} : Except ε Digest → Code
  | .ok _ => .ok
  | .error _ => .refused

/-- The code a page exits with, where every tag on it renders. -/
def code : Outcome → Code
  | sent shipped .. | resigned shipped => codeOf shipped.submitted
  | .submitted _ _ said => codeOf said
  | lookedUpTransaction page => if page.transactions = [] then .refused else .ok
  | reconciled _ _ reviewed _ => if reviewed.outcome.isAdvanced then .ok else .refused
  | storeUnreadable _ | startupRefused _ => .startupRefused
  | balance _ | accounts _ | address .. | unstoredAddress .. | restored .. | settled .. | planned ..
  | status .. | statusDiverged .. | discovered _ | recentTransactions ..
  | block _ | blocks .. | mempool .. => .ok
  | statusRefused _ | discoverNeedsMaster | sweepStopped .. | artifactNotHex _
  | artifactNotATransaction _ | artifactNotWhole .. | transactionNotFound _ | blockNotServed ..
  | blocksStopped .. | mempoolStopped .. | explorerFailed _ | searchFailed _
  | reproducedButUnrenderable .. | notTheReservedSpend | reservationAlreadyLanded ..
  | restoreNeedsMaster | restoreRefused .. | noSuchAccount _ | noAccountToAddress _ | noMasterSeed
  | accountAlreadyStored .. | diverged _ | cannotRender .. | failed _ | handledBeforeTheWallet
  | notAReadOnlyVerb _ => .refused

end Outcome

end Command

/-! ## Where a command runs -/

variable [Crypto]

/-- A session with what was posted in it, and the read-only side of its node. -/
structure Desk (D : Type) where
  posting : Posting D
  explorer : Transport

namespace Desk

variable {D ε δ α : Type}

abbrev session (t : Desk D) : Session D := t.posting.session

/-- Run a call of the session, and take its refusal as a value. -/
def onSession (x : Call (Session D) δ α) : Call (Desk D) ε (Except δ α) :=
  Call.zoom session (fun s t => { t with posting := { t.posting with session := s } }) x.attempt

/-- Write an image to the socket, and take what it said as a value. -/
def ship (wire : Bytes) (id : Digest) : Call (Desk D) ε (Except ResubmitError Digest) :=
  Call.zoom posting (fun p t => { t with posting := p }) (Posting.submitWire wire id).attempt

/-- Ask the node's read-only side, and take its refusal as a value. -/
def onExplorer (x : Call Transport δ α) : Call (Desk D) ε (Except δ α) :=
  Call.zoom explorer (fun e t => { t with explorer := e }) x.attempt

end Desk

end MochimoWallet.Cli
