import MochimoWallet.Mesh.Client
import MochimoWallet.Keystore.Writes

/-!
# Reconciliation

An account's stored position is held to what the node answers for its tag. With no
reservation open the chain must hold the key at the stored index; with one open it
must hold the reserved key or the one after it. Anything else is a divergence, whose
report says where a walk over key positions found the chain's address. Restoring an
account walks the same way, from position 0, and assumes no index.

Progress reports are left out: they read positions and change nothing.
-/

namespace MochimoWallet

open Codec Keystore

abbrev recoveryCeiling : ℕ := 10000
abbrev divergenceWindow : ℕ := 20

/-! ## Which positions a walk visits -/

structure ScanScope where
  ceiling : UInt32
  window : Option UInt32
  deriving DecidableEq

namespace ScanScope

def restore : ScanScope := ⟨.ofNat recoveryCeiling, none⟩
def diagnostic : ScanScope := ⟨.ofNat recoveryCeiling, some (.ofNat divergenceWindow)⟩

def withCeiling (scope : ScanScope) (ceiling : UInt32) : ScanScope := { scope with ceiling }

/-- The window around the stored position, its ends included. -/
def windowEdges (scope : ScanScope) (stored : Option WotsIndex) : Option (ℕ × ℕ) :=
  match scope.window, stored with
  | some w, some i => some (i.pos - w.toNat, min (min (i.pos + w.toNat) u32Max) (u32Max - 1))
  | _, _ => none

/-- The window first, then every position below the ceiling that is not in it. -/
def positions (scope : ScanScope) (stored : Option WotsIndex) : List WotsIndex :=
  let edges := scope.windowEdges stored
  let window := match edges with
    | some (lo, hi) => List.range' lo (hi + 1 - lo)
    | none => []
  let below := (List.range scope.ceiling.toNat).filter fun i =>
    !edges.any fun (lo, hi) => lo ≤ i && i ≤ hi
  (window ++ below).map fun i => ⟨.ofNat i⟩

end ScanScope

/-! ## Walking -/

inductive Walk where
  | found (p : WotsIndex)
  | notFound
  | failed (stoppedAt : UInt32) (cause : Error)
  deriving DecidableEq

/-- Derive positions in turn until one has the address, asking before each whether to stop. -/
def walk (target : Address) (cancel : Cancel) (addressAt : WotsIndex → Except Error Address) :
    List WotsIndex → Node → Walk × Node
  | [], n => (.notFound, n)
  | p :: ps, n =>
    match n.stop cancel with
    | (true, n) => (.failed p.raw .cancelled, n)
    | (false, n) =>
      match addressAt p with
      | .error cause => (.failed p.raw cause, n)
      | .ok a => if a = target then (.found p, n) else walk target cancel addressAt ps n

theorem walk_heard {target : Address} {cancel : Cancel} {addressAt : WotsIndex → Except Error Address}
    {ps : List WotsIndex} {n n' : Node} {w : Walk} (h : walk target cancel addressAt ps n = (w, n')) :
    n'.heard = n.heard := by
  induction ps generalizing n with
  | nil =>
    cases h
    rfl
  | cons p ps ih =>
    unfold walk at h
    have hstop := Node.stop_heard cancel n
    split at h
    · next m hm =>
      cases h
      rw [hm] at hstop
      exact hstop
    · next m hm =>
      rw [hm] at hstop
      split at h
      · cases h
        exact hstop
      · split at h
        · cases h
          exact hstop
        · exact (ih h).trans hstop

/-- What a walk finds is the first position that has the address, every earlier one having been
derived and compared. -/
theorem walk_found {target : Address} {cancel : Cancel} {addressAt : WotsIndex → Except Error Address}
    {ps : List WotsIndex} {n n' : Node} {p : WotsIndex}
    (h : walk target cancel addressAt ps n = (.found p, n')) :
    ∃ before after, ps = before ++ p :: after ∧ addressAt p = .ok target ∧
      ∀ q ∈ before, ∃ a, addressAt q = .ok a ∧ a ≠ target := by
  induction ps generalizing n with
  | nil => cases h
  | cons q ps ih =>
    unfold walk at h
    split at h
    · cases h
    split at h
    · cases h
    next a ha =>
    split at h
    · next heq =>
      cases h
      exact ⟨[], ps, rfl, heq ▸ ha, fun _ hq => by cases hq⟩
    · next hne =>
      obtain ⟨before, after, rfl, hp, hbefore⟩ := ih h
      refine ⟨q :: before, after, rfl, hp, fun r hr => ?_⟩
      rcases List.mem_cons.mp hr with rfl | hr
      · exact ⟨a, ha, hne⟩
      · exact hbefore r hr

/-! ## Statuses and divergences -/

inductive Expiry where
  | noExpiry
  | below (tip : UInt64)
  | reached (tip : UInt64)
  | unreadable (cause : Error)
  deriving DecidableEq

structure Diagnosis where
  figures : Figures
  balanceMoved : Bool
  balanceNow : UInt64
  expiry : Expiry
  deriving DecidableEq

/-- What is recorded of an open reservation's figures, and how they stand now. -/
inductive Reservation where
  | unrecorded
  | recorded (diagnosis : Diagnosis)
  deriving DecidableEq

inductive AccountStatus where
  | inSync (index : WotsIndex) (address : Address) (balance : UInt64)
  | spendOutstanding (spentIndex : WotsIndex) (balance : UInt64) (reservation : Reservation)
  | spendLanded (spentIndex settledIndex : WotsIndex) (balance : UInt64)
  deriving DecidableEq

inductive StoppedBy where
  | derivation
  | cancelled
  deriving DecidableEq

structure Stopped where
  stoppedAt : UInt32
  by' : StoppedBy
  deriving DecidableEq

inductive ChainPosition where
  | ahead (index : WotsIndex) (gap : UInt32)
  | behind (index : WotsIndex) (gap : UInt32)
  | unlocated (stored : WotsIndex) (scope : ScanScope) (stopped : Option Stopped)
  deriving DecidableEq

inductive Divergence where
  | indexMismatch (tag : Tag) (stored : WotsIndex) (storedAddress chainAddress : Address)
      (balance : UInt64) (stream : StreamId) (found : ChainPosition) (revertedSettle : Option Pending)
  | reservationUnexplained (tag : Tag) (spentIndex : WotsIndex) (chainAddress : Address)
      (balance : UInt64) (stream : StreamId) (found : ChainPosition)
  | tagUnresolved (tag : Tag) (stored : WotsIndex)
  | chainUnreachable (tag : Tag) (cause : Error)
  | noMasterForDerivedAccount (tag : Tag)
  | cannotReconcile (tag : Tag) (cause : Error)
  deriving DecidableEq

namespace Divergence

def tag : Divergence → Tag
  | indexMismatch tag .. | reservationUnexplained tag .. | tagUnresolved tag _
  | chainUnreachable tag _ | noMasterForDerivedAccount tag | cannotReconcile tag _ => tag

/-- The one divergence an acknowledgement can be of: the chain ahead at a position found. -/
def advanceTarget : Divergence → Option WotsIndex
  | indexMismatch _ _ _ _ _ _ (.ahead index _) _ => some index
  | _ => none

def isReservationUnexplained : Divergence → Bool
  | reservationUnexplained .. => true
  | _ => false

def stoppedByCancel : Divergence → Bool
  | indexMismatch _ _ _ _ _ _ (.unlocated _ _ (some ⟨_, .cancelled⟩)) _
  | reservationUnexplained _ _ _ _ _ (.unlocated _ _ (some ⟨_, .cancelled⟩)) => true
  | _ => false

/-- The word an error carries for a divergence. -/
def kind : Divergence → String
  | indexMismatch .. => "index mismatch"
  | reservationUnexplained .. => "reservation unexplained"
  | tagUnresolved .. => "tag unresolved by the node"
  | chainUnreachable .. => "chain unreachable"
  | noMasterForDerivedAccount _ => "no master for a derived account"
  | cannotReconcile .. => "reconciliation could not run"

end Divergence

/-- Where the chain's address stands relative to the stored position. -/
def locate (chain : Address) (stored : WotsIndex) (scope : ScanScope) (cancel : Cancel)
    (addressAt : WotsIndex → Except Error Address) (n : Node) : ChainPosition × Node :=
  match walk chain cancel addressAt (scope.positions (some stored)) n with
  | (.found i, n) =>
    if stored.pos < i.pos then (.ahead i (i.raw - stored.raw), n)
    else (.behind i (stored.raw - i.raw), n)
  | (.notFound, n) => (.unlocated stored scope none, n)
  | (.failed stoppedAt cause, n) =>
    let by' := if cause = .cancelled then StoppedBy.cancelled else .derivation
    (.unlocated stored scope (some ⟨stoppedAt, by'⟩), n)

/-- How a recorded expiry stands against the tip, asked only where there is one. -/
def expiryOf (blkToLive : UInt64) (n : Node) : Expiry × Node :=
  if blkToLive = 0 then (.noExpiry, n)
  else
    match Node.networkStatus n with
    | (.ok tip, n) => (if tip ≥ blkToLive then .reached tip else .below tip, n)
    | (.err cause, n) => (.unreadable cause, n)
    | (.killed, n) => (.unreadable Node.silence, n)

/-- A failure that keeps a comparison from being made. -/
def orCannot {α : Type} (tag : Tag) : Except Error α → Except Divergence α
  | .ok a => .ok a
  | .error cause => .error (.cannotReconcile tag cause)

theorem orCannot_error {α : Type} {tag : Tag} {x : Except Error α} {d : Divergence}
    (h : orCannot tag x = .error d) : d.advanceTarget = none ∧ d.tag = tag := by
  cases x <;> cases h
  exact ⟨rfl, rfl⟩

theorem orCannot_ok {α : Type} {tag : Tag} {x : Except Error α} {a : α} (h : orCannot tag x = .ok a) :
    x = .ok a := by
  cases x <;> cases h
  rfl

/-- A check that fails as a divergence no acknowledgement can be of, or passes. -/
theorem orCannot_bind {α β : Type} {tag : Tag} {x : Except Error α} {f : α → Call Node Divergence β}
    {n n' : Node}
    {r : Reply Divergence β} (h : (Call.check (orCannot tag x) >>= f) n = (r, n')) :
    (∃ d, r = .err d ∧ d.advanceTarget = none ∧ d.tag = tag) ∨ ∃ a, x = .ok a ∧ f a n = (r, n') := by
  rcases Call.check_bind_cases h with ⟨d, hd, rfl, -⟩ | ⟨a, ha, h⟩
  · exact .inl ⟨d, rfl, orCannot_error hd⟩
  · exact .inr ⟨a, orCannot_ok ha, h⟩

theorem locate_cases {chain : Address} {stored : WotsIndex} {scope : ScanScope} {cancel : Cancel}
    {n n' : Node} {addressAt : WotsIndex → Except Error Address} {found : ChainPosition}
    (h : locate chain stored scope cancel addressAt n = (found, n')) :
    n'.heard = n.heard ∧ ∀ target gap, found = .ahead target gap →
      stored.pos < target.pos ∧ addressAt target = .ok chain := by
  unfold locate at h
  rcases hwalk : walk chain cancel addressAt (scope.positions (some stored)) n with ⟨w, m⟩
  have hheard := walk_heard hwalk
  rw [hwalk] at h
  cases w with
  | found i =>
    obtain ⟨-, -, -, hi, -⟩ := walk_found hwalk
    dsimp only at h
    split at h
    · next hlt =>
      cases h
      exact ⟨hheard, fun target gap he => by cases he; exact ⟨hlt, hi⟩⟩
    · cases h
      exact ⟨hheard, fun target gap he => by cases he⟩
  | notFound =>
    cases h
    exact ⟨hheard, fun target gap he => by cases he⟩
  | failed stoppedAt cause =>
    cases h
    exact ⟨hheard, fun target gap he => by cases he⟩

theorem expiryOf_heard {n n' : Node} {blkToLive : UInt64} {expiry : Expiry}
    (h : expiryOf blkToLive n = (expiry, n')) : n'.heard = n.heard := by
  unfold expiryOf at h
  split at h
  · cases h
    rfl
  rcases hs : Node.networkStatus n with ⟨r, m⟩
  have hheard := (Node.networkStatus_heard hs).1
  rw [hs] at h
  cases r <;> cases h <;> exact hheard

/-- Ask for the tag's entry; code 4 is the node's answer and not the ledger's. -/
def entryOf (tag : Tag) (view : AccountView) : Call Node Divergence LedgerEntry := fun n =>
  match Node.resolveTag tag n with
  | (.ok entry, n) => (.ok entry, n)
  | (.err (.mesh 4 _), n) => (.err (.tagUnresolved tag view.wotsIndex), n)
  | (.err cause, n) => (.err (.chainUnreachable tag cause), n)
  | (.killed, n) => (.killed, n)

theorem entryOf_cases {tag : Tag} {view : AccountView} {n n' : Node}
    {r : Reply Divergence LedgerEntry}
    (h : entryOf tag view n = (r, n')) :
    (∃ entry, r = .ok entry ∧ tagOf entry.address = tag ∧ n'.heard = (tag, entry) :: n.heard) ∨
      ∃ d, r = .err d ∧ d.advanceTarget = none ∧ d.tag = tag := by
  unfold entryOf at h
  rcases hr : Node.resolveTag tag n with ⟨r', m⟩
  rw [hr] at h
  rcases Node.resolveTag_cases hr with ⟨entry, rfl, htag, hheard⟩ | ⟨⟨e, rfl⟩, -⟩
  · cases h
    exact .inl ⟨entry, rfl, htag, hheard⟩
  · refine .inr ?_
    split at h
    · next heq => cases heq
    · cases h
      exact ⟨_, rfl, rfl, rfl⟩
    · cases h
      exact ⟨_, rfl, rfl, rfl⟩
    · next heq => cases heq

variable [Crypto]

/-- The address of a derived account's key, from the master alone. -/
def derivedAddressAt (master : Secret) (accountIndex : UInt32) (position : WotsIndex) : Address :=
  let account := deriveAccount master accountIndex
  match position.rotation with
  | none => account.first.address account.tag
  | some rotation => (deriveWotsKey account.seed rotation).address account.tag

/-- The stored view of an account, as a divergence when there is none. -/
def viewOf (ks : Keystore) (tag : Tag) : Except Divergence AccountView :=
  match ks.view tag with
  | .ok (some view) => .ok view
  | .ok none => .error (.cannotReconcile tag .noSuchAccount)
  | .error cause => .error (.cannotReconcile tag cause)

/-- The access an account's kind needs. -/
def accessFor (ks : Keystore) (tag : Tag) (master : Option Secret) : Except Divergence KeyAccess := do
  let view ← viewOf ks tag
  match view.kind with
  | .imported => .ok .storedRoot
  | .derived =>
    match master with
    | some master => .ok (.master master)
    | none => .error (.noMasterForDerivedAccount tag)

/-- Reconcile with no reservation open: the chain must hold the key the account signs with next. -/
def reconcileClosed (ks : Keystore) (tag : Tag) (access : KeyAccess) (scope : ScanScope)
    (cancel : Cancel) (view : AccountView) (entry : LedgerEntry) (stream : StreamId) :
    Call Node Divergence AccountStatus := do
  let storedAddress ← Call.check (orCannot tag (ks.addressAt tag view.wotsIndex access))
  if entry.address = storedAddress then pure (.inSync view.wotsIndex entry.address entry.balance)
  else .of fun n =>
    let (found, n) := locate entry.address view.wotsIndex scope cancel
      (fun p => ks.addressAt tag p access) n
    let revertedSettle := match found, view.settled with
      | .behind index _, some s => if s.spentIndex = index then some s else none
      | _, _ => none
    (.err (.indexMismatch tag view.wotsIndex storedAddress entry.address entry.balance stream found
      revertedSettle), n)

/-- Reconcile with a reservation open: the chain holds the reserved key, or the one after it. -/
def reconcileOpen (ks : Keystore) (tag : Tag) (access : KeyAccess) (scope : ScanScope)
    (cancel : Cancel) (view : AccountView) (entry : LedgerEntry) (stream : StreamId)
    (pending : Pending) : Call Node Divergence AccountStatus := do
  let spentAddress ← Call.check (orCannot tag (ks.addressAt tag pending.spentIndex access))
  if entry.address = spentAddress then
    match pending.figures with
    | none => pure (.spendOutstanding pending.spentIndex entry.balance .unrecorded)
    | some figures => .of fun n =>
      let (expiry, n) := expiryOf figures.blkToLive n
      (.ok (.spendOutstanding pending.spentIndex entry.balance (.recorded
        ⟨figures, entry.balance ≠ figures.reservedBalance, entry.balance, expiry⟩)), n)
  else do
  let changeAddress ← Call.check (orCannot tag (ks.addressAt tag view.wotsIndex access))
  if entry.address = changeAddress then
    pure (.spendLanded pending.spentIndex view.wotsIndex entry.balance)
  else .of fun n =>
    let (found, n) := locate entry.address view.wotsIndex scope cancel
      (fun p => ks.addressAt tag p access) n
    (.err (.reservationUnexplained tag pending.spentIndex entry.address entry.balance stream found), n)

def reconcileAccountWith (ks : Keystore) (tag : Tag) (access : KeyAccess) (scope : ScanScope)
    (cancel : Cancel) : Call Node Divergence AccountStatus := do
  let view ← Call.check (viewOf ks tag)
  let entry ← entryOf tag view
  let stream ← Call.check (orCannot tag (ks.streamId tag))
  match view.pending with
  | none => reconcileClosed ks tag access scope cancel view entry stream
  | some pending => reconcileOpen ks tag access scope cancel view entry stream pending

def reconcileAccount (ks : Keystore) (tag : Tag) (access : KeyAccess) :
    Call Node Divergence AccountStatus :=
  reconcileAccountWith ks tag access .diagnostic .never

/-! ## What reconciliation can say -/

section
variable {ks : Keystore} {p : Parsed} {tag : Tag} {access : KeyAccess} {scope : ScanScope}
  {cancel : Cancel} {n n' : Node}

theorem viewOf_eq_ok (hm : ks.memory = some p) {view : AccountView} :
    viewOf ks tag = .ok view ↔ ∃ slot, p.slots.get? tag = some slot ∧
      view = ⟨tag, slot.account.kind, slot.account.wotsIndex, slot.pending, slot.settled⟩ := by
  have hview : ks.view tag = .ok ((p.slots.get? tag).map fun s =>
      ⟨tag, s.account.kind, s.account.wotsIndex, s.pending, s.settled⟩) := by
    rw [Keystore.view, live_of_memory hm, ok_bind]
  unfold viewOf
  rw [hview]
  cases p.slots.get? tag <;> simp [eq_comm]

theorem viewOf_poisoned (tag : Tag) (hm : ks.memory = none) : ∃ d, viewOf ks tag = .error d ∧
    d.advanceTarget = none ∧ d.tag = tag := by
  obtain ⟨first, hfirst⟩ := poisoned_of_memory hm
  have hview : ks.view tag = .error (.poisoned first) := by
    rw [Keystore.view, live, hfirst]
    rfl
  exact ⟨_, by rw [viewOf, hview], rfl, rfl⟩

theorem viewOf_error {d : Divergence} (h : viewOf ks tag = .error d) :
    d.advanceTarget = none ∧ d.tag = tag := by
  unfold viewOf at h
  split at h <;> cases h <;> exact ⟨rfl, rfl⟩

/-- Everything a reconciliation can say, with the answer it said it on. -/
inductive ReconcileEnd (ks : Keystore) (p : Parsed) (tag : Tag) (access : KeyAccess) (n n' : Node) :
    Reply Divergence AccountStatus → Prop where
  | inSync {slot : Slot} {entry : LedgerEntry} (hslot : p.slots.get? tag = some slot)
      (hopen : slot.pending = none) (hheard : n'.heard = (tag, entry) :: n.heard)
      (haddress : ks.addressAt tag slot.account.wotsIndex access = .ok entry.address) :
      ReconcileEnd ks p tag access n n'
        (.ok (.inSync slot.account.wotsIndex entry.address entry.balance))
  | outstanding {slot : Slot} {pending : Pending} {entry : LedgerEntry} {reservation : Reservation}
      (hslot : p.slots.get? tag = some slot) (hopen : slot.pending = some pending)
      (hheard : n'.heard = (tag, entry) :: n.heard)
      (haddress : ks.addressAt tag pending.spentIndex access = .ok entry.address) :
      ReconcileEnd ks p tag access n n'
        (.ok (.spendOutstanding pending.spentIndex entry.balance reservation))
  | landed {slot : Slot} {pending : Pending} {entry : LedgerEntry}
      (hslot : p.slots.get? tag = some slot) (hopen : slot.pending = some pending)
      (hheard : n'.heard = (tag, entry) :: n.heard)
      (haddress : ks.addressAt tag slot.account.wotsIndex access = .ok entry.address) :
      ReconcileEnd ks p tag access n n'
        (.ok (.spendLanded pending.spentIndex slot.account.wotsIndex entry.balance))
  | ahead {slot : Slot} {entry : LedgerEntry} {target : WotsIndex} {d : Divergence}
      (hslot : p.slots.get? tag = some slot) (hopen : slot.pending = none)
      (hheard : n'.heard = (tag, entry) :: n.heard)
      (hahead : slot.account.wotsIndex.pos < target.pos)
      (haddress : ks.addressAt tag target access = .ok entry.address)
      (htarget : d.advanceTarget = some target) (htag : d.tag = tag) :
      ReconcileEnd ks p tag access n n' (.err d)
  | other {d : Divergence} (htarget : d.advanceTarget = none) (htag : d.tag = tag) :
      ReconcileEnd ks p tag access n n' (.err d)

theorem reconcileClosed_end {slot : Slot} {view : AccountView} {entry : LedgerEntry}
    {stream : StreamId} {m : Node} {r : Reply Divergence AccountStatus}
    (hslot : p.slots.get? tag = some slot) (hopen : slot.pending = none)
    (hview : view.wotsIndex = slot.account.wotsIndex) (hheard : m.heard = (tag, entry) :: n.heard)
    (h : reconcileClosed ks tag access scope cancel view entry stream m = (r, n')) :
    ReconcileEnd ks p tag access n n' r := by
  unfold reconcileClosed at h
  rw [hview] at h
  rcases orCannot_bind h with ⟨d, rfl, hd, htag⟩ | ⟨storedAddress, haddress, h⟩
  · exact .other hd htag
  rw [Call.ite_apply] at h
  split at h
  · next heq =>
    cases h
    exact .inSync hslot hopen hheard (heq ▸ haddress)
  · rcases hlocate : locate entry.address slot.account.wotsIndex scope cancel
        (fun q => ks.addressAt tag q access) m with ⟨found, m'⟩
    obtain ⟨hkeeps, hahead⟩ := locate_cases hlocate
    simp only [Call.of_apply, hlocate] at h
    cases h
    cases found with
    | ahead target gap =>
      obtain ⟨hlt, hat⟩ := hahead target gap rfl
      exact .ahead hslot hopen (hkeeps.trans hheard) hlt hat rfl rfl
    | behind index gap => exact .other rfl rfl
    | unlocated stored scope stopped => exact .other rfl rfl

theorem reconcileOpen_end {slot : Slot} {pending : Pending} {view : AccountView}
    {entry : LedgerEntry} {stream : StreamId} {m : Node} {r : Reply Divergence AccountStatus}
    (hslot : p.slots.get? tag = some slot) (hopen : slot.pending = some pending)
    (hview : view.wotsIndex = slot.account.wotsIndex) (hheard : m.heard = (tag, entry) :: n.heard)
    (h : reconcileOpen ks tag access scope cancel view entry stream pending m = (r, n')) :
    ReconcileEnd ks p tag access n n' r := by
  unfold reconcileOpen at h
  rw [hview] at h
  rcases orCannot_bind h with ⟨d, rfl, hd, htag⟩ | ⟨spentAddress, hspent, h⟩
  · exact .other hd htag
  rw [Call.ite_apply] at h
  split at h
  · next heq =>
    rcases hfigures : pending.figures with _ | figures <;> rw [hfigures] at h
    · cases h
      exact .outstanding hslot hopen hheard (heq ▸ hspent)
    · rcases hexpiry : expiryOf figures.blkToLive m with ⟨expiry, m'⟩
      simp only [Call.of_apply, hexpiry] at h
      cases h
      exact .outstanding hslot hopen ((expiryOf_heard hexpiry).trans hheard) (heq ▸ hspent)
  · rcases orCannot_bind h with ⟨d, rfl, hd, htag⟩ | ⟨changeAddress, hchange, h⟩
    · exact .other hd htag
    rw [Call.ite_apply] at h
    split at h
    · next heq =>
      cases h
      exact .landed hslot hopen hheard (heq ▸ hchange)
    · rcases hlocate : locate entry.address slot.account.wotsIndex scope cancel
          (fun q => ks.addressAt tag q access) m with ⟨found, m'⟩
      simp only [Call.of_apply, hlocate] at h
      cases h
      exact .other rfl rfl

theorem reconcile_end (hm : ks.memory = some p) {r : Reply Divergence AccountStatus}
    (h : reconcileAccountWith ks tag access scope cancel n = (r, n')) :
    ReconcileEnd ks p tag access n n' r := by
  unfold reconcileAccountWith at h
  rcases Call.check_bind_cases h with ⟨d, hd, rfl, -⟩ | ⟨view, hview, h⟩
  · exact .other (viewOf_error hd).1 (viewOf_error hd).2
  obtain ⟨slot, hslot, rfl⟩ := (viewOf_eq_ok hm).mp hview
  rcases Call.bind_cases h with ⟨entry, m, he, h⟩ | ⟨d, he, rfl⟩ | ⟨he, rfl⟩
  · rcases entryOf_cases he with ⟨entry', hr, htag, hheard⟩ | ⟨d, hr, -⟩ <;> cases hr
    rcases orCannot_bind h with ⟨d, rfl, hd, htag⟩ | ⟨stream, -, h⟩
    · exact .other hd htag
    dsimp only at h
    rcases hopen : slot.pending with _ | pending <;> rw [hopen] at h
    · exact reconcileClosed_end hslot hopen rfl hheard h
    · exact reconcileOpen_end hslot hopen rfl hheard h
  · rcases entryOf_cases he with ⟨entry', hr, -⟩ | ⟨d', hr, hd, htag⟩ <;> cases hr
    exact .other hd htag
  · rcases entryOf_cases he with ⟨entry', hr, -⟩ | ⟨d', hr, -⟩ <;> cases hr

/-- A poisoned handle has nothing to reconcile. -/
theorem reconcile_poisoned (hm : ks.memory = none) {r : Reply Divergence AccountStatus}
    (h : reconcileAccountWith ks tag access scope cancel n = (r, n')) :
    ∃ d, r = .err d ∧ d.advanceTarget = none := by
  obtain ⟨d, hd, htarget, -⟩ := viewOf_poisoned tag hm
  unfold reconcileAccountWith at h
  rw [hd] at h
  cases h
  exact ⟨d, rfl, htarget⟩

theorem reconcile_not_killed {r : Reply Divergence AccountStatus}
    (h : reconcileAccountWith ks tag access scope cancel n = (r, n')) : r ≠ .killed := by
  rintro rfl
  rcases hm : ks.memory with _ | p
  · obtain ⟨d, hr, -⟩ := reconcile_poisoned hm h
    cases hr
  · cases reconcile_end hm h

end

end MochimoWallet
