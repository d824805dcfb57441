import MochimoWallet.Keystore.Release
import MochimoWallet.Recon.Advance

/-!
# The wallet

A wallet is a session and the partition its opening made of the store's accounts: the
ones that reconciled, and the ones that did not. Its methods ask the node and call at
most one writer of the store each. `reserveAndSign_cases` and `settleIfLanded_cases` say
everything the methods that write can do, with `Session.advance_cases`; the others are
quiet.
-/

namespace MochimoWallet

open Codec Words Keystore Session

/-- Why a call that can be stopped did not finish. -/
inductive Unfinished (ε : Type) where
  | cancelled
  | refused (e : ε)
  deriving DecidableEq

/-- What the caller's stop does to the operation: a caller that never stops is never asked. -/
def Cancel.cancelled {ε : Type} : Cancel → Except (Unfinished ε) Unit
  | .never => .ok ()
  | .when => .error .cancelled

/-- The accounts the chain confirmed at an opening, and those it did not. -/
structure Partition where
  accounts : List (Tag × AccountStatus)
  diverged : List Divergence
  deriving DecidableEq

namespace Partition

def divergenceFor (part : Partition) (tag : Tag) : Option Divergence :=
  part.diverged.find? fun d => d.tag = tag

def requireReconciled (part : Partition) (tag : Tag) : Except Error Unit :=
  match part.divergenceFor tag with
  | none => .ok ()
  | some d => .error (.reconciliationRefused d.kind)

theorem requireReconciled_eq_ok {part : Partition} {tag : Tag} :
    part.requireReconciled tag = .ok () ↔ part.divergenceFor tag = none := by
  unfold requireReconciled
  cases part.divergenceFor tag <;> simp

end Partition

structure StartupRefusal where
  diverged : List Divergence
  accounts : ℕ
  deriving DecidableEq

inductive Settlement where
  | settled (spentIndex index : WotsIndex)
  | stillOutstanding (spentIndex : WotsIndex) (reservation : Reservation)
  | nothingPending (index : WotsIndex)
  deriving DecidableEq

/-- A block-to-live of a plan stands at most the arrival window above the tip. -/
def checkExpiry (blkToLive : UInt64) : Call Node Error Unit :=
  if blkToLive = 0 then pure ()
  else do
    let tip ← Node.networkStatus
    if tip < blkToLive ∧ (blkToLive - tip).toNat ≤ 256 then pure ()
    else Call.refuse (.invalidExpiry blkToLive tip)

theorem checkExpiry_heard {blkToLive : UInt64} {n n' : Node} {r : Reply Error Unit}
    (h : checkExpiry blkToLive n = (r, n')) : n'.heard = n.heard ∧ r ≠ .killed := by
  unfold checkExpiry at h
  rw [Call.ite_apply] at h
  split at h
  · cases h
    exact ⟨rfl, by simp⟩
  rcases Call.bind_cases h with ⟨tip, m, htip, h⟩ | ⟨e, htip, rfl⟩ | ⟨htip, rfl⟩ <;>
    obtain ⟨hheard, hlive⟩ := Node.networkStatus_heard htip
  · rw [Call.ite_apply] at h
    split at h <;> cases h <;> exact ⟨hheard, by simp⟩
  · exact ⟨hheard, by simp⟩
  · exact absurd rfl hlive

namespace Wallet

def stopIf {σ ε : Type} (stop : Bool) (cancel : Cancel) : Call σ (Unfinished ε) Unit :=
  if stop then Call.check cancel.cancelled else pure ()

/-- Ask the caller whether to stop, as a call on the node. -/
def askStop {ε : Type} (cancel : Cancel) : Call Node ε Bool := .of fun n =>
  let (stop, n) := n.stop cancel
  (.ok stop, n)

theorem stopIf_cases {σ ε α : Type} {stop : Bool} {cancel : Cancel}
    {f : Unit → Call σ (Unfinished ε) α} {s t : σ} {r : Reply (Unfinished ε) α}
    (h : (stopIf stop cancel >>= f) s = (r, t)) : (∃ e, r = .err e ∧ t = s) ∨ f () s = (r, t) := by
  unfold stopIf at h
  split at h
  · rcases Call.check_bind_cases h with ⟨e, -, hr, ht⟩ | ⟨⟨⟩, -, h⟩
    · exact .inl ⟨e, hr, ht⟩
    · exact .inr h
  · exact .inr h

end Wallet

variable [Crypto] {D : Type}

/-- A wallet: a session, with the partition its opening made. -/
structure Wallet (D : Type) extends Session D, Partition

namespace Wallet

/-! ## Opening -/

/-- Reconcile one account, and put it on its side of the partition. -/
def openAccount (master : Option Secret) (cancel : Cancel) (part : Partition) (tag : Tag) :
    Call (Session D) (Unfinished StartupRefusal) Partition := do
  let stop ← asking fun _ => askStop cancel
  stopIf stop cancel
  let s ← Call.get
  match accessFor s.store.ks tag master with
  | .error d => pure { part with diverged := part.diverged ++ [d] }
  | .ok access => do
    let found ← asking fun ks =>
      (reconcileAccountWith ks tag access .diagnostic cancel).attempt
    match found with
    | .ok status => pure { part with accounts := part.accounts ++ [(tag, status)] }
    | .error d => do
      stopIf d.stoppedByCancel cancel
      pure { part with diverged := part.diverged ++ [d] }

def openAccounts (master : Option Secret) (cancel : Cancel) :
    List Tag → Partition → Call (Session D) (Unfinished StartupRefusal) Partition
  | [], part => pure part
  | tag :: tags, part => do
    let part ← openAccount master cancel part tag
    openAccounts master cancel tags part

/-- Reconcile every account; refused only when some diverged and none reconciled. -/
def openAsking (master : Option Secret) (cancel : Cancel) :
    Call (Session D) (Unfinished StartupRefusal) Partition := do
  let s ← Call.get
  match s.store.ks.tags with
  | .error cause => Call.refuse (.refused ⟨[.cannotReconcile (.zero addrTagLen) cause], 0⟩)
  | .ok tags => do
    let part ← openAccounts master cancel tags ⟨[], []⟩
    if part.accounts = [] ∧ part.diverged ≠ [] then
      Call.refuse (.refused ⟨part.diverged, tags.length⟩)
    else pure part

/-! ## The methods -/

section
variable (part : Partition)

def plan (tag : Tag) (access : KeyAccess) (dsts : List Destination) (feeTotal blkToLive : UInt64) :
    Call (Session D) Error SpendPlan := do
  let s ← Call.get
  Call.check (part.requireReconciled tag)
  let addresses ← Call.check (s.store.ks.spendAddresses tag access)
  let entry ← asking fun _ => Node.resolveTag tag
  Call.check (SpendPlan.new addresses entry dsts feeTotal blkToLive)

/-- The plan's addresses are the ones the account spends with now. -/
def checkPlan (plan : SpendPlan) (addresses : SpendAddresses) : Except Error Unit :=
  if addresses.position ≠ plan.position then
    .error (.staleSpendPlan plan.position.raw addresses.position.raw)
  else if addresses.source ≠ plan.srcAddr ∨ addresses.change ≠ plan.chgAddr then
    .error .spendPlanAddressMismatch
  else .ok ()

/-- The ledger still holds what the plan was made against. -/
def checkEntry (plan : SpendPlan) (addresses : SpendAddresses) (entry : LedgerEntry) :
    Except Error Unit :=
  if entry.address ≠ addresses.source then .error (.chainAddressMismatch addresses.position.raw)
  else if entry.balance ≠ plan.balance then .error (.balanceChanged plan.balance entry.balance)
  else .ok ()

/-- Reserve the key the plan is for, sign its digest and attach the signature. -/
def reserveAndSign [Layout D] (plan : SpendPlan) (access : KeyAccess) :
    Call (Session D) Error SignedTransaction := do
  let s ← Call.get
  Call.check (part.requireReconciled plan.tag)
  let addresses ← Call.check (s.store.ks.spendAddresses plan.tag access)
  Call.check (checkPlan plan addresses)
  asking fun _ => checkExpiry plan.blkToLive
  let entry ← asking fun _ => Node.resolveTag plan.tag
  Call.check (checkEntry plan addresses entry)
  let receipt ← writing (persistAdvance plan.tag plan.digest plan.figures)
  let s ← Call.get
  let signature ← Call.check (s.store.ks.signSpend plan.digest receipt access)
  Call.check (SignedTransaction.attach plan signature)

def submit (signed : SignedTransaction) : Call (Session D) Error Digest :=
  asking fun _ => Node.submit signed

def settleIfLanded [Layout D] (tag : Tag) (access : KeyAccess) : Call (Session D) Error Settlement := do
  let found ← asking fun ks => (reconcileAccount ks tag access).attempt
  match found with
  | .ok (.spendLanded spentIndex settledIndex _) => do
    writing (persistSettled tag)
    pure (.settled spentIndex settledIndex)
  | .ok (.spendOutstanding spentIndex _ reservation) =>
    pure (.stillOutstanding spentIndex reservation)
  | .ok (.inSync index _ _) => pure (.nothingPending index)
  | .error d => Call.refuse (.reconciliationRefused d.kind)

/-- The account's open reservation, and its stored position. -/
def pendingOf (ks : Keystore) (tag : Tag) : Except Error (Pending × WotsIndex) := do
  match ← ks.view tag with
  | none => .error .noSuchAccount
  | some view =>
    match view.pending with
    | none => .error .nothingPending
    | some pending => .ok (pending, view.wotsIndex)

/-- The addresses an open reservation was made for. -/
def reservedAddresses (ks : Keystore) (tag : Tag) (access : KeyAccess) (pending : Pending)
    (index : WotsIndex) : Except Error SpendAddresses := do
  let source ← ks.addressAt tag pending.spentIndex access
  let change ← ks.addressAt tag index access
  .ok ⟨tag, pending.spentIndex, source, change⟩

/-- The refusal of a plan that cannot be rebuilt: a landed reservation is named as one. -/
def refuseRebuild {α : Type} (tag : Tag) (access : KeyAccess) : Error → Call (Session D) Error α
  | .chainAddressMismatch position => do
    let status ← asking fun ks =>
      (reconcileAccountWith ks tag access ⟨0, none⟩ .never).attempt
    match status with
    | .ok (.spendLanded spentIndex settledIndex _) =>
      Call.refuse (.reservationLanded spentIndex.raw settledIndex.raw)
    | _ => Call.refuse (.chainAddressMismatch position)
  | e => Call.refuse e

/-- Rebuild the reserved spend, and sign again what the reservation was made for. -/
def resignPending (tag : Tag) (access : KeyAccess) (dsts : List Destination)
    (feeTotal blkToLive : UInt64) : Call (Session D) Error SignedTransaction := do
  let s ← Call.get
  Call.check (part.requireReconciled tag)
  let (pending, index) ← Call.check (pendingOf s.store.ks tag)
  let addresses ← Call.check (reservedAddresses s.store.ks tag access pending index)
  let entry ← asking fun _ => Node.resolveTag tag
  match SpendPlan.new addresses entry dsts feeTotal blkToLive with
  | .error e => refuseRebuild tag access e
  | .ok plan =>
    if plan.digest ≠ pending.digest then Call.refuse .digestMismatch
    else do
      let signature ← Call.check (s.store.ks.resignReserved tag access)
      Call.check (SignedTransaction.attach plan signature)

def status (tag : Tag) (access : KeyAccess) (scope : ScanScope) (cancel : Cancel) :
    Call (Session D) Divergence AccountStatus :=
  asking fun ks => reconcileAccountWith ks tag access scope cancel

end

/-! ## What the methods can do -/

section
variable {part : Partition} {s s' : Session D}

theorem quiet_stopIf {ε : Type} {stop : Bool} {cancel : Cancel} :
    Call.Quiet Session.store (stopIf (σ := Session D) (ε := ε) stop cancel) := by
  unfold stopIf
  split
  · exact Call.Quiet.check _
  · exact Call.Quiet.pure _

theorem quiet_askStop {ε : Type} {cancel : Cancel} :
    Call.Quiet Session.store (asking (D := D) (ε := ε) fun _ => askStop cancel) :=
  quiet_asking fun h => by
    cases h
    simp

theorem askStop_heard {ε : Type} {cancel : Cancel} {r : Reply ε Bool}
    (h : asking (D := D) (fun _ => askStop cancel) s = (r, s')) : s'.node.heard = s.node.heard := by
  obtain ⟨-, hnode⟩ := Prod.mk.inj (asking_cases h).2
  rw [← hnode]
  exact Node.stop_heard cancel s.node

theorem quiet_openAccount {master : Option Secret} {cancel : Cancel} {tag : Tag} :
    Call.Quiet Session.store (openAccount (D := D) master cancel part tag) := by
  refine quiet_askStop.bind fun stop => quiet_stopIf.bind fun _ => Call.Quiet.get.bind fun s => ?_
  split
  · exact Call.Quiet.pure _
  · refine quiet_reconcile.bind fun found => ?_
    split
    · exact Call.Quiet.pure _
    · exact quiet_stopIf.bind fun _ => Call.Quiet.pure _

theorem quiet_openAccounts {master : Option Secret} {cancel : Cancel} (tags : List Tag) :
    ∀ part, Call.Quiet Session.store (openAccounts (D := D) master cancel tags part) := by
  induction tags with
  | nil => exact fun part => Call.Quiet.pure _
  | cons tag tags ih => exact fun part => quiet_openAccount.bind ih

/-- Opening a wallet leaves the store as it is, whatever its partition. -/
theorem quiet_openAsking {master : Option Secret} {cancel : Cancel} :
    Call.Quiet Session.store (openAsking (D := D) master cancel) := by
  refine Call.Quiet.get.bind fun s => ?_
  split
  · exact Call.Quiet.refuse _
  · next tags _ =>
    refine (quiet_openAccounts tags _).bind fun part => ?_
    exact Call.Quiet.ite (Call.Quiet.refuse _) (Call.Quiet.pure _)

theorem quiet_plan {tag : Tag} {access : KeyAccess} {dsts : List Destination}
    {feeTotal blkToLive : UInt64} :
    Call.Quiet Session.store (plan (D := D) part tag access dsts feeTotal blkToLive) :=
  Call.Quiet.get.bind fun _ => (Call.Quiet.check _).bind fun _ => (Call.Quiet.check _).bind fun _ =>
    quiet_resolveTag.bind fun _ => Call.Quiet.check _

theorem quiet_submit {signed : SignedTransaction} :
    Call.Quiet Session.store (submit (D := D) signed) :=
  quiet_asking fun h => Node.submit_not_killed h

theorem quiet_refuseRebuild {α : Type} {tag : Tag} {access : KeyAccess} {e : Error} :
    Call.Quiet Session.store (refuseRebuild (D := D) (α := α) tag access e) := by
  unfold refuseRebuild
  split
  · refine quiet_reconcile.bind fun found => ?_
    split <;> exact Call.Quiet.refuse _
  · exact Call.Quiet.refuse _

theorem quiet_resignPending {tag : Tag} {access : KeyAccess} {dsts : List Destination}
    {feeTotal blkToLive : UInt64} :
    Call.Quiet Session.store (resignPending (D := D) part tag access dsts feeTotal blkToLive) := by
  refine Call.Quiet.get.bind fun s => (Call.Quiet.check _).bind fun _ =>
    (Call.Quiet.check _).bind fun _ => (Call.Quiet.check _).bind fun _ =>
    quiet_resolveTag.bind fun entry => ?_
  split
  · exact quiet_refuseRebuild
  · exact Call.Quiet.ite (Call.Quiet.refuse _) ((Call.Quiet.check _).bind fun _ => Call.Quiet.check _)

theorem checkPlan_eq_ok {plan : SpendPlan} {addresses : SpendAddresses} :
    checkPlan plan addresses = .ok () ↔ addresses.position = plan.position ∧
      addresses.source = plan.srcAddr ∧ addresses.change = plan.chgAddr := by
  unfold checkPlan
  split
  · next h => exact iff_of_false (by simp) fun h' => h h'.1
  · next h =>
    rw [not_not] at h
    split
    · next h' =>
      refine iff_of_false (by simp) ?_
      rintro ⟨-, hs, hc⟩
      rcases h' with hne | hne
      · exact hne hs
      · exact hne hc
    · next h' =>
      rw [not_or, not_not, not_not] at h'
      exact iff_of_true rfl ⟨h, h'⟩

theorem checkEntry_eq_ok {plan : SpendPlan} {addresses : SpendAddresses} {entry : LedgerEntry} :
    checkEntry plan addresses entry = .ok () ↔
      entry.address = addresses.source ∧ entry.balance = plan.balance := by
  unfold checkEntry
  split
  · next h => exact iff_of_false (by simp) fun h' => h h'.1
  · next h =>
    rw [not_not] at h
    split
    · next h' => exact iff_of_false (by simp) fun h'' => h' h''.2
    · next h' => exact iff_of_true rfl ⟨h, not_not.mp h'⟩

/-- What follows the write: a signature by its receipt, attached. -/
def signed (plan : SpendPlan) (access : KeyAccess) (ks : Keystore) :
    Reply Error AdvanceReceipt → Reply Error SignedTransaction
  | .ok receipt => .ofExcept do
    let signature ← ks.signSpend plan.digest receipt access
    SignedTransaction.attach plan signature
  | .err e => .err e
  | .killed => .killed

variable [Layout D]

/-- Everything a reservation can do: nothing, or one call of the writer on the plan's digest. -/
inductive ReserveEnd (part : Partition) (s s' : Session D) (plan : SpendPlan) (access : KeyAccess) :
    Reply Error SignedTransaction → Prop where
  | refused {e : Error} (hstore : s'.store = s.store) : ReserveEnd part s s' plan access (.err e)
  | called {addresses : SpendAddresses} {entry : LedgerEntry} {written : Reply Error AdvanceReceipt}
      (hpart : part.divergenceFor plan.tag = none)
      (haddresses : s.store.ks.spendAddresses plan.tag access = .ok addresses)
      (hplan : checkPlan plan addresses = .ok ()) (hentry : checkEntry plan addresses entry = .ok ())
      (hheard : s'.node.heard = (plan.tag, entry) :: s.node.heard)
      (hcall : persistAdvance plan.tag plan.digest plan.figures s.store = (written, s'.store)) :
      ReserveEnd part s s' plan access (signed plan access s'.store.ks written)

theorem reserveAndSign_cases {plan : SpendPlan} {access : KeyAccess}
    {r : Reply Error SignedTransaction} (h : reserveAndSign part plan access s = (r, s')) :
    ReserveEnd part s s' plan access r := by
  unfold reserveAndSign at h
  rw [Call.get_bind] at h
  rcases Call.check_bind_cases h with ⟨e, -, rfl, rfl⟩ | ⟨⟨⟩, hpart, h⟩
  · exact .refused rfl
  rcases Call.check_bind_cases h with ⟨e, -, rfl, rfl⟩ | ⟨addresses, haddresses, h⟩
  · exact .refused rfl
  rcases Call.check_bind_cases h with ⟨e, -, rfl, rfl⟩ | ⟨⟨⟩, hplan, h⟩
  · exact .refused rfl
  have hexpiry : Call.Quiet Session.store (asking (D := D) fun _ => checkExpiry plan.blkToLive) :=
    quiet_asking fun h => (checkExpiry_heard h).2
  rcases hexpiry.bind_cases h with ⟨e, rfl, hstore⟩ | ⟨⟨⟩, t, hasked, hstore, h⟩
  · exact .refused hstore
  have hquiet := (checkExpiry_heard (asking_cases hasked).2).1
  rcases resolveTag_bind h with ⟨e, rfl, hstore'⟩ | ⟨entry, u, hstore', hheard, h⟩
  · exact .refused (hstore'.trans hstore)
  rcases Call.check_bind_cases h with ⟨e, -, rfl, rfl⟩ | ⟨⟨⟩, hentry, h⟩
  · exact .refused (hstore'.trans hstore)
  rw [hquiet] at hheard
  have hpart := Partition.requireReconciled_eq_ok.mp hpart
  have hcalled {v : Session D} {written : Reply Error AdvanceReceipt}
      (hw : writing (persistAdvance plan.tag plan.digest plan.figures) u = (written, v)) :
      ReserveEnd part s v plan access (signed plan access v.store.ks written) := by
    obtain ⟨hnode, hcall⟩ := writing_cases hw
    rw [hstore', hstore] at hcall
    exact .called hpart haddresses hplan hentry (by rw [hnode, hheard]) hcall
  rcases Call.bind_cases h with ⟨receipt, v, hw, h⟩ | ⟨e, hw, rfl⟩ | ⟨hw, rfl⟩
  · have hend := hcalled hw
    rw [Call.get_bind] at h
    rcases Call.check_bind_cases h with ⟨e, he, rfl, rfl⟩ | ⟨signature, hs, h⟩
    · rwa [signed, he] at hend
    · rw [signed, hs] at hend
      rcases ha : SignedTransaction.attach plan signature with e | tx <;> rw [ha] at h <;> cases h
      all_goals simpa [ok_bind, ha, Reply.ofExcept] using hend
  · exact hcalled hw
  · exact hcalled hw

/-- Everything a settle can do: nothing, or one call of the writer once the node answered the
address of the stored position. -/
inductive SettleEnd (s s' : Session D) (p : Parsed) (tag : Tag) (access : KeyAccess) :
    Reply Error Settlement → Prop where
  | still {r : Reply Error Settlement} (hstore : s'.store = s.store) (hlive : r ≠ .killed) :
      SettleEnd s s' p tag access r
  | called {slot : Slot} {pending : Pending} {entry : LedgerEntry} {written : Reply Error Unit}
      (hslot : p.slots.get? tag = some slot) (hopen : slot.pending = some pending)
      (hheard : s'.node.heard = (tag, entry) :: s.node.heard)
      (haddress : s.store.ks.addressAt tag slot.account.wotsIndex access = .ok entry.address)
      (hcall : persistSettled tag s.store = (written, s'.store)) :
      SettleEnd s s' p tag access
        (written.map fun _ => .settled pending.spentIndex slot.account.wotsIndex)

theorem settleIfLanded_cases {p : Parsed} (hm : s.store.ks.memory = some p) {tag : Tag}
    {access : KeyAccess} {r : Reply Error Settlement}
    (h : settleIfLanded tag access s = (r, s')) : SettleEnd s s' p tag access r := by
  unfold settleIfLanded at h
  rcases Call.bind_cases h with ⟨found, t, hasked, h⟩ | ⟨e, hasked, -⟩ | ⟨hasked, -⟩ <;>
    obtain ⟨hstore, found', hr, hfound⟩ := asking_reconcile hasked <;> cases hr
  rcases found with d | status
  · cases h
    exact .still hstore (by simp)
  have hend := reconcile_end hm hfound
  cases hend with
  | inSync | outstanding =>
    cases h
    exact .still hstore (by simp)
  | @landed slot pending entry hslot hopen hheard haddress =>
    rcases hw : writing (persistSettled tag) t with ⟨written, v⟩
    obtain ⟨hnode, hcall⟩ := writing_cases hw
    rw [hstore] at hcall
    have hr := (Call.map_apply hw).symm.trans h
    cases hr
    exact .called hslot hopen (by rw [hnode, hheard]) haddress hcall

end

end Wallet

end MochimoWallet
