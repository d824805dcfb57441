import MochimoWallet.Recon

/-!
# Advancing after an operator's review

A `Session` is an open store and a node to ask. Reconciliation reads both and writes
neither; the one write it can lead to is the acknowledged advance, which reconciles
once more and writes only where that finds what the acknowledgement names.
`advance_cases` says everything such a call can do.
-/

namespace MochimoWallet

open Codec Keystore

/-- What an operator acknowledged: the account, and the position its chain is ahead at. -/
structure OperatorAcknowledgement where
  tag : Tag
  target : WotsIndex
  deriving DecidableEq

def OperatorAcknowledgement.of (d : Divergence) : Option OperatorAcknowledgement :=
  d.advanceTarget.map fun target => ⟨d.tag, target⟩

namespace Session

/-- The last question before a write: whether the caller wants to stop. -/
def beforeWrite (cancel : Cancel) : Call Node Error Unit := fun n =>
  match n.stop cancel with
  | (true, n) => (.err .cancelled, n)
  | (false, n) => (.ok (), n)

theorem beforeWrite_cases {cancel : Cancel} {n n' : Node} {r : Reply Error Unit}
    (h : beforeWrite cancel n = (r, n')) :
    n'.heard = n.heard ∧ (r = .ok () ∨ r = .err .cancelled) := by
  have hheard := Node.stop_heard cancel n
  unfold beforeWrite at h
  split at h <;> next heq =>
    cases h
    rw [heq] at hheard
    exact ⟨hheard, by simp⟩

end Session

variable [Crypto]

/-- An open store and the node it is reconciled against. -/
structure Session (D : Type) where
  store : Opened D
  node : Node

namespace Session

variable {D ε α : Type}

/-- Ask the node, reading the handle. -/
def asking (x : Keystore → Call Node ε α) : Call (Session D) ε α := fun s =>
  Call.zoom Session.node (fun n s => { s with node := n }) (x s.store.ks) s

/-- Call a method of the store. -/
def writing (x : Call (Opened D) ε α) : Call (Session D) ε α :=
  Call.zoom Session.store (fun t s => { s with store := t }) x

theorem asking_of {x : Keystore → Call Node ε α} {s : Session D} {r : Reply ε α} {n : Node}
    (h : x s.store.ks s.node = (r, n)) : asking x s = (r, { s with node := n }) := by
  unfold asking Call.zoom
  rw [h]

/-- Asking leaves the store as it is. -/
theorem asking_cases {x : Keystore → Call Node ε α} {s s' : Session D} {r : Reply ε α}
    (h : asking x s = (r, s')) : s'.store = s.store ∧ x s.store.ks s.node = (r, s'.node) := by
  obtain ⟨n, hx, rfl⟩ := Call.zoom_cases h
  exact ⟨rfl, hx⟩

/-- A store's method leaves the node as it is. -/
theorem writing_cases {x : Call (Opened D) ε α} {s s' : Session D} {r : Reply ε α}
    (h : writing x s = (r, s')) : s'.node = s.node ∧ x s.store = (r, s'.store) := by
  obtain ⟨t, hx, rfl⟩ := Call.zoom_cases h
  exact ⟨rfl, hx⟩

/-- What only asks leaves the store. -/
theorem quiet_asking {x : Keystore → Call Node ε α}
    (hx : ∀ {ks n n' r}, x ks n = (r, n') → r ≠ .killed) : Call.Quiet Session.store (asking (D := D) x) := by
  refine ⟨fun h => ?_⟩
  obtain ⟨hstore, h⟩ := asking_cases h
  exact ⟨hstore, hx h⟩

/-- Reconcile once more, and advance only where that finds what was acknowledged. -/
def advanceAfterOperatorReview [Layout D] (tag : Tag) (access : KeyAccess)
    (ack : OperatorAcknowledgement) (scope : ScanScope) (cancel last : Cancel) :
    Call (Session D) Error AdvanceReceipt :=
  if ack.tag ≠ tag then Call.refuse .acknowledgementDoesNotMatch
  else do
    let found ← asking fun ks => (reconcileAccountWith ks tag access scope cancel).attempt
    match found with
    | .ok _ => Call.refuse .nothingToReconcile
    | .error d =>
      if d.advanceTarget ≠ some ack.target then Call.refuse .acknowledgementDoesNotMatch
      else do
        asking fun _ => beforeWrite last
        writing (persistAdvanceTo tag ack.target)

/-! ## What an advance can do -/

variable {s s' : Session D} {p : Parsed} {tag : Tag} {access : KeyAccess}
  {ack : OperatorAcknowledgement} {scope : ScanScope} {cancel last : Cancel}

/-- What a reconciliation finds, asked as a value. -/
theorem asking_reconcile {r : Reply ε (Except Divergence AccountStatus)}
    (h : asking (fun ks => (reconcileAccountWith ks tag access scope cancel).attempt) s = (r, s')) :
    s'.store = s.store ∧ ∃ found, r = .ok found ∧
      reconcileAccountWith s.store.ks tag access scope cancel s.node = (.ofExcept found, s'.node) := by
  obtain ⟨hstore, h⟩ := asking_cases h
  rcases Call.attempt_cases h with ⟨found, hr, hfound⟩ | ⟨-, hkilled⟩
  · exact ⟨hstore, found, hr, hfound⟩
  · exact absurd rfl (reconcile_not_killed hkilled)

theorem quiet_reconcile : Call.Quiet Session.store (asking (D := D) (ε := ε) fun ks =>
    (reconcileAccountWith ks tag access scope cancel).attempt) := by
  refine ⟨fun h => ?_⟩
  obtain ⟨hstore, found, rfl, -⟩ := asking_reconcile h
  exact ⟨hstore, by simp⟩

theorem quiet_resolveTag : Call.Quiet Session.store (asking (D := D) fun _ => Node.resolveTag tag) :=
  quiet_asking fun h => by
    rcases Node.resolveTag_cases h with ⟨entry, rfl, -⟩ | ⟨⟨e, rfl⟩, -⟩ <;> simp

/-- A lookup and what follows it: the entry it goes on with has been heard. -/
theorem resolveTag_bind {α : Type} {f : LedgerEntry → Call (Session D) Error α} {r : Reply Error α}
    (h : (asking (fun _ => Node.resolveTag tag) >>= f) s = (r, s')) :
    (∃ e, r = .err e ∧ s'.store = s.store) ∨
      ∃ entry t, t.store = s.store ∧ t.node.heard = (tag, entry) :: s.node.heard ∧
        f entry t = (r, s') := by
  rcases quiet_resolveTag.bind_cases h with hend | ⟨entry, t, hasked, hstore, h⟩
  · exact .inl hend
  obtain ⟨-, hasked⟩ := asking_cases hasked
  rcases Node.resolveTag_cases hasked with ⟨entry', hr, -, hheard⟩ | ⟨⟨e, hr⟩, -⟩ <;> cases hr
  exact .inr ⟨entry, t, hstore, hheard, h⟩

variable [Layout D]

/-- Everything an acknowledged advance can do: nothing, or one call of the writer on the position
the node's last answer is the address of. -/
inductive AdvanceEnd (s s' : Session D) (p : Parsed) (tag : Tag) (access : KeyAccess)
    (ack : OperatorAcknowledgement) (r : Reply Error AdvanceReceipt) : Prop where
  | refused {e : Error} (hr : r = .err e) (hstore : s'.store = s.store)
  | called {slot : Slot} {entry : LedgerEntry} (htag : ack.tag = tag)
      (hslot : p.slots.get? tag = some slot) (hopen : slot.pending = none)
      (hahead : slot.account.wotsIndex.pos < ack.target.pos)
      (hheard : s'.node.heard = (tag, entry) :: s.node.heard)
      (haddress : s.store.ks.addressAt tag ack.target access = .ok entry.address)
      (hcall : persistAdvanceTo tag ack.target s.store = (r, s'.store))

theorem advance_cases (hm : s.store.ks.memory = some p) {r : Reply Error AdvanceReceipt}
    (h : advanceAfterOperatorReview tag access ack scope cancel last s = (r, s')) :
    AdvanceEnd s s' p tag access ack r := by
  unfold advanceAfterOperatorReview at h
  rw [Call.ite_apply] at h
  split at h
  · cases h
    exact .refused rfl rfl
  next htag =>
  rcases Call.bind_cases h with ⟨found, t, hasked, h⟩ | ⟨e, hasked, -⟩ | ⟨hasked, -⟩ <;>
    obtain ⟨hstore, found', hr, hfound⟩ := asking_reconcile hasked <;> cases hr
  rcases found with d | status
  · dsimp only at h
    rw [Call.ite_apply] at h
    split at h
    · cases h
      exact .refused rfl hstore
    next htarget =>
    rw [not_not] at htarget
    cases reconcile_end hm hfound with
    | other hnone _ =>
      rw [hnone] at htarget
      cases htarget
    | @ahead slot entry target _ hslot hopen hheard hahead haddress hadvance _ =>
      cases hadvance.symm.trans htarget
      rcases Call.bind_cases h with ⟨⟨⟩, u, hasked, h⟩ | ⟨e, hasked, rfl⟩ | ⟨hasked, rfl⟩ <;>
        obtain ⟨hstore', hbefore⟩ := asking_cases hasked <;>
        obtain ⟨hlast, hr⟩ := beforeWrite_cases hbefore
      · obtain ⟨hnode, hcall⟩ := writing_cases h
        rw [hstore', hstore] at hcall
        exact .called (not_not.mp htag) hslot hopen hahead (by rw [hnode, hlast, hheard])
          haddress hcall
      · exact .refused rfl (hstore'.trans hstore)
      · rcases hr with hr | hr <;> cases hr
  · cases h
    exact .refused rfl hstore

/-- A poisoned store is not advanced. -/
theorem advance_poisoned (hm : s.store.ks.memory = none) {r : Reply Error AdvanceReceipt}
    (h : advanceAfterOperatorReview tag access ack scope cancel last s = (r, s')) :
    s'.store = s.store ∧ ∃ e, r = .err e := by
  unfold advanceAfterOperatorReview at h
  rw [Call.ite_apply] at h
  split at h
  · cases h
    exact ⟨rfl, _, rfl⟩
  rcases Call.bind_cases h with ⟨found, t, hasked, h⟩ | ⟨e, hasked, -⟩ | ⟨hasked, -⟩ <;>
    obtain ⟨hstore, found', hr, hfound⟩ := asking_reconcile hasked <;> cases hr
  obtain ⟨d, hd, hnone⟩ := reconcile_poisoned hm hfound
  rcases found with d' | status <;> cases hd
  dsimp only at h
  rw [Call.ite_apply, if_pos (by simp [hnone])] at h
  cases h
  exact ⟨hstore, _, rfl⟩

end Session

end MochimoWallet
