import MochimoWallet.Lib.Stop
import MochimoWallet.Recon.Restore
import MochimoWallet.Recon.Advance

/-!
# Walks that are watched

A caller that watches a walk is told how far it has got every `progressEvery` positions,
counted by the askings: a walk asks whether to stop once before each position. Watching
changes nothing else. Each watched form is the one it watches with the counting put
around its cancel, and read on the session alone it is that form (`over_walk`,
`over_reconcile`, `over_restore`, `over_advance`).
-/

namespace MochimoWallet

open Codec Words Keystore Session

/-- How far a long operation has got: counted, never estimated. -/
structure Progress where
  account : UInt32
  accounts : UInt32
  position : UInt32
  ceiling : UInt32
  deriving DecidableEq

/-- How many positions a walk reaches between two reports. -/
def progressEvery : UInt32 := 256

/-- A length as a report has it. -/
def countOf (n : ℕ) : UInt32 := if n ≤ u32Max then .ofNat n else .ofNat u32Max

/-- How many positions a walk of the scope reaches if it finds nothing: the window, and the
range below the ceiling less what the window already holds of it. -/
def ScanScope.reach (scope : ScanScope) (stored : Option WotsIndex) : UInt32 :=
  let ceiling := scope.ceiling.toUInt64
  let total : UInt64 := match scope.windowEdges stored with
    | none => ceiling
    | some (lo, hi) =>
      let (lo, hi) := (UInt64.ofNat lo, UInt64.ofNat hi)
      let window := if lo ≤ hi + 1 then hi + 1 - lo else 0
      let shared :=
        if 1 ≤ ceiling then
          let last := ceiling - 1
          if lo ≤ min hi last + 1 then min hi last + 1 - lo else 0
        else 0
      window + ceiling - shared
  countOf total.toNat

variable [Crypto]

/-- A session, the positions the walk that is on has reached, and the reports made. -/
structure Watching (D : Type) where
  session : Session D
  reached : UInt32
  reports : List Progress

namespace Watching

variable {D ε α : Type}

/-- Run a call on the session, which no count is kept of. -/
def on (x : Call (Session D) ε α) : Call (Watching D) ε α :=
  Call.zoom Watching.session (fun s w => { w with session := s }) x

def asking (x : Keystore → Call Node ε α) : Call (Watching D) ε α := on (Session.asking x)

/-- A call that is handed the store. -/
def reading (x : Keystore → Call (Watching D) ε α) : Call (Watching D) ε α := do
  let w ← Call.get
  x w.session.store.ks

def report (at' : Progress) : Call (Watching D) ε Unit :=
  .modify fun w => { w with reports := w.reports ++ [at'] }

/-- Ask whether to stop, counting the position that is reached. -/
def stop (cancel : Cancel) (at' : Progress) (w : Watching D) : Bool × Watching D :=
  let n := saturatingAdd32 w.reached 1
  let reports := if n % progressEvery = 0 then w.reports ++ [{ at' with position := n }]
    else w.reports
  let (stop, node) := w.session.node.stop cancel
  (stop, ⟨{ w.session with node }, n, reports⟩)

/-- Run a walk with its askings counted from none. -/
def watched (walk : Call (Watching D) ε α) : Call (Watching D) ε α := do
  Call.modify fun w => { w with reached := 0 }
  walk

variable (cancel : Cancel) (at' : Progress)

def walk (target : Address) (addressAt : WotsIndex → Except Error Address) :
    List WotsIndex → Watching D → Walk × Watching D
  | [], w => (.notFound, w)
  | p :: ps, w =>
    match w.stop cancel at' with
    | (true, w) => (.failed p.raw .cancelled, w)
    | (false, w) =>
      match addressAt p with
      | .error cause => (.failed p.raw cause, w)
      | .ok a => if a = target then (.found p, w) else walk target addressAt ps w

def locate (chain : Address) (stored : WotsIndex) (scope : ScanScope)
    (addressAt : WotsIndex → Except Error Address) : Call (Watching D) ε ChainPosition := fun w =>
  match walk cancel at' chain addressAt (scope.positions (some stored)) w with
  | (.found i, w) =>
    (.ok (if stored.pos < i.pos then .ahead i (i.raw - stored.raw) else .behind i (stored.raw - i.raw)),
      w)
  | (.notFound, w) => (.ok (.unlocated stored scope none), w)
  | (.failed stoppedAt cause, w) =>
    let by' := if cause = .cancelled then StoppedBy.cancelled else .derivation
    (.ok (.unlocated stored scope (some ⟨stoppedAt, by'⟩)), w)

def reconcileClosed (ks : Keystore) (tag : Tag) (access : KeyAccess) (scope : ScanScope)
    (view : AccountView) (entry : LedgerEntry) (stream : StreamId) :
    Call (Watching D) Divergence AccountStatus := do
  let storedAddress ← Call.check (orCannot tag (ks.addressAt tag view.wotsIndex access))
  if entry.address = storedAddress then pure (.inSync view.wotsIndex entry.address entry.balance)
  else do
    let found ← locate cancel at' entry.address view.wotsIndex scope fun p => ks.addressAt tag p access
    let revertedSettle := match found, view.settled with
      | .behind index _, some s => if s.spentIndex = index then some s else none
      | _, _ => none
    Call.refuse (.indexMismatch tag view.wotsIndex storedAddress entry.address entry.balance stream
      found revertedSettle)

def reconcileOpen (ks : Keystore) (tag : Tag) (access : KeyAccess) (scope : ScanScope)
    (view : AccountView) (entry : LedgerEntry) (stream : StreamId) (pending : Pending) :
    Call (Watching D) Divergence AccountStatus := do
  let spentAddress ← Call.check (orCannot tag (ks.addressAt tag pending.spentIndex access))
  if entry.address = spentAddress then
    match pending.figures with
    | none => pure (.spendOutstanding pending.spentIndex entry.balance .unrecorded)
    | some figures => asking fun _ => .of fun n =>
      let (expiry, n) := expiryOf figures.blkToLive n
      (.ok (.spendOutstanding pending.spentIndex entry.balance (.recorded
        ⟨figures, entry.balance ≠ figures.reservedBalance, entry.balance, expiry⟩)), n)
  else do
  let changeAddress ← Call.check (orCannot tag (ks.addressAt tag view.wotsIndex access))
  if entry.address = changeAddress then
    pure (.spendLanded pending.spentIndex view.wotsIndex entry.balance)
  else do
    let found ← locate cancel at' entry.address view.wotsIndex scope fun p => ks.addressAt tag p access
    Call.refuse (.reservationUnexplained tag pending.spentIndex entry.address entry.balance stream
      found)

def reconcileAccountWith (ks : Keystore) (tag : Tag) (access : KeyAccess) (scope : ScanScope) :
    Call (Watching D) Divergence AccountStatus := do
  let view ← Call.check (viewOf ks tag)
  let entry ← asking fun _ => entryOf tag view
  let stream ← Call.check (orCannot tag (ks.streamId tag))
  match view.pending with
  | none => reconcileClosed cancel at' ks tag access scope view entry stream
  | some pending => reconcileOpen cancel at' ks tag access scope view entry stream pending

def restoreAccountIndexWith (master : Secret) (accountIndex : UInt32) (scope : ScanScope) :
    Call (Watching D) RestoreFailure RestoredAccount := fun w =>
  let tag := (deriveAccount master accountIndex).tag
  match asking (fun _ => Node.resolveTag tag) w with
  | (.err (.mesh 4 _), w) => (.err (.tagUnresolved tag), w)
  | (.err cause, w) => (.err (.chainUnreachable tag cause), w)
  | (.killed, w) => (.killed, w)
  | (.ok entry, w) =>
    match walk cancel at' entry.address (fun p => .ok (derivedAddressAt master accountIndex p))
      (scope.positions none) w with
    | (.found index, w) => (.ok ⟨tag, index, entry.address, entry.balance⟩, w)
    | (.notFound, w) => (.err (.noIndexReproducesTheAddress tag entry.address scope.ceiling), w)
    | (.failed _ cause, w) => (.err (.cannotScan tag cause), w)

/-- The last question before the write asks the caller's own cancel, and is no position reached. -/
def advanceAfterOperatorReview [Layout D] (tag : Tag) (access : KeyAccess)
    (ack : OperatorAcknowledgement) (scope : ScanScope) : Call (Watching D) Error AdvanceReceipt :=
  if ack.tag ≠ tag then Call.refuse .acknowledgementDoesNotMatch
  else do
    let found ← reading fun ks => (reconcileAccountWith cancel at' ks tag access scope).attempt
    match found with
    | .ok _ => Call.refuse .nothingToReconcile
    | .error d =>
      if d.advanceTarget ≠ some ack.target then Call.refuse .acknowledgementDoesNotMatch
      else do
        asking fun _ => beforeWrite cancel
        on (writing (persistAdvanceTo tag ack.target))

/-! ## Watching changes nothing else -/

variable {cancel : Cancel} {at' : Progress}

/-- A session that is watched. -/
def Of (w : Watching D) (s : Session D) : Prop := w.session = s

/-- A node that is asked, in a session that is watched and whose store stays as it is. -/
def OfNode (store : Opened D) (w : Watching D) (n : Node) : Prop := w.session = ⟨store, n⟩

theorem over_on (x : Call (Session D) ε α) : Call.Over Of (on x) x :=
  .zoom x (fun hw => hw) fun _ => rfl

theorem over_watched {x : Call (Watching D) ε α} {y : Call (Session D) ε α} (h : Call.Over Of x y) :
    Call.Over Of (watched x) y := by
  refine Call.Over.modify_bind ?_ h
  exact fun hw => hw

theorem over_report {f : Unit → Call (Watching D) ε α} {y : Call (Session D) ε α}
    (h : Call.Over Of (f ()) y) : Call.Over Of (report at' >>= f) y := by
  refine Call.Over.modify_bind ?_ h
  exact fun hw => hw

section
variable {store : Opened D}

theorem over_asking (x : Keystore → Call Node ε α) :
    Call.Over (OfNode store) (asking x) (x store.ks) := by
  refine ⟨fun {w w' n r} hw h => ?_⟩
  unfold asking on at h
  obtain ⟨s, hs, rfl⟩ := Call.zoom_cases h
  rw [show w.session = ⟨store, n⟩ from hw] at hs
  obtain ⟨hstore, hx⟩ := asking_cases hs
  obtain ⟨store', n'⟩ := s
  cases hstore
  exact ⟨n', hx, rfl⟩

theorem stop_session (w : Watching D) : (w.stop cancel at').1 = (w.session.node.stop cancel).1 ∧
    (w.stop cancel at').2.session = { w.session with node := (w.session.node.stop cancel).2 } :=
  ⟨rfl, rfl⟩

theorem over_walk {target : Address} {addressAt : WotsIndex → Except Error Address}
    {ps : List WotsIndex} {w w' : Watching D} {n : Node} {found : Walk} (hw : OfNode store w n)
    (h : walk cancel at' target addressAt ps w = (found, w')) :
    ∃ n', MochimoWallet.walk target cancel addressAt ps n = (found, n') ∧ OfNode store w' n' := by
  induction ps generalizing w n with
  | nil =>
    cases h
    exact ⟨n, rfl, hw⟩
  | cons p ps ih =>
    obtain ⟨hsaid, hsession⟩ : (w.stop cancel at').1 = (w.session.node.stop cancel).1 ∧
        (w.stop cancel at').2.session = { w.session with node := (w.session.node.stop cancel).2 } :=
      w.stop_session
    rw [show w.session = ⟨store, n⟩ from hw] at hsaid hsession
    unfold walk at h
    unfold MochimoWallet.walk
    rcases hstop : n.stop cancel with ⟨b, n₁⟩
    rcases hstop' : w.stop cancel at' with ⟨b', w₁⟩
    rw [hstop, hstop'] at hsaid hsession
    cases hsaid
    rw [hstop'] at h
    cases b with
    | true =>
      cases h
      exact ⟨n₁, rfl, hsession⟩
    | false =>
      dsimp only at h ⊢
      rcases haddress : addressAt p with cause | a <;> rw [haddress] at h <;> dsimp only at h ⊢
      · cases h
        exact ⟨n₁, rfl, hsession⟩
      · split at h
        · next heq =>
          cases h
          exact ⟨n₁, by rw [if_pos heq], hsession⟩
        · next hne =>
          rw [if_neg hne]
          exact ih hsession h

/-- A walk's finding as a report takes it. -/
theorem over_locate {β : Type} {chain : Address} {stored : WotsIndex} {scope : ScanScope}
    {addressAt : WotsIndex → Except Error Address} (f : ChainPosition → Reply ε β) :
    Call.Over (OfNode store)
      (do let found ← locate cancel at' chain stored scope addressAt
          .of fun w => (f found, w))
      (.of fun n =>
        let (found, n) := MochimoWallet.locate chain stored scope cancel addressAt n
        (f found, n)) := by
  refine ⟨fun {w w' n r} hw h => ?_⟩
  rcases hwalk : walk cancel at' chain addressAt (scope.positions (some stored)) w with ⟨found, u⟩
  obtain ⟨n', hn', hu⟩ := over_walk hw hwalk
  rw [Call.of_apply]
  unfold MochimoWallet.locate
  rw [hn']
  rw [Call.bind_apply] at h
  unfold locate at h
  rw [hwalk] at h
  cases found with
  | found i =>
    dsimp only at h ⊢
    split <;> next hlt =>
      simp only [hlt, if_true, if_false] at h
      cases h
      exact ⟨n', rfl, hu⟩
  | notFound | failed =>
    cases h
    exact ⟨n', rfl, hu⟩

variable {ks : Keystore} {tag : Tag} {access : KeyAccess} {scope : ScanScope} {view : AccountView}
  {entry : LedgerEntry} {stream : StreamId}

theorem over_reconcileClosed : Call.Over (OfNode store)
    (reconcileClosed cancel at' ks tag access scope view entry stream)
    (MochimoWallet.reconcileClosed ks tag access scope cancel view entry stream) :=
  (Call.Over.check _).bind fun _ => .ite (.pure _) (over_locate _)

theorem over_reconcileOpen (pending : Pending) : Call.Over (OfNode store)
    (reconcileOpen cancel at' ks tag access scope view entry stream pending)
    (MochimoWallet.reconcileOpen ks tag access scope cancel view entry stream pending) := by
  refine (Call.Over.check _).bind fun _ => .ite ?_ ((Call.Over.check _).bind fun _ =>
    .ite (.pure _) (over_locate _))
  rcases pending.figures with _ | figures
  · exact .pure _
  · exact over_asking _

theorem over_reconcile : Call.Over (OfNode store)
    (reconcileAccountWith cancel at' store.ks tag access scope)
    (MochimoWallet.reconcileAccountWith store.ks tag access scope cancel) := by
  refine (Call.Over.check _).bind fun view => (over_asking fun _ => entryOf tag view).bind fun entry =>
    (Call.Over.check _).bind fun stream => ?_
  rcases view.pending with _ | pending
  · exact over_reconcileClosed
  · exact over_reconcileOpen _

/-- What is done with a handle and its node, done in a session. -/
theorem over_reading {x : Keystore → Call (Watching D) ε α} {y : Keystore → Call Node ε α}
    (h : ∀ store, Call.Over (OfNode store) (x store.ks) (y store.ks)) :
    Call.Over Of (reading x) (Session.asking y) := by
  refine ⟨fun {w w' s r} hw hrun => ?_⟩
  cases hw
  obtain ⟨n, hn, hw'⟩ := (h w.session.store).run (s := w.session.node) rfl hrun
  exact ⟨⟨w.session.store, n⟩, asking_of hn, hw'⟩

theorem over_restore {master : Secret} {accountIndex : UInt32} : Call.Over (OfNode store)
    (restoreAccountIndexWith cancel at' master accountIndex scope)
    (MochimoWallet.restoreAccountIndexWith master accountIndex scope cancel) := by
  refine ⟨fun {w w' n r} hw h => ?_⟩
  unfold restoreAccountIndexWith at h
  unfold MochimoWallet.restoreAccountIndexWith
  rw [Call.of_apply]
  dsimp only at h ⊢
  rcases hasked : asking (ε := Error) (fun _ => Node.resolveTag (deriveAccount master accountIndex).tag) w with
    ⟨answer, u⟩
  obtain ⟨m, hm, hu⟩ := (over_asking fun _ => Node.resolveTag _).run hw hasked
  rw [hasked] at h
  rw [hm]
  rcases answer with entry | cause | _
  · dsimp only at h ⊢
    rcases hwalk : walk cancel at' entry.address
      (fun p => .ok (derivedAddressAt master accountIndex p)) (scope.positions none) u with ⟨found, v⟩
    obtain ⟨n', hn', hv⟩ := over_walk hu hwalk
    rw [hwalk] at h
    rw [hn']
    cases found <;> cases h <;> exact ⟨n', rfl, hv⟩
  · split at h
    · next heq =>
      cases heq
      cases h
      exact ⟨m, rfl, hu⟩
    · next hmesh heq =>
      cases heq
      cases h
      refine ⟨m, ?_, hu⟩
      split <;> simp_all
    · next heq => cases heq
    · next heq => cases heq
  · cases h
    exact ⟨m, rfl, hu⟩

variable [Layout D]

/-- A review's own re-check, watched: whatever is asked, one call of the writer or none. -/
theorem over_advance {ack : OperatorAcknowledgement} :
    Call.Over Of (advanceAfterOperatorReview (D := D) cancel at' tag access ack scope)
      (Session.advanceAfterOperatorReview tag access ack scope cancel cancel) := by
  refine .ite (.refuse _) ?_
  refine (over_reading fun store => over_reconcile.attempt).bind fun found => ?_
  split
  · exact .refuse _
  · exact .ite (.refuse _) ((over_on _).bind fun _ => over_on _)

end

end Watching

end MochimoWallet
