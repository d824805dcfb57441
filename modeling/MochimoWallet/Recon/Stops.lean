import MochimoWallet.Lib.Stop
import MochimoWallet.Recon.Restore
import MochimoWallet.Recon.Advance

/-!
# What a stop does to a walk

A walk asks its caller before each position, and a stop there ends it; the report made of
it says so (`Divergence.stoppedByCancel`). No key's derivation fails as a stop does, so a
report that says so was stopped, and one that does not is the report of a walk that is
never asked (`reconcile_heeds`, `restore_heeds`).
-/

namespace MochimoWallet

open Codec Keystore

/-- The caller's answers, as a node holds them. -/
def nodeStops : Stops Node Unit := ⟨Node.stops, fun l n => { n with stops := l }, fun _ => ()⟩

/-! ## Walking -/

/-- One asking: no answer left, or the next one. -/
theorem stop_when (n : Node) : (n.stop .when = (false, n) ∧ n.stops = []) ∨
    ∃ b stops, n.stops = b :: stops ∧ n.stop .when = (b, { n with stops }) := by
  unfold Node.stop
  rcases hstops : n.stops with _ | ⟨b, stops⟩
  · exact .inl ⟨rfl, rfl⟩
  · exact .inr ⟨b, stops, rfl, rfl⟩

theorem walk_heeds {target : Address} {addressAt : WotsIndex → Except Error Address}
    (hat : ∀ p, addressAt p ≠ .error .cancelled) {ps : List WotsIndex} {n n' : Node} {w : Walk}
    (h : walk target .when addressAt ps n = (w, n')) :
    (nodeStops.Went n n' ∧ (∀ k, w ≠ .failed k .cancelled) ∧ ∀ l,
        walk target .never addressAt ps { n with stops := l } = (w, { n' with stops := l })) ∨
      nodeStops.Halted n n' ∧ ∃ k, w = .failed k .cancelled := by
  induction ps generalizing n with
  | nil =>
    cases h
    exact .inl ⟨.refl _, by simp, fun l => rfl⟩
  | cons p ps ih =>
    have hasked : (∃ m, n.stop .when = (false, m) ∧ nodeStops.Went n m ∧
          ∀ l, { m with stops := l } = { n with stops := l }) ∨
        ∃ m, n.stop .when = (true, m) ∧ nodeStops.Halted n m := by
      rcases stop_when n with ⟨hstop, -⟩ | ⟨b, stops, hstops, hstop⟩
      · exact .inl ⟨n, hstop, .refl n, fun _ => rfl⟩
      · cases b with
        | false => exact .inl ⟨{ n with stops }, hstop, ⟨[false], hstops, by simp⟩, fun _ => rfl⟩
        | true => exact .inr ⟨{ n with stops }, hstop, ⟨⟨[], hstops, List.not_mem_nil⟩, rfl⟩⟩
    unfold walk at h
    rcases hasked with ⟨m, hstop, hwent, hsame⟩ | ⟨m, hstop, hhalted⟩ <;> rw [hstop] at h
    swap
    · cases h
      exact .inr ⟨hhalted, p.raw, rfl⟩
    -- The position is derived once its asking said no.
    rcases haddress : addressAt p with cause | a <;> rw [haddress] at h <;> dsimp only at h
    · cases h
      refine .inl ⟨hwent, ?_, fun l => ?_⟩
      · rintro k ⟨⟩
        exact hat p haddress
      · simp only [walk, Node.stop_never, haddress, hsame]
    split at h
    · next heq =>
      cases h
      exact .inl ⟨hwent, by simp, fun l => by
        simp only [walk, Node.stop_never, haddress, heq, if_true, hsame]⟩
    · next hne =>
      rcases ih h with ⟨hwent', hlive, hwalk⟩ | ⟨hhalted, hw⟩
      · refine .inl ⟨hwent.trans hwent', hlive, fun l => ?_⟩
        simp only [walk, Node.stop_never, haddress, if_neg hne]
        rw [← hsame, hwalk]
      · exact .inr ⟨hwent.halted rfl hhalted, hw⟩

/-- A position that a stop kept from being found. -/
def ChainPosition.Stopped (position : ChainPosition) : Prop :=
  ∃ stored scope k, position = .unlocated stored scope (some ⟨k, .cancelled⟩)

theorem locate_heeds {chain : Address} {stored : WotsIndex} {scope : ScanScope} {n n' : Node}
    {addressAt : WotsIndex → Except Error Address} (hat : ∀ p, addressAt p ≠ .error .cancelled)
    {found : ChainPosition} (h : locate chain stored scope .when addressAt n = (found, n')) :
    (nodeStops.Went n n' ∧ ¬ found.Stopped ∧ ∀ l,
        locate chain stored scope .never addressAt { n with stops := l } =
          (found, { n' with stops := l })) ∨
      nodeStops.Halted n n' ∧ found.Stopped := by
  unfold locate at h
  rcases hwalk : walk chain .when addressAt (scope.positions (some stored)) n with ⟨w, m⟩
  rw [hwalk] at h
  rcases walk_heeds hat hwalk with ⟨hwent, hlive, hsame⟩ | ⟨hhalted, k, rfl⟩
  · have hnever (l : List Bool) : locate chain stored scope .never addressAt { n with stops := l } =
        (found, { n' with stops := l }) := by
      unfold locate
      rw [hsame l]
      cases w with
      | found i =>
        dsimp only at h ⊢
        split at h <;> next hlt => cases h; simp only [hlt, if_true, if_false]
      | notFound => cases h; rfl
      | failed k cause => cases h; rfl
    cases w with
    | found i =>
      dsimp only at h
      split at h <;> cases h <;> exact .inl ⟨hwent, by rintro ⟨_, _, _, ⟨⟩⟩, hnever⟩
    | notFound =>
      cases h
      exact .inl ⟨hwent, by rintro ⟨_, _, _, ⟨⟩⟩, hnever⟩
    | failed k cause =>
      cases h
      refine .inl ⟨hwent, ?_, hnever⟩
      rintro ⟨_, _, _, heq⟩
      have hcause : cause ≠ .cancelled := fun he => hlive k (he ▸ rfl)
      simp [hcause] at heq
  · cases h
    exact .inr ⟨hhalted, _, _, _, rfl⟩

/-! ## Asking the node -/

theorem deaf_resolveTag (tag : Tag) : Call.Deaf nodeStops (Node.resolveTag tag) := by
  refine ⟨fun {n n' r} h => ?_⟩
  unfold Node.resolveTag at h
  rcases hentries : n.entries with _ | ⟨e | entry, entries⟩ <;> rw [hentries] at h <;>
    dsimp only at h
  · cases h
    exact ⟨rfl, fun l => by simp only [Node.resolveTag, nodeStops, hentries]⟩
  · cases h
    exact ⟨rfl, fun l => by simp only [Node.resolveTag, nodeStops, hentries]⟩
  · split at h
    · next htag =>
      cases h
      exact ⟨rfl, fun l => by simp only [Node.resolveTag, nodeStops, hentries, if_pos htag]⟩
    · next htag =>
      cases h
      exact ⟨rfl, fun l => by simp only [Node.resolveTag, nodeStops, hentries, if_neg htag]⟩

theorem expiryOf_stops {blkToLive : UInt64} {n n' : Node} {expiry : Expiry}
    (h : expiryOf blkToLive n = (expiry, n')) : n'.stops = n.stops ∧
      ∀ l, expiryOf blkToLive { n with stops := l } = (expiry, { n' with stops := l }) := by
  unfold expiryOf at h
  split at h
  · next hzero =>
    cases h
    exact ⟨rfl, fun l => by rw [expiryOf, if_pos hzero]⟩
  · next hlive =>
    unfold Node.networkStatus at h
    obtain ⟨entries, tips, echoes, stops, heard⟩ := n
    rcases tips with _ | ⟨e | tip, tips⟩ <;> cases h <;>
      exact ⟨rfl, fun l => by rw [expiryOf, if_neg hlive]; rfl⟩

theorem deaf_expiryOf {ε α : Type} (blkToLive : UInt64) (f : Expiry → α) :
    Call.Deaf nodeStops (Call.of (ε := ε) fun n =>
      let (expiry, n) := expiryOf blkToLive n
      (.ok (f expiry), n)) := by
  refine ⟨fun {n n' r} h => ?_⟩
  rcases hexpiry : expiryOf blkToLive n with ⟨expiry, m⟩
  obtain ⟨hanswers, hsame⟩ := expiryOf_stops hexpiry
  rw [Call.of_apply, hexpiry] at h
  cases h
  refine ⟨hanswers, fun l => ?_⟩
  have hstops := hsame l
  unfold nodeStops
  rw [Call.of_apply]
  dsimp only
  rw [hstops]

/-- A divergence that says a stop ended its walk. -/
def Reported {α : Type} (r : Reply Divergence α) : Prop :=
  ∃ d, r = .err d ∧ d.stoppedByCancel = true

theorem not_reported_ok {α : Type} (a : α) : ¬ Reported (.ok a) := by
  rintro ⟨d, ⟨⟩, -⟩

theorem reported_err {α β : Type} (d : Divergence) :
    Reported (.err d : Reply Divergence α) ↔ Reported (.err d : Reply Divergence β) := by
  constructor <;>
    · rintro ⟨d, ⟨⟩, hstopped⟩
      exact ⟨d, rfl, hstopped⟩

theorem heeds_orCannot {α : Type} {tag : Tag} (x : Except Error α) :
    Call.Heeds nodeStops (fun _ => True) Reported (Call.check (orCannot tag x)) (Call.check (orCannot tag x)) := by
  refine Call.Heeds.check ?_
  rintro ⟨d, hd, hstopped⟩
  rcases x with cause | a <;> cases hd
  cases hstopped

/-- What a lookup's ending says of the account. -/
def answerOf (tag : Tag) (view : AccountView) : Reply Error LedgerEntry → Reply Divergence LedgerEntry
  | .ok entry => .ok entry
  | .err (.mesh 4 _) => .err (.tagUnresolved tag view.wotsIndex)
  | .err cause => .err (.chainUnreachable tag cause)
  | .killed => .killed

theorem entryOf_eq (tag : Tag) (view : AccountView) (n : Node) : entryOf tag view n =
    (answerOf tag view (Node.resolveTag tag n).1, (Node.resolveTag tag n).2) := by
  unfold entryOf answerOf
  rcases Node.resolveTag tag n with ⟨r, m⟩
  dsimp only
  split <;> simp_all

theorem heeds_entryOf (tag : Tag) (view : AccountView) :
    Call.Heeds nodeStops (fun _ => True) Reported (entryOf tag view) (entryOf tag view) := by
  refine ⟨fun {n n' r} _ h => .inl ?_⟩
  rcases hr : Node.resolveTag tag n with ⟨r', m⟩
  obtain ⟨hanswers, hsame⟩ := (deaf_resolveTag tag).run hr
  rw [entryOf_eq, hr] at h
  cases h
  refine ⟨.of_eq hanswers, ?_, fun l => by rw [entryOf_eq, hsame l]⟩
  rintro ⟨d, hd, hstopped⟩
  unfold answerOf at hd
  split at hd <;> cases hd <;> cases hstopped

theorem quiet_entryOf (tag : Tag) (view : AccountView) :
    Call.Quiet nodeStops.kept (entryOf tag view) := by
  refine ⟨fun h => ⟨rfl, ?_⟩⟩
  rcases entryOf_cases h with ⟨entry, rfl, -⟩ | ⟨d, rfl, -⟩ <;> simp

/-! ## Reconciling -/

variable [Crypto]

/-- No key's derivation fails as a stop does. -/
theorem addressAt_ne_cancelled (ks : Keystore) (tag : Tag) (p : WotsIndex) (access : KeyAccess) :
    ks.addressAt tag p access ≠ .error .cancelled := by
  intro h
  unfold Keystore.addressAt at h
  rcases bind_eq_error.mp h with h | ⟨⟨generation, slots⟩, -, h⟩
  · unfold live at h
    split at h <;> cases h
  rcases bind_eq_error.mp h with h | ⟨slot, -, h⟩
  · unfold slotOf at h
    split at h <;> cases h
  rcases bind_eq_error.mp h with h | ⟨key, -, h⟩
  · unfold keyAt at h
    split at h
    · cases h
    · cases h
    · dsimp only at h
      split at h
      · cases h
      split at h
      · cases h
      split at h
      · cases h
      split at h <;> cases h
    · split at h <;> cases h
  · cases h

section
variable {ks : Keystore} {tag : Tag} {access : KeyAccess} {scope : ScanScope} {view : AccountView}
  {entry : LedgerEntry} {stream : StreamId}

omit [Crypto] in
/-- A report says it was stopped when the position it found says so. -/
theorem stoppedByCancel_iff :
    (∀ tag stored storedAddress chain balance stream position settled,
      (Divergence.indexMismatch tag stored storedAddress chain balance stream position
        settled).stoppedByCancel = true ↔ position.Stopped) ∧
    ∀ tag spent chain balance stream position,
      (Divergence.reservationUnexplained tag spent chain balance stream position).stoppedByCancel =
        true ↔ position.Stopped := by
  constructor
  · intro _ _ _ _ _ _ position _
    unfold Divergence.stoppedByCancel
    split
    · next heq => cases heq; exact iff_of_true rfl ⟨_, _, _, rfl⟩
    · next heq => cases heq
    · next hnot _ =>
      refine iff_of_false (by simp) ?_
      rintro ⟨_, _, _, rfl⟩
      exact hnot _ _ _ _ _ _ _ _ _ _ rfl
  · intro _ _ _ _ _ position
    unfold Divergence.stoppedByCancel
    split
    · next heq => cases heq
    · next heq => cases heq; exact iff_of_true rfl ⟨_, _, _, rfl⟩
    · next hnot =>
      refine iff_of_false (by simp) ?_
      rintro ⟨_, _, _, rfl⟩
      exact hnot _ _ _ _ _ _ _ _ rfl

/-- A walk's report, and a stop that ended it. -/
theorem heeds_locate {chain : Address} {stored : WotsIndex} (report : ChainPosition → Divergence)
    (hreport : ∀ position, (report position).stoppedByCancel = true ↔ position.Stopped) :
    Call.Heeds nodeStops (fun _ => True) (Reported (α := AccountStatus))
      (.of fun n =>
        let (found, n) := locate chain stored scope .when (fun p => ks.addressAt tag p access) n
        (.err (report found), n))
      (.of fun n =>
        let (found, n) := locate chain stored scope .never (fun p => ks.addressAt tag p access) n
        (.err (report found), n)) := by
  refine ⟨fun {n n' r} _ h => ?_⟩
  rcases hlocate : locate chain stored scope .when (fun p => ks.addressAt tag p access) n with ⟨found, m⟩
  rw [Call.of_apply, hlocate] at h
  cases h
  rcases locate_heeds (fun p => addressAt_ne_cancelled ks tag p access) hlocate with
    ⟨hwent, hlive, hsame⟩ | ⟨hhalted, hstopped⟩
  · refine .inl ⟨hwent, ?_, fun l => ?_⟩
    · rintro ⟨d, ⟨⟩, hd⟩
      exact hlive ((hreport found).mp hd)
    · rw [Call.of_apply]
      have hnever := hsame l
      unfold nodeStops at *
      dsimp only at *
      rw [hnever]
  · exact .inr ⟨hhalted, _, rfl, (hreport found).mpr hstopped⟩

/-- The settle that a chain standing at its position takes back. -/
def settleAt (settled : Option Pending) (found : ChainPosition) : Option Pending :=
  match found, settled with
  | .behind index _, some s => if s.spentIndex = index then some s else none
  | _, _ => none

theorem heeds_reconcileClosed :
    Call.Heeds nodeStops (fun _ => True) Reported (reconcileClosed ks tag access scope .when view entry stream)
      (reconcileClosed ks tag access scope .never view entry stream) := by
  unfold reconcileClosed
  refine (heeds_orCannot _).seq (Call.Quiet.check _) not_reported_ok (fun _ => reported_err _)
    fun storedAddress => ?_
  refine Call.Heeds.ite (Call.Heeds.pure (not_reported_ok _)) ?_
  exact heeds_locate (fun found => .indexMismatch tag view.wotsIndex storedAddress entry.address
    entry.balance stream found (settleAt view.settled found)) fun position =>
      stoppedByCancel_iff.1 _ _ _ _ _ _ _ _

theorem heeds_reconcileOpen (pending : Pending) :
    Call.Heeds nodeStops (fun _ => True) Reported
      (reconcileOpen ks tag access scope .when view entry stream pending)
      (reconcileOpen ks tag access scope .never view entry stream pending) := by
  unfold reconcileOpen
  refine (heeds_orCannot _).seq (Call.Quiet.check _) not_reported_ok (fun _ => reported_err _)
    fun spentAddress => ?_
  refine Call.Heeds.ite ?_ ?_
  · rcases pending.figures with _ | figures
    · exact Call.Heeds.pure (not_reported_ok _)
    · refine (deaf_expiryOf figures.blkToLive fun expiry => AccountStatus.spendOutstanding
        pending.spentIndex entry.balance (.recorded
          ⟨figures, entry.balance ≠ figures.reservedBalance, entry.balance, expiry⟩)).heeds fun _ h => ?_
      cases h
      exact not_reported_ok _
  · refine (heeds_orCannot _).seq (Call.Quiet.check _) not_reported_ok (fun _ => reported_err _)
      fun changeAddress => ?_
    refine Call.Heeds.ite (Call.Heeds.pure (not_reported_ok _)) ?_
    exact heeds_locate (fun found => .reservationUnexplained tag pending.spentIndex
      entry.address entry.balance stream found) fun position => stoppedByCancel_iff.2 _ _ _ _ _ _

/-- A reconciliation that was stopped reports it; otherwise it is the one that is never asked. -/
theorem reconcile_heeds :
    Call.Heeds nodeStops (fun _ => True) Reported (reconcileAccountWith ks tag access scope .when)
      (reconcileAccountWith ks tag access scope .never) := by
  unfold reconcileAccountWith
  have hview : ¬ Reported (.ofExcept (viewOf ks tag)) := by
    rintro ⟨d, hd, hstopped⟩
    unfold viewOf at hd
    split at hd <;> cases hd <;> cases hstopped
  refine (Call.Heeds.check hview).seq (Call.Quiet.check _) not_reported_ok (fun _ => reported_err _)
    fun view => ?_
  refine (heeds_entryOf tag view).seq (quiet_entryOf tag view) not_reported_ok (fun _ => reported_err _)
    fun entry => ?_
  refine (heeds_orCannot _).seq (Call.Quiet.check _) not_reported_ok (fun _ => reported_err _)
    fun stream => ?_
  split
  · exact heeds_reconcileClosed
  · exact heeds_reconcileOpen _

/-- A scan's failure that says a stop ended it. -/
def ScanStopped {α : Type} (r : Reply RestoreFailure α) : Prop :=
  ∃ failure, r = .err failure ∧ failure.stoppedByCancel = true

/-- What a walk from an entry makes of a scan. -/
def scanned (master : Secret) (accountIndex : UInt32) (scope : ScanScope) (entry : LedgerEntry) :
    Walk → Reply RestoreFailure RestoredAccount
  | .found index =>
    .ok ⟨(deriveAccount master accountIndex).tag, index, entry.address, entry.balance⟩
  | .notFound => .err (.noIndexReproducesTheAddress (deriveAccount master accountIndex).tag
      entry.address scope.ceiling)
  | .failed _ cause => .err (.cannotScan (deriveAccount master accountIndex).tag cause)

/-- What a lookup's ending makes of a scan that goes no further. -/
def unscanned (tag : Tag) : Reply Error LedgerEntry → Reply RestoreFailure RestoredAccount
  | .err (.mesh 4 _) => .err (.tagUnresolved tag)
  | .err cause => .err (.chainUnreachable tag cause)
  | _ => .killed

theorem restore_eq (master : Secret) (accountIndex : UInt32) (cancel : Cancel) (n : Node) :
    restoreAccountIndexWith master accountIndex scope cancel n =
      match Node.resolveTag (deriveAccount master accountIndex).tag n with
      | (.ok entry, m) =>
        let out := walk entry.address cancel (fun p => .ok (derivedAddressAt master accountIndex p))
          (scope.positions none) m
        (scanned master accountIndex scope entry out.1, out.2)
      | (r, m) => (unscanned (deriveAccount master accountIndex).tag r, m) := by
  unfold restoreAccountIndexWith
  rw [Call.of_apply]
  dsimp only
  rcases Node.resolveTag (deriveAccount master accountIndex).tag n with ⟨entry | cause | _, m⟩
  · dsimp only
    rcases walk entry.address cancel (fun p => .ok (derivedAddressAt master accountIndex p))
      (scope.positions none) m with ⟨w, u⟩
    cases w <;> rfl
  · dsimp only [unscanned]
    split <;> simp_all
  · rfl

/-- A scan that was stopped says so; otherwise it is the one that is never asked. -/
theorem restore_heeds (master : Secret) (accountIndex : UInt32) :
    Call.Heeds nodeStops (fun _ => True) ScanStopped (restoreAccountIndexWith master accountIndex scope .when)
      (restoreAccountIndexWith master accountIndex scope .never) := by
  refine ⟨fun {n n' r} _ h => ?_⟩
  rw [restore_eq] at h
  rcases hr : Node.resolveTag (deriveAccount master accountIndex).tag n with ⟨r', m⟩
  obtain ⟨hanswers, hsame⟩ := (deaf_resolveTag (deriveAccount master accountIndex).tag).run hr
  rw [hr] at h
  have hunscanned (hr' : ∀ entry, r' ≠ .ok entry)
      (h : (unscanned (deriveAccount master accountIndex).tag r', m) = (r, n')) :
      nodeStops.Went n n' ∧ ¬ ScanStopped r ∧ ∀ l, restoreAccountIndexWith master accountIndex scope
        .never (nodeStops.setAnswers l n) = (r, nodeStops.setAnswers l n') := by
    cases h
    refine ⟨.of_eq hanswers, ?_, fun l => ?_⟩
    · rintro ⟨failure, hfailure, hstopped⟩
      unfold unscanned at hfailure
      split at hfailure <;> cases hfailure <;> cases hstopped
    · rw [restore_eq, hsame l]
      rcases r' with entry | cause | _
      · exact absurd rfl (hr' entry)
      · rfl
      · rfl
  rcases r' with entry | cause | _
  · dsimp only at h
    rcases hwalk : walk entry.address .when (fun p => .ok (derivedAddressAt master accountIndex p))
      (scope.positions none) m with ⟨w, u⟩
    rw [hwalk] at h
    cases h
    rcases walk_heeds (fun p => by simp) hwalk with ⟨hwent, hlive, hnever⟩ | ⟨hhalted, k, rfl⟩
    · refine .inl ⟨Stops.Went.trans (.of_eq hanswers) hwent, ?_, fun l => ?_⟩
      · rintro ⟨failure, hfailure, hstopped⟩
        rcases w with index | _ | ⟨k, cause⟩ <;> cases hfailure
        · cases hstopped
        · have hcause : cause = .cancelled := by
            unfold RestoreFailure.stoppedByCancel at hstopped
            split at hstopped
            · next heq => exact (RestoreFailure.cannotScan.inj heq).2
            · cases hstopped
          exact hlive k (hcause ▸ rfl)
      · rw [restore_eq, hsame l]
        have hnever := hnever l
        unfold nodeStops
        dsimp only
        rw [hnever]
    · exact .inr ⟨Stops.Went.halted (.of_eq hanswers) rfl hhalted, _, rfl, rfl⟩
  · exact .inl (hunscanned (by simp) h)
  · exact .inl (hunscanned (by simp) h)

end

end MochimoWallet
