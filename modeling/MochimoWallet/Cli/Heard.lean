import MochimoWallet.Cli.Spends
import MochimoWallet.Lib.Grows

/-!
# What a command hears, and what it reports

Whatever a node answered a command is heard to the command's end. So where all that was heard of an
account is what the ledger has, so is what each reconciliation on the way was made on; and one that
would reconcile with the ledger is blamed on no page (`spares_decide`).
-/

namespace MochimoWallet

open Codec Keystore Session

/-- The divergence is that the ledger names another address than the store's keys have. -/
def Divergence.blames : Divergence → Bool
  | indexMismatch .. | reservationUnexplained .. => true
  | _ => false

/-- What was heard in a session. -/
abbrev Session.heard [Crypto] {D : Type} (s : Session D) : List (Tag × LedgerEntry) := s.node.heard

section
variable {ε : Type} {tag : Tag}

theorem grows_resolveTag : Call.Grows Node.heard (Node.resolveTag tag) := by
  refine ⟨fun h => ?_⟩
  rcases Node.resolveTag_cases h with ⟨entry, -, -, hheard⟩ | ⟨-, hheard⟩
  · rw [hheard]
    exact List.subset_cons_self _ _
  · rw [hheard]
    exact List.Subset.refl _

theorem grows_checkExpiry {blkToLive : UInt64} : Call.Grows Node.heard (checkExpiry blkToLive) := by
  apply Call.Grows.same
  intro n n' r h
  exact (checkExpiry_heard h).1

theorem grows_askStop {cancel : Cancel} : Call.Grows Node.heard (Wallet.askStop (ε := ε) cancel) := by
  apply Call.Grows.same
  intro n n' r h
  cases h
  exact Node.stop_heard cancel n

theorem grows_beforeWrite {cancel : Cancel} : Call.Grows Node.heard (beforeWrite cancel) := by
  apply Call.Grows.same
  intro n n' r h
  exact (beforeWrite_cases h).1

theorem grows_entryOf {view : AccountView} : Call.Grows Node.heard (entryOf tag view) := by
  refine ⟨fun {n n' r} h => ?_⟩
  unfold entryOf at h
  rcases hr : Node.resolveTag tag n with ⟨r', m⟩
  have hgrows := grows_resolveTag.keeps hr
  rw [hr] at h
  split at h
  · next heq => cases heq; cases h; exact hgrows
  · next heq => cases heq; cases h; exact hgrows
  · next heq => cases heq; cases h; exact hgrows
  · next heq => cases heq; cases h; exact hgrows

variable [Crypto] {ks : Keystore} {access : KeyAccess} {scope : ScanScope} {cancel : Cancel}

theorem grows_reconcileClosed {view : AccountView} {entry : LedgerEntry} {stream : StreamId} :
    Call.Grows Node.heard (reconcileClosed ks tag access scope cancel view entry stream) := by
  refine (Call.Grows.check _).bind fun stored => .ite (.pure _) (.same fun {n} {_} {_} h => ?_)
  rcases hlocate : locate entry.address view.wotsIndex scope cancel
    (fun q => ks.addressAt tag q access) n with ⟨found, m⟩
  simp only [Call.of_apply, hlocate] at h
  cases h
  exact (locate_cases hlocate).1

theorem grows_reconcileOpen {view : AccountView} {entry : LedgerEntry} {stream : StreamId}
    {pending : Pending} :
    Call.Grows Node.heard (reconcileOpen ks tag access scope cancel view entry stream pending) := by
  refine (Call.Grows.check _).bind fun spent => .ite ?_ ((Call.Grows.check _).bind fun change =>
    .ite (.pure _) (.same fun {n} {_} {_} h => ?_))
  · rcases pending.figures with _ | figures
    · exact .pure _
    · refine .same fun {n} {_} {_} h => ?_
      rcases hexpiry : expiryOf figures.blkToLive n with ⟨expiry, m⟩
      simp only [Call.of_apply, hexpiry] at h
      cases h
      exact expiryOf_heard hexpiry
  · rcases hlocate : locate entry.address view.wotsIndex scope cancel
      (fun q => ks.addressAt tag q access) n with ⟨found, m⟩
    simp only [Call.of_apply, hlocate] at h
    cases h
    exact (locate_cases hlocate).1

/-- What a reconciliation does with the entry it asked for. -/
theorem grows_compared {view : AccountView} {entry : LedgerEntry} : Call.Grows Node.heard (do
    let stream ← Call.check (orCannot tag (ks.streamId tag))
    match view.pending with
    | none => reconcileClosed ks tag access scope cancel view entry stream
    | some pending => reconcileOpen ks tag access scope cancel view entry stream pending) := by
  refine (Call.Grows.check _).bind fun stream => ?_
  split
  · exact grows_reconcileClosed
  · exact grows_reconcileOpen

/-- A reconciliation only adds to what was heard. -/
theorem grows_reconcile : Call.Grows Node.heard (reconcileAccountWith ks tag access scope cancel) :=
  (Call.Grows.check _).bind fun _ => grows_entryOf.bind fun _ => grows_compared

omit [Crypto] in
/-- What was asked for first is what the node had to say first. -/
theorem entryOf_next {view : AccountView} {n n' : Node} {r : Reply Divergence LedgerEntry}
    (h : entryOf tag view n = (r, n')) :
    (∃ entry entries, r = .ok entry ∧ n.entries = .ok entry :: entries ∧ (tag, entry) ∈ n'.heard) ∨
      ∃ d, r = .err d ∧ d.blames = false := by
  unfold entryOf at h
  rcases hr : Node.resolveTag tag n with ⟨r', m⟩
  rw [hr] at h
  rcases Node.resolveTag_cases hr with ⟨entry, rfl, htag, hheard⟩ | ⟨⟨e, rfl⟩, -⟩
  · cases h
    obtain ⟨entries, hentries⟩ := Node.resolveTag_entries hr
    exact .inl ⟨entry, entries, rfl, hentries, by rw [hheard]; exact List.mem_cons_self⟩
  · refine .inr ?_
    split at h
    · next heq => cases heq
    · cases h
      exact ⟨_, rfl, rfl⟩
    · cases h
      exact ⟨_, rfl, rfl⟩
    · next heq => cases heq

/-- A reconciliation that blames the account does so on what the node had to say first. -/
theorem reconcile_blames {n n' : Node} {d : Divergence}
    (h : reconcileAccountWith ks tag access scope cancel n = (.err d, n')) (hblames : d.blames = true) :
    ∃ entry entries, n.entries = .ok entry :: entries ∧ (tag, entry) ∈ n'.heard := by
  unfold reconcileAccountWith at h
  rcases Call.check_bind_cases h with ⟨d', hd, hr, -⟩ | ⟨view, -, h⟩
  · cases hr
    unfold viewOf at hd
    split at hd <;> cases hd <;> cases hblames
  rcases Call.bind_cases h with ⟨entry, m, he, h⟩ | ⟨d', he, hr⟩ | ⟨-, hr⟩
  · rcases entryOf_next he with ⟨entry', entries, hr, hentries, hheard⟩ | ⟨d', hr, -⟩ <;> cases hr
    exact ⟨entry, entries, hentries, grows_compared.keeps h hheard⟩
  · cases hr
    rcases entryOf_next he with ⟨entry', entries, hr, -⟩ | ⟨d', hr, hnot⟩ <;> cases hr
    rw [hnot] at hblames
    cases hblames
  · cases hr

/-! ## A session -/

variable {D α : Type}

theorem grows_asking {x : Keystore → Call Node ε α} (hx : ∀ ks, Call.Grows Node.heard (x ks)) :
    Call.Grows (Session.heard (D := D)) (asking x) :=
  ⟨fun {s} {_} {_} h => (hx s.store.ks).keeps (asking_cases h).2⟩

theorem grows_writing {x : Call (Opened D) ε α} : Call.Grows (Session.heard (D := D)) (writing x) :=
  .same fun h => congrArg Node.heard (writing_cases h).1

theorem grows_attempted : Call.Grows (Session.heard (D := D)) (asking (ε := ε) fun ks =>
    (reconcileAccountWith ks tag access scope cancel).attempt) :=
  grows_asking fun _ => grows_reconcile.attempt

theorem grows_resolve :
    Call.Grows (Session.heard (D := D)) (asking fun _ => Node.resolveTag tag) :=
  grows_asking fun _ => grows_resolveTag

namespace Wallet

variable {part : Partition} {dsts : List Destination} {feeTotal blkToLive : UInt64}

theorem grows_plan :
    Call.Grows (Session.heard (D := D)) (plan part tag access dsts feeTotal blkToLive) :=
  .get_bind fun _ => (Call.Grows.check _).bind fun _ => (Call.Grows.check _).bind fun _ =>
    grows_resolve.bind fun _ => .check _

theorem grows_reserveAndSign [Layout D] {spend : SpendPlan} :
    Call.Grows (Session.heard (D := D)) (reserveAndSign part spend access) :=
  .get_bind fun _ => (Call.Grows.check _).bind fun _ => (Call.Grows.check _).bind fun _ =>
    (Call.Grows.check _).bind fun _ => (grows_asking fun _ => grows_checkExpiry).bind fun _ =>
    grows_resolve.bind fun _ => (Call.Grows.check _).bind fun _ => grows_writing.bind fun _ =>
    .get_bind fun _ => (Call.Grows.check _).bind fun _ => .check _

theorem grows_settleIfLanded [Layout D] :
    Call.Grows (Session.heard (D := D)) (settleIfLanded tag access) := by
  refine grows_attempted.bind fun found => ?_
  split
  · exact grows_writing.bind fun _ => .pure _
  · exact .pure _
  · exact .pure _
  · exact .refuse _

theorem grows_refuseRebuild {e : Error} :
    Call.Grows (Session.heard (D := D)) (refuseRebuild (α := α) tag access e) := by
  unfold refuseRebuild
  split
  · refine grows_attempted.bind fun status => ?_
    split <;> exact .refuse _
  · exact .refuse _

theorem grows_resignPending :
    Call.Grows (Session.heard (D := D)) (resignPending part tag access dsts feeTotal blkToLive) := by
  refine .get_bind fun _ => (Call.Grows.check _).bind fun _ => (Call.Grows.check _).bind fun _ =>
    (Call.Grows.check _).bind fun _ => grows_resolve.bind fun entry => ?_
  split
  · exact grows_refuseRebuild
  · exact .ite (.refuse _) ((Call.Grows.check _).bind fun _ => .check _)

end Wallet

theorem grows_advanceAfterOperatorReview [Layout D] {ack : OperatorAcknowledgement} {last : Cancel} :
    Call.Grows (Session.heard (D := D)) (advanceAfterOperatorReview tag access ack scope cancel last) := by
  refine .ite (.refuse _) (grows_attempted.bind fun found => ?_)
  split
  · exact .refuse _
  · exact .ite (.refuse _) ((grows_asking fun _ => grows_beforeWrite).bind fun _ => grows_writing)

end

namespace Cli

open Mesh
open Command (Decided)

section
variable {ε : Type} {tag : Tag} [Crypto] {D α : Type} {scope : ScanScope} {cancel : Cancel}
  {master : Option Secret} {part : Partition} {spend : Spend}

/-! ## Commands -/

theorem grows_withAccess {x : KeyAccess → Call (Session D) Error α}
    (hx : ∀ access, Call.Grows Session.heard (x access)) :
    Call.Grows Session.heard (withAccess tag master x) :=
  .get_bind fun _ => (Call.Grows.check _).bind hx

theorem grows_planSpend {access : KeyAccess} :
    Call.Grows (Session.heard (D := D)) (planSpend part spend access) :=
  .ite (.bind (.get_bind fun _ => (Call.Grows.check _).bind fun _ => .check _) fun _ =>
    grows_resolve.bind fun _ => (Call.Grows.check _).bind fun _ => .check _) Wallet.grows_plan

theorem grows_resignDestinations : Call.Grows (Session.heard (D := D)) (resignDestinations spend) :=
  .ite (grows_resolve.bind fun _ => (Call.Grows.check _).bind fun _ => .pure _) (.pure _)

theorem grows_stopIf {stop : Bool} :
    Call.Grows (Session.heard (D := D)) (Wallet.stopIf (ε := ε) stop cancel) :=
  .ite (.check _) (.pure _)

theorem grows_reviewAccount {walked : Walked} {t : Tag} :
    Call.Grows (Session.heard (D := D)) (reviewAccount tag scope master cancel walked t) := by
  refine (grows_asking fun _ => grows_askStop).bind fun stop => grows_stopIf.bind fun _ =>
    Call.Grows.bind (.get_bind fun s => ?_) fun result => ?_
  · split
    · exact .pure _
    · exact grows_attempted
  · dsimp only
    split
    · exact grows_stopIf.bind fun _ => .pure _
    · exact .pure _

theorem grows_reviewAccounts (ts : List Tag) : ∀ walked,
    Call.Grows (Session.heard (D := D)) (reviewAccounts tag scope master cancel ts walked) := by
  induction ts with
  | nil => exact fun walked => .pure _
  | cons t ts ih => exact fun walked => grows_reviewAccount.bind ih

theorem grows_decideReview [Layout D] {advanceTo : UInt32} {reports : List Divergence} {accounts : ℕ}
    {d : Divergence} : Call.Grows (Session.heard (D := D))
      (decideReview tag master advanceTo cancel reports accounts d) := by
  unfold decideReview
  split
  · exact .pure _
  split
  · exact .pure _
  refine .ite (.pure _) (.get_bind fun s => ?_)
  split
  · exact .pure _
  refine (grows_asking fun _ => grows_askStop).bind fun _ => grows_stopIf.bind fun _ =>
    Call.Grows.bind (.get_bind fun before => grows_advanceAfterOperatorReview.attempt.bind fun advanced =>
      .get_bind fun after => ?_) fun receipt => .pure _
  split
  · exact .pure _
  · exact grows_stopIf.bind fun _ => .refuse _
  · exact grows_stopIf.bind fun _ => .refuse _
  · exact .refuse _

/-- What was heard at a desk. -/
abbrev Desk.heard (t : Desk D) : List (Tag × LedgerEntry) := t.session.heard

theorem grows_onSession {δ : Type} {x : Call (Session D) δ α} (hx : Call.Grows Session.heard x) :
    Call.Grows Desk.heard (Desk.onSession (ε := ε) x) :=
  hx.attempt.zoom (fun _ => rfl) fun _ _ => rfl

theorem grows_ship {wire : Bytes} {id : Digest} :
    Call.Grows (Desk.heard (D := D)) (Desk.ship (ε := ε) wire id) :=
  .same Desk.ship_heard

theorem grows_behindTheGate [Layout D] {command : Command} :
    Call.Grows (Desk.heard (D := D)) (behindTheGate (ε := ε) part master command) := by
  unfold behindTheGate
  split
  · exact .pure _
  · refine (grows_onSession (grows_withAccess fun _ => Wallet.grows_settleIfLanded)).bind fun settled =>
      .get_bind fun _ => ?_
    split <;> exact .pure _
  · refine (grows_onSession (grows_withAccess fun _ => grows_planSpend)).bind fun planned => ?_
    split
    · exact .pure _
    split
    · exact .pure _
    refine (grows_onSession (grows_withAccess fun _ => Wallet.grows_reserveAndSign)).bind fun signed => ?_
    split
    · exact .pure _
    · exact grows_ship.bind fun said => .get_bind fun _ => .pure _
  · refine (grows_onSession (grows_withAccess fun access =>
      grows_resignDestinations.bind fun dsts => .pure _)).bind fun asked => ?_
    split
    · exact .pure _
    refine (grows_onSession Wallet.grows_resignPending).bind fun resigned => ?_
    unfold resignOutcome
    split
    · split
      · exact .pure _
      · exact grows_ship.bind fun said => .pure _
    all_goals exact .pure _
  · exact .pure _

/-! ## What is reported -/

/-- What was heard of the account is what the ledger has. -/
def Honest (tag : Tag) (entry : LedgerEntry) (heard : List (Tag × LedgerEntry)) : Prop :=
  ∀ e, (tag, e) ∈ heard → e = entry

/-- The divergence does not blame the account. -/
def Spares (tag : Tag) (d : Divergence) : Prop := d.tag = tag → d.blames = false

/-- A reconciliation under the account's access that hears the entry returns a status. -/
def Fair (ks : Keystore) (tag : Tag) (master : Option Secret) (entry : LedgerEntry) : Prop :=
  ∀ access, accessFor ks tag master = .ok access → ∀ scope cancel n entries,
    n.entries = .ok entry :: entries →
      ∃ status n', reconcileAccountWith ks tag access scope cancel n = (.ok status, n')

variable {ks : Keystore} {p : Parsed} {entry : LedgerEntry}

omit [Crypto] in
theorem Honest.of_subset {heard heard' : List (Tag × LedgerEntry)} (h : Honest tag entry heard')
    (hsub : heard ⊆ heard') : Honest tag entry heard :=
  fun e he => h e (hsub he)

theorem spares_access {d : Divergence} {t : Tag} (h : accessFor ks t master = .error d) : Spares tag d := by
  intro _
  unfold accessFor at h
  rcases bind_eq_error.mp h with h | ⟨view, -, h⟩
  · unfold viewOf at h
    split at h <;> cases h <;> rfl
  · split at h
    · cases h
    · split at h <;> cases h
      rfl

/-- What is found of any account spares one that is reconciled fairly. -/
theorem spares_reconcile (hm : ks.memory = some p) (hfair : Fair ks tag master entry) {t : Tag}
    {access : KeyAccess} {d : Divergence} {n n' : Node} (haccess : accessFor ks t master = .ok access)
    (h : reconcileAccountWith ks t access scope cancel n = (.err d, n'))
    (honest : Honest tag entry n'.heard) : Spares tag d := by
  intro hd
  have ht : d.tag = t := by
    cases reconcile_end hm h with
    | ahead _ _ _ _ _ _ htag => exact htag
    | other _ htag => exact htag
  obtain rfl := hd.symm.trans ht
  by_contra hblames
  obtain ⟨e, entries, hentries, hheard⟩ := reconcile_blames h (by simpa using hblames)
  obtain rfl := honest e hheard
  obtain ⟨status, m, hok⟩ := hfair access haccess scope cancel n entries hentries
  cases h.symm.trans hok

theorem verdicts_heard {tags : List Tag} {n m : Node} {verdicts : List Wallet.Verdict}
    (h : Wallet.Verdicts ks master tags n verdicts m) : n.heard ⊆ m.heard := by
  induction h with
  | nil => exact List.Subset.refl _
  | unreadable _ _ ih => exact ih
  | reconciled _ hfound _ ih => exact List.Subset.trans (grows_reconcile.keeps hfound) ih

theorem spares_verdicts (hm : ks.memory = some p) (hfair : Fair ks tag master entry) {tags : List Tag}
    {n m : Node} {verdicts : List Wallet.Verdict} (h : Wallet.Verdicts ks master tags n verdicts m)
    (honest : Honest tag entry m.heard) : ∀ t d, (t, .error d) ∈ verdicts → Spares tag d := by
  induction h with
  | nil => exact fun _ _ hmem => absurd hmem List.not_mem_nil
  | unreadable haccess _ ih =>
    intro t d hmem
    rcases List.mem_cons.mp hmem with heq | hmem
    · cases heq
      exact spares_access haccess
    · exact ih honest t d hmem
  | reconciled haccess hfound hrest ih =>
    intro t d hmem
    rcases List.mem_cons.mp hmem with heq | hmem
    · cases heq
      exact spares_reconcile hm hfair haccess hfound (honest.of_subset (verdicts_heard hrest))
    · exact ih honest t d hmem

/-- What an opening reports. -/
theorem spares_openAsking {s s' : Session D} (hm : s.store.ks.memory = some p)
    (hfair : Fair s.store.ks tag master entry) {r : Reply (Unfinished StartupRefusal) Partition}
    (h : Wallet.openAsking master .never s = (r, s')) (honest : Honest tag entry s'.heard) :
    (∃ refusal, r = .err (.refused refusal) ∧ ∀ d ∈ refusal.diverged, Spares tag d) ∨
      ∃ part, r = .ok part ∧ ∀ d ∈ part.diverged, Spares tag d := by
  obtain ⟨verdicts, m, hverdicts, hopen⟩ := Wallet.openAsking_verdicts master hm
  obtain ⟨hr, hs⟩ := Prod.mk.inj (hopen.symm.trans h)
  have honest : Honest tag entry m.heard := by
    rw [← hs] at honest
    exact honest
  have hall : ∀ d ∈ (Wallet.partitionOf verdicts).diverged, Spares tag d := by
    intro d hd
    obtain ⟨t, hmem⟩ := Wallet.mem_diverged.mp hd
    exact spares_verdicts hm hfair hverdicts honest t d hmem
  rw [← hr]
  split
  · exact .inl ⟨_, rfl, hall⟩
  · exact .inr ⟨_, rfl, hall⟩

theorem spares_reviewAccount {t : Tag} {walked walked' : Walked} {s s' : Session D}
    (hm : s.store.ks.memory = some p) (hfair : Fair s.store.ks tag master entry) {named : Tag}
    (h : reviewAccount named scope master cancel walked t s = (.ok walked', s'))
    (honest : Honest tag entry s'.heard) (hwas : ∀ d ∈ walked.reports, Spares tag d) :
    ∀ d ∈ walked'.reports, Spares tag d := by
  rcases Wallet.quiet_askStop.bind_cases h with ⟨e, hr, -⟩ | ⟨stop, u, -, hu, h⟩
  · cases hr
  rcases Wallet.stopIf_cases h with ⟨e, hr, -⟩ | h
  · cases hr
  rcases quiet_reconcileWith.bind_cases h with ⟨e, hr, -⟩ | ⟨result, v, hresult, -, h⟩
  · cases hr
  dsimp only at h
  rcases result with d | status
  rotate_left
  · cases h
    exact hwas
  dsimp only at h
  rcases Wallet.stopIf_cases h with ⟨e, hr, -⟩ | h
  · cases hr
  cases h
  intro x hx
  rcases List.mem_append.mp hx with hx | hx
  · exact hwas x hx
  obtain rfl := List.mem_singleton.mp hx
  unfold reconcileWith at hresult
  rw [Call.get_bind] at hresult
  rcases haccess : accessFor u.store.ks t master with d | access <;> rw [haccess] at hresult
  · cases hresult
    exact spares_access haccess
  · obtain ⟨-, found, hfound, hcall⟩ := asking_reconcile hresult
    cases hfound
    rw [hu] at haccess hcall
    exact spares_reconcile hm hfair haccess hcall honest

theorem spares_reviewAccounts {named : Tag} (ts : List Tag) : ∀ {walked walked' : Walked} {s s' : Session D},
    s.store.ks.memory = some p → Fair s.store.ks tag master entry →
    reviewAccounts named scope master cancel ts walked s = (.ok walked', s') →
    Honest tag entry s'.heard → (∀ d ∈ walked.reports, Spares tag d) →
    ∀ d ∈ walked'.reports, Spares tag d := by
  induction ts with
  | nil =>
    intro walked walked' s s' _ _ h _ hwas
    cases h
    exact hwas
  | cons t ts ih =>
    intro walked walked' s s' hm hfair h honest hwas
    rcases quiet_reviewAccount.bind_cases h with ⟨e, hr, -⟩ | ⟨next, u, hnext, hu, h⟩
    · cases hr
    have hgrows := (grows_reviewAccounts ts next).keeps h
    exact ih (hu ▸ hm) (hu ▸ hfair) h honest
      (spares_reviewAccount hm hfair hnext (honest.of_subset hgrows) hwas)

theorem spares_decideReview [Layout D] {advanceTo : UInt32} {named : Tag} {reports : List Divergence}
    {accounts : ℕ} {d : Divergence} {reviewed : Reviewed} {s s' : Session D}
    (h : decideReview named master advanceTo cancel reports accounts d s = (.ok reviewed, s'))
    (hwas : ∀ d ∈ reports, Spares tag d) : ∀ d ∈ reviewed.reports, Spares tag d := by
  unfold decideReview at h
  generalize reports.find? _ = other at h
  rcases other with _ | other
  swap
  · cases h
    exact hwas
  dsimp only at h
  rcases hack : OperatorAcknowledgement.of d with _ | ack <;> rw [hack] at h
  · cases h
    exact hwas
  dsimp only at h
  rw [Call.ite_apply] at h
  split at h
  · cases h
    exact hwas
  rw [Call.get_bind] at h
  rcases haccess : accessFor s.store.ks named master with d' | access <;> rw [haccess] at h
  · cases h
    intro x hx
    rcases List.mem_append.mp hx with hx | hx
    · exact hwas x hx
    · obtain rfl := List.mem_singleton.mp hx
      exact spares_access haccess
  dsimp only at h
  rcases Wallet.quiet_askStop.bind_cases h with ⟨e, hr, -⟩ | ⟨stop, u, -, -, h⟩
  · cases hr
  rcases Wallet.stopIf_cases h with ⟨e, hr, -⟩ | h
  · cases hr
  rcases Call.bind_cases h with ⟨receipt, v, -, h⟩ | ⟨e, -, hr⟩ | ⟨-, hr⟩
  · cases h
    exact hwas
  · cases hr
  · cases hr

/-- What a review reports. -/
theorem spares_reviewAsking [Layout D] {advanceTo : UInt32} {named : Tag} {reviewed : Reviewed}
    {s s' : Session D} (hm : s.store.ks.memory = some p) (hfair : Fair s.store.ks tag master entry)
    (h : reviewAsking named master advanceTo cancel s = (.ok reviewed, s'))
    (honest : Honest tag entry s'.heard) : ∀ d ∈ reviewed.reports, Spares tag d := by
  unfold reviewAsking at h
  rw [Call.get_bind] at h
  rcases Call.check_bind_cases h with ⟨e, -, hr, -⟩ | ⟨tags, -, h⟩
  · cases hr
  rw [Call.ite_apply] at h
  split at h
  · cases h
    simp
  rcases (quiet_reviewAccounts tags _).bind_cases h with ⟨e, hr, -⟩ | ⟨⟨reports, found⟩, t, hwalked, -, h⟩
  · cases hr
  have hwalk (hgrows : t.heard ⊆ s'.heard) : ∀ d ∈ reports, Spares tag d :=
    spares_reviewAccounts tags hm hfair hwalked (honest.of_subset hgrows) (by simp)
  rcases found with _ | d | status
  · cases h
    exact hwalk (List.Subset.refl _)
  · exact spares_decideReview h (hwalk (grows_decideReview.keeps h))
  · cases h
    exact hwalk (List.Subset.refl _)

/-! ## One command -/

/-- The divergences an outcome carries. -/
def Command.Outcome.divergences : Command.Outcome → List Divergence
  | .statusDiverged _ d | .statusRefused d | .diverged d => [d]
  | .reconciled _ _ reviewed _ => reviewed.reports
  | .startupRefused refusal => refusal.diverged
  | _ => []

/-- The divergences on a command's page. -/
def Command.Decided.divergences (d : Decided) : List Divergence :=
  d.standing ++ d.outcome.divergences

/-- The call ends in no outcome that carries a divergence. -/
abbrev Unreported (x : Call (Desk D) ε Command.Outcome) : Prop :=
  Call.Yields (fun o => o.divergences = []) x

theorem unreported_cmdRestore [Layout D] {account : UInt32} {scanTo : Option UInt32} :
    Unreported (D := D) (ε := ε) (cmdRestore master account scanTo) := by
  unfold cmdRestore
  split
  · exact .pure rfl
  · refine .bind fun restored => .bind fun t => ?_
    split <;> exact .pure rfl

theorem unreported_cmdDiscover {to' : UInt32} :
    Unreported (D := D) (ε := ε) (cmdDiscover master to') := by
  unfold cmdDiscover
  split
  · exact .pure rfl
  · refine .bind fun sweep => ?_
    split <;> exact .pure rfl

omit [Crypto] in
theorem artifactOf_unreported {artifact : Text} {o : Command.Outcome} (h : artifactOf artifact = .error o) :
    o.divergences = [] := by
  unfold artifactOf at h
  split at h
  · cases h
    rfl
  · split at h
    · cases h
      rfl
    · split at h <;> cases h
      rfl

theorem unreported_cmdSubmit {artifact : Text} : Unreported (D := D) (ε := ε) (cmdSubmit artifact) := by
  unfold cmdSubmit
  split
  · next o ho => exact .pure (artifactOf_unreported ho)
  · dsimp only
    split
    · exact .pure rfl
    · exact .bind fun said => .pure rfl

theorem unreported_runExplorer (read : Bytes → Option Json.Value) (command : Command) :
    Unreported (D := D) (ε := ε) (runExplorer read command) := by
  unfold runExplorer
  split
  · refine .bind fun page => ?_
    split
    · exact .pure rfl
    · split <;> exact .pure rfl
  · refine .bind fun page => ?_
    split <;> exact .pure rfl
  · refine .bind fun got => ?_
    split <;> exact .pure rfl
  · refine .bind fun tip => ?_
    split
    · exact .pure rfl
    · refine .bind fun rows => ?_
      split <;> exact .pure rfl
  · refine .bind fun ids => ?_
    split
    · exact .pure rfl
    · refine .bind fun rows => ?_
      split <;> exact .pure rfl
  · exact .pure rfl

theorem unreported_behindTheGate [Layout D] {command : Command} :
    Unreported (D := D) (ε := ε) (behindTheGate part master command) := by
  unfold behindTheGate
  split
  · exact .pure rfl
  · refine .bind fun settlement => .bind fun t => ?_
    split <;> exact .pure rfl
  · refine .bind fun planned => ?_
    split
    · exact .pure rfl
    split
    · exact .pure rfl
    refine .bind fun signed => ?_
    split
    · exact .pure rfl
    · exact .bind fun said => .bind fun t => .pure rfl
  · refine .bind fun asked => ?_
    split
    · exact .pure rfl
    refine .bind fun resigned => ?_
    unfold resignOutcome
    split
    · split
      · exact .pure rfl
      · exact .bind fun said => .pure rfl
    all_goals exact .pure rfl
  · exact .pure rfl

theorem divergences_cmdAddress (ks : Keystore) (named : Option Tag) (account : Option UInt32) :
    (cmdAddress ks named account master).divergences = [] := by
  unfold cmdAddress
  split
  · unfold cmdAddressOfUnstoredAccount
    split
    · rfl
    · dsimp only
      split <;> rfl
  · unfold cmdAccounts
    split <;> rfl
  · split <;> rfl

section
variable {t t' : Desk D} {d : Decided}

theorem spares_unreported {x : Call (Desk D) ε Command.Outcome} (hx : Unreported x)
    (h : beforeTheGate x t = (.ok d, t')) : ∀ e ∈ d.divergences, Spares tag e := by
  rcases Call.bind_cases h with ⟨o, u, ho, h⟩ | ⟨_, -, hr⟩ | ⟨-, hr⟩
  · cases h
    intro e he
    rw [Command.Decided.divergences, hx.holds ho] at he
    cases he
  · cases hr
  · cases hr

theorem spares_cmdStatus {named : Tag} {scanTo : Option UInt32} {o : Command.Outcome}
    (hm : t.store.ks.memory = some p) (hfair : Fair t.store.ks tag master entry)
    (h : cmdStatus (ε := ε) named master scanTo t = (.ok o, t')) (honest : Honest tag entry t'.heard) :
    ∀ e ∈ o.divergences, Spares tag e := by
  rcases Call.bind_cases h with ⟨compared, u, hcompared, h⟩ | ⟨_, -, hr⟩ | ⟨-, hr⟩
  rotate_left
  · cases hr
  · cases hr
  cases h
  rcases compared with d | status
  swap
  · exact fun e he => by cases he
  suffices hd : Spares tag d by
    intro e he
    unfold statusOutcome at he
    split at he
    · cases he
    · cases he
    · next heq =>
      cases heq
      split at he <;> obtain rfl := List.mem_singleton.mp he <;> exact hd
  obtain ⟨-, ⟨found, hfound, hcall⟩ | ⟨hr, -⟩⟩ := Desk.onSession_cases hcompared
  swap
  · cases hr
  cases hfound
  unfold accountStatus at hcall
  rw [Call.get_bind] at hcall
  rcases Call.check_bind_cases hcall with ⟨e, he, hr, -⟩ | ⟨access, haccess, hcall⟩
  · cases hr
    exact spares_access he
  · exact spares_reconcile hm hfair haccess (asking_cases hcall).2 honest

theorem spares_cmdReconcile [Layout D] {named : Tag} {advanceTo : UInt32} {o : Command.Outcome}
    (hm : t.store.ks.memory = some p) (hfair : Fair t.store.ks tag master entry)
    (h : cmdReconcile (ε := ε) named master advanceTo t = (.ok o, t'))
    (honest : Honest tag entry t'.heard) : ∀ e ∈ o.divergences, Spares tag e := by
  rcases Call.bind_cases h with ⟨reviewed, u, hreviewed, h⟩ | ⟨_, -, hr⟩ | ⟨-, hr⟩
  rotate_left
  · cases hr
  · cases hr
  rw [Call.get_bind] at h
  obtain ⟨-, ⟨found, hfound, hcall⟩ | ⟨hr, -⟩⟩ := Desk.onSession_cases hreviewed
  swap
  · cases hr
  cases hfound
  rcases reviewed with (⟨⟩ | e) | reviewed
  · cases h
    exact fun e he => by cases he
  · cases h
    exact fun e he => by cases he
  · cases h
    exact spares_reviewAsking hm hfair hcall honest

theorem spares_openAndDecide [Layout D] {command : Command} (hm : t.store.ks.memory = some p)
    (hfair : Fair t.store.ks tag master entry)
    (h : openAndDecide (ε := ε) master command t = (.ok d, t')) (honest : Honest tag entry t'.heard) :
    ∀ e ∈ d.divergences, Spares tag e := by
  rcases Call.bind_cases h with ⟨opened, u, hopened, h⟩ | ⟨_, -, hr⟩ | ⟨-, hr⟩
  rotate_left
  · cases hr
  · cases hr
  obtain ⟨-, ⟨found, hfound, hcall⟩ | ⟨hr, -⟩⟩ := Desk.onSession_cases hopened
  swap
  · cases hr
  cases hfound
  have hspares (hgrows : u.heard ⊆ t'.heard) :=
    spares_openAsking hm hfair hcall (honest.of_subset hgrows)
  rcases opened with (⟨⟩ | refusal) | part
  · cases h
    exact fun e he => by cases he
  · cases h
    rcases hspares (List.Subset.refl _) with ⟨refusal', hr, hall⟩ | ⟨part, hr, -⟩
    · cases hr
      exact hall
    · cases hr
  dsimp only at h
  rcases hd : command.addressed.bind part.divergenceFor with _ | d' <;> rw [hd] at h
  · dsimp only at h
    rcases Call.bind_cases h with ⟨o, v, ho, h⟩ | ⟨_, -, hr⟩ | ⟨-, hr⟩
    rotate_left
    · cases hr
    · cases hr
    cases h
    rcases hspares (grows_behindTheGate.keeps ho) with ⟨refusal, hr, -⟩ | ⟨part', hr, hall⟩ <;> cases hr
    intro e he
    rw [Command.Decided.divergences, unreported_behindTheGate.holds ho, List.append_nil] at he
    exact hall e he
  · cases h
    rcases hspares (List.Subset.refl _) with ⟨refusal, hr, -⟩ | ⟨part', hr, hall⟩ <;> cases hr
    intro e he
    obtain rfl := List.mem_singleton.mp he
    obtain ⟨named, -, hfor⟩ := Option.bind_eq_some_iff.mp hd
    exact hall e (List.mem_of_find?_eq_some hfor)

/-- Where all that was heard of an account is what the ledger has, and a reconciliation that hears it
returns a status, no page blames the account. -/
theorem spares_decide [Layout D] (read : Bytes → Option Json.Value) {command : Command}
    (hm : t.store.ks.memory = some p) (hfair : Fair t.store.ks tag t.store.ks.master entry)
    (h : command.decide (ε := ε) read t = (.ok d, t')) (honest : Honest tag entry t'.heard) :
    ∀ e ∈ d.divergences, Spares tag e := by
  unfold Command.decide at h
  rw [Call.get_bind] at h
  rcases hmaster : t.session.store.ks.masterSeed with e | master <;> rw [hmaster] at h
  · cases h
    exact fun e he => by cases he
  rw [← masterSeed_eq_ok hmaster] at hfair
  have hbefore {x : Call (Desk D) ε Command.Outcome}
      (hx : ∀ o u, x t = (.ok o, u) → Honest tag entry u.heard → ∀ e ∈ o.divergences, Spares tag e)
      (h : beforeTheGate x t = (.ok d, t')) : ∀ e ∈ d.divergences, Spares tag e := by
    rcases Call.bind_cases h with ⟨o, u, ho, h⟩ | ⟨_, -, hr⟩ | ⟨-, hr⟩
    · cases h
      exact hx o t' ho honest
    · cases hr
    · cases hr
  cases command with
  | create fromPhrase => exact spares_openAndDecide hm hfair h honest
  | balance => exact spares_openAndDecide hm hfair h honest
  | settle named => exact spares_openAndDecide hm hfair h honest
  | resign spend => exact spares_openAndDecide hm hfair h honest
  | send spend => exact spares_openAndDecide hm hfair h honest
  | address named account =>
    cases h
    intro e he
    rw [Command.Decided.divergences, divergences_cmdAddress] at he
    cases he
  | restore account scanTo => exact spares_unreported unreported_cmdRestore h
  | discover to' => exact spares_unreported unreported_cmdDiscover h
  | submit artifact => exact spares_unreported unreported_cmdSubmit h
  | status named scanTo => exact hbefore (fun o u ho => spares_cmdStatus hm hfair ho) h
  | reconcile named advanceTo => exact hbefore (fun o u ho => spares_cmdReconcile hm hfair ho) h
  | lookupTransaction hash => exact spares_unreported (unreported_runExplorer read _) h
  | recentTransactions named count skip => exact spares_unreported (unreported_runExplorer read _) h
  | block place => exact spares_unreported (unreported_runExplorer read _) h
  | blocks count => exact spares_unreported (unreported_runExplorer read _) h
  | mempool count => exact spares_unreported (unreported_runExplorer read _) h

end

end

end Cli

end MochimoWallet
