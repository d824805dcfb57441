import MochimoWallet.Recon.Watched
import MochimoWallet.Cli.Discover
import MochimoWallet.Cli.Reconcile

/-!
# The operations that can be watched

Opening, restoring, reviewing and sweeping each tell a caller that watches how far they
have got: before each account, and within each walk. Where a report is made the state is
otherwise left as it is, so each watched operation is, read on its session, the one it
watches (`over_open`, `over_restoreAccount`, `over_review`, `over_sweep`).
-/

namespace MochimoWallet.Watching

open Codec Words Keystore Session Cli

section
variable [Crypto] {D : Type}

/-- The index the store has of a tag, for the ceiling of a report. -/
def storedIndex (ks : Keystore) (tag : Tag) : Option WotsIndex :=
  match ks.view tag with
  | .ok (some view) => some view.wotsIndex
  | .ok none | .error _ => none

/-! ## Opening -/

/-- Reconcile account `n` of `accounts`, and put it on its side of the partition. -/
def openAccount (master : Option Secret) (cancel : Cancel) (accounts n : ℕ) (part : Partition)
    (tag : Tag) : Call (Watching D) (Unfinished StartupRefusal) Partition := do
  let stop ← asking fun _ => Wallet.askStop cancel
  Wallet.stopIf stop cancel
  let w ← Call.get
  let ks := w.session.store.ks
  let here : Progress :=
    ⟨countOf n, countOf accounts, 0, ScanScope.diagnostic.reach (storedIndex ks tag)⟩
  report here
  match accessFor ks tag master with
  | .error d => pure { part with diverged := part.diverged ++ [d] }
  | .ok access => do
    let found ← watched (reading fun ks =>
      (reconcileAccountWith cancel here ks tag access .diagnostic).attempt)
    match found with
    | .ok status => pure { part with accounts := part.accounts ++ [(tag, status)] }
    | .error d => do
      Wallet.stopIf d.stoppedByCancel cancel
      pure { part with diverged := part.diverged ++ [d] }

def openAccounts (master : Option Secret) (cancel : Cancel) (accounts : ℕ) :
    ℕ → List Tag → Partition → Call (Watching D) (Unfinished StartupRefusal) Partition
  | _, [], part => pure part
  | n, tag :: tags, part => do
    let part ← openAccount master cancel accounts n part tag
    openAccounts master cancel accounts (n + 1) tags part

def openAsking (master : Option Secret) (cancel : Cancel) :
    Call (Watching D) (Unfinished StartupRefusal) Partition := do
  let w ← Call.get
  match w.session.store.ks.tags with
  | .error cause => Call.refuse (.refused ⟨[.cannotReconcile (.zero addrTagLen) cause], 0⟩)
  | .ok tags => do
    let part ← openAccounts master cancel tags.length 0 tags ⟨[], []⟩
    if part.accounts = [] ∧ part.diverged ≠ [] then
      Call.refuse (.refused ⟨part.diverged, tags.length⟩)
    else pure part

/-! ## Restoring -/

def restoreAsking [Layout D] (master : Secret) (accountIndex : UInt32) (scanTo : Option UInt32)
    (cancel : Cancel) : Call (Watching D) (Unfinished RestoreFailure) Restored := do
  let stop ← asking fun _ => Wallet.askStop cancel
  Wallet.stopIf stop cancel
  let scope := restoreScope scanTo
  let here : Progress := ⟨0, 1, 0, scope.reach none⟩
  report here
  let scanned ← watched (reading fun _ =>
    (restoreAccountIndexWith cancel here master accountIndex scope).attempt)
  match scanned with
  | .error failure => do
    Wallet.stopIf failure.stoppedByCancel cancel
    Call.refuse (.refused failure)
  | .ok found =>
    let cannotStore {α : Type} (x : Except Error α) : Except (Unfinished RestoreFailure) α :=
      x.mapError fun cause => .refused (.cannotStore found.tag cause)
    let w ← Call.get
    let view ← Call.check (cannotStore (w.session.store.ks.view found.tag))
    match view with
    | some view => pure ⟨found, some view.wotsIndex⟩
    | none => do
      let account ← Call.check (cannotStore (placedAt master accountIndex found.index))
      let stop ← asking fun _ => Wallet.askStop cancel
      Wallet.stopIf stop cancel
      on (writing ((add account).mapErr fun cause => .refused (.cannotStore found.tag cause)))
      pure ⟨found, none⟩

/-! ## Reviewing -/

/-- What is reported of account `n` of a review. -/
def reviewing (ks : Keystore) (accounts n : ℕ) (t : Tag) (walked : ScanScope) : Progress :=
  ⟨countOf n, countOf accounts, 0, walked.reach (storedIndex ks t)⟩

/-- Reconcile account `n` under the access its kind needs. -/
def reconcileWith (t : Tag) (scope : ScanScope) (master : Option Secret) (cancel : Cancel)
    (accounts n : ℕ) :
    Call (Watching D) (Unfinished Error) (Except Divergence AccountStatus) := do
  let w ← Call.get
  let here := reviewing w.session.store.ks accounts n t scope
  report here
  match accessFor w.session.store.ks t master with
  | .error d => pure (.error d)
  | .ok access =>
    watched (reading fun ks => (reconcileAccountWith cancel here ks t access scope).attempt)

def reviewAccount (tag : Tag) (scope : ScanScope) (master : Option Secret) (cancel : Cancel)
    (accounts n : ℕ) (walked : Walked) (t : Tag) :
    Call (Watching D) (Unfinished Error) Walked := do
  let stop ← asking fun _ => Wallet.askStop cancel
  Wallet.stopIf stop cancel
  let result ← reconcileWith t (if t = tag then scope else .diagnostic) master cancel accounts n
  let named := if t = tag then some result else walked.named
  match result with
  | .error d => do
    Wallet.stopIf d.stoppedByCancel cancel
    pure ⟨walked.reports ++ [d], named⟩
  | .ok _ => pure ⟨walked.reports, named⟩

def reviewAccounts (tag : Tag) (scope : ScanScope) (master : Option Secret) (cancel : Cancel)
    (accounts : ℕ) : ℕ → List Tag → Walked → Call (Watching D) (Unfinished Error) Walked
  | _, [], walked => pure walked
  | n, t :: ts, walked => do
    let walked ← reviewAccount tag scope master cancel accounts n walked t
    reviewAccounts tag scope master cancel accounts (n + 1) ts walked

/-- Advance the named account, and tell a stop that was heard from a finding. -/
def advanceNamed [Layout D] (tag : Tag) (access : KeyAccess) (ack : OperatorAcknowledgement)
    (scope : ScanScope) (cancel : Cancel) (here : Progress) :
    Call (Watching D) (Unfinished Error) AdvanceReceipt := do
  let before ← Call.get
  let advanced ← (watched (advanceAfterOperatorReview cancel here tag access ack scope)).attempt
  let after ← Call.get
  match advanced with
  | .ok receipt => pure receipt
  | .error .acknowledgementDoesNotMatch => do
    Wallet.stopIf (heardStop before.session.node after.session.node) cancel
    Call.refuse (.refused .acknowledgementDoesNotMatch)
  | .error .cancelled => do
    Wallet.stopIf true cancel
    Call.refuse (.refused .cancelled)
  | .error e => Call.refuse (.refused e)

def decideReview [Layout D] (tag : Tag) (master : Option Secret) (advanceTo : UInt32)
    (cancel : Cancel) (reports : List Divergence) (tags : List Tag) (divergence : Divergence) :
    Call (Watching D) (Unfinished Error) Reviewed :=
  match reports.find? fun d => d.tag ≠ tag ∧ d.isReservationUnexplained with
  | some other => pure ⟨reports, tags.length, .secondInstanceSignal other.tag⟩
  | none =>
  match OperatorAcknowledgement.of divergence with
  | none => pure ⟨reports, tags.length, .noAdvance none⟩
  | some ack =>
  if ack.target.raw ≠ advanceTo then
    pure ⟨reports, tags.length, .noAdvance (some ack.target.raw)⟩
  else do
  let w ← Call.get
  match accessFor w.session.store.ks tag master with
  | .error d => pure ⟨reports ++ [d], tags.length, .noAdvance none⟩
  | .ok access => do
    let stop ← asking fun _ => Wallet.askStop cancel
    Wallet.stopIf stop cancel
    let w ← Call.get
    let here := reviewing w.session.store.ks tags.length (tags.idxOf tag) tag (scopeTo (some advanceTo))
    report here
    let receipt ← advanceNamed tag access ack (scopeTo (some advanceTo)) cancel here
    pure ⟨reports, tags.length, .advanced receipt.index.raw⟩

def reviewAsking [Layout D] (tag : Tag) (master : Option Secret) (advanceTo : UInt32)
    (cancel : Cancel) : Call (Watching D) (Unfinished Error) Reviewed := do
  let w ← Call.get
  let tags ← Call.check (w.session.store.ks.tags.mapError .refused)
  if !tags.contains tag then pure ⟨[], tags.length, .notHeld⟩
  else do
  let walked ← reviewAccounts tag (scopeTo (some advanceTo)) master cancel tags.length 0 tags ⟨[], none⟩
  match walked.named with
  | none => pure ⟨walked.reports, tags.length, .notHeld⟩
  | some (.ok status) => pure ⟨walked.reports, tags.length, .nothingToReconcile status⟩
  | some (.error d) => decideReview tag master advanceTo cancel walked.reports tags d

/-! ## Sweeping -/

def sightAll (master : Secret) (to' : UInt32) (cancel : Cancel) :
    List UInt32 → List Sighting → Call (Watching D) (Unfinished SweepFailure) (List Sighting)
  | [], sightings => pure sightings
  | account :: accounts, sightings => do
    let stop ← asking fun _ => Wallet.askStop cancel
    Wallet.stopIf stop cancel
    report ⟨account, saturatingAdd32 to' 1, 0, 0⟩
    let sightings ← on (sight master sightings account)
    sightAll master to' cancel accounts sightings

def sweepAsking (master : Secret) (to' : UInt32) (cancel : Cancel) :
    Call (Watching D) (Unfinished SweepFailure) Sweep := do
  let sightings ← sightAll master to' cancel (sweepAccounts to') []
  pure ⟨to', sightings⟩

/-! ## Watching changes nothing else -/

variable {cancel : Cancel} {tag : Tag} {master : Option Secret}

theorem over_stopIf {ε : Type} {stop : Bool} : Call.Over (Of (D := D))
    (Wallet.stopIf (ε := ε) stop cancel) (Wallet.stopIf stop cancel) :=
  .ite (.check _) (.pure _)

/-- Asking whether to stop, and what follows. -/
theorem over_guard {ε α : Type} {f : Unit → Call (Watching D) (Unfinished ε) α}
    {g : Unit → Call (Session D) (Unfinished ε) α} (h : Call.Over Of (f ()) (g ())) :
    Call.Over Of
      (do let stop ← asking fun _ => Wallet.askStop cancel
          let u ← Wallet.stopIf stop cancel
          f u)
      (do let stop ← Session.asking fun _ => Wallet.askStop cancel
          let u ← Wallet.stopIf stop cancel
          g u) :=
  (over_on _).bind fun _ => over_stopIf.bind fun _ => h

theorem over_openAccount {accounts n : ℕ} {part : Partition} : Call.Over Of
    (openAccount (D := D) master cancel accounts n part tag)
    (Wallet.openAccount master cancel part tag) := by
  refine over_guard (Call.Over.get_bind fun {w s} hw => over_report ?_)
  cases hw
  rcases accessFor w.session.store.ks tag master with d | access
  · exact .pure _
  · refine (over_watched (over_reading fun store => over_reconcile.attempt)).bind fun found => ?_
    rcases found with d | status
    · exact over_stopIf.bind fun _ => .pure _
    · exact .pure _

theorem over_openAccounts {accounts : ℕ} (tags : List Tag) : ∀ n part, Call.Over Of
    (openAccounts (D := D) master cancel accounts n tags part)
    (Wallet.openAccounts master cancel tags part) := by
  induction tags with
  | nil => exact fun n part => .pure _
  | cons tag tags ih => exact fun n part => over_openAccount.bind fun part => ih (n + 1) part

/-- A watched opening, read on its session, is the opening. -/
theorem over_open : Call.Over Of (openAsking (D := D) master cancel)
    (Wallet.openAsking master cancel) := by
  refine .get_bind fun {w s} hw => ?_
  cases hw
  rcases w.session.store.ks.tags with cause | tags
  · exact .refuse _
  · exact (over_openAccounts tags 0 _).bind fun part => .ite (.refuse _) (.pure _)

/-- A watched sweep, read on its session, is the sweep. -/
theorem over_sweep {master : Secret} {to' : UInt32} : Call.Over Of
    (sweepAsking (D := D) master to' cancel) (Cli.sweepAsking master to' cancel) := by
  have hall (accounts : List UInt32) : ∀ sightings, Call.Over Of
      (sightAll (D := D) master to' cancel accounts sightings)
      (Cli.sightAll master cancel accounts sightings) := by
    induction accounts with
    | nil => exact fun sightings => .pure _
    | cons account accounts ih =>
      exact fun sightings => over_guard (over_report ((over_on _).bind ih))
  exact (hall _ _).bind fun _ => .pure _

theorem over_reconcileWith {scope : ScanScope} {accounts n : ℕ} {t : Tag} :
    Call.Over Of (reconcileWith (D := D) t scope master cancel accounts n)
      (Cli.reconcileWith t scope master cancel) := by
  refine .get_bind fun {w s} hw => over_report ?_
  cases hw
  rcases accessFor w.session.store.ks t master with d | access
  · exact .pure _
  · exact over_watched (over_reading fun store => over_reconcile.attempt)

theorem over_reviewAccount {scope : ScanScope} {accounts n : ℕ} {walked : Walked} {t : Tag} :
    Call.Over Of (reviewAccount (D := D) tag scope master cancel accounts n walked t)
      (Cli.reviewAccount tag scope master cancel walked t) := by
  refine over_guard (over_reconcileWith.bind fun result => ?_)
  rcases result with d | status
  · exact over_stopIf.bind fun _ => .pure _
  · exact .pure _

theorem over_reviewAccounts {scope : ScanScope} {accounts : ℕ} (ts : List Tag) : ∀ n walked,
    Call.Over Of (reviewAccounts (D := D) tag scope master cancel accounts n ts walked)
      (Cli.reviewAccounts tag scope master cancel ts walked) := by
  induction ts with
  | nil => exact fun n walked => .pure _
  | cons t ts ih => exact fun n walked => over_reviewAccount.bind fun walked => ih (n + 1) walked

variable [Layout D]

/-- A watched restore, read on its session, is the restore. -/
theorem over_restoreAccount {master : Secret} {accountIndex : UInt32} {scanTo : Option UInt32} :
    Call.Over Of (restoreAsking (D := D) master accountIndex scanTo cancel)
      (Cli.restoreAsking master accountIndex scanTo cancel) := by
  refine over_guard (over_report ((over_watched (over_reading fun store =>
    over_restore.attempt)).bind fun scanned => ?_))
  rcases scanned with failure | found
  · exact over_stopIf.bind fun _ => .refuse _
  · refine .get_bind fun {w s} hw => ?_
    cases hw
    refine (Call.Over.check _).bind fun view => ?_
    rcases view with _ | view
    · exact (Call.Over.check _).bind fun account => over_guard ((over_on _).bind fun _ => .pure _)
    · exact .pure _

theorem over_advanceNamed {access : KeyAccess} {ack : OperatorAcknowledgement} {scope : ScanScope}
    {here : Progress} : Call.Over Of (advanceNamed (D := D) tag access ack scope cancel here)
      (Cli.advanceNamed tag access ack scope cancel) := by
  refine .get_bind fun {w s} hw => (over_watched over_advance).attempt.bind fun advanced =>
    .get_bind fun {u t} hu => ?_
  cases hw
  cases hu
  rcases advanced with e | receipt
  · by_cases hmatch : e = .acknowledgementDoesNotMatch
    · subst hmatch
      exact over_stopIf.bind fun _ => .refuse _
    by_cases hcancelled : e = .cancelled
    · subst hcancelled
      exact over_stopIf.bind fun _ => .refuse _
    simp only
    exact .refuse _
  · exact .pure _

theorem over_decideReview {advanceTo : UInt32} {reports : List Divergence} {tags : List Tag}
    {d : Divergence} : Call.Over Of
      (decideReview (D := D) tag master advanceTo cancel reports tags d)
      (Cli.decideReview tag master advanceTo cancel reports tags.length d) := by
  unfold decideReview Cli.decideReview
  generalize reports.find? _ = other
  rcases other with _ | other
  swap
  · exact .pure _
  rcases OperatorAcknowledgement.of d with _ | ack
  · exact .pure _
  refine .ite (.pure _) (.get_bind fun {w s} hw => ?_)
  cases hw
  rcases accessFor w.session.store.ks tag master with e | access
  · exact .pure _
  · exact over_guard (.read_bind fun w => over_report (over_advanceNamed.bind fun receipt => .pure _))

/-- A watched review, read on its session, is the review. -/
theorem over_review {advanceTo : UInt32} : Call.Over Of
    (reviewAsking (D := D) tag master advanceTo cancel)
    (Cli.reviewAsking tag master advanceTo cancel) := by
  refine .get_bind fun {w s} hw => ?_
  cases hw
  refine (Call.Over.check _).bind fun tags => ?_
  have hheld : (tag ∉ tags) = ((!tags.contains tag) = true) := by simp
  simp only [hheld]
  refine .ite (.pure _) ((over_reviewAccounts tags 0 _).bind fun walked => ?_)
  rcases walked with ⟨reports, _ | d | status⟩
  · exact .pure _
  · exact over_decideReview
  · exact .pure _

end

end MochimoWallet.Watching
