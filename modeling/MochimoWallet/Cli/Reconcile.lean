import MochimoWallet.Cli.Restore
import MochimoWallet.Wallet.Gate

/-!
# The reconcile command

Reconcile reads the whole store first: the named account under a ceiling that reaches
the operator's number, every other under the default scope; `Findings` is that walk. It
advances the named account only where the live report names exactly that number and no
other account reports a spend this wallet did not make; the advance asks the chain once
more before it writes. `review_cases` says everything a call can do.
-/

namespace MochimoWallet.Cli

open Codec Words Keystore Session

/-- The scope of a review: up to the operator's number, which is included. -/
def scopeTo : Option UInt32 → ScanScope
  | some m => ScanScope.diagnostic.withCeiling (saturatingAdd32 m 1)
  | none => ScanScope.diagnostic

inductive Outcome where
  | advanced (index : UInt32)
  | nothingToReconcile (status : AccountStatus)
  | noAdvance (target : Option UInt32)
  | secondInstanceSignal (other : Tag)
  | notHeld
  deriving DecidableEq

def Outcome.isAdvanced : Outcome → Bool
  | advanced _ => true
  | _ => false

/-- Every diverged account's report as it stood before the decision, and the decision. -/
structure Reviewed where
  reports : List Divergence
  accounts : ℕ
  outcome : Outcome
  deriving DecidableEq

/-- The reports of a walk over the accounts, and what it found of the named one. -/
structure Walked where
  reports : List Divergence
  named : Option (Except Divergence AccountStatus)

/-- A stop was heard between the two: the answers used up in between hold one. -/
def heardStop (before after : Node) : Bool :=
  (before.stops.take (before.stops.length - after.stops.length)).any id

section
variable [Crypto] {D : Type}

/-- Reconcile an account under the access its kind needs. -/
def reconcileWith (t : Tag) (scope : ScanScope) (master : Option Secret) (cancel : Cancel) :
    Call (Session D) (Unfinished Error) (Except Divergence AccountStatus) := do
  let s ← Call.get
  match accessFor s.store.ks t master with
  | .error d => pure (.error d)
  | .ok access => asking fun ks => (reconcileAccountWith ks t access scope cancel).attempt

/-- Reconcile one account of the walk. -/
def reviewAccount (tag : Tag) (scope : ScanScope) (master : Option Secret) (cancel : Cancel)
    (walked : Walked) (t : Tag) : Call (Session D) (Unfinished Error) Walked := do
  let stop ← asking fun _ => Wallet.askStop cancel
  Wallet.stopIf stop cancel
  let result ← reconcileWith t (if t = tag then scope else .diagnostic) master cancel
  let named := if t = tag then some result else walked.named
  match result with
  | .error d => do
    Wallet.stopIf d.stoppedByCancel cancel
    pure ⟨walked.reports ++ [d], named⟩
  | .ok _ => pure ⟨walked.reports, named⟩

def reviewAccounts (tag : Tag) (scope : ScanScope) (master : Option Secret) (cancel : Cancel) :
    List Tag → Walked → Call (Session D) (Unfinished Error) Walked
  | [], walked => pure walked
  | t :: ts, walked => do
    let walked ← reviewAccount tag scope master cancel walked t
    reviewAccounts tag scope master cancel ts walked

/-- Advance the named account, and tell a stop that was heard from a finding. -/
def advanceNamed [Layout D] (tag : Tag) (access : KeyAccess) (ack : OperatorAcknowledgement)
    (scope : ScanScope) (cancel : Cancel) : Call (Session D) (Unfinished Error) AdvanceReceipt := do
  let before ← Call.get
  let advanced ← (advanceAfterOperatorReview tag access ack scope cancel cancel).attempt
  let after ← Call.get
  match advanced with
  | .ok receipt => pure receipt
  | .error .acknowledgementDoesNotMatch => do
    Wallet.stopIf (heardStop before.node after.node) cancel
    Call.refuse (.refused .acknowledgementDoesNotMatch)
  | .error .cancelled => do
    Wallet.stopIf true cancel
    Call.refuse (.refused .cancelled)
  | .error e => Call.refuse (.refused e)

/-- What is decided of the named account's divergence. -/
def decideReview [Layout D] (tag : Tag) (master : Option Secret) (advanceTo : UInt32) (cancel : Cancel)
    (reports : List Divergence) (accounts : ℕ) (divergence : Divergence) :
    Call (Session D) (Unfinished Error) Reviewed :=
  match reports.find? fun d => d.tag ≠ tag ∧ d.isReservationUnexplained with
  | some other => pure ⟨reports, accounts, .secondInstanceSignal other.tag⟩
  | none =>
  match OperatorAcknowledgement.of divergence with
  | none => pure ⟨reports, accounts, .noAdvance none⟩
  | some ack =>
  if ack.target.raw ≠ advanceTo then pure ⟨reports, accounts, .noAdvance (some ack.target.raw)⟩
  else do
  let s ← Call.get
  match accessFor s.store.ks tag master with
  | .error d => pure ⟨reports ++ [d], accounts, .noAdvance none⟩
  | .ok access => do
    let stop ← asking fun _ => Wallet.askStop cancel
    Wallet.stopIf stop cancel
    let receipt ← advanceNamed tag access ack (scopeTo (some advanceTo)) cancel
    pure ⟨reports, accounts, .advanced receipt.index.raw⟩

def reviewAsking [Layout D] (tag : Tag) (master : Option Secret) (advanceTo : UInt32)
    (cancel : Cancel) : Call (Session D) (Unfinished Error) Reviewed := do
  let s ← Call.get
  let tags ← Call.check (s.store.ks.tags.mapError .refused)
  if tag ∉ tags then pure ⟨[], tags.length, .notHeld⟩
  else do
  let walked ← reviewAccounts tag (scopeTo (some advanceTo)) master cancel tags ⟨[], none⟩
  match walked.named with
  | none => pure ⟨walked.reports, tags.length, .notHeld⟩
  | some (.ok status) => pure ⟨walked.reports, tags.length, .nothingToReconcile status⟩
  | some (.error d) => decideReview tag master advanceTo cancel walked.reports tags.length d

/-! ## What a review can do -/

variable {tag : Tag} {scope : ScanScope} {master : Option Secret} {cancel : Cancel}
  {advanceTo : UInt32} {s s' : Session D}

theorem quiet_reconcileWith {t : Tag} :
    Call.Quiet Session.store (reconcileWith (D := D) t scope master cancel) := by
  refine Call.Quiet.get.bind fun s => ?_
  split
  · exact Call.Quiet.pure _
  · exact quiet_reconcile

theorem quiet_reviewAccount {walked : Walked} {t : Tag} :
    Call.Quiet Session.store (reviewAccount (D := D) tag scope master cancel walked t) := by
  refine Wallet.quiet_askStop.bind fun stop => Wallet.quiet_stopIf.bind fun _ =>
    quiet_reconcileWith.bind fun result => ?_
  dsimp only
  split
  · exact Wallet.quiet_stopIf.bind fun _ => Call.Quiet.pure _
  · exact Call.Quiet.pure _

/-- The walk over the accounts leaves the store as it is. -/
theorem quiet_reviewAccounts (ts : List Tag) : ∀ walked,
    Call.Quiet Session.store (reviewAccounts (D := D) tag scope master cancel ts walked) := by
  induction ts with
  | nil => exact fun walked => Call.Quiet.pure _
  | cons t ts ih => exact fun walked => quiet_reviewAccount.bind ih

/-! ## What the walk finds -/

/-- The walk over the accounts, one after the other, with the node as the one before left it: what
each was found to be, under the access its kind needs. -/
inductive Findings (tag : Tag) (scope : ScanScope) (master : Option Secret) (cancel : Cancel) :
    List Tag → Session D → List Wallet.Verdict → Session D → Prop where
  | nil (s : Session D) : Findings tag scope master cancel [] s [] s
  | cons {t : Tag} {ts : List Tag} {s u v w : Session D} {stop : Bool}
      {found : Except Divergence AccountStatus} {verdicts : List Wallet.Verdict}
      (hasked : (asking fun _ => Wallet.askStop cancel : Call (Session D) (Unfinished Error) Bool) s =
        (.ok stop, u))
      (hfound : reconcileWith t (if t = tag then scope else .diagnostic) master cancel u = (.ok found, v))
      (hrest : Findings tag scope master cancel ts v verdicts w) :
      Findings tag scope master cancel (t :: ts) s ((t, found) :: verdicts) w

section
variable {ts : List Tag} {verdicts : List Wallet.Verdict} {p : Parsed}

/-- A divergence found of an account is of that account. -/
theorem reconcileWith_tag {t : Tag} {d : Divergence} (hm : s.store.ks.memory = some p)
    (h : reconcileWith t scope master cancel s = (.ok (.error d), s')) : d.tag = t := by
  unfold reconcileWith at h
  rw [Call.get_bind] at h
  rcases haccess : accessFor s.store.ks t master with d' | access <;> rw [haccess] at h
  · cases h
    exact Wallet.accessFor_error haccess
  · obtain ⟨-, found, hfound, hcall⟩ := asking_reconcile h
    cases hfound
    cases reconcile_end hm hcall with
    | ahead _ _ _ _ _ _ htag => exact htag
    | other _ htag => exact htag

theorem Findings.named (h : Findings tag scope master cancel ts s verdicts s')
    (hm : s.store.ks.memory = some p) : Wallet.Named verdicts := by
  induction h with
  | nil => exact fun _ _ hmem => absurd hmem List.not_mem_nil
  | cons hasked hfound hrest ih =>
    have hu := (asking_cases hasked).1
    have hv := (quiet_reconcileWith.keeps hfound).1
    intro t d hmem
    rcases List.mem_cons.mp hmem with heq | hmem
    · cases heq
      exact reconcileWith_tag (hu ▸ hm) hfound
    · exact ih (hv ▸ hu ▸ hm) t d hmem

/-- One account of the walk: what is found of it is reported where it diverged, and is the named
account's where it is that one. -/
theorem reviewAccount_found {walked walked' : Walked} {t : Tag}
    (h : reviewAccount tag scope master cancel walked t s = (.ok walked', s')) :
    ∃ found, (∀ {ts : List Tag} {verdicts : List Wallet.Verdict} {w : Session D},
        Findings tag scope master cancel ts s' verdicts w →
        Findings tag scope master cancel (t :: ts) s ((t, found) :: verdicts) w) ∧
      walked'.reports = walked.reports ++ [(t, found)].filterMap Wallet.Verdict.diverged? ∧
      walked'.named = if t = tag then some found else walked.named := by
  rcases Call.bind_cases h with ⟨stop, u, hasked, h⟩ | ⟨e, -, hr⟩ | ⟨-, hr⟩
  rotate_left
  · cases hr
  · cases hr
  rcases Wallet.stopIf_cases h with ⟨e, hr, -⟩ | h
  · cases hr
  rcases Call.bind_cases h with ⟨found, v, hfound, h⟩ | ⟨e, -, hr⟩ | ⟨-, hr⟩
  rotate_left
  · cases hr
  · cases hr
  dsimp only at h
  rcases found with d | status
  · dsimp only at h
    rcases Wallet.stopIf_cases h with ⟨e, hr, -⟩ | h
    · cases hr
    cases h
    exact ⟨.error d, fun hrest => .cons hasked hfound hrest, rfl, rfl⟩
  · cases h
    exact ⟨.ok status, fun hrest => .cons hasked hfound hrest, (List.append_nil _).symm, rfl⟩

/-- What a walk reports is what it found, and what it found of the named account is among that. -/
theorem reviewAccounts_findings (ts : List Tag) : ∀ {walked walked' : Walked} {s : Session D},
    reviewAccounts tag scope master cancel ts walked s = (.ok walked', s') →
    ∃ verdicts, Findings tag scope master cancel ts s verdicts s' ∧
      walked'.reports = walked.reports ++ verdicts.filterMap Wallet.Verdict.diverged? ∧
      ∀ found, walked'.named = some found → walked.named = some found ∨ (tag, found) ∈ verdicts := by
  induction ts with
  | nil =>
    intro walked walked' s h
    cases h
    exact ⟨[], .nil s', (List.append_nil _).symm, fun found hfound => .inl hfound⟩
  | cons t ts ih =>
    intro walked walked' s h
    rcases Call.bind_cases h with ⟨next, u, hnext, h⟩ | ⟨e, -, hr⟩ | ⟨-, hr⟩
    rotate_left
    · cases hr
    · cases hr
    obtain ⟨found, hcons, hreports, hnamed⟩ := reviewAccount_found hnext
    obtain ⟨verdicts, hrest, hreports', hnamed'⟩ := ih h
    refine ⟨(t, found) :: verdicts, hcons hrest, ?_, ?_⟩
    · rw [hreports', hreports, List.append_assoc, ← List.filterMap_append]
      rfl
    · intro f hf
      rcases hnamed' f hf with hf | hmem
      · rw [hnamed] at hf
        split at hf
        · next htag =>
          cases hf
          exact .inr (htag ▸ List.mem_cons_self)
        · exact .inl hf
      · exact .inr (List.mem_cons_of_mem _ hmem)

end

/-! ## How a review ends -/

variable [Layout D]

/-- An advance of the named account, by what the guarded advance it makes can do. -/
theorem advanceNamed_cases {p : Parsed} {access : KeyAccess} {ack : OperatorAcknowledgement}
    (hm : s.store.ks.memory = some p) {r : Reply (Unfinished Error) AdvanceReceipt}
    (h : advanceNamed tag access ack scope cancel s = (r, s')) :
    ∃ r', AdvanceEnd s s' p tag access ack r' ∧ (∀ receipt, r = .ok receipt ↔ r' = .ok receipt) := by
  unfold advanceNamed at h
  rw [Call.get_bind] at h
  rcases Call.bind_cases h with ⟨advanced, t, hadvance, h⟩ | ⟨e, hadvance, -⟩ | ⟨hadvance, rfl⟩ <;>
    rcases Call.attempt_cases hadvance with ⟨advanced', hr, hadvance⟩ | ⟨hr, hadvance⟩ <;> cases hr
  · have hend := advance_cases hm hadvance
    rw [Call.get_bind] at h
    split at h
    · cases h
      exact ⟨_, hend, fun receipt => by simp [Reply.ofExcept]⟩
    · rcases Wallet.stopIf_cases h with ⟨e, rfl, rfl⟩ | h
      · exact ⟨_, hend, fun receipt => by simp [Reply.ofExcept]⟩
      · cases h
        exact ⟨_, hend, fun receipt => by simp [Reply.ofExcept]⟩
    · rcases Wallet.stopIf_cases h with ⟨e, rfl, rfl⟩ | h
      · exact ⟨_, hend, fun receipt => by simp [Reply.ofExcept]⟩
      · cases h
        exact ⟨_, hend, fun receipt => by simp [Reply.ofExcept]⟩
    · cases h
      exact ⟨_, hend, fun receipt => by simp [Reply.ofExcept]⟩
  · exact ⟨_, advance_cases hm hadvance, fun receipt => by simp⟩

/-- Everything a review can do: nothing, or one call of the writer on the operator's number. -/
inductive ReviewEnd (s s' : Session D) (p : Parsed) (tag : Tag) (master : Option Secret)
    (advanceTo : UInt32) (cancel : Cancel) (r : Reply (Unfinished Error) Reviewed) : Prop where
  | still (hstore : s'.store = s.store)
      (hnot : ∀ reviewed, r = .ok reviewed → reviewed.outcome.isAdvanced = false)
  | called {slot : Slot} {access : KeyAccess} {entry : LedgerEntry} {heard : List (Tag × LedgerEntry)}
      {verdicts : List Wallet.Verdict} {walked : Session D} {d : Divergence} {accounts : ℕ}
      {written : Reply Error AdvanceReceipt}
      (hfindings : Findings tag (scopeTo (some advanceTo)) master cancel p.slots.keys s verdicts walked)
      (hnamed : (tag, .error d) ∈ verdicts) (htarget : d.advanceTarget = some ⟨advanceTo⟩)
      (hslot : p.slots.get? tag = some slot) (hopen : slot.pending = none)
      (hahead : slot.account.wotsIndex.pos < advanceTo.toNat)
      (haccess : accessFor s.store.ks tag master = .ok access)
      (hheard : s'.node.heard = (tag, entry) :: heard)
      (haddress : s.store.ks.addressAt tag ⟨advanceTo⟩ access = .ok entry.address)
      (hothers : ∀ other d, (other, .error d) ∈ verdicts → other ≠ tag →
        d.isReservationUnexplained = false)
      (hcall : persistAdvanceTo tag ⟨advanceTo⟩ s.store = (written, s'.store))
      (hr : ∀ reviewed, r = .ok reviewed ↔ ∃ receipt, written = .ok receipt ∧
        reviewed = ⟨verdicts.filterMap Wallet.Verdict.diverged?, accounts, .advanced receipt.index.raw⟩)

theorem decideReview_cases {p : Parsed} {verdicts : List Wallet.Verdict} {accounts : ℕ} {d : Divergence}
    {first : Session D} (hm : first.store.ks.memory = some p) (hfirst : s.store = first.store)
    (hfindings : Findings tag (scopeTo (some advanceTo)) master cancel p.slots.keys first verdicts s)
    (hnamed : (tag, .error d) ∈ verdicts) {r : Reply (Unfinished Error) Reviewed}
    (h : decideReview tag master advanceTo cancel (verdicts.filterMap Wallet.Verdict.diverged?) accounts d
      s = (r, s')) : ReviewEnd first s' p tag master advanceTo cancel r := by
  unfold decideReview at h
  generalize hothers : (verdicts.filterMap Wallet.Verdict.diverged?).find? _ = other at h
  rcases other with _ | other
  swap
  · cases h
    exact .still hfirst fun _ hr => by cases hr; rfl
  dsimp only at h
  rcases hack : OperatorAcknowledgement.of d with _ | ack <;> rw [hack] at h
  · cases h
    exact .still hfirst fun _ hr => by cases hr; rfl
  dsimp only at h
  rw [Call.ite_apply] at h
  split at h
  · cases h
    exact .still hfirst fun _ hr => by cases hr; rfl
  next htarget =>
  rw [Call.get_bind] at h
  rcases haccess : accessFor s.store.ks tag master with e | access <;> rw [haccess] at h
  · cases h
    exact .still hfirst fun _ hr => by cases hr; rfl
  dsimp only at h
  rcases Wallet.quiet_askStop.bind_cases h with ⟨e, rfl, hstore⟩ | ⟨stop, t, -, hstore, h⟩
  · exact .still (hstore.trans hfirst) fun _ hr => by cases hr
  rcases Wallet.stopIf_cases h with ⟨e, rfl, rfl⟩ | h
  · exact .still (hstore.trans hfirst) fun _ hr => by cases hr
  rcases hadvance : advanceNamed tag access ack (scopeTo (some advanceTo)) cancel t with ⟨w, u⟩
  obtain ⟨written, hend, hw⟩ := advanceNamed_cases (hstore.trans hfirst ▸ hm) hadvance
  cases (Call.map_apply hadvance).symm.trans h
  have hreply (reviewed : Reviewed) : (w.map fun receipt =>
      (⟨verdicts.filterMap Wallet.Verdict.diverged?, accounts, .advanced receipt.index.raw⟩ : Reviewed)) =
        .ok reviewed ↔ ∃ receipt, written = .ok receipt ∧ reviewed =
          ⟨verdicts.filterMap Wallet.Verdict.diverged?, accounts, .advanced receipt.index.raw⟩ := by
    simp only [← hw]
    rcases w with receipt | e | _ <;> simp [Reply.map, eq_comm]
  cases hend with
  | refused hr hstore' =>
    refine .still (hstore'.trans (hstore.trans hfirst)) fun reviewed hok => ?_
    obtain ⟨receipt, hwritten, -⟩ := (hreply reviewed).mp hok
    rw [hr] at hwritten
    cases hwritten
  | @called slot entry htag hslot hopen hahead hheard haddress hcall =>
    have htarget : ack.target = ⟨advanceTo⟩ := WotsIndex.ext_pos (by
      show ack.target.raw.toNat = advanceTo.toNat
      rw [not_not.mp htarget])
    rw [htarget, hstore, hfirst] at haddress hcall
    rw [htarget] at hahead
    have hadvances : d.advanceTarget = some ⟨advanceTo⟩ := by
      obtain ⟨target, hd, rfl⟩ := Option.map_eq_some_iff.mp hack
      rw [hd]
      exact congrArg some htarget
    rw [hfirst] at haccess
    refine .called hfindings hnamed hadvances hslot hopen hahead haccess hheard haddress ?_ hcall hreply
    intro other e he hne
    have hmem : e ∈ verdicts.filterMap Wallet.Verdict.diverged? :=
      List.mem_filterMap.mpr ⟨(other, .error e), he, rfl⟩
    have hnone := List.find?_eq_none.mp hothers e hmem
    simpa [hfindings.named hm other e he, hne] using hnone

theorem review_cases {p : Parsed} (hm : s.store.ks.memory = some p)
    {r : Reply (Unfinished Error) Reviewed}
    (h : reviewAsking tag master advanceTo cancel s = (r, s')) :
    ReviewEnd s s' p tag master advanceTo cancel r := by
  have htags : s.store.ks.tags = .ok p.slots.keys := by
    rw [tags, live_of_memory hm, ok_bind]
  unfold reviewAsking at h
  rw [Call.get_bind, htags] at h
  change (if tag ∉ p.slots.keys then _ else _ : Call (Session D) (Unfinished Error) Reviewed) s = _ at h
  rw [Call.ite_apply] at h
  split at h
  · cases h
    exact .still rfl fun _ hr => by cases hr; rfl
  rcases (quiet_reviewAccounts p.slots.keys _).bind_cases h with
    ⟨e, rfl, hstore⟩ | ⟨walked, t, hwalked, hstore, h⟩
  · exact .still hstore fun _ hr => by cases hr
  obtain ⟨verdicts, hfindings, hreports, hnamed⟩ := reviewAccounts_findings _ hwalked
  rcases walked with ⟨reports, _ | d | status⟩
  · cases h
    exact .still hstore fun _ hr => by cases hr; rfl
  swap
  · cases h
    exact .still hstore fun _ hr => by cases hr; rfl
  · rcases hnamed _ rfl with hnone | hmem
    · cases hnone
    obtain rfl := hreports
    exact decideReview_cases hm hstore hfindings hmem h

/-- A poisoned store is not reviewed. -/
theorem review_poisoned (hm : s.store.ks.memory = none) {r : Reply (Unfinished Error) Reviewed}
    (h : reviewAsking tag master advanceTo cancel s = (r, s')) :
    s'.store = s.store ∧ ∃ e, r = .err e := by
  obtain ⟨first, hfirst⟩ := poisoned_of_memory hm
  have htags : s.store.ks.tags = .error (.poisoned first) := by
    rw [tags, live, hfirst]
    rfl
  unfold reviewAsking at h
  rw [Call.get_bind, htags] at h
  cases h
  exact ⟨rfl, _, rfl⟩

/-- A review advances an account to the operator's number where the walk found it behind exactly that
number and no other account spent by another hand, and the chain, asked again, answered the address of
that number's key. A review that ends in any other outcome leaves the store as it is, and so does one
that is refused, unless its own commit was made and failed. -/
theorem advance_acknowledged_sound {r : Reply (Unfinished Error) Reviewed}
    (h : reviewAsking tag master advanceTo cancel s = (r, s')) :
    (∀ reviewed index, r = .ok reviewed → reviewed.outcome = .advanced index →
      index = advanceTo ∧ ∃ p p' slot access entry heard verdicts walked, s.store.ks.memory = some p ∧
        p.slots.get? tag = some slot ∧ slot.account.wotsIndex.pos < advanceTo.toNat ∧
        slot.pending = none ∧ accessFor s.store.ks tag master = .ok access ∧
        s'.node.heard = (tag, entry) :: heard ∧
        s.store.ks.addressAt tag ⟨advanceTo⟩ access = .ok entry.address ∧
        Findings tag (scopeTo (some advanceTo)) master cancel p.slots.keys s verdicts walked ∧
        reviewed.reports = verdicts.filterMap Wallet.Verdict.diverged? ∧
        (∃ d, (tag, .error d) ∈ verdicts ∧ d.advanceTarget = some ⟨advanceTo⟩) ∧
        (∀ other d, (other, .error d) ∈ verdicts → other ≠ tag → d.isReservationUnexplained = false) ∧
        Committed s.store s'.store p p' (.ok ()) ∧ p'.master = p.master ∧
        p'.slots.get? tag =
          some ⟨{ slot.account with wotsIndex := ⟨advanceTo⟩ }, none, none⟩ ∧
        ∀ other, other ≠ tag → p'.slots.get? other = p.slots.get? other) ∧
    (∀ reviewed, r = .ok reviewed → reviewed.outcome.isAdvanced = false → s'.store = s.store) ∧
    ((∀ reviewed, r ≠ .ok reviewed) →
      s'.store = s.store ∨ ∃ p p' reply, reply ≠ .ok () ∧ Committed s.store s'.store p p' reply) := by
  rcases hm : s.store.ks.memory with _ | p
  · obtain ⟨hstore, e, rfl⟩ := review_poisoned hm h
    exact ⟨fun _ _ hr => (by cases hr), fun _ _ _ => hstore, fun _ => .inl hstore⟩
  cases review_cases hm h with
  | still hstore hnot =>
    refine ⟨fun reviewed index hr hadvanced => ?_, fun _ _ _ => hstore, fun _ => .inl hstore⟩
    have hnot := hnot reviewed hr
    rw [hadvanced] at hnot
    cases hnot
  | @called slot access entry heard verdicts walked d accounts written hfindings hnamed htarget hslot hopen
      hahead haccess hheard haddress hothers hcall hr =>
    -- What is returned is an advance or no outcome at all, so only the first and the last part are met.
    have hnever (reviewed : Reviewed) (hok : r = .ok reviewed) : reviewed.outcome.isAdvanced = true := by
      obtain ⟨receipt, -, rfl⟩ := (hr reviewed).mp hok
      rfl
    have hsecond : ∀ reviewed, r = .ok reviewed → reviewed.outcome.isAdvanced = false →
        s'.store = s.store := by
      intro reviewed hok hnot
      rw [hnever reviewed hok] at hnot
      cases hnot
    rcases call_committed hm (persistAdvanceTo_call hcall) with
      ⟨hstore, e, hw⟩ | ⟨p', reply, hnext, hcommitted, hw⟩
    · refine ⟨fun reviewed index hok _ => ?_, hsecond, fun _ => .inl hstore⟩
      obtain ⟨receipt, hwritten, -⟩ := (hr reviewed).mp hok
      rw [hwritten] at hw
      cases hw
    · refine ⟨fun reviewed index hok hadvanced => ?_, hsecond, fun hnot => ?_⟩
      · obtain ⟨receipt, hwritten, rfl⟩ := (hr reviewed).mp hok
        rw [hwritten] at hw
        rcases reply with ⟨⟨⟩⟩ | e | _ <;> cases hw
        cases hadvanced
        have hstep := (Parsed.step_of_next hnext).1
        cases hstep with
        | @persistAdvanceTo _ _ t ht _ _ hslots hmaster =>
        cases ht.symm.trans hslot
        refine ⟨rfl, p, p', slot, access, entry, heard, verdicts, walked, rfl, hslot, hahead, hopen, haccess,
          hheard, haddress, hfindings, rfl, ⟨d, hnamed, htarget⟩, hothers, hcommitted, hmaster, ?_,
          fun other hne => ?_⟩
        · exact (congrArg (·.get? tag) hslots).trans (Parsed.get?_write hslot ..)
        · exact (Parsed.step_of_next hnext).1.frame fun he => hne (Option.some.inj he).symm
      · refine .inr ⟨p, p', reply, ?_, hcommitted⟩
        rintro rfl
        rcases written with receipt | e | _ <;> cases hw
        exact hnot _ ((hr _).mpr ⟨_, rfl, rfl⟩)

end

section
attribute [local instance] Crypto.copying

/-- How the review of the derived account of two ends, where the node says nothing of the other, and of
this one has its second key both times. -/
def advancedSecond (store : Opened UnixMedium) : Option (Reviewed × Session UnixMedium × Session UnixMedium) :=
  let second : LedgerEntry := ⟨derivedAddressAt sevens 0 ⟨1⟩, 5⟩
  let s : Session UnixMedium := ⟨store, ⟨[.error Node.silence, .ok second, .ok second], [], [], [], []⟩⟩
  match reviewAsking (Account.derive sevens 0).tag (some sevens) 1 .never s with
  | (.ok reviewed, s') => some (reviewed, s, s')
  | _ => none

/-- The chain is one position ahead both times it is asked, and the operator says so; the other account
is reported as what the node left it. -/
theorem advance_acknowledged_sound_second : ∃ (s s' : Session UnixMedium) (reviewed : Reviewed)
    (access : KeyAccess) (entry : LedgerEntry) (heard : List (Tag × LedgerEntry))
    (verdicts : List Wallet.Verdict),
    reviewAsking (Account.derive sevens 0).tag (some sevens) 1 .never s = (.ok reviewed, s') ∧
      reviewed.outcome = .advanced 1 ∧ reviewed.reports.length = 2 ∧
      reviewed.reports = verdicts.filterMap Wallet.Verdict.diverged? ∧
      (∀ other d, (other, .error d) ∈ verdicts → other ≠ (Account.derive sevens 0).tag →
        d.isReservationUnexplained = false) ∧
      s'.node.heard = ((Account.derive sevens 0).tag, entry) :: heard ∧
      s.store.ks.addressAt (Account.derive sevens 0).tag ⟨1⟩ access = .ok entry.address := by
  have hrun : ((grown 4).bind advancedSecond).map (fun run => (run.1.outcome, run.1.reports.length)) =
      some (.advanced 1, 2) := by decide +kernel
  obtain ⟨⟨reviewed, s, s'⟩, hrun, hfigures⟩ := Option.map_eq_some_iff.mp hrun
  obtain ⟨store, -, hrun⟩ := Option.bind_eq_some_iff.mp hrun
  have hadvanced : reviewed.outcome = .advanced 1 := congrArg Prod.fst hfigures
  have htwo : reviewed.reports.length = 2 := congrArg Prod.snd hfigures
  unfold advancedSecond at hrun
  dsimp only at hrun
  split at hrun
  · next reviewed' t hreview =>
    cases hrun
    obtain ⟨-, p, p', slot, access, entry, heard, verdicts, walked, -, -, -, -, -, hheard, haddress, -,
      hreports, -, hothers, -⟩ := (advance_acknowledged_sound hreview).1 reviewed 1 rfl hadvanced
    exact ⟨_, _, reviewed, access, entry, heard, verdicts, hreview, hadvanced, htwo, hreports, hothers,
      hheard, haddress⟩
  · cases hrun

end

end MochimoWallet.Cli
