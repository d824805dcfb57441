import MochimoWallet.Recon.Stops
import MochimoWallet.Cli.Watched

/-!
# What a cancel changes

Each operation that can be stopped asks its caller between its steps, and a walk it makes
asks at each position. Whatever the caller answers, in whatever order: the first `true` ends the
call as cancelled, with the store as it was, and without one the call is the form of it
that is never asked (`open_heeds`, `restoreAccount_heeds`, `review_heeds`, `sweep_heeds`). The
one write an operation makes comes after its last question, so a call that was cancelled wrote
nothing, and one that wrote says what it wrote.
-/

namespace MochimoWallet.Cli

open Codec Keystore Session

section
variable {D ε α β : Type}

/-- The call ended because its caller said to stop. -/
def Cancelled (r : Reply (Unfinished ε) α) : Prop := r = .err .cancelled

theorem not_cancelled_ok (a : α) : ¬ Cancelled (.ok a : Reply (Unfinished ε) α) := by
  rintro ⟨⟩

theorem cancelled_err (e : Unfinished ε) :
    Cancelled (.err e : Reply (Unfinished ε) α) ↔ Cancelled (.err e : Reply (Unfinished ε) β) := by
  constructor <;>
    · rintro ⟨⟩
      rfl

/-- A failure of the operation's own, and no stop. -/
theorem not_cancelled_mapError {δ : Type} {f : δ → ε} (x : Except δ α) :
    ¬ Cancelled (.ofExcept (x.mapError fun cause => Unfinished.refused (f cause)) :
      Reply (Unfinished ε) α) := by
  cases x <;> rintro ⟨⟩

/-- Asking whether to stop heeds the answer. -/
theorem heeds_askStop : Call.Heeds nodeStops (fun _ => True) (fun r => r = .ok true)
    (Wallet.askStop (ε := ε) .when) (Wallet.askStop .never) := by
  refine ⟨fun {n n' r} _ h => ?_⟩
  unfold Wallet.askStop at h
  rw [Call.of_apply] at h
  rcases stop_when n with ⟨hstop, -⟩ | ⟨b, stops, hstops, hstop⟩ <;> rw [hstop] at h <;> cases h
  · exact .inl ⟨.refl _, by simp, fun l => rfl⟩
  · cases b with
    | false => exact .inl ⟨⟨[false], hstops, by simp⟩, by simp, fun l => rfl⟩
    | true => exact .inr ⟨⟨⟨[], hstops, by simp⟩, rfl⟩, rfl⟩

variable [Crypto]

/-- The caller's answers, as a session holds them; a stop leaves the store. -/
def sessionStops : Stops (Session D) (Opened D) :=
  ⟨fun s => s.node.stops, fun l s => { s with node := { s.node with stops := l } }, Session.store⟩

variable {inv : Opened D → Prop}

/-- What the node's questions heed, a session's heed. -/
theorem heeds_asking {halts : Reply ε α → Prop} {x y : Keystore → Call Node ε α}
    (h : ∀ ks, Call.Heeds nodeStops (fun _ => True) halts (x ks) (y ks)) :
    Call.Heeds sessionStops inv halts (asking (D := D) x) (asking y) := by
  refine ⟨fun {s s' r} _ hrun => ?_⟩
  obtain ⟨hstore, hx⟩ := asking_cases hrun
  rcases (h s.store.ks).run trivial hx with ⟨hwent, hlive, hsame⟩ | ⟨hhalted, hr⟩
  · refine .inl ⟨hwent, hlive, fun l => ?_⟩
    rw [asking_of (s := sessionStops.setAnswers l s) (hsame l)]
    obtain ⟨store, node⟩ := s'
    cases hstore
    rfl
  · exact .inr ⟨⟨hhalted.1, hstore⟩, hr⟩

/-- The stop a report records ends the call; otherwise it goes on. -/
theorem stopIf_heeds {stop : Bool} {f g : Unit → Call (Session D) (Unfinished ε) α} (hstop : stop = false)
    (h : Call.Heeds sessionStops inv Cancelled (f ()) (g ())) :
    Call.Heeds sessionStops inv Cancelled
      (do let u ← Wallet.stopIf stop .when
          f u)
      (do let u ← Wallet.stopIf stop .never
          g u) := by
  subst hstop
  exact h

/-- Asking whether to stop, and what follows. -/
theorem heeds_guard {f g : Unit → Call (Session D) (Unfinished ε) α}
    (h : Call.Heeds sessionStops inv Cancelled (f ()) (g ())) :
    Call.Heeds sessionStops inv Cancelled
      (do let stop ← asking fun _ => Wallet.askStop .when
          let u ← Wallet.stopIf stop .when
          f u)
      (do let stop ← asking fun _ => Wallet.askStop .never
          let u ← Wallet.stopIf stop .never
          g u) := by
  refine (heeds_asking fun _ => heeds_askStop).bind Wallet.quiet_askStop (fun stop hstop => ?_)
    (fun stop s hstop => ?_) fun {s s' e} hasked => ?_
  · exact stopIf_heeds (by simpa using hstop) h
  · cases hstop
    exact ⟨_, rfl, rfl⟩
  · obtain ⟨-, hnode⟩ := asking_cases hasked
    cases hnode

/-- A refusal that records a stop, taken as a value. -/
def Found {δ : Type} (stops : δ → Bool) (r : Reply ε (Except δ α)) : Prop :=
  ∃ d, r = .ok (.error d) ∧ stops d = true

/-- A call taken as a value, and what follows: the end of the operation where it was stopped. -/
theorem found_bind {δ : Type} (stops : δ → Bool) {x y : Call (Session D) (Unfinished ε) (Except δ α)}
    {f g : Except δ α → Call (Session D) (Unfinished ε) β}
    (hx : Call.Heeds sessionStops inv (Found stops) x y) (hquiet : Call.Quiet Session.store x)
    (hvalue : ∀ {s s' e}, x s ≠ (.err e, s'))
    (hok : ∀ a, Call.Heeds sessionStops inv Cancelled (f (.ok a)) (g (.ok a)))
    (hgoes : ∀ d, stops d = false →
      Call.Heeds sessionStops inv Cancelled (f (.error d)) (g (.error d)))
    (hends : ∀ d s, stops d = true → f (.error d) s = (.err .cancelled, s)) :
    Call.Heeds sessionStops inv Cancelled (x >>= f) (y >>= g) := by
  refine hx.bind hquiet (fun found hlive => ?_) (fun found s hstopped => ?_) fun h => absurd h hvalue
  · rcases found with d | a
    · exact hgoes d (Bool.eq_false_iff.mpr fun hstop => hlive ⟨d, rfl, hstop⟩)
    · exact hok a
  · obtain ⟨d, heq, hstop⟩ := hstopped
    cases heq
    exact ⟨_, hends d s hstop, rfl⟩

/-- What the node's questions heed and leave as a refusal that says so, taken as a value. -/
theorem heeds_asking_value {δ : Type} {stops : δ → Bool} (halts : Reply δ α → Prop)
    (hhalts : ∀ r, halts r ↔ ∃ d, r = .err d ∧ stops d = true) {x y : Keystore → Call Node δ α}
    (h : ∀ ks, Call.Heeds nodeStops (fun _ => True) halts (x ks) (y ks)) :
    Call.Heeds sessionStops inv (Found (ε := ε) stops) (asking (D := D) fun ks => (x ks).attempt)
      (asking fun ks => (y ks).attempt) := by
  have hfound : Found (ε := ε) (α := α) stops =
      fun r => ∃ found, r = .ok found ∧ halts (.ofExcept found) := by
    funext r
    simp only [Found, hhalts, eq_iff_iff]
    constructor
    · rintro ⟨d, rfl, hstop⟩
      exact ⟨_, rfl, d, rfl, hstop⟩
    · rintro ⟨found | found, rfl, d, hd, hstop⟩ <;> cases hd
      exact ⟨_, rfl, hstop⟩
  rw [hfound]
  exact heeds_asking fun ks => (h ks).attempt (by rw [hhalts]; rintro ⟨d, ⟨⟩, -⟩)

variable (inv) in
theorem heeds_reconcile {tag : Tag} {access : KeyAccess} {scope : ScanScope} :
    Call.Heeds sessionStops inv (Found (ε := ε) Divergence.stoppedByCancel)
      (asking (D := D) fun ks => (reconcileAccountWith ks tag access scope .when).attempt)
      (asking fun ks => (reconcileAccountWith ks tag access scope .never).attempt) :=
  heeds_asking_value _ (fun _ => .rfl) fun _ => reconcile_heeds

/-- A refusal taken as a value is no refusal. -/
theorem value_ne_err {δ : Type} {x : Keystore → Call Node δ α} {s s' : Session D} {e : ε} :
    asking (fun ks => (x ks).attempt) s ≠ (.err e, s') := by
  intro h
  rcases Call.attempt_cases (asking_cases h).2 with ⟨found, hr, -⟩ | ⟨hr, -⟩ <;> cases hr

/-! ## Opening -/

theorem openAccount_heeds {master : Option Secret} {part : Partition} {tag : Tag} :
    Call.Heeds sessionStops inv Cancelled (Wallet.openAccount (D := D) master .when part tag)
      (Wallet.openAccount master .never part tag) := by
  refine heeds_guard (.get_bind (fun s l => rfl) fun s => ?_)
  rcases accessFor s.store.ks tag master with d | access
  · exact .pure (not_cancelled_ok _)
  · refine found_bind _ (heeds_reconcile _) quiet_reconcile value_ne_err
      (fun status => .pure (not_cancelled_ok _)) (fun d hgoes => ?_) fun d s hstop => ?_
    · exact stopIf_heeds hgoes (.pure (not_cancelled_ok _))
    · dsimp only
      rw [hstop]
      rfl

theorem openAccounts_heeds {master : Option Secret} (tags : List Tag) : ∀ part,
    Call.Heeds sessionStops inv Cancelled (Wallet.openAccounts (D := D) master .when tags part)
      (Wallet.openAccounts master .never tags part) := by
  induction tags with
  | nil => exact fun part => .pure (not_cancelled_ok _)
  | cons tag tags ih =>
    exact fun part => openAccount_heeds.seq Wallet.quiet_openAccount not_cancelled_ok
      (fun _ => cancelled_err _) ih

theorem open_heeds {master : Option Secret} : Call.Heeds sessionStops inv Cancelled
    (Wallet.openAsking (D := D) master .when) (Wallet.openAsking master .never) := by
  refine .get_bind (fun s l => rfl) fun s => ?_
  rcases s.store.ks.tags with cause | tags
  · exact .refuse (by rintro ⟨⟩)
  · refine (openAccounts_heeds tags _).seq (Wallet.quiet_openAccounts tags _) not_cancelled_ok
      (fun _ => cancelled_err _) fun part => ?_
    exact .ite (.refuse (by rintro ⟨⟩)) (.pure (not_cancelled_ok _))

/-! ## Sweeping -/

theorem sight_heeds {master : Secret} {sightings : List Sighting} {account : UInt32} :
    Call.Heeds sessionStops inv Cancelled (sight (D := D) master sightings account)
      (sight master sightings account) := by
  refine found_bind (fun _ => false) (heeds_asking_value (fun _ => False) (by simp)
    fun _ => (deaf_resolveTag _).heeds fun _ _ h => h) (quiet_value resolveTag_not_killed) value_ne_err
    (fun entry => ?_) (fun cause _ => ?_) (fun _ _ h => by cases h) <;>
    refine .get_bind (fun s l => rfl) fun s => ?_
  · exact .pure (not_cancelled_ok _)
  · split
    · exact .pure (not_cancelled_ok _)
    · exact .pure (not_cancelled_ok _)
    · exact .refuse (by rintro ⟨⟩)

theorem sightAll_heeds {master : Secret} (accounts : List UInt32) : ∀ sightings,
    Call.Heeds sessionStops inv Cancelled (sightAll (D := D) master .when accounts sightings)
      (sightAll master .never accounts sightings) := by
  induction accounts with
  | nil => exact fun sightings => .pure (not_cancelled_ok _)
  | cons account accounts ih =>
    exact fun sightings => heeds_guard (sight_heeds.seq (quiet_sight _ _) not_cancelled_ok
      (fun _ => cancelled_err _) ih)

theorem sweep_heeds {master : Secret} {to' : UInt32} : Call.Heeds sessionStops inv Cancelled
    (sweepAsking (D := D) master to' .when) (sweepAsking master to' .never) :=
  (sightAll_heeds _ _).seq (quiet_sightAll _ _) not_cancelled_ok (fun _ => cancelled_err _)
    fun _ => .pure (not_cancelled_ok _)

/-! ## Restoring -/

theorem scan_not_killed {master : Secret} {accountIndex : UInt32} {scope : ScanScope} {cancel : Cancel}
    {n n' : Node} {r : Reply RestoreFailure RestoredAccount}
    (h : restoreAccountIndexWith master accountIndex scope cancel n = (r, n')) : r ≠ .killed := by
  rcases restoreAccountIndexWith_cases h with ⟨_, rfl⟩ | ⟨_, _, -, -, -, rfl⟩ <;> simp

/-- A store's method asks nothing. -/
theorem deaf_writing (x : Call (Opened D) ε α) : Call.Deaf sessionStops (writing x) := by
  refine ⟨fun {s s' r} h => ?_⟩
  obtain ⟨hnode, hx⟩ := writing_cases h
  refine ⟨congrArg Node.stops hnode, fun l => ?_⟩
  unfold writing Call.zoom sessionStops
  dsimp only
  rw [hx, hnode]

variable [Layout D]

theorem restoreAccount_heeds {master : Secret} {accountIndex : UInt32} {scanTo : Option UInt32} :
    Call.Heeds sessionStops inv Cancelled (restoreAsking (D := D) master accountIndex scanTo .when)
      (restoreAsking master accountIndex scanTo .never) := by
  refine heeds_guard (found_bind _ (heeds_asking_value _ (fun _ => .rfl) fun _ => restore_heeds master
    accountIndex) (quiet_value scan_not_killed) value_ne_err (fun found => ?_) (fun failure hgoes => ?_)
    fun failure s hstop => ?_)
  · refine .get_bind (fun s l => rfl) fun s => (Call.Heeds.check (not_cancelled_mapError _)).seq
      (Call.Quiet.check _) not_cancelled_ok (fun _ => cancelled_err _) fun view => ?_
    rcases view with _ | view
    · refine (Call.Heeds.check (not_cancelled_mapError _)).seq (Call.Quiet.check _) not_cancelled_ok
        (fun _ => cancelled_err _) fun account => heeds_guard ?_
      -- The one write comes after the last question; however it ends, it asked nothing.
      refine ((deaf_writing _).bind fun _ => .pure _).heeds fun _ h => ?_
      rcases Call.bind_cases h with ⟨_, _, -, hpure⟩ | ⟨e, hadd, rfl⟩ | ⟨-, rfl⟩
      · cases hpure
        exact not_cancelled_ok _
      · obtain ⟨r, -, hr⟩ := Call.mapErr_cases (writing_cases hadd).2
        cases r <;> cases hr
        rintro ⟨⟩
      · rintro ⟨⟩
    · exact .pure (not_cancelled_ok _)
  · exact stopIf_heeds hgoes (.refuse (by rintro ⟨⟩))
  · dsimp only
    rw [hstop]
    rfl

/-! ## Reviewing -/

/-- The next commit on the medium does not fail as a stop does. -/
def FailsPlainly (store : Opened D) : Prop :=
  ∀ image m, Layout.steps image store.medium ≠ (.err .cancelled, m)

omit [Crypto] [Layout D] in
theorem bind_ne_cancelled {x : Except Error α} {f : α → Except Error β} (hx : x ≠ .error .cancelled)
    (hf : ∀ a, f a ≠ .error .cancelled) : (x >>= f) ≠ .error .cancelled := by
  intro h
  rcases bind_eq_error.mp h with h | ⟨a, -, h⟩
  · exact hx h
  · exact hf a h

omit [Layout D] in
theorem imageOf_ne_cancelled (crypto : StoreCrypto) (p : Parsed) :
    imageOf crypto p ≠ .error .cancelled := by
  have hrecords (image : Bytes) (prev : Option Tag) (records : List RecordRef) :
      encodeRecords image prev records ≠ .error .cancelled := by
    induction records generalizing image prev with
    | nil => rintro ⟨⟩
    | cons record records ih =>
      unfold encodeRecords
      split
      · rintro ⟨⟩
      split
      · rintro ⟨⟩
      split
      · rintro ⟨⟩
      exact ih _ _
  have hlen (written expected : ℕ) : lenMatches written expected ≠ .error .cancelled := by
    unfold lenMatches
    split <;> rintro ⟨⟩
  have hsealed (key : Block keyLen) (nonce : Block nonceLen) (aad body : Bytes) :
      Keystore.aeadSeal key nonce aad body ≠ .error .cancelled := by
    unfold Keystore.aeadSeal
    split <;> rintro ⟨⟩
  have hkdf (kdf : Kdf) : kdf.checked ≠ .error .cancelled := by
    unfold Kdf.checked
    split
    · rintro ⟨⟩
    · split <;> rintro ⟨⟩
  unfold imageOf encode
  split
  · rintro ⟨⟩
  split
  · rintro ⟨⟩
  refine bind_ne_cancelled (hkdf _) fun kdf => bind_ne_cancelled (hlen _ _) fun _ =>
    bind_ne_cancelled (hrecords _ _ _) fun image => bind_ne_cancelled (hsealed _ _ _ _) fun sealed =>
    bind_ne_cancelled (hlen _ _) fun _ => ?_
  rintro ⟨⟩

theorem persistAdvanceTo_ne_cancelled {tag : Tag} {target : WotsIndex} {s t : Opened D}
    (hplain : FailsPlainly s) : persistAdvanceTo tag target s ≠ (.err .cancelled, t) := by
  intro h
  rcases hm : s.ks.memory with _ | p
  · obtain ⟨first, hstate⟩ := poisoned_of_memory hm
    rw [persistAdvanceTo, Call.get_bind, live, hstate] at h
    cases h
  have hnext : p.next (.persistAdvanceTo tag target) ≠ .error .cancelled := by
    refine bind_ne_cancelled ?_ fun slot => bind_ne_cancelled ?_ fun _ => ?_
    · unfold slotOf
      split <;> rintro ⟨⟩
    · unfold refuseOpen
      split <;> rintro ⟨⟩
    · split
      · rintro ⟨⟩
      refine bind_ne_cancelled ?_ fun g => by rintro ⟨⟩
      unfold nextGeneration
      split <;> rintro ⟨⟩
  rw [persistAdvanceTo_eq hm] at h
  rcases hnext' : p.next (.persistAdvanceTo tag target) with e | p'
  · rw [hnext'] at h
    cases h
    exact hnext hnext'
  rw [hnext', settle, install, Call.get_bind] at h
  rcases himage : imageOf s.ks.crypto p' with e | image
  · rw [himage] at h
    cases h
    exact imageOf_ne_cancelled _ _ himage
  rw [himage, Call.check_ok, Call.pure_bind, commit_bind] at h
  rcases hsteps : Layout.steps image s.medium with ⟨_ | e | _, m⟩ <;> rw [hsteps] at h <;> cases h
  exact hplain image m hsteps

omit [Crypto] in
theorem heeds_beforeWrite : Call.Heeds nodeStops (fun _ => True) (fun r => r = .err .cancelled)
    (beforeWrite .when) (beforeWrite .never) := by
  refine ⟨fun {n n' r} _ h => ?_⟩
  unfold beforeWrite at h
  rcases stop_when n with ⟨hstop, -⟩ | ⟨b, stops, hstops, hstop⟩ <;> rw [hstop] at h
  · cases h
    exact .inl ⟨.refl _, by simp, fun l => rfl⟩
  · cases b with
    | false =>
      cases h
      exact .inl ⟨⟨[false], hstops, by simp⟩, by simp, fun l => rfl⟩
    | true =>
      cases h
      exact .inr ⟨⟨⟨[], hstops, by simp⟩, rfl⟩, rfl⟩

/-- The last question, and the write after it. -/
theorem heeds_write {tag : Tag} {target : WotsIndex} :
    Call.Heeds sessionStops (FailsPlainly (D := D)) (fun r => r = .err .cancelled)
      (do asking fun _ => beforeWrite .when
          writing (persistAdvanceTo tag target))
      (do asking fun _ => beforeWrite .never
          writing (persistAdvanceTo tag target)) := by
  refine (heeds_asking fun _ => heeds_beforeWrite).seq (quiet_asking fun h => ?_) (by simp) (by simp)
    fun _ => (deaf_writing _).heeds fun {s s' r} hplain h hr => ?_
  · rcases (beforeWrite_cases h).2 with rfl | rfl <;> simp
  · subst hr
    exact persistAdvanceTo_ne_cancelled hplain (writing_cases h).2

omit [Crypto] in
/-- The answers heard between two nodes. -/
theorem heardStop_eq {n n' : Node} {asked : List Bool} (h : n.stops = asked ++ n'.stops) :
    heardStop n n' = asked.any id := by
  unfold heardStop
  rw [h]
  simp

omit [Crypto] in
/-- A stopped walk's report names no position to advance to. -/
theorem advanceTarget_of_stopped {d : Divergence} (h : d.stoppedByCancel = true) :
    d.advanceTarget = none := by
  unfold Divergence.stoppedByCancel at h
  split at h
  · rfl
  · rfl
  · cases h

/-- A review's re-check that was stopped refuses what was acknowledged, or says so before it writes;
otherwise it is the one that is never asked. -/
theorem advance_stops {tag : Tag} {access : KeyAccess} {ack : OperatorAcknowledgement}
    {scope : ScanScope} {s s' : Session D} {r : Reply Error AdvanceReceipt}
    (hplain : FailsPlainly s.store)
    (h : advanceAfterOperatorReview tag access ack scope .when .when s = (r, s')) :
    (sessionStops.Went s s' ∧ r ≠ .err .cancelled ∧ ∀ l,
        advanceAfterOperatorReview tag access ack scope .never .never (sessionStops.setAnswers l s) =
          (r, sessionStops.setAnswers l s')) ∨
      sessionStops.Halted s s' ∧ (r = .err .acknowledgementDoesNotMatch ∨ r = .err .cancelled) := by
  unfold advanceAfterOperatorReview at h ⊢
  rw [Call.ite_apply] at h
  split at h
  · next htag =>
    cases h
    exact .inl ⟨.refl _, by simp, fun l => by rw [if_pos htag]; rfl⟩
  next htag =>
  simp only [if_neg htag]
  rcases Call.bind_cases h with ⟨found, t, hasked, h⟩ | ⟨e, hasked, -⟩ | ⟨hasked, -⟩
  · have hstore := (asking_cases hasked).1
    rcases (heeds_reconcile fun _ => True).run trivial hasked with
      ⟨hwent, hlive, hsame⟩ | ⟨hhalted, d, hfound, hstop⟩
    · rcases found with d | status
      · dsimp only at h
        rw [Call.ite_apply] at h
        split at h
        · next htarget =>
          cases h
          refine .inl ⟨hwent, by simp, fun l => ?_⟩
          rw [Call.bind_of_ok (hsame l)]
          dsimp only
          rw [if_pos htarget]
          rfl
        next htarget =>
        rcases heeds_write.run (show FailsPlainly t.store by rwa [hstore]) h with
          ⟨hwent', hlive', hsame'⟩ | ⟨hhalted, hr⟩
        · refine .inl ⟨hwent.trans hwent', hlive', fun l => ?_⟩
          rw [Call.bind_of_ok (hsame l)]
          dsimp only
          rw [if_neg htarget, hsame' l]
        · exact .inr ⟨hwent.halted hstore hhalted, .inr hr⟩
      · cases h
        refine .inl ⟨hwent, by simp, fun l => ?_⟩
        rw [Call.bind_of_ok (hsame l)]
        rfl
    · cases hfound
      dsimp only at h
      rw [Call.ite_apply, if_pos (by rw [advanceTarget_of_stopped hstop]; simp)] at h
      cases h
      exact .inr ⟨hhalted, .inl rfl⟩
  · exact absurd hasked value_ne_err
  · exact absurd rfl (quiet_reconcile.keeps hasked).2

/-- How an advance's refusal is told: a stop that was heard is the caller's, the rest are findings. -/
def toldAs (cancel : Cancel) (heard : Bool) (e : Error) : Unfinished Error :=
  if cancel = .when ∧ (e = .cancelled ∨ heard ∧ e = .acknowledgementDoesNotMatch) then .cancelled
  else .refused e

theorem advanceNamed_eq {tag : Tag} {access : KeyAccess} {ack : OperatorAcknowledgement}
    {scope : ScanScope} {cancel : Cancel} {s t : Session D} {r : Reply Error AdvanceReceipt}
    (h : advanceAfterOperatorReview tag access ack scope cancel cancel s = (r, t)) :
    advanceNamed tag access ack scope cancel s =
      (r.mapErr (toldAs cancel (heardStop s.node t.node)), t) := by
  rw [advanceNamed, Call.get_bind, Call.bind_apply, Call.attempt, h]
  rcases r with receipt | e | _
  · rfl
  · dsimp only
    rw [Call.get_bind]
    generalize heardStop s.node t.node = heard
    generalize hadvanced : (.error e : Except Error AdvanceReceipt) = advanced
    split
    · cases hadvanced
    · cases hadvanced
      cases cancel <;> cases heard <;> rfl
    · cases hadvanced
      cases cancel <;> rfl
    · next hmatch hcancelled =>
      cases hadvanced
      have hmatch : e ≠ .acknowledgementDoesNotMatch := fun he => hmatch (he ▸ rfl)
      have hcancelled : e ≠ .cancelled := fun he => hcancelled (he ▸ rfl)
      simp [toldAs, Reply.mapErr, hmatch, hcancelled]
  · rfl

theorem advanceNamed_heeds {tag : Tag} {access : KeyAccess} {ack : OperatorAcknowledgement}
    {scope : ScanScope} : Call.Heeds sessionStops (FailsPlainly (D := D)) Cancelled
      (advanceNamed tag access ack scope .when) (advanceNamed tag access ack scope .never) := by
  refine ⟨fun {s s' r} hplain h => ?_⟩
  rcases hadvance : advanceAfterOperatorReview tag access ack scope .when .when s with ⟨r', t⟩
  rw [advanceNamed_eq hadvance] at h
  cases h
  rcases advance_stops hplain hadvance with ⟨hwent, hlive, hsame⟩ | ⟨hhalted, hr⟩
  · obtain ⟨asked, hasked, hno⟩ := hwent
    have hheard : heardStop s.node s'.node = false := by
      rw [heardStop_eq hasked]
      simpa using hno
    have hsaid : r'.mapErr (toldAs .when false) = r'.mapErr .refused := by
      rcases r' with _ | e | _
      · rfl
      · have he : e ≠ .cancelled := fun he => hlive (he ▸ rfl)
        simp [Reply.mapErr, toldAs, he]
      · rfl
    rw [hheard, hsaid]
    refine .inl ⟨⟨asked, hasked, hno⟩, ?_, fun l => ?_⟩
    · rcases r' with _ | _ | _ <;> rintro ⟨⟩
    · rw [advanceNamed_eq (hsame l)]
      rcases r' with _ | _ | _ <;> rfl
  · refine .inr ⟨hhalted, ?_⟩
    obtain ⟨⟨asked, hasked, -⟩, -⟩ := hhalted
    have hheard : heardStop s.node s'.node = true := by
      have hstops : s.node.stops = (asked ++ [true]) ++ s'.node.stops := by
        rw [List.append_assoc]
        exact hasked
      rw [heardStop_eq hstops]
      simp
    rw [hheard]
    rcases hr with rfl | rfl <;> rfl

omit [Layout D] in
/-- No stop keeps an account from being reconciled under its access. -/
theorem accessFor_error {ks : Keystore} {tag : Tag} {master : Option Secret} {d : Divergence}
    (h : accessFor ks tag master = .error d) : d.stoppedByCancel = false := by
  unfold accessFor at h
  rcases bind_eq_error.mp h with h | ⟨view, -, h⟩
  · unfold viewOf at h
    split at h <;> cases h <;> rfl
  · split at h
    · cases h
    · split at h <;> cases h
      rfl

omit [Layout D] in
theorem reviewAccount_heeds {tag : Tag} {scope : ScanScope} {master : Option Secret}
    {walked : Walked} {t : Tag} : Call.Heeds sessionStops inv Cancelled
      (reviewAccount (D := D) tag scope master .when walked t)
      (reviewAccount tag scope master .never walked t) := by
  have hwith : Call.Heeds sessionStops inv (Found Divergence.stoppedByCancel)
      (reconcileWith (D := D) t (if t = tag then scope else .diagnostic) master .when)
      (reconcileWith t (if t = tag then scope else .diagnostic) master .never) := by
    refine .get_bind (fun s l => rfl) fun s => ?_
    rcases haccess : accessFor s.store.ks t master with d | access
    · refine .pure ?_
      rintro ⟨d, ⟨⟩, hstop⟩
      rw [accessFor_error haccess] at hstop
      cases hstop
    · exact heeds_reconcile _
  refine heeds_guard (found_bind _ hwith quiet_reconcileWith (fun h => ?_)
    (fun status => .pure (not_cancelled_ok _)) (fun d hgoes => ?_) fun d s hstop => ?_)
  · rw [reconcileWith, Call.get_bind] at h
    rcases haccess : accessFor _ t master with d | access <;> rw [haccess] at h
    · cases h
    · exact value_ne_err h
  · exact stopIf_heeds hgoes (.pure (not_cancelled_ok _))
  · dsimp only
    rw [hstop]
    rfl

omit [Layout D] in
theorem reviewAccounts_heeds {tag : Tag} {scope : ScanScope} {master : Option Secret}
    (ts : List Tag) : ∀ walked, Call.Heeds sessionStops inv Cancelled
      (reviewAccounts (D := D) tag scope master .when ts walked)
      (reviewAccounts tag scope master .never ts walked) := by
  induction ts with
  | nil => exact fun walked => .pure (not_cancelled_ok _)
  | cons t ts ih =>
    exact fun walked => reviewAccount_heeds.seq quiet_reviewAccount not_cancelled_ok
      (fun _ => cancelled_err _) ih

theorem decideReview_heeds {tag : Tag} {master : Option Secret} {advanceTo : UInt32}
    {reports : List Divergence} {accounts : ℕ} {d : Divergence} :
    Call.Heeds sessionStops (FailsPlainly (D := D)) Cancelled
      (decideReview tag master advanceTo .when reports accounts d)
      (decideReview tag master advanceTo .never reports accounts d) := by
  unfold decideReview
  generalize reports.find? _ = other
  rcases other with _ | other
  swap
  · exact .pure (not_cancelled_ok _)
  rcases OperatorAcknowledgement.of d with _ | ack
  · exact .pure (not_cancelled_ok _)
  refine .ite (.pure (not_cancelled_ok _)) (.get_bind (fun s l => rfl) fun s => ?_)
  rcases accessFor s.store.ks tag master with e | access
  · exact .pure (not_cancelled_ok _)
  refine heeds_guard (advanceNamed_heeds.map fun r => ?_)
  rcases r with _ | _ | _ <;> simp [Cancelled, Reply.map]

theorem review_heeds {tag : Tag} {master : Option Secret} {advanceTo : UInt32} :
    Call.Heeds sessionStops (FailsPlainly (D := D)) Cancelled
      (reviewAsking tag master advanceTo .when) (reviewAsking tag master advanceTo .never) := by
  refine .get_bind (fun s l => rfl) fun s => (Call.Heeds.check (not_cancelled_mapError (f := id) _)).seq
    (Call.Quiet.check _) not_cancelled_ok (fun _ => cancelled_err _) fun tags =>
    .ite (.pure (not_cancelled_ok _)) ?_
  refine (reviewAccounts_heeds tags _).seq (quiet_reviewAccounts tags _) not_cancelled_ok
    (fun _ => cancelled_err _) fun walked => ?_
  rcases walked with ⟨reports, _ | d | status⟩
  · exact .pure (not_cancelled_ok _)
  · exact decideReview_heeds
  · exact .pure (not_cancelled_ok _)

/-! ## Every operation -/

/-- A cancel changes nothing of an operation but its ending. Of the answers the call took, a `true`
is the last if there is one; the call is then cancelled, with the store in memory and on the medium
as it was, and cancelled only then. Without one it is the form that is never asked. Watched, it is
itself. -/
structure EndsOnly (x : Cancel → Call (Session D) (Unfinished ε) α)
    (watched : Cancel → Call (Watching D) (Unfinished ε) α) (s : Session D) : Prop where
  heard : ∀ {r s'}, x .when s = (r, s') → ∃ asked, s.node.stops = asked ++ s'.node.stops ∧
    (r = .err .cancelled ↔ true ∈ asked) ∧
    (r = .err .cancelled → s'.store = s.store ∧ ∃ before, asked = before ++ [true] ∧ true ∉ before) ∧
    (true ∉ asked → x .never s = (r, { s' with node := { s'.node with stops := s.node.stops } }))
  watching : ∀ {cancel reached reports r w'}, watched cancel ⟨s, reached, reports⟩ = (r, w') →
    x cancel s = (r, w'.session)

omit [Layout D] in
variable (inv) in
theorem endsOnly_of_heeds {x : Cancel → Call (Session D) (Unfinished ε) α}
    {watched : Cancel → Call (Watching D) (Unfinished ε) α} {s : Session D}
    (hx : Call.Heeds sessionStops inv Cancelled (x .when) (x .never)) (hinv : inv s.store)
    (hwatched : ∀ cancel, Call.Over Watching.Of (watched cancel) (x cancel)) :
    EndsOnly x watched s where
  heard := by
    intro r s' h
    rcases hx.run hinv h with ⟨⟨asked, hasked, hno⟩, hlive, hsame⟩ | ⟨⟨⟨asked, hasked, hno⟩, hstore⟩, hr⟩
    · exact ⟨asked, hasked, iff_of_false hlive hno, fun hr => absurd hr hlive,
        fun _ => hsame s.node.stops⟩
    · refine ⟨asked ++ [true], by rw [List.append_assoc]; exact hasked, iff_of_true hr (by simp),
        fun _ => ⟨hstore, asked, rfl, hno⟩, fun hnot => absurd (by simp) hnot⟩
  watching := by
    intro cancel reached reports r w' h
    have hof : Watching.Of ⟨s, reached, reports⟩ s := rfl
    obtain ⟨s', hs', rfl⟩ := (hwatched cancel).run hof h
    exact hs'

/-- Cancelling an open, a restore, an acknowledged advance or a sweep changes nothing of it but its
ending, whatever the store, the node and the caller's answers. -/
theorem cancel_changes_the_ending (s : Session D) (hplain : FailsPlainly s.store) :
    (∀ master, EndsOnly (Wallet.openAsking master) (Watching.openAsking master) s) ∧
    (∀ master accountIndex scanTo, EndsOnly (restoreAsking master accountIndex scanTo)
      (Watching.restoreAsking master accountIndex scanTo) s) ∧
    (∀ tag master advanceTo, EndsOnly (reviewAsking tag master advanceTo)
      (Watching.reviewAsking tag master advanceTo) s) ∧
    (∀ master to', EndsOnly (sweepAsking master to') (Watching.sweepAsking master to') s) := by
  refine ⟨fun master => ?_, fun master accountIndex scanTo => ?_, fun tag master advanceTo => ?_,
    fun master to' => ?_⟩
  · exact endsOnly_of_heeds (fun _ => True) open_heeds trivial fun _ => Watching.over_open
  · exact endsOnly_of_heeds (fun _ => True) restoreAccount_heeds trivial
      fun _ => Watching.over_restoreAccount
  · exact endsOnly_of_heeds _ review_heeds hplain fun _ => Watching.over_review
  · exact endsOnly_of_heeds (fun _ => True) sweep_heeds trivial fun _ => Watching.over_sweep

end

/-! ## A directory that fails with its own errors -/

section
variable {α β : Type}

/-- No operation to come on the directory fails as a stop does. -/
def PlainFates (m : UnixMedium) : Prop := ∀ took left, Fate.failed took left .cancelled ∉ m.fates

/-- A call that passes the directory's errors on. -/
structure Plainly (x : Call UnixMedium Error α) : Prop where
  run : ∀ {m m' : UnixMedium} {r : Reply Error α}, PlainFates m → x m = (r, m') →
    r ≠ .err .cancelled ∧ PlainFates m'

theorem Plainly.step (call : MediumCall) (a : α) (effect : Disk → Disk)
    (short : Option Bytes → Disk → Disk) : Plainly (mediumStep call a effect short) := by
  refine ⟨fun {m m' r} hplain h => ?_⟩
  have htail {fate : Fate} {fates : List Fate} (hfates : m.fates = fate :: fates) (took : Bool)
      (left : Option Bytes) : Fate.failed took left .cancelled ∉ fates := fun hmem =>
    hplain took left (hfates ▸ List.mem_cons_of_mem _ hmem)
  unfold mediumStep at h
  rcases hfates : m.fates with _ | ⟨_ | ⟨took, left, e⟩ | ⟨took, left⟩, fates⟩ <;>
    rw [hfates] at h <;> cases h
  · exact ⟨by simp, fun _ _ => List.not_mem_nil⟩
  · exact ⟨by simp, htail hfates⟩
  · refine ⟨fun he => ?_, htail hfates⟩
    cases he
    exact hplain took left (hfates ▸ List.mem_cons_self)
  · exact ⟨by simp, htail hfates⟩

theorem Plainly.bind {x : Call UnixMedium Error α} {f : α → Call UnixMedium Error β} (hx : Plainly x)
    (hf : ∀ a, Plainly (f a)) : Plainly (x >>= f) := by
  refine ⟨fun hplain h => ?_⟩
  rcases Call.bind_cases h with ⟨a, u, hu, h⟩ | ⟨e, hu, rfl⟩ | ⟨hu, rfl⟩ <;>
    obtain ⟨hlive, hu⟩ := hx.run hplain hu
  · exact (hf a).run hu h
  · exact ⟨fun he => hlive (by rw [Reply.err.inj he]), hu⟩
  · exact ⟨by simp, hu⟩

theorem failsPlainly_unix [Crypto] {store : Opened UnixMedium} (h : PlainFates store.medium) :
    FailsPlainly store := by
  intro image m hsteps
  have hplain : Plainly (Layout.steps (D := UnixMedium) image) :=
    (Plainly.step ..).bind fun _ => (Plainly.step ..).bind fun _ => (Plainly.step ..).bind fun _ =>
      Plainly.step ..
  exact (hplain.run h hsteps).1 rfl

end

section
attribute [local instance] Crypto.copying

theorem plainFates_grown {commands : ℕ} {store : Opened UnixMedium} (h : grown commands = some store) :
    PlainFates store.medium := by
  obtain ⟨ks, -, rfl⟩ := Option.map_eq_some_iff.mp h
  exact fun _ _ => List.not_mem_nil

/-- A session on a store of two accounts, of which the node has the derived one a position ahead, with a
caller that will answer `stops`. -/
def aheadWith (store : Opened UnixMedium) (stops : List Bool) : Session UnixMedium :=
  let second : LedgerEntry := ⟨derivedAddressAt sevens 0 ⟨1⟩, 5⟩
  ⟨store, ⟨[.error Node.silence, .ok second, .ok second], [], [], stops, []⟩⟩

/-- The review of that account, which is to be advanced. -/
def reviewFirst (cancel : Cancel) : Call (Session UnixMedium) (Unfinished Error) Reviewed :=
  reviewAsking (Account.derive sevens 0).tag (some sevens) 1 cancel

/-- How it ends, and what the caller was not asked for. -/
def endOfReview (store : Opened UnixMedium) (stops : List Bool) :
    Reply (Unfinished Error) Outcome × List Bool :=
  let run := reviewFirst .when (aheadWith store stops)
  (run.1.map Reviewed.outcome, run.2.node.stops)

/-- A caller who says stop at the last question, between the match and the write, has the store as it was;
one who never does has the advance of the form that asks nobody. -/
theorem cancel_changes_the_ending_ahead : ∃ store : Opened UnixMedium, FailsPlainly store ∧
    (∃ s', reviewFirst .when (aheadWith store (List.replicate 7 false ++ [true])) = (.err .cancelled, s') ∧
      s'.node.stops = [] ∧ s'.store = store) ∧
    ∃ reviewed s' t, reviewFirst .when (aheadWith store (List.replicate 8 false)) = (.ok reviewed, s') ∧
      reviewed.outcome = .advanced 1 ∧
      reviewFirst .never (aheadWith store (List.replicate 8 false)) = (.ok reviewed, t) ∧
      t.store = s'.store := by
  have hrun : (grown 4).map (fun store => (endOfReview store (List.replicate 7 false ++ [true]),
      endOfReview store (List.replicate 8 false))) =
      some ((.err .cancelled, []), (.ok (.advanced 1), [])) := by decide +kernel
  obtain ⟨store, hstore, hends⟩ := Option.map_eq_some_iff.mp hrun
  have hplain : FailsPlainly store := failsPlainly_unix (plainFates_grown hstore)
  have hstopped := congrArg Prod.fst hends
  have hwent := congrArg Prod.snd hends
  unfold endOfReview at hstopped hwent
  rcases hfirst : reviewFirst .when (aheadWith store (List.replicate 7 false ++ [true])) with ⟨r, s'⟩
  rcases hsecond : reviewFirst .when (aheadWith store (List.replicate 8 false)) with ⟨r', t'⟩
  rw [hfirst] at hstopped
  rw [hsecond] at hwent
  obtain ⟨hr, hleft⟩ := Prod.mk.inj hstopped
  obtain ⟨hr', hleft'⟩ := Prod.mk.inj hwent
  rcases r with reviewed | e | _ <;> cases hr
  rcases r' with reviewed | e | _
  rotate_left
  · cases hr'
  · cases hr'
  have hends := fun stops => (cancel_changes_the_ending (aheadWith store stops) hplain).2.2.1
    (Account.derive sevens 0).tag (some sevens) 1
  obtain ⟨stopped, -, -, hkept, -⟩ := (hends _).heard hfirst
  obtain ⟨asked, -, hiff, -, hsame⟩ := (hends _).heard hsecond
  have hnever := hsame fun hmem => by cases hiff.mpr hmem
  exact ⟨store, hplain, ⟨s', hfirst, hleft, (hkept rfl).1⟩, reviewed, t', _, hsecond, Reply.ok.inj hr',
    hnever, rfl⟩

end

end MochimoWallet.Cli
