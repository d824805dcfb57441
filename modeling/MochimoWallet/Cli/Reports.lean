import MochimoWallet.Cli.Watched
import MochimoWallet.Lib.Meter
import MochimoWallet.Recon.Reach

/-!
# What is reported of a walk

A walk asks once for each position, so what it is counted to have reached is no more than the
positions of its scope (`walk_counts`), and no report of a walk is past the ceiling it names:
`reports_open`, `reports_restore`, `reports_review` and `reports_sweep` say it of every report that
an operation makes, whatever the node and the caller answer.
-/

namespace MochimoWallet.Watching

open Codec Words Keystore Session Cli

/-- A report about `at'`, of a position no further than `n`. -/
def Upto (at' : Progress) (n : ℕ) (p : Progress) : Prop :=
  ∃ k, p = { at' with position := k } ∧ k.toNat ≤ n

/-- A report whose position is within its ceiling. -/
def Within (p : Progress) : Prop := p.position.toNat ≤ p.ceiling.toNat

theorem Upto.mono {at' : Progress} {m n : ℕ} {p : Progress} (h : Upto at' m p) (hmn : m ≤ n) :
    Upto at' n p := by
  obtain ⟨k, hk, hle⟩ := h
  exact ⟨k, hk, hle.trans hmn⟩

variable [Crypto] {D ε α : Type} {cancel : Cancel} {at' : Progress}

/-- The positions reached are counted, and the reports are the log. -/
def meter : Call.Meter (Watching D) Progress := ⟨fun w => w.reached.toNat, Watching.reports⟩

/-! ## One asking, and a walk -/

/-- An asking counts one, and reports no more than it has counted. -/
theorem stop_counts (w : Watching D) :
    (w.stop cancel at').2.reached.toNat ≤ w.reached.toNat + 1 ∧
      ∃ new, (w.stop cancel at').2.reports = w.reports ++ new ∧
        ∀ p ∈ new, Upto at' (w.reached.toNat + 1) p := by
  have hle : (saturatingAdd32 w.reached 1).toNat ≤ w.reached.toNat + 1 := toNat_saturatingAdd32_le _ _
  refine ⟨hle, ?_⟩
  by_cases hdue : saturatingAdd32 w.reached 1 % progressEvery = 0
  · refine ⟨[{ at' with position := saturatingAdd32 w.reached 1 }], if_pos hdue, fun p hp => ?_⟩
    rw [List.mem_singleton.mp hp]
    exact ⟨_, rfl, hle⟩
  · exact ⟨[], by rw [List.append_nil]; exact if_neg hdue, fun _ hp => by cases hp⟩

/-- A walk counts no more than its positions. -/
theorem walk_counts {target : Address} {addressAt : WotsIndex → Except Error Address}
    {ps : List WotsIndex} {w w' : Watching D} {found : Walk}
    (h : walk cancel at' target addressAt ps w = (found, w')) :
    w'.reached.toNat ≤ w.reached.toNat + ps.length ∧
      ∃ new, w'.reports = w.reports ++ new ∧ ∀ p ∈ new, Upto at' (w.reached.toNat + ps.length) p := by
  induction ps generalizing w with
  | nil =>
    cases h
    exact ⟨le_rfl, [], (List.append_nil _).symm, fun _ hp => by cases hp⟩
  | cons q ps ih =>
    obtain ⟨hreached, new, hreports, hnew⟩ : (w.stop cancel at').2.reached.toNat ≤ w.reached.toNat + 1 ∧
      ∃ new, (w.stop cancel at').2.reports = w.reports ++ new ∧
        ∀ p ∈ new, Upto at' (w.reached.toNat + 1) p := stop_counts w
    have hone : (q :: ps).length = ps.length + 1 := rfl
    -- Where the walk ends at `q`, it has asked once.
    have hends : (w.stop cancel at').2.reached.toNat ≤ w.reached.toNat + (q :: ps).length ∧
        ∃ new, (w.stop cancel at').2.reports = w.reports ++ new ∧
          ∀ p ∈ new, Upto at' (w.reached.toNat + (q :: ps).length) p :=
      ⟨by omega, new, hreports, fun p hp => (hnew p hp).mono (by omega)⟩
    unfold walk at h
    rcases hstop : w.stop cancel at' with ⟨b, u⟩
    rw [hstop] at h hreached hreports hends
    cases b with
    | true =>
      cases h
      exact hends
    | false =>
      dsimp only at h
      rcases haddress : addressAt q with cause | a <;> rw [haddress] at h <;> dsimp only at h
      · cases h
        exact hends
      · split at h
        · cases h
          exact hends
        · obtain ⟨hreached', more, hreports', hmore⟩ := ih h
          refine ⟨by dsimp only at *; omega, new ++ more, ?_, fun p hp => ?_⟩
          · rw [hreports', hreports, List.append_assoc]
          · rcases List.mem_append.mp hp with hp | hp
            · exact (hnew p hp).mono (by omega)
            · exact (hmore p hp).mono (by dsimp only at *; omega)

/-! ## The calls that walk -/

theorem still_on {x : Call (Session D) ε α} {w w' : Watching D} {r : Reply ε α}
    (h : on x w = (r, w')) : meter.count w' = meter.count w ∧ meter.log w' = meter.log w := by
  obtain ⟨s, -, rfl⟩ := Call.zoom_cases h
  exact ⟨rfl, rfl⟩

theorem ticks_locate {chain : Address} {stored : WotsIndex} {scope : ScanScope}
    {addressAt : WotsIndex → Except Error Address} :
    Call.Ticks meter (Upto at') (scope.positions (some stored)).length
      (locate (D := D) (ε := ε) cancel at' chain stored scope addressAt) := by
  refine ⟨fun {w w' r} h => ?_⟩
  unfold locate at h
  rcases hwalk : walk cancel at' chain addressAt (scope.positions (some stored)) w with ⟨found, u⟩
  have hcounts := walk_counts hwalk
  rw [hwalk] at h
  cases found <;> cases h <;> exact hcounts

section
variable {ks : Keystore} {tag : Tag} {access : KeyAccess} {scope : ScanScope} {view : AccountView}
  {entry : LedgerEntry} {stream : StreamId}

theorem ticks_reconcileClosed :
    Call.Ticks meter (Upto at') (scope.positions (some view.wotsIndex)).length
      (reconcileClosed (D := D) cancel at' ks tag access scope view entry stream) := by
  refine .check_bind fun storedAddress _ => .ite (.pure _) (ticks_locate.bind_still fun h => ?_)
  cases h
  exact ⟨rfl, rfl⟩

theorem ticks_reconcileOpen (pending : Pending) :
    Call.Ticks meter (Upto at') (scope.positions (some view.wotsIndex)).length
      (reconcileOpen (D := D) cancel at' ks tag access scope view entry stream pending) := by
  refine .check_bind fun spentAddress _ => .ite ?_ (.check_bind fun changeAddress _ =>
    .ite (.pure _) (ticks_locate.bind_still fun h => ?_))
  · rcases pending.figures with _ | figures
    · exact .pure _
    · exact .still still_on
  · cases h
    exact ⟨rfl, rfl⟩

/-- A reconciliation walks once at most, around the index the store has. -/
theorem ticks_reconcile :
    Call.Ticks meter (Upto at') (scope.positions (storedIndex ks tag)).length
      (reconcileAccountWith (D := D) cancel at' ks tag access scope) := by
  refine .check_bind fun view hview => .still_bind still_on fun entry => .check_bind fun stream _ => ?_
  have hstored : storedIndex ks tag = some view.wotsIndex := by
    unfold viewOf at hview
    rcases hfound : ks.view tag with e | _ | found <;> rw [hfound] at hview <;> cases hview
    rw [storedIndex, hfound]
  rw [hstored]
  rcases view.pending with _ | pending
  · exact ticks_reconcileClosed
  · exact ticks_reconcileOpen pending

theorem ticks_restore {master : Secret} {accountIndex : UInt32} :
    Call.Ticks meter (Upto at') (scope.positions none).length
      (restoreAccountIndexWith (D := D) cancel at' master accountIndex scope) := by
  refine ⟨fun {w w' r} h => ?_⟩
  unfold restoreAccountIndexWith at h
  dsimp only at h
  rcases hasked : asking (fun _ => Node.resolveTag (deriveAccount master accountIndex).tag) w with
    ⟨answer, u⟩
  obtain ⟨hcount, hlog⟩ := still_on hasked
  have hstill : meter.count u ≤ meter.count w + (scope.positions none).length ∧
      ∃ new, meter.log u = meter.log w ++ new ∧
        ∀ p ∈ new, Upto at' (meter.count w + (scope.positions none).length) p :=
    ⟨by omega, [], by rw [hlog, List.append_nil], fun _ hp => by cases hp⟩
  rw [hasked] at h
  rcases answer with entry | cause | _
  · dsimp only at h
    rcases hwalk : walk cancel at' entry.address
      (fun p => .ok (derivedAddressAt master accountIndex p)) (scope.positions none) u with ⟨found, v⟩
    have hcounts := walk_counts hwalk
    have hwalked : meter.count v ≤ meter.count w + (scope.positions none).length ∧
        ∃ new, meter.log v = meter.log w ++ new ∧
          ∀ p ∈ new, Upto at' (meter.count w + (scope.positions none).length) p := by
      rw [← hcount, ← hlog]
      exact hcounts
    rw [hwalk] at h
    cases found <;> cases h <;> exact hwalked
  · split at h <;> next heq => cases heq <;> cases h <;> exact hstill
  · cases h
    exact hstill

/-! ## Under a watch -/

/-- What a watched walk reports is about its account, and no further than the walk can reach. -/
theorem logs_watched {n : ℕ} {x : Call (Watching D) ε α} (hx : Call.Ticks meter (Upto at') n x)
    (w : Watching D) : Call.Logs meter (Upto at' n) (watched x) w := by
  refine .modify_bind [] (List.append_nil _).symm (fun _ hp => by cases hp) ?_
  exact hx.logs rfl

/-- The store's own reconciliation, counted from none. -/
theorem logs_reading_reconcile (w : Watching D) :
    Call.Logs meter (Upto at' (scope.reach (storedIndex w.session.store.ks tag)).toNat)
      (reading fun ks => (reconcileAccountWith cancel at' ks tag access scope).attempt :
        Call (Watching D) ε _) { w with reached := 0 } := by
  refine .get_bind ?_
  rw [ScanScope.toNat_reach]
  exact ticks_reconcile.attempt.logs rfl

theorem logs_watched_reconcile (w : Watching D) :
    Call.Logs meter (Upto at' (scope.reach (storedIndex w.session.store.ks tag)).toNat)
      (watched (reading fun ks =>
        (reconcileAccountWith cancel at' ks tag access scope).attempt) : Call (Watching D) ε _) w :=
  .modify_bind [] (List.append_nil _).symm (fun _ hp => by cases hp) (logs_reading_reconcile w)

theorem logs_watched_restore {master : Secret} {accountIndex : UInt32} (w : Watching D) :
    Call.Logs meter (Upto at' (scope.reach none).toNat)
      (watched (reading fun _ =>
        (restoreAccountIndexWith cancel at' master accountIndex scope).attempt) :
          Call (Watching D) ε _) w := by
  refine .modify_bind [] (List.append_nil _).symm (fun _ hp => by cases hp) (.get_bind ?_)
  rw [ScanScope.toNat_reach]
  exact ticks_restore.attempt.logs rfl

theorem logs_on {P : Progress → Prop} {x : Call (Session D) ε α} {w : Watching D} :
    Call.Logs meter P (on x) w :=
  .still fun h => (still_on h).2

/-- A review's own re-check, under a watch: the write that may follow it reports nothing. -/
theorem logs_watched_advance [Layout D] {ack : OperatorAcknowledgement} (w : Watching D) :
    Call.Logs meter (Upto at' (scope.reach (storedIndex w.session.store.ks tag)).toNat)
      (watched (advanceAfterOperatorReview cancel at' tag access ack scope)) w := by
  refine .modify_bind [] (List.append_nil _).symm (fun _ hp => by cases hp)
    (.ite (.refuse _) ((logs_reading_reconcile w).bind fun found u => ?_))
  rcases found with d | status
  · exact .ite (.refuse _) (logs_on.bind fun _ _ => logs_on)
  · exact .refuse _

end

/-! ## The operations -/

section
variable {w : Watching D} {master : Option Secret} {tag : Tag}

omit [Crypto] in
theorem within_of_upto {here : Progress} {p : Progress} (h : Upto here here.ceiling.toNat p) :
    Within p := by
  obtain ⟨k, rfl, hk⟩ := h
  exact hk

/-- A report is made where nothing has been reached, and what follows it. -/
theorem logs_report {here : Progress} {f : Unit → Call (Watching D) ε α}
    (hhere : here.position = 0)
    (h : Call.Logs meter Within (f ()) { w with reports := w.reports ++ [here] }) :
    Call.Logs meter Within (report here >>= f) w := by
  refine .modify_bind [here] rfl (fun p hp => ?_) h
  rw [List.mem_singleton.mp hp, Within, hhere]
  exact Nat.zero_le _

theorem logs_stopIf {P : Progress → Prop} {stop : Bool} :
    Call.Logs meter P (Wallet.stopIf (ε := ε) stop cancel : Call (Watching D) _ _) w :=
  .ite (.check _) (.pure _)

/-- Asking whether to stop, and what follows. -/
theorem logs_guard {f : Unit → Call (Watching D) (Unfinished ε) α}
    (h : ∀ w, Call.Logs meter Within (f ()) w) :
    Call.Logs meter Within
      (do let stop ← asking fun _ => Wallet.askStop cancel
          let u ← Wallet.stopIf stop cancel
          f u) w :=
  logs_on.bind fun _ _ => logs_stopIf.bind fun _ u => h u

theorem logs_openAccount {accounts n : ℕ} {part : Partition} :
    Call.Logs meter Within (openAccount master cancel accounts n part tag) w := by
  refine logs_guard fun w => .get_bind (logs_report rfl ?_)
  rcases accessFor w.session.store.ks tag master with d | access
  · exact .pure _
  refine ((logs_watched_reconcile _).mono fun _ => within_of_upto).bind fun found _ => ?_
  rcases found with d | status
  · exact logs_stopIf.bind fun _ _ => .pure _
  · exact .pure _

theorem logs_openAccounts {accounts : ℕ} (tags : List Tag) (n : ℕ) (part : Partition)
    (w : Watching D) :
    Call.Logs meter Within (openAccounts master cancel accounts n tags part) w := by
  induction tags generalizing n part w with
  | nil => exact .pure _
  | cons tag tags ih => exact logs_openAccount.bind fun part w => ih (n + 1) part w

/-- Every report an open makes is within its ceiling. -/
theorem reports_open : Call.Logs meter Within (openAsking master cancel) w := by
  refine .get_bind ?_
  rcases w.session.store.ks.tags with cause | tags
  · exact .refuse _
  · exact (logs_openAccounts tags 0 _ w).bind fun _ _ => .ite (.refuse _) (.pure _)

theorem logs_reconcileWith {scope : ScanScope} {accounts n : ℕ} :
    Call.Logs meter Within (reconcileWith tag scope master cancel accounts n) w := by
  refine .get_bind (logs_report rfl ?_)
  rcases accessFor w.session.store.ks tag master with d | access
  · exact .pure _
  · exact (logs_watched_reconcile _).mono fun _ => within_of_upto

theorem logs_reviewAccount {scope : ScanScope} {accounts n : ℕ} {walked : Walked} {t : Tag} :
    Call.Logs meter Within (reviewAccount tag scope master cancel accounts n walked t) w := by
  refine logs_guard fun w => logs_reconcileWith.bind fun result _ => ?_
  rcases result with d | status
  · exact logs_stopIf.bind fun _ _ => .pure _
  · exact .pure _

theorem logs_reviewAccounts {scope : ScanScope} {accounts : ℕ} (ts : List Tag) (n : ℕ)
    (walked : Walked) (w : Watching D) :
    Call.Logs meter Within (reviewAccounts tag scope master cancel accounts n ts walked) w := by
  induction ts generalizing n walked w with
  | nil => exact .pure _
  | cons t ts ih => exact logs_reviewAccount.bind fun walked w => ih (n + 1) walked w

theorem reports_sightAll {master : Secret} {to' : UInt32} (accounts : List UInt32)
    (sightings : List Sighting) (w : Watching D) :
    Call.Logs meter Within (sightAll master to' cancel accounts sightings) w := by
  induction accounts generalizing sightings w with
  | nil => exact .pure _
  | cons account accounts ih =>
    exact logs_guard fun w => logs_report rfl (logs_on.bind fun sightings w => ih sightings w)

/-- Every report a sweep makes is of a position it names a ceiling of none for. -/
theorem reports_sweep {master : Secret} {to' : UInt32} :
    Call.Logs meter Within (sweepAsking master to' cancel) w :=
  (reports_sightAll _ _ w).bind fun _ _ => .pure _

variable [Layout D]

/-- Every report a restore makes is within its ceiling. -/
theorem reports_restore {master : Secret} {accountIndex : UInt32} {scanTo : Option UInt32} :
    Call.Logs meter Within (restoreAsking master accountIndex scanTo cancel) w := by
  refine logs_guard fun w => logs_report rfl
    (((logs_watched_restore _).mono fun _ => within_of_upto).bind fun scanned _ => ?_)
  rcases scanned with failure | found
  · exact logs_stopIf.bind fun _ _ => .refuse _
  refine .get_bind (.bind (.check _) fun view _ => ?_)
  rcases view with _ | view
  · exact .bind (.check _) fun _ _ => logs_guard fun w => logs_on.bind fun _ _ => .pure _
  · exact .pure _

theorem logs_advanceNamed {access : KeyAccess} {ack : OperatorAcknowledgement} {scope : ScanScope}
    {here : Progress}
    (hhere : here.ceiling = scope.reach (storedIndex w.session.store.ks tag)) :
    Call.Logs meter Within (advanceNamed tag access ack scope cancel here) w := by
  refine .get_bind (.bind (.attempt ?_) fun advanced u => .get_bind ?_)
  · have hwatched : Call.Logs meter (Upto here here.ceiling.toNat)
        (watched (advanceAfterOperatorReview cancel here tag access ack scope)) w := by
      rw [hhere]
      exact logs_watched_advance w
    exact hwatched.mono fun _ => within_of_upto
  · split
    · exact .pure _
    · exact logs_stopIf.bind fun _ _ => .refuse _
    · exact logs_stopIf.bind fun _ _ => .refuse _
    · exact .refuse _

theorem logs_decideReview {advanceTo : UInt32} {reports : List Divergence} {tags : List Tag}
    {d : Divergence} :
    Call.Logs meter Within (decideReview tag master advanceTo cancel reports tags d) w := by
  unfold decideReview
  generalize reports.find? _ = other
  rcases other with _ | other
  swap
  · exact .pure _
  rcases OperatorAcknowledgement.of d with _ | ack
  · exact .pure _
  refine .ite (.pure _) (.get_bind ?_)
  rcases accessFor w.session.store.ks tag master with e | access
  · exact .pure _
  · exact logs_guard fun w => .get_bind (logs_report rfl
      ((logs_advanceNamed rfl).bind fun _ _ => .pure _))

/-- Every report a review makes is within its ceiling. -/
theorem reports_review {advanceTo : UInt32} :
    Call.Logs meter Within (reviewAsking tag master advanceTo cancel) w := by
  refine .get_bind (.bind (.check _) fun tags w => .ite (.pure _)
    ((logs_reviewAccounts tags 0 _ w).bind fun walked _ => ?_))
  rcases walked with ⟨reports, _ | d | status⟩
  · exact .pure _
  · exact logs_decideReview
  · exact .pure _

/-! ## A scan -/

/-- A scan visits each position once, as many as its reach, and whatever walks it under a watch
reports no position past that reach: the walk on its own, and the three calls that make one. -/
theorem scan_visits_each_once (scope : ScanScope) (stored : Option WotsIndex) :
    (∃ window below, scope.positions stored = window ++ below ∧
      (∀ i, i ∈ window ↔ scope.InWindow stored i) ∧
      (∀ i, i ∈ below ↔ i.pos < scope.ceiling.toNat ∧ ¬ scope.InWindow stored i) ∧
      (window.Pairwise fun a b => a.pos < b.pos) ∧ below.Pairwise fun a b => a.pos < b.pos) ∧
    (∀ i, i ∈ scope.positions stored ↔ scope.InWindow stored i ∨ i.pos < scope.ceiling.toNat) ∧
    (scope.positions stored).Nodup ∧ (∀ i ∈ scope.positions stored, i.pos ≠ u32Max) ∧
    (∃ total, scope.reachTotal stored = some total ∧ scope.reach stored = countOf total.toNat) ∧
    (scope.reach stored).toNat = (scope.positions stored).length ∧
    ∀ (w : Watching D) (cancel : Cancel) (at' : Progress),
      (∀ target addressAt, Call.Logs meter (Upto at' (scope.reach stored).toNat)
        (watched (.of fun w => (.ok (walk cancel at' target addressAt (scope.positions stored) w).1,
          (walk cancel at' target addressAt (scope.positions stored) w).2)) :
            Call (Watching D) Error Walk) w) ∧
      (∀ tag access, Call.Logs meter
        (Upto at' (scope.reach (storedIndex w.session.store.ks tag)).toNat)
        (watched (reading fun ks =>
          (reconcileAccountWith cancel at' ks tag access scope).attempt) :
            Call (Watching D) Error _) w) ∧
      (∀ master accountIndex, Call.Logs meter (Upto at' (scope.reach none).toNat)
        (watched (reading fun _ =>
          (restoreAccountIndexWith cancel at' master accountIndex scope).attempt) :
            Call (Watching D) Error _) w) ∧
      ∀ tag access ack, Call.Logs meter
        (Upto at' (scope.reach (storedIndex w.session.store.ks tag)).toNat)
        (watched (advanceAfterOperatorReview cancel at' tag access ack scope)) w := by
  have hmax : u32Max = 2 ^ 32 - 1 := rfl
  refine ⟨⟨_, _, scope.positions_eq, fun i => ?_, fun i => ?_,
    ScanScope.pairwise_pos ScanScope.pairwise_windowNats fun _ => ScanScope.lt_of_mem_windowNats,
    ScanScope.pairwise_pos ScanScope.pairwise_belowNats fun _ => ScanScope.lt_of_mem_belowNats⟩,
    fun i => ScanScope.mem_positions_iff, ScanScope.nodup_positions, fun i hi => ?_, ?_,
    ScanScope.toNat_reach, fun w cancel at' => ⟨fun target addressAt => ?_, fun tag access =>
      logs_watched_reconcile w, fun master accountIndex => logs_watched_restore w,
      fun tag access ack => logs_watched_advance w⟩⟩
  · rw [mem_map_positions fun j hj => by have := ScanScope.lt_of_mem_windowNats hj; omega,
      ScanScope.mem_windowNats]
  · rw [mem_map_positions fun j hj => by have := ScanScope.lt_of_mem_belowNats hj; omega,
      ScanScope.mem_belowNats]
  · have hceiling := scope.ceiling.toNat_lt
    rcases ScanScope.mem_positions_iff.mp hi with ⟨-, -, -, -, -, -, hne⟩ | hlt
    · exact hne
    · omega
  · obtain ⟨total, htotal, -⟩ : ∃ total, scope.reachTotal stored = some total ∧
        total.toNat = (scope.positions stored).length := ScanScope.reachTotal_eq
    exact ⟨total, htotal, ScanScope.reach_of_reachTotal htotal⟩
  · rw [ScanScope.toNat_reach]
    refine logs_watched ⟨fun h => ?_⟩ w
    cases h
    exact walk_counts rfl

end

end MochimoWallet.Watching
