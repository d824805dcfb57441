import MochimoWallet.Cli.Decide
import MochimoWallet.Wallet.Artifact

/-!
# What a command leaves behind

Two things outlive a command: the store, and what was written to the socket. Four verbs can change
the store and three can write; one that writes does so once, and its page carries the bytes.
-/

namespace MochimoWallet.Cli

open Codec Keystore Session Mesh
open Command (Decided)

section
variable [Crypto]

omit [Crypto] in
/-- An echo is the id it was asked for. -/
theorem echo_cases {id : Digest} {n n' : Node} {r : Reply ResubmitError Digest}
    (h : Node.echo id n = (r, n')) : r ≠ .killed ∧ ∀ echoed, r = .ok echoed → echoed = id := by
  unfold Node.echo at h
  split at h
  · cases h
    exact ⟨by simp, by simp⟩
  · cases h
    exact ⟨by simp, by simp⟩
  · split at h
    · cases h
      exact ⟨by simp, by simp⟩
    · next hid =>
      cases h
      exact ⟨by simp, fun echoed he => by cases he; exact not_not.mp hid⟩

omit [Crypto] in
theorem echo_heard {id : Digest} {n n' : Node} {r : Reply ResubmitError Digest}
    (h : Node.echo id n = (r, n')) : n'.heard = n.heard := by
  unfold Node.echo at h
  split at h
  · cases h
    rfl
  · cases h
    rfl
  · split at h <;> cases h <;> rfl

omit [Crypto] in
/-- What was submitted is on the page. -/
theorem Command.Outcome.submitted?_of_wire? {o : Command.Outcome} (h : o.wire? = none) :
    o.submitted? = none := by
  cases o with
  | sent | resigned | submitted => cases h
  | _ => rfl

/-! ## The desk -/

namespace Desk

variable {D ε δ α : Type} {t t' : Desk D}

abbrev store (t : Desk D) : Opened D := t.session.store

abbrev posted (t : Desk D) : List Bytes := t.posting.posted

/-- A call of the session posts nothing, and ends as a value unless the process does. -/
theorem onSession_cases {x : Call (Session D) δ α} {r : Reply ε (Except δ α)}
    (h : onSession x t = (r, t')) : t'.posted = t.posted ∧
      ((∃ found, r = .ok found ∧ x t.session = (.ofExcept found, t'.session)) ∨
        r = .killed ∧ x t.session = (.killed, t'.session)) := by
  obtain ⟨s, hx, rfl⟩ := Call.zoom_cases h
  exact ⟨rfl, Call.attempt_cases hx⟩

theorem onSession_of {x : Call (Session D) δ α} {r : Except δ α} {s : Session D}
    (h : x t.session = (.ofExcept r, s)) : onSession (ε := ε) x t =
      (.ok r, { t with posting := { t.posting with session := s } }) := by
  unfold onSession Call.zoom Call.attempt
  rw [h]
  cases r <;> rfl

theorem onExplorer_cases {x : Call Transport δ α} {r : Reply ε (Except δ α)}
    (h : onExplorer x t = (r, t')) : t'.posting = t.posting ∧
      ((∃ found, r = .ok found ∧ x t.explorer = (.ofExcept found, t'.explorer)) ∨
        r = .killed ∧ x t.explorer = (.killed, t'.explorer)) := by
  obtain ⟨e, hx, rfl⟩ := Call.zoom_cases h
  exact ⟨rfl, Call.attempt_cases hx⟩

/-- Shipping a transaction writes its image once; an id that comes back is its own. -/
theorem ship_cases {tx : Transaction} (hheld : tx.CountHeld) {r : Reply ε (Except ResubmitError Digest)}
    (h : ship tx.toWire tx.idDigest t = (r, t')) : t'.store = t.store ∧
      t'.posted = tx.toWire :: t.posted ∧
      ∃ said, r = .ok said ∧ ∀ id, said = .ok id → id = tx.idDigest := by
  obtain ⟨p, hx, rfl⟩ := Call.zoom_cases h
  have hfits := requestSubmitWire_fromWire (Transaction.fromWire_toWire hheld)
  have hecho {r' : Reply ResubmitError Digest} (hsubmit : Posting.submitWire tx.toWire tx.idDigest
      t.posting = (r', p)) : r' ≠ .killed ∧ ∀ echoed, r' = .ok echoed → echoed = tx.idDigest := by
    unfold Posting.submitWire at hsubmit
    rw [hfits, Call.check_ok, Call.pure_bind, Call.modify_bind] at hsubmit
    exact echo_cases (Posting.asking_cases hsubmit).2.2
  rcases Call.attempt_cases hx with ⟨said, rfl, hsubmit⟩ | ⟨-, hsubmit⟩
  · obtain ⟨hstore, hposted⟩ := Posting.submitWire_cases hsubmit hfits
    refine ⟨hstore, hposted, said, rfl, fun id hid => (hecho hsubmit).2 id ?_⟩
    rw [hid]
    rfl
  · exact absurd rfl (hecho hsubmit).1

theorem ship_heard {wire : Bytes} {id : Digest} {r : Reply ε (Except ResubmitError Digest)}
    (h : ship wire id t = (r, t')) : t'.session.node.heard = t.session.node.heard := by
  obtain ⟨p, hx, rfl⟩ := Call.zoom_cases h
  have hsubmit {r : Reply ResubmitError Digest} (hx : Posting.submitWire wire id t.posting = (r, p)) :
      p.session.node.heard = t.session.node.heard := by
    unfold Posting.submitWire at hx
    rcases Call.check_bind_cases hx with ⟨e, -, -, rfl⟩ | ⟨⟨⟩, -, hx⟩
    · rfl
    · rw [Call.modify_bind] at hx
      exact echo_heard (Posting.asking_cases hx).2.2
  rcases Call.attempt_cases hx with ⟨said, -, hx⟩ | ⟨-, hx⟩
  · exact hsubmit hx
  · exact hsubmit hx

end Desk

/-! ## What is written to the socket -/

/-- The verbs that can write to the socket. -/
def Command.ships : Command → Bool
  | .submit _ | .resign _ | .send _ => true
  | _ => false

section
variable {D : Type} {t t' : Desk D}

/-- The call writes nothing, and its page carries nothing that was written. -/
structure Mute (x : Call (Desk D) Empty Command.Outcome) : Prop where
  quiet : ∀ {t t' : Desk D} {r : Reply Empty Command.Outcome}, x t = (r, t') →
    t'.posted = t.posted ∧ ∀ o, r = .ok o → o.wire? = none

namespace Mute

variable {δ α : Type}

theorem pure {o : Command.Outcome} (h : o.wire? = none) :
    Mute (D := D) (Pure.pure o) := by
  refine ⟨fun hx => ?_⟩
  cases hx
  exact ⟨rfl, fun o' ho => by cases ho; exact h⟩

theorem get_bind {f : Desk D → Call (Desk D) Empty Command.Outcome} (hf : ∀ s, Mute (f s)) :
    Mute (Call.get >>= f) :=
  ⟨fun {t} {_} {_} h => (hf t).quiet h⟩

theorem bind {x : Call (Desk D) Empty α} {f : α → Call (Desk D) Empty Command.Outcome}
    (hx : ∀ {t t' r}, x t = (r, t') → t'.posted = t.posted) (hf : ∀ a, Mute (f a)) :
    Mute (x >>= f) := by
  refine ⟨fun h => ?_⟩
  rcases Call.bind_cases h with ⟨a, u, hxa, h⟩ | ⟨⟨⟩, -, -⟩ | ⟨hxa, rfl⟩
  · obtain ⟨hposted, htold⟩ := (hf a).quiet h
    exact ⟨hposted.trans (hx hxa), htold⟩
  · exact ⟨hx hxa, fun o ho => by cases ho⟩

theorem session {x : Call (Session D) δ α} {f : Except δ α → Call (Desk D) Empty Command.Outcome}
    (hf : ∀ found, Mute (f found)) : Mute (Desk.onSession x >>= f) :=
  bind (fun h => (Desk.onSession_cases h).1) hf

theorem explorer {x : Call Transport δ α} {f : Except δ α → Call (Desk D) Empty Command.Outcome}
    (hf : ∀ found, Mute (f found)) : Mute (Desk.onExplorer x >>= f) :=
  bind (fun h => by rw [Desk.posted, (Desk.onExplorer_cases h).1]) hf

end Mute

theorem mute_cmdRestore [Layout D] {master : Option Secret} {account : UInt32} {scanTo : Option UInt32} :
    Mute (D := D) (cmdRestore master account scanTo) := by
  unfold cmdRestore
  split
  · exact .pure rfl
  · refine .session fun restored => .get_bind fun s => ?_
    split <;> exact .pure rfl

theorem mute_cmdDiscover {master : Option Secret} {to' : UInt32} :
    Mute (D := D) (cmdDiscover master to') := by
  unfold cmdDiscover
  split
  · exact .pure rfl
  · refine .session fun found => ?_
    split <;> exact .pure rfl

omit [Crypto] in
theorem wire?_statusOutcome (tag : Tag) (compared : Except Divergence AccountStatus) :
    (statusOutcome tag compared).wire? = none := by
  unfold statusOutcome
  split
  · rfl
  · rfl
  · split <;> rfl

theorem wire?_cmdAddress (ks : Keystore) (tag : Option Tag) (account : Option UInt32)
    (master : Option Secret) : (cmdAddress ks tag account master).wire? = none := by
  unfold cmdAddress
  split
  · unfold cmdAddressOfUnstoredAccount
    split
    · rfl
    · dsimp only
      split <;> rfl
  · unfold cmdAccounts
    split <;> rfl
  · split <;> rfl

theorem mute_cmdStatus {tag : Tag} {master : Option Secret} {scanTo : Option UInt32} :
    Mute (D := D) (cmdStatus tag master scanTo) :=
  .session fun compared => .pure (wire?_statusOutcome tag compared)

theorem mute_cmdReconcile [Layout D] {tag : Tag} {master : Option Secret} {advanceTo : UInt32} :
    Mute (D := D) (cmdReconcile tag master advanceTo) := by
  refine .session fun reviewed => .get_bind fun s => ?_
  split <;> exact .pure rfl

theorem mute_cmdSettle [Layout D] {tag : Tag} {master : Option Secret} :
    Mute (D := D) (cmdSettle tag master) := by
  refine .session fun settlement => .get_bind fun s => ?_
  split <;> exact .pure rfl

theorem mute_runExplorer (read : Bytes → Option Json.Value) (command : Command) :
    Mute (D := D) (runExplorer read command) := by
  unfold runExplorer
  split
  · refine .explorer fun page => ?_
    split
    · exact .pure rfl
    · split <;> exact .pure rfl
  · refine .explorer fun page => ?_
    split <;> exact .pure rfl
  · refine .explorer fun got => ?_
    split <;> exact .pure rfl
  · refine .explorer fun tip => ?_
    split
    · exact .pure rfl
    · refine .explorer fun rows => ?_
      split <;> exact .pure rfl
  · refine .explorer fun ids => ?_
    split
    · exact .pure rfl
    · refine .explorer fun rows => ?_
      split <;> exact .pure rfl
  · exact .pure rfl

/-- What a call that ends in an outcome wrote: nothing, or, where it may, the one transaction its page
carries. -/
inductive Ships (may : Bool) (t t' : Desk D) : Reply Empty Command.Outcome → Prop where
  | killed (hposted : t'.posted = t.posted) : Ships may t t' .killed
  | nothing {o : Command.Outcome} (hposted : t'.posted = t.posted) (hnone : o.wire? = none) :
      Ships may t t' (.ok o)
  | image {o : Command.Outcome} {tx : Transaction} {said : Except ResubmitError Digest}
      (hmay : may = true) (hheld : tx.CountHeld) (hposted : t'.posted = tx.toWire :: t.posted)
      (hwire : o.wire? = some tx.toWire) (hsaid : o.submitted? = some said)
      (hcode : o.code = Command.Outcome.codeOf said)
      (hecho : ∀ id, said = .ok id → id = tx.idDigest) : Ships may t t' (.ok o)

theorem Mute.ships {may : Bool} {x : Call (Desk D) Empty Command.Outcome} (hx : Mute x)
    {r : Reply Empty Command.Outcome} (h : x t = (r, t')) : Ships may t t' r := by
  obtain ⟨hposted, htold⟩ := hx.quiet h
  rcases r with o | ⟨⟨⟩⟩ | _
  · exact .nothing hposted (htold o rfl)
  · exact .killed hposted

/-- Shipping a transaction on a page that carries it. -/
theorem ships_ship {tx : Transaction} (hheld : tx.CountHeld)
    {f : Except ResubmitError Digest → Call (Desk D) Empty Command.Outcome}
    (hf : ∀ said s, ∃ o, f said s = (.ok o, s) ∧ o.wire? = some tx.toWire ∧
      o.submitted? = some said ∧ o.code = Command.Outcome.codeOf said)
    {r : Reply Empty Command.Outcome} (h : (Desk.ship tx.toWire tx.idDigest >>= f) t = (r, t')) :
    Ships true t t' r := by
  rcases hship : Desk.ship (D := D) (ε := Empty) tx.toWire tx.idDigest t with ⟨r', u⟩
  obtain ⟨-, hposted, said, rfl, hecho⟩ := Desk.ship_cases hheld hship
  rw [Call.bind_of_ok hship] at h
  obtain ⟨o, hfo, hwire, hsaid, hcode⟩ := hf said u
  rw [hfo] at h
  cases h
  exact .image rfl hheld hposted hwire hsaid hcode hecho

theorem Ships.after {may : Bool} {u : Desk D} {r : Reply Empty Command.Outcome}
    (h : Ships may u t' r) (hposted : u.posted = t.posted) : Ships may t t' r := by
  cases h with
  | killed h => exact .killed (h.trans hposted)
  | nothing h hnone => exact .nothing (h.trans hposted) hnone
  | image hmay hheld h hwire hsaid hcode hecho =>
    exact .image hmay hheld (by rw [h, hposted]) hwire hsaid hcode hecho

/-- A call of the session, and what follows it. -/
theorem ships_session {δ α : Type} {x : Call (Session D) δ α}
    {f : Except δ α → Call (Desk D) Empty Command.Outcome} {r : Reply Empty Command.Outcome}
    (h : (Desk.onSession x >>= f) t = (r, t'))
    (hf : ∀ found u, x t.session = (.ofExcept found, u.session) → f found u = (r, t') → Ships true u t' r) :
    Ships true t t' r := by
  rcases Call.bind_cases h with ⟨found, u, hx, h⟩ | ⟨⟨⟩, -, -⟩ | ⟨hx, rfl⟩
  · obtain ⟨hposted, hend⟩ := Desk.onSession_cases hx
    rcases hend with ⟨found, he, hcall⟩ | ⟨⟨⟩, -⟩
    cases he
    exact (hf found u hcall h).after hposted
  · exact .killed (Desk.onSession_cases hx).1

omit [Crypto] in
theorem artifactOf_error {artifact : Text} {o : Command.Outcome} (h : artifactOf artifact = .error o) :
    o.wire? = none := by
  unfold artifactOf at h
  split at h
  · cases h
    rfl
  · split at h
    · cases h
      rfl
    · split at h <;> cases h
      rfl

omit [Crypto] in
/-- An artifact that passes is the image of its transaction. -/
theorem artifactOf_eq_ok {artifact : Text} {tx : Transaction} : artifactOf artifact = .ok tx ↔
    tx.CountHeld ∧ Hex.decode artifact.trim "artifact" = .ok tx.toWire := by
  unfold artifactOf
  constructor
  · intro h
    split at h
    · cases h
    next bytes hdecode =>
    split at h
    · cases h
    next tx' hwire =>
    split at h
    · cases h
    next hwhole =>
    cases h
    rw [not_not] at hwhole
    exact ⟨Transaction.countHeld_fromWire hwire, by rw [hdecode, hwhole]⟩
  · rintro ⟨hheld, hdecode⟩
    rw [hdecode]
    dsimp only
    rw [Transaction.fromWire_toWire hheld]
    dsimp only
    rw [if_neg (not_not.mpr rfl)]

theorem ships_cmdSubmit {artifact : Text} {r : Reply Empty Command.Outcome}
    (h : cmdSubmit artifact t = (r, t')) : Ships true t t' r := by
  unfold cmdSubmit at h
  rcases hart : artifactOf artifact with o | tx <;> rw [hart] at h
  · cases h
    exact .nothing rfl (artifactOf_error hart)
  · dsimp only at h
    rcases hdest : destination (tagOf tx.srcAddr) with cause | dest <;> rw [hdest] at h
    · cases h
      exact .nothing rfl rfl
    · exact ships_ship (artifactOf_eq_ok.mp hart).1 (fun said s => ⟨_, rfl, rfl, rfl, rfl⟩) h

variable {part : Partition} {s : Spend} {master : Option Secret}

/-- A call under the access an account's kind demands, if it can be had. -/
theorem withAccess_cases {α : Type} {tag : Tag} {x : KeyAccess → Call (Session D) Error α}
    {s s' : Session D} {r : Reply Error α} (h : withAccess tag master x s = (r, s')) :
    (∃ e, r = .err e ∧ s' = s) ∨
      ∃ access, keyAccess s.store.ks tag master = .ok access ∧ x access s = (r, s') := by
  unfold withAccess at h
  rw [Call.get_bind] at h
  rcases Call.check_bind_cases h with ⟨e, -, hr, hs⟩ | hend
  · exact .inl ⟨e, hr, hs⟩
  · exact .inr hend

theorem ships_cmdSend [Layout D] {r : Reply Empty Command.Outcome}
    (h : cmdSend part s master t = (r, t')) : Ships true t t' r := by
  refine ships_session h fun planned u _ h => ?_
  rcases planned with e | plan
  · cases h
    exact .nothing rfl rfl
  dsimp only at h
  rcases hrenders : renders s.tag plan.dsts with ⟨tag, cause⟩ | ⟨⟨⟩⟩ <;> rw [hrenders] at h
  · cases h
    exact .nothing rfl rfl
  refine ships_session h fun signed v hcall h => ?_
  rcases signed with e | signed
  · cases h
    exact .nothing rfl rfl
  · refine ships_ship ?_ (fun said s => ⟨_, rfl, rfl, rfl, rfl⟩) h
    rcases withAccess_cases hcall with ⟨e, he, -⟩ | ⟨access, -, hcall⟩
    · cases he
    · obtain ⟨p, slot, key, change, -, hreserved⟩ := Wallet.reserved_of_signed hcall
      exact countHeld_of_attach hreserved.hattached

end

/-! ## Which commands change the store -/

/-- The verbs that can change the store. -/
def Command.writes : Command → Bool
  | .restore .. | .reconcile .. | .settle _ | .send _ => true
  | _ => false

section
variable {D δ α : Type}

theorem quiet_onSession {x : Call (Session D) δ α} (hx : Call.Quiet Session.store x) :
    Call.Quiet (Desk.store (D := D)) (Desk.onSession (ε := Empty) x) := by
  refine ⟨fun h => ?_⟩
  obtain ⟨-, ⟨found, rfl, hcall⟩ | ⟨rfl, hcall⟩⟩ := Desk.onSession_cases h
  · exact ⟨(hx.keeps hcall).1, by simp⟩
  · exact absurd rfl (hx.keeps hcall).2

theorem quiet_onExplorer {x : Call Transport δ α} (hx : Alive x) :
    Call.Quiet (Desk.store (D := D)) (Desk.onExplorer (ε := Empty) x) := by
  refine ⟨fun h => ?_⟩
  obtain ⟨hposting, ⟨found, rfl, hcall⟩ | ⟨rfl, hcall⟩⟩ := Desk.onExplorer_cases h
  · exact ⟨by rw [Desk.store, Desk.session, hposting], by simp⟩
  · exact absurd rfl (hx.keeps hcall).2

omit [Crypto] in
theorem alive_walkBlocks (read : Bytes → Option Json.Value) (tip : UInt64) (left : ℕ) :
    ∀ i rows, Alive (walkBlocks read tip left i rows) := by
  induction left with
  | zero => exact fun i rows => .pure _
  | succ left ih =>
    intro i rows
    unfold walkBlocks
    split
    · exact .pure _
    · exact alive_ask.mapErr.bind fun block => ih _ _

omit [Crypto] in
theorem alive_walkMempool (read : Bytes → Option Json.Value) (ids : List Digest) :
    ∀ rows, Alive (walkMempool read ids rows) := by
  induction ids with
  | nil => exact fun rows => .pure _
  | cons id ids ih =>
    intro rows
    refine Call.Quiet.bind ?_ fun row => ih _
    refine alive_ask.attempt.bind fun answer => ?_
    split
    · exact .pure _
    · exact .pure _
    · exact .refuse _

/-- Writing to the socket leaves the store as it is, whatever is written. -/
theorem quiet_ship (wire : Bytes) (id : Digest) :
    Call.Quiet (Desk.store (D := D)) (Desk.ship (ε := Empty) wire id) := by
  have hsubmit : Call.Quiet (fun p : Posting D => p.session.store) (Posting.submitWire wire id) := by
    refine (Call.Quiet.check _).bind fun _ => Call.Quiet.bind ⟨fun h => ?_⟩ fun _ => ⟨fun h => ?_⟩
    · cases h
      exact ⟨rfl, by simp⟩
    · obtain ⟨hstore, -, hecho⟩ := Posting.asking_cases h
      exact ⟨hstore, (echo_cases hecho).1⟩
  refine ⟨fun h => ?_⟩
  obtain ⟨p, hx, rfl⟩ := Call.zoom_cases h
  rcases Call.attempt_cases hx with ⟨said, rfl, hcall⟩ | ⟨-, hcall⟩
  · exact ⟨(hsubmit.keeps hcall).1, by simp⟩
  · exact absurd rfl (hsubmit.keeps hcall).2

theorem quiet_cmdDiscover {master : Option Secret} {to' : UInt32} :
    Call.Quiet (Desk.store (D := D)) (cmdDiscover (ε := Empty) master to') := by
  unfold cmdDiscover
  split
  · exact .pure _
  · refine (quiet_onSession quiet_sweep).bind fun found => ?_
    split <;> exact .pure _

theorem quiet_cmdStatus {tag : Tag} {master : Option Secret} {scanTo : Option UInt32} :
    Call.Quiet (Desk.store (D := D)) (cmdStatus (ε := Empty) tag master scanTo) := by
  refine (quiet_onSession (Call.Quiet.get.bind fun s => (Call.Quiet.check _).bind fun access => ?_)).bind
    fun compared => .pure _
  exact quiet_asking reconcile_not_killed

theorem quiet_cmdSubmit {artifact : Text} :
    Call.Quiet (Desk.store (D := D)) (cmdSubmit (ε := Empty) artifact) := by
  unfold cmdSubmit
  split
  · exact .pure _
  · dsimp only
    split
    · exact .pure _
    · exact (quiet_ship _ _).bind fun said => .pure _

theorem quiet_runExplorer (read : Bytes → Option Json.Value) (command : Command) :
    Call.Quiet (Desk.store (D := D)) (runExplorer (ε := Empty) read command) := by
  unfold runExplorer
  split
  · refine (quiet_onExplorer alive_ask).bind fun page => ?_
    split
    · exact .pure _
    · split <;> exact .pure _
  · next skip =>
    refine (quiet_onExplorer ?_).bind fun page => ?_
    · split <;> exact alive_ask
    · split <;> exact .pure _
  · refine (quiet_onExplorer ?_).bind fun got => ?_
    · split <;> exact alive_ask
    · split <;> exact .pure _
  · refine (quiet_onExplorer alive_ask).bind fun tip => ?_
    split
    · exact .pure _
    · refine (quiet_onExplorer (alive_walkBlocks ..)).bind fun rows => ?_
      split <;> exact .pure _
  · refine (quiet_onExplorer alive_ask).bind fun ids => ?_
    split
    · exact .pure _
    · refine (quiet_onExplorer (alive_walkMempool ..)).bind fun rows => ?_
      split <;> exact .pure _
  · exact .pure _

variable {part : Partition} {s : Spend} {master : Option Secret}

theorem quiet_withAccess {tag : Tag} {x : KeyAccess → Call (Session D) Error α}
    (hx : ∀ access, Call.Quiet Session.store (x access)) :
    Call.Quiet Session.store (withAccess tag master x) :=
  Call.Quiet.get.bind fun _ => (Call.Quiet.check _).bind hx

theorem quiet_resignDestinations : Call.Quiet Session.store (resignDestinations (D := D) s) := by
  unfold resignDestinations
  split
  · exact quiet_resolveTag.bind fun entry => (Call.Quiet.check _).bind fun amount => .pure _
  · exact .pure _

theorem quiet_planSpend {access : KeyAccess} :
    Call.Quiet Session.store (planSpend (D := D) part s access) := by
  unfold planSpend
  split
  · exact Call.Quiet.bind (Call.Quiet.get.bind fun _ => (Call.Quiet.check _).bind fun _ =>
      Call.Quiet.check _) fun addresses => quiet_resolveTag.bind fun entry =>
      (Call.Quiet.check _).bind fun amount => Call.Quiet.check _
  · exact Wallet.quiet_plan

theorem quiet_cmdResign : Call.Quiet (Desk.store (D := D)) (cmdResign (ε := Empty) part s master) := by
  refine (quiet_onSession (quiet_withAccess fun access => quiet_resignDestinations.bind fun dsts =>
    .pure _)).bind fun asked => ?_
  split
  · exact .pure _
  · refine (quiet_onSession Wallet.quiet_resignPending).bind fun resigned => ?_
    unfold resignOutcome
    split
    · split
      · exact .pure _
      · exact (quiet_ship _ _).bind fun said => .pure _
    all_goals exact .pure _

/-- What a command that does not write leaves the store as it is. -/
theorem quiet_decide [Layout D] (read : Bytes → Option Json.Value) {command : Command}
    (hwrites : command.writes = false) :
    Call.Quiet (Desk.store (D := D)) (command.decide (ε := Empty) read) := by
  have hopened (hbehind : ∀ part master, Call.Quiet (Desk.store (D := D))
      (behindTheGate (ε := Empty) part master command)) (master : Option Secret) :
      Call.Quiet (Desk.store (D := D)) (openAndDecide (ε := Empty) master command) := by
    refine (quiet_onSession Wallet.quiet_openAsking).bind fun opened => ?_
    split
    · exact .pure _
    · exact .pure _
    · split
      · exact .pure _
      · exact (hbehind _ _).bind fun outcome => .pure _
  refine Call.Quiet.get.bind fun t => ?_
  dsimp only
  split
  · exact .pure _
  next master _ =>
  cases command with
  | create fromPhrase => exact hopened (fun part master => .pure _) master
  | balance => exact hopened (fun part master => .pure _) master
  | address tag account => exact .pure _
  | send spend => cases hwrites
  | settle tag => cases hwrites
  | resign spend => exact hopened (fun part master => quiet_cmdResign) master
  | reconcile tag advanceTo => cases hwrites
  | restore account scanTo => cases hwrites
  | status tag scanTo => exact quiet_cmdStatus.bind fun outcome => .pure _
  | submit artifact => exact quiet_cmdSubmit.bind fun outcome => .pure _
  | lookupTransaction hash => exact (quiet_runExplorer read _).bind fun outcome => .pure _
  | recentTransactions tag count skip => exact (quiet_runExplorer read _).bind fun outcome => .pure _
  | block place => exact (quiet_runExplorer read _).bind fun outcome => .pure _
  | blocks count => exact (quiet_runExplorer read _).bind fun outcome => .pure _
  | mempool count => exact (quiet_runExplorer read _).bind fun outcome => .pure _
  | discover upTo => exact quiet_cmdDiscover.bind fun outcome => .pure _

/-! ## Signing again -/

theorem keyAccess_eq_ok {ks : Keystore} {tag : Tag} {access : KeyAccess} :
    keyAccess ks tag master = .ok access ↔ accessFor ks tag master = .ok access := by
  unfold keyAccess
  rcases accessFor ks tag master with d | access'
  · cases d <;> simp
  · simp

variable {t t' : Desk D} {r : Reply Empty Command.Outcome}

/-- A reproduction is posted, and nothing else is. -/
theorem resignOutcome_cases {source : Tag} {listed : List Destination} {blkToLive : UInt64}
    {resigned : Except Error SignedTransaction} (hheld : ∀ signed, resigned = .ok signed → signed.tx.CountHeld)
    (h : resignOutcome source listed blkToLive resigned t = (r, t')) :
    (∃ o, r = .ok o ∧ o.wire? = none ∧ t'.posted = t.posted) ∨
      ∃ signed said, resigned = .ok signed ∧
        r = .ok (.resigned ⟨source, listed, blkToLive, signed.wire, said⟩) ∧
        t'.session.node.heard = t.session.node.heard ∧
        t'.posted = signed.wire :: t.posted ∧ ∀ id, said = .ok id → id = signed.id := by
  unfold resignOutcome at h
  split at h
  · next signed =>
    obtain ⟨text, htext⟩ := tagToBase58_ok source
    rw [destination, htext] at h
    dsimp only at h
    rcases hship : Desk.ship (D := D) (ε := Empty) signed.wire signed.id t with ⟨r', u⟩
    obtain ⟨-, hposted, said, rfl, hecho⟩ := Desk.ship_cases (hheld signed rfl) hship
    have hheard := Desk.ship_heard hship
    rw [Call.bind_of_ok hship] at h
    cases h
    exact .inr ⟨signed, said, rfl, rfl, hheard, hposted, hecho⟩
  all_goals
    cases h
    exact .inl ⟨_, rfl, rfl, rfl⟩

/-- A `resign` that carries bytes signed them again, and posted them. -/
theorem cmdResign_cases (h : cmdResign part s master t = (r, t')) :
    (∃ o, r = .ok o ∧ o.wire? = none ∧ t'.posted = t.posted) ∨
      ∃ access dsts signed said u u', r = .ok (.resigned ⟨s.tag, sortDsts dsts, s.blkToLive, signed.wire, said⟩) ∧
        accessFor t.store.ks s.tag master = .ok access ∧ u.store = t.store ∧
        Wallet.resignPending part s.tag access dsts s.feeTotal s.blkToLive u = (.ok signed, u') ∧
        t'.session.node.heard = u'.node.heard ∧
        t'.posted = signed.wire :: t.posted ∧ ∀ id, said = .ok id → id = signed.id := by
  have hasks : Call.Quiet (Desk.store (D := D)) (Desk.onSession (ε := Empty)
      (withAccess s.tag master fun access => do
        let dsts ← resignDestinations s
        pure (access, dsts))) :=
    quiet_onSession (quiet_withAccess fun access => quiet_resignDestinations.bind fun dsts => .pure _)
  rcases hasks.bind_cases h with ⟨⟨⟩, -⟩ | ⟨asked, u, hasked, hstore, h⟩
  obtain ⟨hposted, hend⟩ := Desk.onSession_cases hasked
  rcases hend with ⟨found, hfound, hcall⟩ | ⟨hfound, -⟩
  rotate_left
  · cases hfound
  cases hfound
  rcases asked with e | ⟨access, dsts⟩
  · cases h
    exact .inl ⟨_, rfl, rfl, hposted⟩
  rcases withAccess_cases hcall with ⟨e, he, -⟩ | ⟨access', haccess, hcall⟩
  · cases he
  have hsame : access' = access := by
    rcases Call.bind_cases hcall with ⟨dsts', v, -, hcall⟩ | ⟨e, -, hr⟩ | ⟨-, hr⟩
    · cases hcall
      rfl
    · cases hr
    · cases hr
  subst hsame
  rcases (quiet_onSession Wallet.quiet_resignPending).bind_cases h with ⟨⟨⟩, -⟩ | ⟨resigned, v, hresigned, -, h⟩
  obtain ⟨hposted', hend⟩ := Desk.onSession_cases hresigned
  rcases hend with ⟨found, hfound, hcall'⟩ | ⟨hfound, -⟩
  rotate_left
  · cases hfound
  cases hfound
  have hheld : ∀ signed, resigned = .ok signed → signed.tx.CountHeld := by
    rintro signed rfl
    obtain ⟨p, hm⟩ := Wallet.live_of_resignPending hcall'
    obtain ⟨slot, pending, addresses, entry, plan, key, -, -, -, -, -, -, hattached⟩ :=
      Wallet.resignPending_ok hm hcall'
    exact countHeld_of_attach hattached
  rcases resignOutcome_cases hheld h with ⟨o, ho, hwire, hkept⟩ |
    ⟨signed, said, rfl, hr, hheard, hposts, hecho⟩
  · exact .inl ⟨o, ho, hwire, by rw [hkept, hposted', hposted]⟩
  · exact .inr ⟨access', dsts, signed, said, u.session, v.session, hr, keyAccess_eq_ok.mp haccess, hstore,
      hcall', hheard, by rw [hposts, hposted', hposted], hecho⟩

theorem ships_cmdResign (h : cmdResign part s master t = (r, t')) : Ships true t t' r := by
  rcases cmdResign_cases h with ⟨o, rfl, hwire, hposted⟩ |
    ⟨access, dsts, signed, said, u, u', rfl, -, -, hagain, -, hposted, hecho⟩
  · exact .nothing hposted hwire
  · obtain ⟨p, hm⟩ := Wallet.live_of_resignPending hagain
    obtain ⟨slot, pending, addresses, entry, plan, key, -, -, -, -, -, -, hattached⟩ :=
      Wallet.resignPending_ok hm hagain
    exact .image rfl (countHeld_of_attach hattached) hposted rfl rfl rfl hecho

/-! ## One command -/

theorem ships_before {may : Bool} {x : Call (Desk D) Empty Command.Outcome} {r : Reply Empty Decided}
    (hx : ∀ {r}, x t = (r, t') → Ships may t t' r) (h : beforeTheGate x t = (r, t')) :
    Ships may t t' (r.map Decided.outcome) := by
  rcases Call.bind_cases h with ⟨o, u, hxo, h⟩ | ⟨⟨⟩, -, -⟩ | ⟨hxo, rfl⟩
  · cases h
    exact hx hxo
  · exact hx hxo

variable [Layout D]

theorem ships_behindTheGate {command : Command} {r : Reply Empty Command.Outcome}
    (h : behindTheGate part master command t = (r, t')) :
    Ships command.ships t t' r := by
  unfold behindTheGate at h
  split at h
  · cases h
    exact .nothing rfl rfl
  · exact mute_cmdSettle.ships h
  · exact ships_cmdSend h
  · exact ships_cmdResign h
  · cases h
    exact .nothing rfl rfl

omit [Crypto] [Layout D] in
theorem outcome_mk (standing : List Divergence) (r : Reply Empty Command.Outcome) :
    (r.map (Decided.mk standing)).map Decided.outcome = r := by
  cases r <;> rfl

/-- How a command that needs a wallet ends: refused with the store and the socket as they were, or as
it ends on the wallet that was opened. -/
inductive Gated (master : Option Secret) (command : Command) (t t' : Desk D) : Reply Empty Decided → Prop where
  | refused {d : Decided} (hstore : t'.store = t.store) (hposted : t'.posted = t.posted)
      (hwire : d.outcome.wire? = none) : Gated master command t t' (.ok d)
  | ran {part : Partition} {u : Desk D} {r : Reply Empty Command.Outcome}
      (hclear : command.addressed.bind part.divergenceFor = none) (hstore : u.store = t.store)
      (hposted : u.posted = t.posted) (hcall : behindTheGate part master command u = (r, t')) :
      Gated master command t t' (r.map (Decided.mk part.diverged))

theorem openAndDecide_cases {command : Command} {r : Reply Empty Decided}
    (h : openAndDecide master command t = (r, t')) : Gated master command t t' r := by
  rcases (quiet_onSession Wallet.quiet_openAsking).bind_cases h with ⟨⟨⟩, -⟩ | ⟨opened, u, hopen, hstore, h⟩
  have hposted := (Desk.onSession_cases hopen).1
  rcases opened with (⟨⟩ | refusal) | part
  · cases h
    exact .refused hstore hposted rfl
  · cases h
    exact .refused hstore hposted rfl
  dsimp only at h
  rcases hd : command.addressed.bind part.divergenceFor with _ | d <;> rw [hd] at h
  · rcases Call.bind_cases h with ⟨o, v, hcall, h⟩ | ⟨⟨⟩, -, -⟩ | ⟨hcall, rfl⟩
    · cases h
      exact .ran hd hstore hposted hcall
    · exact .ran hd hstore hposted hcall
  · cases h
    exact .refused hstore hposted rfl

/-- A command that needs a wallet, on one that opens and holds its account for reconciled. -/
theorem openAndDecide_of {command : Command} {v : Session D} {o : Command.Outcome}
    (hopening : Wallet.openAsking master .never t.session = (.ok part, v))
    (hclear : command.addressed.bind part.divergenceFor = none)
    (hcall : behindTheGate (ε := Empty) part master command { t with posting := { t.posting with session := v } } =
      (.ok o, t')) : openAndDecide (ε := Empty) master command t = (.ok ⟨part.diverged, o⟩, t') := by
  have hopened := Desk.onSession_of (ε := Empty) (r := .ok part) hopening
  unfold openAndDecide
  rw [Call.bind_of_ok hopened]
  dsimp only
  rw [hclear]
  dsimp only
  rw [Call.bind_of_ok hcall]
  rfl

theorem ships_openAndDecide {command : Command} {r : Reply Empty Decided}
    (h : openAndDecide master command t = (r, t')) :
    Ships command.ships t t' (r.map Decided.outcome) := by
  cases openAndDecide_cases h with
  | refused _ hposted hnone => exact .nothing hposted hnone
  | ran _ _ hposted hcall =>
    rw [outcome_mk]
    exact (ships_behindTheGate hcall).after hposted

theorem ships_decide (read : Bytes → Option Json.Value) (command : Command) {r : Reply Empty Decided}
    (h : command.decide read t = (r, t')) :
    Ships command.ships t t' (r.map Decided.outcome) := by
  unfold Command.decide at h
  rw [Call.get_bind] at h
  rcases hmaster : t.session.store.ks.masterSeed with e | master <;> rw [hmaster] at h
  · cases h
    exact .nothing rfl rfl
  cases command with
  | create fromPhrase => exact ships_openAndDecide h
  | balance => exact ships_openAndDecide h
  | address tag account =>
    cases h
    exact .nothing rfl (wire?_cmdAddress ..)
  | send spend => exact ships_openAndDecide h
  | settle tag => exact ships_openAndDecide h
  | resign spend => exact ships_openAndDecide h
  | reconcile tag advanceTo => exact ships_before mute_cmdReconcile.ships h
  | restore account scanTo => exact ships_before mute_cmdRestore.ships h
  | status tag scanTo => exact ships_before mute_cmdStatus.ships h
  | submit artifact => exact ships_before ships_cmdSubmit h
  | lookupTransaction hash => exact ships_before (mute_runExplorer read _).ships h
  | recentTransactions tag count skip => exact ships_before (mute_runExplorer read _).ships h
  | block place => exact ships_before (mute_runExplorer read _).ships h
  | blocks count => exact ships_before (mute_runExplorer read _).ships h
  | mempool count => exact ships_before (mute_runExplorer read _).ships h
  | discover upTo => exact ships_before mute_cmdDiscover.ships h

/-- A command that cannot write leaves the store as it is and ends in an outcome. One that cannot ship
writes nothing to the socket. One that can writes nothing and says nothing was submitted, or writes
the one transaction its page carries, says what the node said to it, and exits zero just when the node
echoed its id. -/
theorem decide_effects (read : Bytes → Option Json.Value) (command : Command) (t : Desk D) :
    let (r, t') := command.decide (ε := Empty) read t
    (command.writes = false → t'.store = t.store ∧ ∃ d, r = .ok d) ∧
      (t'.posted = t.posted ∧ (∀ d, r = .ok d → d.outcome.wire? = none ∧ d.outcome.submitted? = none) ∨
        command.ships = true ∧ ∃ d, ∃ tx : Transaction, ∃ said, r = .ok d ∧ tx.CountHeld ∧
          t'.posted = tx.toWire :: t.posted ∧ d.outcome.wire? = some tx.toWire ∧
          d.outcome.submitted? = some said ∧ (∀ id, said = .ok id → id = tx.idDigest) ∧
          (d.outcome.code = .ok ↔ said = .ok tx.idDigest)) := by
  rcases hrun : command.decide (ε := Empty) read t with ⟨r, t'⟩
  refine ⟨fun hwrites => ?_, ?_⟩
  · obtain ⟨hstore, hlive⟩ := (quiet_decide read hwrites).keeps hrun
    refine ⟨hstore, ?_⟩
    rcases r with d | ⟨⟨⟩⟩ | _
    · exact ⟨d, rfl⟩
    · exact absurd rfl hlive
  · have hships := ships_decide read command hrun
    rcases r with d | ⟨⟨⟩⟩ | _
    · cases hships with
      | nothing hposted hnone =>
        exact .inl ⟨hposted, fun d' hd => by cases hd; exact ⟨hnone, Command.Outcome.submitted?_of_wire? hnone⟩⟩
      | image hmay hheld hposted hwire hsaid hcode hecho =>
        rename_i tx said
        refine .inr ⟨hmay, d, tx, said, rfl, hheld, hposted, hwire, hsaid, hecho, ?_⟩
        rw [hcode]
        rcases said with e | id
        · simp [Command.Outcome.codeOf]
        · simp [Command.Outcome.codeOf, hecho id rfl]
    · cases hships with
      | killed hposted => exact .inl ⟨hposted, fun d hd => by cases hd⟩

end

end

end MochimoWallet.Cli
