import MochimoWallet.Cli.Reconcile
import MochimoWallet.Cli.Spends
import MochimoWallet.Wallet.Chain

/-!
# What a command does with its store

A command leaves its store, or takes one turn of a wallet on it, or makes one write that is no turn:
of an account the store does not have, or to a number the operator acknowledged (`decide_does`). What
its page brings out of the store is what the turn signed.
-/

namespace MochimoWallet.Cli

open Codec Keystore Session Mesh
open Command (Decided)

/-- The signed image a page brings out of a store. -/
def Command.Outcome.signed? : Command.Outcome → Option Bytes
  | .sent shipped .. | .resigned shipped => some shipped.wire
  | .reproducedButUnrenderable _ _ _ wire _ => some wire
  | _ => none

theorem Command.Outcome.signed?_of_wire? {o : Command.Outcome} (h : o.wire? = none) : o.signed? = none := by
  cases o with
  | sent | resigned | reproducedButUnrenderable => cases h
  | _ => rfl

section
variable [Crypto] {D : Type} [Layout D] {t t' u : Desk D} {r : Reply Empty Command.Outcome}

/-- What a command does with its store, by the reply it comes to. -/
inductive Does (t t' : Desk D) (r : Reply Empty Command.Outcome) : Prop where
  | still (hstore : t'.store = t.store) (hnone : ∀ o, r = .ok o → o.signed? = none)
  | turn {part : Partition} {method : Wallet.Method} {s v : Session D} {reply : Reply Error Wallet.Answer}
      (hstore : s.store = t.store)
      (hasks : ∀ tag access, method.asks = some (tag, access) →
        accessFor t.store.ks tag t.store.ks.master = .ok access)
      (hcall : method.call part s = (reply, v)) (hleft : t'.store = v.store)
      (hheard : t'.session.node.heard = v.node.heard)
      (hsigned : ∀ o wire, r = .ok o → o.signed? = some wire →
        ∃ signed, reply = .ok (.signed signed) ∧ signed.tx.CountHeld ∧ signed.wire = wire)
  | adds {p : Parsed} {account : Account} {written : Reply Error Unit} (hm : t.store.ks.memory = some p)
      (hnew : p.slots.get? account.tag = none) (hcall : add account t.store = (written, t'.store))
      (hnone : ∀ o, r = .ok o → o.signed? = none)
  | advances {p : Parsed} {tag : Tag} {slot : Slot} {access : KeyAccess} {target : WotsIndex}
      {entry : LedgerEntry} {written : Reply Error AdvanceReceipt} (hm : t.store.ks.memory = some p)
      (hslot : p.slots.get? tag = some slot) (hahead : slot.account.wotsIndex.pos < target.pos)
      (haccess : accessFor t.store.ks tag t.store.ks.master = .ok access)
      (hheard : (tag, entry) ∈ t'.session.node.heard)
      (haddress : t.store.ks.addressAt tag target access = .ok entry.address)
      (hcall : persistAdvanceTo tag target t.store = (written, t'.store))
      (hnone : ∀ o, r = .ok o → o.signed? = none)

theorem Does.after (h : Does u t' r) (hstore : u.store = t.store) : Does t t' r := by
  cases h with
  | still hkept hnone => exact .still (hkept.trans hstore) hnone
  | turn hs hasks hcall hleft hheard hsigned =>
    rw [hstore] at hasks
    exact .turn (hs.trans hstore) hasks hcall hleft hheard hsigned
  | adds hm hnew hcall hnone =>
    rw [hstore] at hm hcall
    exact .adds hm hnew hcall hnone
  | advances hm hslot hahead haccess hheard haddress hcall hnone =>
    rw [hstore] at hm haccess haddress hcall
    exact .advances hm hslot hahead haccess hheard haddress hcall hnone

/-! ## Behind the gate -/

omit [Layout D] in
/-- A call under the access the account's kind demands, taken as a value. -/
theorem onSession_withAccess {ε α : Type} {tag : Tag} {x : KeyAccess → Call (Session D) Error α}
    {r : Reply ε (Except Error α)}
    (h : Desk.onSession (withAccess tag t.store.ks.master x) t = (r, u)) :
    (∃ e, r = .ok (.error e) ∧ u.store = t.store) ∨
      ∃ access, accessFor t.store.ks tag t.store.ks.master = .ok access ∧
        ((∃ found, r = .ok found ∧ x access t.session = (.ofExcept found, u.session)) ∨
          r = .killed ∧ x access t.session = (.killed, u.session)) := by
  rcases (Desk.onSession_cases h).2 with ⟨found, rfl, hcall⟩ | ⟨rfl, hcall⟩ <;>
    rcases withAccess_cases hcall with ⟨e, he, hs⟩ | ⟨access, haccess, hcall⟩
  · rcases found with e' | a <;> cases he
    exact .inl ⟨e, rfl, congrArg Session.store hs⟩
  · exact .inr ⟨access, keyAccess_eq_ok.mp haccess, .inl ⟨found, rfl, hcall⟩⟩
  · cases he
  · exact .inr ⟨access, keyAccess_eq_ok.mp haccess, .inr ⟨rfl, hcall⟩⟩

omit [Layout D] in
/-- A command that makes one call on its session, and then only says what came of it. -/
theorem said_of_call {δ α : Type} {x : Call (Session D) δ α}
    {tell : Except δ α → Call (Desk D) Empty Command.Outcome}
    (htell : ∀ found u, ∃ o, tell found u = (.ok o, u) ∧ o.signed? = none)
    (h : (Desk.onSession x >>= tell) t = (r, t')) :
    ∃ reply, x t.session = (reply, t'.session) ∧ ∀ o, r = .ok o → o.signed? = none := by
  rcases Call.bind_cases h with ⟨found, u, hx, h⟩ | ⟨⟨⟩, -, -⟩ | ⟨hx, rfl⟩
  · obtain ⟨o, hsaid, hnone⟩ := htell found u
    cases hsaid.symm.trans h
    rcases (Desk.onSession_cases hx).2 with ⟨_, -, hcall⟩ | ⟨hr, -⟩
    · exact ⟨_, hcall, fun o' ho => by cases ho; exact hnone⟩
    · cases hr
  · rcases (Desk.onSession_cases hx).2 with ⟨_, hr, -⟩ | ⟨-, hcall⟩
    · cases hr
    · exact ⟨.killed, hcall, fun o ho => by cases ho⟩

section
variable {part : Partition} {s : Spend} {tag : Tag}

theorem does_cmdSettle (h : cmdSettle tag t.store.ks.master t = (r, t')) : Does t t' r := by
  obtain ⟨reply, hcall, hnone⟩ := said_of_call (fun found u => by
    rcases found with e | settled <;> exact ⟨_, rfl, rfl⟩) h
  rcases withAccess_cases hcall with ⟨e, -, hs⟩ | ⟨access, haccess, hcall⟩
  · exact .still (congrArg Session.store hs) hnone
  have hmethod : Wallet.Method.call ⟨[], []⟩ (.settleIfLanded tag access) t.session =
      (reply.map Wallet.Answer.settlement, t'.session) := Call.map_apply hcall
  refine .turn rfl (fun t' a ha => ?_) hmethod rfl rfl fun o wire ho hwire => ?_
  · cases ha
    exact keyAccess_eq_ok.mp haccess
  · rw [hnone o ho] at hwire
    cases hwire

omit [Layout D] in
/-- A plan is of the account it was asked for. -/
theorem planSpend_tag {access : KeyAccess} {plan : SpendPlan} {w w' : Session D}
    (h : planSpend part s access w = (.ok plan, w')) : plan.tag = s.tag := by
  obtain ⟨addresses, entry, amount, haddresses, hnew, -⟩ := planSpend_made h
  obtain ⟨-, -, hsource, -⟩ := PlanFields.build_eq_ok (SpendPlan.new_eq_ok.mp hnew)
  obtain ⟨p, hm⟩ := Wallet.live_of_spendAddresses haddresses
  obtain ⟨slot, next, source, change, -, -, -, -, -, rfl⟩ := (spendAddresses_eq_ok hm).mp haddresses
  rw [SpendPlan.tag, hsource]
  exact WotsKey.tagOf_address source s.tag

/-- A reservation behind a page that carries what it signed, if it signed. -/
theorem does_reserve {access : KeyAccess} {plan : SpendPlan} {reply : Reply Error SignedTransaction}
    {v : Session D} (haccess : accessFor t.store.ks plan.tag t.store.ks.master = .ok access)
    (hcall : Wallet.reserveAndSign part plan access t.session = (reply, v))
    (hleft : t'.store = v.store) (hheard : t'.session.node.heard = v.node.heard)
    (hsigned : ∀ o wire, r = .ok o → o.signed? = some wire →
      ∃ signed, reply = .ok signed ∧ signed.wire = wire) : Does t t' r := by
  have hmethod : Wallet.Method.call part (.reserveAndSign plan access) t.session =
      (reply.map Wallet.Answer.signed, v) := Call.map_apply hcall
  refine .turn rfl (fun t' a ha => ?_) hmethod hleft hheard fun o wire ho hwire => ?_
  · cases ha
    exact haccess
  · obtain ⟨signed, rfl, hwire⟩ := hsigned o wire ho hwire
    obtain ⟨p, slot, key, change, -, hreserved⟩ := Wallet.reserved_of_signed hcall
    exact ⟨signed, rfl, countHeld_of_attach hreserved.hattached, hwire⟩

theorem does_cmdSend (h : cmdSend part s t.store.ks.master t = (r, t')) : Does t t' r := by
  have hplans : Call.Quiet (Desk.store (D := D)) (Desk.onSession (ε := Empty)
      (withAccess s.tag t.store.ks.master fun access => planSpend part s access)) :=
    quiet_onSession (quiet_withAccess fun access => quiet_planSpend)
  rcases hplans.bind_cases h with ⟨⟨⟩, -⟩ | ⟨planned, u, hplanned, hstore, h⟩
  rcases planned with e | plan
  · cases h
    exact .still hstore fun o ho => by cases ho; rfl
  have htag : plan.tag = s.tag := by
    rcases onSession_withAccess hplanned with ⟨e, hr, -⟩ | ⟨access, -, ⟨found, hr, hplan⟩ | ⟨hr, -⟩⟩ <;>
      cases hr
    exact planSpend_tag hplan
  dsimp only at h
  rw [renders_ok] at h
  dsimp only at h
  refine Does.after ?_ hstore
  rw [← hstore, ← htag] at h
  rcases Call.bind_cases h with ⟨signed, v, hx, h⟩ | ⟨⟨⟩, -, -⟩ | ⟨hx, rfl⟩
  · rcases onSession_withAccess hx with ⟨e, hr, hkept⟩ | ⟨access, haccess, ⟨found, hr, hcall⟩ | ⟨hr, -⟩⟩ <;>
      cases hr
    · cases h
      exact .still hkept fun o ho => by cases ho; rfl
    rcases signed with e | signed
    · cases h
      exact does_reserve haccess hcall rfl rfl fun o wire ho hwire => by cases ho; cases hwire
    · obtain ⟨p, slot, key, change, -, hreserved⟩ := Wallet.reserved_of_signed hcall
      rcases hship : Desk.ship (D := D) (ε := Empty) signed.wire signed.id v with ⟨r', w⟩
      obtain ⟨hleft, -, said, rfl, -⟩ := Desk.ship_cases (countHeld_of_attach hreserved.hattached) hship
      have hheard := Desk.ship_heard hship
      dsimp only at h
      rw [Call.bind_of_ok hship] at h
      cases h
      exact does_reserve haccess hcall hleft hheard fun o wire ho hwire => by
        cases ho
        exact ⟨signed, rfl, Option.some.inj hwire⟩
  · rcases onSession_withAccess hx with ⟨e, hr, -⟩ | ⟨access, haccess, ⟨found, hr, -⟩ | ⟨-, hcall⟩⟩
    · cases hr
    · cases hr
    · exact does_reserve haccess hcall rfl rfl fun o wire ho _ => by cases ho

theorem does_cmdResign (h : cmdResign part s t.store.ks.master t = (r, t')) : Does t t' r := by
  have hstore := (quiet_cmdResign.keeps h).1
  rcases cmdResign_cases h with ⟨o, rfl, hwire, -⟩ |
    ⟨access, dsts, signed, said, u, u', rfl, haccess, hu, hagain, hheard, -⟩
  · exact .still hstore fun o' ho => by cases ho; exact Command.Outcome.signed?_of_wire? hwire
  · have hmethod : Wallet.Method.call part (.resignPending s.tag access dsts s.feeTotal s.blkToLive) u =
        (.ok (.signed signed), u') := Call.map_apply (f := Wallet.Answer.signed) hagain
    have hleft : t'.store = u'.store :=
      hstore.trans (hu.symm.trans (Wallet.quiet_resignPending.keeps hagain).1.symm)
    refine .turn hu (fun t' a ha => ?_) hmethod hleft hheard fun o wire ho hwire => ?_
    · cases ha
      exact haccess
    · cases ho
      obtain ⟨p, hm⟩ := Wallet.live_of_resignPending hagain
      obtain ⟨slot, pending, addresses, entry, plan, key, -, -, -, -, -, -, hattached⟩ :=
        Wallet.resignPending_ok hm hagain
      exact ⟨signed, rfl, countHeld_of_attach hattached, Option.some.inj hwire⟩

theorem does_behindTheGate {command : Command}
    (h : behindTheGate part t.store.ks.master command t = (r, t')) : Does t t' r := by
  unfold behindTheGate at h
  split at h
  · cases h
    exact .still rfl fun o ho => by cases ho; rfl
  · exact does_cmdSettle h
  · exact does_cmdSend h
  · exact does_cmdResign h
  · cases h
    exact .still rfl fun o ho => by cases ho; rfl

end

/-! ## One command -/

theorem does_openAndDecide {command : Command} {r : Reply Empty Decided}
    (h : openAndDecide t.store.ks.master command t = (r, t')) : Does t t' (r.map Decided.outcome) := by
  cases openAndDecide_cases h with
  | refused hstore _ hwire =>
    exact .still hstore fun o ho => by cases ho; exact Command.Outcome.signed?_of_wire? hwire
  | @ran part u r _ hstore _ hcall =>
    rw [outcome_mk]
    rw [← hstore] at hcall
    exact (does_behindTheGate hcall).after hstore

theorem does_cmdRestore {master : Secret} {account : UInt32} {scanTo : Option UInt32}
    (h : cmdRestore (some master) account scanTo t = (r, t')) : Does t t' r := by
  obtain ⟨reply, hcall, hnone⟩ := said_of_call (fun found u => by
    rcases found with (failure | ⟨⟩) | restored <;> exact ⟨_, rfl, rfl⟩) h
  cases restore_cases hcall with
  | refused hstore => exact .still hstore hnone
  | held hstore => exact .still hstore hnone
  | called _ _ _ hm hnew hadd => exact .adds hm hnew hadd hnone

theorem does_cmdReconcile {tag : Tag} {advanceTo : UInt32} {p : Parsed}
    (hm : t.store.ks.memory = some p) (h : cmdReconcile tag t.store.ks.master advanceTo t = (r, t')) :
    Does t t' r := by
  obtain ⟨reply, hcall, hnone⟩ := said_of_call (fun found u => by
    rcases found with (failure | ⟨⟩) | reviewed <;> exact ⟨_, rfl, rfl⟩) h
  cases review_cases hm hcall with
  | still hstore _ => exact .still hstore hnone
  | called _ _ _ hslot _ hahead haccess hheard haddress _ hcall _ =>
    exact .advances hm hslot hahead haccess (by rw [hheard]; exact List.mem_cons_self) haddress hcall hnone

omit [Layout D] in
/-- What is submitted came from no store. -/
theorem signed?_cmdSubmit {artifact : Text} {o : Command.Outcome}
    (h : cmdSubmit (D := D) (ε := Empty) artifact t = (.ok o, t')) : o.signed? = none := by
  unfold cmdSubmit at h
  rcases hart : artifactOf artifact with o' | tx <;> rw [hart] at h
  · cases h
    exact Command.Outcome.signed?_of_wire? (artifactOf_error hart)
  dsimp only at h
  rcases hdest : destination (tagOf tx.srcAddr) with cause | dest <;> rw [hdest] at h
  · cases h
    rfl
  · rcases Call.bind_cases h with ⟨said, u, -, h⟩ | ⟨⟨⟩, -, -⟩ | ⟨-, hr⟩
    · cases h
      rfl
    · cases hr

theorem does_before {x : Call (Desk D) Empty Command.Outcome} {r : Reply Empty Decided}
    (hx : ∀ {r}, x t = (r, t') → Does t t' r) (h : beforeTheGate x t = (r, t')) :
    Does t t' (r.map Decided.outcome) := by
  rcases Call.bind_cases h with ⟨o, u, hxo, h⟩ | ⟨⟨⟩, -, -⟩ | ⟨hxo, rfl⟩
  · cases h
    exact hx hxo
  · exact hx hxo

/-- Everything a command on a live handle does. -/
theorem decide_does (read : Bytes → Option Json.Value) {command : Command} {r : Reply Empty Decided}
    {p : Parsed} (hm : t.store.ks.memory = some p) (h : command.decide read t = (r, t')) :
    Does t t' (r.map Decided.outcome) := by
  have hmute (hwrites : command.writes = false) (hships : command.ships = false) :
      Does t t' (r.map Decided.outcome) := by
    refine .still ((quiet_decide read hwrites).keeps h).1 fun o ho => ?_
    have hs := ships_decide read command h
    rw [ho] at hs
    cases hs with
    | nothing _ hnone => exact Command.Outcome.signed?_of_wire? hnone
    | image hmay =>
      rw [hships] at hmay
      cases hmay
  unfold Command.decide at h
  rw [Call.get_bind] at h
  rcases hmaster : t.session.store.ks.masterSeed with e | master <;> rw [hmaster] at h
  · cases h
    exact .still rfl fun o ho => by cases ho; rfl
  obtain rfl := masterSeed_eq_ok hmaster
  cases command with
  | send spend => exact does_openAndDecide h
  | settle tag => exact does_openAndDecide h
  | resign spend => exact does_openAndDecide h
  | reconcile tag advanceTo => exact does_before (does_cmdReconcile hm) h
  | restore account scanTo =>
    refine does_before (fun hx => ?_) h
    rcases hnone : t.session.store.ks.master with _ | master <;> rw [hnone] at hx
    · cases hx
      exact .still rfl fun o ho => by cases ho; rfl
    · exact does_cmdRestore hx
  | submit artifact =>
    refine does_before (fun hx => .still (quiet_cmdSubmit.keeps hx).1 fun o ho => ?_) h
    subst ho
    exact signed?_cmdSubmit hx
  | create | balance | address | status | discover | lookupTransaction | recentTransactions | block
  | blocks | mempool => exact hmute rfl rfl

end

end MochimoWallet.Cli
