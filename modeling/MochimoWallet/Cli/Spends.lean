import MochimoWallet.Cli.Effects
import MochimoWallet.Mesh.Queries

/-!
# The life of an artifact

`send` reserves what it prints and prints what it posts. `resign` brings the same bytes back for as
long as the reservation is open, and `submit` takes them from the page, on any machine.
-/

namespace MochimoWallet.Cli

open Codec Keystore Session Mesh
open Command (Decided)

section
variable [Crypto] {D : Type} {part : Partition} {s : Spend} {master : Option Secret}

/-! ## Access -/

theorem masterSeed_eq_ok {ks : Keystore} (h : ks.masterSeed = .ok master) : master = ks.master := by
  obtain ⟨live, -, h⟩ := bind_eq_ok.mp h
  cases h
  rfl

/-- The access an account is signed with: the root it brought, or the master the store holds. -/
inductive Entrusted (p : Parsed) (tag : Tag) : KeyAccess → Prop where
  | root {slot : Slot} (hslot : p.slots.get? tag = some slot)
      (hkind : slot.account.kind = .imported) : Entrusted p tag .storedRoot
  | master {slot : Slot} {master : Secret} (hslot : p.slots.get? tag = some slot)
      (hkind : slot.account.kind = .derived) (hmaster : p.master = some master) :
      Entrusted p tag (.master master)

theorem Entrusted.later {p q : Parsed} {tag : Tag} {access : KeyAccess} (h : Entrusted p tag access)
    (hlater : p.Later q) : Entrusted q tag access := by
  cases h with
  | root hslot hkind =>
    obtain ⟨slot', hslot', hkey, -⟩ := hlater.key hslot
    exact .root hslot' ((congrArg KeyMaterial.kind hkey).trans hkind)
  | master hslot hkind hmaster =>
    obtain ⟨slot', hslot', hkey, -⟩ := hlater.key hslot
    exact .master hslot' ((congrArg KeyMaterial.kind hkey).trans hkind) (hlater.master hmaster)

theorem accessFor_eq_ok {ks : Keystore} {p : Parsed} {tag : Tag} {access : KeyAccess}
    (hm : ks.memory = some p) :
    accessFor ks tag ks.master = .ok access ↔ Entrusted p tag access := by
  rw [(memory_eq_some.mp hm).2]
  constructor
  · intro h
    obtain ⟨view, hview, h⟩ := bind_eq_ok.mp h
    obtain ⟨slot, hslot, rfl⟩ := (viewOf_eq_ok hm).mp hview
    dsimp only at h
    rcases hkind : slot.account.kind with _ | _ <;> rw [hkind] at h
    · rcases hmaster : p.master with _ | master <;> rw [hmaster] at h <;> cases h
      exact .master hslot hkind hmaster
    · cases h
      exact .root hslot hkind
  · intro h
    unfold accessFor
    cases h with
    | root hslot hkind =>
      rw [(viewOf_eq_ok hm).mpr ⟨_, hslot, rfl⟩, ok_bind]
      dsimp only
      rw [hkind]
    | master hslot hkind hmaster =>
      rw [(viewOf_eq_ok hm).mpr ⟨_, hslot, rfl⟩, ok_bind]
      dsimp only
      rw [hkind, hmaster]

/-- The access an account's kind demands does not change while the store lives on. -/
theorem accessFor_later {ks ks' : Keystore} {p q : Parsed} {tag : Tag} {access : KeyAccess}
    (hm : ks.memory = some p) (hm' : ks'.memory = some q) (hlater : p.Later q)
    (h : accessFor ks tag ks.master = .ok access) : accessFor ks' tag ks'.master = .ok access :=
  (accessFor_eq_ok hm').mpr (((accessFor_eq_ok hm).mp h).later hlater)

/-! ## What is planned -/

omit [Crypto] in
/-- A spend of everything leaves nothing. -/
theorem spendAllAmount_eq_ok {balance feeTotal amount : UInt64}
    (h : spendAllAmount balance feeTotal = .ok amount) :
    amount.toNat + feeTotal.toNat = balance.toNat := by
  unfold spendAllAmount at h
  split at h
  · cases h
  next hle =>
  cases h
  have hsub := UInt64.toNat_sub_of_le balance feeTotal (UInt64.le_iff_toNat_le.mpr (by omega))
  omega

omit [Crypto] in
/-- What a spend of everything asks for is its one amount. -/
theorem amountSum_everything {amount : UInt64} (h : s.spendsEverything = true) :
    amountSum (spendDestinations s amount) = amount.toNat := by
  obtain ⟨tag, dsts, feeTotal, blkToLive⟩ := s
  unfold Spend.spendsEverything at h
  rw [Bool.and_eq_true, decide_eq_true_eq] at h
  obtain ⟨hlen, hany⟩ := h
  obtain ⟨d, rfl⟩ := List.length_eq_one_iff.mp hlen
  rw [List.any_cons, List.any_nil, Bool.or_false, Option.isNone_iff_eq_none] at hany
  simp [spendDestinations, amountSum, hany]

/-- What `all` comes to. -/
def Spend.resolved (s : Spend) (balance : UInt64) : Except Error UInt64 :=
  if s.spendsEverything then spendAllAmount balance s.feeTotal else .ok 0

/-- A plan is made of the store's addresses, one entry the node answered and the spend's own figures. -/
theorem planSpend_made {access : KeyAccess} {plan : SpendPlan} {u u' : Session D}
    (h : planSpend part s access u = (.ok plan, u')) :
    ∃ addresses entry amount, u.store.ks.spendAddresses s.tag access = .ok addresses ∧
      SpendPlan.new addresses entry (spendDestinations s amount) s.feeTotal s.blkToLive = .ok plan ∧
      s.resolved entry.balance = .ok amount := by
  unfold planSpend at h
  rw [Call.ite_apply] at h
  unfold Spend.resolved
  split at h
  · next hall =>
    rcases Call.bind_cases h with ⟨addresses, v, haddresses, h⟩ | ⟨e, -, hr⟩ | ⟨-, hr⟩
    · unfold Wallet.spendAddresses at haddresses
      rw [Call.get_bind] at haddresses
      rcases Call.check_bind_cases haddresses with ⟨e, -, hr, -⟩ | ⟨⟨⟩, -, haddresses⟩
      · cases hr
      obtain ⟨haddresses, -⟩ := Call.check_ok_iff.mp haddresses
      rcases resolveTag_bind h with ⟨e, hr, -⟩ | ⟨entry, w, -, -, h⟩
      · cases hr
      rcases Call.check_bind_cases h with ⟨e, -, hr, -⟩ | ⟨amount, hamount, h⟩
      · cases hr
      exact ⟨addresses, entry, amount, haddresses, (Call.check_ok_iff.mp h).1, by rw [if_pos hall, hamount]⟩
    · cases hr
    · cases hr
  · next hall =>
    obtain ⟨addresses, entry, haddresses, hplan⟩ := Wallet.plan_made h
    exact ⟨addresses, entry, 0, haddresses, hplan, by rw [if_neg hall]⟩

omit [Crypto] in
/-- Every tag has a destination's text, so every page of a spend renders. -/
theorem renders_ok (source : Tag) (dsts : List Destination) : renders source dsts = .ok () := by
  have hlines : ∃ lines, destinationLines dsts = .ok lines := by
    unfold destinationLines
    induction dsts with
    | nil => exact ⟨[], rfl⟩
    | cons d ds ih =>
      obtain ⟨lines, hlines⟩ := ih
      obtain ⟨text, htext⟩ := tagToBase58_ok d.tag
      rw [List.mapM_cons, hlines, destination, htext]
      exact ⟨text :: lines, rfl⟩
  obtain ⟨lines, hlines⟩ := hlines
  obtain ⟨text, htext⟩ := tagToBase58_ok source
  rw [renders, destination, htext, hlines]
  rfl

/-! ## What `send` leaves -/

variable [Layout D] {t t' : Desk D}

/-- What is behind a page that carries a signed spend: the transaction its bytes are, what the spend
asked for, and what the store holds. -/
structure Sent (s : Spend) (t t' : Desk D) (tx : Transaction) (balance : UInt64) : Prop where
  hread : Transaction.fromWire tx.toWire = .ok tx
  hverify : verifyWots tx = .ok ()
  hdsts : ∃ amount, s.resolved balance = .ok amount ∧ tx.dsts = sortDsts (spendDestinations s amount)
  hrules : ∀ d ∈ tx.dsts, DestinationRules s.tag d
  hfee : tx.feeTotal = s.feeTotal ∧ 500 * tx.dsts.length ≤ tx.feeTotal.toNat
  hblk : tx.blkToLive = s.blkToLive
  htotal : amountSum tx.dsts + tx.changeTotal.toNat + tx.feeTotal.toNat = balance.toNat ∧
    tx.sendTotal.toNat = amountSum tx.dsts
  hall : s.spendsEverything = true → tx.changeTotal = 0
  hheard : ∃ heard, t'.session.node.heard = (s.tag, ⟨tx.srcAddr, balance⟩) :: heard
  hreserved : ∃ p q slot slot' access next, t.store.ks.memory = some p ∧
    Committed t.store t'.store p q (.ok ()) ∧ accessFor t.store.ks s.tag t.store.ks.master = .ok access ∧
    p.slots.get? s.tag = some slot ∧ next.pos = slot.account.wotsIndex.pos + 1 ∧
    t.store.ks.addressAt s.tag slot.account.wotsIndex access = .ok tx.srcAddr ∧
    t.store.ks.addressAt s.tag next access = .ok tx.chgAddr ∧
    q.slots.get? s.tag = some slot' ∧ slot'.pending = some ⟨slot.account.wotsIndex,
      Transaction.messageDigest tx.toTransfer, some ⟨balance, s.blkToLive⟩⟩
  hsigned : ∃ plan access q slot key change, plan.tag = s.tag ∧ plan.balance = balance ∧
    accessFor t'.store.ks s.tag t'.store.ks.master = .ok access ∧ t'.store.ks.memory = some q ∧
    Wallet.Reserved q plan access ⟨tx⟩ slot key change

/-- How a `send` ends. -/
inductive SendEnds (s : Spend) (t t' : Desk D) : Reply Empty Command.Outcome → Prop where
  | refused {o : Command.Outcome} (hstore : t'.store = t.store) (hposted : t'.posted = t.posted)
      (hwire : o.wire? = none) : SendEnds s t t' (.ok o)
  /-- The write did not return. -/
  | cut {r : Reply Empty Command.Outcome} {p p' : Parsed} {written : Reply Error Unit}
      (hm : t.store.ks.memory = some p) (hwritten : written ≠ .ok ())
      (hcommitted : Committed t.store t'.store p p' written) (hposted : t'.posted = t.posted)
      (hwire : ∀ o, r = .ok o → o.wire? = none) : SendEnds s t t' r
  | sent {tx : Transaction} {balance : UInt64} {said : Except ResubmitError Digest}
      {upgraded : Command.Upgraded} (hsent : Sent s t t' tx balance)
      (hposted : t'.posted = tx.toWire :: t.posted) (hecho : ∀ id, said = .ok id → id = tx.idDigest) :
      SendEnds s t t' (.ok (.sent ⟨s.tag, tx.dsts, tx.blkToLive, tx.toWire, said⟩ tx.sendTotal
        tx.feeTotal tx.changeTotal upgraded))

/-- A reservation is refused before the write, cut in it, or signed. -/
theorem reserveAndSign_ends {plan : SpendPlan} {access : KeyAccess} {u u' : Session D}
    {r : Reply Error SignedTransaction} (h : Wallet.reserveAndSign part plan access u = (r, u')) :
    (u'.store = u.store ∧ ∃ e, r = .err e) ∨
      (∃ p p' written, u.store.ks.memory = some p ∧ written ≠ .ok () ∧
        Committed u.store u'.store p p' written ∧ ∀ signed, r ≠ .ok signed) ∨
      ∃ signed, r = .ok signed := by
  cases Wallet.reserveAndSign_cases h with
  | refused hstore => exact .inl ⟨hstore, _, rfl⟩
  | @called addresses entry written hpart haddresses hplan hentry hheard hcall =>
    obtain ⟨p, hm⟩ := Wallet.live_of_spendAddresses haddresses
    rcases written with receipt | e | _
    · obtain ⟨q, slot, key, change, signed, -, -, hsigned⟩ :=
        Wallet.reserved_of_committed haddresses hplan hcall
      exact .inr (.inr ⟨signed, hsigned⟩)
    all_goals
      rcases call_committed hm (persistAdvance_call hcall) with
        ⟨hstore, e', hr⟩ | ⟨p', written, -, hcommitted, hr⟩
    · exact .inl ⟨hstore, e, rfl⟩
    · refine .inr (.inl ⟨p, p', written, hm, ?_, hcommitted, fun _ hr => by cases hr⟩)
      rintro rfl
      cases hr
    · cases hr
    · refine .inr (.inl ⟨p, p', written, hm, ?_, hcommitted, fun _ hr => by cases hr⟩)
      rintro rfl
      cases hr

theorem later_of_signed {plan : SpendPlan} {access : KeyAccess} {signed : SignedTransaction}
    {u u' : Session D} (h : Wallet.reserveAndSign part plan access u = (.ok signed, u')) :
    ∃ p q, u.store.ks.memory = some p ∧ u'.store.ks.memory = some q ∧ p.Later q := by
  generalize hr : (Reply.ok signed : Reply Error SignedTransaction) = r at h
  cases Wallet.reserveAndSign_cases h with
  | refused => cases hr
  | @called addresses entry written hpart haddresses hplan hentry hheard hcall =>
    obtain ⟨p, hm⟩ := Wallet.live_of_spendAddresses haddresses
    rcases written with receipt | e | _
    rotate_left
    · cases hr
    · cases hr
    rcases call_committed hm (persistAdvance_call hcall) with ⟨-, e, he⟩ | ⟨q, reply, hnext, hcommitted, he⟩
    · cases he
    · rcases reply with ⟨⟨⟩⟩ | e | _ <;> cases he
      exact ⟨p, q, hm, hcommitted.hmemory, .single ⟨_, hnext⟩⟩

/-- What was signed for a plan of the spend is behind the page. -/
theorem sent_of_signed {plan : SpendPlan} {access access' : KeyAccess} {signed : SignedTransaction}
    {addresses : SpendAddresses} {entry : LedgerEntry} {amount : UInt64} {u u' : Session D}
    (haddresses : t.store.ks.spendAddresses s.tag access = .ok addresses)
    (hnew : SpendPlan.new addresses entry (spendDestinations s amount) s.feeTotal s.blkToLive = .ok plan)
    (hall : s.resolved entry.balance = .ok amount) (haccess : keyAccess t.store.ks s.tag t.store.ks.master = .ok access')
    (hstore : u.store = t.store) (hstore' : t'.store = u'.store)
    (hheard' : t'.session.node.heard = u'.node.heard)
    (hsigned : Wallet.reserveAndSign part plan access' u = (.ok signed, u')) :
    Sent s t t' signed.tx plan.balance ∧ plan.dsts = signed.tx.dsts ∧
      plan.blkToLive = signed.tx.blkToLive ∧ plan.sendTotal = signed.tx.sendTotal ∧
      plan.feeTotal = signed.tx.feeTotal ∧ plan.changeTotal = signed.tx.changeTotal := by
  have hbuild := SpendPlan.new_eq_ok.mp hnew
  obtain ⟨-, hposition, hsource, hchange, hfee, hblk, hbalance, hdsts, -⟩ := PlanFields.build_eq_ok hbuild
  obtain ⟨hrules, hsum, htotal⟩ := PlanFields.rules_of_build hbuild
  obtain ⟨p', slotNew, key, change, hm, hreserved⟩ := Wallet.reserved_of_signed hsigned
  have haccessFor := keyAccess_eq_ok.mp haccess
  obtain ⟨before, after, hbefore, hafter, hlater⟩ := later_of_signed hsigned
  have haccessLater := accessFor_later (hstore ▸ hbefore) (hstore' ▸ hafter) hlater haccessFor
  obtain ⟨p, q, slot, next, hmp, hslot, hindex, hnext, hsrcAt, hchgAt, htransfer, hverify, hheard, hcommitted,
    slot', hslot', hpending⟩ := Wallet.reserveAndSign_binds hsigned
  rw [hstore] at hmp hsrcAt hchgAt hcommitted
  obtain ⟨slotNow, next', source, change', hslotNow, -, -, hsourceKey, hchangeKey, rfl⟩ :=
    (spendAddresses_eq_ok hmp).mp haddresses
  have htag : plan.tag = s.tag := by
    rw [SpendPlan.tag, hsource]
    exact WotsKey.tagOf_address source s.tag
  rw [htag] at hslot hsrcAt hchgAt hheard hslot'
  have hdsts' : plan.dsts = signed.tx.dsts := (congrArg Transfer.dsts htransfer).symm
  have hblk' : plan.blkToLive = signed.tx.blkToLive := (congrArg Transfer.blkToLive htransfer).symm
  have hsend' : plan.sendTotal = signed.tx.sendTotal := (congrArg Transfer.sendTotal htransfer).symm
  have hfee' : plan.feeTotal = signed.tx.feeTotal := (congrArg Transfer.feeTotal htransfer).symm
  have hchg' : plan.changeTotal = signed.tx.changeTotal := (congrArg Transfer.changeTotal htransfer).symm
  have hperm : signed.tx.dsts.Perm (spendDestinations s amount) := by
    rw [← hdsts', hdsts]
    exact sortDsts_perm_self _
  have hrules' := hrules.perm hperm.symm
  have hsum' := amountSum_perm hperm
  have hzero : s.spendsEverything = true → signed.tx.changeTotal = 0 := by
    intro heverything
    rw [Spend.resolved, if_pos heverything] at hall
    have hamount := spendAllAmount_eq_ok hall
    rw [amountSum_everything heverything] at hsum
    rw [← hchg']
    refine UInt64.toNat_inj.mp ?_
    rw [hfee, hbalance] at htotal
    show plan.changeTotal.toNat = 0
    omega
  have hsent : Sent s t t' signed.tx plan.balance :=
    { hread := Transaction.fromWire_toWire (countHeld_of_attach hreserved.hattached)
      hverify
      hdsts := ⟨amount, by rw [hbalance]; exact hall, hdsts'.symm.trans hdsts⟩
      hrules := fun d hd => by
        have hd := hrules'.destinations d hd
        rwa [WotsKey.tagOf_address] at hd
      hfee := ⟨hfee'.symm.trans hfee, by rw [← hfee', hfee]; exact hrules'.fee⟩
      hblk := hblk'.symm.trans hblk
      htotal := ⟨by rw [hsum', ← hsum, ← hchg', ← hfee']; exact htotal, by rw [← hsend', hsum, hsum']⟩
      hall := hzero
      hheard := ⟨_, hheard'.trans hheard⟩
      hreserved := ⟨p, q, slot, slot', access', next, hmp, by rw [hstore']; exact hcommitted, haccessFor,
        hslot, by rw [hnext, hindex], by rw [hindex]; exact hsrcAt, hchgAt, hslot', by
          rw [hpending, hindex, htransfer, ← plan.digest_eq, SpendPlan.figures, hblk]⟩
      hsigned := ⟨plan, access', p', slotNew, key, change, htag, rfl, haccessLater, by rw [hstore']; exact hm,
        hreserved⟩ }
  exact ⟨hsent, hdsts', hblk', hsend', hfee', hchg'⟩

theorem sends_cmdSend {r : Reply Empty Command.Outcome}
    (h : cmdSend part s t.store.ks.master t = (r, t')) :
    SendEnds s t t' r := by
  have hplans : Call.Quiet (Desk.store (D := D)) (Desk.onSession (ε := Empty)
      (withAccess s.tag t.store.ks.master fun access => planSpend part s access)) :=
    quiet_onSession (quiet_withAccess fun access => quiet_planSpend)
  rcases hplans.bind_cases h with ⟨⟨⟩, -⟩ | ⟨planned, u, hplanned, hstore, h⟩
  obtain ⟨hposted, hend⟩ := Desk.onSession_cases hplanned
  rcases hend with ⟨found, hfound, hcall⟩ | ⟨hfound, -⟩
  rotate_left
  · cases hfound
  cases hfound
  rcases planned with e | plan
  · cases h
    exact .refused hstore hposted rfl
  dsimp only at h
  rcases hrenders : renders s.tag plan.dsts with ⟨tag, cause⟩ | ⟨⟨⟩⟩ <;> rw [hrenders] at h
  · cases h
    exact .refused hstore hposted rfl
  rcases withAccess_cases hcall with ⟨e, he, -⟩ | ⟨access, -, hplan⟩
  · cases he
  obtain ⟨addresses, entry, amount, haddresses, hnew, hall⟩ := planSpend_made hplan
  rcases Call.bind_cases h with ⟨signed, v, hsigning, h⟩ | ⟨⟨⟩, -, -⟩ | ⟨hsigning, rfl⟩
  · obtain ⟨hposted', hend⟩ := Desk.onSession_cases hsigning
    rcases hend with ⟨found, hfound, hcall⟩ | ⟨hfound, -⟩
    rotate_left
    · cases hfound
    cases hfound
    rcases withAccess_cases hcall with ⟨e, he, hsame⟩ | ⟨access', haccess, hsign⟩
    · rcases signed with e' | signed <;> cases he
      cases h
      exact .refused ((congrArg Session.store hsame).trans hstore) (hposted'.trans hposted) rfl
    rcases reserveAndSign_ends hsign with ⟨hkept, e, he⟩ | ⟨p, p', written, hm, hwritten, hcommitted, hnone⟩ |
      ⟨signed', hsigned⟩
    · rcases signed with e' | signed <;> cases he
      cases h
      exact .refused (hkept.trans hstore) (hposted'.trans hposted) rfl
    · rcases signed with e' | signed
      · cases h
        rw [show u.session.store = t.store from hstore] at hm hcommitted
        exact .cut hm hwritten hcommitted (hposted'.trans hposted) fun o ho => by cases ho; rfl
      · exact absurd rfl (hnone signed)
    · rcases signed with e' | signed
      · cases hsigned
      clear hsigned
      obtain ⟨p, slot, key, change, -, hreserved⟩ := Wallet.reserved_of_signed hsign
      rcases hship : Desk.ship (D := D) (ε := Empty) signed.tx.toWire signed.tx.idDigest v with ⟨r', w⟩
      obtain ⟨hstoreShip, hpostedShip, said, rfl, hecho⟩ :=
        Desk.ship_cases (countHeld_of_attach hreserved.hattached) hship
      dsimp only at h
      rw [SignedTransaction.wire, SignedTransaction.id, Call.bind_of_ok hship] at h
      cases h
      obtain ⟨hsent, hdsts, hblk, hsend, hfee, hchange⟩ :=
        sent_of_signed haddresses hnew hall (congrArg Opened.ks hstore ▸ haccess) hstore hstoreShip
          (Desk.ship_heard hship) hsign
      rw [hdsts, hblk, hsend, hfee, hchange]
      exact .sent hsent (by rw [hpostedShip, hposted', hposted]) hecho
  · obtain ⟨hposted', hend⟩ := Desk.onSession_cases hsigning
    rcases hend with ⟨found, hfound, -⟩ | ⟨-, hcall⟩
    · cases hfound
    rcases withAccess_cases hcall with ⟨e, he, -⟩ | ⟨access', -, hsign⟩
    · cases he
    rcases reserveAndSign_ends hsign with ⟨-, e, he⟩ | ⟨p, p', written, hm, hwritten, hcommitted, -⟩ | ⟨tx, htx⟩
    · cases he
    · rw [show u.session.store = t.store from hstore] at hm hcommitted
      exact .cut hm hwritten hcommitted (hposted'.trans hposted) fun o ho => by cases ho
    · cases htx

theorem SendEnds.after {u : Desk D} {r : Reply Empty Command.Outcome} (h : SendEnds s u t' r)
    (hstore : u.store = t.store) (hposted : u.posted = t.posted) : SendEnds s t t' r := by
  cases h with
  | refused hkept hsame hwire => exact .refused (hkept.trans hstore) (hsame.trans hposted) hwire
  | cut hm hwritten hcommitted hsame hwire =>
    rw [hstore] at hm hcommitted
    exact .cut hm hwritten hcommitted (hsame.trans hposted) hwire
  | sent hsent hposts hecho =>
    have hreserved := hsent.hreserved
    rw [hstore] at hreserved
    exact .sent { hsent with hreserved } (by rw [hposts, hposted]) hecho

theorem ends_send {read : Bytes → Option Json.Value} {r : Reply Empty Decided}
    (h : (Command.send s).decide read t = (r, t')) : SendEnds s t t' (r.map Decided.outcome) := by
  unfold Command.decide at h
  rw [Call.get_bind] at h
  rcases hmaster : t.session.store.ks.masterSeed with e | master <;> rw [hmaster] at h
  · cases h
    exact .refused rfl rfl rfl
  obtain rfl := masterSeed_eq_ok hmaster
  cases openAndDecide_cases h with
  | refused hstore hposted hwire => exact .refused hstore hposted hwire
  | @ran part u r _ hstore hposted hcall =>
    rw [outcome_mk]
    have hcall : cmdSend part s u.store.ks.master u = (r, t') := by
      rw [hstore]
      exact hcall
    exact (sends_cmdSend hcall).after hstore hposted

/-- A `send` that prints no artifact posted nothing, and reserved nothing unless its write was cut. One
that prints an artifact posted those bytes and no others; they read back as a transaction that
recovers, keeps the node's rules and is the spend that was asked for, of the balance the node had last
said its source holds, and the store holds its digest and figures at the position whose key signed it. -/
theorem send_reserves_what_it_prints (read : Bytes → Option Json.Value) (s : Spend) (t : Desk D) :
    let (r, t') := (Command.send s).decide (ε := Empty) read t
    (t'.posted = t.posted ∧ (∀ d, r = .ok d → d.outcome.wire? = none) ∧
      (t'.store = t.store ∨ ∃ p p' written, t.store.ks.memory = some p ∧ written ≠ .ok () ∧
        Committed t.store t'.store p p' written)) ∨
    ∃ standing tx balance said upgraded, Sent s t t' tx balance ∧ t'.posted = tx.toWire :: t.posted ∧
      r = .ok ⟨standing, .sent ⟨s.tag, tx.dsts, tx.blkToLive, tx.toWire, said⟩ tx.sendTotal tx.feeTotal
        tx.changeTotal upgraded⟩ ∧ ∀ id, said = .ok id → id = tx.idDigest := by
  rcases hrun : (Command.send s).decide (ε := Empty) read t with ⟨r, t'⟩
  have hends := ends_send hrun
  generalize hout : r.map Decided.outcome = out at hends
  have hcarries {d : Decided} (hd : r = .ok d) : out = .ok d.outcome := by
    rw [← hout, hd]
    rfl
  cases hends with
  | refused hstore hposted hwire =>
    refine .inl ⟨hposted, fun d hd => ?_, .inl hstore⟩
    cases hcarries hd
    exact hwire
  | @cut _ p p' written hm hwritten hcommitted hposted hwire =>
    exact .inl ⟨hposted, fun d hd => hwire _ (hcarries hd), .inr ⟨p, p', written, hm, hwritten, hcommitted⟩⟩
  | @sent tx balance said upgraded hsent hposted hecho =>
    rcases r with ⟨standing, o⟩ | ⟨⟨⟩⟩ | _
    · cases hout
      exact .inr ⟨standing, tx, balance, said, upgraded, hsent, hposted, rfl, hecho⟩
    · cases hout

end

/-! ## What `resign` brings back -/

section
variable [Crypto] {D : Type} {part : Partition} {s : Spend} {master : Option Secret} {t t' : Desk D}
  {r : Reply Empty Command.Outcome}

/-- What `resign` was asked for is what was planned, while the balance is what it was. -/
theorem resignDestinations_of {balance amount : UInt64} {entry : LedgerEntry}
    {entries : List (Except Error LedgerEntry)} {u : Session D} (hamount : s.resolved balance = .ok amount)
    (hbalance : entry.balance = balance) (htag : tagOf entry.address = s.tag)
    (hentries : u.node.entries = .ok entry :: .ok entry :: entries) :
    ∃ u', resignDestinations s u = (.ok (spendDestinations s amount), u') ∧ u'.store = u.store ∧
      u'.node.heard ⊆ (s.tag, entry) :: u.node.heard ∧ ∃ rest, u'.node.entries = .ok entry :: rest := by
  unfold resignDestinations
  rw [Spend.resolved] at hamount
  split
  · next hall =>
    have hasked := asking_of (D := D) (x := fun _ => Node.resolveTag s.tag)
      (Node.resolveTag_answered hentries htag)
    rw [if_pos hall] at hamount
    rw [Call.bind_of_ok hasked, hbalance, hamount]
    exact ⟨_, rfl, rfl, List.Subset.refl _, entries, rfl⟩
  · next hall =>
    rw [if_neg hall] at hamount
    cases hamount
    exact ⟨u, rfl, rfl, List.subset_cons_self _ _, _, hentries⟩

/-- What a `resign` that goes through posts and says. -/
theorem cmdResign_of {access : KeyAccess} {dsts : List Destination} {signed : SignedTransaction}
    {w w' : Session D} (haccess : keyAccess t.store.ks s.tag master = .ok access)
    (hasks : resignDestinations s t.session = (.ok dsts, w))
    (hagain : Wallet.resignPending part s.tag access dsts s.feeTotal s.blkToLive w = (.ok signed, w'))
    (hheld : signed.tx.CountHeld) : ∃ said t', cmdResign (ε := Empty) part s master t =
        (.ok (.resigned ⟨s.tag, sortDsts dsts, s.blkToLive, signed.wire, said⟩), t') ∧
      (t'.store = w'.store ∧ t'.session.node.heard = w'.node.heard) ∧
      t'.posted = signed.wire :: t.posted ∧ ∀ id, said = .ok id → id = signed.id := by
  have hasked : withAccess s.tag master (fun access => do
      let dsts ← resignDestinations s
      pure (access, dsts)) t.session = (.ok (access, dsts), w) := by
    unfold withAccess
    rw [Call.get_bind, haccess, Call.check_ok, Call.pure_bind]
    exact Call.bind_of_ok hasks
  have hfirst := Desk.onSession_of (ε := Empty) (r := .ok (access, dsts)) hasked
  have hsecond := Desk.onSession_of (ε := Empty) (r := .ok signed)
    (t := { t with posting := { t.posting with session := w } }) hagain
  obtain ⟨text, htext⟩ := tagToBase58_ok s.tag
  rcases hship : Desk.ship (D := D) (ε := Empty) signed.wire signed.id
    { t with posting := { t.posting with session := w' } } with ⟨r', u⟩
  obtain ⟨hstore, hposted, said, rfl, hecho⟩ := Desk.ship_cases hheld hship
  refine ⟨said, u, ?_, ⟨hstore, Desk.ship_heard hship⟩, hposted, hecho⟩
  unfold cmdResign
  rw [Call.bind_of_ok hfirst]
  dsimp only
  rw [Call.bind_of_ok hsecond]
  unfold resignOutcome
  dsimp only
  rw [destination, htext]
  dsimp only
  rw [Call.bind_of_ok hship]
  rfl

end

section
variable [Crypto] {D E : Type} [Layout D] [Layout E] {t t' : Desk D} {u : Desk E} {q q' : Parsed}

omit [Layout E] in
/-- A page of `send` that carries bytes is of a spend that was sent. -/
theorem sent_of_wire {read : Bytes → Option Json.Value} {s : Spend} {d : Decided} {wire : Bytes}
    (hsend : (Command.send s).decide (ε := Empty) read t = (.ok d, t'))
    (hwire : d.outcome.wire? = some wire) : ∃ tx balance, Sent s t t' tx balance ∧ wire = tx.toWire := by
  have hends := ends_send hsend
  generalize hout : (Reply.ok d : Reply Empty Decided).map Decided.outcome = out at hends
  cases hends with
  | refused _ _ hnone =>
    cases hout
    rw [hnone] at hwire
    cases hwire
  | cut _ _ _ _ hnone =>
    rw [hnone _ hout.symm] at hwire
    cases hwire
  | @sent tx balance said upgraded hsent =>
    have ho := Reply.ok.inj hout
    rw [ho] at hwire
    cases hwire
    exact ⟨tx, balance, hsent, rfl⟩

/-- While the reservation stands, whatever `resign` carries is what `send` printed: a spend of another
image is another digest. With the spend `send` was given, the account reconciled and the ledger as it
was, `resign` posts those bytes again, on whatever medium and in whatever process. -/
theorem resign_brings_it_back (hl : Crypto.Lawful) (read : Bytes → Option Json.Value) {s : Spend}
    {d : Decided} {wire : Bytes} (hsend : (Command.send s).decide (ε := Empty) read t = (.ok d, t'))
    (hwire : d.outcome.wire? = some wire) (hq : t'.store.ks.memory = some q)
    (hq' : u.store.ks.memory = some q') (hreached : Reached q q')
    (hopen : ∃ slot slot' pending, q.slots.get? s.tag = some slot ∧ slot.pending = some pending ∧
      q'.slots.get? s.tag = some slot' ∧ slot'.pending = some pending) :
    ∃ (tx : Transaction) (balance : UInt64), wire = tx.toWire ∧ Transaction.fromWire wire = .ok tx ∧
      amountSum tx.dsts + tx.changeTotal.toNat + tx.feeTotal.toNat = balance.toNat ∧
      (∀ (s' : Spend) d' u', s'.tag = s.tag →
        (Command.resign s').decide (ε := Empty) read u = (.ok d', u') →
        d'.outcome.wire? = none ∧ u'.posted = u.posted ∨
          ∃ tx' : Transaction, d'.outcome.wire? = some tx'.toWire ∧ u'.posted = tx'.toWire :: u.posted ∧
            (Crypto.Sha256Apart tx'.signedPrefix tx.signedPrefix → tx' = tx)) ∧
      ∀ part v entries, Wallet.openAsking u.store.ks.master .never u.session = (.ok part, v) →
        part.divergenceFor s.tag = none →
        v.node.entries = .ok ⟨tx.srcAddr, balance⟩ :: .ok ⟨tx.srcAddr, balance⟩ :: entries →
        ∃ said u', (Command.resign s).decide (ε := Empty) read u =
            (.ok ⟨part.diverged, .resigned ⟨s.tag, tx.dsts, tx.blkToLive, wire, said⟩⟩, u') ∧
          u'.posted = wire :: u.posted ∧ ∀ id, said = .ok id → id = tx.idDigest := by
  obtain ⟨tx, balance, hsent, rfl⟩ := sent_of_wire hsend hwire
  obtain ⟨plan, access, q₀, slot, key, change, htag, hbalance, haccess, hq₀, hreserved⟩ := hsent.hsigned
  cases hq₀.symm.trans hq
  have hlater := hreached.later hl
  have haccess' := accessFor_later hq hq' hlater haccess
  obtain ⟨htransfer, -⟩ := SignedTransaction.attach_transfer hreserved.hattached
  have hstands : ∃ slot' pending, q'.slots.get? plan.tag = some slot' ∧ slot'.pending = some pending ∧
      pending.spentIndex = plan.position := by
    obtain ⟨slot₀, slot', pending, hslot₀, hpending₀, hslot', hpending'⟩ := hopen
    rw [← htag] at hslot₀ hslot'
    cases hslot₀.symm.trans hreserved.hslot
    cases hpending₀.symm.trans hreserved.hpending
    exact ⟨slot', _, hslot', hpending', rfl⟩
  have hmaster : u.session.store.ks.masterSeed = .ok u.store.ks.master := by
    rw [masterSeed, live_of_memory hq']
    rfl
  refine ⟨tx, balance, rfl, hsent.hread, hsent.htotal.1, fun s' d' u' htag' hresign => ?_,
    fun part v entries hopening hclear hentries => ?_⟩
  · unfold Command.decide at hresign
    rw [Call.get_bind, hmaster] at hresign
    generalize hr : (Reply.ok d' : Reply Empty Decided) = r at hresign
    cases openAndDecide_cases hresign with
    | refused _ hposted hnone => cases hr; exact .inl ⟨hnone, hposted⟩
    | @ran part w r' _ hstore hposted hcall =>
      rcases cmdResign_cases hcall with ⟨o, rfl, hnone, hsame⟩ |
        ⟨access', dsts, signed, said, v, v', rfl, haccessNow, hv, hagain, -, hposts, -⟩
      · cases hr
        exact .inl ⟨hnone, hsame.trans hposted⟩
      · cases hr
        refine .inr ⟨signed.tx, rfl, by rw [hposts, hposted]; rfl, fun hapart => ?_⟩
        rw [hstore, htag', haccess'] at haccessNow
        cases haccessNow
        rw [htag', ← htag] at hagain
        rw [show tx.signedPrefix = plan.transfer.signedPrefix from congrArg Transfer.signedPrefix htransfer]
          at hapart
        have hm : v.store.ks.memory = some q' := by rw [hv, hstore, hq']
        rw [hreserved.resigned hlater hm hstands access.told_self hagain hapart]
  · obtain ⟨amount, hamount, hdsts⟩ := hsent.hdsts
    have hsource : tx.srcAddr = plan.srcAddr := congrArg Transfer.srcAddr htransfer
    have hfee : plan.feeTotal = s.feeTotal := (congrArg Transfer.feeTotal htransfer).symm.trans hsent.hfee.1
    have hblk : plan.blkToLive = s.blkToLive := (congrArg Transfer.blkToLive htransfer).symm.trans hsent.hblk
    have hplanned : plan.dsts = tx.dsts := (congrArg Transfer.dsts htransfer).symm
    have hstore : v.store = u.store := (Wallet.quiet_openAsking.keeps hopening).1
    obtain ⟨w, hasks, hkept, -, rest, hrest⟩ := resignDestinations_of hamount rfl
      (by rw [hsource]; exact htag) hentries
    have hperm : (spendDestinations s amount).Perm plan.dsts := by
      rw [hplanned, hdsts]
      exact (sortDsts_perm_self _).symm
    have hw : w.store.ks.memory = some q' := by rw [hkept, hstore, hq']
    have hagain := hreserved.resigns (s := w) hlater hw hstands (htag ▸ hclear) hperm
      (by rw [hrest, hsource, hbalance])
    rw [htag, hfee, hblk] at hagain
    have haccessNow : keyAccess v.store.ks s.tag u.store.ks.master = .ok access := by
      rw [hstore]
      exact keyAccess_eq_ok.mpr haccess'
    obtain ⟨said, u', hresigned, -, hposts, hecho⟩ := cmdResign_of (s := s)
      (t := { u with posting := { u.posting with session := v } }) haccessNow hasks hagain
      (countHeld_of_attach hreserved.hattached)
    refine ⟨said, u', ?_, hposts, hecho⟩
    unfold Command.decide
    rw [Call.get_bind, hmaster]
    refine openAndDecide_of hopening hclear ?_
    rw [hdsts, hsent.hblk]
    exact hresigned

end

/-! ## What `submit` takes -/

section
variable [Crypto] {D E : Type} [Layout D] {t t' : Desk D}

omit [Layout D] in
/-- An artifact that passes is posted as it is. -/
theorem cmdSubmit_of {artifact : Text} {tx : Transaction} (hart : artifactOf artifact = .ok tx) (t : Desk D) :
    ∃ said t', cmdSubmit (ε := Empty) artifact t =
        (.ok (.submitted (tagOf tx.srcAddr) tx.toWire said), t') ∧ t'.store = t.store ∧
      t'.posted = tx.toWire :: t.posted ∧ ∀ id, said = .ok id → id = tx.idDigest := by
  obtain ⟨text, htext⟩ := tagToBase58_ok (tagOf tx.srcAddr)
  rcases hship : Desk.ship (D := D) (ε := Empty) tx.toWire tx.idDigest t with ⟨r, t'⟩
  obtain ⟨hstore, hposted, said, rfl, hecho⟩ := Desk.ship_cases (artifactOf_eq_ok.mp hart).1 hship
  refine ⟨said, t', ?_, hstore, hposted, hecho⟩
  unfold cmdSubmit
  rw [hart]
  dsimp only
  rw [destination, htext]
  dsimp only
  rw [Call.bind_of_ok hship]
  rfl

/-- `submit` writes the bytes that were typed or nothing, and touches no store; and the artifact of any
page, with any white space around it, leaves from any machine as those bytes under the id its
transaction has. -/
theorem submit_takes_the_page (read : Bytes → Option Json.Value) {command : Command} {d : Decided}
    {wire : Bytes} (hpage : command.decide (ε := Empty) read t = (.ok d, t'))
    (hwire : d.outcome.wire? = some wire) (u : Desk E) :
    (∀ artifact r u', runSubmit (ε := Empty) artifact u = (r, u') → u'.store = u.store ∧
      (u'.posted = u.posted ∨ ∃ typed, Hex.decode artifact.trim "artifact" = .ok typed ∧
        u'.posted = typed :: u.posted)) ∧
    ∃ tx, Transaction.fromWire wire = .ok tx ∧ ∀ left right : Text,
      (∀ c ∈ left, Text.isWhitespace c = true) → (∀ c ∈ right, Text.isWhitespace c = true) →
      ∃ said u', runSubmit (ε := Empty) (left ++ Hex.ofBytes wire ++ right) u =
          (.ok ⟨[], .submitted (tagOf tx.srcAddr) wire said⟩, u') ∧
        u'.posted = wire :: u.posted ∧ ∀ id, said = .ok id → id = tx.idDigest := by
  refine ⟨fun artifact r u' h => ?_, ?_⟩
  · rcases hart : artifactOf artifact with o | tx
    · unfold runSubmit beforeTheGate cmdSubmit at h
      rw [hart] at h
      cases h
      exact ⟨rfl, .inl rfl⟩
    · obtain ⟨said, v, hcall, hstore, hposted, -⟩ := cmdSubmit_of hart u
      unfold runSubmit beforeTheGate at h
      rw [Call.bind_of_ok hcall] at h
      cases h
      exact ⟨hstore, .inr ⟨_, (artifactOf_eq_ok.mp hart).2, hposted⟩⟩
  · have hships := ships_decide read command hpage
    generalize hout : (Reply.ok d : Reply Empty Decided).map Decided.outcome = out at hships
    cases hships with
    | killed => cases hout
    | nothing _ hnone =>
      cases hout
      rw [hnone] at hwire
      cases hwire
    | @image o tx said _ hheld _ himage =>
      cases hout
      cases himage.symm.trans hwire
      refine ⟨tx, Transaction.fromWire_toWire hheld, fun left right hleft hright => ?_⟩
      have hplain : ∀ c ∈ Hex.ofBytes tx.toWire, Text.isWhitespace c = false :=
        fun c hc => Hex.isDigit_not_whitespace (Hex.isDigit_of_mem_ofBytes c hc)
      have hart : artifactOf (left ++ Hex.ofBytes tx.toWire ++ right) = .ok tx :=
        artifactOf_eq_ok.mpr ⟨hheld, by rw [Text.trim_around hleft hplain hright, Mesh.Hex.decode_ofBytes]⟩
      obtain ⟨said', u', hcall, -, hposted, hecho⟩ := cmdSubmit_of hart u
      exact ⟨said', u', Call.bind_of_ok hcall, hposted, hecho⟩

end

/-! ## A spend of everything -/

section
variable [Crypto] {D : Type} [Layout D] {part : Partition} {s : Spend} {master : Option Secret} {t : Desk D}

/-- What a `send` that goes through says. -/
theorem cmdSend_of {access : KeyAccess} {plan : SpendPlan} {signed : SignedTransaction} {w w' : Session D}
    (haccess : keyAccess t.store.ks s.tag master = .ok access)
    (hplan : planSpend part s access t.session = (.ok plan, w)) (hkept : w.store = t.store)
    (hsigned : Wallet.reserveAndSign part plan access w = (.ok signed, w')) :
    ∃ said t' upgraded, cmdSend (ε := Empty) part s master t =
        (.ok (.sent ⟨s.tag, plan.dsts, plan.blkToLive, signed.wire, said⟩ plan.sendTotal plan.feeTotal
          plan.changeTotal upgraded), t') ∧ t'.store = w'.store ∧
      t'.session.node.heard = w'.node.heard := by
  have hplanned : withAccess s.tag master (fun access => planSpend part s access) t.session =
      (.ok plan, w) := by
    unfold withAccess
    rw [Call.get_bind, haccess, Call.check_ok, Call.pure_bind]
    exact hplan
  have hsigning : withAccess s.tag master (fun access => Wallet.reserveAndSign part plan access) w =
      (.ok signed, w') := by
    unfold withAccess
    rw [Call.get_bind, hkept, haccess, Call.check_ok, Call.pure_bind]
    exact hsigned
  have hfirst := Desk.onSession_of (ε := Empty) (r := .ok plan) hplanned
  have hsecond := Desk.onSession_of (ε := Empty) (r := .ok signed)
    (t := { t with posting := { t.posting with session := w } }) hsigning
  obtain ⟨p, slot, key, change, -, hreserved⟩ := Wallet.reserved_of_signed hsigned
  rcases hship : Desk.ship (D := D) (ε := Empty) signed.wire signed.id
    { t with posting := { t.posting with session := w' } } with ⟨r', u⟩
  obtain ⟨hstore, -, said, rfl, -⟩ := Desk.ship_cases (countHeld_of_attach hreserved.hattached) hship
  refine ⟨said, u, u.store.ks.upgradedFrom, ?_, hstore, Desk.ship_heard hship⟩
  unfold cmdSend
  rw [Call.bind_of_ok hfirst]
  dsimp only
  rw [renders_ok]
  dsimp only
  rw [Call.bind_of_ok hsecond]
  dsimp only
  rw [Call.bind_of_ok hship]
  rfl

end

section

attribute [local instance] Crypto.copying

/-- A session that opens, a spend of everything planned and reserved on it, and what the store comes to
when it is opened again. -/
structure Emptying where
  spend : Spend
  master : Option Secret
  access : KeyAccess
  session : Session UnixMedium
  part : Partition
  opened : Session UnixMedium
  addresses : SpendAddresses
  plan : SpendPlan
  planned : Session UnixMedium
  receipt : AdvanceReceipt
  store : Opened UnixMedium
  later : Partition
  reopened : Session UnixMedium

/-- The node answers for both accounts at either opening, and for the account spent from after it. -/
def emptying : Option Emptying := do
  let w := World.nowhere.execAll [] (growing (.replicate seedLen 9))
  let tag := (Account.derive sevens 0).tag
  let ks ← w.handle
  let master ← ks.masterSeed.toOption
  let access ← (keyAccess ks tag master).toOption
  let imported ← (ks.addressAt (Account.ofFirst (.replicate seedLen 9) fives).tag .zero
    .storedRoot).toOption
  let addresses ← (ks.spendAddresses tag access).toOption
  let entry : LedgerEntry := ⟨addresses.source, 1000⟩
  let spend : Spend := ⟨tag, [⟨.zero addrTagLen, .zero addrRefLen, none⟩], 500, 0⟩
  let node := Wallet.answering [.ok ⟨imported, 0⟩, .ok entry, .ok entry, .ok entry]
  let session : Session UnixMedium := ⟨⟨ks, ⟨w.disk, [], []⟩⟩, node⟩
  match Wallet.openAsking master .never session with
  | (.ok part, opened) =>
    match planSpend part spend access opened with
    | (.ok plan, planned) => do
      let _ ← (Wallet.checkPlan plan addresses).toOption
      match persistAdvance plan.tag plan.digest plan.figures planned.store with
      | (.ok receipt, store) =>
        match Wallet.openAsking store.ks.master .never ⟨store, node⟩ with
        | (.ok later, reopened) => some ⟨spend, master, access, session, part, opened, addresses, plan,
          planned, receipt, store, later, reopened⟩
        | _ => none
      | _ => none
    | _ => none
  | _ => none

/-- What the command and the opening after it go through. -/
structure Emptying.Went (x : Emptying) : Prop where
  hall : x.spend.spendsEverything = true
  hmaster : x.session.store.ks.masterSeed = .ok x.master
  haccess : keyAccess x.session.store.ks x.spend.tag x.master = .ok x.access
  haddresses : x.session.store.ks.spendAddresses x.spend.tag x.access = .ok x.addresses
  hopening : Wallet.openAsking x.master .never x.session = (.ok x.part, x.opened)
  hclear : x.part.divergenceFor x.spend.tag = none
  hplanned : planSpend x.part x.spend x.access x.opened = (.ok x.plan, x.planned)
  htag : x.plan.tag = x.spend.tag
  hplan : Wallet.checkPlan x.plan x.addresses = .ok ()
  hblk : x.plan.blkToLive = 0
  hentries : x.planned.node.entries = [.ok ⟨x.plan.srcAddr, x.plan.balance⟩]
  hsource : x.addresses.source = x.plan.srcAddr
  hcall : persistAdvance x.plan.tag x.plan.digest x.plan.figures x.planned.store = (.ok x.receipt, x.store)
  hlater : Wallet.openAsking x.store.ks.master .never ⟨x.store, x.session.node⟩ = (.ok x.later, x.reopened)
  hclear' : x.later.divergenceFor x.spend.tag = none
  hentries' : x.reopened.node.entries = [.ok ⟨x.plan.srcAddr, x.plan.balance⟩,
    .ok ⟨x.plan.srcAddr, x.plan.balance⟩]

theorem emptying_went : ∃ x : Emptying, x.Went := by
  have hrun : (emptying.map fun x => decide (x.spend.spendsEverything = true ∧
      x.part.divergenceFor x.spend.tag = none ∧
      x.plan.tag = x.spend.tag ∧ x.plan.blkToLive = 0 ∧
      x.planned.node.entries = [.ok ⟨x.plan.srcAddr, x.plan.balance⟩] ∧
      x.addresses.source = x.plan.srcAddr ∧ x.later.divergenceFor x.spend.tag = none ∧
      x.reopened.node.entries = [.ok ⟨x.plan.srcAddr, x.plan.balance⟩,
        .ok ⟨x.plan.srcAddr, x.plan.balance⟩])) = some true := by
    decide +kernel
  obtain ⟨x, hx, hchecks⟩ := Option.map_eq_some_iff.mp hrun
  obtain ⟨hall, hclear, htag, hblk, hentries, hsource, hclear', hentries'⟩ := of_decide_eq_true hchecks
  unfold emptying at hx
  obtain ⟨ks, -, hx⟩ := Option.bind_eq_some_iff.mp hx
  obtain ⟨master, hmaster, hx⟩ := Option.bind_eq_some_iff.mp hx
  obtain ⟨access, haccess, hx⟩ := Option.bind_eq_some_iff.mp hx
  obtain ⟨imported, -, hx⟩ := Option.bind_eq_some_iff.mp hx
  obtain ⟨addresses, haddresses, hx⟩ := Option.bind_eq_some_iff.mp hx
  dsimp only at hx
  split at hx
  · next part opened hopening =>
    split at hx
    · next plan planned hplanned =>
      obtain ⟨⟨⟩, hplan, hx⟩ := Option.bind_eq_some_iff.mp hx
      split at hx
      · next receipt store hcall =>
        split at hx
        · next later reopened hlater =>
          obtain rfl := Option.some.inj hx
          exact ⟨_, hall, toOption_eq_some.mp hmaster, toOption_eq_some.mp haccess, toOption_eq_some.mp haddresses,
            hopening, hclear, hplanned, htag, toOption_eq_some.mp hplan, hblk, hentries, hsource, hcall, hlater,
            hclear', hentries'⟩
        · cases hx
      · cases hx
    · cases hx
  · cases hx

/-- The desk the spend is sent from. -/
def Emptying.desk (x : Emptying) : Desk UnixMedium := ⟨⟨x.session, []⟩, ⟨[], []⟩⟩

/-- The desk the store is opened at again, its node answering as before. -/
def Emptying.again (x : Emptying) : Desk UnixMedium := ⟨⟨⟨x.store, x.session.node⟩, []⟩, ⟨[], []⟩⟩

theorem Emptying.Went.sends {x : Emptying} (hx : x.Went) (read : Bytes → Option Json.Value) :
    ∃ signed said upgraded t' q slot key change,
      (Command.send x.spend).decide (ε := Empty) read x.desk = (.ok ⟨x.part.diverged, .sent
        ⟨x.spend.tag, x.plan.dsts, x.plan.blkToLive, signed.wire, said⟩ x.plan.sendTotal x.plan.feeTotal
        x.plan.changeTotal upgraded⟩, t') ∧ t'.store = x.store ∧ x.store.ks.memory = some q ∧
      Wallet.Reserved q x.plan x.access signed slot key change := by
  have hopened : x.opened.store = x.session.store := (Wallet.quiet_openAsking.keeps hx.hopening).1
  have hplanned : x.planned.store = x.opened.store := (quiet_planSpend.keeps hx.hplanned).1
  obtain ⟨signed, s', hsigned, hkept⟩ := Wallet.reserveAndSign_ok
    (by rw [hx.htag]; exact hx.hclear) (by rw [hplanned, hopened, hx.htag]; exact hx.haddresses)
    hx.hplan hx.hblk hx.hentries rfl (Wallet.checkEntry_eq_ok.mpr ⟨hx.hsource.symm, rfl⟩) hx.hcall
  obtain ⟨q, slot, key, change, hq, hreserved⟩ := Wallet.reserved_of_signed hsigned
  obtain ⟨said, t', upgraded, hcall, hstore, -⟩ := cmdSend_of (s := x.spend)
    (t := { x.desk with posting := { x.desk.posting with session := x.opened } })
    (by rw [Desk.store, Desk.session, hopened]; exact hx.haccess) hx.hplanned hplanned hsigned
  have hmaster : x.desk.session.store.ks.masterSeed = .ok x.master := hx.hmaster
  refine ⟨signed, said, upgraded, t', q, slot, key, change, ?_, hstore.trans hkept, hkept ▸ hq, hreserved⟩
  unfold Command.decide
  rw [Call.get_bind, hmaster]
  exact openAndDecide_of hx.hopening hx.hclear hcall

/-- Everything is sent; and the same spend, given to a wallet opened again, posts the same bytes. -/
theorem resign_brings_it_back_emptying : ∃ (x : Emptying) (t' u' : Desk UnixMedium) (d d' : Decided)
    (wire : Bytes), x.spend.spendsEverything = true ∧
      (Command.send x.spend).decide (ε := Empty) (fun _ => none) x.desk = (.ok d, t') ∧
      d.outcome.wire? = some wire ∧ x.again.store = t'.store ∧
      (Command.resign x.spend).decide (ε := Empty) (fun _ => none) x.again = (.ok d', u') ∧
      d'.outcome.wire? = some wire ∧ u'.posted = [wire] := by
  obtain ⟨x, hx⟩ := emptying_went
  obtain ⟨signed, said, upgraded, t', q, slot, key, change, hsend, hstore, hq, hreserved⟩ :=
    hx.sends fun _ => none
  obtain ⟨htransfer, -⟩ := SignedTransaction.attach_transfer hreserved.hattached
  have hslot := hreserved.hslot
  rw [hx.htag] at hslot
  obtain ⟨tx, balance, -, hread, htotal, -, hlives⟩ := resign_brings_it_back (u := x.again)
    Crypto.copying_lawful (fun _ => none) hsend rfl (by rw [hstore, hq]) hq (.written .refl)
    ⟨slot, slot, _, hslot, hreserved.hpending, hslot, hreserved.hpending⟩
  -- The page's bytes are of the transaction that was signed.
  obtain rfl : signed.tx = tx := Except.ok.inj
    ((Transaction.fromWire_toWire (countHeld_of_attach hreserved.hattached)).symm.trans hread)
  have hbalance : balance = x.plan.balance := by
    have hadds := x.plan.adds_up
    rw [htransfer] at htotal
    refine UInt64.toNat_inj.mp (htotal.symm.trans ?_)
    rw [← hadds.2, hadds.1]
    rfl
  have hsource : signed.tx.srcAddr = x.plan.srcAddr := congrArg Transfer.srcAddr htransfer
  obtain ⟨said', u', hresign, hposts, -⟩ := hlives x.later x.reopened [] hx.hlater hx.hclear'
    (by rw [hx.hentries', hsource, hbalance])
  exact ⟨x, t', u', _, _, _, hx.hall, hsend, rfl, hstore.symm, hresign, rfl, hposts⟩

/-- The artifact of that page, pasted with the line's end, goes out again. -/
theorem submit_takes_the_page_emptying : ∃ (x : Emptying) (t' u' : Desk UnixMedium) (d d' : Decided)
    (wire : Bytes), (Command.send x.spend).decide (ε := Empty) (fun _ => none) x.desk = (.ok d, t') ∧
      d.outcome.wire? = some wire ∧
      runSubmit (ε := Empty) ([] ++ Hex.ofBytes wire ++ ['\n']) x.again = (.ok d', u') ∧
      d'.outcome.wire? = some wire ∧ u'.posted = [wire] := by
  obtain ⟨x, hx⟩ := emptying_went
  obtain ⟨signed, said, upgraded, t', q, slot, key, change, hsend, -⟩ := hx.sends fun _ => none
  obtain ⟨-, tx, -, htakes⟩ := submit_takes_the_page (fun _ => none) hsend rfl x.again
  obtain ⟨said', u', hsubmit, hposted, -⟩ := htakes [] ['\n'] (by simp) (by simp [Text.isWhitespace])
  exact ⟨x, t', u', _, _, _, hsend, rfl, hsubmit, rfl, hposted⟩

end

end MochimoWallet.Cli
