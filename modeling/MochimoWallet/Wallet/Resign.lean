import MochimoWallet.Keystore.Later
import MochimoWallet.Wallet

/-!
# Signing again

A reservation that was signed can be signed again for as long as it is open, and only
into the transaction it was made for. The digest the store kept names the transfer,
the position names the key, and a signature and a transfer make one wire image; so
whatever plan a later call rebuilds, if it passes it is the plan that was reserved.
-/

namespace MochimoWallet

open Codec Keystore Session

section
variable [Crypto]

/-- No collision of SHA-256 on these two images. -/
def Crypto.Sha256Apart (a b : Bytes) : Prop := Crypto.sha256 a = Crypto.sha256 b → a = b

namespace Keystore

/-- What a store that stands in `p` comes to: by writes on its handle, or in a run of its directory
or of its slots, with other handles, failures and power cuts. -/
inductive Reached (p q : Parsed) : Prop where
  | written (h : p.Later q)
  | directory {password : Bytes} {ok : World → Event → Prop} {w w' : World} {ks : Keystore}
      (hrun : World.Run password ok w w') (hsound : w.Sound password)
      (hstate : w.state password = some p) (hflushed : w.flushed password = some p)
      (hks : w'.handle = some ks) (hm : ks.memory = some q)
  | slots {password : Bytes} {w w' : SlotWorld} {handle : SlotHandle}
      (hrun : SlotWorld.Run password w w') (hinv : w.Inv password)
      (hcurrent : w.current = some p) (hinflight : w.inflight = none)
      (hhandle : w'.handle = some handle) (hm : handle.ks.memory = some q)

theorem Reached.later (hl : Crypto.Lawful) {p q : Parsed} (h : Reached p q) : p.Later q := by
  cases h with
  | written h => exact h
  | directory hrun hsound hstate hflushed hks hm => exact hrun.later hl hsound hstate hflushed hks hm
  | slots hrun hinv hcurrent hinflight hhandle hm =>
    exact hrun.later hl hinv hcurrent hinflight hhandle hm

end Keystore

namespace Wallet

variable {D : Type} {part : Partition} {s s' : Session D} {p q : Parsed} {plan : SpendPlan}
  {access : KeyAccess} {signed : SignedTransaction}

/-! ## A reservation that was signed -/

/-- What the store holds of a plan it signed. -/
structure Reserved (p : Parsed) (plan : SpendPlan) (access : KeyAccess) (signed : SignedTransaction)
    (slot : Slot) (key change : WotsKey) : Prop where
  hslot : p.slots.get? plan.tag = some slot
  hpending : slot.pending = some ⟨plan.position, plan.digest, some plan.figures⟩
  hindex : plan.position.pos < slot.account.wotsIndex.pos
  hsource : keyAt p.slots slot plan.position access = .ok key
  hsource_address : key.address plan.tag = plan.srcAddr
  hchange : keyAt p.slots slot slot.account.wotsIndex access = .ok change
  hchange_address : change.address plan.tag = plan.chgAddr
  hattached : SignedTransaction.attach plan (signWith key plan.position plan.digest) = .ok signed

theorem live_of_spendAddresses {ks : Keystore} {tag : Tag} {addresses : SpendAddresses}
    (h : ks.spendAddresses tag access = .ok addresses) : ∃ p, ks.memory = some p := by
  rcases hm : ks.memory with _ | p
  · obtain ⟨first, hfirst⟩ := poisoned_of_memory hm
    rw [spendAddresses, live, hfirst] at h
    cases h
  · exact ⟨p, rfl⟩

/-- A reservation that was committed for a plan is signed: nothing after the write can fail. -/
theorem reserved_of_committed [Layout D] {addresses : SpendAddresses} {receipt : AdvanceReceipt}
    {t : Opened D} (haddresses : s.store.ks.spendAddresses plan.tag access = .ok addresses)
    (hplan : checkPlan plan addresses = .ok ())
    (hcall : persistAdvance plan.tag plan.digest plan.figures s.store = (.ok receipt, t)) :
    ∃ p slot key change signed, t.ks.memory = some p ∧
      Reserved p plan access signed slot key change ∧
      Wallet.signed plan access t.ks (.ok receipt) = .ok signed := by
  obtain ⟨p, hm⟩ := live_of_spendAddresses haddresses
  obtain ⟨slot, next, source, change, hslot, hopen, hnext, hsource, hchange, rfl⟩ :=
    (spendAddresses_eq_ok hm).mp haddresses
  obtain ⟨hposition, hsrc, hchg⟩ := checkPlan_eq_ok.mp hplan
  dsimp only at hposition hsrc hchg
  have hend := call_end hm (persistAdvance_call hcall)
  generalize hw : (Reply.map some (Reply.ok receipt) : Reply Error (Option AdvanceReceipt)) = w at hend
  cases hend with
  | refused => cases hw
  | failed => cases hw
  | killed => cases hw
  | @done p' image hstep himage hsteps hks =>
  have hm' : t.ks.memory = some p' := by rw [hks]; rfl
  have hlater : p.Later p' := .single ⟨_, hstep⟩
  cases (Parsed.step_of_next hstep).1 with
  | @persistAdvance _ _ _ slot' index ht hnone hindex hslots hmaster =>
  cases ht.symm.trans hslot
  have hslot' := (congrArg (·.get? plan.tag) hslots).trans (Parsed.get?_write hslot ..)
  have hnext' : next = index := by
    refine WotsIndex.ext_pos ?_
    rw [WotsIndex.advanced_eq_ok.mp hnext, hindex]
  subst hnext'
  have hreceipt : receipt = ⟨plan.tag, next⟩ := by
    have hr : receipt = ⟨plan.tag, ((p'.slots.get? plan.tag).map (·.account.wotsIndex)).getD .zero⟩ :=
      Option.some.inj (Reply.ok.inj hw)
    rw [hr, hslot']
    rfl
  subst hreceipt
  have hkey := keyAt_later hlater ⟨{ slot.account with wotsIndex := next },
    some ⟨slot.account.wotsIndex, plan.digest, some plan.figures⟩, none⟩ hslot rfl rfl hsource
  obtain ⟨signed, hattach⟩ := SignedTransaction.attach_signWith hsrc
  have hsign : t.ks.signSpend plan.digest ⟨plan.tag, next⟩ access =
      .ok (signWith source slot.account.wotsIndex plan.digest) :=
    (signSpend_eq_ok hm').mpr ⟨_, _, source, hslot', rfl, rfl, hindex, rfl, hkey, rfl⟩
  rw [hposition] at hkey hsign
  refine ⟨p', _, source, change, signed, hm', ⟨hslot', by rw [hposition], ?_, hkey, hsrc,
    keyAt_later hlater _ hslot rfl rfl hchange, hchg, hattach⟩, ?_⟩
  · rw [← hposition]
    exact Nat.lt_of_lt_of_eq (Nat.lt_succ_self _) hindex.symm
  · rw [Wallet.signed, hsign, ok_bind, hattach]
    rfl

/-- A plan that was signed is reserved in the store. -/
theorem reserved_of_signed [Layout D]
    (h : reserveAndSign part plan access s = (.ok signed, s')) :
    ∃ p slot key change, s'.store.ks.memory = some p ∧ Reserved p plan access signed slot key change := by
  generalize hr : (Reply.ok signed : Reply Error SignedTransaction) = r at h
  cases reserveAndSign_cases h with
  | refused => cases hr
  | @called addresses entry written hpart haddresses hplan hentry hheard hcall =>
  rcases written with receipt | e | _
  · obtain ⟨p, slot, key, change, signed', hm, hreserved, hsigned⟩ :=
      reserved_of_committed haddresses hplan hcall
    rw [hsigned] at hr
    cases hr
    exact ⟨p, slot, key, change, hm, hreserved⟩
  · cases hr
  · cases hr

/-- With every guard passed and the write committed, the plan is signed. -/
theorem reserveAndSign_ok [Layout D] {addresses : SpendAddresses} {entry : LedgerEntry}
    {entries : List (Except Error LedgerEntry)} {receipt : AdvanceReceipt} {t : Opened D}
    (hpart : part.divergenceFor plan.tag = none)
    (haddresses : s.store.ks.spendAddresses plan.tag access = .ok addresses)
    (hplan : checkPlan plan addresses = .ok ()) (hexpiry : plan.blkToLive = 0)
    (hentries : s.node.entries = .ok entry :: entries) (htag : tagOf entry.address = plan.tag)
    (hentry : checkEntry plan addresses entry = .ok ())
    (hcall : persistAdvance plan.tag plan.digest plan.figures s.store = (.ok receipt, t)) :
    ∃ signed s', reserveAndSign part plan access s = (.ok signed, s') ∧ s'.store = t := by
  obtain ⟨p, slot, key, change, signed, -, -, hsigned⟩ :=
    reserved_of_committed haddresses hplan hcall
  have hasked := asking_of (D := D) (x := fun _ => Node.resolveTag plan.tag)
    (Node.resolveTag_answered hentries htag)
  have hquiet : asking (D := D) (fun _ => checkExpiry plan.blkToLive) s = (.ok (), s) := by
    rw [hexpiry]
    rfl
  unfold reserveAndSign
  rw [Call.get_bind, Partition.requireReconciled_eq_ok.mpr hpart, Call.check_ok, Call.pure_bind,
    haddresses, Call.check_ok, Call.pure_bind, hplan, Call.check_ok, Call.pure_bind,
    Call.bind_of_ok hquiet, Call.bind_of_ok hasked, hentry, Call.check_ok, Call.pure_bind]
  have hwriting : writing (persistAdvance plan.tag plan.digest plan.figures)
      { s with node := { s.node with entries, heard := (plan.tag, entry) :: s.node.heard } } =
      (.ok receipt, ⟨t, { s.node with entries, heard := (plan.tag, entry) :: s.node.heard }⟩) := by
    unfold writing Call.zoom
    rw [hcall]
  rw [Call.bind_of_ok hwriting, Call.get_bind]
  rw [Wallet.signed] at hsigned
  rcases hsign : t.ks.signSpend plan.digest receipt access with e | sig <;> rw [hsign] at hsigned
  · cases hsigned
  rcases hattach : SignedTransaction.attach plan sig with e | tx <;> rw [ok_bind, hattach] at hsigned
  · cases hsigned
  cases hsigned
  rw [Call.check_ok, Call.pure_bind, hattach]
  exact ⟨signed, _, rfl, rfl⟩

/-! ## What a later call returns -/

theorem pendingOf_eq_ok {ks : Keystore} (hm : ks.memory = some p) {tag : Tag} {pending : Pending}
    {index : WotsIndex} : pendingOf ks tag = .ok (pending, index) ↔ ∃ slot,
      p.slots.get? tag = some slot ∧ slot.pending = some pending ∧ index = slot.account.wotsIndex := by
  rw [pendingOf, view, live_of_memory hm, ok_bind, ok_bind]
  rcases p.slots.get? tag with _ | slot
  · simp
  · rw [Option.map_some]
    dsimp only
    rcases hp : slot.pending with _ | b
    · simp [hp]
    · simp [hp, eq_comm]

theorem refuseRebuild_err {α : Type} {tag : Tag} {e : Error} {r : Reply Error α}
    (h : refuseRebuild tag access e s = (r, s')) : ∃ e', r = .err e' := by
  unfold refuseRebuild at h
  split at h
  · rcases quiet_reconcile.bind_cases h with ⟨e, rfl, -⟩ | ⟨found, t, -, -, h⟩
    · exact ⟨e, rfl⟩
    · split at h <;> cases h <;> exact ⟨_, rfl⟩
  · cases h
    exact ⟨e, rfl⟩

/-- What a call that signed again went through. -/
theorem resignPending_went {tag : Tag} {dsts : List Destination} {feeTotal blkToLive : UInt64}
    (hm : s.store.ks.memory = some p)
    (h : resignPending part tag access dsts feeTotal blkToLive s = (.ok signed, s')) :
    ∃ slot pending addresses entry plan key, p.slots.get? tag = some slot ∧
      slot.pending = some pending ∧
      reservedAddresses s.store.ks tag access pending slot.account.wotsIndex = .ok addresses ∧
      SpendPlan.new addresses entry dsts feeTotal blkToLive = .ok plan ∧
      plan.digest = pending.digest ∧ keyAt p.slots slot pending.spentIndex access = .ok key ∧
      SignedTransaction.attach plan (signWith key pending.spentIndex pending.digest) = .ok signed := by
  unfold resignPending at h
  rw [Call.get_bind] at h
  rcases Call.check_bind_cases h with ⟨e, -, hr, -⟩ | ⟨⟨⟩, -, h⟩
  · cases hr
  rcases Call.check_bind_cases h with ⟨e, -, hr, -⟩ | ⟨⟨pending, index⟩, hpending, h⟩
  · cases hr
  rcases Call.check_bind_cases h with ⟨e, -, hr, -⟩ | ⟨addresses, haddresses, h⟩
  · cases hr
  rcases resolveTag_bind h with ⟨e, hr, -⟩ | ⟨entry, t, -, -, h⟩
  · cases hr
  obtain ⟨slot, hslot, hopen, hindex⟩ := (pendingOf_eq_ok hm).mp hpending
  rcases hplan : SpendPlan.new addresses entry dsts feeTotal blkToLive with e | plan <;>
    rw [hplan] at h
  · obtain ⟨e', hr⟩ := refuseRebuild_err h
    cases hr
  dsimp only at h
  rw [Call.ite_apply] at h
  split at h
  · cases h
  next hdigest =>
  rcases Call.check_bind_cases h with ⟨e, -, hr, -⟩ | ⟨sig, hsig, h⟩
  · cases hr
  obtain ⟨t', pending', key, ht', hopen', hkey, rfl⟩ := (resignReserved_eq_ok hm).mp hsig
  cases ht'.symm.trans hslot
  cases hopen'.symm.trans hopen
  exact ⟨slot, pending, addresses, entry, plan, key, hslot, hopen, hindex ▸ haddresses, hplan,
    not_not.mp hdigest, hkey, (Call.check_ok_iff.mp h).1⟩

theorem live_of_resignPending {tag : Tag} {dsts : List Destination} {feeTotal blkToLive : UInt64}
    (h : resignPending part tag access dsts feeTotal blkToLive s = (.ok signed, s')) :
    ∃ p, s.store.ks.memory = some p := by
  rcases hm : s.store.ks.memory with _ | p
  · obtain ⟨first, hfirst⟩ := poisoned_of_memory hm
    unfold resignPending at h
    rw [Call.get_bind] at h
    rcases Call.check_bind_cases h with ⟨e, -, hr, -⟩ | ⟨⟨⟩, -, h⟩
    · cases hr
    rcases Call.check_bind_cases h with ⟨e, -, hr, -⟩ | ⟨found, hfound, -⟩
    · cases hr
    rw [pendingOf, view, live, hfirst] at hfound
    cases hfound
  · exact ⟨p, rfl⟩

theorem resignPending_ok {tag : Tag} {dsts : List Destination} {feeTotal blkToLive : UInt64}
    (hm : s.store.ks.memory = some p)
    (h : resignPending part tag access dsts feeTotal blkToLive s = (.ok signed, s')) :
    ∃ slot pending addresses entry plan key, p.slots.get? tag = some slot ∧
      slot.pending = some pending ∧ addresses.position = pending.spentIndex ∧
      SpendPlan.new addresses entry dsts feeTotal blkToLive = .ok plan ∧
      plan.digest = pending.digest ∧ keyAt p.slots slot pending.spentIndex access = .ok key ∧
      SignedTransaction.attach plan (signWith key pending.spentIndex pending.digest) = .ok signed := by
  obtain ⟨slot, pending, addresses, entry, plan, key, hslot, hopen, haddresses, hrest⟩ :=
    resignPending_went hm h
  obtain ⟨source, -, haddresses⟩ := bind_eq_ok.mp haddresses
  obtain ⟨change, -, haddresses⟩ := bind_eq_ok.mp haddresses
  cases haddresses
  exact ⟨slot, pending, _, entry, plan, key, hslot, hopen, rfl, hrest⟩

/-- The slot of a reservation, while it is open. -/
theorem Reserved.same {slot : Slot} {key change : WotsKey}
    (h : Reserved p plan access signed slot key change) (hlater : p.Later q) {slot' : Slot}
    {pending : Pending} (hslot : q.slots.get? plan.tag = some slot')
    (hopen : slot'.pending = some pending) (hposition : pending.spentIndex = plan.position) :
    slot' = slot ∧ pending = ⟨plan.position, plan.digest, some plan.figures⟩ := by
  obtain ⟨s', hs', hsince⟩ := hlater.slot h.hslot h.hpending
  cases hs'.symm.trans hslot
  have hsame := hsince.same (b := ⟨plan.position, plan.digest, some plan.figures⟩) h.hindex hopen
    hposition
  subst hsame
  exact ⟨rfl, Option.some.inj (hopen.symm.trans h.hpending)⟩

/-- Whatever is signed again is what was signed. -/
theorem Reserved.resigned {slot : Slot} {key change : WotsKey} {access' : KeyAccess}
    {signed' : SignedTransaction} {dsts : List Destination} {feeTotal blkToLive : UInt64}
    (h : Reserved p plan access signed slot key change) (hlater : p.Later q)
    (hm : s.store.ks.memory = some q) (hopen : ∃ slot' pending, q.slots.get? plan.tag = some slot' ∧
      slot'.pending = some pending ∧ pending.spentIndex = plan.position)
    (htold : access.Told access')
    (hresign : resignPending part plan.tag access' dsts feeTotal blkToLive s = (.ok signed', s'))
    (hapart : Crypto.Sha256Apart signed'.tx.signedPrefix plan.transfer.signedPrefix) :
    signed' = signed := by
  obtain ⟨slot', pending, hslot', hpending, hposition⟩ := hopen
  obtain ⟨rfl, rfl⟩ := h.same hlater hslot' hpending hposition
  obtain ⟨t, pending, addresses, entry, plan', key', ht, hp, haddresses, hplan, hdigest, hkey,
    hattach⟩ := resignPending_ok hm hresign
  cases ht.symm.trans hslot'
  cases hp.symm.trans hpending
  obtain ⟨htransfer, -⟩ := SignedTransaction.attach_transfer hattach
  have hsame : plan'.transfer = plan.transfer := by
    rw [htransfer] at hapart
    refine signedPrefix_inj (hapart ?_)
    exact plan'.digest_eq.symm.trans (hdigest.trans plan.digest_eq)
  have hposition' : plan'.position = plan.position :=
    (PlanFields.build_eq_ok (SpendPlan.new_eq_ok.mp hplan)).2.1.trans haddresses
  have hkeys := keyAt_unique rfl rfl htold h.hsource hkey
  subst hkeys
  have hagain := (SignedTransaction.attach_congr hsame hposition' _).symm.trans hattach
  exact Except.ok.inj (hagain.symm.trans h.hattached)

/-- What a call goes through to sign again. -/
theorem resignPending_of {tag : Tag} {slot : Slot} {pending : Pending} {addresses : SpendAddresses}
    {entry : LedgerEntry} {entries : List (Except Error LedgerEntry)} {dsts : List Destination}
    {feeTotal blkToLive : UInt64} {key : WotsKey} (hm : s.store.ks.memory = some p)
    (hslot : p.slots.get? tag = some slot) (hopen : slot.pending = some pending)
    (hpart : part.divergenceFor tag = none)
    (haddresses : reservedAddresses s.store.ks tag access pending slot.account.wotsIndex =
      .ok addresses)
    (hentries : s.node.entries = .ok entry :: entries) (htag : tagOf entry.address = tag)
    (hplan : SpendPlan.new addresses entry dsts feeTotal blkToLive = .ok plan)
    (hdigest : plan.digest = pending.digest)
    (hkey : keyAt p.slots slot pending.spentIndex access = .ok key)
    (hattach : SignedTransaction.attach plan (signWith key pending.spentIndex pending.digest) =
      .ok signed) :
    resignPending part tag access dsts feeTotal blkToLive s =
      (.ok signed, { s with node := { s.node with entries, heard := (tag, entry) :: s.node.heard } }) := by
  have hsign : s.store.ks.resignReserved tag access =
      .ok (signWith key pending.spentIndex pending.digest) :=
    (resignReserved_eq_ok hm).mpr ⟨slot, pending, key, hslot, hopen, hkey, rfl⟩
  have hasked := asking_of (D := D) (x := fun _ => Node.resolveTag tag)
    (Node.resolveTag_answered hentries htag)
  unfold resignPending
  rw [Call.get_bind, Partition.requireReconciled_eq_ok.mpr hpart, Call.check_ok, Call.pure_bind,
    (pendingOf_eq_ok hm).mpr ⟨slot, hslot, hopen, rfl⟩, Call.check_ok, Call.pure_bind]
  dsimp only
  rw [haddresses, Call.check_ok, Call.pure_bind, Call.bind_of_ok hasked, hplan]
  dsimp only
  rw [Call.ite_apply, if_neg (not_not.mpr hdigest), hsign, Call.check_ok, Call.pure_bind, hattach]
  rfl

/-- With the plan's own figures and the ledger as it was, it is signed again. -/
theorem Reserved.resigns {slot : Slot} {key change : WotsKey}
    (h : Reserved p plan access signed slot key change) (hlater : p.Later q)
    (hm : s.store.ks.memory = some q) (hopen : ∃ slot' pending, q.slots.get? plan.tag = some slot' ∧
      slot'.pending = some pending ∧ pending.spentIndex = plan.position)
    (hpart : part.divergenceFor plan.tag = none) {dsts : List Destination}
    (hdsts : dsts.Perm plan.dsts) {entries : List (Except Error LedgerEntry)}
    (hentries : s.node.entries = .ok ⟨plan.srcAddr, plan.balance⟩ :: entries) :
    resignPending part plan.tag access dsts plan.feeTotal plan.blkToLive s =
      (.ok signed, { s with node := { s.node with
        entries, heard := (plan.tag, ⟨plan.srcAddr, plan.balance⟩) :: s.node.heard } }) := by
  obtain ⟨slot', pending, hslot', hpending, hposition⟩ := hopen
  obtain ⟨rfl, rfl⟩ := h.same hlater hslot' hpending hposition
  have hsource := keyAt_later hlater _ h.hslot rfl rfl h.hsource
  have hchange := keyAt_later hlater _ h.hslot rfl rfl h.hchange
  have haddresses : reservedAddresses s.store.ks plan.tag access
      ⟨plan.position, plan.digest, some plan.figures⟩ slot'.account.wotsIndex =
      .ok ⟨plan.tag, plan.position, plan.srcAddr, plan.chgAddr⟩ := by
    rw [reservedAddresses, (addressAt_eq_ok hm).mpr ⟨slot', key, hslot', hsource, rfl⟩, ok_bind,
      (addressAt_eq_ok hm).mpr ⟨slot', change, hslot', hchange, rfl⟩, ok_bind, h.hsource_address,
      h.hchange_address]
  obtain ⟨addresses, entry, dsts', feeTotal, blkToLive, hmade⟩ := plan.made
  have hnew : SpendPlan.new ⟨plan.tag, plan.position, plan.srcAddr, plan.chgAddr⟩
      ⟨plan.srcAddr, plan.balance⟩ dsts plan.feeTotal plan.blkToLive = .ok plan :=
    SpendPlan.new_eq_ok.mpr (PlanFields.build_again hmade rfl rfl rfl rfl rfl hdsts)
  exact resignPending_of hm hslot' hpending hpart haddresses hentries rfl hnew rfl hsource h.hattached

/-- While a reservation that was signed is open, whatever is signed again is the transaction that
was signed; and on a wallet that holds the account for reconciled the plan's own figures sign it
again, the ledger being as it was. -/
theorem resign_reproduces (hl : Crypto.Lawful) [Layout D] {D' : Type} {part' : Partition}
    {t : Session D'} (hsigned : reserveAndSign part plan access s = (.ok signed, s'))
    (hp : s'.store.ks.memory = some p) (hq : t.store.ks.memory = some q) (hreached : Reached p q)
    (hopen : ∃ slot pending, q.slots.get? plan.tag = some slot ∧ slot.pending = some pending ∧
      pending.spentIndex = plan.position) :
    (∀ access' dsts feeTotal blkToLive signed' t', access.Told access' →
      resignPending part' plan.tag access' dsts feeTotal blkToLive t = (.ok signed', t') →
      Crypto.Sha256Apart signed'.tx.signedPrefix plan.transfer.signedPrefix →
        signed'.wire = signed.wire) ∧
    (part'.divergenceFor plan.tag = none → ∀ dsts, dsts.Perm plan.dsts →
      ∀ entries, t.node.entries = .ok ⟨plan.srcAddr, plan.balance⟩ :: entries →
        ∃ t', resignPending part' plan.tag access dsts plan.feeTotal plan.blkToLive t =
          (.ok signed, t')) := by
  obtain ⟨p', slot, key, change, hp', hreserved⟩ := reserved_of_signed hsigned
  cases hp'.symm.trans hp
  have hlater := hreached.later hl
  refine ⟨fun access' dsts feeTotal blkToLive signed' t' htold hresign hapart => ?_,
    fun hpart dsts hdsts entries hentries => ?_⟩
  · rw [hreserved.resigned hlater hq hopen htold hresign hapart]
  · exact ⟨_, hreserved.resigns hlater hq hopen hpart hdsts hentries⟩

end Wallet

end

/-! ## A store with two accounts -/

namespace Wallet

attribute [local instance] Crypto.copying

/-- The node's answers to come, to lookups. -/
def answering (entries : List (Except Error LedgerEntry)) : Node := ⟨entries, [], [], [], []⟩

def paid : Destination := ⟨.zero addrTagLen, .zero addrRefLen, 100⟩

/-- A session's store and what its opening made of the accounts, a plan against it and another for
twice the balance, and what the store comes to when the plan is reserved; with what a later opening
makes of the accounts. -/
structure Spending where
  session : Session UnixMedium
  part : Partition
  addresses : SpendAddresses
  plan : SpendPlan
  other : SpendPlan
  receipt : AdvanceReceipt
  store : Opened UnixMedium
  node : Node
  reopened : Session UnixMedium
  later : Partition

/-- The derived account of a store is spent from. The node answers for both accounts at the first
opening, and at the next one only for the imported account. -/
def spending : Option Spending := do
  let w := World.nowhere.execAll [] (growing (.replicate seedLen 9))
  let tag := (Account.derive sevens 0).tag
  let ks ← w.handle
  let imported ← (ks.addressAt (Account.ofFirst (.replicate seedLen 9) fives).tag .zero
    .storedRoot).toOption
  let addresses ← (ks.spendAddresses tag (.master sevens)).toOption
  let plan ← (SpendPlan.new addresses ⟨addresses.source, 1000⟩ [paid] 500 0).toOption
  let other ← (SpendPlan.new addresses ⟨addresses.source, 2000⟩ [paid] 500 0).toOption
  let node := answering [.ok ⟨imported, 0⟩, .error Node.silence]
  match openAsking (some sevens) .never
    ⟨⟨ks, ⟨w.disk, [], []⟩⟩, answering [.ok ⟨imported, 0⟩, .ok ⟨addresses.source, 1000⟩]⟩ with
  | (.ok part, s) =>
    match persistAdvance plan.tag plan.digest plan.figures s.store with
    | (.ok receipt, store) =>
      match openAsking (some sevens) .never ⟨store, node⟩ with
      | (.ok later, u) => some ⟨s, part, addresses, plan, other, receipt, store, node, u, later⟩
      | _ => none
    | _ => none
  | _ => none

/-- What the reservation of a spend went through. -/
structure Spending.Went (x : Spending) : Prop where
  haddresses : x.session.store.ks.spendAddresses x.plan.tag (.master sevens) = .ok x.addresses
  hplan : SpendPlan.new x.addresses ⟨x.addresses.source, 1000⟩ [paid] 500 0 = .ok x.plan
  hother : SpendPlan.new x.addresses ⟨x.addresses.source, 2000⟩ [paid] 500 0 = .ok x.other
  hpart : x.part.divergenceFor x.plan.tag = none
  hcall : persistAdvance x.plan.tag x.plan.digest x.plan.figures x.session.store =
    (.ok x.receipt, x.store)
  hopening : openAsking (some sevens) .never ⟨x.store, x.node⟩ = (.ok x.later, x.reopened)
  hlater : (x.later.divergenceFor x.plan.tag).map Divergence.kind = some "chain unreachable"

theorem spending_went : ∃ x : Spending, x.Went := by
  have hrun : (spending.map fun x => decide (x.plan.tag = (Account.derive sevens 0).tag ∧
      x.part.divergenceFor x.plan.tag = none ∧
      (x.later.divergenceFor x.plan.tag).map Divergence.kind = some "chain unreachable")) =
      some true := by
    decide +kernel
  obtain ⟨x, hx, hchecks⟩ := Option.map_eq_some_iff.mp hrun
  obtain ⟨htag, hpart, hlater⟩ := of_decide_eq_true hchecks
  unfold spending at hx
  obtain ⟨ks, -, hx⟩ := Option.bind_eq_some_iff.mp hx
  obtain ⟨imported, -, hx⟩ := Option.bind_eq_some_iff.mp hx
  obtain ⟨addresses, haddresses, hx⟩ := Option.bind_eq_some_iff.mp hx
  obtain ⟨plan, hplan, hx⟩ := Option.bind_eq_some_iff.mp hx
  obtain ⟨other, hother, hx⟩ := Option.bind_eq_some_iff.mp hx
  split at hx
  · next part s hopen =>
    split at hx
    · next receipt store hcall =>
      dsimp only at hx
      split at hx
      · next later u hopening =>
        cases hx
        have hstore : s.store.ks = ks := congrArg Opened.ks (quiet_openAsking.keeps hopen).1
        refine ⟨_, ⟨?_, toOption_eq_some.mp hplan, toOption_eq_some.mp hother, hpart, hcall, hopening, hlater⟩⟩
        dsimp only at htag ⊢
        rw [hstore, htag]
        exact toOption_eq_some.mp haddresses
      · cases hx
    · cases hx
  · cases hx

/-- The plan is signed, by a session whose node answers as it did for the plan. -/
theorem Spending.Went.signs {x : Spending} (h : x.Went) : ∃ signed s',
    reserveAndSign x.part x.plan (.master sevens)
        ⟨x.session.store, answering [.ok ⟨x.addresses.source, 1000⟩]⟩ = (.ok signed, s') ∧
      s'.store = x.store := by
  obtain ⟨-, hposition, hsource, hchange, -, hblk, hbalance, -⟩ :=
    PlanFields.build_eq_ok (SpendPlan.new_eq_ok.mp h.hplan)
  have htag : tagOf x.addresses.source = x.plan.tag := by rw [SpendPlan.tag, hsource]
  exact reserveAndSign_ok (s := ⟨x.session.store, _⟩) h.hpart h.haddresses
    (checkPlan_eq_ok.mpr ⟨hposition.symm, hsource.symm, hchange.symm⟩) hblk rfl htag
    (checkEntry_eq_ok.mpr ⟨rfl, hbalance.symm⟩) h.hcall

/-- A session of the store that was signed from, its node answering what the plan was made against. -/
def Spending.again (x : Spending) : Session UnixMedium :=
  ⟨x.store, answering [.ok ⟨x.plan.srcAddr, x.plan.balance⟩]⟩

/-- Signed again, by the plan's own figures: the transaction that was signed. -/
theorem resign_reproduces_spending : ∃ (x : Spending) (signed : SignedTransaction)
    (s' : Session UnixMedium), reserveAndSign x.part x.plan (.master sevens)
        ⟨x.session.store, answering [.ok ⟨x.addresses.source, 1000⟩]⟩ = (.ok signed, s') ∧
      ∃ t', resignPending x.part x.plan.tag (.master sevens) x.plan.dsts x.plan.feeTotal
        x.plan.blkToLive x.again = (.ok signed, t') := by
  obtain ⟨x, hx⟩ := spending_went
  obtain ⟨signed, s', hsigned, hstore⟩ := hx.signs
  obtain ⟨p, slot, key, change, hp, hreserved⟩ := reserved_of_signed hsigned
  have hq : x.again.store.ks.memory = some p := by
    show x.store.ks.memory = some p
    rw [← hstore]
    exact hp
  have hagain := (resign_reproduces (t := x.again) Crypto.copying_lawful hsigned hp hq
    (.written .refl) ⟨slot, _, hreserved.hslot, hreserved.hpending, rfl⟩).2 hx.hpart x.plan.dsts
    (.refl _) [] rfl
  exact ⟨x, signed, s', hsigned, hagain⟩

/-- A wallet whose opening could not ask about the account refuses to sign again, whatever its node
answers now. -/
theorem resign_refused_diverged : ∃ (x : Spending) (signed : SignedTransaction)
    (s' : Session UnixMedium), reserveAndSign x.part x.plan (.master sevens)
        ⟨x.session.store, answering [.ok ⟨x.addresses.source, 1000⟩]⟩ = (.ok signed, s') ∧
      openAsking (some sevens) .never ⟨s'.store, x.node⟩ = (.ok x.later, x.reopened) ∧
      x.reopened.store = s'.store ∧
      (∃ p slot pending, s'.store.ks.memory = some p ∧ p.slots.get? x.plan.tag = some slot ∧
        slot.pending = some pending ∧ pending.spentIndex = x.plan.position) ∧
      ∀ node, resignPending x.later x.plan.tag (.master sevens) x.plan.dsts x.plan.feeTotal
        x.plan.blkToLive ⟨s'.store, node⟩ =
          (.err (.reconciliationRefused "chain unreachable"), ⟨s'.store, node⟩) := by
  obtain ⟨x, hx⟩ := spending_went
  obtain ⟨signed, s', hsigned, hstore⟩ := hx.signs
  obtain ⟨p, slot, key, change, hp, hreserved⟩ := reserved_of_signed hsigned
  refine ⟨x, signed, s', hsigned, by rw [hstore]; exact hx.hopening, ?_,
    ⟨p, slot, _, hp, hreserved.hslot, hreserved.hpending, rfl⟩, fun node => ?_⟩
  · rw [hstore]
    exact (quiet_openAsking.keeps hx.hopening).1
  · obtain ⟨d, hd, hkind⟩ := Option.map_eq_some_iff.mp hx.hlater
    have hrefused : x.later.requireReconciled x.plan.tag =
        .error (.reconciliationRefused "chain unreachable") := by
      rw [Partition.requireReconciled, hd]
      exact congrArg _ (congrArg _ hkind)
    unfold resignPending
    rw [Call.get_bind, hrefused]
    rfl

end Wallet

end MochimoWallet
