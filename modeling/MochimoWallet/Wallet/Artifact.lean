import MochimoWallet.Mesh.Rules
import MochimoWallet.Wallet.Resign

/-!
# What a reservation gives

A reservation that was committed always gives a transaction (`reserved_of_committed`), so
a key is never spent for nothing; and what a node answered can reach that transaction
only as the plan's balance, which is compared with a fresh answer before the write.
-/

namespace MochimoWallet

open Codec Keystore Session

/-! ## What a plan was held to -/

namespace Wallet

theorem checkExpiry_ok {blkToLive : UInt64} {n n' : Node}
    (h : checkExpiry blkToLive n = (.ok (), n')) (hne : blkToLive ≠ 0) :
    ∃ tip tips, n.tips = .ok tip :: tips ∧ tip.toNat + 1 ≤ blkToLive.toNat ∧
      blkToLive.toNat ≤ tip.toNat + 256 := by
  unfold checkExpiry at h
  rw [if_neg hne] at h
  rcases Call.bind_cases h with ⟨tip, m, htip, h⟩ | ⟨e, -, hr⟩ | ⟨-, hr⟩
  · unfold Node.networkStatus at htip
    split at htip <;> cases htip
    next tips heq =>
    rw [Call.ite_apply] at h
    split at h
    · next hwindow =>
      obtain ⟨hlt, hle⟩ := hwindow
      have hnat := UInt64.lt_iff_toNat_lt.mp hlt
      have hsub := UInt64.toNat_sub_of_le _ _ (UInt64.le_of_lt hlt)
      exact ⟨tip, tips, heq, by omega, by omega⟩
    · cases h
  · cases hr
  · cases hr

end Wallet

section
variable [Crypto]

/-- Two plans of one request differ only by what the ledger answered. -/
theorem PlanFields.build_congr {addresses : SpendAddresses} {entry entry' : LedgerEntry}
    {dsts : List Destination} {feeTotal blkToLive : UInt64} {f f' : PlanFields}
    (h : PlanFields.build addresses entry dsts feeTotal blkToLive = .ok f)
    (h' : PlanFields.build addresses entry' dsts feeTotal blkToLive = .ok f') :
    f' = { f with balance := f'.balance, changeTotal := f'.changeTotal, digest := f'.digest } := by
  unfold PlanFields.build at h h'
  split at h
  · cases h
  split at h'
  · cases h'
  obtain ⟨tx, htx, h⟩ := bind_eq_ok.mp h
  obtain ⟨tx', htx', h'⟩ := bind_eq_ok.mp h'
  cases htx.symm.trans htx'
  obtain ⟨sendTotal, hsend, h⟩ := bind_eq_ok.mp h
  obtain ⟨sendTotal', hsend', h'⟩ := bind_eq_ok.mp h'
  cases hsend.symm.trans hsend'
  split at h
  · cases h
  split at h
  · cases h
  split at h
  · cases h
  split at h
  · cases h
  split at h'
  · cases h'
  split at h'
  · cases h'
  split at h'
  · cases h'
  split at h'
  · cases h'
  cases h
  cases h'
  rfl

namespace Wallet

variable {D : Type} {part : Partition} {s s' : Session D} {plan : SpendPlan} {access : KeyAccess}
  {signed : SignedTransaction}

/-! ## What a reservation checked -/

/-- A reservation that was signed passed its expiry against the tip answered first. -/
theorem reserveAndSign_expiry [Layout D]
    (h : reserveAndSign part plan access s = (.ok signed, s')) (hne : plan.blkToLive ≠ 0) :
    ∃ tip tips, s.node.tips = .ok tip :: tips ∧ tip.toNat + 1 ≤ plan.blkToLive.toNat ∧
      plan.blkToLive.toNat ≤ tip.toNat + 256 := by
  unfold reserveAndSign at h
  rw [Call.get_bind] at h
  rcases Call.check_bind_cases h with ⟨e, -, hr, -⟩ | ⟨⟨⟩, -, h⟩
  · cases hr
  rcases Call.check_bind_cases h with ⟨e, -, hr, -⟩ | ⟨addresses, -, h⟩
  · cases hr
  rcases Call.check_bind_cases h with ⟨e, -, hr, -⟩ | ⟨⟨⟩, -, h⟩
  · cases hr
  rcases Call.bind_cases h with ⟨⟨⟩, t, hasked, -⟩ | ⟨e, -, hr⟩ | ⟨-, hr⟩
  · exact checkExpiry_ok (asking_cases hasked).2 hne
  · cases hr
  · cases hr

section
variable [Layout D]

/-- What a signature says of the store and the node it was made with. -/
theorem reserveAndSign_binds (h : reserveAndSign part plan access s = (.ok signed, s')) :
    ∃ p q slot next, s.store.ks.memory = some p ∧ p.slots.get? plan.tag = some slot ∧
      slot.account.wotsIndex = plan.position ∧ next.pos = plan.position.pos + 1 ∧
      s.store.ks.addressAt plan.tag plan.position access = .ok signed.tx.srcAddr ∧
      s.store.ks.addressAt plan.tag next access = .ok signed.tx.chgAddr ∧
      signed.tx.toTransfer = plan.transfer ∧ verifyWots signed.tx = .ok () ∧
      s'.node.heard = (plan.tag, ⟨signed.tx.srcAddr, plan.balance⟩) :: s.node.heard ∧
      Committed s.store s'.store p q (.ok ()) ∧ ∃ slot', q.slots.get? plan.tag = some slot' ∧
        slot'.pending = some ⟨plan.position, plan.digest, some plan.figures⟩ := by
  generalize hr : (Reply.ok signed : Reply Error SignedTransaction) = r at h
  cases reserveAndSign_cases h with
  | refused => cases hr
  | @called addresses entry written hpart haddresses hplan hentry hheard hcall =>
  rcases written with receipt | e | _
  rotate_left
  · cases hr
  · cases hr
  obtain ⟨p, hm⟩ := live_of_spendAddresses haddresses
  obtain ⟨slot, next, source, change, hslot, -, hnext, hsource, hchange, rfl⟩ :=
    (spendAddresses_eq_ok hm).mp haddresses
  obtain ⟨hposition, hsrc, hchg⟩ := checkPlan_eq_ok.mp hplan
  obtain ⟨haddress, hbalance⟩ := checkEntry_eq_ok.mp hentry
  dsimp only at hposition hsrc hchg haddress
  obtain ⟨q, slot', key, change', signed', hq, hreserved, hsigned⟩ :=
    reserved_of_committed haddresses hplan hcall
  cases hr.trans hsigned
  obtain ⟨htransfer, -⟩ := SignedTransaction.attach_transfer hreserved.hattached
  have hsrcAddr : signed.tx.srcAddr = source.address plan.tag := by
    rw [hsrc]
    exact congrArg Transfer.srcAddr htransfer
  have hchgAddr : signed.tx.chgAddr = change.address plan.tag := by
    rw [hchg]
    exact congrArg Transfer.chgAddr htransfer
  have hcommitted : Committed s.store s'.store p q (.ok ()) := by
    rcases call_committed hm (persistAdvance_call hcall) with
      ⟨-, e', he⟩ | ⟨p', reply, -, hcommitted, he⟩
    · cases he
    · rcases reply with ⟨⟨⟩⟩ | e' | _ <;> cases he
      cases hcommitted.hmemory.symm.trans hq
      exact hcommitted
  rw [hposition] at hsource hnext
  refine ⟨p, q, slot, next, hm, hslot, hposition, WotsIndex.advanced_eq_ok.mp hnext,
    (addressAt_eq_ok hm).mpr ⟨slot, source, hslot, hsource, hsrcAddr⟩,
    (addressAt_eq_ok hm).mpr ⟨slot, change, hslot, hchange, hchgAddr⟩, htransfer,
    SignedTransaction.attach_verifies hreserved.hattached, ?_, hcommitted, slot', hreserved.hslot,
    hreserved.hpending⟩
  rw [hheard, hsrcAddr, ← haddress, ← hbalance]

omit [Layout D] in
/-- A plan is made of the store's addresses and one entry the node answered. -/
theorem plan_made {tag : Tag} {dsts : List Destination} {feeTotal blkToLive : UInt64}
    (h : Wallet.plan part tag access dsts feeTotal blkToLive s = (.ok plan, s')) :
    ∃ addresses entry, s.store.ks.spendAddresses tag access = .ok addresses ∧
      SpendPlan.new addresses entry dsts feeTotal blkToLive = .ok plan := by
  unfold Wallet.plan at h
  rw [Call.get_bind] at h
  rcases Call.check_bind_cases h with ⟨e, -, hr, -⟩ | ⟨⟨⟩, -, h⟩
  · cases hr
  rcases Call.check_bind_cases h with ⟨e, -, hr, -⟩ | ⟨addresses, haddresses, h⟩
  · cases hr
  rcases resolveTag_bind h with ⟨e, hr, -⟩ | ⟨entry, t, -, -, h⟩
  · cases hr
  exact ⟨addresses, entry, haddresses, (Call.check_ok_iff.mp h).1⟩

/-- What a node's answers can reach of a signature: it spends the store's own keys for the plan's own
request, and the balance it divides is the one the node answered last. Of the plan they reach the
balance, the change and the digest. -/
theorem node_reaches_balance_only :
    (∀ plan access signed s', reserveAndSign part plan access s = (.ok signed, s') →
      ∃ p q slot slot' next, s.store.ks.memory = some p ∧ p.slots.get? plan.tag = some slot ∧
        next.pos = slot.account.wotsIndex.pos + 1 ∧
        s.store.ks.addressAt plan.tag slot.account.wotsIndex access = .ok signed.tx.srcAddr ∧
        s.store.ks.addressAt plan.tag next access = .ok signed.tx.chgAddr ∧
        signed.tx.dsts = plan.dsts ∧ signed.tx.feeTotal = plan.feeTotal ∧
        signed.tx.blkToLive = plan.blkToLive ∧
        signed.tx.sendTotal.toNat = (signed.tx.dsts.map fun d => d.amount.toNat).sum ∧
        signed.tx.sendTotal.toNat + signed.tx.changeTotal.toNat + signed.tx.feeTotal.toNat =
          plan.balance.toNat ∧
        s'.node.heard = (plan.tag, ⟨signed.tx.srcAddr, plan.balance⟩) :: s.node.heard ∧
        verifyWots signed.tx = .ok () ∧
        Committed s.store s'.store p q (.ok ()) ∧ q.slots.get? plan.tag = some slot' ∧
        slot'.pending = some ⟨slot.account.wotsIndex, Transaction.messageDigest signed.tx.toTransfer,
          some ⟨plan.balance, plan.blkToLive⟩⟩ ∧
        (signed.tx.blkToLive ≠ 0 → ∃ tip tips, s.node.tips = .ok tip :: tips ∧
          tip.toNat + 1 ≤ signed.tx.blkToLive.toNat ∧
          signed.tx.blkToLive.toNat ≤ tip.toNat + 256)) ∧
    ∀ tag access dsts feeTotal blkToLive node node' made made' t t',
      Wallet.plan part tag access dsts feeTotal blkToLive ⟨s.store, node⟩ = (.ok made, t) →
      Wallet.plan part tag access dsts feeTotal blkToLive ⟨s.store, node'⟩ = (.ok made', t') →
        made'.toPlanFields = { made.toPlanFields with
          balance := made'.balance, changeTotal := made'.changeTotal, digest := made'.digest } := by
  refine ⟨fun plan access signed s' h => ?_,
    fun tag access dsts feeTotal blkToLive node node' made made' t t' h h' => ?_⟩
  · obtain ⟨p, q, slot, next, hm, hslot, hposition, hnext, hsource, hchange, htransfer, hverify, hheard,
      hcommitted, slot', hslot', hpending⟩ := reserveAndSign_binds h
    obtain ⟨hsend, hsum⟩ := plan.adds_up
    have hblk : signed.tx.blkToLive = plan.blkToLive := congrArg Transfer.blkToLive htransfer
    refine ⟨p, q, slot, slot', next, hm, hslot, by rw [hposition, hnext], by rw [hposition, hsource],
      hchange, congrArg Transfer.dsts htransfer, congrArg Transfer.feeTotal htransfer, hblk, ?_, ?_,
      hheard, hverify, hcommitted, hslot', ?_, fun hne => ?_⟩
    · rw [htransfer]
      exact hsend
    · rw [htransfer]
      exact hsum
    · rw [hpending, hposition, htransfer, ← plan.digest_eq]
      rfl
    · rw [hblk] at hne ⊢
      exact reserveAndSign_expiry h hne
  · obtain ⟨addresses, entry, haddresses, hmade⟩ := plan_made h
    obtain ⟨addresses', entry', haddresses', hmade'⟩ := plan_made h'
    cases haddresses.symm.trans haddresses'
    exact PlanFields.build_congr (SpendPlan.new_eq_ok.mp hmade) (SpendPlan.new_eq_ok.mp hmade')

end

end Wallet

end

namespace Wallet

attribute [local instance] Crypto.copying

/-- The plan's transaction spends the balance the node answered; and for twice the balance the plan
would send the same. -/
theorem node_reaches_balance_only_spending : ∃ (x : Spending) (signed : SignedTransaction)
    (s' : Session UnixMedium), signed.tx.sendTotal.toNat + signed.tx.changeTotal.toNat +
        signed.tx.feeTotal.toNat = x.plan.balance.toNat ∧
      s'.node.heard = [(x.plan.tag, ⟨signed.tx.srcAddr, x.plan.balance⟩)] ∧
      x.other.toPlanFields = { x.plan.toPlanFields with
        balance := x.other.balance, changeTotal := x.other.changeTotal,
        digest := x.other.digest } := by
  obtain ⟨x, hx⟩ := spending_went
  obtain ⟨signed, s', hsigned, -⟩ := hx.signs
  have hpart : x.part.requireReconciled x.plan.tag = .ok () :=
    Partition.requireReconciled_eq_ok.mpr hx.hpart
  have htag : tagOf x.addresses.source = x.plan.tag := by
    rw [SpendPlan.tag, (PlanFields.build_eq_ok (SpendPlan.new_eq_ok.mp hx.hplan)).2.2.1]
  have hplan {made : SpendPlan} {balance : UInt64}
      (h : SpendPlan.new x.addresses ⟨x.addresses.source, balance⟩ [paid] 500 0 = .ok made) :
      ∃ t, Wallet.plan x.part x.plan.tag (.master sevens) [paid] 500 0
        ⟨x.session.store, answering [.ok ⟨x.addresses.source, balance⟩]⟩ = (.ok made, t) := by
    have hasked := asking_of (D := UnixMedium) (x := fun _ => Node.resolveTag x.plan.tag)
      (s := ⟨x.session.store, answering [.ok ⟨x.addresses.source, balance⟩]⟩)
      (Node.resolveTag_answered rfl htag)
    unfold Wallet.plan
    rw [Call.get_bind, hpart, Call.check_ok, Call.pure_bind, hx.haddresses, Call.check_ok,
      Call.pure_bind, Call.bind_of_ok hasked, h]
    exact ⟨_, rfl⟩
  obtain ⟨t, hmade⟩ := hplan hx.hplan
  obtain ⟨t', hmade'⟩ := hplan hx.hother
  obtain ⟨hsigns, hplans⟩ := @node_reaches_balance_only _ _ x.part
    ⟨x.session.store, answering [.ok ⟨x.addresses.source, 1000⟩]⟩ _
  obtain ⟨p, q, slot, slot', next, -, -, -, -, -, -, -, -, -, hsum, hheard, -⟩ := hsigns _ _ _ _ hsigned
  exact ⟨x, signed, s', hsum, hheard, hplans _ _ _ _ _ _ _ _ _ _ _ hmade hmade'⟩

end Wallet

end MochimoWallet
