import MochimoWallet.Mesh.Spend

/-!
# The rules a plan is held to

The checks of `SpendPlan.new` in their order, over machine words, accept exactly the spends
that keep the node's rules as stated over numbers (`NodeRules`). Destinations are sorted
before any of them is looked at, so neither the plan nor the refusal knows in which order
they were given.
-/

namespace MochimoWallet

open Codec Words Keystore

/-- What the amounts of a spend add up to. -/
def amountSum (dsts : List Destination) : ℕ := (dsts.map fun d => d.amount.toNat).sum

theorem amountSum_cons (d : Destination) (ds : List Destination) :
    amountSum (d :: ds) = d.amount.toNat + amountSum ds := List.sum_cons

theorem amountSum_perm {ds ds' : List Destination} (h : ds.Perm ds') :
    amountSum ds = amountSum ds' := (h.map _).sum_nat

/-- The node's rules for one destination of a spend from `srcTag`. -/
structure DestinationRules (srcTag : Tag) (d : Destination) : Prop where
  amount : d.amount ≠ 0
  notSource : d.tag ≠ srcTag
  reference : referenceIsValid d.reference = true

/-- The node's rules for a spend, over exact sums. -/
structure NodeRules (addresses : SpendAddresses) (entry : LedgerEntry) (dsts : List Destination)
    (feeTotal : UInt64) : Prop where
  source : entry.address = addresses.source
  count : 1 ≤ dsts.length ∧ dsts.length ≤ 256
  destinations : ∀ d ∈ dsts, DestinationRules (tagOf addresses.source) d
  fee : 500 * dsts.length ≤ feeTotal.toNat
  fits : amountSum dsts + feeTotal.toNat < 2 ^ 64
  covered : amountSum dsts + feeTotal.toNat ≤ entry.balance.toNat

theorem NodeRules.perm {addresses : SpendAddresses} {entry : LedgerEntry}
    {dsts dsts' : List Destination} {feeTotal : UInt64} (h : NodeRules addresses entry dsts feeTotal)
    (hperm : dsts.Perm dsts') : NodeRules addresses entry dsts' feeTotal := by
  have hlen := hperm.length_eq
  have hsum := amountSum_perm hperm
  exact ⟨h.source, hlen ▸ h.count, fun d hd => h.destinations d (hperm.mem_iff.mpr hd),
    hlen ▸ h.fee, hsum ▸ h.fits, hsum ▸ h.covered⟩

/-! ## The checks -/

/-- The destination checks pass when each destination keeps its rules and the sum fits. -/
theorem checkDsts_eq_ok {srcTag : Tag} {index : ℕ} {total sendTotal : UInt64}
    {dsts : List Destination} : checkDsts srcTag index total dsts = .ok sendTotal ↔
      (∀ d ∈ dsts, DestinationRules srcTag d) ∧
        sendTotal.toNat = total.toNat + amountSum dsts := by
  have hlt : sendTotal.toNat < 2 ^ 64 := sendTotal.toNat_lt
  induction dsts generalizing index total with
  | nil =>
    simp only [checkDsts, Except.ok.injEq, amountSum, List.map_nil, List.sum_nil, Nat.add_zero,
      UInt64.toNat_inj]
    exact ⟨fun h => ⟨nofun, h.symm⟩, fun h => h.2.symm⟩
  | cons d ds ih =>
    rw [amountSum_cons]
    unfold checkDsts
    split
    · next hzero =>
      exact iff_of_false (by simp) fun h => (h.1 d List.mem_cons_self).amount hzero
    next hzero =>
    split
    · next hsource =>
      exact iff_of_false (by simp) fun h => (h.1 d List.mem_cons_self).notSource hsource
    next hsource =>
    split
    · next hover =>
      refine iff_of_false (by simp) fun h => ?_
      -- The partial sum is at most the whole, which fits.
      have hsum : (sendTotal - .ofNat (amountSum ds)).toNat = total.toNat + d.amount.toNat := by
        rw [UInt64.toNat_sub_of_le _ _ (UInt64.le_iff_toNat_le.mpr ?_)] <;>
          rw [UInt64.toNat_ofNat', Nat.mod_eq_of_lt (by omega)] <;> omega
      rw [checkedAdd64_eq_some.mpr hsum] at hover
      cases hover
    next sum hsum =>
    rw [checkedAdd64_eq_some] at hsum
    split
    · next hreference =>
      exact iff_of_false (by simp) fun h => hreference (h.1 d List.mem_cons_self).reference
    next hreference =>
    have hd : DestinationRules srcTag d := ⟨hzero, hsource, by simpa using hreference⟩
    rw [List.forall_mem_cons, and_iff_right hd, ← Nat.add_assoc, ← hsum]
    exact ih

theorem checkCount_eq_ok {n : ℕ} :
    Transaction.checkCount n = .ok () ↔ 1 ≤ n ∧ n ≤ maxDestinations := by
  unfold Transaction.checkCount
  split
  · next h => exact iff_of_false (by simp) (by omega)
  · next h => exact iff_of_true rfl (by omega)

theorem Transaction.new_iff {ds : List Destination} :
    (∃ tx, Transaction.new ds = .ok tx) ↔ 1 ≤ ds.length ∧ ds.length ≤ 256 := by
  rw [show (256 : ℕ) = maxDestinations from rfl, ← checkCount_eq_ok]
  constructor
  · rintro ⟨tx, h⟩
    obtain ⟨⟨⟩, hcount, -⟩ := bind_eq_ok.mp h
    exact hcount
  · intro h
    exact ⟨_, by rw [Transaction.new, h, ok_bind]⟩

/-- The least fee of a spend, which no count of destinations makes too large for a word. -/
theorem feeFloor {n : ℕ} (hn : n ≤ 256) :
    ∃ floor, checkedMul64 (.ofNat mfee) (.ofNat n) = some floor ∧ floor.toNat = 500 * n := by
  have hfee : (UInt64.ofNat mfee).toNat = 500 := rfl
  have hcount : (UInt64.ofNat n).toNat = n := by
    rw [UInt64.toNat_ofNat', Nat.mod_eq_of_lt (by omega)]
  refine ⟨.ofNat mfee * .ofNat n, ?_, ?_⟩
  · rw [checkedMul64, hfee, hcount, if_pos (by omega)]
  · rw [UInt64.toNat_mul, hfee, hcount, Nat.mod_eq_of_lt (by omega)]

variable [Crypto] {addresses : SpendAddresses} {entry : LedgerEntry} {dsts dsts' : List Destination}
  {feeTotal blkToLive : UInt64}

theorem SpendPlan.new_eq_error {e : Error} :
    SpendPlan.new addresses entry dsts feeTotal blkToLive = .error e ↔
      PlanFields.build addresses entry dsts feeTotal blkToLive = .error e := by
  unfold SpendPlan.new
  split
  · next f hf => exact iff_of_false (by simp) (by simp [hf])
  · next e' he => rw [he, Except.error.injEq, Except.error.injEq]

/-- Destinations are laid out in the order of their images, whatever order they were given in. -/
theorem SpendPlan.new_perm (h : dsts.Perm dsts') :
    SpendPlan.new addresses entry dsts feeTotal blkToLive =
      SpendPlan.new addresses entry dsts' feeTotal blkToLive := by
  have hbuild : PlanFields.build addresses entry dsts feeTotal blkToLive =
      PlanFields.build addresses entry dsts' feeTotal blkToLive := by
    unfold PlanFields.build
    rw [sortDsts_perm h]
  rcases hr : SpendPlan.new addresses entry dsts' feeTotal blkToLive with e | plan
  · rw [SpendPlan.new_eq_error] at hr ⊢
    rw [hbuild, hr]
  · rw [SpendPlan.new_eq_ok] at hr ⊢
    rw [hbuild, hr]

/-- What was laid out kept the rules, and its totals are the exact ones. -/
theorem PlanFields.rules_of_build {f : PlanFields}
    (h : PlanFields.build addresses entry dsts feeTotal blkToLive = .ok f) :
    NodeRules addresses entry dsts feeTotal ∧ f.sendTotal.toNat = amountSum dsts ∧
      f.sendTotal.toNat + f.changeTotal.toNat + f.feeTotal.toNat = f.balance.toNat := by
  have hperm := sortDsts_perm_self dsts
  unfold PlanFields.build at h
  split at h
  · cases h
  next hsource =>
  obtain ⟨tx, htx, h⟩ := bind_eq_ok.mp h
  obtain ⟨sendTotal, hsend, h⟩ := bind_eq_ok.mp h
  have hcount := Transaction.new_iff.mp ⟨tx, htx⟩
  rw [Transaction.new_eq_ok htx, checkDsts_eq_ok] at hsend
  obtain ⟨floor, hfloor, hfloorNat⟩ := feeFloor hcount.2
  rw [Transaction.dstCount, Transaction.new_eq_ok htx, hfloor] at h
  dsimp only at h
  split at h
  · cases h
  next hfee =>
  split at h
  · cases h
  next needed hneeded =>
  split at h
  · cases h
  next hbalance =>
  cases h
  have hadd := checkedAdd64_eq_some.mp hneeded
  have hle : needed ≤ entry.balance := UInt64.not_lt.mp hbalance
  have hsub := UInt64.toNat_sub_of_le _ _ hle
  have hnat := UInt64.le_iff_toNat_le.mp hle
  have hfeeNat := UInt64.le_iff_toNat_le.mp (UInt64.not_lt.mp hfee)
  have hlt : needed.toNat < 2 ^ 64 := needed.toNat_lt
  have hzero : (0 : UInt64).toNat = 0 := rfl
  have hsum : sendTotal.toNat = amountSum (sortDsts dsts) := by rw [hsend.2, hzero, Nat.zero_add]
  have hsorted : NodeRules addresses entry (sortDsts dsts) feeTotal :=
    ⟨not_not.mp hsource, hcount, hsend.1, hfloorNat ▸ hfeeNat, by omega, by omega⟩
  refine ⟨hsorted.perm hperm, hsum.trans (amountSum_perm hperm), ?_⟩
  dsimp only
  omega

/-- A spend that keeps the rules is laid out. -/
theorem PlanFields.build_of_rules (h : NodeRules addresses entry dsts feeTotal) :
    ∃ f, PlanFields.build addresses entry dsts feeTotal blkToLive = .ok f := by
  have hsorted := h.perm (sortDsts_perm_self dsts).symm
  obtain ⟨tx, htx⟩ := Transaction.new_iff.mpr hsorted.count
  obtain ⟨floor, hfloor, hfloorNat⟩ := feeFloor hsorted.count.2
  have hfits := hsorted.fits
  have hfee := hsorted.fee
  have hcovered := hsorted.covered
  have hlt : entry.balance.toNat < 2 ^ 64 := entry.balance.toNat_lt
  have hsend : (UInt64.ofNat (amountSum (sortDsts dsts))).toNat = amountSum (sortDsts dsts) := by
    rw [UInt64.toNat_ofNat', Nat.mod_eq_of_lt (by omega)]
  have hchecked : checkDsts (tagOf addresses.source) 0 0 (sortDsts dsts) =
      .ok (.ofNat (amountSum (sortDsts dsts))) :=
    checkDsts_eq_ok.mpr ⟨hsorted.destinations, by rw [hsend]; exact (Nat.zero_add _).symm⟩
  have hneeded : (UInt64.ofNat (amountSum (sortDsts dsts)) + feeTotal).toNat =
      amountSum (sortDsts dsts) + feeTotal.toNat := by
    rw [UInt64.toNat_add, hsend, Nat.mod_eq_of_lt hfits]
  have hadd : checkedAdd64 (.ofNat (amountSum (sortDsts dsts))) feeTotal = some
      (.ofNat (amountSum (sortDsts dsts)) + feeTotal) :=
    checkedAdd64_eq_some.mpr (by rw [hneeded, hsend])
  have hfeeWord : ¬ feeTotal < floor := by
    rw [UInt64.lt_iff_toNat_lt]
    omega
  have hbalance : ¬ entry.balance < UInt64.ofNat (amountSum (sortDsts dsts)) + feeTotal := by
    rw [UInt64.lt_iff_toNat_lt]
    omega
  unfold PlanFields.build
  rw [if_neg (not_not.mpr h.source), htx, ok_bind, Transaction.dstCount, Transaction.new_eq_ok htx,
    hchecked, ok_bind, hfloor]
  dsimp only
  rw [if_neg hfeeWord, hadd]
  dsimp only
  rw [if_neg hbalance]
  exact ⟨_, rfl⟩

/-- Nothing of a plan's balance is unaccounted for, and no sum wraps. -/
theorem SpendPlan.adds_up (plan : SpendPlan) :
    plan.sendTotal.toNat = (plan.dsts.map fun d => d.amount.toNat).sum ∧
      plan.sendTotal.toNat + plan.changeTotal.toNat + plan.feeTotal.toNat = plan.balance.toNat := by
  obtain ⟨addresses, entry, dsts, feeTotal, blkToLive, h⟩ := plan.made
  obtain ⟨-, hsum, htotal⟩ := PlanFields.rules_of_build h
  have hdsts := (PlanFields.build_eq_ok h).2.2.2.2.2.2.2.1
  refine ⟨?_, htotal⟩
  rw [hsum, hdsts]
  exact amountSum_perm (sortDsts_perm_self dsts).symm

/-- The planner accepts exactly the spends that keep the node's rules. What it makes of one is the
destinations in the order of their images, totals that add up to the balance, and the digest of the
image rebuilt from these; and the order the destinations were given in changes neither plan nor
refusal. -/
theorem SpendPlan.accepts_node_rules (addresses : SpendAddresses) (entry : LedgerEntry)
    (dsts : List Destination) (feeTotal blkToLive : UInt64) :
    ((∃ plan, SpendPlan.new addresses entry dsts feeTotal blkToLive = .ok plan) ↔
      NodeRules addresses entry dsts feeTotal) ∧
    (∀ plan, SpendPlan.new addresses entry dsts feeTotal blkToLive = .ok plan →
      plan.dsts.Perm dsts ∧ (plan.dsts.Pairwise fun a b => a.mdstImage ≤ b.mdstImage) ∧
      plan.sendTotal.toNat = amountSum dsts ∧
      plan.sendTotal.toNat + plan.changeTotal.toNat + plan.feeTotal.toNat = plan.balance.toNat ∧
      plan.balance = entry.balance ∧ plan.feeTotal = feeTotal ∧ plan.blkToLive = blkToLive ∧
      plan.srcAddr = addresses.source ∧ plan.chgAddr = addresses.change ∧
      plan.position = addresses.position ∧
      ∃ tx, plan.unsigned = .ok tx ∧ tx.toTransfer = plan.transfer ∧
        plan.digest = Transaction.messageDigest tx.toTransfer) ∧
    ∀ dsts', dsts'.Perm dsts →
      SpendPlan.new addresses entry dsts' feeTotal blkToLive =
        SpendPlan.new addresses entry dsts feeTotal blkToLive := by
  refine ⟨⟨?_, fun h => ?_⟩, fun plan h => ?_, fun dsts' h => SpendPlan.new_perm h⟩
  · rintro ⟨plan, h⟩
    exact (PlanFields.rules_of_build (SpendPlan.new_eq_ok.mp h)).1
  · obtain ⟨f, hf⟩ : ∃ f, PlanFields.build addresses entry dsts feeTotal blkToLive = .ok f :=
      PlanFields.build_of_rules h
    exact ⟨⟨f, addresses, entry, dsts, feeTotal, blkToLive, hf⟩, SpendPlan.new_eq_ok.mpr hf⟩
  · have hbuild := SpendPlan.new_eq_ok.mp h
    obtain ⟨-, hsum, htotal⟩ := PlanFields.rules_of_build hbuild
    obtain ⟨-, hposition, hsource, hchange, hfee, hblk, hbalance, hdsts, -⟩ :=
      PlanFields.build_eq_ok hbuild
    obtain ⟨tx, hunsigned, htransfer⟩ := plan.unsigned_eq_ok
    refine ⟨hdsts ▸ sortDsts_perm_self dsts, ?_, hsum, htotal, hbalance, hfee, hblk, hsource,
      hchange, hposition, tx, hunsigned, htransfer, by rw [htransfer, plan.digest_eq]⟩
    have htotal : Std.Total (fun a b : Destination => a.mdstImage ≤ b.mdstImage) :=
      ⟨fun a b => le_total a.mdstImage b.mdstImage⟩
    have htrans : IsTrans Destination (fun a b => a.mdstImage ≤ b.mdstImage) :=
      ⟨fun _ _ _ => le_trans⟩
    exact hdsts ▸ List.pairwise_insertionSort ..

end MochimoWallet
