import MochimoWallet.Mesh.SecondSpend
import MochimoWallet.Wallet.Artifact
import MochimoWallet.Wallet.InStep

/-!
# A ledger that anyone writes to

Here the ledger takes from anyone any transaction that is accepted on an address the wallet has
signed for. A run of such a ledger is a run of one that takes the wallet's transactions only, so
everything that holds of those holds of it, or somebody has shown how SHA-256 or the address hash
is broken (`forgers_break_a_hash`).
-/

namespace MochimoWallet.Wallet

open Codec Keystore Session

section
variable [Crypto] {password : Bytes} {tag : Tag} {access : KeyAccess} {deep : Prop}

/-! ## What is handed over is accepted -/

/-- What a turn hands over was attached to its plan. -/
theorem attached_of_handed {part : Partition} {method : Method} {reply : Reply Error Answer}
    {s s' : Session UnixMedium} {signed : SignedTransaction} (hcall : method.call part s = (reply, s'))
    (hmem : signed ∈ handed reply) : ∃ plan sig, SignedTransaction.attach plan sig = .ok signed := by
  rcases method with _ | ⟨spend, a⟩ | _ | _ | ⟨t, a, dsts, feeTotal, blkToLive⟩ | _ | _ <;>
    rw [Method.call] at hcall <;> obtain ⟨reply', hreturned, rfl⟩ := map_call hcall
  · rw [handed_map (by simp)] at hmem
    cases hmem
  · rcases reply' with signed' | e | _
    · obtain rfl := List.mem_singleton.mp hmem
      obtain ⟨p, slot, key, change, -, hreserved⟩ := reserved_of_signed hreturned
      exact ⟨_, _, hreserved.hattached⟩
    · cases hmem
    · cases hmem
  · rw [handed_map (by simp)] at hmem
    cases hmem
  · rw [handed_map (by simp)] at hmem
    cases hmem
  · rcases reply' with signed' | e | _
    · obtain rfl := List.mem_singleton.mp hmem
      obtain ⟨p, hm⟩ := live_of_resignPending hreturned
      obtain ⟨_, _, _, _, plan, _, -, -, -, -, -, -, hattach⟩ := resignPending_went hm hreturned
      exact ⟨plan, _, hattach⟩
    · cases hmem
    · cases hmem
  · rw [handed_map (by simp)] at hmem
    cases hmem
  · rw [handed_map (by simp)] at hmem
    cases hmem

namespace Chain

variable {c c' : Chain}

/-- Everything that was handed over is accepted. -/
def Accepted (c : Chain) : Prop := ∀ signed ∈ c.shipped, verifyWots signed.tx = .ok ()

theorem Step.accepted (h : Step password tag access deep c c') (hc : c.Accepted) : c'.Accepted := by
  cases h with
  | turn hks htold hcall honest =>
    intro signed hmem
    rcases List.mem_append.mp hmem with hmem | hmem
    · obtain ⟨plan, sig, hattach⟩ := attached_of_handed hcall hmem
      exact SignedTransaction.attach_verifies hattach
    · exact hc signed hmem
  | elsewhere => exact hc
  | paid => exact hc
  | land => exact hc
  | undo => exact hc

theorem Run.accepted (h : Run password tag access deep c c') (hc : c.Accepted) : c'.Accepted := by
  induction h with
  | refl => exact hc
  | tail _ hstep ih => exact hstep.accepted ih

theorem Step.shipped_subset (h : Step password tag access deep c c') : c.shipped ⊆ c'.shipped := by
  cases h with
  | turn => exact List.subset_append_right _ _
  | elsewhere => exact List.Subset.refl _
  | paid => exact List.Subset.refl _
  | land => exact List.Subset.refl _
  | undo => exact List.Subset.refl _

/-! ## Anyone's transactions -/

/-- A run in which transactions from anywhere land as well, where they are accepted on an address that
was signed for; and those that did, the newest first. -/
inductive OpenRun (password : Bytes) (tag : Tag) (access : KeyAccess) (deep : Prop) (c : Chain) :
    Chain → List Transaction → Prop where
  | refl : OpenRun password tag access deep c c []
  | own {c' c'' : Chain} {landed : List Transaction}
      (hrun : OpenRun password tag access deep c c' landed)
      (hstep : Step password tag access deep c' c'') : OpenRun password tag access deep c c'' landed
  | foreign {c' : Chain} {landed : List Transaction} {signed : SignedTransaction} {tx : Transaction}
      (balance : UInt64) (hrun : OpenRun password tag access deep c c' landed)
      (hmem : signed ∈ c'.shipped) (hspent : signed.tx.srcAddr = c'.entry.address)
      (hsrc : tx.srcAddr = c'.entry.address) (hverify : verifyWots tx = .ok ()) :
      OpenRun password tag access deep c { c' with entry := ⟨tx.chgAddr, balance⟩ } (tx :: landed)

/-- A transfer that was not signed landed on an address that was signed for: it breaks a hash. -/
def Forged (shipped : List SignedTransaction) (landed : List Transaction) : Prop :=
  ∃ signed ∈ shipped, ∃ tx ∈ landed, tx.srcAddr = signed.tx.srcAddr ∧
    tx.toTransfer ≠ signed.tx.toTransfer ∧ Breaks signed.tx tx

theorem Forged.mono {shipped shipped' : List SignedTransaction} {landed landed' : List Transaction}
    (h : Forged shipped landed) (hshipped : shipped ⊆ shipped') (hlanded : landed ⊆ landed') :
    Forged shipped' landed' := by
  obtain ⟨signed, hmem, tx, hmem', h⟩ := h
  exact ⟨signed, hshipped hmem, tx, hlanded hmem', h⟩

end Chain

/-- A run of a ledger that anyone writes to is a run of one that takes the wallet's transactions only,
and each transaction that landed is a transfer the wallet signed; or one of them is not the transfer
that was signed for its address, and breaks a hash. -/
theorem forgers_break_a_hash {landed : List Transaction} (hc : c.shipped = [])
    (hrun : Chain.OpenRun password tag access deep c c' landed) :
    Chain.Forged c'.shipped landed ∨
      Chain.Run password tag access deep c c' ∧
        ∀ tx ∈ landed, ∃ signed ∈ c'.shipped, tx.toTransfer = signed.tx.toTransfer := by
  have hnone : c.Accepted := by
    intro signed hmem
    rw [hc] at hmem
    cases hmem
  induction hrun with
  | refl =>
    right
    exact ⟨.refl, by simp⟩
  | own _ hstep ih =>
    rcases ih with hforged | ⟨hrun, hlanded⟩
    · exact .inl (hforged.mono hstep.shipped_subset (List.Subset.refl _))
    · refine .inr ⟨hrun.tail hstep, fun tx hmem => ?_⟩
      obtain ⟨signed, hshipped, htransfer⟩ := hlanded tx hmem
      exact ⟨signed, hstep.shipped_subset hshipped, htransfer⟩
  | @foreign c' landed signed tx balance _ hmem hspent hsrc hverify ih =>
    rcases ih with hforged | ⟨hrun, hlanded⟩
    · exact .inl (hforged.mono (List.Subset.refl _) (List.subset_cons_self _ _))
    have hsame : tx.srcAddr = signed.tx.srcAddr := hsrc.trans hspent.symm
    by_cases htransfer : tx.toTransfer = signed.tx.toTransfer
    -- It lands as the one that was signed.
    · right
      constructor
      · rw [show tx.chgAddr = signed.tx.chgAddr from congrArg Transfer.chgAddr htransfer]
        exact hrun.tail (.land balance hmem hspent)
      · intro tx' hmem'
        rcases List.mem_cons.mp hmem' with rfl | hmem'
        · exact ⟨signed, hmem, htransfer⟩
        · exact hlanded tx' hmem'
    · left
      have hbreaks := (second_spend (hrun.accepted hnone signed hmem) hverify
        (congrArg hashOf hsame)).resolve_left htransfer
      exact ⟨signed, hmem, tx, List.mem_cons_self, hsame, htransfer, hbreaks⟩

end

section
attribute [local instance] Crypto.numbering

/-- The spend lands, sent by another with its trailer cut off. -/
theorem forgers_break_a_hash_cut : ∃ (c c' : Chain) (tx : Transaction),
    c.shipped = [] ∧ Chain.OpenRun [] lastTag (.master sevens) False c c' [tx] ∧
      (Chain.Forged c'.shipped [tx] ∨ Chain.Run [] lastTag (.master sevens) False c c' ∧
        ∀ tx' ∈ [tx], ∃ signed ∈ c'.shipped, tx'.toTransfer = signed.tx.toTransfer) := by
  obtain ⟨x, hx⟩ := passed_went
  obtain ⟨signed, s, hsigned, -, hstep, hsrc, -⟩ := hx.reserves False
  obtain ⟨p, slot, key, change, -, hreserved⟩ := reserved_of_signed hsigned
  have hverify := SignedTransaction.attach_verifies hreserved.hattached
  have hrun : Chain.OpenRun [] lastTag (.master sevens) False x.start _ [_] :=
    .foreign 400 (.own .refl hstep) List.mem_cons_self hsrc hsrc
      (show verifyWots { signed.tx with trailer := none } = .ok () from hverify)
  exact ⟨_, _, _, rfl, hrun, forgers_break_a_hash rfl hrun⟩

end

end MochimoWallet.Wallet
