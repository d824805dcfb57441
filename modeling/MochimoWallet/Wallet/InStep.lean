import MochimoWallet.Keystore.Atomic
import MochimoWallet.Keystore.Numbering
import MochimoWallet.Recon.Restore
import MochimoWallet.Wallet.Chain

/-!
# An account that one wallet signs for

Whatever happens between its turns, an account that one wallet signs for stays in step with its
ledger: it never diverges while the ledger takes back no spend that was settled
(`never_diverges`), and is found again from the master alone (`restores_in_step`). However much the
ledger takes back it is never ahead, so no acknowledged advance writes (`never_ahead`), and no two
transfers are signed that go from one address (`one_transfer_each`).
-/

namespace MochimoWallet.Wallet

open Codec Keystore Session

section
variable [Crypto] {password : Bytes} {tag : Tag} {access : KeyAccess} {at' : WotsIndex → Address}
  {c c' : Chain} {r : Ratchet.State Digest} {deep : Prop} {ks : Keystore} {p : Parsed} {slot : Slot}

/-! ## In step -/

/-- The ledger names the stored position, or the reserved one while it is open. -/
def Follows (at' : WotsIndex → Address) (slot : Slot) (entry : LedgerEntry) : Prop :=
  (slot.pending = none → entry.address = at' slot.account.wotsIndex) ∧
    ∀ pending, slot.pending = some pending →
      entry.address = at' pending.spentIndex ∨ entry.address = at' slot.account.wotsIndex

theorem Tracks.follows (h : Tracks password tag access at' c r) (hstep : Ratchet.InStep r)
    (hstanding : Standing tag access at' p slot r) : Follows at' slot c.entry := by
  obtain ⟨i, hi, hentry⟩ := h.held
  constructor
  · intro hopen
    have hfree : r.reserved = none := by rw [← hstanding.reserved, hopen]; rfl
    have hpos : i.pos = slot.account.wotsIndex.pos := by
      rw [hi, hstep.held_of_free hfree, hstanding.next]
    rw [← hentry, WotsIndex.ext_pos hpos]
  · intro pending hopen
    have hreserved : r.reserved = some (pending.spentIndex.pos, pending.digest) := by
      rw [← hstanding.reserved, hopen]
      rfl
    rw [← hentry]
    refine (hstep.held_of_reserved hreserved).imp (fun hheld => ?_) fun hheld => ?_
    · rw [WotsIndex.ext_pos (hi.trans hheld)]
    · rw [WotsIndex.ext_pos (hi.trans (hheld.trans hstanding.next.symm))]

/-- Where the ledger follows the store, a reconciliation that hears it returns a status. -/
theorem Follows.reconciles {entry : LedgerEntry} (h : Follows at' slot entry)
    (hm : ks.memory = some p) (hslot : p.slots.get? tag = some slot)
    (hat : ∀ i, ks.addressAt tag i access = .ok (at' i)) (htag : tagOf entry.address = tag)
    {scope : ScanScope} {cancel : Cancel} {n : Node} {entries : List (Except Error LedgerEntry)}
    (hentries : n.entries = .ok entry :: entries) :
    ∃ status n', reconcileAccountWith ks tag access scope cancel n = (.ok status, n') := by
  rcases hopen : slot.pending with _ | pending
  · obtain ⟨m, hsync⟩ := reconcile_inSync hm hslot hopen ((hat _).trans (by rw [h.1 hopen])) hentries htag
    exact ⟨_, m, hsync⟩
  obtain ⟨found, m, hfound⟩ := @reconcile_returns _ ks tag access scope cancel n
  have hexact := hfound
  rw [reconcile_heard hm hslot hentries htag, hopen] at hexact
  obtain ⟨houtstanding, hlanded⟩ := reconcileOpen_exact hat hexact
  suffices hok : ∃ status, found = .ok status by
    obtain ⟨status, rfl⟩ := hok
    exact ⟨status, m, hfound⟩
  by_cases hspent : at' pending.spentIndex = entry.address
  · obtain ⟨reservation, hok⟩ := houtstanding.mpr hspent
    exact ⟨_, hok⟩
  · have hchange := (h.2 pending hopen).resolve_left fun he => hspent he.symm
    exact ⟨_, (hlanded hspent).1.mpr hchange.symm⟩

/-- The addresses of a handle are those of the store it holds. -/
theorem Tracks.addressAt (h : Tracks password tag access at' c r) (hks : c.world.handle = some ks)
    (hm : ks.memory = some p) (i : WotsIndex) : ks.addressAt tag i access = .ok (at' i) := by
  obtain ⟨q, slot, hq, hstanding⟩ := h.stands
  cases hq.symm.trans (h.sound ks p hks hm).2
  obtain ⟨key, hkey, haddress⟩ := hstanding.keys i
  exact (addressAt_eq_ok hm).mpr ⟨slot, key, hstanding.hslot, hkey, haddress.symm⟩

/-- While the ledger takes back no spend that was settled, it names the stored position or the
reserved one, and every reconciliation that hears it returns a status. -/
theorem never_diverges (hl : Crypto.Lawful) (hinj : Function.Injective at')
    (hbegins : c.Begins password tag access at') (hrun : Chain.Run password tag access False c c') :
    ∃ p slot, c'.world.state password = some p ∧ p.slots.get? tag = some slot ∧
      Follows at' slot c'.entry ∧
      ∀ ks scope cancel n entries, c'.world.handle = some ks → ks.memory ≠ none →
        n.entries = .ok c'.entry :: entries →
        ∃ status n', reconcileAccountWith ks tag access scope cancel n = (.ok status, n') := by
  obtain ⟨r, h, hinstep⟩ := hbegins.tracks
  obtain ⟨r', hratchet, h'⟩ := hrun.tracks hl hinj h
  obtain ⟨p, slot, hp, hstanding⟩ := h'.stands
  have hfollows := h'.follows (hinstep.run hratchet) hstanding
  refine ⟨p, slot, hp, hstanding.hslot, hfollows, fun ks scope cancel n entries hks hlive hentries => ?_⟩
  obtain ⟨q, hm⟩ := Option.ne_none_iff_exists'.mp hlive
  cases hp.symm.trans (h'.sound ks q hks hm).2
  exact hfollows.reconciles hm hstanding.hslot (h'.addressAt hks hm) h'.tag_entry hentries

/-! ## However much the ledger takes back -/

/-- The ledger is never ahead of the store, and no acknowledged advance writes. -/
theorem never_ahead (hl : Crypto.Lawful) (hinj : Function.Injective at')
    (hbegins : c.Begins password tag access at') (hrun : Chain.Run password tag access deep c c') :
    (∃ p slot i, c'.world.state password = some p ∧ p.slots.get? tag = some slot ∧
      i.pos ≤ slot.account.wotsIndex.pos ∧ c'.entry.address = at' i) ∧
    ∀ (s s' : Session UnixMedium) a ack scope cancel last r, c'.world.handle = some s.store.ks →
      access.Told a → advanceAfterOperatorReview tag a ack scope cancel last s = (r, s') →
      (∀ entry, (tag, entry) ∈ s'.node.heard → entry = c'.entry) →
      (∃ e, r = .err e) ∧ s'.store = s.store := by
  obtain ⟨r, h, -⟩ := hbegins.tracks
  obtain ⟨r', -, h'⟩ := hrun.tracks hl hinj h
  obtain ⟨p, slot, hp, hstanding⟩ := h'.stands
  obtain ⟨i, hi, hentry⟩ := h'.held
  refine ⟨⟨p, slot, i, hp, hstanding.hslot, ?_, hentry.symm⟩, ?_⟩
  · rw [hi, hstanding.next]
    exact h'.sane.held
  · intro s s' a ack scope cancel last r hks htold hcall honest
    rcases hm : s.store.ks.memory with _ | q
    · exact (advance_poisoned hm hcall).symm
    · cases advance_cases hm hcall with
      | refused hr hstore => exact ⟨⟨_, hr⟩, hstore⟩
      | @called slot entry hack hslot hopen hahead hheard haddress hwrite =>
        obtain rfl := honest entry (hheard ▸ List.mem_cons_self)
        exact absurd haddress (h'.not_ahead hinj hks hm htold hslot hahead)

/-- No two transfers that were signed go from one address. -/
theorem one_transfer_each (hl : Crypto.Lawful) (hinj : Function.Injective at')
    (hbegins : c.Begins password tag access at') (hrun : Chain.Run password tag access deep c c')
    {signed signed' : SignedTransaction} (hmem : signed ∈ c'.shipped) (hmem' : signed' ∈ c'.shipped)
    (htag : tagOf signed.tx.srcAddr = tag) (hsrc : signed'.tx.srcAddr = signed.tx.srcAddr)
    (hapart : Crypto.Sha256Apart signed.tx.signedPrefix signed'.tx.signedPrefix) :
    signed'.tx.toTransfer = signed.tx.toTransfer := by
  obtain ⟨r, h, -⟩ := hbegins.tracks
  obtain ⟨r', -, h'⟩ := hrun.tracks hl hinj h
  obtain ⟨i, j, hi, -, hati, -⟩ := h'.shipped signed hmem htag
  obtain ⟨i', j', hi', -, hati', -⟩ := h'.shipped signed' hmem' (hsrc ▸ htag)
  obtain rfl := hinj (hati.trans (hsrc.symm.trans hati'.symm))
  exact (signedPrefix_inj (hapart (h'.sane.once _ _ _ hi (.inl hi')))).symm


/-! ## From the master alone -/

/-- A derived account is found where the store has it: at the stored position, which nothing that was
signed spends, or at the reserved one while that has not landed. -/
theorem restores_in_step (hl : Crypto.Lawful) {master : Secret} {accountIndex : UInt32}
    (hinj : Function.Injective (derivedAddressAt master accountIndex))
    (hbegins : c.Begins password (deriveAccount master accountIndex).tag (.master master)
      (derivedAddressAt master accountIndex))
    (hrun : Chain.Run password (deriveAccount master accountIndex).tag (.master master) False c c') :
    ∃ p slot, c'.world.state password = some p ∧
      p.slots.get? (deriveAccount master accountIndex).tag = some slot ∧
      ∀ scope n entries, slot.account.wotsIndex.pos < scope.ceiling.toNat →
        n.entries = .ok c'.entry :: entries →
        ∃ position n', restoreAccountIndexWith master accountIndex scope .never n =
            (.ok ⟨(deriveAccount master accountIndex).tag, position, c'.entry.address,
              c'.entry.balance⟩, n') ∧
          (position = slot.account.wotsIndex ∨
            ∃ pending, slot.pending = some pending ∧ position = pending.spentIndex) ∧
          (position = slot.account.wotsIndex →
            ∀ signed ∈ c'.shipped, signed.tx.srcAddr ≠ c'.entry.address) := by
  obtain ⟨r, h, hinstep⟩ := hbegins.tracks
  obtain ⟨r', hratchet, h'⟩ := hrun.tracks hl hinj h
  obtain ⟨p, slot, hp, hstanding⟩ := h'.stands
  have hfollows := h'.follows (hinstep.run hratchet) hstanding
  obtain ⟨i, hi, hentry⟩ := h'.held
  have htag := h'.tag_entry
  refine ⟨p, slot, hp, hstanding.hslot, fun scope n entries hceiling hentries => ?_⟩
  have hle : i.pos ≤ slot.account.wotsIndex.pos := by
    rw [hi, hstanding.next]
    exact h'.sane.held
  have hplaced : Placed master accountIndex scope.ceiling c'.entry.address i := by
    refine ⟨lt_of_le_of_lt hle hceiling, hentry, fun q hq he => ?_⟩
    rw [hinj (he.trans hentry.symm)] at hq
    exact Nat.lt_irrefl _ hq
  rcases hrestored : restoreAccountIndexWith master accountIndex scope .never n with ⟨reply, m⟩
  have hok := (restoreAccountIndexWith_ok hrestored).mpr
    ⟨c'.entry, entries, i, hentries, htag, hplaced, rfl⟩
  refine ⟨i, m, by rw [hok], ?_, fun hat signed hmem hsrc => ?_⟩
  · rcases hopen : slot.pending with _ | pending
    · exact .inl (hinj (hentry.trans (hfollows.1 hopen)))
    · rcases hfollows.2 pending hopen with hspent | hchange
      · exact .inr ⟨pending, rfl, hinj (hentry.trans hspent)⟩
      · exact .inl (hinj (hentry.trans hchange))
  -- What was signed spends a reserved position, and the stored one was never reserved.
  · obtain ⟨j, -, hj, -, hatj, -⟩ := h'.shipped signed hmem (hsrc ▸ htag)
    obtain rfl := hinj (hatj.trans (hsrc.trans hentry.symm))
    have hlt := h'.sane.signed _ _ hj
    rw [hat, hstanding.next] at hlt
    exact Nat.lt_irrefl _ hlt

/-! ## No reservation is stuck -/

section
variable {part : Partition} {pending : Pending} {fates : List Fate} {calls : List MediumCall}
  {s : Session UnixMedium} {t : Opened UnixMedium}

/-- What a settlement goes through once the ledger names the stored position. -/
theorem settleIfLanded_of {entry : LedgerEntry} {entries : List (Except Error LedgerEntry)}
    {spent : Address} (hm : s.store.ks.memory = some p) (hslot : p.slots.get? tag = some slot)
    (hopen : slot.pending = some pending)
    (hspent : s.store.ks.addressAt tag pending.spentIndex access = .ok spent)
    (hne : entry.address ≠ spent)
    (hchange : s.store.ks.addressAt tag slot.account.wotsIndex access = .ok entry.address)
    (hentries : s.node.entries = .ok entry :: entries) (htag : tagOf entry.address = tag)
    (hwrite : persistSettled tag s.store = (.ok (), t)) :
    settleIfLanded tag access s = (.ok (.settled pending.spentIndex slot.account.wotsIndex),
      ⟨t, { s.node with entries, heard := (tag, entry) :: s.node.heard }⟩) := by
  have hlanded : reconcileAccount s.store.ks tag access s.node =
      (.ok (.spendLanded pending.spentIndex slot.account.wotsIndex entry.balance),
        { s.node with entries, heard := (tag, entry) :: s.node.heard }) := by
    rw [reconcileAccount, reconcile_heard hm hslot hentries htag, hopen]
    dsimp only
    unfold reconcileOpen
    rw [hspent, orCannot, Call.check_ok, Call.pure_bind, Call.ite_apply, if_neg hne, hchange, orCannot,
      Call.check_ok, Call.pure_bind, Call.ite_apply, if_pos rfl]
    rfl
  have hasked : asking (ε := Error) (fun ks => (reconcileAccount ks tag access).attempt) s =
      (.ok (.ok (.spendLanded pending.spentIndex slot.account.wotsIndex entry.balance)),
        { s with node := { s.node with entries, heard := (tag, entry) :: s.node.heard } }) := by
    refine asking_of ?_
    unfold Call.attempt
    rw [hlanded]
  unfold settleIfLanded
  rw [Call.bind_of_ok hasked]
  dsimp only
  have hwriting : writing (persistSettled tag)
      { s with node := { s.node with entries, heard := (tag, entry) :: s.node.heard } } =
      (.ok (), ⟨t, { s.node with entries, heard := (tag, entry) :: s.node.heard }⟩) := by
    unfold writing Call.zoom
    rw [hwrite]
  rw [Call.bind_of_ok hwriting]
  rfl

/-- The account as a settlement that returned left it. -/
theorem settled_memory (hm : s.store.ks.memory = some p) (hslot : p.slots.get? tag = some slot)
    (hwrite : persistSettled tag s.store = (.ok (), t)) :
    ∃ q slot', t.ks.memory = some q ∧ q.slots.get? tag = some slot' ∧ slot'.pending = none ∧
      slot'.account.wotsIndex = slot.account.wotsIndex := by
  have hop : Op.call (.persistSettled tag) s.store = (.ok none, t) :=
    Call.map_apply (f := fun _ => none) hwrite
  have hend := call_end hm hop
  generalize hr : (Reply.ok none : Reply Error (Option AdvanceReceipt)) = reply at hend
  cases hend with
  | refused => cases hr
  | failed => cases hr
  | killed => cases hr
  | @done q image hnext himage hsteps hks =>
    refine ⟨q, ?_⟩
    have hstep := (Parsed.step_of_next hnext).1
    cases hstep with
    | persistSettled ht hopen hslots hmaster =>
      cases ht.symm.trans hslot
      have hslot' := (congrArg (·.get? tag) hslots).trans (Parsed.get?_write hslot ..)
      exact ⟨_, by rw [hks]; rfl, hslot', rfl, rfl⟩

/-- An open reservation can be carried through: while the ledger names its address and has what it
was made for, it is signed again, and once that has landed it is settled. -/
theorem reservation_finishes (hl : Crypto.Lawful) (hinj : Function.Injective at')
    (hbegins : c.Begins password tag access at') (hrun : Chain.Run password tag access deep c c')
    {dsts : List Destination} {feeTotal blkToLive : UInt64} {plan : SpendPlan}
    (hks : c'.world.handle = some ks) (hm : ks.memory = some p) (hslot : p.slots.get? tag = some slot)
    (hopen : slot.pending = some pending) (hpart : part.divergenceFor tag = none)
    (hplan : SpendPlan.new ⟨tag, pending.spentIndex, at' pending.spentIndex,
      at' slot.account.wotsIndex⟩ c'.entry dsts feeTotal blkToLive = .ok plan)
    (hdigest : plan.digest = pending.digest)
    (hwrite : persistSettled tag ⟨ks, ⟨c'.world.disk, fates, calls⟩⟩ = (.ok (), t)) (balance : UInt64) :
    ∃ c'' signed q slot', Chain.Run password tag access False c' c'' ∧ signed ∈ c''.shipped ∧
      signed.tx.toTransfer = plan.transfer ∧ c''.world.state password = some q ∧
      q.slots.get? tag = some slot' ∧ slot'.pending = none ∧
      slot'.account.wotsIndex = slot.account.wotsIndex ∧
      c''.entry = ⟨at' slot.account.wotsIndex, balance⟩ := by
  obtain ⟨r, h, -⟩ := hbegins.tracks
  obtain ⟨r', -, h'⟩ := hrun.tracks hl hinj h
  obtain ⟨p, slot, hp, hstanding⟩ := h'.stands
  cases hp.symm.trans (h'.sound ks _ hks hm).2
  cases hslot.symm.trans hstanding.hslot
  have hat := h'.addressAt hks hm
  obtain ⟨hentry, hposition, hsrc, hchg, -⟩ := PlanFields.build_eq_ok (SpendPlan.new_eq_ok.mp hplan)
  obtain ⟨key, hkey, haddress⟩ := hstanding.keys pending.spentIndex
  obtain ⟨signed, hattach⟩ := SignedTransaction.attach_signWith (haddress.trans hsrc.symm)
  obtain ⟨hsrc', hchg', -⟩ := of_attached hattach
  rw [hposition, hdigest] at hattach
  let before : Session UnixMedium := ⟨⟨ks, ⟨c'.world.disk, fates, calls⟩⟩, answering [.ok c'.entry]⟩
  have haddresses : reservedAddresses ks tag access pending slot.account.wotsIndex =
      .ok ⟨tag, pending.spentIndex, at' pending.spentIndex, at' slot.account.wotsIndex⟩ := by
    rw [reservedAddresses, hat, ok_bind, hat, ok_bind]
  have htag := h'.tag_entry
  have hresign := resignPending_of (s := before) hm hslot hopen hpart haddresses rfl htag hplan hdigest
    hkey hattach
  let c₁ := c'.after (.ok (.signed signed))
    { before with node := { before.node with entries := [], heard := [(tag, c'.entry)] } }
  have hsigned : Chain.Step password tag access False c' c₁ := by
    have hcall : Method.call part (.resignPending tag access dsts feeTotal blkToLive) before =
        (.ok (.signed signed), { before with
          node := { before.node with entries := [], heard := [(tag, c'.entry)] } }) :=
      Call.map_apply (f := Answer.signed) hresign
    refine .turn hks (fun a ha => ?_) hcall fun entry hmem => ?_
    · cases ha
      exact KeyAccess.told_self _
    · exact (Prod.mk.inj (List.mem_singleton.mp hmem)).2
  let entry : LedgerEntry := ⟨signed.tx.chgAddr, balance⟩
  have hlands : Chain.Step password tag access False c₁ { c₁ with entry } :=
    .land balance List.mem_cons_self (hsrc'.trans (hsrc.trans hentry.symm))
  have hentry' : entry.address = at' slot.account.wotsIndex := hchg'.trans hchg
  have hreserved : r'.reserved = some (pending.spentIndex.pos, pending.digest) := by
    rw [← hstanding.reserved, hopen]
    rfl
  have hne : entry.address ≠ at' pending.spentIndex := by
    intro he
    have hnext := h'.sane.reserved _ _ hreserved
    rw [← hstanding.next, hinj (hentry'.symm.trans he)] at hnext
    omega
  let after : Session UnixMedium := ⟨⟨ks, ⟨c'.world.disk, fates, calls⟩⟩, answering [.ok entry]⟩
  have hsettle := settleIfLanded_of (s := after) hm hslot hopen (hat _) hne ((hat _).trans (by rw [hentry']))
    rfl (by rw [hentry']; exact hstanding.tag_at _) hwrite
  have hsettles : Chain.Step password tag access False { c₁ with entry }
      (Chain.after { c₁ with entry }
        (.ok (.settlement (.settled pending.spentIndex slot.account.wotsIndex)))
        ⟨t, { after.node with entries := [], heard := [(tag, entry)] }⟩) := by
    have hcall : Method.call part (.settleIfLanded tag access) after =
        (.ok (.settlement (.settled pending.spentIndex slot.account.wotsIndex)),
          ⟨t, { after.node with entries := [], heard := [(tag, entry)] }⟩) :=
      Call.map_apply (f := Answer.settlement) hsettle
    refine .turn rfl (fun a ha => ?_) hcall fun entry' hmem => ?_
    · cases ha
      exact KeyAccess.told_self _
    · exact (Prod.mk.inj (List.mem_singleton.mp hmem)).2
  have hrun' : Chain.Run password tag access False c' _ := .tail (.tail (.single hsigned) hlands) hsettles
  obtain ⟨_, -, hlast⟩ := hrun'.tracks hl hinj h'
  obtain ⟨q, slot', hq, hslot', hfree, hindex⟩ := settled_memory (s := after) hm hslot hwrite
  exact ⟨_, signed, q, slot', hrun', List.mem_cons_self, (SignedTransaction.attach_transfer hattach).1,
    (hlast.sound t.ks q rfl hq).2, hslot', hfree, hindex,
    congrArg (fun a => (⟨a, balance⟩ : LedgerEntry)) hentry'⟩

end

end

/-! ## An account in step -/

section
attribute [local instance] Crypto.numbering

theorem derivedAddressAt_injective (master : Secret) :
    Function.Injective (derivedAddressAt master 0xffffffff) := by
  have hat (i : WotsIndex) : derivedAddressAt master 0xffffffff i =
      (derivedKeyAt (deriveAccount master 0xffffffff) i).address (deriveAccount master 0xffffffff).tag := by
    unfold derivedAddressAt derivedKeyAt
    cases i.rotation <;> rfl
  intro i j h
  exact derivedKeyAt_injective master _ ((hat i).symm.trans (h.trans (hat j)))

/-- A store of that account. -/
@[irreducible] def lastFounded : World := World.nowhere.execAll []
  [.create ⟨[], .zero saltLen, .zero nonceSeedLen, ⟨8, 1, 1⟩⟩, .write (.adoptMaster sevens) [],
    .write (.add (.derive sevens 0xffffffff)) []]

/-- A spend of a store of that account, and what its settlement finds once it has landed. -/
structure Passed where
  ks : Keystore
  parsed : Parsed
  slot : Slot
  addresses : SpendAddresses
  plan : SpendPlan
  receipt : AdvanceReceipt
  store : Opened UnixMedium
  spentIndex : WotsIndex
  index : WotsIndex
  session : Session UnixMedium
  settled : Opened UnixMedium

def passed : Option Passed := do
  let ks ← lastFounded.handle
  let parsed ← ks.memory
  let slot ← parsed.slots.get? lastTag
  let addresses ← (ks.spendAddresses lastTag (.master sevens)).toOption
  let plan ← (SpendPlan.new addresses ⟨addresses.source, 1000⟩ [paid] 500 0).toOption
  match persistAdvance plan.tag plan.digest plan.figures ⟨ks, ⟨lastFounded.disk, [], []⟩⟩ with
  | (.ok receipt, store) =>
    match settleIfLanded lastTag (.master sevens)
      ⟨⟨store.ks, ⟨store.medium.disk, [], []⟩⟩, answering [.ok ⟨addresses.change, 400⟩]⟩ with
    | (.ok (.settled spentIndex index), session) =>
      match persistSettled lastTag ⟨store.ks, ⟨store.medium.disk, [], []⟩⟩ with
      | (.ok (), settled) =>
        some ⟨ks, parsed, slot, addresses, plan, receipt, store, spentIndex, index, session, settled⟩
      | _ => none
    | _ => none
  | _ => none

/-- The account is derived, and its keys can be had. -/
def Passed.Derives (x : Passed) : Bool :=
  (keyAt x.parsed.slots x.slot .zero (.master sevens)).toOption.isSome &&
    match x.slot.account.key with
    | .derived accountIndex _ => accountIndex = 0xffffffff
    | .imported .. => false

/-- What the spend went through. -/
structure Passed.Went (x : Passed) : Prop where
  hks : lastFounded.handle = some x.ks
  hm : x.ks.memory = some x.parsed
  hslot : x.parsed.slots.get? lastTag = some x.slot
  haddresses : x.ks.spendAddresses lastTag (.master sevens) = .ok x.addresses
  hplan : SpendPlan.new x.addresses ⟨x.addresses.source, 1000⟩ [paid] 500 0 = .ok x.plan
  hcall : persistAdvance x.plan.tag x.plan.digest x.plan.figures ⟨x.ks, ⟨lastFounded.disk, [], []⟩⟩ =
    (.ok x.receipt, x.store)
  hsettle : settleIfLanded lastTag (.master sevens) ⟨⟨x.store.ks, ⟨x.store.medium.disk, [], []⟩⟩,
    answering [.ok ⟨x.addresses.change, 400⟩]⟩ = (.ok (.settled x.spentIndex x.index), x.session)
  hwrite : persistSettled lastTag ⟨x.store.ks, ⟨x.store.medium.disk, [], []⟩⟩ = (.ok (), x.settled)
  htag : x.plan.tag = lastTag
  hslot_tag : x.slot.account.tag = lastTag
  hopen : x.slot.pending = none
  hheard : x.session.node.heard = [(lastTag, ⟨x.addresses.change, 400⟩)]
  hderives : x.Derives = true
  hlast : (x.session.store.ks.memory.bind fun p =>
    (p.slots.get? lastTag).map (·.account.wotsIndex.pos)) = some 1

theorem passed_went : ∃ x : Passed, x.Went := by
  have hrun : (passed.map fun x => decide (x.plan.tag = lastTag ∧ x.slot.account.tag = lastTag ∧
      x.slot.pending = none ∧ x.session.node.heard = [(lastTag, ⟨x.addresses.change, 400⟩)] ∧
      x.Derives = true ∧ (x.session.store.ks.memory.bind fun p =>
        (p.slots.get? lastTag).map (·.account.wotsIndex.pos)) = some 1)) = some true := by
    decide +kernel
  obtain ⟨x, hx, hchecks⟩ := Option.map_eq_some_iff.mp hrun
  obtain ⟨htag, hslottag, hopen, hheard, hderives, hlast⟩ := of_decide_eq_true hchecks
  unfold passed at hx
  obtain ⟨ks, hks, hx⟩ := Option.bind_eq_some_iff.mp hx
  obtain ⟨p, hm, hx⟩ := Option.bind_eq_some_iff.mp hx
  obtain ⟨slot, hslot, hx⟩ := Option.bind_eq_some_iff.mp hx
  obtain ⟨addresses, haddresses, hx⟩ := Option.bind_eq_some_iff.mp hx
  obtain ⟨plan, hplan, hx⟩ := Option.bind_eq_some_iff.mp hx
  split at hx
  · next receipt store hcall =>
    split at hx
    · next spentIndex index session hsettle =>
      split at hx
      · next settled hwrite =>
        cases hx
        exact ⟨⟨ks, p, slot, addresses, plan, receipt, store, spentIndex, index, session, settled⟩,
          ⟨hks, hm, hslot, toOption_eq_some.mp haddresses, toOption_eq_some.mp hplan, hcall, hsettle,
            hwrite, htag, hslottag, hopen, hheard, hderives, hlast⟩⟩
      · cases hx
    · cases hx
  · cases hx

/-- The account begins with the ledger at its first key. -/
def Passed.start (x : Passed) : Chain := ⟨lastFounded, [], ⟨x.addresses.source, 1000⟩⟩

theorem sound_lastFounded : lastFounded.Sound [] := by
  unfold lastFounded
  exact (World.run_of_commands [] World.nowhere _).sound Crypto.numbering_lawful
    (World.sound_of_closed rfl)

theorem Passed.Went.begins {x : Passed} (h : x.Went) :
    x.start.Begins [] lastTag (.master sevens) (derivedAddressAt sevens 0xffffffff) := by
  obtain ⟨hsome, hkind⟩ := Bool.and_eq_true_iff.mp h.hderives
  obtain ⟨key, hkey⟩ := Option.isSome_iff_exists.mp hsome
  have hkey := toOption_eq_some.mp hkey
  obtain ⟨stream, hkind⟩ : ∃ stream, x.slot.account.key = .derived 0xffffffff stream := by
    split at hkind
    · next accountIndex stream heq => exact ⟨stream, by rw [heq, of_decide_eq_true hkind]⟩
    · cases hkind
  have hkeys (i : WotsIndex) : ∃ key, keyAt x.parsed.slots x.slot i (.master sevens) = .ok key ∧
      key.address lastTag = derivedAddressAt sevens 0xffffffff i := by
    obtain ⟨key, hkey⟩ := keyAt_everywhere hkey i
    exact ⟨key, hkey, h.hslot_tag ▸ address_of_master hkind hkey⟩
  refine ⟨sound_lastFounded, ⟨x.parsed, x.slot, (sound_lastFounded x.ks x.parsed h.hks h.hm).2, h.hslot,
    h.hopen, ?_, hkeys⟩, rfl⟩
  obtain ⟨t, next, source, change, ht, -, -, hsource, -, haddresses⟩ :=
    (spendAddresses_eq_ok h.hm).mp h.haddresses
  cases ht.symm.trans h.hslot
  obtain ⟨key, hkey, haddress⟩ := hkeys x.slot.account.wotsIndex
  cases hkey.symm.trans hsource
  show x.addresses.source = _
  rw [haddresses, ← haddress]

/-- The spend is signed. -/
theorem Passed.Went.reserves {x : Passed} (h : x.Went) (deep : Prop) : ∃ signed s,
    reserveAndSign ⟨[], []⟩ x.plan (.master sevens)
        (⟨⟨x.ks, ⟨lastFounded.disk, [], []⟩⟩, answering [.ok ⟨x.addresses.source, 1000⟩]⟩ :
          Session UnixMedium) = (.ok signed, s) ∧ s.store = x.store ∧
      Chain.Step [] lastTag (.master sevens) deep x.start (x.start.after (.ok (.signed signed)) s) ∧
      signed.tx.srcAddr = x.addresses.source ∧ signed.tx.chgAddr = x.addresses.change ∧
      tagOf x.addresses.source = lastTag := by
  obtain ⟨-, hposition, hsrc, hchg, -, hblk, hbalance, -⟩ :=
    PlanFields.build_eq_ok (SpendPlan.new_eq_ok.mp h.hplan)
  have haddresses : x.ks.spendAddresses x.plan.tag (.master sevens) = .ok x.addresses :=
    h.htag.symm ▸ h.haddresses
  have hplan := checkPlan_eq_ok.mpr ⟨hposition.symm, hsrc.symm, hchg.symm⟩
  have htag : tagOf x.addresses.source = x.plan.tag := by rw [SpendPlan.tag, hsrc]
  let before : Session UnixMedium :=
    ⟨⟨x.ks, ⟨lastFounded.disk, [], []⟩⟩, answering [.ok ⟨x.addresses.source, 1000⟩]⟩
  obtain ⟨signed, s, hsigned, hstore⟩ : ∃ signed s,
      reserveAndSign ⟨[], []⟩ x.plan (.master sevens) before = (.ok signed, s) ∧ s.store = x.store :=
    reserveAndSign_ok rfl haddresses hplan hblk rfl htag (checkEntry_eq_ok.mpr ⟨rfl, hbalance.symm⟩)
      h.hcall
  obtain ⟨p, slot, key, change, -, hreserved⟩ := reserved_of_signed hsigned
  obtain ⟨hsrc', hchg', -⟩ := of_attached hreserved.hattached
  have honest : ∀ entry, (lastTag, entry) ∈ s.node.heard → entry = x.start.entry := by
    intro entry hmem
    rw [heard_of_signed hsigned haddresses, hbalance] at hmem
    obtain ⟨-, rfl⟩ := Prod.mk.inj (List.mem_singleton.mp hmem)
    rfl
  have hcall : Method.call ⟨[], []⟩ (.reserveAndSign x.plan (.master sevens)) before =
      (.ok (.signed signed), s) := Call.map_apply (f := Answer.signed) hsigned
  refine ⟨signed, s, hsigned, hstore, .turn h.hks (fun a ha => ?_) hcall honest, hsrc'.trans hsrc,
    hchg'.trans hchg, htag.trans h.htag⟩
  rw [← (Prod.mk.inj (Option.some.inj ha)).2]
  exact KeyAccess.told_self _

/-- It lands and is settled. -/
theorem Passed.Went.runs {x : Passed} (h : x.Went) (deep : Prop) : ∃ c signed,
    Chain.Run [] lastTag (.master sevens) deep x.start c ∧ c.shipped = [signed] ∧
      tagOf signed.tx.srcAddr = lastTag ∧ signed.tx.chgAddr = c.entry.address ∧
      c.world.handle = some x.session.store.ks := by
  obtain ⟨signed, s, -, hstore, hreserve, hsrc, hchg, htag⟩ := h.reserves deep
  let c₁ := x.start.after (.ok (.signed signed)) s
  let c₂ : Chain := { c₁ with entry := ⟨signed.tx.chgAddr, 400⟩ }
  have hland : Chain.Step [] lastTag (.master sevens) deep c₁ c₂ := .land 400 List.mem_cons_self hsrc
  have hsettle : Chain.Step [] lastTag (.master sevens) deep c₂
      (c₂.after (.ok (.settlement (.settled x.spentIndex x.index))) x.session) := by
    have hcall : Method.call ⟨[], []⟩ (.settleIfLanded lastTag (.master sevens))
        ⟨⟨s.store.ks, ⟨c₂.world.disk, [], []⟩⟩, answering [.ok ⟨x.addresses.change, 400⟩]⟩ =
        (.ok (.settlement (.settled x.spentIndex x.index)), x.session) := by
      show Method.call ⟨[], []⟩ (.settleIfLanded lastTag (.master sevens))
        (⟨⟨s.store.ks, ⟨s.store.medium.disk, [], []⟩⟩, answering [.ok ⟨x.addresses.change, 400⟩]⟩ :
          Session UnixMedium) = _
      rw [hstore]
      exact Call.map_apply (f := Answer.settlement) h.hsettle
    refine .turn rfl (fun a ha => ?_) hcall fun entry hmem => ?_
    · rw [← (Prod.mk.inj (Option.some.inj ha)).2]
      exact KeyAccess.told_self _
    · rw [h.hheard, List.mem_singleton] at hmem
      rw [(Prod.mk.inj hmem).2]
      show _ = (⟨signed.tx.chgAddr, 400⟩ : LedgerEntry)
      rw [hchg]
  exact ⟨_, signed, .tail (.tail (.single hreserve) hland) hsettle, rfl, hsrc ▸ htag, rfl, rfl⟩

/-- An account whose spend landed and was settled is in step. -/
theorem never_diverges_passed : ∃ c c' p slot, c.Begins [] lastTag (.master sevens)
    (derivedAddressAt sevens 0xffffffff) ∧ Chain.Run [] lastTag (.master sevens) False c c' ∧
      c'.shipped ≠ [] ∧ c'.world.state [] = some p ∧ p.slots.get? lastTag = some slot ∧
      Follows (derivedAddressAt sevens 0xffffffff) slot c'.entry := by
  obtain ⟨x, hx⟩ := passed_went
  obtain ⟨c, signed, hrun, hshipped, -⟩ := hx.runs False
  obtain ⟨p, slot, hp, hslot, hfollows, -⟩ :=
    never_diverges Crypto.numbering_lawful (derivedAddressAt_injective sevens) hx.begins hrun
  exact ⟨x.start, c, p, slot, hx.begins, hrun, by rw [hshipped]; simp, hp, hslot, hfollows⟩

/-- The ledger takes the settled spend back, and is not ahead. -/
theorem never_ahead_passed : ∃ c c' p slot i, c.Begins [] lastTag (.master sevens)
    (derivedAddressAt sevens 0xffffffff) ∧ Chain.Run [] lastTag (.master sevens) True c c' ∧
      c'.world.state [] = some p ∧ p.slots.get? lastTag = some slot ∧
      i.pos ≤ slot.account.wotsIndex.pos ∧
      c'.entry.address = derivedAddressAt sevens 0xffffffff i := by
  obtain ⟨x, hx⟩ := passed_went
  obtain ⟨c, signed, hrun, hshipped, htag, hchg, -⟩ := hx.runs True
  obtain ⟨r, hbegins, -⟩ := hx.begins.tracks
  obtain ⟨_, -, hend⟩ :=
    hrun.tracks Crypto.numbering_lawful (derivedAddressAt_injective sevens) hbegins
  have hundo : Chain.Run [] lastTag (.master sevens) True x.start
      { c with entry := ⟨signed.tx.srcAddr, 1000⟩ } := by
    exact hrun.tail (.undo 1000 (hshipped ▸ List.mem_cons_self) hchg
      (htag.trans hend.tag_entry.symm) (.inl trivial))
  obtain ⟨⟨p, slot, i, hp, hslot, hle, hentry⟩, -⟩ :=
    never_ahead Crypto.numbering_lawful (derivedAddressAt_injective sevens) hx.begins hundo
  exact ⟨x.start, _, p, slot, i, hx.begins, hundo, hp, hslot, hle, hentry⟩

/-- Before it lands the process ends, and the next one over the store signs it again. -/
theorem Passed.Went.resigns {x : Passed} (h : x.Went) (deep : Prop) : ∃ c signed,
    Chain.Run [] lastTag (.master sevens) deep x.start c ∧ c.shipped = [signed, signed] ∧
      tagOf signed.tx.srcAddr = lastTag := by
  obtain ⟨signed, s, hsigned, -, hreserve, hsrc, -, htag⟩ := h.reserves deep
  obtain ⟨p, slot, key, change, hm, hreserved⟩ := reserved_of_signed hsigned
  obtain ⟨r, hbegins, -⟩ := h.begins.tracks
  obtain ⟨_, -, hreached⟩ :=
    hreserve.tracks Crypto.numbering_lawful (derivedAddressAt_injective sevens) hbegins
  let c₁ := x.start.after (.ok (.signed signed)) s
  have hstate : c₁.world.state [] = some p := (hreached.sound _ p rfl hm).2
  obtain ⟨ks, m, hopen, hks⟩ := reopens_of_reading (m := ⟨c₁.world.disk, [], []⟩) hstate (.zero nonceSeedLen)
  let closed : World := { c₁.world with handle := none }
  let reopened : World := { closed with disk := m.disk, handle := some ks }
  have hclose : Chain.Step [] lastTag (.master sevens) deep c₁ { c₁ with world := closed } :=
    .elsewhere (e := .close) trivial .close
  have hopened : Chain.Step [] lastTag (.master sevens) deep { c₁ with world := closed }
      { c₁ with world := reopened } :=
    .elsewhere (e := .open') trivial (.open' (w := closed) rfl (.inl rfl) hopen)
  let before : Session UnixMedium :=
    ⟨⟨ks, ⟨reopened.disk, [], []⟩⟩, answering [.ok ⟨x.plan.srcAddr, x.plan.balance⟩]⟩
  let after : Session UnixMedium := { before with node := { before.node with
    entries := [], heard := [(x.plan.tag, ⟨x.plan.srcAddr, x.plan.balance⟩)] } }
  have hagain : resignPending ⟨[], []⟩ x.plan.tag (.master sevens) x.plan.dsts x.plan.feeTotal
      x.plan.blkToLive before = (.ok signed, after) :=
    hreserved.resigns .refl hks ⟨slot, _, hreserved.hslot, hreserved.hpending, rfl⟩ rfl (.refl _) rfl
  have hcall : Method.call ⟨[], []⟩ (.resignPending x.plan.tag (.master sevens) x.plan.dsts
      x.plan.feeTotal x.plan.blkToLive) before = (.ok (.signed signed), after) :=
    Call.map_apply (f := Answer.signed) hagain
  obtain ⟨-, -, hplansrc, -, -, -, hbalance, -⟩ :=
    PlanFields.build_eq_ok (SpendPlan.new_eq_ok.mp h.hplan)
  have hresign : Chain.Step [] lastTag (.master sevens) deep { c₁ with world := reopened }
      (Chain.after { c₁ with world := reopened } (.ok (.signed signed)) after) := by
    refine .turn rfl (fun a ha => ?_) hcall fun entry hmem => ?_
    · rw [← (Prod.mk.inj (Option.some.inj ha)).2]
      exact KeyAccess.told_self _
    · rw [(Prod.mk.inj (List.mem_singleton.mp hmem)).2, hplansrc, hbalance]
      rfl
  exact ⟨_, signed, .tail (.tail (.tail (.single hreserve) hclose) hopened) hresign, rfl, hsrc ▸ htag⟩

/-- What is signed and what the next process signs again are one transfer. -/
theorem one_transfer_each_passed : ∃ (c c' : Chain) (signed signed' : SignedTransaction),
    c.Begins [] lastTag (.master sevens) (derivedAddressAt sevens 0xffffffff) ∧
      Chain.Run [] lastTag (.master sevens) True c c' ∧ c'.shipped = [signed', signed] ∧
      tagOf signed.tx.srcAddr = lastTag ∧ signed'.tx.toTransfer = signed.tx.toTransfer := by
  obtain ⟨x, hx⟩ := passed_went
  obtain ⟨c, signed, hrun, hshipped, htag⟩ := hx.resigns True
  have hmem : signed ∈ c.shipped := hshipped ▸ List.mem_cons_self
  exact ⟨x.start, c, signed, signed, hx.begins, hrun, hshipped, htag,
    one_transfer_each Crypto.numbering_lawful (derivedAddressAt_injective sevens) hx.begins hrun hmem hmem
      htag rfl fun _ => rfl⟩

/-- After the spend the account is found from the master. -/
theorem restores_in_step_passed : ∃ (c : Chain) (position : WotsIndex) (n : Node),
    c.shipped ≠ [] ∧ restoreAccountIndexWith sevens 0xffffffff .restore .never
      (answering [.ok c.entry]) = (.ok ⟨lastTag, position, c.entry.address, c.entry.balance⟩, n) := by
  obtain ⟨x, hx⟩ := passed_went
  obtain ⟨c, signed, hrun, hshipped, -, -, hks⟩ := hx.runs False
  obtain ⟨p, slot, hp, hslot, hrestores⟩ :=
    restores_in_step Crypto.numbering_lawful (derivedAddressAt_injective sevens) hx.begins hrun
  obtain ⟨q, hm, hlast⟩ := Option.bind_eq_some_iff.mp hx.hlast
  obtain ⟨r, hbegins, -⟩ := hx.begins.tracks
  obtain ⟨_, -, hend⟩ :=
    hrun.tracks Crypto.numbering_lawful (derivedAddressAt_injective sevens) hbegins
  cases hp.symm.trans (hend.sound _ q hks hm).2
  have hslot : p.slots.get? lastTag = some slot := hslot
  rw [hslot] at hlast
  have hindex : slot.account.wotsIndex.pos = 1 := Option.some.inj hlast
  obtain ⟨position, n, hrestored, -⟩ := hrestores .restore (answering [.ok c.entry]) []
    (by rw [hindex]; decide) rfl
  exact ⟨c, position, n, by rw [hshipped]; simp, hrestored⟩

/-- The spend is signed again, lands and is settled. -/
theorem reservation_finishes_passed : ∃ (c c' : Chain) (signed : SignedTransaction) (slot slot' : Slot),
    Chain.Run [] lastTag (.master sevens) False c c' ∧ signed ∈ c'.shipped ∧ slot.pending ≠ none ∧
      slot'.pending = none ∧ slot'.account.wotsIndex = slot.account.wotsIndex ∧
      c'.entry.balance = 400 := by
  obtain ⟨x, hx⟩ := passed_went
  obtain ⟨signed, s, hsigned, hstore, hreserve, -⟩ := hx.reserves False
  obtain ⟨p, slot, key, change, hm, hreserved⟩ := reserved_of_signed hsigned
  have hslot : p.slots.get? lastTag = some slot := hx.htag ▸ hreserved.hslot
  obtain ⟨r, hbegins, -⟩ := hx.begins.tracks
  obtain ⟨_, -, hopened⟩ :=
    hreserve.tracks Crypto.numbering_lawful (derivedAddressAt_injective sevens) hbegins
  -- The plan's addresses are those of the reserved position and of the one after it.
  have hat {i : WotsIndex} {key : WotsKey} (hkey : keyAt p.slots slot i (.master sevens) = .ok key) :
      derivedAddressAt sevens 0xffffffff i = key.address lastTag :=
    Except.ok.inj ((hopened.addressAt rfl hm i).symm.trans
      ((addressAt_eq_ok hm).mpr ⟨slot, key, hslot, hkey, rfl⟩))
  have hsource := (hat hreserved.hsource).trans (hx.htag ▸ hreserved.hsource_address)
  have hchange := (hat hreserved.hchange).trans (hx.htag ▸ hreserved.hchange_address)
  obtain ⟨-, hposition, hsrc, hchg, -⟩ := PlanFields.build_eq_ok (SpendPlan.new_eq_ok.mp hx.hplan)
  have hplan : SpendPlan.new ⟨lastTag, x.plan.position, derivedAddressAt sevens 0xffffffff x.plan.position,
      derivedAddressAt sevens 0xffffffff slot.account.wotsIndex⟩ ⟨x.addresses.source, 1000⟩ [paid] 500 0 =
      .ok x.plan := by
    obtain ⟨_, _, _, _, -, -, -, -, -, haddresses⟩ := (spendAddresses_eq_ok hx.hm).mp hx.haddresses
    have htag : x.addresses.tag = lastTag := by rw [haddresses]
    rw [hsource, hchange, hposition, hsrc, hchg, ← htag]
    exact hx.hplan
  have hpart : Partition.divergenceFor ⟨[], []⟩ lastTag = none := rfl
  have hwrite := hx.hwrite
  rw [← hstore] at hwrite
  obtain ⟨c', signed', q, slot', hrun, hmem, -, -, -, hfree, hindex, hentry⟩ :=
    reservation_finishes Crypto.numbering_lawful (derivedAddressAt_injective sevens) hx.begins
      (.single hreserve) rfl hm hslot hreserved.hpending hpart hplan rfl hwrite 400
  exact ⟨_, c', signed', slot, slot', hrun, hmem, by rw [hreserved.hpending]; simp, hfree, hindex,
    by rw [hentry]⟩

end

end MochimoWallet.Wallet
