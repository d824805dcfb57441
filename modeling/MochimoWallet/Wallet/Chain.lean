import MochimoWallet.Keystore.Addresses
import MochimoWallet.Lib.Ratchet
import MochimoWallet.Recon.Classify
import MochimoWallet.Wallet.Moves

/-!
# The wallet and the ledger

A `Chain` is a wallet's directory and process, the transactions it handed over, and the entry the
ledger has for one of its accounts. A turn of the wallet may be cut short anywhere and its node may
be silent, but of this account it answers what the ledger has. Between turns a transaction that was
handed over lands where it spends the address the ledger names, or is undone again. `Tracks` is the
abstraction to `Ratchet`: the ledger names a key by its address, and the store says by its index
and its reservation which keys are reserved; `Step.tracks` is that a step of the one is a run of the
other.
-/

namespace MochimoWallet.Wallet

open Codec Keystore Session

/-! ## What a turn leaves to the ledger -/

section
variable [Crypto]

structure Chain where
  world : World
  /-- The transactions the wallet handed over, the newest first. -/
  shipped : List SignedTransaction
  /-- What the ledger has for the account. -/
  entry : LedgerEntry

/-- The account a method is about, and the access it was called with. -/
def Method.asks : Method → Option (Tag × KeyAccess)
  | .plan tag access _ _ _ | .settleIfLanded tag access | .resignPending tag access _ _ _
  | .status tag access _ _ | .advanceAfterOperatorReview tag access _ _ _ => some (tag, access)
  | .reserveAndSign spend access => some (spend.tag, access)
  | .submit _ => none

/-- The transaction a reply hands over. -/
def handed : Reply Error Answer → List SignedTransaction
  | .ok (.signed tx) => [tx]
  | _ => []

/-- Steps of the directory that are not of this account: what another account's turns write, the
end of a process and the next opening, and a power cut with nothing to lose. -/
def Elsewhere (password : Bytes) (tag : Tag) (w : World) : Event → Prop
  | .create | .open' | .close => True
  | .write op => op.tag? ≠ some tag
  | .powerCut => w.flushed password = w.state password
  | .spend _ | .resign .. => False

namespace Chain

/-- What a turn leaves: the directory, the handle if the process lives, and what it handed over. -/
def after (c : Chain) (reply : Reply Error Answer) (s : Session UnixMedium) : Chain :=
  { c with
    world := { c.world with disk := s.store.medium.disk, handle := survivor reply s.store.ks }
    shipped := handed reply ++ c.shipped }

/-- The account's reservation is open at the position the transaction spends. -/
def Outstanding (password : Bytes) (tag : Tag) (access : KeyAccess) (c : Chain)
    (signed : SignedTransaction) : Prop :=
  ∃ p slot pending key, c.world.state password = some p ∧ p.slots.get? tag = some slot ∧
    slot.pending = some pending ∧ keyAt p.slots slot pending.spentIndex access = .ok key ∧
    key.address tag = signed.tx.srcAddr

/-- One step; `deep` is whether the ledger may take back a spend the wallet has settled. -/
inductive Step (password : Bytes) (tag : Tag) (access : KeyAccess) (deep : Prop) :
    Chain → Chain → Prop where
  | turn {c : Chain} {ks : Keystore} {part : Partition} {method : Method} {fates : List Fate}
      {calls : List MediumCall} {node : Node} {reply : Reply Error Answer} {s : Session UnixMedium}
      (hks : c.world.handle = some ks)
      (htold : ∀ a, method.asks = some (tag, a) → access.Told a)
      (hcall : method.call part ⟨⟨ks, ⟨c.world.disk, fates, calls⟩⟩, node⟩ = (reply, s))
      (honest : ∀ entry, (tag, entry) ∈ s.node.heard → entry = c.entry) :
      Step password tag access deep c (c.after reply s)
  | elsewhere {c : Chain} {e : Event} {w : World} (hok : Elsewhere password tag c.world e)
      (hstep : c.world.Step password e w) : Step password tag access deep c { c with world := w }
  | paid {c : Chain} (balance : UInt64) :
      Step password tag access deep c { c with entry := { c.entry with balance } }
  | land {c : Chain} {signed : SignedTransaction} (balance : UInt64) (hmem : signed ∈ c.shipped)
      (hsrc : signed.tx.srcAddr = c.entry.address) :
      Step password tag access deep c { c with entry := ⟨signed.tx.chgAddr, balance⟩ }
  | undo {c : Chain} {signed : SignedTransaction} (balance : UInt64) (hmem : signed ∈ c.shipped)
      (hchg : signed.tx.chgAddr = c.entry.address)
      (htag : tagOf signed.tx.srcAddr = tagOf c.entry.address)
      (hback : deep ∨ Outstanding password tag access c signed) :
      Step password tag access deep c { c with entry := ⟨signed.tx.srcAddr, balance⟩ }

def Run (password : Bytes) (tag : Tag) (access : KeyAccess) (deep : Prop) : Chain → Chain → Prop :=
  Relation.ReflTransGen (Step password tag access deep)

end Chain

/-! ## The abstraction -/

/-- What the store says of the account: its keys, the first of them that was never reserved, and the
one that is reserved. -/
structure Standing (tag : Tag) (access : KeyAccess) (at' : WotsIndex → Address) (p : Parsed)
    (slot : Slot) (r : Ratchet.State Digest) : Prop where
  hslot : p.slots.get? tag = some slot
  keys : ∀ i, ∃ key, keyAt p.slots slot i access = .ok key ∧ key.address tag = at' i
  next : slot.account.wotsIndex.pos = r.next
  reserved : slot.pending.map (fun b => (b.spentIndex.pos, b.digest)) = r.reserved

/-- The transaction goes from a key that has signed it to the one after it. -/
def Passes (at' : WotsIndex → Address) (r : Ratchet.State Digest) (signed : SignedTransaction) : Prop :=
  ∃ i j, (i.pos, Transaction.messageDigest signed.tx.toTransfer) ∈ r.signed ∧ j.pos = i.pos + 1 ∧
    at' i = signed.tx.srcAddr ∧ at' j = signed.tx.chgAddr

structure Tracks (password : Bytes) (tag : Tag) (access : KeyAccess) (at' : WotsIndex → Address)
    (c : Chain) (r : Ratchet.State Digest) : Prop where
  sound : c.world.Sound password
  stands : ∃ p slot, c.world.state password = some p ∧ Standing tag access at' p slot r
  held : ∃ i, i.pos = r.held ∧ at' i = c.entry.address
  shipped : ∀ signed ∈ c.shipped, tagOf signed.tx.srcAddr = tag → Passes at' r signed
  sane : Ratchet.Sane r

variable {password : Bytes} {tag : Tag} {access : KeyAccess} {at' : WotsIndex → Address}
  {c : Chain} {r r' : Ratchet.State Digest} {p q : Parsed} {slot slot' : Slot} {deep : Prop}

namespace Standing

theorem tag_at (h : Standing tag access at' p slot r) (i : WotsIndex) : tagOf (at' i) = tag := by
  obtain ⟨key, -, haddress⟩ := h.keys i
  rw [← haddress]
  exact key.tagOf_address tag

/-- Whatever access of the account's gives a key, it has the position's address. -/
theorem at_of_keyAt (h : Standing tag access at' p slot r) {a : KeyAccess} (htold : access.Told a)
    {i : WotsIndex} {key : WotsKey} (hkey : keyAt p.slots slot i a = .ok key) :
    key.address tag = at' i := by
  obtain ⟨key', hkey', haddress⟩ := h.keys i
  rw [keyAt_unique rfl rfl htold hkey' hkey, haddress]

/-- The keys stay what they are. -/
theorem later (h : Standing tag access at' p slot r) (hlater : p.Later q)
    (hslot : q.slots.get? tag = some slot') (hkey : slot'.account.key = slot.account.key)
    (htag : slot'.account.tag = slot.account.tag) (hnext : slot'.account.wotsIndex.pos = r'.next)
    (hreserved : slot'.pending.map (fun b => (b.spentIndex.pos, b.digest)) = r'.reserved) :
    Standing tag access at' q slot' r' where
  hslot := hslot
  keys i := by
    obtain ⟨key, hat, haddress⟩ := h.keys i
    exact ⟨key, keyAt_later hlater slot' h.hslot hkey htag hat, haddress⟩
  next := hnext
  reserved := hreserved

theorem of_eq (h : Standing tag access at' p slot r) (hnext : r'.next = r.next)
    (hreserved : r'.reserved = r.reserved) : Standing tag access at' p slot r' :=
  ⟨h.hslot, h.keys, h.next.trans hnext.symm, h.reserved.trans hreserved.symm⟩

end Standing

theorem Passes.mono {signed : SignedTransaction} (h : Passes at' r signed)
    (hsigned : ∀ i ∈ r.signed, i ∈ r'.signed) : Passes at' r' signed := by
  obtain ⟨i, j, hi, hj, hsrc, hchg⟩ := h
  exact ⟨i, j, hsigned _ hi, hj, hsrc, hchg⟩

/-! ## Steps that are not of the account -/

namespace Tracks

/-- What is kept when the store's account and the ledger's address are. -/
theorem kept {c' : Chain} (h : Tracks password tag access at' c r) (hsound : c'.world.Sound password)
    (hstate : c'.world.state password = c.world.state password ∨ ∃ op p p', op.tag? ≠ some tag ∧
      c.world.state password = some p ∧ p.next op = .ok p' ∧ c'.world.state password = some p')
    (hshipped : ∀ signed ∈ c'.shipped, tagOf signed.tx.srcAddr = tag → Passes at' r signed)
    (haddress : c'.entry.address = c.entry.address) : Tracks password tag access at' c' r := by
  refine ⟨hsound, ?_, haddress ▸ h.held, hshipped, h.sane⟩
  obtain ⟨p, slot, hp, hstanding⟩ := h.stands
  rcases hstate with hsame | ⟨op, q, q', hop, hq, hnext, hq'⟩
  · exact ⟨p, slot, hsame.trans hp, hstanding⟩
  · cases hq.symm.trans hp
    have hslot := ((Parsed.step_of_next hnext).1.frame hop).trans hstanding.hslot
    exact ⟨q', slot, hq', hstanding.later (.single ⟨op, hnext⟩) hslot rfl rfl hstanding.next
      hstanding.reserved⟩

theorem elsewhere (hl : Crypto.Lawful) {e : Event} {w : World}
    (h : Tracks password tag access at' c r) (hok : Elsewhere password tag c.world e)
    (hstep : c.world.Step password e w) : Tracks password tag access at' { c with world := w } r := by
  refine h.kept (hstep.sound hl h.sound) ?_ h.shipped rfl
  obtain ⟨p, slot, hp, -⟩ := h.stands
  by_cases he : e = .powerCut
  · subst he
    have hflushed : c.world.flushed password = c.world.state password := hok
    cases hstep with
    | powerCut hentry =>
      rcases hentry with rfl | rfl
      · exact .inl rfl
      · exact .inl hflushed
  have hchange : World.Change e (some p) (w.state password) := hp ▸ (hstep.refines hl h.sound he).change
  rcases hx : w.state password with _ | q <;> rw [hx] at hchange
  · cases hchange
  cases hchange with
  | same => exact .inl hp.symm
  | wrote he hnext =>
    subst he
    exact .inr ⟨_, p, q, hok, hp, hnext, rfl⟩

end Tracks

/-! ## Turns -/

section
variable {ks : Keystore} {part : Partition} {fates : List Fate} {calls : List MediumCall} {node : Node}
  {reply : Reply Error Answer} {s : Session UnixMedium}

/-- What a call of a writer leaves of the directory. -/
theorem after_call (hl : Crypto.Lawful) (hsound : c.world.Sound password)
    (hks : c.world.handle = some ks) {op : Op} {written : Reply Error (Option AdvanceReceipt)}
    (hcall : op.call ⟨ks, ⟨c.world.disk, fates, calls⟩⟩ = (written, s.store))
    (hend : survivor reply s.store.ks = survivor written s.store.ks) :
    (c.after reply s).world.Sound password ∧
      ((c.after reply s).world.state password = c.world.state password ∨
        ∃ p p', c.world.state password = some p ∧ p.next op = .ok p' ∧
          (c.after reply s).world.state password = some p') := by
  have href := World.refined_write hl hsound hks hcall
  constructor
  · intro k q hk hq
    exact href.sound k q (hend ▸ hk) hq
  · have hchange : World.Change (.write op) (c.world.state password)
        ((c.after reply s).world.state password) := href.change
    rcases hp : c.world.state password with _ | p <;>
      rcases hq : (c.after reply s).world.state password with _ | q <;> rw [hp, hq] at hchange
    · exact .inl rfl
    · cases hchange with
      | created he => cases he
    · cases hchange
    · cases hchange with
      | same => exact .inl rfl
      | wrote he hnext =>
        cases he
        exact .inr ⟨p, q, rfl, hnext, rfl⟩

namespace Tracks

/-- A turn that left the store. -/
theorem quiet (h : Tracks password tag access at' c r) (hks : c.world.handle = some ks)
    (hstore : s.store = ⟨ks, ⟨c.world.disk, fates, calls⟩⟩)
    (hhanded : ∀ signed ∈ handed reply, tagOf signed.tx.srcAddr = tag → Passes at' r signed) :
    Tracks password tag access at' (c.after reply s) r := by
  have hdisk : (c.after reply s).world.disk = c.world.disk := by
    show s.store.medium.disk = _
    rw [hstore]
  have hstate : (c.after reply s).world.state password = c.world.state password := by
    rw [World.state, hdisk]
    rfl
  refine h.kept (fun k p hk hp => ?_) (.inl hstate) (fun signed hmem htag => ?_) rfl
  · have hk : survivor reply s.store.ks = some k := hk
    rw [hstore] at hk
    rw [hstate]
    cases reply <;> cases hk <;> exact h.sound ks p hks hp
  · rcases List.mem_append.mp hmem with hmem | hmem
    · exact hhanded signed hmem htag
    · exact h.shipped signed hmem htag

/-- A turn that called the writer for another account. -/
theorem other (hl : Crypto.Lawful) (h : Tracks password tag access at' c r)
    (hks : c.world.handle = some ks) {op : Op} {written : Reply Error (Option AdvanceReceipt)}
    (hcall : op.call ⟨ks, ⟨c.world.disk, fates, calls⟩⟩ = (written, s.store))
    (hend : survivor reply s.store.ks = survivor written s.store.ks) (hop : op.tag? ≠ some tag)
    (hhanded : ∀ signed ∈ handed reply, tagOf signed.tx.srcAddr ≠ tag) :
    Tracks password tag access at' (c.after reply s) r := by
  obtain ⟨hsound, hstate⟩ := after_call hl h.sound hks hcall hend
  refine h.kept hsound ?_ (fun signed hmem htag => ?_) rfl
  · exact hstate.imp id fun ⟨p, p', hp, hnext, hp'⟩ => ⟨op, p, p', hop, hp, hnext, hp'⟩
  · rcases List.mem_append.mp hmem with hmem | hmem
    · exact absurd htag (hhanded signed hmem)
    · exact h.shipped signed hmem htag

end Tracks

/-- What a reservation hands over is its plan, signed, and its write returned. -/
theorem handed_reserved {plan : SpendPlan} {a : KeyAccess} {written : Reply Error AdvanceReceipt}
    {signed : SignedTransaction}
    (h : signed ∈ handed ((Wallet.signed plan a ks written).map .signed)) :
    (∃ receipt, written = .ok receipt) ∧ ∃ sig, SignedTransaction.attach plan sig = .ok signed := by
  rcases written with receipt | e | _
  · refine ⟨⟨receipt, rfl⟩, ?_⟩
    rw [Wallet.signed] at h
    rcases hsign : ks.signSpend plan.digest receipt a with e | sig <;> rw [hsign] at h
    · cases h
    · rw [ok_bind] at h
      rcases hattach : SignedTransaction.attach plan sig with e | tx <;> rw [hattach] at h
      · cases h
      · rw [List.mem_singleton.mp h]
        exact ⟨sig, hattach⟩
  · cases h
  · cases h

/-- Only a signed transaction is handed over. -/
theorem handed_map {α : Type} {f : α → Answer} (hf : ∀ a tx, f a ≠ .signed tx) (x : Reply Error α) :
    handed (x.map f) = [] := by
  rcases x with a | e | _
  · rw [Reply.map]
    rcases hfa : f a with _ | tx | _ | _ | _ | _ <;> try rfl
    exact absurd hfa (hf a tx)
  · rfl
  · rfl

theorem survivor_map {α β : Type} (f : α → β) (x : Reply Error α) (k : Keystore) :
    survivor (x.map f) k = survivor x k := by
  cases x <;> rfl

theorem survivor_signed {plan : SpendPlan} {a : KeyAccess} {written : Reply Error AdvanceReceipt}
    (ks k : Keystore) : survivor ((Wallet.signed plan a ks written).map Answer.signed) k =
      survivor (written.map some) k := by
  rw [survivor_map, survivor_map]
  rcases written with receipt | e | _
  · rw [Wallet.signed]
    generalize (do
      let signature ← ks.signSpend plan.digest receipt a
      SignedTransaction.attach plan signature) = x
    cases x <;> rfl
  · rfl
  · rfl

/-- The signed transaction is the plan's. -/
theorem of_attached {plan : SpendPlan} {sig : SpendSignature} {signed : SignedTransaction}
    (h : SignedTransaction.attach plan sig = .ok signed) :
    signed.tx.srcAddr = plan.srcAddr ∧ signed.tx.chgAddr = plan.chgAddr ∧
      Transaction.messageDigest signed.tx.toTransfer = plan.digest := by
  have htransfer := (SignedTransaction.attach_transfer h).1
  exact ⟨congrArg (·.srcAddr) htransfer, congrArg (·.chgAddr) htransfer,
    htransfer ▸ plan.digest_eq.symm⟩

/-- Before it signs, a reservation hears what the plan was made against. -/
theorem heard_of_signed {D : Type} [Layout D] {part : Partition} {plan : SpendPlan} {a : KeyAccess}
    {signed : SignedTransaction} {addresses : SpendAddresses} {s₀ s : Session D}
    (h : reserveAndSign part plan a s₀ = (.ok signed, s))
    (haddresses : s₀.store.ks.spendAddresses plan.tag a = .ok addresses) :
    s.node.heard = (plan.tag, ⟨addresses.source, plan.balance⟩) :: s₀.node.heard := by
  have hend := reserveAndSign_cases h
  generalize hr : (Reply.ok signed : Reply Error SignedTransaction) = r at hend
  cases hend with
  | refused => cases hr
  | called hpart haddresses' hplan hentry hheard hwrite =>
    cases haddresses'.symm.trans haddresses
    obtain ⟨haddress, hbalance⟩ := checkEntry_eq_ok.mp hentry
    rw [hheard, ← haddress, ← hbalance]

/-- What is signed again is of the account that was asked about. -/
theorem resignPending_tag {t : Tag} {a : KeyAccess} {dsts : List Destination}
    {feeTotal blkToLive : UInt64} {signed : SignedTransaction} {s₀ : Session UnixMedium}
    (hm : s₀.store.ks.memory = some p)
    (h : resignPending part t a dsts feeTotal blkToLive s₀ = (.ok signed, s)) :
    tagOf signed.tx.srcAddr = t := by
  obtain ⟨slot, pending, addresses, entry, plan, key, -, -, haddresses, hplan, -, -, hattach⟩ :=
    resignPending_went hm h
  obtain ⟨source, hsource, haddresses⟩ := bind_eq_ok.mp haddresses
  obtain ⟨change, -, haddresses⟩ := bind_eq_ok.mp haddresses
  cases haddresses
  obtain ⟨-, key', -, -, rfl⟩ := (addressAt_eq_ok hm).mp hsource
  rw [(of_attached hattach).1, (PlanFields.build_eq_ok (SpendPlan.new_eq_ok.mp hplan)).2.2.1]
  exact key'.tagOf_address t

/-- The account as a reservation leaves it. -/
theorem Standing.reserves (h : Standing tag access at' p slot r) {digest : Digest} {figures : Figures}
    (hnext : p.next (.persistAdvance tag digest figures) = .ok q) (held : ℕ)
    (signed : List (ℕ × Digest)) :
    ∃ slot', Standing tag access at' q slot' ⟨r.next + 1, some (r.next, digest), held, signed⟩ := by
  obtain ⟨index, hindex, -, hslot⟩ := reserved_slot h.hslot hnext
  refine ⟨_, h.later (.single ⟨_, hnext⟩) hslot rfl rfl ?_ ?_⟩
  · rw [← h.next]
    exact hindex
  · rw [← h.next]
    rfl

/-- The account as a settlement leaves it. -/
theorem Standing.settles (h : Standing tag access at' p slot r)
    (hnext : p.next (.persistSettled tag) = .ok q) :
    ∃ slot', Standing tag access at' q slot' { r with reserved := none } := by
  have hstep := (Parsed.step_of_next hnext).1
  cases hstep with
  | persistSettled ht hopen hslots hmaster =>
    cases ht.symm.trans h.hslot
    have hslot := (congrArg (·.get? tag) hslots).trans (Parsed.get?_write h.hslot ..)
    exact ⟨_, h.later (.single ⟨_, hnext⟩) hslot rfl rfl h.next rfl⟩

namespace Tracks

theorem tag_entry (h : Tracks password tag access at' c r) : tagOf c.entry.address = tag := by
  obtain ⟨p, slot, -, hstanding⟩ := h.stands
  obtain ⟨i, -, hi⟩ := h.held
  rw [← hi]
  exact hstanding.tag_at i

/-- The ledger's address is at one position only. -/
theorem held_eq (hinj : Function.Injective at') (h : Tracks password tag access at' c r)
    {i : WotsIndex} (hi : at' i = c.entry.address) : r.held = i.pos := by
  obtain ⟨j, hj, haddress⟩ := h.held
  rw [← hj, hinj (haddress.trans hi.symm)]

/-- A reservation that reached its write: reserved and perhaps signed, or nothing. -/
theorem reserves (hl : Crypto.Lawful) (hinj : Function.Injective at')
    (h : Tracks password tag access at' c r) (hks : c.world.handle = some ks) {plan : SpendPlan}
    {a : KeyAccess} (htag : plan.tag = tag) (htold : access.Told a) {addresses : SpendAddresses}
    {written : Reply Error AdvanceReceipt}
    (haddresses : ks.spendAddresses plan.tag a = .ok addresses) (hplan : checkPlan plan addresses = .ok ())
    (hentry : c.entry.address = addresses.source)
    (hcall : persistAdvance plan.tag plan.digest plan.figures ⟨ks, ⟨c.world.disk, fates, calls⟩⟩ =
      (written, s.store))
    (hreply : reply = (Wallet.signed plan a s.store.ks written).map .signed) :
    ∃ r', Ratchet.Run deep r r' ∧ Tracks password tag access at' (c.after reply s) r' := by
  subst htag
  have hop : Op.call (.persistAdvance plan.tag plan.digest plan.figures)
      ⟨ks, ⟨c.world.disk, fates, calls⟩⟩ = (written.map some, s.store) :=
    Call.map_apply (f := some) hcall
  have hend : survivor reply s.store.ks = survivor (written.map some) s.store.ks :=
    hreply ▸ survivor_signed ..
  obtain ⟨hsound, hstate⟩ := after_call hl h.sound hks hop hend
  obtain ⟨p, slot, hp, hstanding⟩ := h.stands
  obtain ⟨q, hm⟩ := live_of_spendAddresses haddresses
  cases hp.symm.trans (h.sound ks q hks hm).2
  obtain ⟨t, next, source, change, ht, hopen, hnext, hsource, hchange, rfl⟩ :=
    (spendAddresses_eq_ok hm).mp haddresses
  cases ht.symm.trans hstanding.hslot
  obtain ⟨-, hsrc, hchg⟩ := checkPlan_eq_ok.mp hplan
  have hsource := hstanding.at_of_keyAt htold hsource
  have hchange := hstanding.at_of_keyAt htold hchange
  have hheld : r.held = r.next := by
    rw [h.held_eq hinj (hsource.symm.trans hentry.symm), hstanding.next]
  have hfree : r.reserved = none := by rw [← hstanding.reserved, hopen]; rfl
  rcases hstate with hsame | ⟨p0, p', hp0, hstep, hp'⟩
  -- The write did not reach the entry, so it did not return and nothing was signed.
  · refine ⟨r, .refl, h.kept hsound (.inl hsame) (fun signed hmem htag => ?_) rfl⟩
    rcases List.mem_append.mp hmem with hmem | hmem
    · rw [hreply] at hmem
      obtain ⟨⟨receipt, rfl⟩, -⟩ := handed_reserved hmem
      obtain ⟨q', slot', key, change', signed', hm', hreserved, -⟩ :=
        reserved_of_committed (s := (⟨⟨ks, ⟨c.world.disk, fates, calls⟩⟩, s.node⟩ : Session UnixMedium))
          haddresses hplan hcall
      have hq' := (hsound s.store.ks q' (by rw [hreply, Chain.after, survivor_signed]; rfl) hm').2
      cases hq'.symm.trans (hsame.trans hp)
      cases hreserved.hslot.symm.trans hstanding.hslot
      cases hreserved.hpending.symm.trans hopen
    · exact h.shipped signed hmem htag
  · cases hp0.symm.trans hp
    obtain ⟨slot', hstanding'⟩ := hstanding.reserves hstep r.held ((r.next, plan.digest) :: r.signed)
    have hrun : Ratchet.Run deep r
        ⟨r.next + 1, some (r.next, plan.digest), r.held, (r.next, plan.digest) :: r.signed⟩ :=
      .tail (.single (.reserve plan.digest hfree hheld)) (.sign rfl)
    refine ⟨_, hrun, hsound, ⟨p', slot', hp', hstanding'⟩, h.held, fun signed hmem htag => ?_,
      h.sane.run hrun⟩
    rcases List.mem_append.mp hmem with hmem | hmem
    · rw [hreply] at hmem
      obtain ⟨-, sig, hattach⟩ := handed_reserved hmem
      obtain ⟨hsrc', hchg', hdigest⟩ := of_attached hattach
      refine ⟨slot.account.wotsIndex, next, ?_, WotsIndex.advanced_eq_ok.mp hnext, ?_, ?_⟩
      · rw [hstanding.next, hdigest]
        exact List.mem_cons_self
      · rw [hsrc', ← hsrc, ← hsource]
      · rw [hchg', ← hchg, ← hchange]
    · exact (h.shipped signed hmem htag).mono fun i hi => List.mem_cons_of_mem _ hi

/-- A settlement that reached its write: settled, or nothing. -/
theorem settles (hl : Crypto.Lawful) (hinj : Function.Injective at')
    (h : Tracks password tag access at' c r) (hks : c.world.handle = some ks) {a : KeyAccess}
    (htold : access.Told a) {slot : Slot} {pending : Pending} {written : Reply Error Unit}
    (hm : ks.memory = some p) (hslot : p.slots.get? tag = some slot)
    (hopen : slot.pending = some pending)
    (haddress : ks.addressAt tag slot.account.wotsIndex a = .ok c.entry.address)
    (hcall : persistSettled tag ⟨ks, ⟨c.world.disk, fates, calls⟩⟩ = (written, s.store))
    (hreply : reply = written.map fun _ =>
      .settlement (.settled pending.spentIndex slot.account.wotsIndex)) :
    ∃ r', Ratchet.Run deep r r' ∧ Tracks password tag access at' (c.after reply s) r' := by
  have hop : Op.call (.persistSettled tag) ⟨ks, ⟨c.world.disk, fates, calls⟩⟩ =
      (written.map fun _ => none, s.store) := Call.map_apply (f := fun _ => none) hcall
  have hend : survivor reply s.store.ks =
      survivor (written.map fun _ => (none : Option AdvanceReceipt)) s.store.ks := by
    rw [hreply, survivor_map, survivor_map]
  have hhanded : handed reply = [] := by
    rw [hreply]
    cases written <;> rfl
  have hshipped : ∀ signed ∈ (c.after reply s).shipped, tagOf signed.tx.srcAddr = tag →
      Passes at' r signed := by
    show ∀ signed ∈ handed reply ++ c.shipped, _
    rw [hhanded]
    exact h.shipped
  obtain ⟨hsound, hstate⟩ := after_call hl h.sound hks hop hend
  obtain ⟨p, slot, hp, hstanding⟩ := h.stands
  cases hp.symm.trans (h.sound ks _ hks hm).2
  cases hslot.symm.trans hstanding.hslot
  obtain ⟨t, key, ht, hkey, haddress⟩ := (addressAt_eq_ok hm).mp haddress
  cases ht.symm.trans hslot
  have hheld : r.held = r.next := by
    rw [h.held_eq hinj ((hstanding.at_of_keyAt htold hkey).symm.trans haddress.symm), hstanding.next]
  rcases hstate with hsame | ⟨p0, p', hp0, hstep, hp'⟩
  · exact ⟨r, .refl, h.kept hsound (.inl hsame) hshipped rfl⟩
  · cases hp0.symm.trans hp
    obtain ⟨slot', hstanding'⟩ := hstanding.settles hstep
    have hreserved : r.reserved = some (pending.spentIndex.pos, pending.digest) := by
      rw [← hstanding.reserved, hopen]
      rfl
    have hrun : Ratchet.Run deep r { r with reserved := none } := .single (.settle hreserved hheld)
    exact ⟨_, hrun, hsound, ⟨p', slot', hp', hstanding'⟩, h.held, hshipped, h.sane.run hrun⟩

/-- A reservation signed again. -/
theorem resigns (h : Tracks password tag access at' c r) (hks : c.world.handle = some ks)
    {a : KeyAccess} (htold : access.Told a) {dsts : List Destination} {feeTotal blkToLive : UInt64}
    {signed : SignedTransaction} (hm : ks.memory = some p)
    (hcall : resignPending part tag a dsts feeTotal blkToLive
      (⟨⟨ks, ⟨c.world.disk, fates, calls⟩⟩, node⟩ : Session UnixMedium) = (.ok signed, s)) :
    ∃ r', Ratchet.Run deep r r' ∧
      Tracks password tag access at' (c.after (.ok (.signed signed)) s) r' := by
  obtain ⟨slot, pending, addresses, entry, plan, key, hslot, hopen, haddresses, hplan, hdigest, hkey,
    hattach⟩ := resignPending_went hm hcall
  obtain ⟨p, t, hp, hstanding⟩ := h.stands
  cases hp.symm.trans (h.sound ks _ hks hm).2
  cases hslot.symm.trans hstanding.hslot
  obtain ⟨source, hsource, haddresses⟩ := bind_eq_ok.mp haddresses
  obtain ⟨change, hchange, haddresses⟩ := bind_eq_ok.mp haddresses
  cases haddresses
  obtain ⟨t, key', ht, hkey', rfl⟩ := (addressAt_eq_ok hm).mp hsource
  cases ht.symm.trans hslot
  obtain ⟨t, key'', ht, hkey'', rfl⟩ := (addressAt_eq_ok hm).mp hchange
  cases ht.symm.trans hslot
  have hbuilt := PlanFields.build_eq_ok (SpendPlan.new_eq_ok.mp hplan)
  obtain ⟨hsrc, hchg, hsigns⟩ := of_attached hattach
  have hreserved : r.reserved = some (pending.spentIndex.pos, pending.digest) := by
    rw [← hstanding.reserved, hopen]
    rfl
  have hrun : Ratchet.Run deep r { r with signed := (pending.spentIndex.pos, pending.digest) :: r.signed } :=
    .single (.sign hreserved)
  have hsigned : Tracks password tag access at' c
      { r with signed := (pending.spentIndex.pos, pending.digest) :: r.signed } :=
    ⟨h.sound, ⟨p, slot, hp, ⟨hslot, hstanding.keys, hstanding.next, hstanding.reserved⟩⟩, h.held,
      fun tx hmem htag => (h.shipped tx hmem htag).mono fun i hi => List.mem_cons_of_mem _ hi,
      h.sane.run hrun⟩
  refine ⟨_, hrun, hsigned.quiet hks (quiet_resignPending.keeps hcall).1 fun tx hmem htag => ?_⟩
  rw [List.mem_singleton.mp hmem]
  refine ⟨pending.spentIndex, slot.account.wotsIndex, ?_, ?_, ?_, ?_⟩
  · rw [hsigns, hdigest]
    exact List.mem_cons_self
  · rw [hstanding.next, h.sane.reserved _ _ hreserved]
  · rw [hsrc, hbuilt.2.2.1, hstanding.at_of_keyAt htold hkey']
  · rw [hchg, hbuilt.2.2.2.1, hstanding.at_of_keyAt htold hkey'']

/-- No position past the stored index has the ledger's address. -/
theorem not_ahead (hinj : Function.Injective at') (h : Tracks password tag access at' c r)
    (hks : c.world.handle = some ks) (hm : ks.memory = some p) {a : KeyAccess}
    (htold : access.Told a) {slot : Slot} (hslot : p.slots.get? tag = some slot) {i : WotsIndex}
    (hi : slot.account.wotsIndex.pos < i.pos) : ks.addressAt tag i a ≠ .ok c.entry.address := by
  intro haddress
  obtain ⟨p, slot, hp, hstanding⟩ := h.stands
  cases hp.symm.trans (h.sound ks _ hks hm).2
  cases hslot.symm.trans hstanding.hslot
  obtain ⟨t, key, ht, hkey, haddress⟩ := (addressAt_eq_ok hm).mp haddress
  cases ht.symm.trans hslot
  have hheld := h.held_eq hinj ((hstanding.at_of_keyAt htold hkey).symm.trans haddress.symm)
  have hle := h.sane.held
  rw [hstanding.next] at hi
  omega

/-- A turn of the wallet is a run of the ratchet. -/
theorem turn {method : Method} (hl : Crypto.Lawful) (hinj : Function.Injective at')
    (h : Tracks password tag access at' c r) (hks : c.world.handle = some ks)
    (htold : ∀ a, method.asks = some (tag, a) → access.Told a)
    (hcall : method.call part ⟨⟨ks, ⟨c.world.disk, fates, calls⟩⟩, node⟩ = (reply, s))
    (honest : ∀ entry, (tag, entry) ∈ s.node.heard → entry = c.entry) :
    ∃ r', Ratchet.Run deep r r' ∧ Tracks password tag access at' (c.after reply s) r' := by
  have hstill (hstore : s.store = ⟨ks, ⟨c.world.disk, fates, calls⟩⟩) (hnone : handed reply = []) :
      ∃ r', Ratchet.Run deep r r' ∧ Tracks password tag access at' (c.after reply s) r' :=
    ⟨r, .refl, h.quiet hks hstore fun signed hmem => by rw [hnone] at hmem; cases hmem⟩
  have hpoisoned (hm : ks.memory = none) : s.store = ⟨ks, ⟨c.world.disk, fates, calls⟩⟩ :=
    turn_poisoned ⟨_, method, reply, s⟩ hm hcall
  rcases method with _ | ⟨spend, a⟩ | _ | ⟨t, a⟩ | ⟨t, a, dsts, feeTotal, blkToLive⟩ | _ |
    ⟨t, a, ack, scope, cancel⟩ <;> rw [Method.call] at hcall <;>
    obtain ⟨reply', hcall, hreply⟩ := map_call hcall
  · exact hstill (quiet_plan.keeps hcall).1 (by rw [hreply]; exact handed_map (by simp) _)
  · cases reserveAndSign_cases hcall with
    | refused hstore => exact hstill hstore (by rw [hreply]; rfl)
    | @called addresses entry written hpart haddresses hplan hentry hheard hwrite =>
      by_cases htag : spend.tag = tag
      · obtain rfl := honest entry (htag ▸ hheard ▸ List.mem_cons_self)
        exact h.reserves hl hinj hks htag (htold a (htag ▸ rfl)) haddresses hplan
          (checkEntry_eq_ok.mp hentry).1 hwrite hreply
      · have hop : Op.call (.persistAdvance spend.tag spend.digest spend.figures)
            ⟨ks, ⟨c.world.disk, fates, calls⟩⟩ = (written.map some, s.store) :=
          Call.map_apply (f := some) hwrite
        refine ⟨r, .refl, h.other hl hks hop (hreply ▸ survivor_signed ..)
          (fun he => htag (Option.some.inj he)) fun signed hmem => ?_⟩
        rw [hreply] at hmem
        obtain ⟨-, sig, hattach⟩ := handed_reserved hmem
        rwa [(of_attached hattach).1]
  · exact hstill (quiet_submit.keeps hcall).1 (by rw [hreply]; exact handed_map (by simp) _)
  · rcases hm : ks.memory with _ | p
    · exact hstill (hpoisoned hm) (by rw [hreply]; exact handed_map (by simp) _)
    cases settleIfLanded_cases hm hcall with
    | still hstore hlive => exact hstill hstore (by rw [hreply]; exact handed_map (by simp) _)
    | @called slot pending entry written hslot hopen hheard haddress hwrite =>
      by_cases htag : t = tag
      · subst htag
        obtain rfl := honest entry (hheard ▸ List.mem_cons_self)
        refine h.settles hl hinj hks (htold a rfl) hm hslot hopen haddress hwrite ?_
        rw [hreply]
        cases written <;> rfl
      · have hop : Op.call (.persistSettled t) ⟨ks, ⟨c.world.disk, fates, calls⟩⟩ =
            (written.map fun _ => none, s.store) := Call.map_apply (f := fun _ => none) hwrite
        refine ⟨r, .refl, h.other hl hks hop ?_ (fun he => htag (Option.some.inj he))
          fun signed hmem => ?_⟩
        · rw [hreply, survivor_map, survivor_map, survivor_map]
        · have hnone : handed reply = [] := by rw [hreply]; exact handed_map (by simp) _
          rw [hnone] at hmem
          cases hmem
  · rcases reply' with signed | e | _
    · obtain ⟨p, hm⟩ := live_of_resignPending hcall
      by_cases htag : t = tag
      · subst htag
        rw [hreply]
        exact h.resigns hks (htold a rfl) hm hcall
      · refine ⟨r, .refl, h.quiet hks (quiet_resignPending.keeps hcall).1 fun tx hmem hsrc => ?_⟩
        rw [hreply] at hmem
        rw [List.mem_singleton.mp hmem] at hsrc
        exact absurd ((resignPending_tag hm hcall).symm.trans hsrc) htag
    · exact hstill (quiet_resignPending.keeps hcall).1 (by rw [hreply]; rfl)
    · exact hstill (quiet_resignPending.keeps hcall).1 (by rw [hreply]; rfl)
  · exact hstill (quiet_reconcile.keeps hcall).1 (by rw [hreply]; exact handed_map (by simp) _)
  · rcases hm : ks.memory with _ | p
    · exact hstill (hpoisoned hm) (by rw [hreply]; exact handed_map (by simp) _)
    cases advance_cases hm hcall with
    | refused hr hstore => exact hstill hstore (by rw [hreply]; exact handed_map (by simp) _)
    | @called slot entry hack hslot hopen hahead hheard haddress hwrite =>
      by_cases htag : t = tag
      -- The ledger is not ahead of the store, so there is nothing to advance to.
      · subst htag
        obtain rfl := honest entry (hheard ▸ List.mem_cons_self)
        exact absurd haddress (h.not_ahead hinj hks hm (htold a rfl) hslot hahead)
      · have hop : Op.call (.persistAdvanceTo t ack.target)
            ⟨ks, ⟨c.world.disk, fates, calls⟩⟩ = (reply'.map some, s.store) :=
          Call.map_apply (f := some) hwrite
        refine ⟨r, .refl, h.other hl hks hop ?_ (fun he => htag (Option.some.inj he))
          fun signed hmem => ?_⟩
        · rw [hreply, survivor_map, survivor_map]
        · have hnone : handed reply = [] := by rw [hreply]; exact handed_map (by simp) _
          rw [hnone] at hmem
          cases hmem

end Tracks

end

/-- A turn leaves the store, or is one call of a writer. -/
theorem turn_calls {D : Type} [Layout D] {part : Partition} {method : Method} {s s' : Session D}
    {reply : Reply Error Answer} (h : method.call part s = (reply, s')) :
    s'.store = s.store ∨ ∃ op written, Op.call op s.store = (written, s'.store) ∧
      survivor reply s'.store.ks = survivor written s'.store.ks := by
  have hpoisoned (hm : s.store.ks.memory = none) : s'.store = s.store :=
    turn_poisoned ⟨_, method, reply, s'⟩ hm h
  rcases method with _ | ⟨spend, a⟩ | _ | ⟨t, a⟩ | _ | _ | ⟨t, a, ack, scope, cancel⟩ <;>
    rw [Method.call] at h <;> obtain ⟨reply', h, hreply⟩ := map_call h
  · exact .inl (quiet_plan.keeps h).1
  · cases reserveAndSign_cases h with
    | refused hstore => exact .inl hstore
    | called _ _ _ _ _ hcall =>
      exact .inr ⟨.persistAdvance spend.tag spend.digest spend.figures, _,
        Call.map_apply (f := some) hcall, hreply ▸ survivor_signed ..⟩
  · exact .inl (quiet_submit.keeps h).1
  · rcases hm : s.store.ks.memory with _ | p
    · exact .inl (hpoisoned hm)
    cases settleIfLanded_cases hm h with
    | still hstore _ => exact .inl hstore
    | called _ _ _ _ hcall =>
      refine .inr ⟨.persistSettled t, _, Call.map_apply (f := fun _ => none) hcall, ?_⟩
      rw [hreply, survivor_map, survivor_map, survivor_map]
  · exact .inl (quiet_resignPending.keeps h).1
  · exact .inl (quiet_reconcile.keeps h).1
  · rcases hm : s.store.ks.memory with _ | p
    · exact .inl (hpoisoned hm)
    cases advance_cases hm h with
    | refused _ hstore => exact .inl hstore
    | called _ _ _ _ _ _ hcall =>
      refine .inr ⟨.persistAdvanceTo t ack.target, _, Call.map_apply (f := some) hcall, ?_⟩
      rw [hreply, survivor_map, survivor_map]

/-! ## Runs -/

namespace Chain

/-- A step is a run of the ratchet. -/
theorem Step.tracks (hl : Crypto.Lawful) (hinj : Function.Injective at') {c c' : Chain}
    (hstep : Step password tag access deep c c') (h : Tracks password tag access at' c r) :
    ∃ r', Ratchet.Run deep r r' ∧ Tracks password tag access at' c' r' := by
  obtain ⟨p, slot, hp, hstanding⟩ := h.stands
  have htag := h.tag_entry
  cases hstep with
  | turn hks htold hcall honest => exact h.turn hl hinj hks htold hcall honest
  | elsewhere hok hstep => exact ⟨r, .refl, h.elsewhere hl hok hstep⟩
  | paid balance => exact ⟨r, .refl, h.kept h.sound (.inl rfl) h.shipped rfl⟩
  | land balance hmem hsrc =>
    obtain ⟨i, j, hi, hj, hati, hatj⟩ := h.shipped _ hmem (hsrc ▸ htag)
    have hheld := h.held_eq hinj (hati.trans hsrc)
    have hrun : Ratchet.Run deep r { r with held := r.held + 1 } := .single (.land (hheld ▸ hi))
    exact ⟨_, hrun, h.sound, ⟨p, slot, hp, hstanding.of_eq rfl rfl⟩, ⟨j, hheld ▸ hj, hatj⟩, h.shipped,
      h.sane.run hrun⟩
  | undo balance hmem hchg hsrc hback =>
    obtain ⟨i, j, hi, hj, hati, hatj⟩ := h.shipped _ hmem (hsrc.trans htag)
    have hheld : r.held = i.pos + 1 := (h.held_eq hinj (hatj.trans hchg)).trans hj
    have hback : deep ∨ ∃ m, r.reserved = some (i.pos, m) := by
      refine hback.imp id fun ⟨q, t, pending, key, hq, ht, hopen, hkey, haddress⟩ => ?_
      cases hq.symm.trans hp
      cases ht.symm.trans hstanding.hslot
      have hspent := hstanding.at_of_keyAt access.told_self hkey
      refine ⟨pending.digest, ?_⟩
      rw [← hstanding.reserved, hopen, hinj (hati.trans (haddress.symm.trans hspent))]
      rfl
    have hrun : Ratchet.Run deep r { r with held := i.pos } := .single (.undo hheld hback)
    exact ⟨_, hrun, h.sound, ⟨p, slot, hp, hstanding.of_eq rfl rfl⟩, ⟨i, rfl, hati⟩, h.shipped,
      h.sane.run hrun⟩

/-- A run of the wallet and its ledger is a run of the ratchet. -/
theorem Run.tracks (hl : Crypto.Lawful) (hinj : Function.Injective at') {c c' : Chain}
    (hrun : Run password tag access deep c c') (h : Tracks password tag access at' c r) :
    ∃ r', Ratchet.Run deep r r' ∧ Tracks password tag access at' c' r' := by
  induction hrun with
  | refl => exact ⟨r, .refl, h⟩
  | tail _ hstep ih =>
    obtain ⟨r', hrun', h'⟩ := ih
    obtain ⟨r'', hrun'', h''⟩ := hstep.tracks hl hinj h'
    exact ⟨r'', hrun'.trans hrun'', h''⟩

/-- A step that leaves the store's state or makes a later one of it. -/
theorem Step.later (hl : Crypto.Lawful) {c c' : Chain} (hsound : c.world.Sound password)
    (hstep : Step password tag access deep c c') (hp : c.world.state password = some p) :
    ∃ q, c'.world.state password = some q ∧ p.Later q := by
  cases hstep with
  | @turn ks part method fates calls node reply s hks _ hcall _ =>
    rcases turn_calls hcall with hstore | ⟨op, written, hop, hend⟩
    · refine ⟨p, ?_, .refl⟩
      rw [← hp, World.state, World.state]
      show World.reading password s.store.medium.disk.snapshot = _
      rw [hstore]
    · rcases (after_call hl hsound hks hop hend).2 with hsame | ⟨q, q', hq, hnext, hq'⟩
      · exact ⟨p, hsame.trans hp, .refl⟩
      · cases hq.symm.trans hp
        exact ⟨q', hq', .single ⟨op, hnext⟩⟩
  | @elsewhere e w hok hstep =>
    by_cases he : e = .powerCut
    · subst he
      have hflushed : c.world.flushed password = c.world.state password := hok
      refine ⟨p, ?_, .refl⟩
      cases hstep with
      | powerCut hentry =>
        rcases hentry with rfl | rfl
        · exact hp
        · exact hflushed.trans hp
    · exact World.later_of_change .refl (hp ▸ (hstep.refines hl hsound he).change)
  | paid => exact ⟨p, hp, .refl⟩
  | land => exact ⟨p, hp, .refl⟩
  | undo => exact ⟨p, hp, .refl⟩

/-- What the store says at the end of a run is later than what it said. -/
theorem Run.later (hl : Crypto.Lawful) (hinj : Function.Injective at') {c c' : Chain}
    (hrun : Run password tag access deep c c') (h : Tracks password tag access at' c r)
    (hp : c.world.state password = some p) :
    ∃ q, c'.world.state password = some q ∧ p.Later q := by
  induction hrun with
  | refl => exact ⟨p, hp, .refl⟩
  | tail hrun hstep ih =>
    obtain ⟨r', -, h'⟩ := Run.tracks hl hinj hrun h
    obtain ⟨q, hq, hlater⟩ := ih
    obtain ⟨q', hq', hlater'⟩ := hstep.later hl h'.sound hq
    exact ⟨q', hq', hlater.trans hlater'⟩

/-- An account to begin with: nothing of it is reserved, and the ledger names its stored position. -/
structure Begins (password : Bytes) (tag : Tag) (access : KeyAccess) (at' : WotsIndex → Address)
    (c : Chain) : Prop where
  sound : c.world.Sound password
  stands : ∃ p slot, c.world.state password = some p ∧ p.slots.get? tag = some slot ∧
    slot.pending = none ∧ c.entry.address = at' slot.account.wotsIndex ∧
    ∀ i, ∃ key, keyAt p.slots slot i access = .ok key ∧ key.address tag = at' i
  shipped : c.shipped = []

theorem Begins.tracks (h : c.Begins password tag access at') :
    ∃ r, Tracks password tag access at' c r ∧ Ratchet.InStep r := by
  obtain ⟨hsound, ⟨p, slot, hp, hslot, hopen, hentry, hkeys⟩, hshipped⟩ := h
  refine ⟨⟨slot.account.wotsIndex.pos, none, slot.account.wotsIndex.pos, []⟩,
    ⟨hsound, ⟨p, slot, hp, hslot, hkeys, rfl, by rw [hopen]; rfl⟩, ⟨_, rfl, hentry.symm⟩, ?_, ?_⟩, ?_⟩
  · rw [hshipped]
    exact fun _ hmem => by cases hmem
  · exact ⟨nofun, nofun, Nat.le_refl _, nofun⟩
  · exact ⟨⟨nofun, nofun, Nat.le_refl _, nofun⟩, Nat.le_refl _⟩

end Chain

end

end MochimoWallet.Wallet
