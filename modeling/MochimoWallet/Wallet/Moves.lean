import MochimoWallet.Wallet.Resign

/-!
# What moves an account

A run of a wallet is a list of turns: a method, what it answered, and the session
before and after, with a node that may answer each question anew. A turn leaves the
store as it is or gives the medium one image, of the state that one permitted write
leaves (`turn_cases`); from that follows what any turn can do to one account
(`explains_of_writes`), and by induction what any run can.
-/

namespace MochimoWallet.Wallet

open Codec Keystore Session

section
variable [Crypto] {D : Type}

/-! ## Turns -/

inductive Method where
  | plan (tag : Tag) (access : KeyAccess) (dsts : List Destination) (feeTotal blkToLive : UInt64)
  | reserveAndSign (plan : SpendPlan) (access : KeyAccess)
  | submit (signed : SignedTransaction)
  | settleIfLanded (tag : Tag) (access : KeyAccess)
  | resignPending (tag : Tag) (access : KeyAccess) (dsts : List Destination)
      (feeTotal blkToLive : UInt64)
  | status (tag : Tag) (access : KeyAccess) (scope : ScanScope) (cancel : Cancel)
  | advanceAfterOperatorReview (tag : Tag) (access : KeyAccess) (ack : OperatorAcknowledgement)
      (scope : ScanScope) (cancel : Cancel)

/-- What a method returns. -/
inductive Answer where
  | planned (plan : SpendPlan)
  | signed (tx : SignedTransaction)
  | submitted (id : Digest)
  | settlement (settlement : Settlement)
  | status (found : Except Divergence AccountStatus)
  | advanced (receipt : AdvanceReceipt)

/-- A method, called on a wallet with the partition `part`. -/
def Method.call [Layout D] (part : Partition) : Method → Call (Session D) Error Answer
  | .plan tag access dsts feeTotal blkToLive => do
    let spend ← Wallet.plan part tag access dsts feeTotal blkToLive
    pure (.planned spend)
  | .reserveAndSign spend access => do
    let tx ← Wallet.reserveAndSign part spend access
    pure (.signed tx)
  | .submit signed => do
    let id ← Wallet.submit signed
    pure (.submitted id)
  | .settleIfLanded tag access => do
    let settlement ← Wallet.settleIfLanded tag access
    pure (.settlement settlement)
  | .resignPending tag access dsts feeTotal blkToLive => do
    let tx ← Wallet.resignPending part tag access dsts feeTotal blkToLive
    pure (.signed tx)
  | .status tag access scope cancel => do
    let found ← asking fun ks => (reconcileAccountWith ks tag access scope cancel).attempt
    pure (.status found)
  | .advanceAfterOperatorReview tag access ack scope cancel => do
    let receipt ← Session.advanceAfterOperatorReview tag access ack scope cancel .never
    pure (.advanced receipt)

structure Turn (D : Type) where
  before : Session D
  method : Method
  reply : Reply Error Answer
  after : Session D

namespace Turn

/-- The node answered the turn's one lookup of `tag` with `entry`. -/
def Heard (turn : Turn D) (tag : Tag) (entry : LedgerEntry) : Prop :=
  turn.after.node.heard = (tag, entry) :: turn.before.node.heard

/-- The turn gave the medium one image, of `p'`. A handle whose commit failed is poisoned; a killed
process has none. -/
def Wrote [Layout D] (turn : Turn D) (p p' : Parsed) : Prop :=
  ∃ image reply, imageOf turn.before.store.ks.crypto p' = .ok image ∧
    Layout.steps image turn.before.store.medium = (reply, turn.after.store.medium) ∧
    turn.after.store.ks.memory = match reply with
      | .ok _ => some p'
      | .err _ => none
      | .killed => some p

/-- The turn reserved the account's next key for a plan. -/
def Reserves (turn : Turn D) (tag : Tag) (slot slot' : Slot) : Prop :=
  ∃ plan access, turn.method = .reserveAndSign plan access ∧ plan.tag = tag ∧
    slot'.account.wotsIndex.pos = slot.account.wotsIndex.pos + 1 ∧
    slot'.pending = some ⟨slot.account.wotsIndex, plan.digest, some plan.figures⟩

/-- The turn moved the account to an acknowledged position, whose address the node answered. -/
def Advances (turn : Turn D) (tag : Tag) (slot slot' : Slot) : Prop :=
  ∃ access ack scope cancel entry,
    turn.method = .advanceAfterOperatorReview tag access ack scope cancel ∧
    slot'.account.wotsIndex = ack.target ∧ slot.account.wotsIndex.pos < ack.target.pos ∧
    turn.Heard tag entry ∧
    turn.before.store.ks.addressAt tag ack.target access = .ok entry.address

/-- The turn settled the account, and the node answered the address of its stored position. -/
def Settles (turn : Turn D) (tag : Tag) (slot : Slot) : Prop :=
  ∃ access entry, turn.method = .settleIfLanded tag access ∧ turn.Heard tag entry ∧
    turn.before.store.ks.addressAt tag slot.account.wotsIndex access = .ok entry.address

/-- Why an account's slot differs after the turn. -/
structure Explains (turn : Turn D) (tag : Tag) (slot slot' : Slot) : Prop where
  index : slot'.account.wotsIndex ≠ slot.account.wotsIndex →
    turn.Reserves tag slot slot' ∨ turn.Advances tag slot slot'
  pending : ∀ pending, slot.pending = some pending → slot'.pending ≠ some pending →
    turn.Settles tag slot

/-- The turn spends the account's next key or skips it. -/
def Spends (turn : Turn D) (tag : Tag) : Prop :=
  (∃ plan access, turn.method = .reserveAndSign plan access ∧ plan.tag = tag) ∨
    ∃ access ack scope cancel,
      turn.method = .advanceAfterOperatorReview tag access ack scope cancel

/-- The writes a turn may make, each with what allows it. -/
inductive Writes (turn : Turn D) (p : Parsed) : Op → Prop where
  | reserve {plan : SpendPlan} {access : KeyAccess}
      (hmethod : turn.method = .reserveAndSign plan access) :
      Writes turn p (.persistAdvance plan.tag plan.digest plan.figures)
  | advance {tag : Tag} {access : KeyAccess} {ack : OperatorAcknowledgement} {scope : ScanScope}
      {cancel : Cancel} {entry : LedgerEntry}
      (hmethod : turn.method = .advanceAfterOperatorReview tag access ack scope cancel)
      (hheard : turn.Heard tag entry)
      (haddress : turn.before.store.ks.addressAt tag ack.target access = .ok entry.address) :
      Writes turn p (.persistAdvanceTo tag ack.target)
  | settle {tag : Tag} {access : KeyAccess} {slot : Slot} {entry : LedgerEntry}
      (hmethod : turn.method = .settleIfLanded tag access) (hslot : p.slots.get? tag = some slot)
      (hheard : turn.Heard tag entry)
      (haddress : turn.before.store.ks.addressAt tag slot.account.wotsIndex access =
        .ok entry.address) :
      Writes turn p (.persistSettled tag)

end Turn

/-! ## One turn -/

/-- What a turn's method answered, under the method's own call. -/
theorem map_call {α : Type} {x : Call (Session D) Error α} {f : α → Answer} {s s' : Session D}
    {r : Reply Error Answer} (h : (do let a ← x
                                      pure (f a)) s = (r, s')) :
    ∃ r', x s = (r', s') ∧ r = r'.map f := by
  rcases hx : x s with ⟨r', t⟩
  cases (Call.map_apply hx).symm.trans h
  exact ⟨r', rfl, rfl⟩

section
variable {part : Partition} {turn : Turn D} {p p' : Parsed}

/-- A permitted write explains what it does to every account. -/
theorem explains_of_writes {op : Op} (hop : turn.Writes p op) (hnext : p.next op = .ok p')
    {tag : Tag} {slot : Slot} (hslot : p.slots.get? tag = some slot) :
    ∃ slot', p'.slots.get? tag = some slot' ∧ turn.Explains tag slot slot' := by
  have hstep := (Parsed.step_of_next hnext).1
  by_cases htag : op.tag? = some tag
  · cases hop with
    | @reserve plan access hmethod =>
      cases htag
      cases hstep with
      | @persistAdvance _ _ _ t index ht hopen hindex hslots hmaster =>
        cases ht.symm.trans hslot
        refine ⟨_, (congrArg (·.get? plan.tag) hslots).trans (Parsed.get?_write hslot ..),
          fun _ => .inl ⟨plan, access, hmethod, rfl, hindex, rfl⟩, fun pending hp => ?_⟩
        rw [hopen] at hp
        cases hp
    | @advance _ access ack scope cancel entry hmethod hheard haddress =>
      cases htag
      cases hstep with
      | @persistAdvanceTo _ _ t ht hopen hahead hslots hmaster =>
        cases ht.symm.trans hslot
        refine ⟨_, (congrArg (·.get? tag) hslots).trans (Parsed.get?_write hslot ..),
          fun _ => .inr ⟨access, ack, scope, cancel, entry, hmethod, rfl, hahead, hheard, haddress⟩,
          fun pending hp => ?_⟩
        rw [hopen] at hp
        cases hp
    | @settle _ access t entry hmethod ht hheard haddress =>
      cases htag
      cases ht.symm.trans hslot
      cases hstep with
      | @persistSettled _ t block ht hopen hslots hmaster =>
        cases ht.symm.trans hslot
        refine ⟨_, (congrArg (·.get? tag) hslots).trans (Parsed.get?_write hslot ..), fun hne => ?_,
          fun _ _ _ => ⟨access, entry, hmethod, hheard, haddress⟩⟩
        exact absurd rfl hne
  · refine ⟨slot, (hstep.frame htag).trans hslot, fun hne => absurd rfl hne, fun pending hp hne => ?_⟩
    exact absurd hp hne

variable [Layout D]

/-- A call of a writer on a live handle: refused, or one image given to the medium. -/
theorem wrote_of_call {op : Op} {written : Reply Error (Option AdvanceReceipt)}
    (hm : turn.before.store.ks.memory = some p)
    (h : op.call turn.before.store = (written, turn.after.store)) :
    turn.after.store = turn.before.store ∨ ∃ p', p.next op = .ok p' ∧ turn.Wrote p p' := by
  cases call_end hm h with
  | refused ht => exact .inl ht
  | @done p' image hnext himage hsteps hks =>
    exact .inr ⟨p', hnext, image, _, himage, hsteps, by rw [hks]; rfl⟩
  | @failed p' image e hnext himage hsteps hks =>
    exact .inr ⟨p', hnext, image, _, himage, hsteps, by rw [hks]; rfl⟩
  | @killed p' image hnext himage hsteps hks =>
    exact .inr ⟨p', hnext, image, _, himage, hsteps, by rw [hks]; exact hm⟩

/-- A turn leaves the store, or makes one permitted write. -/
theorem turn_cases (hm : turn.before.store.ks.memory = some p)
    (h : turn.method.call part turn.before = (turn.reply, turn.after)) :
    turn.after.store = turn.before.store ∨
      ∃ op p', turn.Writes p op ∧ p.next op = .ok p' ∧ turn.Wrote p p' := by
  have hwrote {op : Op} {written : Reply Error (Option AdvanceReceipt)} (hop : turn.Writes p op)
      (hcall : op.call turn.before.store = (written, turn.after.store)) :
      turn.after.store = turn.before.store ∨
        ∃ op p', turn.Writes p op ∧ p.next op = .ok p' ∧ turn.Wrote p p' := by
    rcases wrote_of_call hm hcall with hstore | ⟨p', hnext, hw⟩
    · exact .inl hstore
    · exact .inr ⟨op, p', hop, hnext, hw⟩
  rcases hmethod : turn.method with _ | ⟨plan, access⟩ | _ | ⟨tag, access⟩ | _ | _ |
    ⟨tag, access, ack, scope, cancel⟩ <;> rw [hmethod, Method.call] at h <;>
    obtain ⟨r', h, hr⟩ := map_call h
  · exact .inl (quiet_plan.keeps h).1
  · cases reserveAndSign_cases h with
    | refused hstore => exact .inl hstore
    | called hpart haddresses hplan hentry hheard hcall =>
      exact hwrote (.reserve hmethod) (Call.map_apply (f := some) hcall)
  · exact .inl (quiet_submit.keeps h).1
  · cases settleIfLanded_cases hm h with
    | still hstore => exact .inl hstore
    | called hslot hopen hheard haddress hcall =>
      exact hwrote (.settle hmethod hslot hheard haddress) (Call.map_apply (f := fun _ => none) hcall)
  · exact .inl (quiet_resignPending.keeps h).1
  · exact .inl (quiet_reconcile.keeps h).1
  · cases advance_cases hm h with
    | refused hr hstore => exact .inl hstore
    | called htag hslot hopen hahead hheard haddress hcall =>
      exact hwrote (.advance hmethod hheard haddress) (Call.map_apply (f := some) hcall)

/-- While a reservation is open its account's next key is neither spent nor skipped. -/
theorem spends_refused (hm : turn.before.store.ks.memory = some p)
    (h : turn.method.call part turn.before = (turn.reply, turn.after)) {tag : Tag} {slot : Slot}
    (hslot : p.slots.get? tag = some slot) (hopen : slot.pending ≠ none) (hspends : turn.Spends tag) :
    (∃ e, turn.reply = .err e) ∧ turn.after.store = turn.before.store := by
  rcases hspends with ⟨plan, access, hmethod, rfl⟩ | ⟨access, ack, scope, cancel, hmethod⟩ <;>
    rw [hmethod, Method.call] at h <;> obtain ⟨r', h, hr⟩ := map_call h
  · cases reserveAndSign_cases h with
    | refused hstore => exact ⟨⟨_, hr⟩, hstore⟩
    | called hpart haddresses hplan hentry hheard hcall =>
      obtain ⟨t, _, _, _, ht, hnone, -⟩ := (spendAddresses_eq_ok hm).mp haddresses
      cases ht.symm.trans hslot
      exact absurd hnone hopen
  · cases advance_cases hm h with
    | refused hr' hstore => exact ⟨⟨_, by rw [hr, hr']; rfl⟩, hstore⟩
    | called htag ht hnone hahead hheard haddress hcall =>
      cases ht.symm.trans hslot
      exact absurd hnone hopen

/-- A poisoned store is written by no turn. -/
theorem turn_poisoned (turn : Turn D) (hm : turn.before.store.ks.memory = none)
    (h : turn.method.call part turn.before = (turn.reply, turn.after)) :
    turn.after.store = turn.before.store := by
  rcases hmethod : turn.method with _ | ⟨plan, access⟩ | _ | ⟨tag, access⟩ | _ | _ |
    ⟨tag, access, ack, scope, cancel⟩ <;> rw [hmethod, Method.call] at h <;>
    obtain ⟨r', h, hr⟩ := map_call h
  · exact (quiet_plan.keeps h).1
  · cases reserveAndSign_cases h with
    | refused hstore => exact hstore
    | called hpart haddresses hplan hentry hheard hcall =>
      obtain ⟨first, hfirst⟩ := poisoned_of_memory hm
      rw [spendAddresses, live, hfirst] at haddresses
      cases haddresses
  · exact (quiet_submit.keeps h).1
  · unfold settleIfLanded at h
    rcases Call.bind_cases h with ⟨found, t, hasked, h⟩ | ⟨e, hasked, -⟩ | ⟨hasked, -⟩ <;>
      obtain ⟨hstore, found', hfound', hfound⟩ := asking_reconcile hasked <;> cases hfound'
    obtain ⟨d, hd, -⟩ := reconcile_poisoned hm hfound
    rcases found with d' | status <;> cases hd
    cases h
    exact hstore
  · exact (quiet_resignPending.keeps h).1
  · exact (quiet_reconcile.keeps h).1
  · exact (advance_poisoned hm h).1

end

/-! ## Runs -/

/-- Turns one after the other; nothing follows the one the process died in. -/
inductive Run [Layout D] (part : Partition) : Session D → List (Turn D) → Session D → Prop where
  | nil (s : Session D) : Run part s [] s
  | cons {s t u : Session D} {method : Method} {reply : Reply Error Answer} {turns : List (Turn D)}
      (hcall : method.call part s = (reply, t)) (hlive : reply ≠ .killed ∨ turns = [])
      (hrest : Run part t turns u) : Run part s (⟨s, method, reply, t⟩ :: turns) u

section
variable [Layout D] {part : Partition} {s s' : Session D} {turns : List (Turn D)}

theorem Run.turn (h : Run part s turns s') : ∀ turn ∈ turns,
    turn.method.call part turn.before = (turn.reply, turn.after) := by
  induction h with
  | nil => exact fun turn hmem => by cases hmem
  | cons hcall hlive hrest ih =>
    intro turn hmem
    rcases List.mem_cons.mp hmem with rfl | hmem
    · exact hcall
    · exact ih turn hmem

theorem Run.poisoned (h : Run part s turns s') (hm : s.store.ks.memory = none) :
    s'.store.ks.memory = none := by
  induction h with
  | nil => exact hm
  | cons hcall hlive hrest ih =>
    exact ih (by rw [turn_poisoned ⟨_, _, _, _⟩ hm hcall, hm])

/-- What one turn leaves of an account it found. -/
theorem turn_slot (turn : Turn D) {p q : Parsed} (hm : turn.before.store.ks.memory = some p)
    (h : turn.method.call part turn.before = (turn.reply, turn.after))
    (hq : turn.after.store.ks.memory = some q) {tag : Tag} {slot : Slot}
    (hslot : p.slots.get? tag = some slot) :
    ∃ slot', q.slots.get? tag = some slot' ∧ turn.Explains tag slot slot' := by
  have hsame (hp : some p = some q) :
      ∃ slot', q.slots.get? tag = some slot' ∧ turn.Explains tag slot slot' := by
    cases hp
    exact ⟨slot, hslot, fun hne => absurd rfl hne, fun pending hp hne => absurd hp hne⟩
  rcases turn_cases hm h with hstore | ⟨op, p', hop, hnext, image, reply, -, -, hafter⟩
  · rw [hstore] at hq
    exact hsame (hm.symm.trans hq)
  · rw [hafter] at hq
    cases reply with
    | ok a =>
      cases hq
      exact explains_of_writes hop hnext hslot
    | err e => cases hq
    | killed => exact hsame hq

/-- What a whole run leaves of an account it found: a turn of it moved the index, and a turn of it
settled the reservation. -/
theorem Run.slot (h : Run part s turns s') {p q : Parsed} (hm : s.store.ks.memory = some p)
    (hq : s'.store.ks.memory = some q) {tag : Tag} {slot : Slot}
    (hslot : p.slots.get? tag = some slot) :
    ∃ slot', q.slots.get? tag = some slot' ∧
      (slot'.account.wotsIndex ≠ slot.account.wotsIndex →
        ∃ turn ∈ turns, ∃ a b, turn.Reserves tag a b ∨ turn.Advances tag a b) ∧
      ∀ pending, slot.pending = some pending → slot'.pending ≠ some pending →
        ∃ turn ∈ turns, ∃ a, a.pending = some pending ∧ turn.Settles tag a := by
  induction h generalizing p slot with
  | nil =>
    cases hm.symm.trans hq
    exact ⟨slot, hslot, fun hne => absurd rfl hne, fun pending hp hne => absurd hp hne⟩
  | @cons s t u method reply turns hcall hlive hrest ih =>
    rcases ht : t.store.ks.memory with _ | p'
    · rw [hrest.poisoned ht] at hq
      cases hq
    obtain ⟨mid, hmid, hexplains⟩ := turn_slot ⟨s, method, reply, t⟩ hm hcall ht hslot
    obtain ⟨slot', hslot', hindex, hpending⟩ := ih ht hq hmid
    refine ⟨slot', hslot', fun hne => ?_, fun pending hp hne => ?_⟩
    · by_cases hmoved : mid.account.wotsIndex = slot.account.wotsIndex
      · obtain ⟨turn, hmem, hturn⟩ := hindex (hmoved ▸ hne)
        exact ⟨turn, List.mem_cons_of_mem _ hmem, hturn⟩
      · exact ⟨_, List.mem_cons_self, slot, mid, hexplains.index hmoved⟩
    · by_cases hkept : mid.pending = some pending
      · obtain ⟨turn, hmem, hturn⟩ := hpending pending hkept hne
        exact ⟨turn, List.mem_cons_of_mem _ hmem, hturn⟩
      · exact ⟨_, List.mem_cons_self, slot, hp, hexplains.pending pending hp hkept⟩

/-- What moves an account, in one turn and in a run: a reservation for a plan's digest or an
acknowledged advance its index, and a settle that saw it landed its open reservation. -/
theorem what_moves_an_account {w : Wallet D} (h : Run w.toPartition w.toSession turns s') :
    (∀ turn ∈ turns, ∀ p, turn.before.store.ks.memory = some p →
      (turn.after.store = turn.before.store ∨ ∃ p', turn.Wrote p p' ∧
        ∀ tag slot, p.slots.get? tag = some slot →
          ∃ slot', p'.slots.get? tag = some slot' ∧ turn.Explains tag slot slot') ∧
      ∀ tag slot, p.slots.get? tag = some slot → slot.pending ≠ none → turn.Spends tag →
        (∃ e, turn.reply = .err e) ∧ turn.after.store = turn.before.store) ∧
    (∀ turn ∈ turns, turn.before.store.ks.memory = none →
      turn.after.store = turn.before.store) ∧
    ∀ p q, w.store.ks.memory = some p → s'.store.ks.memory = some q →
      ∀ tag slot, p.slots.get? tag = some slot → ∃ slot', q.slots.get? tag = some slot' ∧
        (slot'.account.wotsIndex ≠ slot.account.wotsIndex →
          ∃ turn ∈ turns, ∃ a b, turn.Reserves tag a b ∨ turn.Advances tag a b) ∧
        ∀ pending, slot.pending = some pending → slot'.pending ≠ some pending →
          ∃ turn ∈ turns, ∃ a, a.pending = some pending ∧ turn.Settles tag a := by
  refine ⟨fun turn hmem p hm => ⟨?_, fun tag slot hslot hopen hspends => ?_⟩, fun turn hmem hm => ?_,
    fun p q hm hq tag slot hslot => h.slot hm hq hslot⟩
  · rcases turn_cases hm (h.turn turn hmem) with hstore | ⟨op, p', hop, hnext, hwrote⟩
    · exact .inl hstore
    · exact .inr ⟨p', hwrote, fun tag slot hslot => explains_of_writes hop hnext hslot⟩
  · exact spends_refused hm (h.turn turn hmem) hslot hopen hspends
  · exact turn_poisoned turn hm (h.turn turn hmem)

end

end

section
attribute [local instance] Crypto.copying

/-- A wallet that spends: the index of its account moved, and the turn that moved it reserved. -/
theorem what_moves_an_account_spending : ∃ (w : Wallet UnixMedium) (turn : Turn UnixMedium)
    (tag : Tag) (p q : Parsed) (slot slot' : Slot) (signed : SignedTransaction),
    turn.reply = .ok (.signed signed) ∧ w.store.ks.memory = some p ∧
      turn.after.store.ks.memory = some q ∧ p.slots.get? tag = some slot ∧
      q.slots.get? tag = some slot' ∧ slot'.account.wotsIndex ≠ slot.account.wotsIndex ∧
      ∃ a b, turn.Reserves tag a b ∨ turn.Advances tag a b := by
  obtain ⟨x, hx⟩ := spending_went
  obtain ⟨signed, s', hsigned, -⟩ := hx.signs
  obtain ⟨q, slot', key, change, hq, hreserved⟩ := reserved_of_signed hsigned
  obtain ⟨p, hp⟩ := live_of_spendAddresses hx.haddresses
  obtain ⟨slot, next, source, _, hslot, -, -, -, -, haddresses⟩ :=
    (spendAddresses_eq_ok hp).mp hx.haddresses
  have hposition : x.plan.position = slot.account.wotsIndex := by
    rw [(PlanFields.build_eq_ok (SpendPlan.new_eq_ok.mp hx.hplan)).2.1, haddresses]
  let w : Wallet UnixMedium :=
    { store := x.session.store, node := answering [.ok ⟨x.addresses.source, 1000⟩],
      accounts := x.part.accounts, diverged := x.part.diverged }
  have hcall : Method.call x.part (.reserveAndSign x.plan (.master sevens)) w.toSession =
      (.ok (.signed signed), s') := Call.map_apply (f := Answer.signed) hsigned
  obtain ⟨-, -, hrun⟩ := what_moves_an_account (w := w) (.cons hcall (.inl (by simp)) (.nil s'))
  obtain ⟨t, ht, hmoved, -⟩ := hrun p q hp hq x.plan.tag slot hslot
  cases ht.symm.trans hreserved.hslot
  have hne : slot'.account.wotsIndex ≠ slot.account.wotsIndex := by
    rw [← hposition]
    intro h
    have hindex := hreserved.hindex
    rw [h] at hindex
    exact Nat.lt_irrefl _ hindex
  obtain ⟨turn, hmem, a, b, hturn⟩ := hmoved hne
  rw [List.mem_singleton] at hmem
  subst hmem
  exact ⟨w, _, x.plan.tag, p, q, slot, slot', signed, rfl, hp, hq, hslot, hreserved.hslot, hne, a, b,
    hturn⟩

end

end MochimoWallet.Wallet
