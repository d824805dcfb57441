import MochimoWallet.Recon.Restore
import MochimoWallet.Wallet

/-!
# The restore command

Restore asks the chain where a derived account stands and adds it to the store there,
in one commit; an account the store already holds is reported and not touched.
`restore_cases` says everything a call can do.
-/

namespace MochimoWallet.Cli

open Codec Words Keystore Session

section
variable [Crypto] {D : Type}

/-- What a restore did; `heldAt` is the stored index of an account that was there already. -/
structure Restored where
  found : RestoredAccount
  heldAt : Option WotsIndex
  deriving DecidableEq

/-- The scope of a restore: up to the position the operator named, which is included. -/
def restoreScope : Option UInt32 → ScanScope
  | some m => ScanScope.restore.withCeiling (saturatingAdd32 m 1)
  | none => ScanScope.restore

/-- The account of a master at a position, with nothing reserved. -/
def placedAt (master : Secret) (accountIndex : UInt32) (position : WotsIndex) :
    Except Error Account :=
  let account := Account.derive master accountIndex
  if WotsIndex.zero.pos < position.pos then account.advanceTo position else .ok account

def restoreAsking [Layout D] (master : Secret) (accountIndex : UInt32) (scanTo : Option UInt32)
    (cancel : Cancel) : Call (Session D) (Unfinished RestoreFailure) Restored := do
  let stop ← asking fun _ => Wallet.askStop cancel
  Wallet.stopIf stop cancel
  let scanned ← asking fun _ =>
    (restoreAccountIndexWith master accountIndex (restoreScope scanTo) cancel).attempt
  match scanned with
  | .error failure => do
    Wallet.stopIf failure.stoppedByCancel cancel
    Call.refuse (.refused failure)
  | .ok found =>
    let cannotStore {α : Type} (x : Except Error α) : Except (Unfinished RestoreFailure) α :=
      x.mapError fun cause => .refused (.cannotStore found.tag cause)
    let s ← Call.get
    let view ← Call.check (cannotStore (s.store.ks.view found.tag))
    match view with
    | some view => pure ⟨found, some view.wotsIndex⟩
    | none => do
      let account ← Call.check (cannotStore (placedAt master accountIndex found.index))
      let stop ← asking fun _ => Wallet.askStop cancel
      Wallet.stopIf stop cancel
      writing ((add account).mapErr fun cause => .refused (.cannotStore found.tag cause))
      pure ⟨found, none⟩

/-! ## What a restore can do -/

theorem placedAt_eq_ok {master : Secret} {accountIndex : UInt32} {position : WotsIndex}
    {account : Account} : placedAt master accountIndex position = .ok account ↔
      account = { Account.derive master accountIndex with wotsIndex := position } := by
  unfold placedAt
  split
  · next hpos =>
    rw [Account.advanceTo_eq_ok]
    exact and_iff_right hpos
  · next hpos =>
    have hzero : position = .zero := WotsIndex.ext_pos (by
      show position.pos = WotsIndex.zero.pos
      have h : WotsIndex.zero.pos = 0 := rfl
      omega)
    subst hzero
    rw [Except.ok.injEq]
    exact eq_comm

theorem view_eq_none {ks : Keystore} {tag : Tag} :
    ks.view tag = .ok none ↔ ∃ p, ks.memory = some p ∧ p.slots.get? tag = none := by
  rcases hm : ks.memory with _ | p
  · obtain ⟨first, hfirst⟩ := poisoned_of_memory hm
    rw [Keystore.view, live, hfirst]
    exact iff_of_false (by rintro ⟨⟩) (by simp)
  · rw [Keystore.view, live_of_memory hm, ok_bind]
    simp

variable [Layout D] {master : Secret} {accountIndex : UInt32} {scanTo : Option UInt32}
  {cancel : Cancel} {s s' : Session D}

/-- Everything a restore can do: nothing, or one call of the writer on the account at the first
position that has the address answered. -/
inductive RestoreEnd (s s' : Session D) (master : Secret) (accountIndex : UInt32)
    (scanTo : Option UInt32) : Reply (Unfinished RestoreFailure) Restored → Prop where
  | refused {e : Unfinished RestoreFailure} (hstore : s'.store = s.store) :
      RestoreEnd s s' master accountIndex scanTo (.err e)
  | held {found : RestoredAccount} {index : WotsIndex} (hstore : s'.store = s.store) :
      RestoreEnd s s' master accountIndex scanTo (.ok ⟨found, some index⟩)
  | called {entry : LedgerEntry} {position : WotsIndex} {p : Parsed} {written : Reply Error Unit}
      (hheard : s'.node.heard = ((deriveAccount master accountIndex).tag, entry) :: s.node.heard)
      (htag : tagOf entry.address = (deriveAccount master accountIndex).tag)
      (hplaced : Placed master accountIndex (restoreScope scanTo).ceiling entry.address position)
      (hm : s.store.ks.memory = some p)
      (hnew : p.slots.get? (deriveAccount master accountIndex).tag = none)
      (hcall : add { Account.derive master accountIndex with wotsIndex := position } s.store =
        (written, s'.store)) :
      RestoreEnd s s' master accountIndex scanTo
        ((written.mapErr fun cause =>
            .refused (.cannotStore (deriveAccount master accountIndex).tag cause)).map fun _ =>
          ⟨⟨(deriveAccount master accountIndex).tag, position, entry.address, entry.balance⟩, none⟩)

theorem restore_cases {r : Reply (Unfinished RestoreFailure) Restored}
    (h : restoreAsking master accountIndex scanTo cancel s = (r, s')) :
    RestoreEnd s s' master accountIndex scanTo r := by
  unfold restoreAsking at h
  rcases Wallet.quiet_askStop.bind_cases h with ⟨e, rfl, hstore⟩ | ⟨stop, s₁, hasked, hs₁, h⟩
  · exact .refused hstore
  have hheard₁ := Wallet.askStop_heard hasked
  rcases Wallet.stopIf_cases h with ⟨e, rfl, rfl⟩ | h
  · exact .refused hs₁
  rcases Call.bind_cases h with ⟨scanned, s₂, hscan, h⟩ | ⟨e, hscan, -⟩ | ⟨hscan, -⟩ <;>
    obtain ⟨hs₂, hscan⟩ := asking_cases hscan <;>
    rcases Call.attempt_cases hscan with ⟨found, hr, hscan⟩ | ⟨hr, hscan⟩ <;> cases hr
  · have hs₂ := hs₂.trans hs₁
    rcases restoreAccountIndexWith_cases hscan with
      ⟨failure, hfound⟩ | ⟨entry, position, hheard₂, htag, hplaced, hfound⟩
    · rcases scanned with failure' | found <;> cases hfound
      rcases Wallet.stopIf_cases h with ⟨e, rfl, rfl⟩ | h
      · exact .refused hs₂
      · cases h
        exact .refused hs₂
    rcases scanned with failure' | found <;> cases hfound
    dsimp only at h
    rw [Call.get_bind] at h
    rcases Call.check_bind_cases h with ⟨e, -, rfl, rfl⟩ | ⟨view, hview, h⟩
    · exact .refused hs₂
    rcases view with _ | view
    · dsimp only at h
      rcases Call.check_bind_cases h with ⟨e, -, rfl, rfl⟩ | ⟨account, haccount, h⟩
      · exact .refused hs₂
      rcases Wallet.quiet_askStop.bind_cases h with ⟨e, rfl, hstore⟩ | ⟨stop', s₃, hasked', hs₃, h⟩
      · exact .refused (hstore.trans hs₂)
      have hheard₃ := Wallet.askStop_heard hasked'
      have hs₃ := hs₃.trans hs₂
      rcases Wallet.stopIf_cases h with ⟨e, rfl, rfl⟩ | h
      · exact .refused hs₃
      have haccount := placedAt_eq_ok.mp (mapError_eq_ok.mp haccount)
      subst haccount
      obtain ⟨p, hm, hnew⟩ := view_eq_none.mp (mapError_eq_ok.mp hview)
      rw [hs₂] at hm
      rcases hw : writing (D := D) ((add { Account.derive master accountIndex with
        wotsIndex := position }).mapErr fun cause => Unfinished.refused
          (RestoreFailure.cannotStore (deriveAccount master accountIndex).tag cause)) s₃ with ⟨w, v⟩
      cases (Call.map_apply hw).symm.trans h
      obtain ⟨hnode, hwritten⟩ := writing_cases hw
      obtain ⟨written, hcall, rfl⟩ := Call.mapErr_cases hwritten
      rw [hs₃] at hcall
      exact .called (by rw [hnode, hheard₃, hheard₂, hheard₁]) htag hplaced hm hnew hcall
    · cases h
      exact .held hs₂
  · rcases restoreAccountIndexWith_cases hscan with ⟨failure, hr⟩ | ⟨_, _, -, -, -, hr⟩ <;> cases hr

/-- The address of a derived account the store holds, by its master: the one derived without a
store. -/
theorem addressAt_derived {ks : Keystore} {q : Parsed} {slot : Slot} {stream : StreamId}
    (hm : ks.memory = some q)
    (hslot : q.slots.get? (deriveAccount master accountIndex).tag = some slot)
    (htag : slot.account.tag = (deriveAccount master accountIndex).tag)
    (hkey : slot.account.key = .derived accountIndex stream)
    (hstream : MochimoWallet.streamId (deriveAccount master accountIndex).seed = stream)
    (hroot : (deriveAccount master accountIndex).seed ∉ importedRoots q.slots)
    (position : WotsIndex) :
    ks.addressAt (deriveAccount master accountIndex).tag position (.master master) =
      .ok (derivedAddressAt master accountIndex position) := by
  refine (addressAt_eq_ok hm).mpr ⟨slot, _, hslot, (keyAt_derived hkey).mpr
    ⟨master, rfl, htag.symm, hroot, hstream, rfl⟩, ?_⟩
  unfold derivedAddressAt
  cases position.rotation <;> rfl

/-- An added account of the store's master has the addresses derived without the store. -/
theorem addressAt_added {ks : Keystore} {p q : Parsed} {position : WotsIndex}
    (hm : ks.memory = some q) (hmaster : q.master = some master)
    (hadd : p.Step q (.add { Account.derive master accountIndex with wotsIndex := position })) :
    ks.addressAt (deriveAccount master accountIndex).tag position (.master master) =
      .ok (derivedAddressAt master accountIndex position) := by
  cases hadd with
  | @add account incoming htag hroot hstream hnew hslots hmaster' =>
  have hincoming : incoming = MochimoWallet.streamId (deriveAccount master accountIndex).seed := by
    rw [← hmaster', hmaster] at hstream
    simp only [recomputedStreamId, Account.derive] at hstream
    simpa using hstream.symm
  have hget : q.slots.get? (deriveAccount master accountIndex).tag =
      some ⟨{ Account.derive master accountIndex with wotsIndex := position }, none, none⟩ := by
    rw [hslots]
    exact (OrdMap.get?_insert ..).trans (if_pos rfl)
  refine addressAt_derived hm hget rfl rfl rfl ?_ position
  -- A root imported before has a stream of its own; the account added has none.
  rw [mem_importedRoots]
  rintro ⟨tag, slot, hslot, hroot'⟩
  rw [hslots, OrdMap.get?_insert] at hslot
  split at hslot
  · cases hslot
    cases hroot'
  · exact hnew tag slot hslot (by rw [stream_of_root hroot', hincoming])

/-- A restore adds an account where the chain says it stands, or nothing. -/
theorem restore_never_guesses {r : Reply (Unfinished RestoreFailure) Restored}
    (h : restoreAsking master accountIndex scanTo cancel s = (r, s')) :
    (s'.store = s.store ∧ (∀ found, r ≠ .ok ⟨found, none⟩) ∨
      ∃ entry position p p' reply,
        s'.node.heard = ((deriveAccount master accountIndex).tag, entry) :: s.node.heard ∧
        Placed master accountIndex (restoreScope scanTo).ceiling entry.address position ∧
        s.store.ks.memory = some p ∧ p.slots.get? (deriveAccount master accountIndex).tag = none ∧
        p'.slots = p.slots.insert (deriveAccount master accountIndex).tag
          ⟨{ Account.derive master accountIndex with wotsIndex := position }, none, none⟩ ∧
        p'.master = p.master ∧ Committed s.store s'.store p p' reply ∧
        ∀ restored, r = .ok restored ↔ reply = .ok () ∧
          restored = ⟨⟨(deriveAccount master accountIndex).tag, position, entry.address,
            entry.balance⟩, none⟩) ∧
    (∀ p, s.store.ks.memory = some p → p.slots.get? (deriveAccount master accountIndex).tag ≠ none →
      s'.store = s.store) ∧
    ((∀ entry position,
        s'.node.heard = ((deriveAccount master accountIndex).tag, entry) :: s.node.heard →
          ¬ Placed master accountIndex (restoreScope scanTo).ceiling entry.address position) →
      s'.store = s.store) ∧
    (∀ e, r = .err e → (∀ tag cause, e ≠ .refused (.cannotStore tag cause)) → s'.store = s.store) ∧
    ∀ found q, r = .ok ⟨found, none⟩ → s'.store.ks.memory = some q → q.master = some master →
      ∀ scope cancel n entries, n.entries = .ok ⟨found.address, found.balance⟩ :: entries →
        ∃ n', reconcileAccountWith s'.store.ks found.tag (.master master) scope cancel n =
          (.ok (.inSync found.index found.address found.balance), n') := by
  cases restore_cases h with
  | refused hstore =>
    exact ⟨.inl ⟨hstore, by simp⟩, fun _ _ _ => hstore, fun _ => hstore, fun _ _ _ => hstore,
      fun _ _ hr => by cases hr⟩
  | held hstore =>
    exact ⟨.inl ⟨hstore, by simp⟩, fun _ _ _ => hstore, fun _ => hstore, fun _ _ _ => hstore,
      fun _ _ hr => by cases hr⟩
  | @called entry position p written hheard htag hplaced hm hnew hcall =>
    rcases call_committed hm (add_call hcall) with
      ⟨hstore, e, hr⟩ | ⟨p', reply, hnext, hcommitted, hr⟩
    · rcases written with ⟨⟨⟩⟩ | e | _ <;> cases hr
      exact ⟨.inl ⟨hstore, fun _ hr => by cases hr⟩, fun _ _ _ => hstore, fun _ => hstore,
        fun _ _ _ => hstore, fun _ _ hr => by cases hr⟩
    have hwritten : written = reply := by
      rcases written with ⟨⟨⟩⟩ | e | _ <;> rcases reply with ⟨⟨⟩⟩ | e' | _ <;> cases hr <;> rfl
    subst hwritten
    have hstep := (Parsed.step_of_next hnext).1
    obtain ⟨hslots, hmaster⟩ : p'.slots = p.slots.insert (deriveAccount master accountIndex).tag
        ⟨{ Account.derive master accountIndex with wotsIndex := position }, none, none⟩ ∧
        p'.master = p.master := by
      cases hstep with
      | add _ _ _ _ hslots hmaster => exact ⟨hslots, hmaster⟩
    refine ⟨.inr ⟨entry, position, p, p', written, hheard, hplaced, hm, hnew, hslots, hmaster,
      hcommitted, ?_⟩, fun q hq hheld => ?_, fun hnone => ?_, fun e hr hother => ?_,
      fun found q hr hq hown scope cancel n entries hentries => ?_⟩
    · intro restored
      rcases written with ⟨⟨⟩⟩ | e | _ <;> simp [Reply.map, Reply.mapErr, eq_comm]
    · cases hm.symm.trans hq
      exact absurd hnew hheld
    · exact absurd hplaced (hnone entry position hheard)
    · rcases written with ⟨⟨⟩⟩ | cause | _ <;> cases hr
      exact absurd rfl (hother _ cause)
    · rcases written with ⟨⟨⟩⟩ | cause | _ <;> cases hr
      cases hcommitted.hmemory.symm.trans hq
      have haddress := addressAt_added hq hown hstep
      rw [hplaced.derives] at haddress
      have hget : p'.slots.get? (deriveAccount master accountIndex).tag =
          some ⟨{ Account.derive master accountIndex with wotsIndex := position }, none, none⟩ := by
        rw [hslots, OrdMap.get?_insert, if_pos rfl]
      exact reconcile_inSync hq hget rfl haddress hentries htag

end

section
attribute [local instance] Crypto.copying

/-- The store that the first commands of `growing` leave, open. -/
def grown (commands : ℕ) : Option (Opened UnixMedium) :=
  let w := World.nowhere.execAll [] ((growing (.replicate seedLen 9)).take commands)
  w.handle.map fun ks => ⟨ks, ⟨w.disk, [], []⟩⟩

/-- The index restored for the first account, where the chain has its second key, and the master the
store then holds. -/
def restoredSecond (store : Opened UnixMedium) : Option (WotsIndex × Option Secret) :=
  match restoreAsking sevens 0 (some 3) .never
    ⟨store, ⟨[.ok ⟨derivedAddressAt sevens 0 ⟨1⟩, 5⟩], [], [], [], []⟩⟩ with
  | (.ok ⟨found, none⟩, s') => s'.store.ks.memory.map fun q => (found.index, q.master)
  | _ => none

/-- Restored where the node says the second key is: reconciled there, it is in sync. -/
theorem restore_never_guesses_second : ∃ (s s' : Session UnixMedium) (found : RestoredAccount)
    (n n' : Node), restoreAsking sevens 0 (some 3) .never s = (.ok ⟨found, none⟩, s') ∧
      found.index = ⟨1⟩ ∧ reconcileAccountWith s'.store.ks found.tag (.master sevens) .diagnostic
        .never n = (.ok (.inSync ⟨1⟩ found.address found.balance), n') := by
  have hrun : (grown 2).bind restoredSecond = some (⟨1⟩, some sevens) := by decide +kernel
  obtain ⟨store, -, hrun⟩ := Option.bind_eq_some_iff.mp hrun
  unfold restoredSecond at hrun
  split at hrun
  · next found s' hrestore =>
    obtain ⟨q, hq, hfound⟩ := Option.map_eq_some_iff.mp hrun
    obtain ⟨hindex, hmaster⟩ := Prod.mk.inj hfound
    obtain ⟨n', hsync⟩ := (restore_never_guesses hrestore).2.2.2.2 found q rfl hq hmaster .diagnostic
      .never ⟨[.ok ⟨found.address, found.balance⟩], [], [], [], []⟩ [] rfl
    rw [hindex] at hsync
    exact ⟨_, s', found, _, n', hrestore, hindex, hsync⟩
  · cases hrun

end

end MochimoWallet.Cli
