import MochimoWallet.Cli.Restore
import MochimoWallet.Wallet.Gate

/-!
# A wallet rebuilt from its master

With nothing but the master, a wallet is rebuilt one `restore` at a time, each of which asks the
chain where one account stands; the process may end anywhere between. `Agrees` is what every one of
them keeps: the store's accounts stand where the ledger has them. So whichever accounts were
restored, however often, in whatever order, the wallet opens with every account of its store
reconciled (`rebuilds_in_step`).
-/

namespace MochimoWallet.Cli

open Codec Keystore Session Wallet

section
variable [Crypto]

/-- The access an account's kind needs, where the master is told. -/
def accessOf (master : Secret) (account : Account) : KeyAccess :=
  match account.kind with
  | .derived => .master master
  | .imported => .storedRoot

/-- The store is of the master, and every account in it stands where the ledger has it. -/
structure Agrees (ledger : Tag → Option LedgerEntry) (master : Secret) (p : Parsed) : Prop where
  hmaster : p.master = some master
  accounts : ∀ tag slot, p.slots.get? tag = some slot → slot.pending = none ∧
    ∃ key entry, keyAt p.slots slot slot.account.wotsIndex (accessOf master slot.account) = .ok key ∧
      ledger tag = some entry ∧ key.address tag = entry.address

/-- Steps that leave what the directory reads as: other processes' openings and ends, and a power cut
with nothing to lose. -/
def Between (password : Bytes) (w : World) : Event → Prop
  | .create | .open' | .close => True
  | .powerCut => w.flushed password = w.state password
  | .write _ | .spend _ | .resign .. => False

/-- The account a restore added. -/
def restoredBy (accountIndex : UInt32) : Reply (Unfinished RestoreFailure) Restored → List UInt32
  | .ok ⟨_, none⟩ => [accountIndex]
  | .ok ⟨_, some _⟩ | .err _ | .killed => []

/-- The handle a command leaves: none once the process has ended. -/
def handleAfter {ε α : Type} : Reply ε α → Keystore → Option Keystore
  | .killed, _ => none
  | .ok _, ks | .err _, ks => some ks

/-- A run of restores whose node answers what the ledger has; and the accounts they added, the newest
first. -/
inductive Rebuild (password : Bytes) (ledger : Tag → Option LedgerEntry) (master : Secret) (w : World) :
    World → List UInt32 → Prop where
  | start : Rebuild password ledger master w w []
  | restore {w' : World} {added : List UInt32} {ks : Keystore} {accountIndex : UInt32}
      {scanTo : Option UInt32} {cancel : Cancel} {fates : List Fate} {calls : List MediumCall}
      {node : Node} {reply : Reply (Unfinished RestoreFailure) Restored} {s : Session UnixMedium}
      (hrun : Rebuild password ledger master w w' added) (hks : w'.handle = some ks)
      (hcall : restoreAsking master accountIndex scanTo cancel ⟨⟨ks, ⟨w'.disk, fates, calls⟩⟩, node⟩ =
        (reply, s))
      (honest : ∀ tag entry, (tag, entry) ∈ s.node.heard → ledger tag = some entry) :
      Rebuild password ledger master w
        { w' with disk := s.store.medium.disk, handle := handleAfter reply s.store.ks }
        (restoredBy accountIndex reply ++ added)
  | between {w' w'' : World} {added : List UInt32} {e : Event}
      (hrun : Rebuild password ledger master w w' added) (hok : Between password w' e)
      (hstep : w'.Step password e w'') : Rebuild password ledger master w w'' added

variable {password : Bytes} {ledger : Tag → Option LedgerEntry} {master : Secret} {p q : Parsed}

/-! ## What a restore keeps -/

/-- An account that is added where the ledger has it joins those that stand there. -/
theorem Agrees.added (h : Agrees ledger master p) {accountIndex : UInt32} {position : WotsIndex}
    {entry : LedgerEntry} (ks : Keystore)
    (hnext : p.next (.add { Account.derive master accountIndex with wotsIndex := position }) = .ok q)
    (hledger : ledger (deriveAccount master accountIndex).tag = some entry)
    (hderives : derivedAddressAt master accountIndex position = entry.address) :
    Agrees ledger master q := by
  have hlater : p.Later q := .single ⟨_, hnext⟩
  have hmaster := hlater.master h.hmaster
  have hstep := (Parsed.step_of_next hnext).1
  have haddress : (ks.holding q).addressAt (deriveAccount master accountIndex).tag position
      (.master master) = .ok (derivedAddressAt master accountIndex position) :=
    addressAt_added rfl hmaster hstep
  refine ⟨hmaster, fun tag slot hslot => ?_⟩
  cases hstep with
  | @add account incoming htag hroot hstream hnew hslots hm =>
  rw [hslots, OrdMap.get?_insert] at hslot
  split at hslot
  · next heq =>
    obtain rfl : tag = (deriveAccount master accountIndex).tag := heq
    cases hslot
    obtain ⟨slot, key, hslot, hkey, hat⟩ := (addressAt_eq_ok rfl).mp haddress
    have hget : q.slots.get? (deriveAccount master accountIndex).tag =
        some ⟨{ Account.derive master accountIndex with wotsIndex := position }, none, none⟩ := by
      rw [hslots]
      exact (OrdMap.get?_insert ..).trans (if_pos rfl)
    cases hget.symm.trans hslot
    exact ⟨rfl, key, entry, hkey, hledger, hat.symm.trans hderives⟩
  · obtain ⟨hopen, key, entry', hkey, hledger', hat⟩ := h.accounts tag slot hslot
    exact ⟨hopen, key, entry', keyAt_later hlater slot hslot rfl rfl hkey, hledger', hat⟩

/-- What a rebuild has in its directory. -/
def Rebuilt (ledger : Tag → Option LedgerEntry) (master : Secret) (added : List UInt32) (p : Parsed) :
    Prop :=
  Agrees ledger master p ∧
    ∀ i ∈ added, ∃ slot, p.slots.get? (deriveAccount master i).tag = some slot

/-- What a restore whose node is honest leaves of it. -/
theorem Rebuilt.restore (hl : Crypto.Lawful) {w : World} {added : List UInt32} {ks : Keystore}
    {accountIndex : UInt32} {scanTo : Option UInt32} {cancel : Cancel} {fates : List Fate}
    {calls : List MediumCall} {node : Node} {reply : Reply (Unfinished RestoreFailure) Restored}
    {s : Session UnixMedium} (hs : w.Sound password) (hp : w.state password = some p)
    (h : Rebuilt ledger master added p) (hks : w.handle = some ks)
    (hcall : restoreAsking master accountIndex scanTo cancel ⟨⟨ks, ⟨w.disk, fates, calls⟩⟩, node⟩ =
      (reply, s))
    (honest : ∀ tag entry, (tag, entry) ∈ s.node.heard → ledger tag = some entry) :
    let w' : World := { w with disk := s.store.medium.disk, handle := handleAfter reply s.store.ks }
    w'.Sound password ∧ ∃ q, w'.state password = some q ∧
      Rebuilt ledger master (restoredBy accountIndex reply ++ added) q := by
  have hkept (hstore : s.store = ⟨ks, ⟨w.disk, fates, calls⟩⟩)
      (hnone : restoredBy accountIndex reply = []) (hlive : reply ≠ .killed) :
      let w' : World := { w with disk := s.store.medium.disk, handle := handleAfter reply s.store.ks }
      w'.Sound password ∧ ∃ q, w'.state password = some q ∧
        Rebuilt ledger master (restoredBy accountIndex reply ++ added) q := by
    rw [hstore, hnone]
    refine ⟨fun k q hk hq => ?_, p, hp, h⟩
    have hk : handleAfter reply ks = some k := hk
    rcases reply with r | e | _
    · exact hs k q (hks.trans hk) hq
    · exact hs k q (hks.trans hk) hq
    · exact absurd rfl hlive
  cases restore_cases hcall with
  | refused hstore => exact hkept hstore rfl (by simp)
  | held hstore => exact hkept hstore rfl (by simp)
  | @called entry position p' written hheard htag hplaced hm hnew hwrite =>
  have hm : ks.memory = some p' := hm
  cases hp.symm.trans (hs ks p' hks hm).2
  have hledger := honest _ entry (hheard ▸ List.mem_cons_self)
  have href := World.refined_write hl hs hks (add_call hwrite)
  generalize hreply : (written.mapErr fun cause => Unfinished.refused (RestoreFailure.cannotStore
    (deriveAccount master accountIndex).tag cause)).map _ = reply
  have hhandle : handleAfter reply s.store.ks = survivor (written.map fun _ => (none : Option AdvanceReceipt))
      s.store.ks := by
    rw [← hreply]
    cases written <;> rfl
  have hsound : World.Sound { w with
      disk := s.store.medium.disk
      handle := handleAfter reply s.store.ks } password := by
    intro k q hk hq
    exact href.sound k q (hhandle ▸ hk) hq
  refine ⟨hsound, ?_⟩
  have hadds {q : Parsed} (hnext : p.next (.add { Account.derive master accountIndex with
      wotsIndex := position }) = .ok q) : Rebuilt ledger master (accountIndex :: added) q := by
    refine ⟨h.1.added ks hnext hledger hplaced.derives, fun i hi => ?_⟩
    have hstep := (Parsed.step_of_next hnext).1
    cases hstep with
    | add htag' hroot hstream hnew' hslots hmaster =>
    rcases List.mem_cons.mp hi with rfl | hi
    · rw [hslots]
      exact ⟨_, (OrdMap.get?_insert ..).trans (if_pos rfl)⟩
    · obtain ⟨slot, hslot⟩ := h.2 i hi
      obtain ⟨slot', hslot', -⟩ := Parsed.Later.key (.single ⟨_, hnext⟩) hslot
      exact ⟨slot', hslot'⟩
  rcases written with ⟨⟨⟩⟩ | e | _
  -- The write returned, so the account is in the store the handle holds.
  · cases hreply
    rcases call_committed hm (add_call hwrite) with ⟨-, e, hr⟩ | ⟨q, r, hnext, hcommitted, hr⟩
    · cases hr
    · rcases r with ⟨⟨⟩⟩ | e | _ <;> cases hr
      exact ⟨q, (hsound s.store.ks q rfl hcommitted.hmemory).2, hadds hnext⟩
  all_goals
    cases hreply
    have hchange := href.change
    rw [hp] at hchange
    rcases hq : World.state { w with disk := s.store.medium.disk } password with _ | q
    · cases (show World.Change _ (some p) none from hq ▸ hchange)
    · cases (show World.Change _ (some p) (some q) from hq ▸ hchange) with
      | same => exact ⟨p, hq, h⟩
      | wrote he hnext =>
        cases he
        obtain ⟨hagrees, hmem⟩ := hadds hnext
        exact ⟨q, hq, hagrees, fun i hi => hmem i (List.mem_cons_of_mem _ hi)⟩

theorem Between.state_eq (hl : Crypto.Lawful) {w w' : World} {e : Event} (hs : w.Sound password)
    (hp : w.state password = some p) (hok : Between password w e) (hstep : w.Step password e w') :
    w'.state password = some p := by
  by_cases he : e = .powerCut
  · subst he
    have hflushed : w.flushed password = w.state password := hok
    cases hstep with
    | powerCut hentry =>
      rcases hentry with rfl | rfl
      · exact hp
      · exact hflushed.trans hp
  have hchange := (hstep.refines hl hs he).change
  rw [hp] at hchange
  generalize w'.state password = x at hchange
  cases hchange with
  | same => rfl
  | wrote he => subst he; cases hok

/-- Whatever was restored, and wherever the process ended, the store stands as the ledger has it. -/
theorem Rebuild.rebuilt (hl : Crypto.Lawful) {w w' : World} {added : List UInt32}
    (hs : w.Sound password) (hp : w.state password = some p) (h : Agrees ledger master p)
    (hrun : Rebuild password ledger master w w' added) :
    w'.Sound password ∧ ∃ q, w'.state password = some q ∧ Rebuilt ledger master added q := by
  induction hrun with
  | start => exact ⟨hs, p, hp, h, by simp⟩
  | restore _ hks hcall honest ih =>
    obtain ⟨hsound, q, hq, hrebuilt⟩ := ih
    exact hrebuilt.restore hl hsound hq hks hcall honest
  | between _ hok hstep ih =>
    obtain ⟨hsound, q, hq, hrebuilt⟩ := ih
    exact ⟨hstep.sound hl hsound, q, hok.state_eq hl hsound hq hstep, hrebuilt⟩

/-! ## What opens afterwards -/

theorem accessFor_of {ks : Keystore} (hm : ks.memory = some q) {tag : Tag} {slot : Slot}
    (hslot : q.slots.get? tag = some slot) :
    accessFor ks tag (some master) = .ok (accessOf master slot.account) := by
  unfold accessFor
  rw [(viewOf_eq_ok hm).mpr ⟨slot, hslot, rfl⟩, ok_bind]
  unfold accessOf
  dsimp only
  cases slot.account.kind <;> rfl

/-- What an account that stands where the ledger has it is found to be. -/
def InSync (ledger : Tag → Option LedgerEntry) (q : Parsed) (tag : Tag)
    (found : Except Divergence AccountStatus) : Prop :=
  ∃ slot entry, q.slots.get? tag = some slot ∧ ledger tag = some entry ∧
    found = .ok (.inSync slot.account.wotsIndex entry.address entry.balance)

/-- An opening that hears what the ledger has of each account finds each in sync. -/
theorem Agrees.verdicts (h : Agrees ledger master q) {ks : Keystore} (hm : ks.memory = some q)
    {tags : List Tag} {n m : Node} {verdicts : List Verdict}
    (hverdicts : Verdicts ks (some master) tags n verdicts m)
    (htags : ∀ tag ∈ tags, ∃ slot, q.slots.get? tag = some slot) :
    ∀ {heard : List LedgerEntry} {entries : List (Except Error LedgerEntry)},
      List.Forall₂ (fun tag entry => ledger tag = some entry) tags heard →
      n.entries = heard.map .ok ++ entries → ∀ v ∈ verdicts, InSync ledger q v.1 v.2 := by
  induction hverdicts with
  | nil => exact fun _ _ _ hmem => by cases hmem
  | unreadable haccess hrest ih =>
    obtain ⟨slot, hslot⟩ := htags _ List.mem_cons_self
    rw [accessFor_of hm hslot] at haccess
    cases haccess
  | @reconciled tag access found tags n u m verdicts haccess hfound hrest ih =>
    intro heard entries hheard hentries
    obtain ⟨slot, hslot⟩ := htags tag List.mem_cons_self
    rw [accessFor_of hm hslot] at haccess
    cases haccess
    cases hheard with
    | @cons _ entry _ heard hledger hheard =>
    obtain ⟨hopen, key, entry', hkey, hledger', hat⟩ := h.accounts tag slot hslot
    cases hledger'.symm.trans hledger
    have haddress := (addressAt_eq_ok hm).mpr ⟨slot, key, hslot, hkey, hat.symm⟩
    have htag : tagOf entry.address = tag := by
      rw [← hat]
      exact key.tagOf_address tag
    rw [reconcile_heard hm hslot hentries htag, hopen] at hfound
    dsimp only at hfound
    unfold reconcileClosed at hfound
    rw [haddress, orCannot, Call.check_ok, Call.pure_bind, Call.ite_apply, if_pos rfl] at hfound
    obtain ⟨hr, rfl⟩ := Prod.mk.inj hfound
    intro v hv
    rcases List.mem_cons.mp hv with rfl | hv
    · refine ⟨slot, entry, hslot, hledger, ?_⟩
      rcases found with d | status <;> cases hr
      rfl
    · exact ih (fun t ht => htags t (List.mem_cons_of_mem _ ht)) hheard rfl v hv

omit [Crypto] in
/-- Where nothing diverged, the accounts are all there were. -/
theorem partitionOf_reconciled {verdicts : List Verdict}
    (h : ∀ v ∈ verdicts, ∃ status, v.2 = .ok status) :
    (partitionOf verdicts).diverged = [] ∧
      (partitionOf verdicts).accounts.map (fun a => ((a.1, .ok a.2) : Verdict)) = verdicts := by
  induction verdicts with
  | nil => exact ⟨rfl, rfl⟩
  | cons v verdicts ih =>
    obtain ⟨hdiverged, haccounts⟩ := ih fun v hv => h v (List.mem_cons_of_mem _ hv)
    obtain ⟨tag, found⟩ := v
    obtain ⟨status, rfl⟩ := h (tag, found) List.mem_cons_self
    exact ⟨hdiverged, congrArg _ haccounts⟩

/-- However a wallet was rebuilt from its master, the accounts that were added are there, and it opens
with every account of its store in sync with the ledger. -/
theorem rebuilds_in_step (hl : Crypto.Lawful) {w w' : World} {added : List UInt32}
    (hs : w.Sound password) (hp : w.state password = some p) (h : Agrees ledger master p)
    (hrun : Rebuild password ledger master w w' added) :
    ∃ q, w'.state password = some q ∧
      (∀ i ∈ added, (deriveAccount master i).tag ∈ q.slots.keys) ∧
      ∀ (s : Session UnixMedium) heard entries, w'.handle = some s.store.ks → s.store.ks.memory ≠ none →
        List.Forall₂ (fun tag entry => ledger tag = some entry) q.slots.keys heard →
        s.node.entries = heard.map .ok ++ entries →
        ∃ accounts s', openAsking (some master) .never s = (.ok ⟨accounts, []⟩, s') ∧
          accounts.map Prod.fst = q.slots.keys ∧
          ∀ a ∈ accounts, InSync ledger q a.1 (.ok a.2) := by
  obtain ⟨hsound, q, hq, hagrees, hadded⟩ := hrun.rebuilt hl hs hp h
  refine ⟨q, hq, fun i hi => ?_, fun s heard entries hks hlive hheard hentries => ?_⟩
  · obtain ⟨slot, hslot⟩ := hadded i hi
    exact OrdMap.mem_keys_iff.mpr ⟨slot, hslot⟩
  · obtain ⟨q', hm⟩ := Option.ne_none_iff_exists'.mp hlive
    cases hq.symm.trans (hsound _ q' hks hm).2
    obtain ⟨verdicts, m, hverdicts, hopen⟩ := openAsking_verdicts (some master) hm
    have hsync := hagrees.verdicts hm hverdicts (fun tag htag => OrdMap.mem_keys_iff.mp htag) hheard hentries
    have hfound : ∀ v ∈ verdicts, ∃ status, v.2 = .ok status := by
      intro v hv
      obtain ⟨slot, entry, -, -, hfound⟩ := hsync v hv
      exact ⟨_, hfound⟩
    obtain ⟨hdiverged, haccounts⟩ := partitionOf_reconciled hfound
    refine ⟨(partitionOf verdicts).accounts, { s with node := m }, ?_, ?_, fun a ha => ?_⟩
    · rw [hopen, if_neg (by simp [hdiverged])]
      rw [show partitionOf verdicts = ⟨(partitionOf verdicts).accounts, (partitionOf verdicts).diverged⟩
        from rfl, hdiverged]
    · have htags := congrArg (List.map Prod.fst) haccounts
      rw [List.map_map, hverdicts.tags_eq] at htags
      exact htags
    · exact hsync (a.1, .ok a.2) (haccounts ▸ List.mem_map_of_mem ha)

end

section
attribute [local instance] Crypto.copying

/-- A store of the master, with no account in it. -/
@[irreducible] def blank : World := World.nowhere.execAll [] ((growing (.replicate seedLen 9)).take 2)

/-- What the ledger has: the first account, at its second key. -/
def secondEntry : LedgerEntry := ⟨derivedAddressAt sevens 0 ⟨1⟩, 5⟩

def secondLedger (tag : Tag) : Option LedgerEntry :=
  if tag = (deriveAccount sevens 0).tag then some secondEntry else none

def hearing : Node := ⟨[.ok secondEntry], [], [], [], []⟩

/-- The first account restored there: the store before, what was heard, and the accounts afterwards. -/
def restoredBlank : Option (Option Secret × List Tag × List (Tag × LedgerEntry) × List Tag) := do
  let ks ← blank.handle
  let p ← ks.memory
  let s : Session UnixMedium := ⟨⟨ks, ⟨blank.disk, [], []⟩⟩, hearing⟩
  match restoreAsking sevens 0 (some 3) .never s with
  | (.ok ⟨_, none⟩, s) =>
    let q ← s.store.ks.memory
    some (p.master, p.slots.keys, s.node.heard, q.slots.keys)
  | _ => none

theorem sound_blank : blank.Sound [] := by
  unfold blank
  exact (World.run_of_commands [] World.nowhere _).sound Crypto.copying_lawful (World.sound_of_closed rfl)

/-- The first account is restored, and the wallet opened. -/
theorem rebuilds_in_step_second : ∃ (w : World) (accounts : List (Tag × AccountStatus))
    (s s' : Session UnixMedium), Rebuild [] secondLedger sevens blank w [0] ∧
      w.handle = some s.store.ks ∧ openAsking (some sevens) .never s = (.ok ⟨accounts, []⟩, s') ∧
      accounts.map Prod.fst = [(deriveAccount sevens 0).tag] := by
  have hrun : restoredBlank = some (some sevens, [], [((deriveAccount sevens 0).tag, secondEntry)],
      [(deriveAccount sevens 0).tag]) := by decide +kernel
  unfold restoredBlank at hrun
  obtain ⟨ks, hks, hrun⟩ := Option.bind_eq_some_iff.mp hrun
  obtain ⟨p, hm, hrun⟩ := Option.bind_eq_some_iff.mp hrun
  dsimp only at hrun
  split at hrun
  swap
  · cases hrun
  next found s hcall =>
  obtain ⟨q, hq, hrun⟩ := Option.bind_eq_some_iff.mp hrun
  simp only [Option.some.injEq, Prod.mk.injEq] at hrun
  obtain ⟨hmaster, hnone, hheard, hkeys⟩ := hrun
  have hagrees : Agrees secondLedger sevens p := by
    refine ⟨hmaster, fun tag slot hslot => ?_⟩
    have hmem := OrdMap.mem_keys_iff.mpr ⟨slot, hslot⟩
    rw [hnone] at hmem
    cases hmem
  have hrebuild : Rebuild [] secondLedger sevens blank { blank with
      disk := s.store.medium.disk
      handle := some s.store.ks } [0] := by
    refine .restore .start hks hcall fun tag entry hmem => ?_
    rw [hheard, List.mem_singleton] at hmem
    obtain ⟨rfl, rfl⟩ := Prod.mk.inj hmem
    exact if_pos rfl
  have hp := (sound_blank ks p hks hm).2
  obtain ⟨q', hstate, -, hopens⟩ :=
    rebuilds_in_step Crypto.copying_lawful sound_blank hp hagrees hrebuild
  obtain ⟨hsound, -⟩ := hrebuild.rebuilt Crypto.copying_lawful sound_blank hp hagrees
  cases hstate.symm.trans (hsound s.store.ks q rfl hq).2
  rw [hkeys] at hopens
  obtain ⟨accounts, s', hopen, haccounts, -⟩ := hopens ⟨s.store, hearing⟩ [secondEntry] [] rfl
    (by rw [hq]; simp) (.cons (if_pos rfl) .nil) rfl
  exact ⟨_, accounts, ⟨s.store, hearing⟩, s', hrebuild, rfl, hopen, haccounts⟩

end

end MochimoWallet.Cli
