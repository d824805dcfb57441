import MochimoWallet.Keystore.Run

/-!
# One digest per position

A store is a signer of one-time keys: its ledger is what its directory reads as, and
its log is what was signed. Every step of a run that loses no entry is a step of that
signer (`Step.signer`), so two signatures at one position are over one digest.

A power cut can put an older entry back. `Kept` is what then has to hold of both
entries, the one processes read and the one the device has: each signature's position
is spent in both. A write that returned has flushed its entry, so a receipt's
reservation is in both; an opened store may read an entry that was never flushed, so
a signature by reservation is safe exactly where that entry's reservation is the
device's too (`Flushed`).
-/

namespace MochimoWallet.Keystore

open Codec OneTime

section
variable [Crypto]

/-! ## The signer a store is -/

/-- The ledger of what a directory entry reads as. -/
def ledgerOf (x : Option Parsed) : Ledger Tag Digest := fun tag => x.bind (·.ledger tag)

namespace World

variable {password : Bytes} {w w' : World} {e : Event}

theorem Change.ledger {x y : Option Parsed} (h : Change e x y) :
    (ledgerOf x).Step (ledgerOf y) := by
  cases h with
  | same => exact .same rfl
  | created h => exact .same rfl
  | wrote h hnext => exact (Parsed.step_of_next hnext).1.touched.ledger

def signer (w : World) (password : Bytes) : Signer Tag Digest := ⟨ledgerOf (w.state password), w.signed.map (·.toRelease)⟩

/-- A slot with an open reservation, as the register that releases it. -/
theorem register_released {x : Option Parsed} {p : Parsed} (hx : x = some p) (hwf : p.Wf) {tag : Tag}
    {slot : Slot} {pending : Pending} (hslot : p.slots.get? tag = some slot)
    (hopen : slot.pending = some pending) :
    ledgerOf x tag = some slot.register ∧ slot.register.next = pending.spentIndex.pos + 1 ∧
      slot.register.opened = some pending.digest := by
  subst hx
  exact ⟨Parsed.ledger_eq_some.mpr ⟨slot, hslot, rfl⟩,
    Slot.register_of_pending (hwf.slots hslot) hopen⟩

/-- Every step but a power cut is a step of the signer. -/
theorem Step.signer (hl : Crypto.Lawful) (h : w.Step password e w') (hs : w.Sound password)
    (he : e ≠ .powerCut) : Signer.Step (w.signer password) (w'.signer password) := by
  have hmove : Signer.Step (w.signer password) ⟨ledgerOf (w'.state password), w.signed.map (·.toRelease)⟩ :=
    .move (h.refines hl hs he).change.ledger
  cases h with
  | create | open' | write | close => exact hmove
  | powerCut => exact absurd rfl he
  | @spend ks digest receipt access hks hheld =>
    rcases hx : ks.spendRelease digest receipt access with _ | x
    · exact .move (.same rfl)
    · obtain ⟨p, hm⟩ := live_of_released (.inl ⟨digest, receipt, access, hx⟩)
      obtain ⟨-, hstate⟩ := hs ks p hks hm
      obtain ⟨slot, pending, key, hslot, hopen, -, -, rfl⟩ := spendRelease_eq_some hm hx
      obtain ⟨hi, hn, ho⟩ := register_released hstate (wf_of_reading hstate) hslot hopen
      exact .release hi hn ho
  | @resign ks tag access hks =>
    rcases hx : ks.resignRelease tag access with _ | x
    · exact .move (.same rfl)
    · obtain ⟨p, hm⟩ := live_of_released (.inr ⟨tag, access, hx⟩)
      obtain ⟨-, hstate⟩ := hs ks p hks hm
      obtain ⟨slot, pending, key, hslot, hopen, -, rfl⟩ := resignRelease_eq_some hm hx
      obtain ⟨hi, hn, ho⟩ := register_released hstate (wf_of_reading hstate) hslot hopen
      exact .release hi hn ho

/-- A signature that a step adds was made in the memory of the handle. -/
theorem Step.signed_cases (h : w.Step password e w') {x : Released} (hx : x ∈ w'.signed) :
    x ∈ w.signed ∨ ∃ ks p, w.handle = some ks ∧ ks.memory = some p ∧ x.MadeIn p := by
  cases h with
  | create | open' | write | close | powerCut => exact .inl hx
  | @spend ks digest receipt access hks hheld =>
    rcases List.mem_append.mp hx with hx | hx
    · exact .inr ⟨ks, (madeIn_of_released (.inl ⟨digest, receipt, access, Option.mem_toList.mp hx⟩)).imp
        fun _ h => ⟨hks, h⟩⟩
    · exact .inl hx
  | @resign ks tag access hks =>
    rcases List.mem_append.mp hx with hx | hx
    · exact .inr ⟨ks, (madeIn_of_released (.inr ⟨tag, access, Option.mem_toList.mp hx⟩)).imp
        fun _ h => ⟨hks, h⟩⟩
    · exact .inl hx

/-- A world of the run had the reservation, and the key of its position made this signature of it. -/
def Made (password : Bytes) (ok : World → Event → Prop) (w w' : World) (x : Released) : Prop :=
  ∃ v p, Run password ok w v ∧ Run password ok v w' ∧ v.state password = some p ∧ x.MadeIn p

theorem Run.made (hl : Crypto.Lawful) {ok : World → Event → Prop} (hs : w.Sound password)
    (hnew : w.signed = []) (hrun : Run password ok w w') : ∀ x ∈ w'.signed, Made password ok w w' x := by
  induction hrun with
  | refl =>
    rw [hnew]
    exact fun x hx => by cases hx
  | @tail u w' hrun hstep ih =>
    intro x hx
    obtain ⟨e, hok, hstep⟩ := hstep
    rcases hstep.signed_cases hx with hx | ⟨ks, p, hks, hm, hmade⟩
    · obtain ⟨v, p, hv, hu, hp, hmade⟩ := ih x hx
      exact ⟨v, p, hv, hu.tail ⟨e, hok, hstep⟩, hp, hmade⟩
    · exact ⟨u, p, hrun, .single ⟨e, hok, hstep⟩, (Run.sound hl hrun hs ks p hks hm).2, hmade⟩

/-- In every run without a power cut, all signatures at one position of one account are over one
digest: each is what the key of the position made of the digest that a store of the run had reserved
there. -/
theorem signed_one_digest (hl : Crypto.Lawful) (hclosed : w.handle = none) (hnew : w.signed = [])
    (hrun : Run password (fun _ e => e.isPowerCut = false) w w') :
    (∀ x ∈ w'.signed, ∀ y ∈ w'.signed, x.name = y.name → x.position = y.position →
      x.message = y.message) ∧
    ∀ x ∈ w'.signed, Made password (fun _ e => e.isPowerCut = false) w w' x := by
  have hstart : (w.signer password).Sound := by
    rw [signer, hnew]
    exact Signer.sound_start _
  have hend : (w'.signer password).Sound :=
    hrun.invariant hl (sound_of_closed hclosed) hstart fun hs hv hok hstep =>
      (hstep.signer hl hs (Event.ne_powerCut hok)).sound hv
  exact ⟨fun x hx y hy => hend.agree _ (List.mem_map_of_mem hx) _ (List.mem_map_of_mem hy),
    hrun.made hl (sound_of_closed hclosed) hnew⟩

end World

end

/-! ### A run -/

section

attribute [local instance] Crypto.plain

theorem signed_pair {log : List Released} {a b : Release Tag Digest}
    (h : log.map (·.toRelease) = [a, b]) :
    ∃ x y, log = [x, y] ∧ x.toRelease = a ∧ y.toRelease = b := by
  obtain ⟨x, rest, rfl, hx, h⟩ := List.map_eq_cons_iff.mp h
  obtain ⟨y, rest, rfl, hy, h⟩ := List.map_eq_cons_iff.mp h
  cases List.map_eq_nil_iff.mp h
  exact ⟨x, y, rfl, hx, hy⟩

/-- A reservation signed by its receipt, and again after a reopen. -/
def signingTwice : List World.Command :=
  founding ++ [reserving (.replicate 32 1) [], spending (.replicate 32 1), .close, opening, resigning]

/-- The signatures of that run are two, at one position and over one digest, and the key of the position
made both. -/
theorem signed_one_digest_signingTwice :
    ∃ x y, (World.nowhere.execAll [] signingTwice).signed = [x, y] ∧ x.position = y.position ∧
      x.message = y.message ∧
      World.Made [] (fun _ e => e.isPowerCut = false) World.nowhere (World.nowhere.execAll [] signingTwice) x ∧
      World.Made [] (fun _ e => e.isPowerCut = false) World.nowhere (World.nowhere.execAll [] signingTwice) y := by
  have hrun : World.Run [] (fun _ e => e.isPowerCut = false) World.nowhere
      (World.nowhere.execAll [] signingTwice) := World.run_execAll (by decide +kernel)
  obtain ⟨hagree, hmade⟩ := World.signed_one_digest Crypto.plain_lawful rfl rfl hrun
  have hsigned : (World.nowhere.execAll [] signingTwice).signed.map (·.toRelease) =
    [⟨zeroAccount.tag, 0, .replicate 32 1⟩, ⟨zeroAccount.tag, 0, .replicate 32 1⟩] := by
      decide +kernel
  obtain ⟨x, y, hlog, hx, hy⟩ := signed_pair hsigned
  rw [hlog] at hagree hmade
  have hname : x.name = y.name := congrArg Release.name (hx.trans hy.symm)
  have hposition : x.position = y.position := congrArg Release.position (hx.trans hy.symm)
  exact ⟨x, y, hlog, hposition, hagree x (by simp) y (by simp) hname hposition, hmade x (by simp),
    hmade y (by simp)⟩

end

/-! ## Power cuts -/

section
variable [Crypto]

namespace World

variable {password : Bytes} {w w' : World} {e : Event}

/-- The open reservation of an account, in what an entry reads as. -/
def openBlock (x : Option Parsed) (tag : Tag) : Option Pending :=
  x.bind fun p => (p.slots.get? tag).bind (·.pending)

/-- The device's entry has the open reservation that processes read: the directory was flushed
since the reservation was recorded. -/
def Flushed (password : Bytes) (w : World) (tag : Tag) : Prop :=
  openBlock (w.flushed password) tag = openBlock (w.state password) tag

instance (password : Bytes) (w : World) (tag : Tag) : Decidable (Flushed password w tag) :=
  inferInstanceAs (Decidable (_ = _))

/-- The steps of a run in which a reservation is signed again only once it is flushed. -/
def ResignsFlushed (password : Bytes) (w : World) (e : Event) : Prop :=
  ∀ tag x, e = .resign tag (some x) → Flushed password w tag

/-- What has to hold of both entries: each receipt's index is reached with one block, and each
signature's position is spent with its digest. -/
structure Kept (password : Bytes) (w : World) : Prop where
  receipts : ∀ receipt ∈ w.receipts, ∃ b,
    (ledgerOf (w.state password)).Holds receipt.tag receipt.index.pos b ∧
      (ledgerOf (w.flushed password)).Holds receipt.tag receipt.index.pos b
  signed : ∀ x ∈ w.signed, (ledgerOf (w.state password)).Spent x.name x.position x.message ∧
    (ledgerOf (w.flushed password)).Spent x.name x.position x.message

/-- Both entries after a step have what both had before it. -/
theorem holds_both (hl : Crypto.Lawful) (h : w.Step password e w') (hs : w.Sound password)
    {tag : Tag} {n : ℕ} {b : Option Digest}
    (hb : (ledgerOf (w.state password)).Holds tag n b ∧
      (ledgerOf (w.flushed password)).Holds tag n b) :
    (ledgerOf (w'.state password)).Holds tag n b ∧
      (ledgerOf (w'.flushed password)).Holds tag n b := by
  by_cases he : e = .powerCut
  · subst he
    cases h with
    | powerCut hentry =>
      rcases hentry with rfl | rfl
      · exact ⟨hb.1, hb.1⟩
      · exact ⟨hb.2, hb.2⟩
  · have href := h.refines hl hs he
    have hstate := href.change.ledger.holds hb.1
    refine ⟨hstate, ?_⟩
    rcases href.flushed with hf | hf
    · rw [hf]; exact hb.2
    · rw [hf]; exact hstate

/-- The index an advance's receipt carries is the one its state has. -/
theorem receipt_slot {p p' : Parsed} {op : Op} {receipt : AdvanceReceipt}
    (hnext : p.next op = .ok p') (h : op.receipt p' = some receipt) :
    ∃ slot, p'.slots.get? receipt.tag = some slot ∧ slot.account.wotsIndex = receipt.index := by
  cases (Parsed.step_of_next hnext).1 with
  | adoptMaster | add | persistSettled => cases h
  | persistAdvance hslot hopen hindex hslots hmaster =>
    have hget := hslots ▸ Parsed.get?_write hslot ..
    cases h
    exact ⟨_, hget, by rw [hget]; rfl⟩
  | persistAdvanceTo hslot hopen hahead hslots hmaster =>
    cases h
    exact ⟨_, hslots ▸ Parsed.get?_write hslot .., rfl⟩

/-- A release's position is spent where its reservation is open. -/
theorem spent_release {x : Option Parsed} {p : Parsed} (hx : x = some p) (hwf : p.Wf) {tag : Tag}
    {slot : Slot} {pending : Pending} (hslot : p.slots.get? tag = some slot)
    (hopen : slot.pending = some pending) :
    (ledgerOf x).Spent tag pending.spentIndex.pos pending.digest := by
  obtain ⟨hi, hn, ho⟩ := register_released hx hwf hslot hopen
  exact ⟨_, hi, Register.spent_opened hn ho⟩

theorem openBlock_eq_some {x : Option Parsed} {tag : Tag} {pending : Pending} :
    openBlock x tag = some pending ↔
      ∃ p slot, x = some p ∧ p.slots.get? tag = some slot ∧ slot.pending = some pending := by
  simp only [openBlock, Option.bind_eq_some_iff]
  constructor
  · rintro ⟨p, rfl, slot, hslot, hopen⟩
    exact ⟨p, slot, rfl, hslot, hopen⟩
  · rintro ⟨p, slot, rfl, hslot, hopen⟩
    exact ⟨p, rfl, slot, hslot, hopen⟩

theorem holds_minted {receipt : AdvanceReceipt} (h : Minted password w e w' receipt) :
    ∃ b, (ledgerOf (w'.state password)).Holds receipt.tag receipt.index.pos b ∧
      (ledgerOf (w'.flushed password)).Holds receipt.tag receipt.index.pos b := by
  obtain ⟨hflushed, op, p, p', -, -, hp', hnext, hreceipt⟩ := h
  obtain ⟨slot, hslot, hindex⟩ := receipt_slot hnext hreceipt
  have hb : (ledgerOf (some p')).Holds receipt.tag receipt.index.pos slot.register.block :=
    ⟨slot.register, Parsed.ledger_eq_some.mpr ⟨slot, hslot, rfl⟩,
      hindex ▸ Register.holds_self slot.register⟩
  exact ⟨_, hp' ▸ hb, hflushed ▸ hp' ▸ hb⟩

/-- A signature by receipt spends its position in both entries. -/
theorem spent_spend (hs : w.Sound password) (hk : Kept password w) {ks : Keystore} {digest : Digest}
    {receipt : AdvanceReceipt} {access : KeyAccess} {x : Released}
    (hks : w.handle = some ks) (hheld : receipt ∈ w.receipts)
    (hx : ks.spendRelease digest receipt access = some x) :
    (ledgerOf (w.state password)).Spent x.name x.position x.message ∧
      (ledgerOf (w.flushed password)).Spent x.name x.position x.message := by
  obtain ⟨p, hm⟩ := live_of_released (.inl ⟨digest, receipt, access, hx⟩)
  obtain ⟨-, hstate⟩ := hs ks p hks hm
  obtain ⟨slot, pending, key, hslot, hopen, hindex, -, rfl⟩ := spendRelease_eq_some hm hx
  refine ⟨spent_release hstate (wf_of_reading hstate) hslot hopen, ?_⟩
  -- The receipt's block is the open one, and the device holds it since the advance returned.
  obtain ⟨hi, hn, ho⟩ := register_released hstate (wf_of_reading hstate) hslot hopen
  obtain ⟨b, ⟨r, hr, hb⟩, hflushed⟩ := hk.receipts receipt hheld
  rw [hi] at hr
  cases hr
  have hnext : slot.register.next = receipt.index.pos := congrArg WotsIndex.pos hindex
  have hblock : b = some pending.digest := hb.opened hnext ho
  subst hblock
  rwa [← hnext, hn] at hflushed

/-- A signature by reservation spends its position in the entry it read, and in the device's
exactly when the reservation is flushed. -/
theorem spent_resign (hs : w.Sound password) {ks : Keystore} {tag : Tag} {access : KeyAccess}
    {x : Released} (hks : w.handle = some ks) (hflushed : Flushed password w tag)
    (hx : ks.resignRelease tag access = some x) :
    (ledgerOf (w.state password)).Spent x.name x.position x.message ∧
      (ledgerOf (w.flushed password)).Spent x.name x.position x.message := by
  obtain ⟨p, hm⟩ := live_of_released (.inr ⟨tag, access, hx⟩)
  obtain ⟨-, hstate⟩ := hs ks p hks hm
  obtain ⟨slot, pending, key, hslot, hopen, -, rfl⟩ := resignRelease_eq_some hm hx
  have hblock : openBlock (w.flushed password) tag = some pending :=
    hflushed.trans (openBlock_eq_some.mpr ⟨p, slot, hstate, hslot, hopen⟩)
  obtain ⟨p', slot', hp', hslot', hopen'⟩ := openBlock_eq_some.mp hblock
  exact ⟨spent_release hstate (wf_of_reading hstate) hslot hopen,
    spent_release hp' (wf_of_reading hp') hslot' hopen'⟩

theorem kept_step (hl : Crypto.Lawful) (h : w.Step password e w') (hs : w.Sound password)
    (hk : Kept password w) (hok : ResignsFlushed password w e) : Kept password w' := by
  have hreceipts : ∀ receipt ∈ w.receipts, ∃ b,
      (ledgerOf (w'.state password)).Holds receipt.tag receipt.index.pos b ∧
        (ledgerOf (w'.flushed password)).Holds receipt.tag receipt.index.pos b :=
    fun receipt hmem => (hk.receipts receipt hmem).imp fun b hb => holds_both hl h hs hb
  have hsigned : ∀ x ∈ w.signed, (ledgerOf (w'.state password)).Spent x.name x.position x.message ∧
      (ledgerOf (w'.flushed password)).Spent x.name x.position x.message :=
    fun x hx => holds_both hl h hs (hk.signed x hx)
  refine ⟨fun receipt hmem => ?_, fun x hx => ?_⟩
  · by_cases he : e = .powerCut
    · subst he
      cases h
      exact hreceipts receipt hmem
    · rcases (h.refines hl hs he).receipts receipt hmem with hold | hnew
      · exact hreceipts receipt hold
      · exact holds_minted hnew
  · cases h with
    | create | open' | write | close | powerCut => exact hsigned x hx
    | spend hks hheld =>
      rcases List.mem_append.mp hx with hx | hx
      · exact spent_spend hs hk hks hheld (Option.mem_toList.mp hx)
      · exact hsigned x hx
    | @resign ks tag access hks =>
      rcases List.mem_append.mp hx with hx | hx
      · have hx := Option.mem_toList.mp hx
        exact spent_resign hs hks (hok tag x (by rw [hx])) hx
      · exact hsigned x hx

theorem agree_step (hl : Crypto.Lawful) (h : w.Step password e w') (hs : w.Sound password)
    (hk : Kept password w)
    (hagree : ∀ x ∈ w.signed, ∀ y ∈ w.signed, x.name = y.name → x.position = y.position →
      x.message = y.message) :
    ∀ x ∈ w'.signed, ∀ y ∈ w'.signed, x.name = y.name → x.position = y.position →
      x.message = y.message := by
  by_cases he : e = .powerCut
  · subst he
    cases h
    exact hagree
  · have hsound : (w.signer password).Sound :=
      ⟨List.forall_mem_map.mpr fun x hx => (hk.signed x hx).1,
        List.forall_mem_map.mpr fun x hx => List.forall_mem_map.mpr (hagree x hx)⟩
    have hend := ((h.signer hl hs he).sound hsound).agree
    exact fun x hx y hy => hend _ (List.mem_map_of_mem hx) _ (List.mem_map_of_mem hy)

/-! ### The device's entry is an earlier one -/

/-- The states an entry passes through. -/
def Leads : Option Parsed → Option Parsed → Prop := Relation.ReflTransGen fun x y => ∃ e, Change e x y

theorem Leads.holds {x y : Option Parsed} (h : Leads x y) {tag : Tag} {n : ℕ} {b : Option Digest}
    (hb : (ledgerOf x).Holds tag n b) : (ledgerOf y).Holds tag n b := by
  induction h with
  | refl => exact hb
  | tail _ hstep ih =>
    obtain ⟨e, hstep⟩ := hstep
    exact hstep.ledger.holds ih

theorem leads_step (hl : Crypto.Lawful) (h : w.Step password e w') (hs : w.Sound password)
    (hlead : Leads (w.flushed password) (w.state password)) :
    Leads (w'.flushed password) (w'.state password) := by
  by_cases he : e = .powerCut
  · subst he
    cases h
    exact .refl
  · have href := h.refines hl hs he
    rcases href.flushed with hf | hf
    · rw [hf]
      exact hlead.tail ⟨e, href.change⟩
    · rw [hf]
      exact .refl

/-- An earlier entry that has a reservation's position spent with its digest has the reservation
itself: once the position is behind, only the same reservation can stand there. -/
theorem Leads.openBlock {x y : Option Parsed} (h : Leads x y) {tag : Tag} {pending : Pending}
    (hopen : openBlock y tag = some pending) {d : Digest}
    (hspent : (ledgerOf x).Spent tag pending.spentIndex.pos d) :
    openBlock x tag = some pending := by
  induction h with
  | refl => exact hopen
  | @tail y z hrun hstep ih =>
    refine ih ?_
    obtain ⟨e, hstep⟩ := hstep
    cases hstep with
    | same => exact hopen
    | created he => cases hopen
    | @wrote op p p' he hnext =>
      obtain ⟨q, slot', hq, hslot', hpending⟩ := openBlock_eq_some.mp hopen
      cases hq
      rcases (Parsed.step_of_next hnext).1.touched.slot_rev hslot' with
        ⟨account, -, -, rfl⟩ | ⟨slot, hslot, rfl | hmove⟩
      · cases hpending
      · exact openBlock_eq_some.mpr ⟨p, _, rfl, hslot, hpending⟩
      · cases hmove with
        | reserve hnone hindex =>
          -- The reservation was made here, at a position the earlier entry is already past.
          cases hpending
          obtain ⟨r, hr, hpast, -⟩ := Leads.holds hrun hspent
          obtain ⟨t, ht, rfl⟩ := Parsed.ledger_eq_some.mp hr
          rw [hslot] at ht
          cases ht
          exact absurd hpast (by simp [Slot.register])
        | skip => cases hpending
        | settle => cases hpending

/-! ### Runs with power cuts -/

/-- In every run in which a reservation is signed again only once it is flushed, every signature's
position is spent with its digest in the entry processes read and in the device's own, whatever
the power cuts, and no two signatures at one position differ; each is what the key of the position
made of the reserved digest. The condition is exact: from any world of such a run, a signature by
reservation is spent in the device's entry if and only if that entry has the reservation. -/
theorem signed_kept (hl : Crypto.Lawful) (hclosed : w.handle = none) (hreceipts : w.receipts = [])
    (hnew : w.signed = []) (hsynced : w.disk.durable = w.disk.snapshot)
    (hrun : Run password (ResignsFlushed password) w w') :
    (∀ x ∈ w'.signed, (ledgerOf (w'.state password)).Spent x.name x.position x.message ∧
      (ledgerOf (w'.flushed password)).Spent x.name x.position x.message) ∧
    (∀ x ∈ w'.signed, ∀ y ∈ w'.signed, x.name = y.name → x.position = y.position →
      x.message = y.message) ∧
    (∀ x ∈ w'.signed, Made password (ResignsFlushed password) w w' x) ∧
    ∀ ks tag access x, w'.handle = some ks → ks.resignRelease tag access = some x →
      ((ledgerOf (w'.flushed password)).Spent x.name x.position x.message ↔
        Flushed password w' tag) := by
  have hs : w.Sound password := sound_of_closed hclosed
  have hk : Kept password w := ⟨by simp [hreceipts], by simp [hnew]⟩
  have hlead : Leads (w.flushed password) (w.state password) := by
    rw [flushed, hsynced]
    exact .refl
  obtain ⟨hk', hagree', hlead'⟩ := hrun.invariant hl hs (I := fun v => Kept password v ∧
      (∀ x ∈ v.signed, ∀ y ∈ v.signed, x.name = y.name → x.position = y.position →
        x.message = y.message) ∧ Leads (v.flushed password) (v.state password))
    ⟨hk, by simp [hnew], hlead⟩ fun hs hI hok hstep =>
      ⟨kept_step hl hstep hs hI.1 hok, agree_step hl hstep hs hI.1 hI.2.1,
        leads_step hl hstep hs hI.2.2⟩
  refine ⟨hk'.signed, hagree', hrun.made hl hs hnew, fun ks tag access x hks hx =>
    ⟨fun hspent => ?_, fun hflushed => (spent_resign (hrun.sound hl hs) hks hflushed hx).2⟩⟩
  obtain ⟨p, hm⟩ := live_of_released (.inr ⟨tag, access, hx⟩)
  obtain ⟨-, hstate⟩ := hrun.sound hl hs ks p hks hm
  obtain ⟨slot, pending, key, hslot, hopen, -, rfl⟩ := resignRelease_eq_some hm hx
  have hblock := openBlock_eq_some.mpr ⟨p, slot, hstate, hslot, hopen⟩
  exact (hlead'.openBlock hblock hspent).trans hblock.symm

instance (password : Bytes) (w : World) : (e : Event) → Decidable (ResignsFlushed password w e)
  | .resign tag (some x) =>
    decidable_of_iff (Flushed password w tag)
      ⟨by rintro h _ _ ⟨⟩; exact h, fun h => h tag x rfl⟩
  | .resign _ none | .create | .open' | .write _ | .spend _ | .close | .powerCut =>
    .isTrue (by rintro _ _ ⟨⟩)

end World

end

/-! ### Two runs -/

section

attribute [local instance] Crypto.plain

/-- A reservation signed again after a reopen, and a power cut. -/
def resigningFlushed : List World.Command :=
  founding ++ [reserving (.replicate 32 1) [], .close, opening, resigning, .powerCut]

/-- What the power cut leaves has the signature's position spent. -/
theorem signed_kept_resigningFlushed :
    ∃ x, (World.nowhere.execAll [] resigningFlushed).signed = [x] ∧
      World.Made [] (World.ResignsFlushed []) World.nowhere (World.nowhere.execAll [] resigningFlushed) x ∧
      (ledgerOf ((World.nowhere.execAll [] resigningFlushed).state [])).Spent
        x.name x.position x.message := by
  have hrun : World.Run [] (World.ResignsFlushed []) World.nowhere
      (World.nowhere.execAll [] resigningFlushed) := World.run_execAll (by decide +kernel)
  obtain ⟨hkept, -, hmade, -⟩ := World.signed_kept Crypto.plain_lawful rfl rfl rfl rfl hrun
  have hsigned : (World.nowhere.execAll [] resigningFlushed).signed.length = 1 := by decide +kernel
  obtain ⟨x, hlog⟩ := List.length_eq_one_iff.mp hsigned
  rw [hlog] at hkept hmade
  exact ⟨x, hlog, hmade x (by simp), (hkept x (by simp)).1⟩

/-- The process dies in the commit's last step, after the rename; the store is opened and the
reservation signed again; the power cut loses the entry; and the position is reserved and signed
for another digest. -/
def resigningUnflushed : List World.Command :=
  founding ++ [reserving (.replicate 32 1) [.done, .done, .done, .killed false none], opening,
    resigning, .powerCut, opening, reserving (.replicate 32 2) [], spending (.replicate 32 2)]

/-- Two signatures of one position over two digests, the first of them lost by a power cut from
what the store says. -/
theorem resigningUnflushed_two_digests :
    ∃ w, World.Run [] (fun _ _ => True) World.nowhere w ∧
      ∃ x y, w.signed = [y, x] ∧ x.name = y.name ∧ x.position = y.position ∧
        x.message ≠ y.message ∧
        ¬ (ledgerOf (w.state [])).Spent x.name x.position x.message := by
  have hsigned : (World.nowhere.execAll [] resigningUnflushed).signed.map (·.toRelease) =
      [⟨zeroAccount.tag, 0, .replicate 32 2⟩, ⟨zeroAccount.tag, 0, .replicate 32 1⟩] := by
    decide +kernel
  obtain ⟨y, x, hlog, hy, hx⟩ := signed_pair hsigned
  refine ⟨World.nowhere.execAll [] resigningUnflushed, World.run_execAll (by decide +kernel), x, y, hlog,
    ?_, ?_, ?_, ?_⟩
  · rw [hx, hy]
  · rw [hx, hy]
  · rw [hx, hy]
    decide
  rw [hx]
  rintro ⟨r, hr, -, hblock⟩
  have hledger : (ledgerOf ((World.nowhere.execAll [] resigningUnflushed).state [])
      zeroAccount.tag).map (fun r => (r.next, r.block)) = some (1, some (.replicate 32 2)) := by
    decide +kernel
  rw [hr] at hledger
  obtain ⟨hnext, hsecond⟩ := Prod.mk.inj (Option.some.inj hledger)
  exact absurd ((hblock hnext).symm.trans hsecond) (by decide)

end

end MochimoWallet.Keystore
