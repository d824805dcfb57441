import MochimoWallet.Keystore.Store
import MochimoWallet.Lib.OneTime

/-!
# Reservations

What a write does to one slot: it reserves the next position, skips ahead or settles
the open reservation, and never touches the key material. `Parsed.Step.frame` says
that every other slot stays as it was, and `Touched.slots` that slots stay well
formed. A slot is a register of one-time positions (`Slot.register`), so a store is a
ledger of them and a write is a step of that ledger.
-/

namespace MochimoWallet.Keystore

open Codec OneTime

variable [Crypto]

/-! ## One slot -/

namespace Slot

/-- What a write does to the slot it is about. -/
inductive Step (s : Slot) : Slot → Prop where
  | reserve {digest : Digest} {figures : Figures} {index : WotsIndex} (hopen : s.pending = none)
      (hindex : index.pos = s.account.wotsIndex.pos + 1) :
      Step s ⟨{ s.account with wotsIndex := index },
        some ⟨s.account.wotsIndex, digest, some figures⟩, none⟩
  | skip {target : WotsIndex} (hopen : s.pending = none)
      (hahead : s.account.wotsIndex.pos < target.pos) :
      Step s ⟨{ s.account with wotsIndex := target }, none, none⟩
  | settle {block : Pending} (hopen : s.pending = some block) :
      Step s ⟨s.account, none, some block⟩

theorem Step.wf {s s' : Slot} (h : s.Step s') (hs : s.Wf) : s'.Wf := by
  have hnone {i : WotsIndex} : BlockBefore i none := fun p hp => by cases hp
  cases h with
  | reserve hopen hindex =>
    exact ⟨.inr rfl, fun p hp => by cases hp; exact hindex.symm, hnone⟩
  | skip hopen hahead => exact ⟨.inl rfl, hnone, hnone⟩
  | settle hopen => exact ⟨.inl rfl, hnone, hopen ▸ hs.pending_before⟩

theorem Step.key {s s' : Slot} (h : s.Step s') :
    s'.account.key = s.account.key ∧ s'.account.tag = s.account.tag := by
  cases h <;> exact ⟨rfl, rfl⟩

theorem Step.index_le {s s' : Slot} (h : s.Step s') :
    s.account.wotsIndex.pos ≤ s'.account.wotsIndex.pos := by
  cases h with
  | reserve hopen hindex => simp only; omega
  | skip hopen hahead => exact hahead.le
  | settle hopen => exact le_refl _

/-- The only way out of an open reservation is the retained block it becomes. -/
theorem Step.of_pending {s s' : Slot} (h : s.Step s') {block : Pending}
    (hopen : s.pending = some block) : s' = ⟨s.account, none, some block⟩ := by
  cases h with
  | reserve hnone => rw [hnone] at hopen; cases hopen
  | skip hnone => rw [hnone] at hopen; cases hopen
  | settle hsome => rw [hsome] at hopen; cases hopen; rfl

/-- The register a slot is. -/
def register (s : Slot) : Register Digest :=
  ⟨s.account.wotsIndex.pos, s.pending.map (·.digest), s.settled.map (·.digest)⟩

theorem Step.register {s s' : Slot} (h : s.Step s') : s.register.Step s'.register := by
  cases h with
  | @reserve digest figures index hopen hindex =>
    have hnone : s.register.opened = none := by simp [Slot.register, hopen]
    have := Register.Step.reserve digest hnone
    rwa [show s.register.next + 1 = index.pos from hindex.symm] at this
  | skip hopen hahead => exact .skip (by simp [Slot.register, hopen]) hahead
  | @settle block hopen =>
    have hsome : s.register.opened = some block.digest := by simp [Slot.register, hopen]
    exact .settle hsome

/-- An open reservation is an open register just behind its index. -/
theorem register_of_pending {s : Slot} (hs : s.Wf) {block : Pending}
    (hopen : s.pending = some block) :
    s.register.next = block.spentIndex.pos + 1 ∧ s.register.opened = some block.digest :=
  ⟨(hs.pending_before block hopen).symm, by simp [register, hopen]⟩

end Slot

/-! ## One write -/

namespace Parsed

/-- The account a write is about, and its slot before and after. -/
inductive Touched (p p' : Parsed) : Prop where
  | none (h : p'.slots = p.slots)
  | born {account : Account} (htag : p.slots.get? account.tag = Option.none)
      (hslots : p'.slots = p.slots.insert account.tag ⟨account, Option.none, Option.none⟩)
  | moved {tag : Tag} {s s' : Slot} (hs : p.slots.get? tag = some s) (hstep : s.Step s')
      (hslots : p'.slots = p.slots.modify tag fun _ => s')

variable {p p' : Parsed} {op : Op}

theorem write_slots {generation : UInt64} {tag : Tag} {s : Slot} (hs : p.slots.get? tag = some s)
    (index : WotsIndex) (pending settled : Option Pending) :
    (p.write generation tag index pending settled).slots =
      p.slots.modify tag fun _ => ⟨{ s.account with wotsIndex := index }, pending, settled⟩ := by
  refine OrdMap.ext_get? fun k => ?_
  simp only [write, OrdMap.get?_modify]
  split
  · next hk => subst hk; simp [hs]
  · rfl

/-- The slot a write is about, afterwards. -/
theorem get?_write {generation : UInt64} {tag : Tag} {s : Slot} (hs : p.slots.get? tag = some s)
    (index : WotsIndex) (pending settled : Option Pending) :
    (p.write generation tag index pending settled).slots.get? tag =
      some ⟨{ s.account with wotsIndex := index }, pending, settled⟩ := by
  rw [write_slots hs, OrdMap.get?_modify, if_pos rfl, hs]
  rfl

theorem Step.touched (h : p.Step p' op) : p.Touched p' := by
  cases h with
  | adoptMaster hnone hslots hmaster => exact .none hslots
  | add htag hroot hstream hnew hslots hmaster => exact .born htag hslots
  | persistAdvance hslot hopen hindex hslots hmaster =>
    exact .moved hslot (.reserve hopen hindex) (hslots.trans (write_slots hslot ..))
  | persistAdvanceTo hslot hopen hahead hslots hmaster =>
    exact .moved hslot (.skip hopen hahead) (hslots.trans (write_slots hslot ..))
  | persistSettled hslot hopen hslots hmaster =>
    exact .moved hslot (.settle hopen) (hslots.trans (write_slots hslot ..))

/-- A write leaves every slot it is not about as it was. -/
theorem Step.frame (h : p.Step p' op) {tag : Tag} (htag : op.tag? ≠ some tag) :
    p'.slots.get? tag = p.slots.get? tag := by
  cases h with
  | adoptMaster hnone hslots hmaster => rw [hslots]
  | add hnone hroot hstream hnew hslots hmaster =>
    rw [hslots, OrdMap.get?_insert, if_neg fun he => htag (congrArg some he.symm)]
  | persistAdvance hslot hopen hindex hslots hmaster
  | persistAdvanceTo hslot hopen hahead hslots hmaster
  | persistSettled hslot hopen hslots hmaster =>
    rw [hslots, write, OrdMap.get?_modify, if_neg fun he => htag (congrArg some he.symm)]

/-- A slot that is there stays there, as it is or one step on. -/
theorem Touched.slot (h : p.Touched p') {tag : Tag} {s : Slot} (hs : p.slots.get? tag = some s) :
    ∃ s', p'.slots.get? tag = some s' ∧ (s' = s ∨ s.Step s') := by
  cases h with
  | none h => exact ⟨s, h ▸ hs, .inl rfl⟩
  | born htag hslots =>
    have hne : tag ≠ _ := fun he => by rw [he, htag] at hs; cases hs
    exact ⟨s, by rw [hslots, OrdMap.get?_insert, if_neg hne, hs], .inl rfl⟩
  | @moved tag' t t' ht hstep hslots =>
    by_cases he : tag = tag'
    · subst he
      rw [ht] at hs
      cases hs
      exact ⟨t', by rw [hslots, OrdMap.get?_modify, if_pos rfl, ht]; rfl, .inr hstep⟩
    · exact ⟨s, by rw [hslots, OrdMap.get?_modify, if_neg he, hs], .inl rfl⟩

/-- A slot that is there afterwards was added, or was there. -/
theorem Touched.slot_rev (h : p.Touched p') {tag : Tag} {s' : Slot}
    (hs : p'.slots.get? tag = some s') :
    (∃ account, p.slots.get? tag = Option.none ∧ account.tag = tag ∧
        s' = ⟨account, Option.none, Option.none⟩) ∨
      ∃ s, p.slots.get? tag = some s ∧ (s' = s ∨ s.Step s') := by
  rcases hp : p.slots.get? tag with _ | s
  · left
    cases h with
    | none h => rw [h, hp] at hs; cases hs
    | @born account htag hslots =>
      rw [hslots, OrdMap.get?_insert] at hs
      split at hs
      · next he => cases hs; exact ⟨account, rfl, he.symm, rfl⟩
      · rw [hp] at hs; cases hs
    | moved ht hstep hslots =>
      rw [hslots, OrdMap.get?_modify, hp] at hs
      split at hs <;> cases hs
  · right
    obtain ⟨t, ht, hstep⟩ := h.slot hp
    rw [ht] at hs
    cases hs
    exact ⟨s, rfl, hstep⟩

theorem Touched.tags (h : p.Touched p') (hp : p.Wf) {tag : Tag} {s : Slot}
    (hs : p'.slots.get? tag = some s) : s.account.tag = tag := by
  rcases h.slot_rev hs with ⟨account, -, htag, rfl⟩ | ⟨s, hs, rfl | hstep⟩
  · exact htag
  · exact hp.tags hs
  · exact hstep.key.2.trans (hp.tags hs)

theorem Touched.slots (h : p.Touched p') (hp : p.Wf) {tag : Tag} {s : Slot}
    (hs : p'.slots.get? tag = some s) : s.Wf := by
  rcases h.slot_rev hs with ⟨account, -, -, rfl⟩ | ⟨s, hs, rfl | hstep⟩
  · exact ⟨.inl rfl, (fun q hq => by cases hq), fun q hq => by cases hq⟩
  · exact hp.slots hs
  · exact hstep.wf (hp.slots hs)

/-! ## The ledger of a store -/

def ledger (p : Parsed) : Ledger Tag Digest := fun tag => (p.slots.get? tag).map Slot.register

theorem ledger_eq_some {tag : Tag} {r : Register Digest} :
    p.ledger tag = some r ↔ ∃ s, p.slots.get? tag = some s ∧ s.register = r :=
  Option.map_eq_some_iff

theorem Touched.ledger (h : p.Touched p') : p.ledger.Step p'.ledger := by
  cases h with
  | none h => exact .same (funext fun tag => by rw [Parsed.ledger, Parsed.ledger, h])
  | born htag hslots =>
    refine .born (by rw [Parsed.ledger, htag]; rfl)
      (by rw [Parsed.ledger, hslots, OrdMap.get?_insert, if_pos rfl]; rfl) fun tag hne => ?_
    rw [Parsed.ledger, Parsed.ledger, hslots, OrdMap.get?_insert, if_neg hne]
  | @moved tag s s' hs hstep hslots =>
    refine .move (i := tag) (by rw [Parsed.ledger, hs]; rfl)
      (by rw [Parsed.ledger, hslots, OrdMap.get?_modify, if_pos rfl, hs]; rfl) hstep.register
      fun tag' hne => ?_
    rw [Parsed.ledger, Parsed.ledger, hslots, OrdMap.get?_modify, if_neg hne]

end Parsed

end MochimoWallet.Keystore
