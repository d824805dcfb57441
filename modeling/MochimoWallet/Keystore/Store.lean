import MochimoWallet.Keystore.Accepted
import MochimoWallet.Keystore.Handle

/-!
# The store as a state machine

What a keystore is for, without handles, images or media: a state `Parsed` and five
transitions on it. `Parsed.next` says which state a write produces, or why it is
refused; the theorems say what every transition keeps. `Keystore/Writes.lean`
connects it to the handle: each writer of the handle is one transition of this
machine, sealed, committed and applied.
-/

namespace MochimoWallet.Keystore

open Codec Words

theorem nextGeneration_eq_ok {g g' : UInt64} {max got : ℕ} :
    nextGeneration g max got = .ok g' ↔ g'.toNat = g.toNat + 1 := by
  have h1 : (1 : UInt64).toNat = 1 := rfl
  unfold nextGeneration
  split
  · next n hn =>
    rw [Except.ok.injEq, ← h1, ← checkedAdd64_eq_some, hn, Option.some.injEq]
  · next hn =>
    refine iff_of_false (by simp) fun h => ?_
    rw [← h1, ← checkedAdd64_eq_some, hn] at h
    cases h

variable [Crypto]

/-- The writes a store takes. -/
inductive Op where
  | adoptMaster (master : Secret)
  | add (account : Account)
  | persistAdvance (tag : Tag) (digest : Digest) (figures : Figures)
  | persistAdvanceTo (tag : Tag) (target : WotsIndex)
  | persistSettled (tag : Tag)

namespace Op

/-- The account an operation is about. -/
def tag? : Op → Option Tag
  | .adoptMaster _ => none
  | .add account => some account.tag
  | .persistAdvance tag _ _ | .persistAdvanceTo tag _ | .persistSettled tag => some tag

/-- The receipt of an operation that left the state `p`. -/
def receipt : Op → Parsed → Option AdvanceReceipt
  | .adoptMaster _, _ | .add _, _ | .persistSettled _, _ => none
  | .persistAdvance tag _ _, p =>
    some ⟨tag, ((p.slots.get? tag).map (·.account.wotsIndex)).getD .zero⟩
  | .persistAdvanceTo tag target, _ => some ⟨tag, target⟩

end Op

namespace Parsed

/-- The state with one slot's index and blocks replaced, under the next generation. -/
def write (p : Parsed) (generation : UInt64) (tag : Tag) (index : WotsIndex)
    (pending settled : Option Pending) : Parsed :=
  { p with
    generation
    slots := p.slots.modify tag fun s => ⟨{ s.account with wotsIndex := index }, pending, settled⟩ }

/-- The state a write leaves, or its refusal. -/
def next (p : Parsed) : Op → Except Error Parsed
  | .adoptMaster master =>
    if p.master.isSome then .error (.exists "master seed")
    else do
      let nextGen ← nextGeneration p.generation u64Max u64Max
      .ok { p with generation := nextGen, master := some master }
  | .add account =>
    if p.slots.contains account.tag then .error (.exists "account tag")
    else if account.key.root?.any fun root => (importedRoots p.slots).any (· = root) then
      .error (.exists "imported root")
    else do
      let incoming ← recomputedStreamId p.master account
      if p.slots.values.any fun s => storedStreamId s.account = incoming then
        .error (.exists "key stream")
      else
      let nextGen ← nextGeneration p.generation (u64Max - 1) p.generation.toNat
      .ok { p with
        generation := nextGen
        slots := p.slots.insert account.tag ⟨account, none, none⟩ }
  | .persistAdvance tag digest figures => do
    let slot ← slotOf p.slots tag
    refuseOpen slot
    let index ← slot.account.wotsIndex.advanced
    let nextGen ← nextGeneration p.generation (u64Max - 1) p.generation.toNat
    .ok (p.write nextGen tag index (some ⟨slot.account.wotsIndex, digest, some figures⟩) none)
  | .persistAdvanceTo tag target => do
    let slot ← slotOf p.slots tag
    refuseOpen slot
    if target.pos ≤ slot.account.wotsIndex.pos then
      .error (.range "wots index for tag" (slot.account.wotsIndex.pos + 1) u32Max target.pos)
    else
    let nextGen ← nextGeneration p.generation (u64Max - 1) p.generation.toNat
    .ok (p.write nextGen tag target none none)
  | .persistSettled tag => do
    let slot ← slotOf p.slots tag
    match slot.pending with
    | none => .error .nothingPending
    | some block =>
    let nextGen ← nextGeneration p.generation (u64Max - 1) p.generation.toNat
    .ok (p.write nextGen tag slot.account.wotsIndex none (some block))

end Parsed

/-! ## What a write does -/

theorem slotOf_eq_ok {slots : OrdMap Tag Slot} {tag : Tag} {slot : Slot} :
    slotOf slots tag = .ok slot ↔ slots.get? tag = some slot := by
  unfold slotOf
  cases slots.get? tag <;> simp

theorem refuseOpen_eq_ok {slot : Slot} : refuseOpen slot = .ok () ↔ slot.pending = none := by
  unfold refuseOpen
  cases slot.pending <;> simp

/-- Everything one write can do. -/
inductive Parsed.Step (p : Parsed) (p' : Parsed) : Op → Prop where
  | adoptMaster {master : Secret} (hnone : p.master = none) (hslots : p'.slots = p.slots)
      (hmaster : p'.master = some master) : Step p p' (.adoptMaster master)
  | add {account : Account} {incoming : StreamId} (htag : p.slots.get? account.tag = none)
      (hroot : ∀ root, account.key.root? = some root → root ∉ importedRoots p.slots)
      (hstream : recomputedStreamId p.master account = .ok incoming)
      (hnew : ∀ tag slot, p.slots.get? tag = some slot → slot.account.key.stream ≠ incoming)
      (hslots : p'.slots = p.slots.insert account.tag ⟨account, none, none⟩)
      (hmaster : p'.master = p.master) : Step p p' (.add account)
  | persistAdvance {tag : Tag} {digest : Digest} {figures : Figures} {slot : Slot}
      {index : WotsIndex} (hslot : p.slots.get? tag = some slot) (hopen : slot.pending = none)
      (hindex : index.pos = slot.account.wotsIndex.pos + 1)
      (hslots : p'.slots = (p.write p'.generation tag index
        (some ⟨slot.account.wotsIndex, digest, some figures⟩) none).slots)
      (hmaster : p'.master = p.master) : Step p p' (.persistAdvance tag digest figures)
  | persistAdvanceTo {tag : Tag} {target : WotsIndex} {slot : Slot}
      (hslot : p.slots.get? tag = some slot) (hopen : slot.pending = none)
      (hahead : slot.account.wotsIndex.pos < target.pos)
      (hslots : p'.slots = (p.write p'.generation tag target none none).slots)
      (hmaster : p'.master = p.master) : Step p p' (.persistAdvanceTo tag target)
  | persistSettled {tag : Tag} {slot : Slot} {block : Pending}
      (hslot : p.slots.get? tag = some slot) (hopen : slot.pending = some block)
      (hslots : p'.slots =
        (p.write p'.generation tag slot.account.wotsIndex none (some block)).slots)
      (hmaster : p'.master = p.master) : Step p p' (.persistSettled tag)

theorem Parsed.step_of_next {p p' : Parsed} {op : Op} (h : p.next op = .ok p') :
    p.Step p' op ∧ p'.generation.toNat = p.generation.toNat + 1 := by
  cases op with
  | adoptMaster master =>
    simp only [next] at h
    split at h
    · cases h
    next hm =>
    obtain ⟨g, hg, h⟩ := bind_eq_ok.mp h
    cases h
    exact ⟨.adoptMaster (by simpa using hm) rfl rfl, nextGeneration_eq_ok.mp hg⟩
  | add account =>
    simp only [next] at h
    split at h
    · cases h
    next htag =>
    split at h
    · cases h
    next hroot =>
    obtain ⟨incoming, hstream, h⟩ := bind_eq_ok.mp h
    split at h
    · cases h
    next hnew =>
    obtain ⟨g, hg, h⟩ := bind_eq_ok.mp h
    cases h
    refine ⟨.add (by simpa [OrdMap.contains] using htag) (fun root hr => ?_) hstream
      (fun tag slot hslot => ?_) rfl rfl, nextGeneration_eq_ok.mp hg⟩
    · simpa [hr] using hroot
    · intro heq
      exact hnew (List.any_eq_true.mpr
        ⟨slot, OrdMap.mem_values_iff.mpr ⟨tag, hslot⟩, decide_eq_true heq⟩)
  | persistAdvance tag digest figures =>
    obtain ⟨slot, hslot, h⟩ := bind_eq_ok.mp h
    obtain ⟨⟨⟩, hopen, h⟩ := bind_eq_ok.mp h
    obtain ⟨index, hindex, h⟩ := bind_eq_ok.mp h
    obtain ⟨g, hg, h⟩ := bind_eq_ok.mp h
    cases h
    exact ⟨.persistAdvance (slotOf_eq_ok.mp hslot) (refuseOpen_eq_ok.mp hopen)
      (WotsIndex.advanced_eq_ok.mp hindex) rfl rfl, nextGeneration_eq_ok.mp hg⟩
  | persistAdvanceTo tag target =>
    obtain ⟨slot, hslot, h⟩ := bind_eq_ok.mp h
    obtain ⟨⟨⟩, hopen, h⟩ := bind_eq_ok.mp h
    split at h
    · cases h
    next hahead =>
    obtain ⟨g, hg, h⟩ := bind_eq_ok.mp h
    cases h
    exact ⟨.persistAdvanceTo (slotOf_eq_ok.mp hslot) (refuseOpen_eq_ok.mp hopen) (by omega) rfl rfl,
      nextGeneration_eq_ok.mp hg⟩
  | persistSettled tag =>
    obtain ⟨slot, hslot, h⟩ := bind_eq_ok.mp h
    split at h
    · cases h
    next block hopen =>
    obtain ⟨g, hg, h⟩ := bind_eq_ok.mp h
    cases h
    exact ⟨.persistSettled (slotOf_eq_ok.mp hslot) hopen rfl rfl, nextGeneration_eq_ok.mp hg⟩

end MochimoWallet.Keystore
