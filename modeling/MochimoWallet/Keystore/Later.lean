import MochimoWallet.Keystore.KeyReuse
import MochimoWallet.Keystore.SlotRun

/-!
# Later states of a store

A state is later than another when transitions lead from one to the other, whatever
accounts they are about. What a directory or a pair of slots says in a run is later
than what it said (`World.Run.later`, `SlotWorld.Run.later`), so a reservation can be
followed through reopenings, failures and power cuts: while a later state has a
reservation open at the same position it has the same one (`Slot.Since.same`), and the
key at any position of a derived account can still be had (`keyAt_later`).
-/

namespace MochimoWallet.Keystore

open Codec

variable [Crypto]

def Parsed.Later : Parsed → Parsed → Prop :=
  Relation.ReflTransGen fun p p' => ∃ op, p.next op = .ok p'

/-! ## An open reservation, later -/

/-- What a slot becomes: itself, or one whose reservations are all at later positions. -/
def Slot.Since (s s' : Slot) : Prop :=
  s'.account.key = s.account.key ∧ s'.account.tag = s.account.tag ∧
    (s' = s ∨ s.account.wotsIndex.pos ≤ s'.account.wotsIndex.pos ∧
      ∀ b, s'.pending = some b → s.account.wotsIndex.pos ≤ b.spentIndex.pos)

namespace Slot.Since

variable {s s' s'' : Slot} {b : Pending}

theorem refl (s : Slot) : s.Since s := ⟨rfl, rfl, .inl rfl⟩

theorem step (h : s.Since s') (hopen : s.pending = some b) (hstep : s'.Step s'') : s.Since s'' := by
  obtain ⟨hkey, htag, hsince⟩ := h
  refine ⟨hstep.key.1.trans hkey, hstep.key.2.trans htag, .inr ?_⟩
  rcases hsince with rfl | ⟨hindex, hpending⟩
  · rw [hstep.of_pending hopen]
    exact ⟨le_refl _, fun _ h => by cases h⟩
  · refine ⟨hindex.trans hstep.index_le, fun c hc => ?_⟩
    cases hstep with
    | reserve =>
      cases hc
      exact hindex
    | skip => cases hc
    | settle => cases hc

/-- A reservation open at the same position is the same one. -/
theorem same (h : s.Since s') (hbefore : b.spentIndex.pos < s.account.wotsIndex.pos) {b' : Pending}
    (hopen' : s'.pending = some b') (hsame : b'.spentIndex = b.spentIndex) : s' = s := by
  rcases h.2.2 with rfl | ⟨-, hpending⟩
  · rfl
  · have := hpending b' hopen'
    rw [hsame] at this
    omega

end Slot.Since

namespace Parsed.Later

variable {p q : Parsed} {tag : Tag}

theorem slot {slot : Slot} (h : p.Later q) (hslot : p.slots.get? tag = some slot) {b : Pending}
    (hopen : slot.pending = some b) : ∃ slot', q.slots.get? tag = some slot' ∧ slot.Since slot' := by
  induction h with
  | refl => exact ⟨slot, hslot, .refl slot⟩
  | tail _ hstep ih =>
    obtain ⟨op, hnext⟩ := hstep
    obtain ⟨s, hs, hsince⟩ := ih
    obtain ⟨s', hs', rfl | hmove⟩ := (Parsed.step_of_next hnext).1.touched.slot hs
    · exact ⟨_, hs', hsince⟩
    · exact ⟨s', hs', hsince.step hopen hmove⟩

/-- Whose key material an account has does not change. -/
theorem key {slot : Slot} (h : p.Later q) (hslot : p.slots.get? tag = some slot) :
    ∃ slot', q.slots.get? tag = some slot' ∧ slot'.account.key = slot.account.key ∧
      slot'.account.tag = slot.account.tag := by
  induction h with
  | refl => exact ⟨slot, hslot, rfl, rfl⟩
  | tail _ hstep ih =>
    obtain ⟨op, hnext⟩ := hstep
    obtain ⟨s, hs, hkey, htag⟩ := ih
    obtain ⟨s', hs', rfl | hmove⟩ := (Parsed.step_of_next hnext).1.touched.slot hs
    · exact ⟨_, hs', hkey, htag⟩
    · exact ⟨s', hs', hmove.key.1.trans hkey, hmove.key.2.trans htag⟩

/-- A store that has a master keeps it. -/
theorem master (h : p.Later q) {master : Secret} (hmaster : p.master = some master) :
    q.master = some master := by
  induction h with
  | refl => exact hmaster
  | tail _ hstep ih =>
    obtain ⟨op, hnext⟩ := hstep
    cases (Parsed.step_of_next hnext).1 with
    | adoptMaster hnone => rw [ih] at hnone; cases hnone
    | add _ _ _ _ _ hm | persistAdvance _ _ _ _ hm | persistAdvanceTo _ _ _ _ hm
    | persistSettled _ _ _ hm => exact hm.trans ih

end Parsed.Later

/-! ## Its keys, later -/

theorem mem_importedRoots {slots : OrdMap Tag Slot} {root : Secret} :
    root ∈ importedRoots slots ↔
      ∃ tag slot, slots.get? tag = some slot ∧ slot.account.key.root? = some root := by
  simp only [importedRoots, List.mem_filterMap, OrdMap.mem_values_iff]
  constructor
  · rintro ⟨slot, ⟨tag, hslot⟩, hroot⟩
    exact ⟨tag, slot, hslot, hroot⟩
  · rintro ⟨tag, slot, hslot, hroot⟩
    exact ⟨slot, ⟨tag, hslot⟩, hroot⟩

theorem stream_of_root {account : Account} {root : Secret} (h : account.key.root? = some root) :
    account.key.stream = MochimoWallet.streamId root := by
  obtain ⟨tag, key, index, hverified⟩ := account
  cases key with
  | derived => cases h
  | imported =>
    cases h
    exact hverified.2.symm

/-- A seed whose stream an account has is not imported later. -/
theorem Parsed.Later.fresh {p q : Parsed} (h : p.Later q) {tag : Tag} {slot : Slot}
    (hslot : p.slots.get? tag = some slot) {seed : Secret}
    (hstream : slot.account.key.stream = MochimoWallet.streamId seed)
    (hfresh : seed ∉ importedRoots p.slots) : seed ∉ importedRoots q.slots := by
  induction h with
  | refl => exact hfresh
  | tail hrun hstep ih =>
    obtain ⟨op, hnext⟩ := hstep
    obtain ⟨s, hs, hkey, -⟩ := Parsed.Later.key hrun hslot
    rw [mem_importedRoots]
    rintro ⟨t, t', ht', hroot⟩
    rcases slot_of_step (Parsed.step_of_next hnext).1 ht' with
      ⟨account, -, -, rfl, hnew⟩ | ⟨u, hu, hsame, -⟩
    · refine hnew tag s hs ?_
      rw [hkey, hstream, stream_of_root hroot]
    · exact ih (mem_importedRoots.mpr ⟨t, u, hu, hsame ▸ hroot⟩)

/-- What `keyAt` says of a derived account whose key it gives. -/
theorem keyAt_derived {slots : OrdMap Tag Slot} {slot : Slot} {accountIndex : UInt32}
    {stream : StreamId} (hkey : slot.account.key = .derived accountIndex stream)
    {position : WotsIndex} {access : KeyAccess} {key : WotsKey} :
    keyAt slots slot position access = .ok key ↔ ∃ master, access = .master master ∧
      (deriveAccount master accountIndex).tag = slot.account.tag ∧
      (deriveAccount master accountIndex).seed ∉ importedRoots slots ∧
      MochimoWallet.streamId (deriveAccount master accountIndex).seed = stream ∧
      key = match position.rotation with
        | none => (deriveAccount master accountIndex).first
        | some rotation => deriveWotsKey (deriveAccount master accountIndex).seed rotation := by
  unfold keyAt
  rw [hkey]
  cases access with
  | storedRoot => simp
  | master master =>
    dsimp only
    split
    · next h => exact iff_of_false (by simp) fun ⟨_, he, ht, _⟩ => by cases he; exact h ht
    next htag =>
    split
    · next h =>
      refine iff_of_false (by simp) fun ⟨_, he, _, hr, _⟩ => ?_
      cases he
      exact hr (by simpa using h)
    next hroot =>
    split
    · next h => exact iff_of_false (by simp) fun ⟨_, he, _, _, hs, _⟩ => by cases he; exact h hs
    next hstream =>
    have hroot : (deriveAccount master accountIndex).seed ∉ importedRoots slots := by
      simpa using hroot
    constructor
    · intro h
      refine ⟨master, rfl, not_not.mp htag, hroot, not_not.mp hstream, ?_⟩
      cases hr : position.rotation <;> rw [hr] at h <;> cases h <;> rfl
    · rintro ⟨_, he, -, -, -, rfl⟩
      cases he
      cases position.rotation <;> rfl

/-- What `keyAt` says of an imported account. -/
theorem keyAt_imported {slots : OrdMap Tag Slot} {slot : Slot} {root : Secret} {first : FirstKey}
    {stream : StreamId} (hkey : slot.account.key = .imported root first stream)
    {position : WotsIndex} {access : KeyAccess} {key : WotsKey} :
    keyAt slots slot position access = .ok key ↔ access = .storedRoot ∧
      key = match position.rotation with
        | none => firstKeyFromComponents root first.pubSeed first.adrs
        | some rotation => deriveWotsKey root rotation := by
  unfold keyAt
  rw [hkey]
  cases access with
  | master master => simp
  | storedRoot =>
    cases position.rotation <;> simp [eq_comm]

/-- A key that could be had can be had later. -/
theorem keyAt_later {p q : Parsed} (h : p.Later q) {tag : Tag} {slot : Slot} (slot' : Slot)
    (hslot : p.slots.get? tag = some slot) (hsame : slot'.account.key = slot.account.key)
    (htag : slot'.account.tag = slot.account.tag) {position : WotsIndex} {access : KeyAccess}
    {key : WotsKey} (hkey : keyAt p.slots slot position access = .ok key) :
    keyAt q.slots slot' position access = .ok key := by
  rcases hm : slot.account.key with ⟨accountIndex, stream⟩ | ⟨root, first, stream⟩
  · obtain ⟨master, rfl, hderived, hfresh, hstream, rfl⟩ := (keyAt_derived hm).mp hkey
    refine (keyAt_derived (hsame.trans hm)).mpr
      ⟨master, rfl, hderived.trans htag.symm, h.fresh hslot ?_ hfresh, hstream, rfl⟩
    rw [hm, hstream]
    rfl
  · exact (keyAt_imported (hsame.trans hm)).mpr ((keyAt_imported hm).mp hkey)

/-- Two masters have an account of one tag and stream only by having one account. -/
def KeyAccess.Told : KeyAccess → KeyAccess → Prop
  | .master m, .master m' => ∀ accountIndex,
    (deriveAccount m accountIndex).tag = (deriveAccount m' accountIndex).tag →
    MochimoWallet.streamId (deriveAccount m accountIndex).seed =
      MochimoWallet.streamId (deriveAccount m' accountIndex).seed →
    deriveAccount m accountIndex = deriveAccount m' accountIndex
  | _, _ => True

theorem KeyAccess.told_self (access : KeyAccess) : access.Told access := by
  cases access with
  | master => exact fun _ _ _ => rfl
  | storedRoot => trivial

/-- Whatever store and access it comes from, the key at a position of an account is one key. -/
theorem keyAt_unique {slots slots' : OrdMap Tag Slot} {slot slot' : Slot}
    (hsame : slot'.account.key = slot.account.key) (htag : slot'.account.tag = slot.account.tag)
    {position : WotsIndex} {access access' : KeyAccess} (htold : access.Told access')
    {key key' : WotsKey} (hkey : keyAt slots slot position access = .ok key)
    (hkey' : keyAt slots' slot' position access' = .ok key') : key' = key := by
  rcases hm : slot.account.key with ⟨accountIndex, stream⟩ | ⟨root, first, stream⟩
  · obtain ⟨m, rfl, hderived, -, hstream, rfl⟩ := (keyAt_derived hm).mp hkey
    obtain ⟨m', rfl, hderived', -, hstream', rfl⟩ := (keyAt_derived (hsame.trans hm)).mp hkey'
    have heq := htold accountIndex (hderived.trans (htag.symm.trans hderived'.symm))
      (hstream.trans hstream'.symm)
    rw [heq]
  · obtain ⟨-, rfl⟩ := (keyAt_imported hm).mp hkey
    exact ((keyAt_imported (hsame.trans hm)).mp hkey').2

/-! ## Runs of a directory lead to later states -/

namespace World

variable {password : Bytes} {ok : World → Event → Prop} {w w' : World} {p : Parsed}

/-- What a change makes of a state is a later one. -/
theorem later_of_change {event : Event} {q : Parsed} {x : Option Parsed} (h : p.Later q)
    (hchange : Change event (some q) x) : ∃ q', x = some q' ∧ p.Later q' := by
  cases hchange with
  | same => exact ⟨q, rfl, h⟩
  | @wrote op _ q' _ hnext => exact ⟨q', rfl, h.tail ⟨op, hnext⟩⟩

/-- Both readings of the directory are later than `p`. -/
def Onward (password : Bytes) (p : Parsed) (w : World) : Prop :=
  (∃ q, w.state password = some q ∧ p.Later q) ∧ ∃ q, w.flushed password = some q ∧ p.Later q

theorem Onward.step (hl : Crypto.Lawful) {e : Event} (hs : w.Sound password)
    (h : Onward password p w) (hstep : w.Step password e w') : Onward password p w' := by
  obtain ⟨⟨q, hq, hlater⟩, f, hf, hflater⟩ := h
  by_cases he : e = .powerCut
  · subst he
    cases hstep with
    | @powerCut entry temp hentry =>
      have hboth : ∃ r, reading password entry = some r ∧ p.Later r := by
        rcases hentry with rfl | rfl
        · exact ⟨q, hq, hlater⟩
        · exact ⟨f, hf, hflater⟩
      exact ⟨hboth, hboth⟩
  · have href := hstep.refines hl hs he
    obtain ⟨q', hq', hlater'⟩ := later_of_change hlater (hq ▸ href.change)
    refine ⟨⟨q', hq', hlater'⟩, ?_⟩
    rcases href.flushed with hsame | hsame
    · exact ⟨f, hsame.trans hf, hflater⟩
    · exact ⟨q', hsame.trans hq', hlater'⟩

theorem Run.later (hl : Crypto.Lawful) (h : Run password ok w w') (hs : w.Sound password)
    (hstate : w.state password = some p) (hflushed : w.flushed password = some p) {ks : Keystore}
    {q : Parsed} (hks : w'.handle = some ks) (hm : ks.memory = some q) : p.Later q := by
  have honward : Onward password p w' :=
    h.invariant (I := Onward password p) hl hs ⟨⟨p, hstate, .refl⟩, p, hflushed, .refl⟩
      fun hs h _ hstep => h.step hl hs hstep
  obtain ⟨⟨q', hq', hlater⟩, -⟩ := honward
  have hsound := (h.sound hl hs ks q hks hm).2
  rw [hq'] at hsound
  cases hsound
  exact hlater

end World

/-! ## Runs of a pair of slots lead to later states -/

namespace SlotWorld

variable {password : Bytes} {w w' : SlotWorld} {p : Parsed}

/-- The state of the last call that returned, and what was begun since, are later than `p`. -/
def Onward (p : Parsed) (w : SlotWorld) : Prop :=
  (∃ c, w.current = some c ∧ p.Later c) ∧ ∀ q, w.inflight = some q → p.Later q

theorem occupied_of_current (hinv : w.Inv password) {c : Parsed} (hc : w.current = some c) :
    occupied w.cells ≠ none := by
  cases hinv with
  | vacant _ _ _ hnone =>
    rw [hnone] at hc
    cases hc
  | stored hs => exact occupied_of_stored hs

theorem onward_create (hl : Crypto.Lawful) (hinv : w.Inv password) (h : Onward p w)
    {answers : Answers} {init : Init} {fates : List SlotFate} {r : Reply Error Keystore}
    {m : SlotMedium} (hpassword : init.password = password ∨ Reply.Short r ∧ m.cells = w.cells)
    (hfates : ∀ f ∈ fates, f.Allowed password)
    (hcall : createSlots answers init ⟨w.cells, none, false, fates⟩ = (r, m)) :
    Onward p (w.creating r m) := by
  obtain ⟨⟨c, hc, hlater⟩, hinflight⟩ := h
  have hsome := occupied_of_current hinv hc
  have hr : Reply.Short r := by
    rcases hpassword with rfl | ⟨hr, -⟩
    · rcases createSlots_cases hl (m := ⟨w.cells, none, false, fates⟩) hfates hcall with
        ⟨hr, -⟩ | ⟨hempty, -⟩
      · exact hr
      · exact absurd hempty hsome
    · exact hr
  rw [creating_short hr, if_neg (by simpa using hsome)]
  exact ⟨⟨c, hc, hlater⟩, hinflight⟩

theorem onward_open (hinv : w.Inv password) (h : Onward p w) {answers : Answers} {unlock : Unlock}
    {fates : List SlotFate} {r : Reply Error Keystore} {m : SlotMedium}
    (hpassword : unlock.password = password ∨ Reply.Short r ∧ m.cells = w.cells)
    (hfates : ∀ f ∈ fates, f.Allowed password)
    (hcall : openSlots answers unlock ⟨w.cells, none, false, fates⟩ = (r, m)) :
    Onward p (w.opening r m) := by
  by_cases hr : Reply.Short r
  · rw [opening_short hr]
    exact h
  obtain ⟨⟨c, hc, hlater⟩, hinflight⟩ := h
  rcases r with ks | e | _
  · obtain ⟨password', nonceSeed⟩ := unlock
    have hpw : password' = password := hpassword.resolve_right fun h => hr h.1
    subst hpw
    obtain ⟨q, hm, -, hq⟩ := openSlots_takes hinv hfates hcall
    refine ⟨⟨q, hm, ?_⟩, fun _ h => by cases h⟩
    rcases hq with hcurrent | ⟨hin, -⟩
    · rw [hc] at hcurrent
      cases hcurrent
      exact hlater
    · exact hinflight q hin
  · exact absurd (.inl ⟨e, rfl⟩) hr
  · exact absurd (.inr rfl) hr

theorem onward_write (hinv : w.Inv password) (h : Onward p w) {op : Op} {handle : SlotHandle}
    {fates : List SlotFate} {r : Reply Error (Option AdvanceReceipt)} {s : Opened SlotMedium}
    (hhandle : w.handle = some handle)
    (hcall : op.call ⟨handle.ks, ⟨w.cells, handle.newest, handle.vacate, fates⟩⟩ = (r, s)) :
    Onward p (w.writing handle.ks op r s) := by
  obtain ⟨⟨c, hc, hlater⟩, hinflight⟩ := h
  rcases hm : handle.ks.memory with _ | q
  · obtain ⟨first, hfirst⟩ := poisoned_of_memory hm
    rw [call_poisoned hfirst op] at hcall
    cases hcall
    refine ⟨⟨c, hc, hlater⟩, fun q hq => hinflight q ?_⟩
    simpa only [writing, hm, begun, Option.isSome_none, Bool.false_eq_true, if_false,
      Option.bind_none, Option.none_or] using hq
  have hcq : c = q := by
    rw [current_of_live hinv hhandle hm] at hc
    cases hc
    rfl
  subst hcq
  have hbegun {p' : Parsed} (hnext : c.next op = .ok p') : begun handle.ks op = some p' := by
    simp only [begun, hm, Option.bind_some, hnext, Except.toOption]
  have hstep {p' : Parsed} (hnext : c.next op = .ok p') : p.Later p' := hlater.tail ⟨op, hnext⟩
  have hm : (⟨handle.ks, ⟨w.cells, handle.newest, handle.vacate, fates⟩⟩ :
    Opened SlotMedium).ks.memory = some c := hm
  cases call_end hm hcall with
  | refused ht =>
    subst ht
    refine ⟨⟨c, hc, hlater⟩, fun q hq => hinflight q ?_⟩
    simpa only [writing, hm, Option.isSome_some, if_true] using hq
  | @done p' image hnext himage hsteps hks =>
    refine ⟨⟨p', ?_, hstep hnext⟩, fun _ h => by cases h⟩
    simp only [writing, hks]
    rfl
  | @failed p' image e hnext himage hsteps hks =>
    refine ⟨⟨c, hc, hlater⟩, fun q hq => ?_⟩
    have hnone : s.ks.memory = none := by rw [hks]; rfl
    simp only [writing, hnone, Option.isSome_none, Bool.false_eq_true, if_false, hbegun hnext,
      Option.some_or, Option.some.injEq] at hq
    subst hq
    exact hstep hnext
  | @killed p' image hnext himage hsteps hks =>
    refine ⟨⟨c, hc, hlater⟩, fun q hq => ?_⟩
    simp only [writing, hbegun hnext, Option.some_or, Option.some.injEq] at hq
    subst hq
    exact hstep hnext

theorem Onward.step (hl : Crypto.Lawful) (hinv : w.Inv password) (h : Onward p w)
    (hstep : w.Step password w') : Onward p w' := by
  cases hstep with
  | create _ hpassword hfates hcall => exact onward_create hl hinv h hpassword hfates hcall
  | open' _ hpassword hfates hcall => exact onward_open hinv h hpassword hfates hcall
  | write hhandle _ hcall => exact onward_write hinv h hhandle hcall
  | close => exact h
  | powerCut => exact h

theorem Run.later (hl : Crypto.Lawful) (h : Run password w w') (hinv : w.Inv password)
    (hcurrent : w.current = some p) (hinflight : w.inflight = none) {handle : SlotHandle} {q : Parsed}
    (hhandle : w'.handle = some handle) (hm : handle.ks.memory = some q) : p.Later q := by
  have honward : w'.Inv password ∧ Onward p w' := by
    clear hhandle
    induction h with
    | refl =>
      refine ⟨hinv, ⟨p, hcurrent, .refl⟩, fun q hq => ?_⟩
      rw [hinflight] at hq
      cases hq
    | tail _ hstep ih =>
      obtain ⟨hinv', honward⟩ := ih
      exact ⟨(hstep.inv hl hinv').1, honward.step hl hinv' hstep⟩
  obtain ⟨hinv', ⟨c, hc, hlater⟩, -⟩ := honward
  rw [current_of_live hinv' hhandle hm] at hc
  cases hc
  exact hlater

end SlotWorld

end MochimoWallet.Keystore
