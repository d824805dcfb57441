import MochimoWallet.Keystore.Reservations
import MochimoWallet.Keystore.Sign
import MochimoWallet.Keystore.Writes

/-!
# Releases

A signature that leaves the store, with what it is over: a `Release`, read off the
arguments and the open reservation. Both signing calls release only what an open
reservation holds, signed with the key of its position (`spendRelease_eq_some`,
`resignRelease_eq_some`), and a poisoned handle releases nothing.
-/

namespace MochimoWallet.Keystore

open Codec OneTime

variable [Crypto]

/-! ## What is released -/

/-- The reservation `resignReserved` signs again. -/
def openReservation (ks : Keystore) (tag : Tag) : Except Error Pending := do
  let (_, slots) ← ks.live
  let slot ← slotOf slots tag
  match slot.pending with
  | none => .error .nothingPending
  | some pending => .ok pending

/-- A signature that left, and what it was given for. -/
structure Released extends Release Tag Digest where
  signature : SpendSignature

/-- A signature given for `digest`, as a release. -/
def released (tag : Tag) (digest : Digest) : Except Error SpendSignature → Option Released
  | .ok sig => some ⟨⟨tag, sig.spentIndex.pos, digest⟩, sig⟩
  | .error _ => none

/-- What a signature by receipt releases. -/
def spendRelease (ks : Keystore) (digest : Digest) (receipt : AdvanceReceipt) (access : KeyAccess) :
    Option Released :=
  released receipt.tag digest (ks.signSpend digest receipt access)

/-- What a signature by reservation releases. -/
def resignRelease (ks : Keystore) (tag : Tag) (access : KeyAccess) : Option Released :=
  match ks.openReservation tag with
  | .ok pending => released tag pending.digest (ks.resignReserved tag access)
  | .error _ => none

/-- What the key of the open reservation's position makes of the reserved digest. -/
def Released.MadeIn (x : Released) (p : Parsed) : Prop :=
  ∃ slot pending access key, p.slots.get? x.name = some slot ∧ slot.pending = some pending ∧
    keyAt p.slots slot pending.spentIndex access = .ok key ∧ x.position = pending.spentIndex.pos ∧
    x.message = pending.digest ∧ x.signature = signWith key pending.spentIndex pending.digest

theorem resignReserved_eq_ok {ks : Keystore} {p : Parsed} (hm : ks.memory = some p) {tag : Tag}
    {access : KeyAccess} {sig : SpendSignature} :
    ks.resignReserved tag access = .ok sig ↔
      ∃ slot pending key, p.slots.get? tag = some slot ∧ slot.pending = some pending ∧
        keyAt p.slots slot pending.spentIndex access = .ok key ∧
        sig = signWith key pending.spentIndex pending.digest := by
  rw [resignReserved, live_of_memory hm, ok_bind]
  constructor
  · intro h
    obtain ⟨slot, hslot, h⟩ := bind_eq_ok.mp h
    rcases hp : slot.pending with _ | pending <;> rw [hp] at h
    · cases h
    · obtain ⟨key, hkey, h⟩ := bind_eq_ok.mp h
      cases h
      exact ⟨slot, pending, key, slotOf_eq_ok.mp hslot, hp, hkey, rfl⟩
  · rintro ⟨slot, pending, key, hslot, hp, hkey, rfl⟩
    simp only [slotOf_eq_ok.mpr hslot, ok_bind, hp, hkey]

theorem resolve_eq_ok {ks : Keystore} {p : Parsed} (hm : ks.memory = some p) {digest : Digest}
    {receipt : AdvanceReceipt} {access : KeyAccess} {r : WotsIndex × WotsKey} :
    ks.resolve digest receipt access = .ok r ↔
      ∃ slot pending key, p.slots.get? receipt.tag = some slot ∧
        slot.account.wotsIndex = receipt.index ∧ slot.pending = some pending ∧
        receipt.index.pos = pending.spentIndex.pos + 1 ∧ pending.digest = digest ∧
        keyAt p.slots slot pending.spentIndex access = .ok key ∧ r = (pending.spentIndex, key) := by
  rw [resolve, live_of_memory hm, ok_bind]
  have hadv {i j : WotsIndex} : i.advanced.toOption = some j ↔ j.pos = i.pos + 1 := by
    rw [← WotsIndex.advanced_eq_ok]
    cases i.advanced <;> simp [Except.toOption]
  constructor
  · intro h
    obtain ⟨slot, hslot, h⟩ := bind_eq_ok.mp h
    dsimp only at h
    split at h
    · cases h
    next hstored =>
    rcases hp : slot.pending with _ | pending <;> rw [hp] at h
    · cases h
    dsimp only at h
    split at h
    · cases h
    next hprev =>
    split at h
    · cases h
    next hdigest =>
    obtain ⟨key, hkey, h⟩ := bind_eq_ok.mp h
    cases h
    exact ⟨slot, pending, key, slotOf_eq_ok.mp hslot, not_not.mp hstored, hp,
      hadv.mp (not_not.mp hprev), not_not.mp hdigest, hkey, rfl⟩
  · rintro ⟨slot, pending, key, hslot, hstored, hp, hprev, hdigest, hkey, rfl⟩
    simp only [slotOf_eq_ok.mpr hslot, ok_bind, hstored, ne_eq, not_true_eq_false, if_false, hp,
      hadv.mpr hprev, hdigest, hkey]

theorem signSpend_eq_ok {ks : Keystore} {p : Parsed} (hm : ks.memory = some p) {digest : Digest}
    {receipt : AdvanceReceipt} {access : KeyAccess} {sig : SpendSignature} :
    ks.signSpend digest receipt access = .ok sig ↔
      ∃ slot pending key, p.slots.get? receipt.tag = some slot ∧
        slot.account.wotsIndex = receipt.index ∧ slot.pending = some pending ∧
        receipt.index.pos = pending.spentIndex.pos + 1 ∧ pending.digest = digest ∧
        keyAt p.slots slot pending.spentIndex access = .ok key ∧
        sig = signWith key pending.spentIndex digest := by
  rw [signSpend]
  constructor
  · intro h
    obtain ⟨r, hr, h⟩ := bind_eq_ok.mp h
    obtain ⟨slot, pending, key, hslot, hstored, hp, hprev, hdigest, hkey, rfl⟩ :=
      (resolve_eq_ok hm).mp hr
    cases h
    exact ⟨slot, pending, key, hslot, hstored, hp, hprev, hdigest, hkey, rfl⟩
  · rintro ⟨slot, pending, key, hslot, hstored, hp, hprev, hdigest, hkey, rfl⟩
    rw [(resolve_eq_ok hm).mpr ⟨slot, pending, key, hslot, hstored, hp, hprev, hdigest, hkey, rfl⟩,
      ok_bind]

theorem addressAt_eq_ok {ks : Keystore} {p : Parsed} (hm : ks.memory = some p) {tag : Tag}
    {position : WotsIndex} {access : KeyAccess} {a : Address} :
    ks.addressAt tag position access = .ok a ↔
      ∃ slot key, p.slots.get? tag = some slot ∧ keyAt p.slots slot position access = .ok key ∧
        a = key.address tag := by
  rw [addressAt, live_of_memory hm, ok_bind]
  constructor
  · intro h
    obtain ⟨slot, hslot, h⟩ := bind_eq_ok.mp h
    obtain ⟨key, hkey, h⟩ := bind_eq_ok.mp h
    cases h
    exact ⟨slot, key, slotOf_eq_ok.mp hslot, hkey, rfl⟩
  · rintro ⟨slot, key, hslot, hkey, rfl⟩
    simp only [slotOf_eq_ok.mpr hslot, ok_bind, hkey]

theorem spendAddresses_eq_ok {ks : Keystore} {p : Parsed} (hm : ks.memory = some p) {tag : Tag}
    {access : KeyAccess} {addresses : SpendAddresses} :
    ks.spendAddresses tag access = .ok addresses ↔
      ∃ slot next source change, p.slots.get? tag = some slot ∧ slot.pending = none ∧
        slot.account.wotsIndex.advanced = .ok next ∧
        keyAt p.slots slot slot.account.wotsIndex access = .ok source ∧
        keyAt p.slots slot next access = .ok change ∧
        addresses = ⟨tag, slot.account.wotsIndex, source.address tag, change.address tag⟩ := by
  rw [spendAddresses, live_of_memory hm, ok_bind]
  constructor
  · intro h
    obtain ⟨slot, hslot, h⟩ := bind_eq_ok.mp h
    obtain ⟨⟨⟩, hopen, h⟩ := bind_eq_ok.mp h
    obtain ⟨next, hnext, h⟩ := bind_eq_ok.mp h
    obtain ⟨source, hsource, h⟩ := bind_eq_ok.mp h
    obtain ⟨change, hchange, h⟩ := bind_eq_ok.mp h
    cases h
    exact ⟨slot, next, source, change, slotOf_eq_ok.mp hslot, refuseOpen_eq_ok.mp hopen, hnext,
      hsource, hchange, rfl⟩
  · rintro ⟨slot, next, source, change, hslot, hopen, hnext, hsource, hchange, rfl⟩
    simp only [slotOf_eq_ok.mpr hslot, ok_bind, refuseOpen_eq_ok.mpr hopen, hnext, hsource, hchange]

/-- A release is of the open reservation of a slot, and is signed with the key of its position. -/
theorem spendRelease_eq_some {ks : Keystore} {p : Parsed} (hm : ks.memory = some p)
    {digest : Digest} {receipt : AdvanceReceipt} {access : KeyAccess} {x : Released}
    (h : ks.spendRelease digest receipt access = some x) :
    ∃ slot pending key, p.slots.get? receipt.tag = some slot ∧ slot.pending = some pending ∧
      slot.account.wotsIndex = receipt.index ∧
      keyAt p.slots slot pending.spentIndex access = .ok key ∧
      x = ⟨⟨receipt.tag, pending.spentIndex.pos, pending.digest⟩,
        signWith key pending.spentIndex pending.digest⟩ := by
  unfold spendRelease released at h
  split at h <;> cases h
  next sig hsig =>
  obtain ⟨slot, pending, key, hslot, hstored, hp, -, rfl, hkey, rfl⟩ := (signSpend_eq_ok hm).mp hsig
  exact ⟨slot, pending, key, hslot, hp, hstored, hkey, rfl⟩

theorem resignRelease_eq_some {ks : Keystore} {p : Parsed} (hm : ks.memory = some p) {tag : Tag}
    {access : KeyAccess} {x : Released} (h : ks.resignRelease tag access = some x) :
    ∃ slot pending key, p.slots.get? tag = some slot ∧ slot.pending = some pending ∧
      keyAt p.slots slot pending.spentIndex access = .ok key ∧
      x = ⟨⟨tag, pending.spentIndex.pos, pending.digest⟩,
        signWith key pending.spentIndex pending.digest⟩ := by
  unfold resignRelease at h
  split at h
  · next pending hopen =>
    unfold released at h
    split at h <;> cases h
    next sig hsig =>
    obtain ⟨slot, pending', key, hslot, hp, hkey, rfl⟩ := (resignReserved_eq_ok hm).mp hsig
    have : pending' = pending := by
      simpa [openReservation, live_of_memory hm, ok_bind, slotOf_eq_ok.mpr hslot, hp] using hopen
    subst this
    exact ⟨slot, pending', key, hslot, hp, hkey, rfl⟩
  · cases h

/-- A poisoned handle releases nothing. -/
theorem live_of_released {ks : Keystore} {x : Released}
    (h : (∃ digest receipt access, ks.spendRelease digest receipt access = some x) ∨
      ∃ tag access, ks.resignRelease tag access = some x) : ∃ p, ks.memory = some p := by
  unfold memory
  rcases hs : ks.state with ⟨generation, slots⟩ | first
  · exact ⟨_, rfl⟩
  have hlive : ks.live = .error (.poisoned first) := by simp only [live, hs]
  rcases h with ⟨digest, receipt, access, h⟩ | ⟨tag, access, h⟩
  · simp only [spendRelease, signSpend, resolve, hlive, error_bind, released] at h
    cases h
  · simp only [resignRelease, openReservation, hlive, error_bind] at h
    cases h

/-- What a handle releases was made in its memory. -/
theorem madeIn_of_released {ks : Keystore} {x : Released}
    (h : (∃ digest receipt access, ks.spendRelease digest receipt access = some x) ∨
      ∃ tag access, ks.resignRelease tag access = some x) :
    ∃ p, ks.memory = some p ∧ x.MadeIn p := by
  obtain ⟨p, hm⟩ := live_of_released h
  refine ⟨p, hm, ?_⟩
  rcases h with ⟨digest, receipt, access, hx⟩ | ⟨tag, access, hx⟩
  · obtain ⟨slot, pending, key, hslot, hopen, -, hkey, rfl⟩ := spendRelease_eq_some hm hx
    exact ⟨slot, pending, access, key, hslot, hopen, hkey, rfl, rfl, rfl⟩
  · obtain ⟨slot, pending, key, hslot, hopen, hkey, rfl⟩ := resignRelease_eq_some hm hx
    exact ⟨slot, pending, access, key, hslot, hopen, hkey, rfl, rfl, rfl⟩

end MochimoWallet.Keystore
