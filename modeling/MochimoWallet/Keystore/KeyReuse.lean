import MochimoWallet.Keystore.Run

/-!
# Which positions share a key

`keyAt` gives a position the first key of its account or a rotation of the account's
stream. Two rotations are one key only in one stream, and a store holds no stream
twice (`Grown.streams`). The first keys are not held apart from the rotations: a
derived account's first key is a rotation of the master's own stream, and an imported
one is whatever components its address came with. `Apart` says that no stored account
has the master for its stream seed, and that no imported first key is a rotation of a
stored stream; `separated_iff` says that this is exactly when no two positions of a
reachable store share a key.
-/

namespace MochimoWallet.Keystore

open Codec

section
variable [Crypto]

/-- The generator gives no key twice. -/
def StreamsInjective : Prop :=
  ∀ seed seed' r r', deriveWotsKey seed r = deriveWotsKey seed' r' → seed = seed' ∧ r = r'

/-- The seed an account's rotations are drawn from, under a master. -/
def seedOf (master : Secret) (account : Account) : Secret :=
  match account.key with
  | .derived accountIndex _ => (deriveAccount master accountIndex).seed
  | .imported root _ _ => root

/-- What the wallet hands `keyAt` for an account. -/
def accessOf (master : Secret) (account : Account) : KeyAccess :=
  match account.key with
  | .derived .. => .master master
  | .imported .. => .storedRoot

/-- No two positions of the store resolve to one key. -/
def Separated (master : Secret) (p : Parsed) : Prop :=
  ∀ tag slot position key tag' slot' position' key',
    p.slots.get? tag = some slot →
    keyAt p.slots slot position (accessOf master slot.account) = .ok key →
    p.slots.get? tag' = some slot' →
    keyAt p.slots slot' position' (accessOf master slot'.account) = .ok key' →
    key.secret = key'.secret → key.pubSeed = key'.pubSeed → key.adrs = key'.adrs →
      tag = tag' ∧ position = position'

/-- The two things that nothing checks. -/
structure Apart (master : Secret) (p : Parsed) : Prop where
  /-- While a derived account's first key is a rotation that an account could reach, no stored
  account's stream is the master's own. -/
  master_unused : ∀ tag slot accountIndex stream tag' slot', p.slots.get? tag = some slot →
    slot.account.key = .derived accountIndex stream → accountIndex.toNat + 1 < 2 ^ 32 →
    p.slots.get? tag' = some slot' → seedOf master slot'.account ≠ master
  /-- No imported first key is a rotation of a stored account's stream. -/
  first_fresh : ∀ tag slot root first stream tag' slot' rotation, p.slots.get? tag = some slot →
    slot.account.key = .imported root first stream → p.slots.get? tag' = some slot' →
    rotation.toNat + 1 < 2 ^ 32 →
      firstKeyFromComponents root first.pubSeed first.adrs ≠
        deriveWotsKey (seedOf master slot'.account) rotation

/-! ## Stores as they grow -/

/-- Where an account a caller adds comes from. -/
def Sourced (master : Secret) (account : Account) : Prop :=
  (∃ accountIndex, account = .derive master accountIndex) ∨
    ∃ root firstAddress, Account.importFrom root firstAddress = .ok account

/-- A write that adds accounts of this master, or imports, and adopts no other master. -/
def Op.OfMaster (master : Secret) : Op → Prop
  | .adoptMaster m => m = master
  | .add account => Sourced master account
  | _ => True

/-- What an account says of the master it was derived from. -/
def Origin (master : Secret) (account : Account) : Prop :=
  ∀ accountIndex stream, account.key = .derived accountIndex stream →
    account.tag = (deriveAccount master accountIndex).tag ∧
      stream = MochimoWallet.streamId (deriveAccount master accountIndex).seed

theorem Sourced.origin {master : Secret} {account : Account} (h : Sourced master account) :
    Origin master account := by
  intro accountIndex stream hkey
  rcases h with ⟨i, rfl⟩ | ⟨root, firstAddress, h⟩
  · cases hkey; exact ⟨rfl, rfl⟩
  · unfold Account.importFrom at h
    dsimp only at h
    split at h
    · cases h
    · cases h; cases hkey

/-- The invariant of growth: every account has its origin, and no stream is stored twice. -/
structure Grown (master : Secret) (p : Parsed) : Prop where
  origin : ∀ tag slot, p.slots.get? tag = some slot → Origin master slot.account
  streams : ∀ tag slot tag' slot', p.slots.get? tag = some slot → p.slots.get? tag' = some slot' →
    slot.account.key.stream = slot'.account.key.stream → tag = tag'

theorem stream_of_recomputed {master : Option Secret} {account : Account} {stream : StreamId}
    (h : recomputedStreamId master account = .ok stream) : account.key.stream = stream := by
  obtain ⟨tag, key, index, hverified⟩ := account
  cases key with
  | imported root first stream' =>
    cases h
    exact hverified.2.symm
  | derived accountIndex stream' =>
    simp only [recomputedStreamId] at h
    split at h
    · split at h
      · cases h
      split at h
      · cases h
      · next hsame => cases h; exact (not_not.mp hsame).symm
    · cases h; rfl

theorem grown_emptyStore (master : Secret) : Grown master emptyStore where
  origin _ _ h := by cases h
  streams _ _ _ _ h := by cases h

/-- A slot after a write: the account it added, or a slot of before with its key material. -/
theorem slot_of_step {p p' : Parsed} {op : Op} (h : p.Step p' op) {tag : Tag} {slot' : Slot}
    (hslot : p'.slots.get? tag = some slot') :
    (∃ account, op = .add account ∧ tag = account.tag ∧ slot' = ⟨account, none, none⟩ ∧
        ∀ t s, p.slots.get? t = some s → s.account.key.stream ≠ account.key.stream) ∨
      ∃ slot, p.slots.get? tag = some slot ∧ slot'.account.key = slot.account.key ∧
        slot'.account.tag = slot.account.tag := by
  have hmoved {t : Tag} {s : Slot} {g : UInt64} {index : WotsIndex} {pending settled : Option Pending}
      (hs : p.slots.get? t = some s) (hslots : p'.slots = (p.write g t index pending settled).slots) :
      ∃ slot, p.slots.get? tag = some slot ∧ slot'.account.key = slot.account.key ∧
        slot'.account.tag = slot.account.tag := by
    rw [hslots, Parsed.write_slots hs, OrdMap.get?_modify] at hslot
    split at hslot
    · next ht =>
      subst ht
      rw [hs] at hslot
      cases hslot
      exact ⟨s, hs, rfl, rfl⟩
    · exact ⟨slot', hslot, rfl, rfl⟩
  cases h with
  | adoptMaster hnone hslots => exact .inr ⟨slot', hslots ▸ hslot, rfl, rfl⟩
  | @add account incoming htag hroot hstream hnew hslots =>
    rw [hslots, OrdMap.get?_insert] at hslot
    split at hslot
    · next ht =>
      cases hslot
      refine .inl ⟨account, rfl, ht, rfl, fun t s hs => ?_⟩
      rw [stream_of_recomputed hstream]
      exact hnew t s hs
    · exact .inr ⟨slot', hslot, rfl, rfl⟩
  | persistAdvance hs hopen hindex hslots => exact .inr (hmoved hs hslots)
  | persistAdvanceTo hs hopen hahead hslots => exact .inr (hmoved hs hslots)
  | persistSettled hs hopen hslots => exact .inr (hmoved hs hslots)

theorem Grown.step {master : Secret} {p p' : Parsed} {op : Op} (hg : Grown master p)
    (hop : op.OfMaster master) (h : p.Step p' op) : Grown master p' where
  origin tag slot' hslot' := by
    rcases slot_of_step h hslot' with ⟨account, rfl, -, rfl, -⟩ | ⟨slot, hslot, hkey, htag⟩
    · exact Sourced.origin hop
    · intro accountIndex stream hderived
      rw [htag]
      exact hg.origin tag slot hslot accountIndex stream (hkey ▸ hderived)
  streams tag slot tag' slot' hslot hslot' hstream := by
    rcases slot_of_step h hslot with ⟨account, rfl, ht, rfl, hnew⟩ | ⟨s, hs, hkey, -⟩ <;>
      rcases slot_of_step h hslot' with ⟨account', hop', ht', rfl, hnew'⟩ | ⟨s', hs', hkey', -⟩
    · cases hop'
      exact ht.trans ht'.symm
    · rw [hkey'] at hstream
      exact absurd hstream.symm (hnew tag' s' hs')
    · rw [hkey] at hstream
      exact absurd hstream (hnew' tag s hs)
    · rw [hkey, hkey'] at hstream
      exact hg.streams tag s tag' s' hs hs' hstream

/-! ## The key at a position -/

/-- The key of a position, without the refusals. -/
def keyOf (master : Secret) (account : Account) (position : WotsIndex) : WotsKey :=
  match position.rotation with
  | some rotation => deriveWotsKey (seedOf master account) rotation
  | none =>
    match account.key with
    | .derived accountIndex _ => deriveWotsKey master accountIndex
    | .imported root first _ => firstKeyFromComponents root first.pubSeed first.adrs

theorem stream_seedOf {master : Secret} {account : Account} (h : Origin master account) :
    account.key.stream = MochimoWallet.streamId (seedOf master account) := by
  obtain ⟨tag, key, index, hverified⟩ := account
  cases key with
  | imported root first stream => exact hverified.2.symm
  | derived accountIndex stream => exact (h accountIndex stream rfl).2

/-- Stored accounts with one stream seed are one account. -/
theorem Grown.seed_inj {master : Secret} {p : Parsed} (hg : Grown master p) {tag tag' : Tag}
    {slot slot' : Slot} (hslot : p.slots.get? tag = some slot)
    (hslot' : p.slots.get? tag' = some slot')
    (h : seedOf master slot.account = seedOf master slot'.account) : tag = tag' := by
  refine hg.streams tag slot tag' slot' hslot hslot' ?_
  rw [stream_seedOf (hg.origin tag slot hslot), stream_seedOf (hg.origin tag' slot' hslot'), h]

/-- In a store of this master nothing is refused: every position resolves. -/
theorem keyAt_grown {master : Secret} {p : Parsed} (hg : Grown master p) {tag : Tag} {slot : Slot}
    (hslot : p.slots.get? tag = some slot) (position : WotsIndex) :
    keyAt p.slots slot position (accessOf master slot.account) =
      .ok (keyOf master slot.account position) := by
  cases hkey : slot.account.key with
  | imported root first stream =>
    simp only [keyAt, accessOf, keyOf, seedOf, hkey]
    cases position.rotation <;> rfl
  | derived accountIndex stream =>
    obtain ⟨htag, hstream⟩ := hg.origin tag slot hslot accountIndex stream hkey
    have hroots : ¬ (importedRoots p.slots).any
        (· = (deriveAccount master accountIndex).seed) = true := by
      rw [List.any_eq_true]
      rintro ⟨root, hroot, hsame⟩
      obtain ⟨slot', hvalue, hroot⟩ := List.mem_filterMap.mp hroot
      obtain ⟨tag', hslot'⟩ := OrdMap.mem_values_iff.mp hvalue
      have hseed : seedOf master slot.account = seedOf master slot'.account := by
        cases hkey' : slot'.account.key with
        | derived => rw [hkey'] at hroot; cases hroot
        | imported root' first' stream' =>
          rw [hkey'] at hroot
          cases hroot
          simp only [seedOf, hkey, hkey']
          exact (of_decide_eq_true hsame).symm
      have := hg.seed_inj hslot hslot' hseed
      subst this
      rw [hslot] at hslot'
      cases hslot'
      rw [hkey] at hroot
      cases hroot
    simp only [keyAt, accessOf, keyOf, seedOf, hkey, htag, hstream, ne_eq, not_true_eq_false,
      if_false, hroots]
    cases position.rotation <;> rfl

/-- An account's tag is its first key's. -/
theorem tag_keyOf_zero {master : Secret} {account : Account} (h : Origin master account) :
    (keyOf master account .zero).tag = account.tag := by
  obtain ⟨tag, key, index, hverified⟩ := account
  cases key with
  | imported root first stream =>
    have hparts := hverified.1
    simp only [importedParts, firstKeyFrom_toBytes] at hparts
    exact hparts
  | derived accountIndex stream => exact (h accountIndex stream rfl).1.symm

/-- A first key that is a rotation of a stored account's stream breaks one of the two. -/
theorem Apart.first_ne_rotation (hinj : StreamsInjective) {master : Secret} {p : Parsed}
    (ha : Apart master p) {tag tag' : Tag} {slot slot' : Slot} (hslot : p.slots.get? tag = some slot)
    (hslot' : p.slots.get? tag' = some slot') {position position' : WotsIndex} {rotation : UInt32}
    (hnone : position.rotation = none) (hsome : position'.rotation = some rotation) :
    keyOf master slot.account position ≠ keyOf master slot'.account position' := by
  intro hsame
  have hbound := WotsIndex.rotation_lt hsome
  simp only [keyOf, hnone, hsome] at hsame
  cases hkey : slot.account.key with
  | derived accountIndex stream =>
    rw [hkey] at hsame
    obtain ⟨hseed, rfl⟩ := hinj _ _ _ _ hsame
    exact ha.master_unused tag slot accountIndex stream tag' slot' hslot hkey hbound hslot' hseed.symm
  | imported root first stream =>
    rw [hkey] at hsame
    exact ha.first_fresh tag slot root first stream tag' slot' rotation hslot hkey hslot' hbound hsame

/-- Two positions of one key are one position. -/
theorem Apart.separated (hinj : StreamsInjective) {master : Secret} {p : Parsed}
    (hg : Grown master p) (hwf : p.Wf) (ha : Apart master p) : Separated master p := by
  intro tag slot position key tag' slot' position' key' hslot hkey hslot' hkey' hs hp hadrs
  rw [keyAt_grown hg hslot] at hkey
  rw [keyAt_grown hg hslot'] at hkey'
  cases hkey
  cases hkey'
  have hsame := WotsKey.ext_parts hs hp hadrs
  cases hrot : position.rotation with
  | none =>
    cases hrot' : position'.rotation with
    | none =>
      have hzero := WotsIndex.rotation_eq_none.mp hrot
      have hzero' := WotsIndex.rotation_eq_none.mp hrot'
      subst hzero hzero'
      have htags := congrArg WotsKey.tag hsame
      rw [tag_keyOf_zero (hg.origin tag slot hslot), tag_keyOf_zero (hg.origin tag' slot' hslot'),
        hwf.tags hslot, hwf.tags hslot'] at htags
      exact ⟨htags, rfl⟩
    | some rotation => exact absurd hsame (ha.first_ne_rotation hinj hslot hslot' hrot hrot')
  | some rotation =>
    cases hrot' : position'.rotation with
    | none => exact absurd hsame.symm (ha.first_ne_rotation hinj hslot' hslot hrot' hrot)
    | some rotation' =>
      simp only [keyOf, hrot, hrot'] at hsame
      obtain ⟨hseed, rfl⟩ := hinj _ _ _ _ hsame
      refine ⟨hg.seed_inj hslot hslot' hseed, WotsIndex.ext_pos ?_⟩
      rw [WotsIndex.rotation_eq_some.mp hrot, WotsIndex.rotation_eq_some.mp hrot']

/-- A first key and a rotation that are one key are two positions. -/
theorem Separated.first_ne_rotation {master : Secret} {p : Parsed} (hg : Grown master p)
    (h : Separated master p) {tag tag' : Tag} {slot slot' : Slot}
    (hslot : p.slots.get? tag = some slot) (hslot' : p.slots.get? tag' = some slot')
    {rotation : UInt32} (hbound : rotation.toNat + 1 < 2 ^ 32) :
    keyOf master slot.account .zero ≠ deriveWotsKey (seedOf master slot'.account) rotation := by
  intro hsame
  obtain ⟨position, hrot⟩ := WotsIndex.exists_rotation hbound
  have hkey' : keyOf master slot'.account position =
      deriveWotsKey (seedOf master slot'.account) rotation := by
    simp only [keyOf, hrot]
  rw [← hkey'] at hsame
  have hzero := (h tag slot .zero _ tag' slot' position _ hslot (keyAt_grown hg hslot .zero) hslot'
    (keyAt_grown hg hslot' position) (congrArg _ hsame) (congrArg _ hsame) (congrArg _ hsame)).2
  rw [← hzero] at hrot
  cases hrot

theorem Separated.apart {master : Secret} {p : Parsed} (hg : Grown master p)
    (h : Separated master p) : Apart master p where
  master_unused tag slot accountIndex stream tag' slot' hslot hkey hbound hslot' hseed := by
    refine h.first_ne_rotation hg hslot hslot' hbound ?_
    rw [hseed]
    simp only [keyOf, hkey]
    rfl
  first_fresh tag slot root first stream tag' slot' rotation hslot hkey hslot' hbound hsame := by
    refine h.first_ne_rotation hg hslot hslot' hbound ?_
    rw [← hsame]
    simp only [keyOf, hkey]
    rfl

/-! ## Parts of a key -/

theorem secret_deriveSeed (seed : Secret) (id : UInt32) :
    (deriveSeed seed.1 id).secret = ((DigestRandomGenerator.new.addSeedMaterial
      (Crypto.sha512 (seed.1 ++ (indexBytes id).1)).1).fill seedLen).1 := rfl

theorem secret_deriveWotsKey (seed : Secret) (id : UInt32) :
    (deriveWotsKey seed id).secret = (deriveSeed seed.1 id).secret := rfl

theorem pubSeed_deriveWotsKey (seed : Secret) (id : UInt32) :
    (deriveWotsKey seed id).pubSeed.1 =
      (((deriveSeed seed.1 id).prng.fill wotsAddrLen).1.1.drop pkLen).take seedLen := rfl

/-! ## Reachable stores -/

/-- The steps of a store that is created, grown with accounts of one master and imports, advanced
and reopened. -/
def Grows (master : Secret) (_ : World) (e : Event) : Prop :=
  e.isPowerCut = false ∧ ∀ op, e = .write op → op.OfMaster master

theorem grown_run (hl : Crypto.Lawful) {password : Bytes} {master : Secret} {w : World}
    (hrun : World.Run password (Grows master) World.nowhere w) {p : Parsed}
    (hp : w.state password = some p) : Grown master p := by
  have hgrown : ∀ p, w.state password = some p → Grown master p := by
    refine hrun.invariant hl (World.sound_of_closed rfl)
      (I := fun v => ∀ p, v.state password = some p → Grown master p) (fun p h => by cases h) ?_
    intro v v' e hs hI hok hstep p' hp'
    have hchange := (hstep.refines hl hs (Event.ne_powerCut hok.1)).change
    rw [hp'] at hchange
    rcases hv : v.state password with _ | p <;> rw [hv] at hchange
    · cases hchange with
      | created => exact grown_emptyStore master
    · cases hchange with
      | same => exact hI _ hv
      | wrote he hnext => exact (hI _ hv).step (hok.2 _ he) (Parsed.step_of_next hnext).1
  exact hgrown p hp

/-- In every store reachable from create, no two positions resolve to one key if and only if no
stored account's stream is the master's own (while a derived account's first key is within its
reach) and no imported first key is a rotation of a stored stream. -/
theorem separated_iff (hl : Crypto.Lawful) (hinj : StreamsInjective) {password : Bytes}
    {master : Secret} {w : World} (hrun : World.Run password (Grows master) World.nowhere w)
    {ks : Keystore} {p : Parsed} (hks : w.handle = some ks) (hm : ks.memory = some p) :
    Separated master p ↔ Apart master p := by
  have hstate := (hrun.sound hl (World.sound_of_closed rfl) ks p hks hm).2
  have hg := grown_run hl hrun hstate
  exact ⟨fun h => h.apart hg, fun h => h.separated hinj hg (World.wf_of_reading hstate)⟩

end

/-! ## Stores that copy -/

section

attribute [local instance] Crypto.copying

theorem fit_append {n : ℕ} (b : Block n) (c : Bytes) : fit n (b.1 ++ c) = b := by
  refine Block.ext ?_
  show (b.1 ++ c ++ List.replicate n 0).take n = b.1
  rw [List.append_assoc, List.take_append_of_le_length b.2.ge, List.take_of_length_le b.2.le]

/-- The halves of a generator's seed, exchanged. -/
def exchanged (seed : Block stateLen) : Block stateLen :=
  fit stateLen (seed.1.drop 32 ++ seed.1)

theorem generateState_copying (g : DigestRandomGenerator) :
    g.generateState.seed = g.seed ∧ g.generateState.state = exchanged g.seed := by
  have hstate : Crypto.sha512 ((counterBytes g.stateCounter).1 ++ g.state.1 ++ g.seed.1) =
      exchanged g.seed := by
    have hlen : ((counterBytes g.stateCounter).1 ++ g.state.1 ++ g.seed.1).length = 136 := by
      simp [Block.length_eq, stateLen]
    have hhead : ((counterBytes g.stateCounter).1 ++ g.state.1).length = 72 := by
      simp [Block.length_eq, stateLen]
    have h72 : ((counterBytes g.stateCounter).1 ++ g.state.1 ++ g.seed.1).drop 72 = g.seed.1 :=
      List.drop_left' hhead
    have h104 : ((counterBytes g.stateCounter).1 ++ g.state.1 ++ g.seed.1).drop 104 =
        g.seed.1.drop 32 := by
      rw [show 104 = 72 + 32 from rfl, ← List.drop_drop, h72]
    simp only [Crypto.sha512, hlen, if_true, h72, h104, exchanged]
  have hcycle (h : DigestRandomGenerator) : h.cycleSeed.seed = h.seed := by
    have hlen : ¬ (h.seed.1 ++ (counterBytes h.seedCounter).1).length = 136 := by
      simp [Block.length_eq, stateLen]
    simp only [DigestRandomGenerator.cycleSeed, Crypto.sha512, if_neg hlen]
    exact fit_append ..
  unfold DigestRandomGenerator.generateState
  dsimp only
  split
  · exact ⟨hcycle _, hstate⟩
  · exact ⟨rfl, hstate⟩

theorem fillChunks_copying (chunks n : ℕ) (g : DigestRandomGenerator) :
    (DigestRandomGenerator.fillChunks chunks n g).1 =
        (List.replicate chunks (exchanged g.seed).1).flatten.take n ∧
      (DigestRandomGenerator.fillChunks chunks n g).2.seed = g.seed := by
  induction chunks generalizing n g with
  | zero => simp [DigestRandomGenerator.fillChunks]
  | succ chunks ih =>
    obtain ⟨hseed, hstate⟩ := generateState_copying g
    obtain ⟨hfill, hrest⟩ := ih (n - stateLen) g.generateState
    simp only [DigestRandomGenerator.fillChunks]
    refine ⟨?_, hrest.trans hseed⟩
    rw [hfill, hseed, hstate, List.replicate_succ, List.flatten_cons, List.take_append,
      (exchanged g.seed).2]

theorem fill_copying (g : DigestRandomGenerator) (n : ℕ) :
    (g.fill n).1.1 =
        (List.replicate ((n + stateLen - 1) / stateLen) (exchanged g.seed).1).flatten.take n ∧
      (g.fill n).2.seed = g.seed :=
  fillChunks_copying ..

/-- The seed and the number a generator starts from, side by side. -/
def marked (seed : Secret) (id : UInt32) : Block stateLen := fit stateLen (seed.1 ++ (indexBytes id).1)

theorem deriveSeed_copying (seed : Secret) (id : UInt32) :
    (deriveSeed seed.1 id).secret.1 = (exchanged (marked seed id)).1.take 32 ∧
      (deriveSeed seed.1 id).prng.seed = marked seed id := by
  have hstart : (DigestRandomGenerator.new.addSeedMaterial
      (Crypto.sha512 (seed.1 ++ (indexBytes id).1)).1).seed = marked seed id := by
    have hshort : ¬ (seed.1 ++ (indexBytes id).1).length = 136 := by simp [Block.length_eq]
    have hlong : ¬ ((Crypto.sha512 (seed.1 ++ (indexBytes id).1)).1 ++
        DigestRandomGenerator.new.seed.1).length = 136 := by simp [Block.length_eq, stateLen]
    simp only [DigestRandomGenerator.addSeedMaterial]
    simp only [Crypto.sha512] at hlong ⊢
    rw [if_neg hlong, fit_append, if_neg hshort]
    rfl
  obtain ⟨hfill, hseed⟩ := fill_copying (DigestRandomGenerator.new.addSeedMaterial
    (Crypto.sha512 (seed.1 ++ (indexBytes id).1)).1) seedLen
  rw [hstart] at hfill hseed
  refine ⟨?_, hseed⟩
  rw [secret_deriveSeed, hfill, show (seedLen + stateLen - 1) / stateLen = 1 from rfl,
    List.replicate_one, List.flatten_singleton]

theorem pubSeed_copying (seed : Secret) (id : UInt32) :
    (deriveWotsKey seed id).pubSeed.1 = (exchanged (marked seed id)).1.drop 32 := by
  obtain ⟨-, hseed⟩ := deriveSeed_copying seed id
  obtain ⟨hfill, -⟩ := fill_copying (deriveSeed seed.1 id).prng wotsAddrLen
  rw [hseed] at hfill
  -- The public seed stands at 2144, in the middle of the thirty-fourth of thirty-five copies.
  obtain ⟨copy, hcopy⟩ : ∃ copy, exchanged (marked seed id) = copy := ⟨_, rfl⟩
  have hparts : (List.replicate 35 copy.1).flatten =
      ((List.replicate 33 copy.1).flatten ++ copy.1.take 32) ++ (copy.1.drop 32 ++ copy.1) := by
    rw [show 35 = 33 + 2 from rfl, List.replicate_add, List.flatten_append, List.append_assoc,
      ← List.append_assoc (copy.1.take 32), List.take_append_drop]
    simp
  have hhead : ((List.replicate 33 copy.1).flatten ++ copy.1.take 32).length = pkLen := by
    have h : ((List.replicate 33 copy.1).flatten ++ copy.1.take 32).length = 2144 := by
      simp [Block.length_eq, stateLen]
    exact h
  have htail : (copy.1.drop 32).length = 32 := by simp [Block.length_eq, stateLen]
  rw [pubSeed_deriveWotsKey, hfill, hcopy, show (wotsAddrLen + stateLen - 1) / stateLen = 35 from rfl, hparts,
    List.drop_take, List.drop_left' hhead, List.take_take]
  exact List.take_left' htail

theorem exchanged_inj {a b : Block stateLen} (h : exchanged a = exchanged b) : a = b := by
  have hparts (c : Block stateLen) : (exchanged c).1 = c.1.drop 32 ++ c.1.take 32 := by
    show (c.1.drop 32 ++ c.1 ++ List.replicate 64 0).take 64 = _
    have hlen : (c.1.drop 32).length = 32 := by simp [Block.length_eq, stateLen]
    rw [List.append_assoc, List.take_append, hlen, List.take_of_length_le (by omega),
      List.take_append_of_le_length (by simp [Block.length_eq, stateLen])]
  have h := congrArg Block.bytes h
  rw [hparts, hparts] at h
  obtain ⟨hdrop, htake⟩ := List.append_inj h (by simp [Block.length_eq])
  refine Block.ext ?_
  rw [← List.take_append_drop 32 a.1, ← List.take_append_drop 32 b.1, hdrop, htake]

theorem marked_inj {seed seed' : Secret} {id id' : UInt32} (h : marked seed id = marked seed' id') :
    seed = seed' ∧ id = id' := by
  have hhead (s : Secret) (i : UInt32) : (marked s i).1.take 36 = s.1 ++ (indexBytes i).1 := by
    have hlen : (s.1 ++ (indexBytes i).1).length = 36 := by simp [Block.length_eq]
    show ((s.1 ++ (indexBytes i).1 ++ List.replicate 64 0).take 64).take 36 = _
    rw [List.take_take]
    exact List.take_left' hlen
  have h := congrArg (fun b : Block stateLen => b.1.take 36) h
  simp only [hhead] at h
  obtain ⟨hseed, hid⟩ := Block.append_inj h
  refine ⟨hseed, u32le_injective (Block.ext ?_)⟩
  exact List.reverse_injective (congrArg Block.bytes hid)

theorem streamsInjective_copying : StreamsInjective := by
  intro seed seed' id id' h
  refine marked_inj (exchanged_inj (Block.ext ?_))
  have hsecret : (exchanged (marked seed id)).1.take 32 = (exchanged (marked seed' id')).1.take 32 := by
    rw [← (deriveSeed_copying seed id).1, ← (deriveSeed_copying seed' id').1,
      ← secret_deriveWotsKey, ← secret_deriveWotsKey, h]
  have hpub : (exchanged (marked seed id)).1.drop 32 = (exchanged (marked seed' id')).1.drop 32 := by
    rw [← pubSeed_copying, ← pubSeed_copying, h]
  rw [← List.take_append_drop 32 (exchanged (marked seed id)).1, hsecret, hpub,
    List.take_append_drop]

/-- A master that is neither zero nor the seed of an account. -/
def sevens : Secret := .replicate seedLen 7

def fives : FirstKey := ⟨.replicate seedLen 5, ⟨List.replicate 8 0, rfl⟩⟩

/-- A store of that master, with its first account and an import of `root`. -/
def growing (root : Secret) : List World.Command :=
  [.create ⟨[], .zero saltLen, .zero nonceSeedLen, ⟨8, 1, 1⟩⟩, .write (.adoptMaster sevens) [],
    .write (.add (.derive sevens 0)) [], .write (.add (.ofFirst root fives)) []]

theorem run_growing (root : Secret) :
    World.Run [] (Grows sevens) World.nowhere (World.nowhere.execAll [] (growing root)) := by
  refine World.run_execAll (World.allowed_of_forall ?_ _)
  have hwrite {op : Op} (hop : op.OfMaster sevens) (w : World) :
      Grows sevens w (w.exec [] (.write op [])).1 := by
    simp only [World.exec]
    split
    · exact ⟨rfl, fun _ h => by cases h⟩
    · exact ⟨rfl, fun _ h => by cases h; exact hop⟩
  simp only [growing, List.forall_mem_cons, List.not_mem_nil, false_imp_iff, implies_true, and_true]
  refine ⟨fun w => ?_, hwrite rfl, hwrite (.inl ⟨0, rfl⟩), hwrite (.inr ⟨root, _, Account.importFrom_ofFirst root fives⟩)⟩
  simp only [World.exec]
  split <;> exact ⟨rfl, fun _ h => by cases h⟩

/-- The condition is met or not by a store whose import is of a root of its own. -/
theorem separated_iff_nines :
    ∃ ks p, (World.nowhere.execAll [] (growing (.replicate seedLen 9))).handle = some ks ∧
      ks.memory = some p ∧ p.slots.size = 2 ∧ (Separated sevens p ↔ Apart sevens p) := by
  have hstore : ((World.nowhere.execAll [] (growing (.replicate seedLen 9))).handle.bind
      memory).map (fun p => p.slots.size) = some 2 := by decide +kernel
  obtain ⟨p, hp, hsize⟩ := Option.map_eq_some_iff.mp hstore
  obtain ⟨ks, hks, hm⟩ := Option.bind_eq_some_iff.mp hp
  exact ⟨ks, p, hks, hm, hsize,
    separated_iff Crypto.copying_lawful streamsInjective_copying (run_growing _) hks hm⟩

/-- The master imported as a root: its first rotation is the first key of account 0. The generator
gives no key twice, and both positions resolve. -/
theorem growing_sevens_shares :
    StreamsInjective ∧ ∃ w ks p, World.Run [] (Grows sevens) World.nowhere w ∧
      w.handle = some ks ∧ ks.memory = some p ∧
      ∃ tag tag' slot slot' key, tag ≠ tag' ∧ p.slots.get? tag = some slot ∧
        p.slots.get? tag' = some slot' ∧
        keyAt p.slots slot ⟨0⟩ (accessOf sevens slot.account) = .ok key ∧
        keyAt p.slots slot' ⟨1⟩ (accessOf sevens slot'.account) = .ok key := by
  refine ⟨streamsInjective_copying, World.nowhere.execAll [] (growing sevens), ?_⟩
  have hrun := run_growing sevens
  have hstore : ((World.nowhere.execAll [] (growing sevens)).handle.bind memory).map (fun p =>
      ((p.slots.get? (Account.derive sevens 0).tag).map (·.account.key),
        (p.slots.get? (Account.ofFirst sevens fives).tag).map (·.account.key))) =
      some (some (Account.derive sevens 0).key, some (Account.ofFirst sevens fives).key) := by
    decide +kernel
  obtain ⟨p, hp, hslots⟩ := Option.map_eq_some_iff.mp hstore
  obtain ⟨ks, hks, hm⟩ := Option.bind_eq_some_iff.mp hp
  obtain ⟨hfirst, hsecond⟩ := Prod.mk.inj hslots
  obtain ⟨slot, hslot, hkey⟩ := Option.map_eq_some_iff.mp hfirst
  obtain ⟨slot', hslot', hkey'⟩ := Option.map_eq_some_iff.mp hsecond
  have hg : Grown sevens p := grown_run Crypto.copying_lawful hrun
    (hrun.sound Crypto.copying_lawful (World.sound_of_closed rfl) ks p hks hm).2
  refine ⟨ks, p, hrun, hks, hm, (Account.derive sevens 0).tag, (Account.ofFirst sevens fives).tag,
    slot, slot', deriveWotsKey sevens 0, by decide +kernel, hslot, hslot', ?_, ?_⟩
  · rw [keyAt_grown hg hslot]
    simp only [keyOf, hkey]
    rfl
  · rw [keyAt_grown hg hslot']
    simp only [keyOf, seedOf, hkey']
    rfl

end

end MochimoWallet.Keystore
