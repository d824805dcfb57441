import MochimoWallet.Keystore.Later
import MochimoWallet.Recon
import MochimoWallet.WotsRecover

/-!
# The address looked for is the key that signs

Restore, reconciliation, planning and signing each ask for an account's address in their own way.
`SpendSignature.source` is the address a verifier arrives at: the tag, and the hash of the key the
signature recovers. Every one of the readings is that of the signatures made at the same position,
whatever is signed (`addressAt_signWith`), and what a reservation is signed with later, by either
path, has the address the spend was planned from.
-/

namespace MochimoWallet.Keystore

open Codec

section
variable [Crypto]

/-- The public key a verifier recovers from a signature of `digest`. -/
def SpendSignature.recovered (sig : SpendSignature) (digest : Digest) : Block pkLen :=
  (wotsPkFromSig sig.signature digest sig.pubSeed sig.adrs).1

/-- The address of that key under a tag. -/
def SpendSignature.source (sig : SpendSignature) (digest : Digest) (tag : Tag) : Address :=
  tag.append (hashOf (addrFromWots (sig.recovered digest)))

/-- What a key signs recovers the key, at every position and for every digest. -/
theorem source_signWith (key : WotsKey) (position : WotsIndex) (digest : Digest) (tag : Tag) :
    (signWith key position digest).source digest tag = key.address tag := by
  rw [SpendSignature.source, SpendSignature.recovered, signWith, wotsPkFromSig_wotsSign, ← key.pk_eq]
  rfl

variable {ks ks' : Keystore} {p q r : Parsed} {tag : Tag} {slot : Slot} {access : KeyAccess}
  {position : WotsIndex} {key : WotsKey}

/-- A derived account's key, from its master alone. -/
theorem address_of_master {master : Secret} {accountIndex : UInt32} {stream : StreamId}
    (hkind : slot.account.key = .derived accountIndex stream)
    (hkey : keyAt p.slots slot position (.master master) = .ok key) :
    key.address slot.account.tag = derivedAddressAt master accountIndex position := by
  obtain ⟨m, hm, htag, -, -, hkey⟩ := (keyAt_derived hkind).mp hkey
  cases hm
  rw [derivedAddressAt, hkey, ← htag]
  rcases position.rotation with _ | rotation <;> rfl

/-- Which access an account takes does not depend on the position. -/
theorem keyAt_everywhere {slots : OrdMap Tag Slot} (hkey : keyAt slots slot position access = .ok key)
    (position' : WotsIndex) : ∃ key', keyAt slots slot position' access = .ok key' := by
  rcases hkind : slot.account.key with ⟨accountIndex, stream⟩ | ⟨root, first, stream⟩
  · obtain ⟨master, haccess, htag, hfresh, hstream, -⟩ := (keyAt_derived hkind).mp hkey
    exact ⟨_, (keyAt_derived hkind).mpr ⟨master, haccess, htag, hfresh, hstream, rfl⟩⟩
  · exact ⟨_, (keyAt_imported hkind).mpr ⟨((keyAt_imported hkind).mp hkey).1, rfl⟩⟩

/-! ## A planned spend, and its reservation -/

/-- A spend can be planned where no reservation is open, the index can advance and the access is the
account's. -/
theorem spendAddresses_of_keyAt (hm : ks.memory = some p) (hslot : p.slots.get? tag = some slot)
    (hopen : slot.pending = none) {next : WotsIndex} (hnext : slot.account.wotsIndex.advanced = .ok next)
    (hkey : keyAt p.slots slot position access = .ok key) :
    ∃ addresses, ks.spendAddresses tag access = .ok addresses := by
  obtain ⟨source, hsource⟩ := keyAt_everywhere hkey slot.account.wotsIndex
  obtain ⟨change, hchange⟩ := keyAt_everywhere hkey next
  exact ⟨_, (spendAddresses_eq_ok hm).mpr
    ⟨slot, next, source, change, hslot, hopen, hnext, hsource, hchange, rfl⟩⟩

/-- The two addresses of a spend are those of the account's index and the position after it. -/
theorem addresses_at (hm : ks.memory = some p) (hslot : p.slots.get? tag = some slot)
    {addresses : SpendAddresses} (h : ks.spendAddresses tag access = .ok addresses) :
    addresses.position = slot.account.wotsIndex ∧
      ks.addressAt tag addresses.position access = .ok addresses.source ∧
      ∃ next, next.pos = addresses.position.pos + 1 ∧
        ks.addressAt tag next access = .ok addresses.change := by
  obtain ⟨slot', next, source, change, hslot', -, hnext, hsource, hchange, rfl⟩ :=
    (spendAddresses_eq_ok hm).mp h
  cases hslot'.symm.trans hslot
  exact ⟨rfl, (addressAt_eq_ok hm).mpr ⟨slot, source, hslot, hsource, rfl⟩, next,
    WotsIndex.advanced_eq_ok.mp hnext, (addressAt_eq_ok hm).mpr ⟨slot, change, hslot, hchange, rfl⟩⟩

/-- What the reservation of a planned spend is signed with while it is open: the key whose address
the spend goes from, for the reserved digest and no other. -/
structure SignedFrom (addresses : SpendAddresses) (digest : Digest) (access : KeyAccess)
    (ks : Keystore) : Prop where
  resigned : ∀ sig, ks.resignReserved addresses.tag access = .ok sig →
    sig.spentIndex = addresses.position → sig.source digest addresses.tag = addresses.source
  spent : ∀ d receipt sig, receipt.tag = addresses.tag → ks.signSpend d receipt access = .ok sig →
    sig.spentIndex = addresses.position →
      d = digest ∧ sig.source digest addresses.tag = addresses.source

/-- The slot a reservation leaves. -/
theorem reserved_slot (hslot : p.slots.get? tag = some slot) {digest : Digest} {figures : Figures}
    (hnext : p.next (.persistAdvance tag digest figures) = .ok q) :
    ∃ index, index.pos = slot.account.wotsIndex.pos + 1 ∧ slot.pending = none ∧
      q.slots.get? tag = some ⟨{ slot.account with wotsIndex := index },
        some ⟨slot.account.wotsIndex, digest, some figures⟩, none⟩ := by
  have hstep := (Parsed.step_of_next hnext).1
  cases hstep with
  | @persistAdvance _ _ _ slot' index hslot' hopen hindex hslots hmaster =>
    cases hslot'.symm.trans hslot
    refine ⟨index, hindex, hopen, ?_⟩
    rw [hslots, Parsed.write_slots hslot, OrdMap.get?_modify, if_pos rfl, hslot]
    rfl

theorem signed_from (hm : ks.memory = some p) (hslot : p.slots.get? tag = some slot)
    {addresses : SpendAddresses} (haddresses : ks.spendAddresses tag access = .ok addresses)
    {digest : Digest} {figures : Figures}
    (hnext : p.next (.persistAdvance tag digest figures) = .ok q) (hlater : q.Later r)
    (hm' : ks'.memory = some r) : SignedFrom addresses digest access ks' := by
  obtain ⟨slot', next, source, change, hslot', -, -, hsource, -, rfl⟩ :=
    (spendAddresses_eq_ok hm).mp haddresses
  cases hslot'.symm.trans hslot
  obtain ⟨index, hindex, -, hq⟩ := reserved_slot hslot hnext
  obtain ⟨s, hs, hsince⟩ := hlater.slot hq rfl
  have hlater' : p.Later r := .head ⟨_, hnext⟩ hlater
  have hkey : keyAt r.slots s slot.account.wotsIndex access = .ok source :=
    keyAt_later hlater' s hslot hsince.1 hsince.2.1 hsource
  -- A reservation open at the planned position is the one that was made.
  have hsame {pending : Pending} (hopen : s.pending = some pending)
      (hspent : pending.spentIndex = slot.account.wotsIndex) : pending.digest = digest := by
    have hbefore : slot.account.wotsIndex.pos < index.pos := by omega
    have hs := hsince.same (b := ⟨slot.account.wotsIndex, digest, some figures⟩) hbefore hopen hspent
    rw [hs] at hopen
    cases hopen
    rfl
  constructor
  · intro sig hsig hspent
    obtain ⟨t, pending, key, ht, hopen, hkey', rfl⟩ := (resignReserved_eq_ok hm').mp hsig
    cases ht.symm.trans hs
    have hspent : pending.spentIndex = slot.account.wotsIndex := hspent
    rw [hspent] at hkey'
    cases hkey'.symm.trans hkey
    rw [hsame hopen hspent]
    exact source_signWith ..
  · rintro d receipt sig rfl hsig hspent
    obtain ⟨t, pending, key, ht, -, hopen, -, hd, hkey', rfl⟩ := (signSpend_eq_ok hm').mp hsig
    cases ht.symm.trans hs
    have hspent : pending.spentIndex = slot.account.wotsIndex := hspent
    rw [hspent] at hkey'
    cases hkey'.symm.trans hkey
    obtain rfl := hd.symm.trans (hsame hopen hspent)
    exact ⟨rfl, source_signWith ..⟩

/-- The receipt of a reservation signs it. -/
theorem reservation_signs (hm : ks.memory = some p) (hslot : p.slots.get? tag = some slot)
    {addresses : SpendAddresses} (haddresses : ks.spendAddresses tag access = .ok addresses)
    {digest : Digest} {figures : Figures}
    (hnext : p.next (.persistAdvance tag digest figures) = .ok q) (hm' : ks'.memory = some q) :
    ∃ receipt sig, (Op.persistAdvance tag digest figures).receipt q = some receipt ∧
      ks'.signSpend digest receipt access = .ok sig ∧ sig.spentIndex = addresses.position := by
  obtain ⟨slot', next, source, change, hslot', -, -, hsource, -, rfl⟩ :=
    (spendAddresses_eq_ok hm).mp haddresses
  cases hslot'.symm.trans hslot
  obtain ⟨index, hindex, -, hq⟩ := reserved_slot hslot hnext
  have hkey : keyAt q.slots _ slot.account.wotsIndex access = .ok source :=
    keyAt_later (.single ⟨_, hnext⟩) _ hslot rfl rfl hsource
  refine ⟨⟨tag, index⟩, _, ?_, (signSpend_eq_ok hm').mpr ⟨_, _, source, hq, rfl, rfl, hindex, rfl, hkey, rfl⟩,
    rfl⟩
  rw [Op.receipt, hq]
  rfl

/-- At every position whose key an account's access gives, the address is that of the signatures made
there and, for a derived account, the one its master says. A spend is planned from the address at the
account's index, with the next one for its change, and its reservation is signed by the key of the
address it was planned from, in every later state of the store. -/
theorem address_is_signers (hm : ks.memory = some p) (hwf : p.Wf)
    (hslot : p.slots.get? tag = some slot) (hkey : keyAt p.slots slot position access = .ok key) :
    (∀ digest, ks.addressAt tag position access = .ok ((signWith key position digest).source digest tag)) ∧
    (∀ master accountIndex stream, access = .master master →
      slot.account.key = .derived accountIndex stream →
      ks.addressAt tag position access = .ok (derivedAddressAt master accountIndex position)) ∧
    (∀ next, slot.pending = none → slot.account.wotsIndex.advanced = .ok next →
      ∃ addresses, ks.spendAddresses tag access = .ok addresses) ∧
    ∀ addresses, ks.spendAddresses tag access = .ok addresses →
      addresses.tag = tag ∧ addresses.position = slot.account.wotsIndex ∧
      ks.addressAt tag addresses.position access = .ok addresses.source ∧
      (∃ next, next.pos = addresses.position.pos + 1 ∧
        ks.addressAt tag next access = .ok addresses.change) ∧
      ∀ digest figures q, p.next (.persistAdvance tag digest figures) = .ok q →
        (∀ r (ks' : Keystore), q.Later r → ks'.memory = some r →
          SignedFrom addresses digest access ks') ∧
        ∀ ks' : Keystore, ks'.memory = some q →
          ∃ receipt sig, (Op.persistAdvance tag digest figures).receipt q = some receipt ∧
            ks'.signSpend digest receipt access = .ok sig ∧ sig.spentIndex = addresses.position := by
  have haddress : ks.addressAt tag position access = .ok (key.address tag) :=
    (addressAt_eq_ok hm).mpr ⟨slot, key, hslot, hkey, rfl⟩
  refine ⟨fun digest => ?_, ?_, fun next hopen hnext => ?_, fun addresses haddresses => ?_⟩
  · rw [source_signWith]
    exact haddress
  · rintro master accountIndex stream rfl hkind
    rw [haddress, ← address_of_master hkind hkey, hwf.tags hslot]
  · exact spendAddresses_of_keyAt hm hslot hopen hnext hkey
  · obtain ⟨hposition, hsource, hchange⟩ := addresses_at hm hslot haddresses
    have htag : addresses.tag = tag := by
      obtain ⟨-, -, -, -, -, -, -, -, -, rfl⟩ := (spendAddresses_eq_ok hm).mp haddresses
      rfl
    exact ⟨htag, hposition, hsource, hchange, fun digest figures q hnext =>
      ⟨fun r ks' hlater hm' => signed_from hm hslot haddresses hnext hlater hm',
        fun ks' hm' => reservation_signs hm hslot haddresses hnext hm'⟩⟩

end

section
attribute [local instance] Crypto.plain

/-- A store with one account, as it was added. -/
def zeroStore : Parsed := ⟨1, OrdMap.empty.insert zeroAccount.tag ⟨zeroAccount, none, none⟩, none⟩

def zeroHandle : Keystore :=
  ⟨.live zeroStore.generation zeroStore.slots, none, ⟨.zero keyLen, ⟨8, 1, 1⟩, .zero saltLen,
    .zero nonceSeedLen⟩, version, version⟩

theorem wf_zeroStore : zeroStore.Wf := by
  have hslot {tag : Tag} {slot : Slot} (h : zeroStore.slots.get? tag = some slot) :
      tag = zeroAccount.tag ∧ slot = ⟨zeroAccount, none, none⟩ := by
    rw [zeroStore, OrdMap.get?_insert] at h
    split at h
    · next htag =>
      cases h
      exact ⟨htag, rfl⟩
    · cases h
  refine ⟨fun h => ?_, fun h => ?_, ?_⟩
  · rw [(hslot h).2, (hslot h).1]
  · rw [(hslot h).2]
    exact ⟨.inl rfl, (fun _ h => by cases h), fun _ h => by cases h⟩
  · decide

theorem address_is_signers_zero : zeroHandle.addressAt zeroAccount.tag .zero (.master (.zero seedLen)) =
    .ok ((signWith (deriveAccount (.zero seedLen) 0).first .zero (.zero 32)).source (.zero 32)
      zeroAccount.tag) := by
  have hslot : zeroStore.slots.get? zeroAccount.tag = some ⟨zeroAccount, none, none⟩ := by
    rw [zeroStore, OrdMap.get?_insert, if_pos rfl]
  have hkey : keyAt zeroStore.slots ⟨zeroAccount, none, none⟩ .zero (.master (.zero seedLen)) =
      .ok (deriveAccount (.zero seedLen) 0).first :=
    (keyAt_derived rfl).mpr ⟨.zero seedLen, rfl, rfl, List.not_mem_nil, rfl, rfl⟩
  exact (address_is_signers (p := zeroStore) rfl wf_zeroStore hslot hkey).1 _

end

end MochimoWallet.Keystore
