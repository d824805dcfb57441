import MochimoWallet.Keystore.Later
import MochimoWallet.Keystore.Release
import MochimoWallet.WotsCounted

/-!
# An imported account is the derived one

An older wallet wrote its first address with twelve bytes of a tag over the last three
words of the hash address. The chain functions write those words before they read
them, so the address reproduces the key whatever the twelve bytes are
(`first_of_legacy`, `importFrom_legacy`), and the account imported from it has the
derived account's tag, stream, keys and addresses (`import_is_derive`).
-/

namespace MochimoWallet

open Codec

section
variable [Crypto]

/-! ## The overlaid address -/

theorem legacyAddress_bytes (key : WotsKey) (tag12 : Block legacyTagLen) :
    (key.legacyAddress tag12).1 =
      key.pk.1 ++ (key.pubSeed.1 ++ (key.adrs.leImage.1.take 20 ++ tag12.1)) := by
  have hpk : key.pk.1.length = 2144 := key.pk.2
  have hpub : key.pubSeed.1.length = 32 := key.pubSeed.2
  have hkept : (key.pk.1 ++ key.pubSeed.1 ++ key.adrs.leImage.1).take 2196 =
      key.pk.1 ++ (key.pubSeed.1 ++ key.adrs.leImage.1.take 20) := by
    rw [List.append_assoc, List.take_append, List.take_append, hpk, hpub,
      List.take_of_length_le (by omega), List.take_of_length_le (by omega)]
  calc (key.legacyAddress tag12).1
      = (key.pk.1 ++ key.pubSeed.1 ++ key.adrs.leImage.1).take 2196 ++ tag12.1 := rfl
    _ = _ := by rw [hkept, List.append_assoc, List.append_assoc]

theorem legacyAddress_pk (key : WotsKey) (tag12 : Block legacyTagLen) :
    (key.legacyAddress tag12).slice 0 pkLen = key.pk := by
  apply Block.ext
  have hpk : key.pk.1.length = pkLen := key.pk.2
  rw [Block.slice_bytes, legacyAddress_bytes, List.drop_zero, List.take_left' hpk]

/-- The components in an overlaid address: the first key's public seed, and a hash address that
differs from its own only in words that the chains write. -/
theorem first_of_legacy (key : WotsKey) (tag12 : Block legacyTagLen) :
    (firstKeyFrom ((key.legacyAddress tag12).slice pkLen firstKeyLen)).pubSeed = key.pubSeed ∧
      (firstKeyFrom ((key.legacyAddress tag12).slice pkLen firstKeyLen)).adrs.Alike key.adrs := by
  have hpk : key.pk.1.length = pkLen := key.pk.2
  have hpub : key.pubSeed.1.length = seedLen := key.pubSeed.2
  have hadrs : key.adrs.leImage.1.length = 32 := key.adrs.leImage.2
  have htag : tag12.1.length = 12 := tag12.2
  have htwenty : (key.adrs.leImage.1.take 20).length = 4 * 5 := by
    rw [List.length_take, hadrs]; rfl
  have hcomponents : ((key.legacyAddress tag12).slice pkLen firstKeyLen).1 =
      key.pubSeed.1 ++ (key.adrs.leImage.1.take 20 ++ tag12.1) := by
    rw [Block.slice_bytes, legacyAddress_bytes, List.drop_left' hpk]
    refine List.take_of_length_le ?_
    rw [List.length_append, List.length_append, hpub, htwenty, htag]
  refine ⟨?_, fun j hj => ?_⟩
  · apply Block.ext
    rw [firstKeyFrom, Block.slice_bytes, hcomponents, List.drop_zero, List.take_left' hpub]
  · have himage : (((key.legacyAddress tag12).slice pkLen firstKeyLen).slice seedLen 32).1 =
        key.adrs.leImage.1.take 20 ++ tag12.1 := by
      rw [Block.slice_bytes, hcomponents, List.drop_left' hpub]
      refine List.take_of_length_le ?_
      rw [List.length_append, htwenty, htag]
    -- Both hash addresses begin with the words of the twenty bytes the overlay leaves.
    have hwords (rest : Bytes) : (Adrs.wordsOf 8 (key.adrs.leImage.1.take 20 ++ rest))[j]? =
        (Adrs.wordsOf 5 (key.adrs.leImage.1.take 20))[j]? := by
      rw [Adrs.wordsOf_append 5 3 htwenty, List.getElem?_append_left (by rwa [Adrs.length_wordsOf])]
    have hown : (Adrs.fromLeImage key.adrs.leImage).words[j]? =
        (Adrs.wordsOf 5 (key.adrs.leImage.1.take 20))[j]? := by
      rw [← hwords (key.adrs.leImage.1.drop 20), List.take_append_drop]
      rfl
    rw [Adrs.fromLeImage_leImage] at hown
    rw [hown, ← hwords tag12.1, ← himage]
    rfl

/-- An overlaid address of a key with this secret is one that the secret reproduces. -/
theorem importFrom_legacy (key : WotsKey) (tag12 : Block legacyTagLen) :
    ∃ first : FirstKey, first.pubSeed = key.pubSeed ∧ first.adrs.Alike key.adrs ∧
      ∃ account, Account.importFrom key.secret (key.legacyAddress tag12) = .ok account ∧
        account.tag = key.tag ∧ account.wotsIndex = .zero ∧
        account.key = .imported key.secret first (streamId key.secret) := by
  obtain ⟨hpub, hadrs⟩ := first_of_legacy key tag12
  have hpk : (importedParts key.secret ((key.legacyAddress tag12).slice pkLen firstKeyLen)).1 =
      key.pk := by
    rw [importedParts, key.pk_eq, hpub]
    exact wotsPkgen_alike _ _ hadrs
  have htag : (importedParts key.secret ((key.legacyAddress tag12).slice pkLen firstKeyLen)).2 =
      key.tag := congrArg (fun pk => tagOf (addrFromWots pk)) hpk
  refine ⟨_, hpub, hadrs, ?_⟩
  unfold Account.importFrom
  simp only [hpk, legacyAddress_pk, ne_eq, not_true_eq_false, if_false]
  exact ⟨_, rfl, htag, rfl, rfl⟩

namespace Keystore

/-! ## In a store -/

/-- The handle's store holds the account, at whatever index it has got to. -/
structure StoredAs (ks : Keystore) (account : Account) (p : Parsed) (slot : Slot) : Prop where
  memory : ks.memory = some p
  stored : p.slots.get? account.tag = some slot
  key : slot.account.key = account.key
  tag : slot.account.tag = account.tag

/-- The key a derived account has at a position. -/
def derivedKeyAt (derived : DerivedAccount) (position : WotsIndex) : WotsKey :=
  match position.rotation with
  | none => derived.first
  | some rotation => deriveWotsKey derived.seed rotation

/-- In a store where no other account has its stream, a derived account has its keys. -/
theorem StoredAs.derived {ks : Keystore} {p : Parsed} {slot : Slot} {master : Secret}
    {accountIndex : UInt32} (h : ks.StoredAs (.derive master accountIndex) p slot)
    (halone : ∀ tag other, p.slots.get? tag = some other →
      other.account.key.stream = slot.account.key.stream → tag = (Account.derive master accountIndex).tag)
    (position : WotsIndex) :
    keyAt p.slots slot position (.master master) =
        .ok (derivedKeyAt (deriveAccount master accountIndex) position) ∧
      ks.addressAt (Account.derive master accountIndex).tag position (.master master) =
        .ok ((derivedKeyAt (deriveAccount master accountIndex) position).address
          (deriveAccount master accountIndex).tag) := by
  have hfresh : (deriveAccount master accountIndex).seed ∉ importedRoots p.slots := by
    rw [mem_importedRoots]
    rintro ⟨tag, other, hother, hroot⟩
    have hstream : other.account.key.stream = slot.account.key.stream := by
      rw [stream_of_root hroot, h.key]
      rfl
    obtain rfl := halone tag other hother hstream
    rw [h.stored] at hother
    cases hother
    rw [h.key] at hroot
    cases hroot
  have hkey : keyAt p.slots slot position (.master master) =
      .ok (derivedKeyAt (deriveAccount master accountIndex) position) :=
    (keyAt_derived h.key).mpr ⟨master, rfl, h.tag.symm, hfresh, rfl, rfl⟩
  exact ⟨hkey, (addressAt_eq_ok h.memory).mpr ⟨slot, _, h.stored, hkey, rfl⟩⟩

theorem StoredAs.imported {ks : Keystore} {p : Parsed} {slot : Slot} {account : Account} {root : Secret}
    {first : FirstKey} {stream : StreamId} (h : ks.StoredAs account p slot)
    (hkey : account.key = .imported root first stream) (position : WotsIndex) :
    ∃ key, (key = match position.rotation with
        | none => firstKeyFromComponents root first.pubSeed first.adrs
        | some rotation => deriveWotsKey root rotation) ∧
      keyAt p.slots slot position .storedRoot = .ok key ∧
      ks.addressAt account.tag position .storedRoot = .ok (key.address account.tag) := by
  have hat : keyAt p.slots slot position .storedRoot = .ok (match position.rotation with
      | none => firstKeyFromComponents root first.pubSeed first.adrs
      | some rotation => deriveWotsKey root rotation) :=
    (keyAt_imported (h.key.trans hkey)).mpr ⟨rfl, rfl⟩
  exact ⟨_, rfl, hat, (addressAt_eq_ok h.memory).mpr ⟨slot, _, h.stored, hat, rfl⟩⟩

/-- An account imported from a derived account's seed and its older first address is that account:
one tag and one stream, records that are accepted and give it back, and at every position the
public key, the address and the signatures that the derived account has under the master. -/
theorem import_is_derive (master : Secret) (accountIndex : UInt32) (tag12 : Block legacyTagLen) :
    ∃ account, Account.importFrom (deriveAccount master accountIndex).seed
        ((deriveAccount master accountIndex).first.legacyAddress tag12) = .ok account ∧
      account.tag = (Account.derive master accountIndex).tag ∧
      account.key.stream = (Account.derive master accountIndex).key.stream ∧
      (∀ index, Account.restoreFromRecord { account with wotsIndex := index }.toRecord =
        .ok { account with wotsIndex := index }) ∧
      ∀ (ks : Keystore) (p : Parsed) (slot : Slot), ks.StoredAs account p slot → ∀ position, ∃ key,
        keyAt p.slots slot position .storedRoot = .ok key ∧
        ks.addressAt account.tag position .storedRoot = .ok (key.address account.tag) ∧
        ∀ (ks' : Keystore) (p' : Parsed) (slot' : Slot),
          ks'.StoredAs (.derive master accountIndex) p' slot' →
          (∀ tag other, p'.slots.get? tag = some other →
            other.account.key.stream = slot'.account.key.stream → tag = account.tag) →
          ∃ key', keyAt p'.slots slot' position (.master master) = .ok key' ∧ key.pk = key'.pk ∧
            ks'.addressAt account.tag position (.master master) =
              .ok (key.address account.tag) ∧
            ∀ digest, (signWith key position digest).signature =
              (signWith key' position digest).signature := by
  obtain ⟨first, hpub, hadrs, account, hok, htag, -, hkey⟩ :=
    importFrom_legacy (deriveAccount master accountIndex).first tag12
  have hsame : account.tag = (Account.derive master accountIndex).tag := htag
  refine ⟨account, hok, hsame, ?_, fun index => Account.restoreFromRecord_toRecord _, ?_⟩
  · rw [hkey]
    rfl
  intro ks p slot hholds position
  obtain ⟨key, hdef, hat, haddress⟩ := hholds.imported hkey position
  refine ⟨key, hat, haddress, fun ks' p' slot' hholds' halone => ?_⟩
  rw [hsame] at halone
  obtain ⟨hat', haddress'⟩ := hholds'.derived halone position
  have hpk : key.pk = (derivedKeyAt (deriveAccount master accountIndex) position).pk ∧
      ∀ digest, (signWith key position digest).signature =
        (signWith (derivedKeyAt (deriveAccount master accountIndex) position) position
          digest).signature := by
    rw [hdef, derivedKeyAt]
    cases position.rotation with
    | some rotation => exact ⟨rfl, fun _ => rfl⟩
    | none =>
      dsimp only
      constructor
      · rw [WotsKey.pk_eq (deriveAccount master accountIndex).first, ← hpub]
        exact wotsPkgen_alike _ _ hadrs
      · intro digest
        simp only [signWith, ← hpub]
        exact wotsSign_alike _ _ _ hadrs
  refine ⟨_, hat', hpk.1, ?_, hpk.2⟩
  rw [hsame, haddress']
  have himplicit : (derivedKeyAt (deriveAccount master accountIndex) position).implicitAddress =
      key.implicitAddress := congrArg addrFromWots hpk.1.symm
  simp only [WotsKey.address, himplicit]
  rfl

/-! ## A store of one account -/

/-- A handle of a store that has this account and no other. -/
def loneStore (slot : Slot) : Keystore :=
  ⟨.live 0 (OrdMap.empty.insert slot.account.tag slot), none,
    ⟨.zero keyLen, ⟨8, 1, 1⟩, .zero saltLen, .zero nonceSeedLen⟩, version, version⟩

def loneState (slot : Slot) : Parsed := ⟨0, OrdMap.empty.insert slot.account.tag slot, none⟩

theorem loneState_get? {slot : Slot} : (loneState slot).slots.get? slot.account.tag = some slot := by
  rw [loneState, OrdMap.get?_insert, if_pos rfl]

theorem loneState_only {slot other : Slot} {tag : Tag} (h : (loneState slot).slots.get? tag = some other) :
    tag = slot.account.tag := by
  rw [loneState, OrdMap.get?_insert] at h
  split at h
  · assumption
  · cases h

/-- Where a derived account stands alone, its keys can be had at every position. -/
theorem addressAt_loneStore {slot : Slot} {master : Secret} {accountIndex : UInt32}
    (hkey : slot.account.key = (Account.derive master accountIndex).key)
    (htag : slot.account.tag = (Account.derive master accountIndex).tag) (position : WotsIndex) :
    (loneStore slot).addressAt slot.account.tag position (.master master) =
      .ok ((derivedKeyAt (deriveAccount master accountIndex) position).address
        (deriveAccount master accountIndex).tag) := by
  have hstored : (loneStore slot).StoredAs (.derive master accountIndex) (loneState slot) slot :=
    ⟨rfl, htag ▸ loneState_get?, hkey, htag⟩
  rw [htag]
  exact (hstored.derived (fun tag other hother _ => (loneState_only hother).trans htag) position).2

end Keystore

end

section
attribute [local instance] Crypto.plain

namespace Keystore

/-- An import with nines over its first address, in a store of its own, has the first address that the
derived account has in another. -/
theorem import_is_derive_nines : ∃ (account : Account) (key : WotsKey), Account.importFrom (deriveAccount (.zero seedLen) 3).seed
      ((deriveAccount (.zero seedLen) 3).first.legacyAddress (.replicate legacyTagLen 9)) = .ok account ∧
    (loneStore ⟨account, none, none⟩).addressAt account.tag .zero .storedRoot =
      .ok (key.address account.tag) ∧
    (loneStore ⟨.derive (.zero seedLen) 3, none, none⟩).addressAt account.tag .zero (.master (.zero seedLen)) =
      .ok (key.address account.tag) := by
  obtain ⟨account, hok, htag, -, -, hstored⟩ :=
    import_is_derive (.zero seedLen) 3 (.replicate legacyTagLen 9)
  obtain ⟨key, -, haddress, hderived⟩ := hstored (loneStore ⟨account, none, none⟩)
    (loneState ⟨account, none, none⟩) ⟨account, none, none⟩ ⟨rfl, loneState_get?, rfl, rfl⟩ .zero
  obtain ⟨-, -, -, haddress', -⟩ := hderived (loneStore ⟨.derive (.zero seedLen) 3, none, none⟩)
    (loneState ⟨.derive (.zero seedLen) 3, none, none⟩) ⟨.derive (.zero seedLen) 3, none, none⟩
    ⟨rfl, loneState_get?, rfl, rfl⟩ fun tag other hother _ => (loneState_only hother).trans htag.symm
  exact ⟨account, key, hok, haddress, haddress'⟩

end Keystore

end

end MochimoWallet
