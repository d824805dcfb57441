import MochimoWallet.Derive

/-!
# Accounts

An account is a tag, the key material its keys come from and the position of the
next key. The material is one of two kinds: a number under the store's master seed,
or an imported root with the components of the first key, which nothing can derive.
An imported account is only ever built from a root that reproduces its tag and its
stream identity, so it carries that as a proof.
-/

namespace MochimoWallet

open Codec Words

/-! ## Positions -/

/-- The position of a key: 0 is the first key, `p` above it is rotation `p - 1`. -/
structure WotsIndex where
  raw : UInt32
  deriving DecidableEq

namespace WotsIndex

def zero : WotsIndex := ⟨0⟩

/-- The position as a number. -/
abbrev pos (i : WotsIndex) : ℕ := i.raw.toNat

def advanced (i : WotsIndex) : Except Error WotsIndex :=
  match checkedAdd32 i.raw 1 with
  | some next => .ok ⟨next⟩
  | none => .error (.range "wots index" 0 u32Max i.pos)

/-- The rotation that makes the key at this position; the first key is none. -/
def rotation (i : WotsIndex) : Option UInt32 := checkedSub32 i.raw 1

theorem pos_lt (i : WotsIndex) : i.pos < 2 ^ 32 := i.raw.toNat_lt

theorem ext_pos {i j : WotsIndex} (h : i.pos = j.pos) : i = j := by
  cases i; cases j
  exact congrArg mk (UInt32.toNat_inj.mp h)

theorem advanced_eq_ok {i j : WotsIndex} : i.advanced = .ok j ↔ j.pos = i.pos + 1 := by
  have h1 : (1 : UInt32).toNat = 1 := rfl
  unfold advanced
  split
  · next n hn =>
    rw [checkedAdd32_eq_some, h1] at hn
    constructor
    · rintro ⟨⟩; exact hn
    · intro hj
      exact congrArg Except.ok (ext_pos (by rw [hj]; exact hn))
  · next hn =>
    rw [checkedAdd32_eq_none, h1] at hn
    have := j.pos_lt
    exact iff_of_false (by simp) (by simp only [pos] at *; omega)

theorem rotation_eq_some {i : WotsIndex} {r : UInt32} :
    i.rotation = some r ↔ i.pos = r.toNat + 1 := by
  have h1 : (1 : UInt32).toNat = 1 := rfl
  rw [rotation, checkedSub32_eq_some, h1]
  exact eq_comm

theorem rotation_eq_none {i : WotsIndex} : i.rotation = none ↔ i = zero := by
  have h1 : (1 : UInt32).toNat = 1 := rfl
  rw [rotation, checkedSub32_eq_none, h1]
  constructor
  · intro h
    exact ext_pos (by simp only [pos, zero, UInt32.toNat_zero]; omega)
  · rintro rfl
    simp [zero]

theorem rotation_lt {i : WotsIndex} {r : UInt32} (h : i.rotation = some r) :
    r.toNat + 1 < 2 ^ 32 := by
  rw [← rotation_eq_some.mp h]
  exact i.pos_lt

theorem exists_rotation {r : UInt32} (h : r.toNat + 1 < 2 ^ 32) :
    ∃ i : WotsIndex, i.rotation = some r := by
  refine ⟨⟨.ofNat (r.toNat + 1)⟩, rotation_eq_some.mpr ?_⟩
  rw [pos, UInt32.toNat_ofNat', Nat.mod_eq_of_lt h]

end WotsIndex

/-! ## Key material -/

/-- The public parts of an imported account's first key. -/
structure FirstKey where
  pubSeed : Block seedLen
  adrs : Adrs
  deriving DecidableEq

def FirstKey.toBytes (f : FirstKey) : Block firstKeyLen := f.pubSeed.append f.adrs.leImage

def firstKeyFrom (components : Block firstKeyLen) : FirstKey :=
  ⟨components.slice 0 seedLen, Adrs.fromLeImage (components.slice seedLen 32)⟩

@[simp] theorem firstKeyFrom_toBytes (f : FirstKey) : firstKeyFrom f.toBytes = f := by
  simp only [firstKeyFrom, FirstKey.toBytes, Block.slice_append_left, Block.slice_append_right,
    Adrs.fromLeImage_leImage]

@[simp] theorem toBytes_firstKeyFrom (c : Block firstKeyLen) : (firstKeyFrom c).toBytes = c := by
  simp only [firstKeyFrom, FirstKey.toBytes, Adrs.leImage_fromLeImage]
  exact Block.append_slice (m := 32) (n := 32) c _ _

inductive KeyMaterial where
  | derived (accountIndex : UInt32) (stream : StreamId)
  | imported (root : Secret) (first : FirstKey) (stream : StreamId)
  deriving DecidableEq

namespace KeyMaterial

def kind : KeyMaterial → AccountKind
  | .derived .. => .derived
  | .imported .. => .imported

/-- The stream identity the material carries. -/
def stream : KeyMaterial → StreamId
  | .derived _ stream | .imported _ _ stream => stream

def root? : KeyMaterial → Option Secret
  | .derived .. => none
  | .imported root .. => some root

end KeyMaterial

variable [Crypto]

/-- The public key a root makes with the components of a first key, and the tag that key has. -/
def importedParts (root : Secret) (components : Block firstKeyLen) : Block pkLen × Tag :=
  let first := firstKeyFrom components
  let pk := (wotsPkgen root first.pubSeed first.adrs).1
  (pk, tagOf (addrFromWots pk))

/-- An imported root reproduces the tag and the stream identity it is stored under. Nothing can be
asked of derived material, which holds no secret. -/
def KeyMaterial.Verified (tag : Tag) : KeyMaterial → Prop
  | .derived .. => True
  | .imported root first stream =>
    (importedParts root first.toBytes).2 = tag ∧ streamId root = stream

/-! ## Accounts -/

structure Account where
  tag : Tag
  key : KeyMaterial
  wotsIndex : WotsIndex
  verified : key.Verified tag

/-- An account's stored form. -/
inductive AccountRecord where
  | derived (tag : Tag) (accountIndex : UInt32) (streamId : StreamId) (wotsIndex : WotsIndex)
  | imported (tag : Tag) (root : Secret) (firstKey : Block firstKeyLen) (streamId : StreamId)
      (wotsIndex : WotsIndex)

namespace Account

theorem ext_parts {a b : Account} (ht : a.tag = b.tag) (hk : a.key = b.key)
    (hi : a.wotsIndex = b.wotsIndex) : a = b := by
  cases a; cases b; cases ht; cases hk; cases hi; rfl

/-- An account from a root and the 2208-byte first address an earlier wallet gave it. -/
def importFrom (root : Secret) (firstAddress : Block wotsAddrLen) : Except Error Account :=
  let components := firstAddress.slice pkLen firstKeyLen
  let parts := importedParts root components
  if parts.1 ≠ firstAddress.slice 0 pkLen then
    .error .firstAddressNotReproduced
  else
    .ok ⟨parts.2, .imported root (firstKeyFrom components) (streamId root), .zero, by
      simp [KeyMaterial.Verified, parts]⟩

/-- The account of a root and any components of a first key. -/
def ofFirst (root : Secret) (first : FirstKey) : Account :=
  ⟨(importedParts root first.toBytes).2, .imported root first (streamId root), .zero, rfl, rfl⟩

/-- Whatever the components, there is an address that reproduces. -/
theorem importFrom_ofFirst (root : Secret) (first : FirstKey) :
    importFrom root ((importedParts root first.toBytes).1.append first.toBytes) =
      .ok (ofFirst root first) := by
  have hcomponents : ((importedParts root first.toBytes).1.append first.toBytes).slice pkLen
      firstKeyLen = first.toBytes := Block.slice_append_right ..
  have hpk : ((importedParts root first.toBytes).1.append first.toBytes).slice 0 pkLen =
      (importedParts root first.toBytes).1 := Block.slice_append_left ..
  unfold importFrom
  simp only [hcomponents, hpk, ne_eq, not_true_eq_false, if_false, ofFirst, firstKeyFrom_toBytes]

/-- The account a master seed has under a number. -/
def derive (master : Secret) (accountIndex : UInt32) : Account :=
  let derived := deriveAccount master accountIndex
  ⟨derived.tag, .derived accountIndex (MochimoWallet.streamId derived.seed), .zero, trivial⟩

def kind (a : Account) : AccountKind := a.key.kind

def advanceTo (a : Account) (target : WotsIndex) : Except Error Account :=
  if target.pos ≤ a.wotsIndex.pos then
    .error (.range "wots index" (a.wotsIndex.pos + 1) u32Max target.pos)
  else
    .ok { a with wotsIndex := target }

def toRecord (a : Account) : AccountRecord :=
  match a.key with
  | .derived accountIndex stream => .derived a.tag accountIndex stream a.wotsIndex
  | .imported root first stream => .imported a.tag root first.toBytes stream a.wotsIndex

/-- The verifying constructor: a record whose root does not reproduce it is refused. -/
def restoreFromRecord : AccountRecord → Except Error Account
  | .derived tag accountIndex streamId wotsIndex =>
    .ok ⟨tag, .derived accountIndex streamId, wotsIndex, trivial⟩
  | .imported tag root firstKey streamId wotsIndex =>
    let computedTag := (importedParts root firstKey).2
    if ht : computedTag ≠ tag then .error .firstAddressNotReproduced
    else
      let computedStream := MochimoWallet.streamId root
      if computedStream ≠ streamId then .error .streamIdNotReproduced
      else .ok ⟨tag, .imported root (firstKeyFrom firstKey) computedStream, wotsIndex, by
        simpa [KeyMaterial.Verified, computedStream, computedTag] using ht⟩

/-- Storing an account and restoring it gives it back. -/
@[simp] theorem restoreFromRecord_toRecord (a : Account) : restoreFromRecord a.toRecord = .ok a := by
  obtain ⟨tag, key, wotsIndex, verified⟩ := a
  cases key with
  | derived accountIndex stream => rfl
  | imported root first stream =>
    obtain ⟨ht, hs⟩ := verified
    subst hs
    simp [toRecord, restoreFromRecord, ht]

theorem advanceTo_eq_ok {a b : Account} {target : WotsIndex} :
    a.advanceTo target = .ok b ↔
      a.wotsIndex.pos < target.pos ∧ b = { a with wotsIndex := target } := by
  unfold advanceTo
  split
  · next h => exact iff_of_false (by simp) (fun h' => absurd h'.1 (by omega))
  · next h =>
    rw [Except.ok.injEq]
    exact ⟨fun hb => ⟨by omega, hb.symm⟩, fun hb => hb.2.symm⟩

end Account

/-- What witnesses a durable advance: the tag, and the index the advance installed. -/
structure AdvanceReceipt where
  tag : Tag
  index : WotsIndex
  deriving DecidableEq

end MochimoWallet
