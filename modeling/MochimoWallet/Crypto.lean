import MochimoWallet.Basic

/-!
# The cryptographic crates

The hashes, Argon2id and ChaCha20-Poly1305 come from crates, not from this
repository: the development takes them as the parameter `Crypto`. What a result
relies on is stated where it is used; `Crypto.Lawful` is the one property every
store relies on, that opening undoes sealing.
-/

namespace MochimoWallet

open Codec

/-- Argon2's own refusals of its parameters. -/
inductive Argon2Error where
  | memoryTooLittle
  | memoryTooMuch
  | timeTooSmall
  | threadsTooFew
  | threadsTooMany
  | other
  deriving DecidableEq

class Crypto where
  sha256 : Bytes → Block 32
  sha512 : Bytes → Block 64
  sha3_256 : Bytes → Block 32
  sha3_512 : Bytes → Block 64
  ripemd160 : Bytes → Block 20
  /-- `argon2::Params::new` at an output of 32 bytes. -/
  argon2Params : (mCostKib tCost pCost : UInt32) → Except Argon2Error Unit
  /-- Argon2id v1.3 with no secret and no associated data; `none` is its refusal. -/
  argon2id : (mCostKib tCost pCost : UInt32) → (password : Bytes) → (salt : Block 16) →
    Option (Block 32)
  /-- The ciphertext and its tag; `none` when the message is too long for the cipher. -/
  aeadSeal : (key : Block 32) → (nonce : Block 12) → (aad plaintext : Bytes) →
    Option (Bytes × Block 16)
  aeadOpen : (key : Block 32) → (nonce : Block 12) → (aad ciphertext : Bytes) → (tag : Block 16) →
    Option Bytes

/-- What the cipher is documented to do: a stream cipher keeps the length, and opening what was
sealed under the same key, nonce and associated data gives the message back. -/
structure Crypto.Lawful [Crypto] : Prop where
  length_seal : ∀ {key nonce aad plaintext sealed},
    aeadSeal key nonce aad plaintext = some sealed → sealed.1.length = plaintext.length
  open_seal : ∀ {key nonce aad plaintext sealed},
    aeadSeal key nonce aad plaintext = some sealed →
      aeadOpen key nonce aad sealed.1 sealed.2 = some plaintext

/-- The cipher takes every message up to its documented length, 2^38 − 64 bytes. -/
def Crypto.TakesShort [Crypto] : Prop :=
  ∀ (key : Block 32) (nonce : Block 12) (aad plaintext : Bytes),
    plaintext.length ≤ 2 ^ 38 - 64 → (aeadSeal key nonce aad plaintext).isSome

/-- What opens is what its message seals to: ciphertext and tag are functions of the message. -/
def Crypto.SealsBack [Crypto] : Prop :=
  ∀ (key : Block 32) (nonce : Block 12) (aad ciphertext : Bytes) (tag : Block 16) (plaintext : Bytes),
    aeadOpen key nonce aad ciphertext tag = some plaintext →
      aeadSeal key nonce aad plaintext = some (ciphertext, tag)

/-- Hashes that give zeros and a cipher that hides nothing: the laws ask for no more. -/
@[reducible] def Crypto.plain : Crypto where
  sha256 _ := .zero 32
  sha512 _ := .zero 64
  sha3_256 _ := .zero 32
  sha3_512 _ := .zero 64
  ripemd160 _ := .zero 20
  argon2Params _ _ _ := .ok ()
  argon2id _ _ _ _ _ := some (.zero 32)
  aeadSeal _ _ _ plaintext := some (plaintext, .zero 16)
  aeadOpen _ _ _ ciphertext _ := some ciphertext

/-- The first `n` bytes, of a value that zeros go on from. -/
def fit (n : ℕ) (b : Bytes) : Block n :=
  ⟨(b ++ List.replicate n 0).take n, by
    rw [List.length_take, List.length_append, List.length_replicate]
    omega⟩

/-- Hashes that copy their input, each the part of it that a key's derivation goes on with. -/
@[reducible] def Crypto.copying : Crypto :=
  { Crypto.plain with
    sha256 := fun b => fit 32 (b.drop 32)
    sha512 := fun b => if b.length = 136 then fit 64 (b.drop 104 ++ b.drop 72) else fit 64 b
    sha3_512 := fit 64
    ripemd160 := fit 20 }

/-- The plain cipher, with a tag that is looked at. -/
@[reducible] def Crypto.tagged : Crypto :=
  { Crypto.plain with
    aeadOpen := fun _ _ _ ciphertext tag => if tag = .zero 16 then some ciphertext else none }

/-- The plain cipher, with a hash that keeps the first word of a nonce seed and what comes after. -/
@[reducible] def Crypto.seeded : Crypto :=
  { Crypto.plain with sha3_256 := fun b => fit 32 (b.take 4 ++ b.drop 32) }

theorem Crypto.plain_lawful : @Crypto.Lawful Crypto.plain :=
  @Crypto.Lawful.mk Crypto.plain (by rintro _ _ _ _ _ ⟨⟩; rfl) (by rintro _ _ _ _ _ ⟨⟩; rfl)

theorem Crypto.plain_takesShort : @Crypto.TakesShort Crypto.plain := fun _ _ _ _ _ => rfl

theorem Crypto.tagged_lawful : @Crypto.Lawful Crypto.tagged :=
  @Crypto.Lawful.mk Crypto.tagged (by rintro _ _ _ _ _ ⟨⟩; rfl) (by rintro _ _ _ _ _ ⟨⟩; rfl)

theorem Crypto.tagged_sealsBack : @Crypto.SealsBack Crypto.tagged := by
  intro _ _ _ ciphertext tag plaintext h
  have h : (if tag = .zero 16 then some ciphertext else none) = some plaintext := h
  split at h
  · next htag =>
    cases h
    rw [htag]
    rfl
  · cases h

theorem Crypto.seeded_lawful : @Crypto.Lawful Crypto.seeded :=
  @Crypto.Lawful.mk Crypto.seeded (by rintro _ _ _ _ _ ⟨⟩; rfl) (by rintro _ _ _ _ _ ⟨⟩; rfl)

theorem Crypto.copying_lawful : @Crypto.Lawful Crypto.copying :=
  @Crypto.Lawful.mk Crypto.copying (by rintro _ _ _ _ _ ⟨⟩; rfl) (by rintro _ _ _ _ _ ⟨⟩; rfl)

end MochimoWallet
