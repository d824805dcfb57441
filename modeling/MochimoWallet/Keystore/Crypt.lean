import MochimoWallet.Account

/-!
# Encryption at rest

The key derivation's parameters, with the bounds they are held to before anything is
derived, and the nonce of one commit: a hash of the handle's own entropy and the
generation being written.
-/

namespace MochimoWallet.Keystore

open Codec

abbrev saltLen : ℕ := 16
abbrev nonceLen : ℕ := 12
abbrev tagLen : ℕ := 16
abbrev keyLen : ℕ := 32
abbrev nonceSeedLen : ℕ := 32

abbrev kdfArgon2idV13 : UInt8 := 1

/-- The largest `mCostKib` honoured from a file. -/
abbrev maxMCostKib : ℕ := 1024 * 1024

/-- Argon2's own bounds, as its refusals are reported. -/
abbrev minMCost : ℕ := 8
abbrev minTCost : ℕ := 1
abbrev maxTCost : ℕ := u32Max
abbrev minPCost : ℕ := 1
abbrev maxPCost : ℕ := 0xFFFFFF

structure Kdf where
  mCostKib : UInt32
  tCost : UInt32
  pCost : UInt32
  deriving DecidableEq

/-- What a new store is given; an existing one opens with what its header says. -/
def Kdf.recommended : Kdf := ⟨65536, 3, 1⟩

variable [Crypto]

/-- Refuse parameters this build will not honour. -/
def Kdf.checked (kdf : Kdf) : Except Error Kdf :=
  if kdf.mCostKib.toNat > maxMCostKib then
    .error (.range "keystore kdf m_cost" minMCost maxMCostKib kdf.mCostKib.toNat)
  else
    match Crypto.argon2Params kdf.mCostKib kdf.tCost kdf.pCost with
    | .ok () => .ok kdf
    | .error .memoryTooLittle | .error .memoryTooMuch =>
      .error (.range "keystore kdf m_cost" minMCost maxMCostKib kdf.mCostKib.toNat)
    | .error .timeTooSmall =>
      .error (.range "keystore kdf t_cost" minTCost maxTCost kdf.tCost.toNat)
    | .error .threadsTooFew | .error .threadsTooMany =>
      .error (.range "keystore kdf p_cost" minPCost maxPCost kdf.pCost.toNat)
    | .error .other =>
      .error (.range "keystore kdf parameters" 0 maxMCostKib kdf.mCostKib.toNat)

/-- The store key of a password and a header's salt. -/
def deriveKey (password : Bytes) (salt : Block saltLen) (kdf : Kdf) :
    Except Error (Block keyLen) := do
  let kdf ← kdf.checked
  match Crypto.argon2id kdf.mCostKib kdf.tCost kdf.pCost password salt with
  | some key => .ok key
  | none => .error (.corrupt "key derivation" 0)

/-- The nonce of the commit that writes `generation`. -/
def nonceFor (seed : Block nonceSeedLen) (generation : UInt64) : Block nonceLen :=
  (Crypto.sha3_256 (seed.1 ++ (u64le generation).1)).slice 0 nonceLen

def aeadSeal (key : Block keyLen) (nonce : Block nonceLen) (aad plaintext : Bytes) :
    Except Error (Bytes × Block tagLen) :=
  match Crypto.aeadSeal key nonce aad plaintext with
  | some sealed => .ok sealed
  | none => .error (.corrupt "keystore encryption" 0)

/-- Every failure is one error, whatever its cause. -/
def aeadOpen (key : Block keyLen) (nonce : Block nonceLen) (aad ciphertext : Bytes)
    (tag : Block tagLen) : Except Error Bytes :=
  match Crypto.aeadOpen key nonce aad ciphertext tag with
  | some body => .ok body
  | none => .error .wrongPassword

theorem Kdf.checked_eq_ok {kdf kdf' : Kdf} (h : kdf.checked = .ok kdf') : kdf' = kdf := by
  unfold Kdf.checked at h
  split at h
  · cases h
  · split at h <;> cases h
    rfl

end MochimoWallet.Keystore
