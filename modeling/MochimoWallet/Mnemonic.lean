import MochimoWallet.Crypto
import MochimoWallet.Lib.Result
import MochimoWallet.Lib.Text

/-!
# Recovery phrases

A phrase spells entropy and a checksum of it, eleven bits a word. The master seed is no part
of that spelling: it is the first half of what PBKDF2 makes of the phrase's own text, once
the phrase has been checked. The word list and PBKDF2 are the parameter `Bip39`.
-/

namespace MochimoWallet

open Codec

/-- The English word list, and PBKDF2 with HMAC-SHA512 at an output of 64 bytes. -/
class Bip39 where
  wordlist : List Text
  pbkdf2HmacSha512 : (password salt : Bytes) → (rounds : ℕ) → Block 64

structure MnemonicError where
  what : String
  deriving DecidableEq

namespace Mnemonic

abbrev pbkdf2Rounds : ℕ := 2048
def saltPrefix : Text := "mnemonic".toList

/-- Bit `i` of a byte string, the most significant of each byte first. -/
def bitOf (b : Bytes) (i : ℕ) : ℕ := (b.getD (i / 8) 0).toNat / 2 ^ (7 - i % 8) % 2

/-- The number some bits spell, the most significant first. -/
def ofBits (bits : List ℕ) : ℕ := bits.foldl (fun n bit => 2 * n + bit) 0

/-- The bytes some bits spell. -/
def bytesOfBits (len : ℕ) (bits : List ℕ) : Bytes :=
  (List.range len).map fun i => .ofNat (ofBits ((bits.drop (8 * i)).take 8))

variable [Crypto] [Bip39]

/-- The bits a phrase spells: the entropy's, and the first of its hash. -/
def bitAt (entropy : Bytes) (i : ℕ) : ℕ :=
  if i < entropy.length * 8 then bitOf entropy i
  else bitOf (Crypto.sha256 entropy).1 (i - entropy.length * 8)

def pushWord (phrase word : Text) : Text :=
  (if phrase = [] then phrase else phrase ++ [' ']) ++ word

def phraseFromEntropy (entropy : Bytes) : Except MnemonicError Text :=
  let len := entropy.length
  if ¬ (16 ≤ len ∧ len ≤ 32 ∧ len % 4 = 0) then
    .error ⟨"entropy is not 16, 20, 24, 28 or 32 bytes"⟩
  else
    let totalBits := len * 8 + len / 4
    .ok ((List.range (totalBits / 11)).foldl (fun phrase j =>
      let index := ofBits ((List.range 11).map fun k => bitAt entropy (11 * j + k))
      pushWord phrase (Bip39.wordlist.getD index [])) [])

/-- The bits of a word's place in the list. -/
def wordBits (index : ℕ) : List ℕ := (List.range 11).map fun k => index / 2 ^ (10 - k) % 2

def entropyFromPhrase (phrase : Text) : Except MnemonicError Bytes := do
  if ¬ phrase.isAscii then .error ⟨"phrase is not ASCII"⟩
  else
  let words := phrase.split ' '
  let count := words.length
  if ¬ (12 ≤ count ∧ count ≤ 24 ∧ count % 3 = 0) then
    .error ⟨"word count is not 12, 15, 18, 21 or 24"⟩
  else
  let entropyLen := count * 11 * 32 / 33 / 8
  let checksumBits := entropyLen / 4
  let indices ← words.mapM fun word =>
    match Bip39.wordlist.idxOf? word with
    | some index => Except.ok index
    | none => .error ⟨"a word is not in the English wordlist"⟩
  let bits := indices.flatMap wordBits
  let entropy := bytesOfBits entropyLen (bits.take (entropyLen * 8))
  let checksum := (bits.drop (entropyLen * 8)).take checksumBits
  if checksum ≠ (List.range checksum.length).map (bitOf (Crypto.sha256 entropy).1) then
    .error ⟨"checksum mismatch"⟩
  else .ok entropy

/-- The seed of a phrase, which is checked first and never stretched when it is refused. -/
def bip39Seed (phrase passphrase : Text) : Except MnemonicError (Block 64) := do
  let _ ← entropyFromPhrase phrase
  if ¬ passphrase.isAscii then .error ⟨"passphrase is not ASCII"⟩
  else .ok (Bip39.pbkdf2HmacSha512 phrase.utf8 (saltPrefix ++ passphrase).utf8 pbkdf2Rounds)

def masterSeedFromPhrase (phrase passphrase : Text) : Except MnemonicError Secret := do
  let full ← bip39Seed phrase passphrase
  .ok (full.slice 0 seedLen)

/-- Thirty-two bytes always spell a phrase. -/
theorem phraseFromEntropy_ok (entropy : Block 32) : ∃ phrase, phraseFromEntropy entropy.1 = .ok phrase := by
  refine ⟨_, if_neg ?_⟩
  rw [entropy.2]
  decide

end Mnemonic

end MochimoWallet
