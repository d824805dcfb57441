import MochimoWallet.Basic
import MochimoWallet.Lib.Text
import Mathlib.Data.Nat.Digits.Defs

/-!
# Destinations

What a tag is shown as: Base58 over the tag and its CRC-16. The codec refuses the empty
string alone, so every tag has a destination (`tagToBase58_ok`).
-/

namespace MochimoWallet

open Codec

/-! ## CRC-16 -/

/-- One bit of the division, the polynomial taken where the bit above falls out. -/
def crcStep (crc : UInt16) : UInt16 :=
  if crc &&& 0x8000 ≠ 0 then (crc <<< 1) ^^^ 0x1021 else crc <<< 1

def crc16Table (i : UInt8) : UInt16 := crcStep^[8] (i.toUInt16 <<< 8)

def crc16 (input : Bytes) : UInt16 :=
  input.foldl (fun crc byte => (crc <<< 8) ^^^ crc16Table ((crc >>> 8).toUInt8 ^^^ byte)) 0

/-! ## Base58 -/

structure ReferenceError where
  function : String
  rc : ℤ
  deriving DecidableEq

def base58Alphabet : Text := "123456789ABCDEFGHJKLMNPQRSTUVWXYZabcdefghijkmnopqrstuvwxyz".toList

/-- A digit of base `r` taken into a number that is held in base `b`, least significant first. -/
def pushDigit (r b : ℕ) : List ℕ → ℕ → List ℕ
  | [], carry => Nat.digits b carry
  | d :: ds, carry =>
    let carry := carry + d * r
    carry % b :: pushDigit r b ds (carry / b)

def base58Encode (input : Bytes) : Except ReferenceError Text :=
  if input = [] then .error ⟨"base58_encode", -1⟩
  else
    let zeros := (input.takeWhile (· = 0)).length
    let digits := (input.drop zeros).foldl (fun digits byte => pushDigit 256 58 digits byte.toNat) []
    .ok (List.replicate zeros '1' ++ digits.reverse.map fun d => base58Alphabet.getD d '1')

theorem base58Encode_ok {input : Bytes} (h : input ≠ []) : ∃ text, base58Encode input = .ok text :=
  ⟨_, if_neg h⟩

/-! ## Tags -/

/-- The destination of a tag: the form every wallet takes. -/
def tagToBase58 (tag : Tag) : Except ReferenceError Text :=
  base58Encode (tag.1 ++ (u16le (crc16 tag.1)).1)

theorem tagToBase58_ok (tag : Tag) : ∃ text, tagToBase58 tag = .ok text :=
  base58Encode_ok fun h => by
    have hlen := congrArg List.length h
    rw [List.length_append, tag.2] at hlen
    cases hlen

end MochimoWallet
