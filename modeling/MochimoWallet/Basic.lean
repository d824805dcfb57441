import MochimoWallet.Lib.Bytes
import MochimoWallet.Lib.Words

/-!
# Constants, addresses and errors

The protocol's widths, the address types every module speaks of, and the error
the library's fallible functions return. The variants and their fields are the
ones the modelled functions produce, each with the text its site gives it.
-/

namespace MochimoWallet

open Codec

/-! ## Widths -/

abbrev wotsW : ℕ := 16
abbrev wotsLogW : ℕ := 4
abbrev wotsLen1 : ℕ := 64
abbrev wotsLen2 : ℕ := 3
abbrev wotsLen : ℕ := wotsLen1 + wotsLen2
abbrev seedLen : ℕ := 32
abbrev pkLen : ℕ := wotsLen * 32
abbrev sigLen : ℕ := wotsLen * 32
abbrev wotsAddrLen : ℕ := 2208
abbrev addrTagLen : ℕ := 20
abbrev addrLen : ℕ := 40
abbrev addrRefLen : ℕ := 16
abbrev hashLen : ℕ := 32
/-- The first key's public seed and hash-address image. -/
abbrev firstKeyLen : ℕ := seedLen + 32
/-- The network's least fee. -/
abbrev mfee : ℕ := 500

abbrev u32Max : ℕ := 2 ^ 32 - 1
abbrev u64Max : ℕ := 2 ^ 64 - 1

/-- The twenty bytes that name an account; tags are ordered as byte arrays. -/
abbrev Tag := Block addrTagLen
/-- A tag followed by the hash of a public key. -/
abbrev Address := Block addrLen
/-- Thirty-two bytes of key material. -/
abbrev Secret := Block seedLen
/-- The message a key signs. -/
abbrev Digest := Block hashLen

/-- The public identity of a key stream: the hash of its rotation-0 public key. -/
structure StreamId where
  bytes : Block addrTagLen
  deriving DecidableEq

inductive AccountKind where
  | derived
  | imported
  deriving DecidableEq

/-! ## Errors -/

inductive ErrorKind where
  | notFound
  | wouldBlock
  | interrupted
  | invalidInput
  | unexpectedEof
  | invalidData
  | notADirectory
  | unsupported
  | other (code : ℕ)
  deriving DecidableEq

inductive TransportKind where
  | resolve
  | connect
  | timeout
  | tls
  | protocol
  | redirect
  | io (kind : ErrorKind)
  | other
  deriving DecidableEq

inductive Error where
  | length (what : String) (expected got : ℕ)
  | range (what : String) (min max got : ℕ)
  | io (op : String) (kind : ErrorKind)
  | corrupt (what : String) (offset : ℕ)
  | unsupportedVersion (got supported : UInt16) (firstAccount : Option (Tag × AccountKind))
  | locked
  | missing
  | exists (what : String)
  | noSuchAccount
  | unsafePermissions (mode : ℕ)
  | unsafeAcl (trustee : List Char) (rights : UInt32)
  | unsafeFileAcl (file : String) (trustee : List Char) (rights : UInt32)
  | storeDirectoryIsLink
  | pendingUnresolved (spentIndex : UInt32)
  | nothingPending
  | poisoned (first : Error)
  | wrongPassword
  | staleReceipt (attested stored : UInt32)
  | noReservation
  | digestMismatch
  | keyAccessMismatch (kind : AccountKind)
  | derivedTagNotReproduced (accountIndex : UInt32)
  | keyStreamSharedWithImportedAccount
  | firstAddressNotReproduced
  | streamIdNotReproduced
  | reconciliationRefused (what : String)
  | acknowledgementDoesNotMatch
  | nothingToReconcile
  | cancelled
  | transport (op : String) (kind : TransportKind)
  | httpStatus (status : UInt16)
  | mesh (code : UInt64) (retriable : Bool)
  | meshResponse (what : String)
  | chainAddressMismatch (position : UInt32)
  | staleSpendPlan (planned stored : UInt32)
  | spendPlanAddressMismatch
  | balanceChanged (planned current : UInt64)
  | invalidExpiry (expiry tip : UInt64)
  | reservationLanded (spentIndex settledIndex : UInt32)
  | insufficientBalance (balance needed : UInt64)
  | feeBelowMinimum (fee min : UInt64)
  | zeroAmount (index : ℕ)
  | destinationIsSource (index : ℕ)
  | invalidReference (index : ℕ)
  | overflow (what : String)
  | positionMismatch (planned signed : UInt32)
  | signatureDoesNotRecover (what : String)
  | submitIdMismatch
  deriving DecidableEq

end MochimoWallet
