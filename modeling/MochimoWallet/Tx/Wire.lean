import MochimoWallet.Wots

/-!
# The transaction on the wire

A transaction is a header, one image for each destination, the signature with the
public parts of its key, and a trailer. The header and the destinations are what the
signature is over, and what the identifier covers first: the signed prefix. Every
part has a fixed width but the list of destinations, whose length the header states,
so the signed prefix determines what it was written from (`signedPrefix_inj`).
-/

namespace MochimoWallet

open Codec

abbrev datMdst : UInt8 := 0
abbrev dsaWots : UInt8 := 0
abbrev maxDestinations : ℕ := 256
abbrev sizeofMdst : ℕ := addrTagLen + addrRefLen + 8

structure Destination where
  tag : Tag
  reference : Block addrRefLen
  amount : UInt64
  deriving DecidableEq

/-- The destination's forty-four bytes, which also order destinations. -/
def Destination.mdstImage (d : Destination) : Block sizeofMdst :=
  (d.tag.append d.reference).append (u64le d.amount)

structure WotsVal where
  signature : Block sigLen
  pubSeed : Block 32
  adrs : Block 32
  deriving DecidableEq

structure Trailer where
  nonce : UInt64
  id : Digest
  deriving DecidableEq

/-- The part of a transaction its signature is over. -/
structure Transfer where
  srcAddr : Address
  chgAddr : Address
  sendTotal : UInt64
  changeTotal : UInt64
  feeTotal : UInt64
  blkToLive : UInt64
  reserved : UInt8
  dsts : List Destination
  deriving DecidableEq

structure Transaction extends Transfer where
  wots : WotsVal
  trailer : Option Trailer
  deriving DecidableEq

namespace Transaction

def checkCount (n : ℕ) : Except Error Unit :=
  if n = 0 ∨ n > maxDestinations then .error (.range "destination count" 1 maxDestinations n)
  else .ok ()

def new (dsts : List Destination) : Except Error Transaction := do
  checkCount dsts.length
  .ok ⟨⟨.zero addrLen, .zero addrLen, 0, 0, 0, 0, 0, dsts⟩,
    ⟨.zero sigLen, .zero 32, .zero 32⟩, none⟩

def dstCount (tx : Transaction) : ℕ := tx.dsts.length

end Transaction

namespace Transfer

/-- The header's fixed fields after its options. -/
def figuresImage (t : Transfer) : Block (addrLen + addrLen + 8 + 8 + 8 + 8) :=
  (((((t.srcAddr.append t.chgAddr).append (u64le t.sendTotal)).append
    (u64le t.changeTotal)).append (u64le t.feeTotal)).append (u64le t.blkToLive))

/-- The bytes the signature is over. -/
def signedPrefix (t : Transfer) : Bytes :=
  [datMdst, dsaWots, UInt8.ofNat (t.dsts.length - 1), t.reserved] ++ t.figuresImage.1 ++
    t.dsts.flatMap fun d => d.mdstImage.1

end Transfer

namespace Transaction

def wotsImage (w : WotsVal) : Bytes := w.signature.1 ++ w.pubSeed.1 ++ w.adrs.1

def trailerImage : Option Trailer → Bytes
  | some t => (u64le t.nonce).1 ++ t.id.1
  | none => []

def toWire (tx : Transaction) : Bytes :=
  tx.signedPrefix ++ wotsImage tx.wots ++ trailerImage tx.trailer

variable [Crypto]

def messageDigest (t : Transfer) : Digest := Crypto.sha256 t.signedPrefix

def idDigestWithNonce (tx : Transaction) (nonce : UInt64) : Digest :=
  Crypto.sha256 (tx.signedPrefix ++ wotsImage tx.wots ++ (u64le nonce).1)

def idDigest (tx : Transaction) : Digest :=
  tx.idDigestWithNonce ((tx.trailer.map Trailer.nonce).getD 0)

/-- The transaction with the trailer its identifier makes. -/
def seal' (tx : Transaction) : Transaction :=
  { tx with trailer := some ⟨0, tx.idDigestWithNonce 0⟩ }

end Transaction

/-! ## The signed prefix says what it was written from -/

theorem Destination.mdstImage_injective {d d' : Destination} (h : d.mdstImage = d'.mdstImage) :
    d = d' := by
  obtain ⟨hhead, hamount⟩ := Block.append_injective h
  obtain ⟨htag, hreference⟩ := Block.append_injective hhead
  cases d
  cases d'
  cases htag
  cases hreference
  cases u64le_injective hamount
  rfl

theorem Transfer.figuresImage_injective {t t' : Transfer} (h : t.figuresImage = t'.figuresImage) :
    t.srcAddr = t'.srcAddr ∧ t.chgAddr = t'.chgAddr ∧ t.sendTotal = t'.sendTotal ∧
      t.changeTotal = t'.changeTotal ∧ t.feeTotal = t'.feeTotal ∧ t.blkToLive = t'.blkToLive := by
  obtain ⟨h, hblk⟩ := Block.append_injective h
  obtain ⟨h, hfee⟩ := Block.append_injective h
  obtain ⟨h, hchange⟩ := Block.append_injective h
  obtain ⟨h, hsend⟩ := Block.append_injective h
  obtain ⟨hsrc, hchg⟩ := Block.append_injective h
  exact ⟨hsrc, hchg, u64le_injective hsend, u64le_injective hchange, u64le_injective hfee,
    u64le_injective hblk⟩

theorem signedPrefix_inj {t t' : Transfer} (h : t.signedPrefix = t'.signedPrefix) : t = t' := by
  unfold Transfer.signedPrefix at h
  obtain ⟨h, hdsts⟩ := List.append_inj h (by
    rw [List.length_append, List.length_append, Block.length_eq, Block.length_eq]
    rfl)
  obtain ⟨hoptions, hfigures⟩ := List.append_inj h rfl
  obtain ⟨hsrc, hchg, hsend, hchange, hfee, hblk⟩ := Transfer.figuresImage_injective (Block.ext hfigures)
  have hreserved : t.reserved = t'.reserved := by
    simp only [List.cons.injEq] at hoptions
    exact hoptions.2.2.2.1
  have hdsts := flatMap_block_injective (by decide) Destination.mdstImage_injective hdsts
  cases t
  cases t'
  simp_all

end MochimoWallet
