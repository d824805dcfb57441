import MochimoWallet.Lib.Result
import MochimoWallet.Tx.Wire

/-!
# Reading a transaction back

The reader takes an image apart field by field, each with the bytes that are left. It
accepts the trailer whole, absent, or cut short anywhere, and a trailer cut short is
the one that zeros complete. What it makes of any long enough image is read off one
lemma (`fromWire_laid`): an image of the right type and length is a signed prefix, the
validation data and up to forty bytes more.
-/

namespace MochimoWallet

open Codec

abbrev sizeofTxhdr : ℕ := 4 + addrLen * 2 + 8 * 4
abbrev sizeofWotsval : ℕ := sigLen + 32 + 32
abbrev sizeofTxtlr : ℕ := 8 + hashLen

namespace Transaction

/-! ## Offsets -/

def dsaOff (tx : Transaction) : ℕ := sizeofTxhdr + sizeofMdst * tx.dsts.length
def tlrOff (tx : Transaction) : ℕ := tx.dsaOff + sizeofWotsval
def txSz (tx : Transaction) : ℕ := tx.tlrOff + sizeofTxtlr

/-- How long an image `toWire` gives. -/
def wireLen (tx : Transaction) : ℕ :=
  match tx.trailer with
  | some _ => tx.txSz
  | none => tx.txSz - sizeofTxtlr

/-! ## The reader -/

/-- The next `n` bytes, or a refusal that says how many there were. -/
def take (n : ℕ) (what : String) (r : Bytes) : Except Error (Block n × Bytes) :=
  if h : n ≤ r.length then .ok (⟨r.take n, List.length_take_of_le h⟩, r.drop n)
  else .error (.length what n r.length)

def takeDsts : ℕ → Bytes → Except Error (List Destination × Bytes)
  | 0, r => .ok ([], r)
  | n + 1, r => do
    let (tag, r) ← take addrTagLen "destination tag" r
    let (reference, r) ← take addrRefLen "destination reference" r
    let (amount, r) ← take 8 "destination amount" r
    let (dsts, r) ← takeDsts n r
    .ok (⟨tag, reference, ofU64le amount⟩ :: dsts, r)

/-- A trailer, with the zeros that complete what there is of it. -/
def padded (r : Bytes) : Bytes := r ++ List.replicate (sizeofTxtlr - r.length) 0

/-- What is left after the validation data: nothing, or a trailer that zeros complete. -/
def takeTrailer (r : Bytes) : Except Error (Option Trailer) :=
  if r = [] then .ok none
  else if r.length ≤ sizeofTxtlr then do
    let (nonce, t) ← take 8 "trailer nonce" (padded r)
    let (id, _) ← take hashLen "trailer id" t
    .ok (some ⟨ofU64le nonce, id⟩)
  else .error (.length "transaction trailer" sizeofTxtlr r.length)

/-- The fields after the options. -/
def takeFields (ndst : ℕ) (reserved : UInt8) (r : Bytes) : Except Error Transaction := do
  let (srcAddr, r) ← take addrLen "src_addr" r
  let (chgAddr, r) ← take addrLen "chg_addr" r
  let (sendTotal, r) ← take 8 "send_total" r
  let (changeTotal, r) ← take 8 "change_total" r
  let (feeTotal, r) ← take 8 "fee_total" r
  let (blkToLive, r) ← take 8 "blk_to_live" r
  let (dsts, r) ← takeDsts ndst r
  let (signature, r) ← take sigLen "wots signature" r
  let (pubSeed, r) ← take 32 "wots pub_seed" r
  let (adrs, r) ← take 32 "wots adrs" r
  let trailer ← takeTrailer r
  .ok ⟨⟨srcAddr, chgAddr, ofU64le sendTotal, ofU64le changeTotal, ofU64le feeTotal,
    ofU64le blkToLive, reserved, dsts⟩, ⟨signature, pubSeed, adrs⟩, trailer⟩

def fromWire (bytes : Bytes) : Except Error Transaction := do
  if bytes.length < sizeofTxhdr then
    .error (.length "transaction wire header" sizeofTxhdr bytes.length)
  else
  let (options, r) ← take 4 "options" bytes
  let option (i : ℕ) : UInt8 := options.1.getD i 0
  if option 0 ≠ datMdst then
    .error (.range "TXDAT type byte" datMdst.toNat datMdst.toNat (option 0).toNat)
  else if option 1 ≠ dsaWots then
    .error (.range "TXDSA type byte" dsaWots.toNat dsaWots.toNat (option 1).toNat)
  else
  let ndst := (option 2).toNat + 1
  let txSz := sizeofTxhdr + sizeofMdst * ndst + sizeofWotsval + sizeofTxtlr
  if bytes.length > txSz ∨ bytes.length < txSz - sizeofTxtlr then
    .error (.range "transaction wire length" (txSz - sizeofTxtlr) txSz bytes.length)
  else takeFields ndst (option 3) r

/-! ## The invariant of the type -/

/-- As many destinations as the count byte can state: every way to a transaction is held to it. -/
def CountHeld (tx : Transaction) : Prop := checkCount tx.dsts.length = .ok ()

theorem countHeld_iff {tx : Transaction} :
    tx.CountHeld ↔ 1 ≤ tx.dsts.length ∧ tx.dsts.length ≤ maxDestinations := by
  unfold CountHeld checkCount
  split
  · next h => exact iff_of_false (by simp) (by omega)
  · next h => exact iff_of_true rfl (by omega)

theorem countHeld_new {dsts : List Destination} {tx : Transaction} (h : new dsts = .ok tx) :
    tx.CountHeld := by
  obtain ⟨⟨⟩, hcount, h⟩ := bind_eq_ok.mp h
  cases h
  exact hcount

/-! ## Lengths -/

theorem length_dstImages (dsts : List Destination) :
    (dsts.flatMap fun d => d.mdstImage.1).length = sizeofMdst * dsts.length := by
  induction dsts with
  | nil => rfl
  | cons d ds ih =>
    rw [List.flatMap_cons, List.length_append, ih, d.mdstImage.2, List.length_cons]
    ring

theorem length_signedPrefix (tx : Transaction) : tx.signedPrefix.length = tx.dsaOff := by
  rw [Transfer.signedPrefix, List.length_append, length_dstImages, List.length_append,
    Block.length_eq]
  rfl

theorem length_wotsImage (w : WotsVal) : (wotsImage w).length = sizeofWotsval := by
  rw [wotsImage, List.length_append, List.length_append, Block.length_eq, Block.length_eq,
    Block.length_eq]

theorem length_toWire (tx : Transaction) : tx.toWire.length = tx.wireLen := by
  rw [toWire, List.length_append, List.length_append, length_signedPrefix, length_wotsImage,
    wireLen]
  cases tx.trailer with
  | none => rfl
  | some t =>
    rw [trailerImage, List.length_append, Block.length_eq, Block.length_eq]
    rfl

/-! ## Reading what was laid out -/

theorem take_append {n : ℕ} (b : Block n) (rest : Bytes) (what : String) :
    take n what (b.1 ++ rest) = .ok (b, rest) := by
  have hn : b.1.length = n := b.2
  have hle : n ≤ (b.1 ++ rest).length := by rw [List.length_append, hn]; omega
  have ht : (b.1 ++ rest).take n = b.1 := List.take_left' hn
  have hd : (b.1 ++ rest).drop n = rest := List.drop_left' hn
  simp only [take, dif_pos hle, ht, hd]

theorem takeDsts_append (dsts : List Destination) (rest : Bytes) :
    takeDsts dsts.length ((dsts.flatMap fun d => d.mdstImage.1) ++ rest) = .ok (dsts, rest) := by
  induction dsts with
  | nil => rfl
  | cons d ds ih =>
    have himage : d.mdstImage.1 = d.tag.1 ++ (d.reference.1 ++ (u64le d.amount).1) :=
      List.append_assoc ..
    simp only [List.length_cons, takeDsts, List.flatMap_cons, himage, List.append_assoc,
      take_append, ok_bind, ih, ofU64le_u64le]

/-- What is left is read as the trailer it begins. -/
theorem takeTrailer_eq {r : Bytes} (h : r.length ≤ sizeofTxtlr) :
    ∃ trailer, takeTrailer r = .ok trailer ∧
      trailerImage trailer = if r = [] then [] else padded r := by
  by_cases hr : r = []
  · exact ⟨none, by rw [takeTrailer, if_pos hr], by rw [if_pos hr]; rfl⟩
  have hlen : (padded r).length = sizeofTxtlr := by
    rw [padded, List.length_append, List.length_replicate]
    omega
  obtain ⟨nonce, rest, hrest⟩ := exists_block_append (n := 8) (b := padded r)
    (by rw [hlen]; decide)
  have hid : rest.length = hashLen := by
    rw [hrest, List.length_append, nonce.2] at hlen
    exact Nat.add_left_cancel hlen
  refine ⟨some ⟨ofU64le nonce, ⟨rest, hid⟩⟩, ?_, ?_⟩
  · have htake := take_append (⟨rest, hid⟩ : Block hashLen) [] "trailer id"
    rw [List.append_nil] at htake
    rw [takeTrailer, if_neg hr, if_pos h]
    simp only [hrest, take_append, ok_bind, htake]
  · rw [if_neg hr, trailerImage, u64le_ofU64le, hrest]

theorem takeTrailer_trailerImage (trailer : Option Trailer) :
    takeTrailer (trailerImage trailer) = .ok trailer := by
  cases trailer with
  | none => rfl
  | some t =>
    have hlen : (trailerImage (some t)).length = sizeofTxtlr := by
      rw [trailerImage, List.length_append, Block.length_eq, Block.length_eq]
    have hne : trailerImage (some t) ≠ [] := fun h => by rw [h] at hlen; cases hlen
    have htake := take_append t.id [] "trailer id"
    rw [List.append_nil] at htake
    rw [takeTrailer, if_neg hne, if_pos hlen.le, padded, hlen, Nat.sub_self, List.replicate_zero,
      List.append_nil, trailerImage]
    simp only [take_append, ok_bind, htake, ofU64le_u64le]

theorem takeFields_laid (tx : Transaction) (r : Bytes) {trailer : Option Trailer}
    (h : takeTrailer r = .ok trailer) :
    takeFields tx.dsts.length tx.reserved
        (tx.figuresImage.1 ++ ((tx.dsts.flatMap fun d => d.mdstImage.1) ++ (wotsImage tx.wots ++ r))) =
      .ok { tx with trailer } := by
  have hfigures : tx.figuresImage.1 = tx.srcAddr.1 ++ (tx.chgAddr.1 ++ ((u64le tx.sendTotal).1 ++
      ((u64le tx.changeTotal).1 ++ ((u64le tx.feeTotal).1 ++ (u64le tx.blkToLive).1)))) := by
    simp only [Transfer.figuresImage, Block.append, List.append_assoc]
  simp only [takeFields, hfigures, wotsImage, List.append_assoc, take_append, takeDsts_append,
    ok_bind, h, ofU64le_u64le]

/-- What the reader makes of a prefix, its validation data and what may be a trailer. -/
theorem fromWire_laid {tx : Transaction} (hcount : tx.CountHeld) {r : Bytes}
    (hr : r.length ≤ sizeofTxtlr) {trailer : Option Trailer} (h : takeTrailer r = .ok trailer) :
    fromWire (tx.signedPrefix ++ wotsImage tx.wots ++ r) = .ok { tx with trailer } := by
  obtain ⟨hone, hmax⟩ := countHeld_iff.mp hcount
  have hndst : (UInt8.ofNat (tx.dsts.length - 1)).toNat + 1 = tx.dsts.length := by
    simp only [maxDestinations] at hmax
    rw [UInt8.toNat_ofNat', Nat.mod_eq_of_lt (by omega)]
    omega
  have hlen : (tx.signedPrefix ++ wotsImage tx.wots ++ r).length =
      sizeofTxhdr + sizeofMdst * tx.dsts.length + sizeofWotsval + r.length := by
    rw [List.length_append, List.length_append, length_signedPrefix, length_wotsImage, dsaOff]
  have hbytes : tx.signedPrefix ++ wotsImage tx.wots ++ r =
      (⟨[datMdst, dsaWots, .ofNat (tx.dsts.length - 1), tx.reserved], rfl⟩ : Block 4).1 ++
        (tx.figuresImage.1 ++ ((tx.dsts.flatMap fun d => d.mdstImage.1) ++
          (wotsImage tx.wots ++ r))) := by
    simp only [Transfer.signedPrefix, List.append_assoc]
  rw [fromWire, if_neg (by rw [hlen]; omega), hlen, hbytes, take_append, ok_bind]
  simp only [List.getD_cons_zero, List.getD_cons_succ, ne_eq, not_true_eq_false, if_false, hndst]
  rw [if_neg (by omega)]
  exact takeFields_laid tx r h

/-! ## What is accepted -/

/-- The whole size of an image with this count byte. -/
def txSzAt (count : UInt8) : ℕ :=
  sizeofTxhdr + sizeofMdst * (count.toNat + 1) + sizeofWotsval + sizeofTxtlr

/-- The images the reader takes: of its types, and as long as the count byte makes them, give or
take a trailer. -/
structure Framed (bytes : Bytes) (count : UInt8) : Prop where
  types : bytes.take 3 = [datMdst, dsaWots, count]
  least : txSzAt count - sizeofTxtlr ≤ bytes.length
  most : bytes.length ≤ txSzAt count

theorem exists_dsts (n : ℕ) {b : Bytes} (h : sizeofMdst * n ≤ b.length) :
    ∃ (dsts : List Destination) (rest : Bytes), dsts.length = n ∧
      b = (dsts.flatMap fun d => d.mdstImage.1) ++ rest := by
  induction n generalizing b with
  | zero => exact ⟨[], b, rfl, rfl⟩
  | succ n ih =>
    have hsize : sizeofMdst = addrTagLen + addrRefLen + 8 := rfl
    rw [Nat.mul_succ] at h
    obtain ⟨tag, b, rfl⟩ := exists_block_append (n := addrTagLen) (b := b) (by omega)
    rw [List.length_append, tag.2] at h
    obtain ⟨reference, b, rfl⟩ := exists_block_append (n := addrRefLen) (b := b) (by omega)
    rw [List.length_append, reference.2] at h
    obtain ⟨amount, b, rfl⟩ := exists_block_append (n := 8) (b := b) (by omega)
    rw [List.length_append, amount.2] at h
    obtain ⟨dsts, rest, hlen, rfl⟩ := ih (b := b) (by omega)
    refine ⟨⟨tag, reference, ofU64le amount⟩ :: dsts, rest, by rw [List.length_cons, hlen], ?_⟩
    simp only [List.flatMap_cons, Destination.mdstImage, Block.append, u64le_ofU64le,
      List.append_assoc]

/-- Enough bytes are some transaction's fields, and what follows. -/
theorem exists_laid (n : ℕ) (reserved : UInt8) {b : Bytes}
    (h : sizeofTxhdr + sizeofMdst * n + sizeofWotsval ≤ b.length + 4) :
    ∃ (tx : Transaction) (rest : Bytes), tx.dsts.length = n ∧ tx.reserved = reserved ∧
      b = tx.figuresImage.1 ++ ((tx.dsts.flatMap fun d => d.mdstImage.1) ++
        (wotsImage tx.wots ++ rest)) := by
  simp only [sizeofTxhdr, sizeofWotsval] at h
  obtain ⟨srcAddr, b, rfl⟩ := exists_block_append (n := addrLen) (b := b) (by omega)
  rw [List.length_append, srcAddr.2] at h
  obtain ⟨chgAddr, b, rfl⟩ := exists_block_append (n := addrLen) (b := b) (by omega)
  rw [List.length_append, chgAddr.2] at h
  obtain ⟨sendTotal, b, rfl⟩ := exists_block_append (n := 8) (b := b) (by omega)
  rw [List.length_append, sendTotal.2] at h
  obtain ⟨changeTotal, b, rfl⟩ := exists_block_append (n := 8) (b := b) (by omega)
  rw [List.length_append, changeTotal.2] at h
  obtain ⟨feeTotal, b, rfl⟩ := exists_block_append (n := 8) (b := b) (by omega)
  rw [List.length_append, feeTotal.2] at h
  obtain ⟨blkToLive, b, rfl⟩ := exists_block_append (n := 8) (b := b) (by omega)
  rw [List.length_append, blkToLive.2] at h
  obtain ⟨dsts, b, hdsts, rfl⟩ := exists_dsts n (b := b) (by omega)
  rw [List.length_append, length_dstImages, hdsts] at h
  obtain ⟨signature, b, rfl⟩ := exists_block_append (n := sigLen) (b := b) (by omega)
  rw [List.length_append, signature.2] at h
  obtain ⟨pubSeed, b, rfl⟩ := exists_block_append (n := 32) (b := b) (by omega)
  rw [List.length_append, pubSeed.2] at h
  obtain ⟨adrs, b, rfl⟩ := exists_block_append (n := 32) (b := b) (by omega)
  refine ⟨⟨⟨srcAddr, chgAddr, ofU64le sendTotal, ofU64le changeTotal, ofU64le feeTotal,
    ofU64le blkToLive, reserved, dsts⟩, ⟨signature, pubSeed, adrs⟩, none⟩, b, hdsts, rfl, ?_⟩
  simp only [Transfer.figuresImage, Block.append, wotsImage, u64le_ofU64le, List.append_assoc]

/-- The options in an image's first bytes. -/
theorem take_options (options : Block 4) (rest : Bytes) : (options.1 ++ rest).take 3 =
    [options.1.getD 0 0, options.1.getD 1 0, options.1.getD 2 0] := by
  obtain ⟨bs, hbs⟩ := options
  match bs, hbs with
  | [a, b, c, d], _ => rfl

theorem Framed.exists_laid {bytes : Bytes} {count : UInt8} (h : Framed bytes count) :
    ∃ (tx : Transaction) (r : Bytes), tx.CountHeld ∧ tx.dsts.length = count.toNat + 1 ∧
      r.length ≤ sizeofTxtlr ∧ bytes = tx.signedPrefix ++ wotsImage tx.wots ++ r := by
  obtain ⟨htypes, hleast, hmost⟩ := h
  have hcount : count.toNat < 256 := count.toNat_lt
  rw [txSzAt, Nat.add_sub_cancel] at hleast
  obtain ⟨options, b, rfl⟩ := exists_block_append (n := 4) (b := bytes) (by
    simp only [sizeofTxhdr] at hleast; omega)
  rw [List.length_append, options.2] at hleast
  obtain ⟨tx, r, hdsts, hreserved, rfl⟩ := Transaction.exists_laid (count.toNat + 1)
    (options.1.getD 3 0) (b := b) (by omega)
  have hoptions : options.1 =
      [datMdst, dsaWots, UInt8.ofNat (tx.dsts.length - 1), tx.reserved] := by
    obtain ⟨bs, hbs⟩ := options
    match bs, hbs with
    | [a, b, c, d], _ =>
      simp only [List.cons_append, List.nil_append, List.take_succ_cons, List.take_zero,
        List.cons.injEq, and_true] at htypes
      obtain ⟨rfl, rfl, rfl⟩ := htypes
      rw [hdsts, hreserved, Nat.add_sub_cancel, UInt8.ofNat_toNat]
      rfl
  have hbytes : options.1 ++ (tx.figuresImage.1 ++ ((tx.dsts.flatMap fun d => d.mdstImage.1) ++
      (wotsImage tx.wots ++ r))) = tx.signedPrefix ++ wotsImage tx.wots ++ r := by
    simp only [Transfer.signedPrefix, hoptions, List.append_assoc]
  rw [hbytes, List.length_append, List.length_append, length_signedPrefix, length_wotsImage,
    dsaOff, hdsts, txSzAt] at hmost
  exact ⟨tx, r, countHeld_iff.mpr ⟨by omega, hdsts ▸ hcount⟩, hdsts, by omega, hbytes⟩

/-- What passes the reader's checks. -/
theorem framed_of_fromWire {bytes : Bytes} {tx : Transaction} (h : fromWire bytes = .ok tx) :
    ∃ count, Framed bytes count := by
  unfold fromWire at h
  split at h
  · cases h
  next hheader =>
  obtain ⟨options, b, rfl⟩ := exists_block_append (n := 4) (b := bytes) (by
    simp only [sizeofTxhdr] at hheader; omega)
  rw [take_append, ok_bind] at h
  dsimp only at h
  split at h
  · cases h
  next hdat =>
  split at h
  · cases h
  next hdsa =>
  split at h
  · cases h
  next hwindow =>
  refine ⟨options.1.getD 2 0, ?_, ?_, ?_⟩
  · rw [take_options, Decidable.not_not.mp hdat, Decidable.not_not.mp hdsa]
  · rw [txSzAt]
    omega
  · rw [txSzAt]
    omega

/-- An image of the right frame is read, and written again as it was: whole where it ended with
its validation data or its trailer, and with its trailer completed where that was cut short. -/
theorem Framed.fromWire {bytes : Bytes} {count : UInt8} (h : Framed bytes count) :
    ∃ tx, Transaction.fromWire bytes = .ok tx ∧ tx.CountHeld ∧ tx.dsts.length = count.toNat + 1 ∧
      tx.toWire = if bytes.length = txSzAt count - sizeofTxtlr then bytes
        else bytes ++ List.replicate (txSzAt count - bytes.length) 0 := by
  obtain ⟨tx, r, hheld, hdsts, hr, rfl⟩ := h.exists_laid
  obtain ⟨trailer, htake, himage⟩ := takeTrailer_eq hr
  have hsize : txSzAt count = tx.dsaOff + sizeofWotsval + sizeofTxtlr := by
    rw [txSzAt, dsaOff, hdsts]
  have hlen : (tx.signedPrefix ++ wotsImage tx.wots ++ r).length =
      tx.dsaOff + sizeofWotsval + r.length := by
    rw [List.length_append, List.length_append, length_signedPrefix, length_wotsImage]
  refine ⟨{ tx with trailer }, fromWire_laid hheld hr htake, hheld, hdsts, ?_⟩
  show tx.signedPrefix ++ wotsImage tx.wots ++ trailerImage trailer = _
  rw [himage, hlen, hsize, Nat.add_sub_cancel]
  by_cases hnil : r = []
  · rw [if_pos hnil, if_pos (by rw [hnil]; rfl), hnil]
  · have hpos : 0 < r.length := List.length_pos_of_ne_nil hnil
    rw [if_neg hnil, if_neg (by omega), padded, ← List.append_assoc]
    congr 2
    omega

theorem fromWire_toWire {tx : Transaction} (h : tx.CountHeld) : fromWire tx.toWire = .ok tx := by
  have hlen : (trailerImage tx.trailer).length ≤ sizeofTxtlr := by
    cases tx.trailer with
    | none => exact Nat.zero_le _
    | some t => rw [trailerImage, List.length_append, Block.length_eq, Block.length_eq]
  rw [toWire, fromWire_laid h hlen (takeTrailer_trailerImage tx.trailer)]

theorem countHeld_fromWire {bytes : Bytes} {tx : Transaction} (h : fromWire bytes = .ok tx) :
    tx.CountHeld := by
  obtain ⟨count, hframed⟩ := framed_of_fromWire h
  obtain ⟨tx', hread, hheld, -⟩ := hframed.fromWire
  rw [h] at hread
  cases hread
  exact hheld

/-! ## The codec -/

section
variable [Crypto]

theorem messageDigest_eq (tx : Transaction) :
    messageDigest tx.toTransfer = Crypto.sha256 (tx.toWire.take tx.dsaOff) := by
  rw [toWire, List.append_assoc, List.take_left' (length_signedPrefix tx), messageDigest]

theorem idDigest_eq (tx : Transaction) :
    tx.idDigest = Crypto.sha256 (tx.toWire.take tx.tlrOff ++
      (u64le ((tx.trailer.map Trailer.nonce).getD 0)).1) := by
  have hlen : (tx.signedPrefix ++ wotsImage tx.wots).length = tx.tlrOff := by
    rw [List.length_append, length_signedPrefix, length_wotsImage, tlrOff]
  rw [toWire, List.take_left' hlen, idDigest, idDigestWithNonce]

/-- Reader and writer of transactions agree: what is written is read back; what is accepted is of
the two types and as long as its count byte says, and is written again as it was but for the zeros
that complete a cut trailer; the digests are of the image's own bytes; and the signed prefix says
what it was written from. -/
theorem wire_codec (tx : Transaction) (hheld : tx.CountHeld) (bytes : Bytes) :
    (fromWire tx.toWire = .ok tx ∧ tx.toWire.length = tx.wireLen) ∧
      ((∃ tx', fromWire bytes = .ok tx') ↔ ∃ count, bytes.take 3 = [datMdst, dsaWots, count] ∧
        txSzAt count - 40 ≤ bytes.length ∧ bytes.length ≤ txSzAt count) ∧
      (∀ tx' count, fromWire bytes = .ok tx' → bytes[2]? = some count →
        (bytes.length = txSzAt count - 40 ∨ bytes.length = txSzAt count → tx'.toWire = bytes) ∧
        (txSzAt count - 40 < bytes.length → bytes.length < txSzAt count →
          tx'.toWire = bytes ++ List.replicate (txSzAt count - bytes.length) 0)) ∧
      (messageDigest tx.toTransfer = Crypto.sha256 (tx.toWire.take tx.dsaOff) ∧
        tx.idDigest = Crypto.sha256 (tx.toWire.take tx.tlrOff ++
          (u64le ((tx.trailer.map Trailer.nonce).getD 0)).1)) ∧
      ∀ tx' : Transaction, tx.signedPrefix = tx'.signedPrefix → tx.toTransfer = tx'.toTransfer := by
  refine ⟨⟨fromWire_toWire hheld, length_toWire tx⟩, ⟨?_, ?_⟩, ?_,
    ⟨messageDigest_eq tx, idDigest_eq tx⟩, fun tx' => signedPrefix_inj⟩
  · rintro ⟨tx', h⟩
    obtain ⟨count, htypes, hleast, hmost⟩ := framed_of_fromWire h
    exact ⟨count, htypes, hleast, hmost⟩
  · rintro ⟨count, htypes, hleast, hmost⟩
    obtain ⟨tx', hread, -⟩ := (Framed.mk htypes hleast hmost).fromWire
    exact ⟨tx', hread⟩
  · intro tx' count h hcount
    obtain ⟨count', hframed⟩ := framed_of_fromWire h
    have hsame : count' = count := by
      have hget := congrArg (·[2]?) hframed.types
      rw [List.getElem?_take_of_lt (by decide), hcount] at hget
      exact (Option.some.inj hget).symm
    subst hsame
    obtain ⟨tx'', hread, -, -, hwire⟩ := hframed.fromWire
    rw [h] at hread
    cases hread
    rw [hwire]
    refine ⟨fun hends => ?_, fun hlt _ => if_neg hlt.ne'⟩
    rcases hends with hend | hend
    · exact if_pos hend
    · rw [hend, Nat.sub_self, List.replicate_zero, List.append_nil, ite_self]

end

/-- A transfer of one to the zero tag. -/
def one : Transaction :=
  ⟨⟨.zero addrLen, .zero addrLen, 1, 0, mfee.toUInt64, 0, 0, [⟨.zero addrTagLen, .zero addrRefLen, 1⟩]⟩,
    ⟨.zero sigLen, .zero 32, .zero 32⟩, some ⟨7, .zero 32⟩⟩

attribute [local instance] Crypto.plain

theorem wire_codec_one : fromWire one.toWire = .ok one :=
  (wire_codec one rfl []).1.1

end Transaction

end MochimoWallet
