import MochimoWallet.Lib.HashChain
import MochimoWallet.Mesh.Scheme

/-!
# A second spend of an address

A transaction is accepted on an address for any key its signature recovers that has the address's
hash, under whatever public seed and hash address it carries. Of two accepted transactions that
spend one address, the second is the first's transfer, or it says how it came about: two keys of one
address hash, two images of one SHA-256 among those the two verifications hash, or an image the
second's hashes that SHA-256 takes to a chain element of the first's signature (`second_spend`).
-/

namespace MochimoWallet

open Codec

/-! ## What a verification hashes -/

theorem xor_right_cancel {x y m : Block 32} (h : xor x m = xor y m) : x = y := by
  have hlists : ∀ as bs ms : Bytes, as.length = ms.length → bs.length = ms.length →
      List.zipWith (· ^^^ ·) as ms = List.zipWith (· ^^^ ·) bs ms → as = bs := by
    intro as
    induction as with
    | nil =>
      intro bs ms has hbs _
      exact (List.eq_nil_of_length_eq_zero (hbs.trans has.symm)).symm
    | cons a as ih =>
      intro bs ms has hbs h
      rcases ms with _ | ⟨m, ms⟩
      · cases has
      rcases bs with _ | ⟨b, bs⟩
      · cases hbs
      simp only [List.zipWith_cons_cons, List.cons.injEq] at h
      simp only [List.length_cons, Nat.add_right_cancel_iff] at has hbs
      have hab : a = b := UInt8.xor_left_inj m |>.mp h.1
      rw [hab, ih bs ms has hbs h.2]
  exact Block.ext (hlists x.1 y.1 m.1 (x.2.trans m.2.symm) (y.2.trans m.2.symm) (congrArg Block.bytes h))

/-- Hash addresses that are read alike are one. -/
theorem addrToBytes_injective {a b : Adrs} (h : addrToBytes a = addrToBytes b) : a = b := by
  have hword {v w : UInt32} (h : ullToBytes 4 v.toNat = ullToBytes 4 w.toNat) : v = w := by
    have hle := List.reverse_injective (congrArg Block.bytes h)
    have hnat := congrArg ofLe hle
    have hv := v.toNat_lt
    have hw := w.toNat_lt
    rw [ofLe_toLe, ofLe_toLe] at hnat
    exact UInt32.toNat_inj.mp (by omega)
  have hwords := flatMap_block_injective (by decide) hword (congrArg Block.bytes h)
  exact Adrs.ext_words fun j => by rw [hwords]

section
variable [Crypto]

/-- What `prf` hashes. -/
def prfImage (input key : Block 32) : Bytes := (ullToBytes 32 xmssHashPaddingPrf).1 ++ key.1 ++ input.1

/-- A step's hash address, as it makes the step's key. -/
def stepAdrs (a : Adrs) (c : UInt32) (i : ℕ) : Adrs := (a.writes [(5, c), (6, .ofNat i)]).setKeyAndMask 0

/-- Chain `c` of the addresses that are alike `a`. -/
def hashChain (pubSeed : Block 32) (a : Adrs) (c : UInt32) : HashChain Bytes (Block 32) where
  keys i := [prfImage (addrToBytes (stepAdrs a c i)) pubSeed,
    prfImage (addrToBytes ((stepAdrs a c i).setKeyAndMask 1)) pubSeed]
  image i x := (ullToBytes 32 xmssHashPaddingF).1 ++ (prf (addrToBytes (stepAdrs a c i)) pubSeed).1 ++
    (xor x (prf (addrToBytes ((stepAdrs a c i).setKeyAndMask 1)) pubSeed)).1

theorem chainWalk_eq_walk (pubSeed : Block 32) (a : Adrs) (c : UInt32) (n i : ℕ) (x : Block 32) :
    chainWalk pubSeed a c n i x = (hashChain pubSeed a c).walk Crypto.sha256 n i x := by
  induction n generalizing i x with
  | zero => rfl
  | succ n ih => exact ih _ _

/-- A step's image says under which seed and address it was made, and of what. -/
theorem hashChain_reads (pubSeed pubSeed' : Block 32) (a a' : Adrs) (c : UInt32) :
    (hashChain pubSeed a c).Reads Crypto.sha256 (hashChain pubSeed' a' c) := by
  intro i x y h
  obtain ⟨hhead, hlast⟩ := List.append_inj' h (by rw [Block.length_eq, Block.length_eq])
  have hkey : Crypto.sha256 (prfImage (addrToBytes (stepAdrs a c i)) pubSeed) =
      Crypto.sha256 (prfImage (addrToBytes (stepAdrs a' c i)) pubSeed') :=
    Block.ext (List.append_cancel_left hhead)
  rcases Collide.of_eq hkey with hcollide | himage
  · refine .inl (hcollide.mono ?_ ?_) <;> exact List.cons_subset_cons _ (List.nil_subset _)
  obtain ⟨hseed, haddr⟩ := List.append_inj' himage (by rw [Block.length_eq, Block.length_eq])
  obtain rfl : pubSeed = pubSeed' := Block.ext (List.append_cancel_left hseed)
  have hadrs : stepAdrs a c i = stepAdrs a' c i := addrToBytes_injective (Block.ext haddr)
  have hmasked := Block.ext hlast
  rw [hadrs] at hmasked
  exact .inr (xor_right_cancel hmasked)

namespace Transaction

/-- The message's digit for a chain: where its signature stops. -/
def digit (tx : Transaction) (i : ℕ) : ℕ := (chainLengths (messageDigest tx.toTransfer)).getD i 0

/-- The element of a chain that the signature discloses. -/
def disclosed (tx : Transaction) (i : ℕ) : Block 32 := (sigChains tx.wots.signature).getD i (.zero 32)

/-- The key the signature recovers. -/
def recovered (tx : Transaction) : Block pkLen :=
  (wotsPkFromSig tx.wots.signature (messageDigest tx.toTransfer) tx.wots.pubSeed
    (Adrs.fromLeImage tx.wots.adrs)).1

def chain (tx : Transaction) (i : ℕ) : HashChain Bytes (Block 32) :=
  hashChain tx.wots.pubSeed (Adrs.fromLeImage tx.wots.adrs) (.ofNat i)

/-- What the recovery hashes on a chain. -/
def chainHashed (tx : Transaction) (i : ℕ) : List Bytes :=
  (tx.chain i).images Crypto.sha256 (wotsW - 1 - tx.digit i) (tx.digit i) (tx.disclosed i)

/-- What a verification gives to SHA-256: the signed prefix, and what its recovery hashes. -/
def hashed (tx : Transaction) : List Bytes :=
  tx.toTransfer.signedPrefix :: (List.range wotsLen).flatMap tx.chainHashed

theorem chain_reads (tx tx' : Transaction) (i : ℕ) :
    (tx.chain i).Reads Crypto.sha256 (tx'.chain i) :=
  hashChain_reads _ _ _ _ _

theorem chainHashed_subset (tx : Transaction) {i : ℕ} (hi : i < wotsLen) :
    tx.chainHashed i ⊆ tx.hashed := by
  intro image hmem
  exact List.mem_cons_of_mem _ (List.mem_flatMap.mpr ⟨i, List.mem_range.mpr hi, hmem⟩)

end Transaction

theorem getD_walkChains (pubSeed : Block 32) (a : Adrs) (start steps : ℕ → ℕ) (z : Block 32) {j : ℕ} :
    ∀ (i : ℕ) {xs : List (Block 32)}, j < xs.length →
      (walkChains pubSeed a start steps i xs).getD j z =
        chainWalk pubSeed a (.ofNat (i + j)) (steps (i + j)) (start (i + j)) (xs.getD j z) := by
  induction j with
  | zero =>
    intro i xs hj
    rcases xs with _ | ⟨x, xs⟩
    · cases hj
    · rfl
  | succ j ih =>
    intro i xs hj
    rcases xs with _ | ⟨x, xs⟩
    · cases hj
    · simp only [walkChains, List.getD_cons_succ]
      rw [ih (i + 1) (Nat.lt_of_succ_lt_succ hj), Nat.add_right_comm, Nat.add_assoc]

/-- The chains of transactions that recover one key meet. -/
theorem Transaction.walk_eq {tx tx' : Transaction} (h : tx.recovered = tx'.recovered) {i : ℕ}
    (hi : i < wotsLen) :
    (tx.chain i).walk Crypto.sha256 (wotsW - 1 - tx.digit i) (tx.digit i) (tx.disclosed i) =
      (tx'.chain i).walk Crypto.sha256 (wotsW - 1 - tx'.digit i) (tx'.digit i) (tx'.disclosed i) := by
  have hends (tx : Transaction) := (wotsPkFromSig_eq tx.wots.signature (messageDigest tx.toTransfer)
    tx.wots.pubSeed (.refl (Adrs.fromLeImage tx.wots.adrs))).1
  have hjoined := (hends tx).symm.trans ((congrArg Block.bytes h).trans (hends tx'))
  have hchains := flatMap_block_injective (by decide) id hjoined
  have hlen (tx : Transaction) : i < (sigChains tx.wots.signature).length := by
    rw [length_sigChains]
    exact hi
  have hat (tx : Transaction) := getD_walkChains tx.wots.pubSeed (Adrs.fromLeImage tx.wots.adrs)
    (fun i => tx.digit i) (fun i => wotsW - 1 - tx.digit i) (.zero 32) 0 (hlen tx)
  have hpoint := congrArg (fun l => l.getD i (.zero 32)) hchains
  rw [Nat.zero_add] at hat
  simp only [Transaction.chain, ← chainWalk_eq_walk]
  exact (hat tx).symm.trans (hpoint.trans (hat tx'))

/-- What a second spend of an address breaks. -/
inductive Breaks (tx tx' : Transaction) : Prop where
  /-- Two keys of one address hash. -/
  | address (hne : tx.recovered ≠ tx'.recovered)
      (heq : addrHashGenerate tx.recovered.1 = addrHashGenerate tx'.recovered.1)
  /-- Two images of one SHA-256, one hashed by each. -/
  | collision (hcollide : Collide Crypto.sha256 tx.hashed tx'.hashed)
  /-- An image, hashed by the second, of an element the first disclosed further up the chain. -/
  | preimage {i : ℕ} {image : Bytes} (hi : i < wotsLen) (hbelow : tx'.digit i < tx.digit i)
      (hmem : image ∈ tx'.chainHashed i) (heq : Crypto.sha256 image = tx.disclosed i)

theorem verifyWots_hash {tx : Transaction} (h : verifyWots tx = .ok ()) :
    addrHashGenerate tx.recovered.1 = hashOf tx.srcAddr := by
  unfold verifyWots at h
  dsimp only at h
  split at h
  · cases h
  split at h
  · cases h
  · next hhash =>
    rw [← not_not.mp hhash]
    exact (hashOf_append ..).symm

/-- Of two accepted spends of one address, the second is the first's transfer or breaks something. -/
theorem second_spend {tx tx' : Transaction} (h : verifyWots tx = .ok ()) (h' : verifyWots tx' = .ok ())
    (hsrc : hashOf tx'.srcAddr = hashOf tx.srcAddr) : tx'.toTransfer = tx.toTransfer ∨ Breaks tx tx' := by
  by_cases hkey : tx.recovered = tx'.recovered
  swap
  · exact .inr (.address hkey ((verifyWots_hash h).trans (hsrc.symm.trans (verifyWots_hash h').symm)))
  by_cases hprefix : tx'.toTransfer.signedPrefix = tx.toTransfer.signedPrefix
  · exact .inl (signedPrefix_inj hprefix)
  by_cases hdigest : Transaction.messageDigest tx.toTransfer = Transaction.messageDigest tx'.toTransfer
  · exact .inr (.collision ⟨_, List.mem_cons_self, _, List.mem_cons_self, Ne.symm hprefix, hdigest⟩)
  -- On some chain the second message stops below the first, and walks on through what that disclosed.
  obtain ⟨i, hi, hbelow⟩ := exists_chainLengths_lt hdigest
  have hend : tx'.digit i + (wotsW - 1 - tx'.digit i) = tx.digit i + (wotsW - 1 - tx.digit i) := by
    rw [Transaction.digit, Transaction.digit, digits_add, digits_add]
  rcases HashChain.below (tx.chain_reads tx' i) hbelow hend (Transaction.walk_eq hkey hi) with
    hcollide | ⟨image, hmem, heq⟩
  · exact .inr (.collision (hcollide.mono (tx.chainHashed_subset hi) (tx'.chainHashed_subset hi)))
  · exact .inr (.preimage hi hbelow hmem heq)

end

end MochimoWallet
