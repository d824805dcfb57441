import MochimoWallet.Generator
import MochimoWallet.Keystore.Imported

/-!
# Keys that are told apart

Hash functions through which a key's number reaches its address, so that a store under them has an
address of its own at each position (`derivedKeyAt_injective`). The number of a position is its
rotation's; the account of the last number is one whose first key no rotation is.
-/

namespace MochimoWallet

open Codec Keystore

/-- Hashes that copy their input, through which a key's number reaches its address. -/
@[reducible] def Crypto.numbering : Crypto :=
  { Crypto.copying with sha512 := fun b => if b.length = 136 then fit 64 (b.drop 72) else fit 64 b }

section
attribute [local instance] Crypto.numbering

theorem stream_numbering (k : ℕ) (g : DigestRandomGenerator) :
    DigestRandomGenerator.stream k g = (List.replicate k g.seed.1).flatten := by
  have hstate (g : DigestRandomGenerator) :
      g.generateState.seed = g.seed ∧ g.generateState.state = g.seed := by
    have hlen : ((counterBytes g.stateCounter).1 ++ g.state.1 ++ g.seed.1).length = 136 := by
      simp [Block.length_eq, stateLen]
    have hdrop : ((counterBytes g.stateCounter).1 ++ g.state.1 ++ g.seed.1).drop 72 = g.seed.1 :=
      List.drop_left' (by simp [Block.length_eq, stateLen])
    have hfit : fit 64 g.seed.1 = g.seed := by
      have h := fit_append g.seed []
      rwa [List.append_nil] at h
    have hcycle (h : DigestRandomGenerator) : h.cycleSeed.seed = h.seed := by
      have hlen : ¬ (h.seed.1 ++ (counterBytes h.seedCounter).1).length = 136 := by
        simp [Block.length_eq, stateLen]
      simp only [DigestRandomGenerator.cycleSeed, Crypto.sha512, if_neg hlen]
      exact fit_append ..
    unfold DigestRandomGenerator.generateState
    dsimp only
    split
    · exact ⟨hcycle _, by simp only [DigestRandomGenerator.cycleSeed, Crypto.sha512, hlen, if_true, hdrop, hfit]⟩
    · exact ⟨rfl, by simp only [Crypto.sha512, hlen, if_true, hdrop, hfit]⟩
  induction k generalizing g with
  | zero => rfl
  | succ k ih =>
    rw [DigestRandomGenerator.stream, ih, (hstate g).1, (hstate g).2, List.replicate_succ,
      List.flatten_cons]

/-- The public seed of a key starts with its number. -/
theorem pubSeed_numbering (seed : Secret) (id : UInt32) :
    (deriveWotsKey seed id).pubSeed.1.take 4 = (indexBytes id).1 := by
  obtain ⟨-, hpub, -⟩ := DigestRandomGenerator.firstKey_deriveSeed seed.1 id
  have hseed : (DigestRandomGenerator.new.addSeedMaterial
      (Crypto.sha512 (seed.1 ++ (indexBytes id).1)).1).seed = marked seed id := by
    have hshort : ¬ (seed.1 ++ (indexBytes id).1).length = 136 := by simp [Block.length_eq]
    have hlong : ¬ ((fit 64 (seed.1 ++ (indexBytes id).1)).1 ++
        DigestRandomGenerator.new.seed.1).length = 136 := by simp [Block.length_eq, stateLen]
    simp only [DigestRandomGenerator.addSeedMaterial, Crypto.sha512, if_neg hshort]
    rw [if_neg hlong]
    exact fit_append ..
  -- The public seed stands at 2208, in the middle of the thirty-fifth of thirty-six copies.
  have hparts : (List.replicate 36 (marked seed id).1).flatten =
      ((List.replicate 34 (marked seed id).1).flatten ++ (marked seed id).1.take 32) ++
        ((marked seed id).1.drop 32 ++ (marked seed id).1) := by
    rw [show 36 = 34 + 2 from rfl, List.replicate_add, List.flatten_append, List.append_assoc,
      ← List.append_assoc ((marked seed id).1.take 32), List.take_append_drop]
    simp
  have hhead : ((List.replicate 34 (marked seed id).1).flatten ++ (marked seed id).1.take 32).length =
      stateLen + pkLen := by
    have h : ((List.replicate 34 (marked seed id).1).flatten ++ (marked seed id).1.take 32).length =
        2208 := by
      simp [Block.length_eq, stateLen]
    exact h
  rw [stream_numbering, hseed, hparts, List.drop_left' hhead] at hpub
  rw [deriveWotsKey, hpub, List.take_take]
  show (((marked seed id).1.drop 32) ++ (marked seed id).1).take 4 = _
  rw [List.take_append_of_le_length (by simp [Block.length_eq, stateLen])]
  show (((seed.1 ++ (indexBytes id).1 ++ List.replicate 64 0).take 64).drop 32).take 4 = _
  rw [List.drop_take, List.append_assoc, List.drop_left' seed.2, List.take_take]
  exact List.take_left' (indexBytes id).2

/-- So does the public key. -/
theorem pk_numbering (key : WotsKey) : key.pk.1.take 32 = key.pubSeed.1 := by
  have hcopies (pad a b : Block 32) : fit 32 ((pad.1 ++ a.1 ++ b.1).drop 32) = a := by
    rw [List.append_assoc, List.drop_left' pad.2]
    exact fit_append ..
  have hprf (input k : Block 32) : prf input k = k := hcopies ..
  have hchain (n i : ℕ) (out : Block 32) (adrs : Adrs) :
      (genChainFrom key.pubSeed (n + 1) i out adrs).1 = key.pubSeed := by
    induction n generalizing i out adrs with
    | zero => exact (hcopies ..).trans (hprf ..)
    | succ n ih => exact ih ..
  obtain ⟨c, cs, hcs⟩ : ∃ c cs, expandSeed key.secret = c :: cs := ⟨_, _, rfl⟩
  have hsteps : min ((0 + (wotsW - 1)) % 2 ^ 32) wotsW - 0 = 14 + 1 := by decide
  rw [key.pk_eq]
  simp only [wotsPkgen, hcs, overChains, joinChains, List.flatMap_cons, genChain, hsteps, hchain]
  exact List.take_left' key.pubSeed.2

theorem address_numbering (key : WotsKey) (tag : Tag) :
    (key.address tag).1 = tag.1 ++ key.pubSeed.1.take 20 := by
  have hhash : hashOf key.implicitAddress = addrHashGenerate key.pk.1 :=
    Block.slice_append_right ..
  have hlong : 64 ≤ key.pk.1.length := by rw [key.pk.2]; decide
  have hbytes : (addrHashGenerate key.pk.1).1 = key.pubSeed.1.take 20 := by
    show (((key.pk.1 ++ List.replicate 64 0).take 64 ++ List.replicate 20 0).take 20) = _
    rw [List.take_append_of_le_length hlong, List.take_append_of_le_length (by
      rw [List.length_take]
      omega), List.take_take, ← pk_numbering, List.take_take]
    rfl
  show tag.1 ++ (hashOf key.implicitAddress).1 = _
  rw [hhash, hbytes]

/-- The keys of the account of the last number, whose first key no rotation is. -/
theorem derivedKeyAt_injective (master : Secret) (tag : Tag) : Function.Injective fun i =>
    (derivedKeyAt (deriveAccount master 0xffffffff) i).address tag := by
  -- The number of the key at a position.
  let number (i : WotsIndex) : UInt32 := i.rotation.getD 0xffffffff
  have hat (i : WotsIndex) : ∃ seed, derivedKeyAt (deriveAccount master 0xffffffff) i =
      deriveWotsKey seed (number i) := by
    unfold derivedKeyAt
    rcases hr : i.rotation with _ | r <;> simp only [number, hr]
    · exact ⟨master, rfl⟩
    · exact ⟨_, rfl⟩
  intro i j h
  obtain ⟨seed, hi⟩ := hat i
  obtain ⟨seed', hj⟩ := hat j
  have hbytes : ((derivedKeyAt (deriveAccount master 0xffffffff) i).address tag).1 =
      ((derivedKeyAt (deriveAccount master 0xffffffff) j).address tag).1 := congrArg Block.bytes h
  rw [hi, hj, address_numbering, address_numbering, List.append_cancel_left_eq] at hbytes
  have hnumber := congrArg (List.take 4) hbytes
  rw [List.take_take, List.take_take] at hnumber
  have hnumber := (pubSeed_numbering seed (number i)).symm.trans (hnumber.trans (pubSeed_numbering ..))
  have hnumber : number i = number j := u32le_injective (Block.ext (List.reverse_injective hnumber))
  have hrotation {k : WotsIndex} {r : UInt32} (hr : k.rotation = some r) : r ≠ 0xffffffff := by
    rintro rfl
    exact absurd (WotsIndex.rotation_lt hr) (by decide)
  rcases hi : i.rotation with _ | r <;> rcases hj : j.rotation with _ | r' <;>
    simp only [number, hi, hj, Option.getD_none, Option.getD_some] at hnumber
  · rw [WotsIndex.rotation_eq_none.mp hi, WotsIndex.rotation_eq_none.mp hj]
  · exact absurd hnumber.symm (hrotation hj)
  · exact absurd hnumber (hrotation hi)
  · refine WotsIndex.ext_pos ?_
    rw [WotsIndex.rotation_eq_some.mp hi, WotsIndex.rotation_eq_some.mp hj, hnumber]

theorem Crypto.numbering_lawful : Crypto.Lawful :=
  ⟨by rintro _ _ _ _ _ ⟨⟩; rfl, by rintro _ _ _ _ _ ⟨⟩; rfl⟩

/-- The tag of the account of the last number. -/
def lastTag : Tag := (deriveAccount sevens 0xffffffff).tag

end

end MochimoWallet
