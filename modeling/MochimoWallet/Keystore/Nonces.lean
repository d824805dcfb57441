import MochimoWallet.Keystore.Commits
import MochimoWallet.Keystore.SlotMedium

/-!
# No nonce twice

The nonce of an image is a hash of the handle's nonce seed and the generation the image
writes. Each image in a handle's trace writes one generation more than the state the
handle held, and the handle either goes on to hold it or seals nothing again
(`Trace.generations`), so the generations of one handle only increase, whatever became
of the commits. Handles with different seeds share no nonce at any generation.
-/

namespace MochimoWallet.Keystore

open Codec

section
variable [Crypto]

/-- The nonce in an image's plaintext header. -/
def nonceOf (image : Bytes) : Option (Block nonceLen) :=
  (readHeader image).toOption.map (·.header.nonce)

/-- The image was sealed by this crypto at the generation `g`, under the nonce of `g`. -/
structure SealedAt (crypto : StoreCrypto) (g : UInt64) (image : Bytes) : Prop where
  sealed : ∃ p, p.generation = g ∧ imageOf crypto p = .ok image
  nonce : nonceOf image = some (nonceFor crypto.nonceSeed g)

theorem sealedAt_imageOf (hl : Crypto.Lawful) {crypto : StoreCrypto} {p : Parsed} {image : Bytes}
    (h : imageOf crypto p = .ok image) : SealedAt crypto p.generation image := by
  refine ⟨⟨p, rfl, h⟩, ?_⟩
  obtain ⟨ciphertext, tag, -, hread, -⟩ := readHeader_encode hl h
  rw [nonceOf, hread]
  rfl

theorem nonces_eq {crypto : StoreCrypto} {gens : List UInt64} {images : List Bytes}
    (h : List.Forall₂ (SealedAt crypto) gens images) :
    images.map nonceOf = gens.map fun g => some (nonceFor crypto.nonceSeed g) := by
  induction h with
  | nil => rfl
  | cons hs _ ih => rw [List.map_cons, List.map_cons, hs.nonce, ih]

/-! ## One handle -/

theorem generation_lt_of_next {p p' : Parsed} {op : Op} (h : p.next op = .ok p') :
    p.generation < p'.generation := by
  have hnext := (Parsed.step_of_next h).2
  exact UInt64.lt_iff_toNat_lt.mpr (by omega)

namespace Trace

variable {ks ks' : Keystore} {ops : List Op} {cs : List Commit}

/-- A poisoned handle seals nothing. -/
theorem eq_nil_of_poisoned (h : Trace ks ops cs ks') (hm : ks.memory = none) : cs = [] := by
  induction h with
  | done => rfl
  | nothing _ ih => exact ih hm
  | image hlive => rw [hm] at hlive; cases hlive
  | killed hlive => rw [hm] at hlive; cases hlive

/-- The images of a handle write ever higher generations, all past the one it holds. -/
theorem generations (hl : Crypto.Lawful) (h : Trace ks ops cs ks') :
    ∃ gens, List.Forall₂ (SealedAt ks.crypto) gens (cs.map Commit.image) ∧
      gens.Pairwise (· < ·) ∧ ∀ p, ks.memory = some p → ∀ g ∈ gens, p.generation < g := by
  induction h with
  | done => exact ⟨[], .nil, .nil, fun _ _ _ hg => by cases hg⟩
  | nothing _ ih => exact ih
  | @image ks ks' op ops cs p p' c hm hnext himage halive h ih =>
    obtain ⟨gens, hsealed, hlt, hpast⟩ := ih
    rw [after_crypto] at hsealed
    have hfirst := sealedAt_imageOf hl himage
    have hstep := generation_lt_of_next hnext
    -- Whatever the commit's end, what is sealed later is past what was sealed now.
    have hlater : ∀ g ∈ gens, p'.generation < g := by
      intro g hg
      rcases hreply : c.reply with ⟨⟩ | e | _
      · exact hpast p' (by rw [hreply]; rfl) g hg
      · rw [eq_nil_of_poisoned h (by rw [hreply]; rfl)] at hsealed
        cases hsealed
        cases hg
      · exact absurd hreply halive
    refine ⟨p'.generation :: gens, .cons hfirst hsealed, .cons hlater hlt, fun q hq g hg => ?_⟩
    rw [hm] at hq
    cases hq
    rcases List.mem_cons.mp hg with rfl | hg
    · exact hstep
    · exact UInt64.lt_trans hstep (hlater g hg)
  | @killed ks op ops p p' c hm hnext himage hkilled =>
    refine ⟨[p'.generation], .cons (sealedAt_imageOf hl himage) .nil, List.pairwise_singleton _ _,
      fun q hq g hg => ?_⟩
    rw [hm] at hq
    cases hq
    rw [List.mem_singleton.mp hg]
    exact generation_lt_of_next hnext

end Trace

/-! ## Where handles come from -/

/-- A call to create or to open returned the handle, having sealed `own`. -/
inductive Issued (ks : Keystore) : List Bytes → Prop where
  | create {answers : Answers} {init : Init} {m m' : UnixMedium} {image : Bytes}
      (h : createWith answers init m = (.ok ks, m')) (himage : m'.disk.snapshot = some image) :
      Issued ks [image]
  | open' {answers : Answers} {unlock : Unlock} {m m' : UnixMedium}
      (h : openWith answers unlock m = (.ok ks, m')) : Issued ks []
  | createSlots {answers : Answers} {init : Init} {m m' : SlotMedium} {image framed : Bytes}
      (h : createSlots answers init m = (.ok ks, m')) (hframed : (m'.cells 1).now = some framed)
      (himage : sort (some framed) = .ok (.image image)) : Issued ks [image]
  | openSlots {answers : Answers} {unlock : Unlock} {m m' : SlotMedium}
      (h : openSlots answers unlock m = (.ok ks, m')) : Issued ks []

/-- The call sealed nothing, or the one image of the state it returned. -/
theorem Issued.sealed {ks : Keystore} {own : List Bytes} (h : Issued ks own) :
    ∃ p, ks.memory = some p ∧
      (own = [] ∨ ∃ image, own = [image] ∧ imageOf ks.crypto p = .ok image) := by
  cases h with
  | create h himage =>
    rcases createWith_cases h with ⟨⟨_, hr⟩ | hr, -⟩ | ⟨crypto, image', -, -, himage', hend⟩
    · cases hr
    · cases hr
    rcases hend with ⟨ks', hr, hm, rfl, hdisk⟩ | ⟨⟨_, hr⟩ | hr, -⟩
    · cases hr
      rw [hdisk] at himage
      cases himage
      exact ⟨emptyStore, hm, .inr ⟨_, rfl, himage'⟩⟩
    · cases hr
    · cases hr
  | open' h =>
    rcases (openWith_cases h).2 with ⟨e, hr⟩ | ⟨ks', image, hr, -, hunlock⟩
    · cases hr
    cases hr
    obtain ⟨p, hm, -⟩ := unlockImage_ok hunlock
    exact ⟨p, hm, .inl rfl⟩
  | createSlots h hframed himage =>
    obtain ⟨hm, image', framed', himage', hframe, hnow⟩ := createSlots_ok h
    rw [hframed] at hnow
    cases hnow
    rw [sort_frame hframe] at himage
    split at himage <;> cases himage
    exact ⟨emptyStore, hm, .inr ⟨_, rfl, himage'⟩⟩
  | openSlots h =>
    obtain ⟨-, -, -, taken, -, -, -, -, rfl, -⟩ := openSlots_ok h
    exact ⟨taken.parsed, rfl, .inl rfl⟩

variable {D : Type} [Layout D]

/-- The images a handle's calls sealed, in order, refused and failed ones among them. -/
def sealedBy (ks : Keystore) (m : D) (ops : List Op) : List Bytes :=
  (commitsOf ks m ops).map Commit.image

/-- What a handle's call to create sealed is of the generation its calls begin after. -/
theorem Issued.generations (hl : Crypto.Lawful) {ks : Keystore} {own : List Bytes}
    (h : Issued ks own) (m : D) (ops : List Op) :
    ∃ g gens, ks.generation = .ok g ∧ List.Forall₂ (SealedAt ks.crypto) gens (sealedBy ks m ops) ∧
      (g :: gens).Pairwise (· < ·) ∧ (own = [] ∨ ∃ image, own = [image] ∧ SealedAt ks.crypto g image) := by
  obtain ⟨p, hm, hown⟩ := h.sealed
  obtain ⟨gens, hsealed, hlt, hpast⟩ := (trace_commitsOf ks m ops).generations hl
  refine ⟨p.generation, gens, ?_, hsealed, .cons (hpast p hm) hlt, ?_⟩
  · rw [generation, live_of_memory hm]
    rfl
  · exact hown.imp_right fun ⟨image, heq, himage⟩ => ⟨image, heq, sealedAt_imageOf hl himage⟩

/-- Everything sealed for a handle, by the call that returned it and by its own, in order. -/
theorem Issued.all_generations (hl : Crypto.Lawful) {ks : Keystore} {own : List Bytes}
    (h : Issued ks own) (m : D) (ops : List Op) :
    ∃ gens, List.Forall₂ (SealedAt ks.crypto) gens (own ++ sealedBy ks m ops) ∧
      gens.Pairwise (· < ·) := by
  obtain ⟨g, gens, -, hsealed, hlt, rfl | ⟨image, rfl, himage⟩⟩ := h.generations hl m ops
  · exact ⟨gens, hsealed, hlt.of_cons⟩
  · exact ⟨g :: gens, .cons himage hsealed, hlt⟩

/-- In every run of a handle's calls, refused and failed ones included, the generations it seals at
increase from the one it was returned with, so no two of its images share a nonce; and handles with
different nonce seeds share none. -/
theorem nonces_never_repeat (hl : Crypto.Lawful) {ks ks' : Keystore} {own own' : List Bytes}
    (hks : Issued ks own) (hks' : Issued ks' own')
    (hinj : Set.InjOn (fun x : Block nonceSeedLen × UInt64 => nonceFor x.1 x.2)
      {x | x.1 = ks.crypto.nonceSeed ∨ x.1 = ks'.crypto.nonceSeed})
    {D' : Type} [Layout D'] (m : D) (m' : D') (ops ops' : List Op) :
    (∃ g gens, ks.generation = .ok g ∧
        List.Forall₂ (SealedAt ks.crypto) gens (sealedBy ks m ops) ∧ (g :: gens).Pairwise (· < ·) ∧
        ∀ image ∈ own, SealedAt ks.crypto g image) ∧
      ((own ++ sealedBy ks m ops).map nonceOf).Nodup ∧
      (ks.crypto.nonceSeed ≠ ks'.crypto.nonceSeed →
        ((own ++ sealedBy ks m ops).map nonceOf).Disjoint
          ((own' ++ sealedBy ks' m' ops').map nonceOf)) := by
  obtain ⟨all, hall, hlt⟩ := hks.all_generations hl m ops
  obtain ⟨all', hall', -⟩ := hks'.all_generations hl m' ops'
  refine ⟨?_, ?_, fun hseeds => ?_⟩
  · obtain ⟨g, gens, hg, hsealed, hlt, hown⟩ := hks.generations hl m ops
    refine ⟨g, gens, hg, hsealed, hlt, fun image himage => ?_⟩
    rcases hown with rfl | ⟨image', rfl, hat⟩
    · cases himage
    · rw [List.mem_singleton.mp himage]
      exact hat
  · rw [nonces_eq hall]
    refine List.Nodup.map_on (fun g _ g' _ heq => ?_) (hlt.imp UInt64.ne_of_lt)
    have hsame : (ks.crypto.nonceSeed, g) = (ks.crypto.nonceSeed, g') :=
      hinj (.inl rfl) (.inl rfl) (Option.some.inj heq)
    exact congrArg Prod.snd hsame
  · rw [nonces_eq hall, nonces_eq hall']
    intro nonce hmem hmem'
    obtain ⟨g, -, rfl⟩ := List.mem_map.mp hmem
    obtain ⟨g', -, heq⟩ := List.mem_map.mp hmem'
    have hsame : (ks'.crypto.nonceSeed, g') = (ks.crypto.nonceSeed, g) :=
      hinj (.inr rfl) (.inl rfl) (Option.some.inj heq)
    exact hseeds (congrArg Prod.fst hsame).symm

end

/-! ## A copied store -/

section
attribute [local instance] Crypto.seeded

/-- An empty directory. -/
def vacantDisk : Disk := ⟨none, none, none⟩

/-- A store made with this seed where there is none. -/
def making (nonceSeed : Block nonceSeedLen) : Reply Error Keystore × UnixMedium :=
  createWith .good ⟨[], .zero saltLen, nonceSeed, ⟨8, 1, 1⟩⟩ ⟨vacantDisk, [], []⟩

/-- The seed of the handle a call returned. -/
def handleSeed : Reply Error Keystore → Option (Block nonceSeedLen)
  | .ok ks => some ks.crypto.nonceSeed
  | _ => none

theorem issued_making {nonceSeed : Block nonceSeedLen}
    (hseed : handleSeed (making nonceSeed).1 = some nonceSeed)
    (hsnapshot : (making nonceSeed).2.disk.snapshot.isSome) :
    ∃ ks image, ks.crypto.nonceSeed = nonceSeed ∧ Issued ks [image] := by
  rcases hmade : making nonceSeed with ⟨ks | _ | _, m⟩ <;> rw [hmade] at hseed hsnapshot
  · obtain ⟨image, himage⟩ := Option.isSome_iff_exists.mp hsnapshot
    exact ⟨ks, image, Option.some.inj hseed, .create hmade himage⟩
  · cases hseed
  · cases hseed

/-- The hash's first bytes are the seed's word and the generation. -/
theorem nonceFor_seeded (seed : Block nonceSeedLen) (g : UInt64) :
    (nonceFor seed g).1 = seed.1.take 4 ++ (u64le g).1 := by
  have hseed : seed.1.length = 32 := seed.2
  have hword : (seed.1.take 4).length = 4 := by rw [List.length_take, hseed]; rfl
  have hlen : (seed.1.take 4 ++ (u64le g).1).length = 12 := by
    rw [List.length_append, hword, (u64le g).2]
  have hhashed : (seed.1 ++ (u64le g).1).take 4 ++ (seed.1 ++ (u64le g).1).drop 32 =
      seed.1.take 4 ++ (u64le g).1 := by
    rw [List.take_append_of_le_length (by omega), List.drop_left' hseed]
  show ((((seed.1 ++ (u64le g).1).take 4 ++ (seed.1 ++ (u64le g).1).drop 32 ++
    List.replicate 32 0).take 32).drop 0).take 12 = _
  rw [hhashed, List.drop_zero, List.take_take, show min 12 32 = 12 from rfl,
    List.take_left' hlen]

theorem nonceFor_seeded_injOn :
    Set.InjOn (fun x : Block nonceSeedLen × UInt64 => nonceFor x.1 x.2)
      {x | x.1 = .zero nonceSeedLen ∨ x.1 = fit nonceSeedLen [1]} := by
  rintro ⟨seed, g⟩ hseed ⟨seed', g'⟩ hseed' heq
  have hbytes := congrArg Block.bytes heq
  rw [nonceFor_seeded, nonceFor_seeded] at hbytes
  obtain ⟨hword, hg⟩ := List.append_inj' hbytes (by rw [(u64le g).2, (u64le g').2])
  have hg : g = g' := u64le_injective (Block.ext hg)
  subst hg
  have hne : (Block.zero nonceSeedLen).1.take 4 ≠ (fit nonceSeedLen [1]).1.take 4 := by decide
  rcases hseed with rfl | rfl <;> rcases hseed' with rfl | rfl
  · rfl
  · exact absurd hword hne
  · exact absurd hword.symm hne
  · rfl

/-- The first commit on it fails after its rename took effect. -/
def failing : UnixMedium := ⟨vacantDisk, [.done, .done, .failed true none .missing], []⟩

/-- A failed commit and a refused write after it, and a handle of another seed. -/
theorem nonces_never_repeat_making : ∃ (ks ks' : Keystore) (image image' : Bytes),
    (([image] ++ sealedBy ks failing
      [.adoptMaster (.zero seedLen), .adoptMaster (.zero seedLen)]).map nonceOf).Disjoint
    (([image'] ++ sealedBy ks' failing [.adoptMaster (.zero seedLen)]).map nonceOf) := by
  obtain ⟨ks, image, hseed, hks⟩ := @issued_making (.zero nonceSeedLen) (by decide +kernel)
    (by decide +kernel)
  obtain ⟨ks', image', hseed', hks'⟩ := @issued_making (fit nonceSeedLen [1])
    (by decide +kernel) (by decide +kernel)
  refine ⟨ks, ks', image, image', (nonces_never_repeat Crypto.seeded_lawful hks hks' ?_ failing
    failing _ _).2.2 ?_⟩
  · rw [hseed, hseed']
    exact nonceFor_seeded_injOn
  · rw [hseed, hseed']
    decide

end

end MochimoWallet.Keystore
