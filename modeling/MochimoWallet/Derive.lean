import MochimoWallet.Wots

/-!
# Key derivation

Every key of a wallet comes out of one generator: seed it with a 32-byte value and
a number, draw 32 bytes for the secret and 2208 more for the public seed and the
hash address. A derived account's seed is such a draw from the master, its first
key continues the same generator, and each later key is a draw from the account's
own seed. A rotation key is therefore a function of a 32-byte seed and a number and
of nothing else, which is what makes `streamId`, the tag of rotation 0, the name of
the whole sequence of keys.
-/

namespace MochimoWallet

open Codec

/-- An account number, as the generator reads it. -/
def indexBytes (id : UInt32) : Block 4 := u32be id

/-- The low half of a counter, and four zero bytes. -/
def counterBytes (counter : UInt64) : Block 8 :=
  ⟨toLe 4 counter.toNat ++ [0, 0, 0, 0], by simp⟩

abbrev stateLen : ℕ := 64
/-- The tag an older address ends in. -/
abbrev legacyTagLen : ℕ := 12

structure DigestRandomGenerator where
  seed : Block stateLen
  state : Block stateLen
  stateCounter : UInt64
  seedCounter : UInt64

variable [Crypto]

namespace DigestRandomGenerator

abbrev cycleCount : ℕ := 10

def new : DigestRandomGenerator := ⟨.zero 64, .zero 64, 1, 1⟩

def cycleSeed (g : DigestRandomGenerator) : DigestRandomGenerator :=
  { g with
    seed := Crypto.sha512 (g.seed.1 ++ (counterBytes g.seedCounter).1)
    seedCounter := g.seedCounter + 1 }

def generateState (g : DigestRandomGenerator) : DigestRandomGenerator :=
  let ctr := counterBytes g.stateCounter
  let g := { g with
    stateCounter := g.stateCounter + 1
    state := Crypto.sha512 (ctr.1 ++ g.state.1 ++ g.seed.1) }
  if g.stateCounter.toNat % cycleCount = 0 then g.cycleSeed else g

def addSeedMaterial (g : DigestRandomGenerator) (material : Bytes) : DigestRandomGenerator :=
  { g with seed := Crypto.sha512 (material ++ g.seed.1) }

/-- The next `n` bytes in `chunks` chunks, a fresh state for each. -/
def fillChunks : ℕ → ℕ → DigestRandomGenerator → Bytes × DigestRandomGenerator
  | 0, _, g => ([], g)
  | chunks + 1, n, g =>
    let g := g.generateState
    let (rest, g') := fillChunks chunks (n - stateLen) g
    (g.state.1.take n ++ rest, g')

theorem length_fillChunks {chunks n : ℕ} (h : n ≤ chunks * stateLen)
    (g : DigestRandomGenerator) : (fillChunks chunks n g).1.length = n := by
  induction chunks generalizing n g with
  | zero => simp only [fillChunks, List.length_nil]; omega
  | succ chunks ih =>
    simp only [stateLen] at h ih ⊢
    simp only [fillChunks, stateLen, List.length_append, List.length_take, Block.length_eq]
    rw [ih (by omega)]
    omega

def fill (g : DigestRandomGenerator) (n : ℕ) : Block n × DigestRandomGenerator :=
  let r := fillChunks ((n + stateLen - 1) / stateLen) n g
  (⟨r.1, length_fillChunks (by simp only [stateLen]; omega) g⟩, r.2)

end DigestRandomGenerator

/-- A drawn secret, and the generator to go on drawing from. -/
structure DerivedSeed where
  secret : Secret
  prng : DigestRandomGenerator

def deriveSeed (seed : Bytes) (id : UInt32) : DerivedSeed :=
  let local' := Crypto.sha512 (seed ++ (indexBytes id).1)
  let prng := DigestRandomGenerator.new.addSeedMaterial local'.1
  let (secret, prng) := prng.fill seedLen
  ⟨secret, prng⟩

/-- A key pair: the public key is the one its other three members produce. -/
structure WotsKey where
  secret : Secret
  pubSeed : Block seedLen
  adrs : Adrs
  pk : Block pkLen
  pk_eq : pk = (wotsPkgen secret pubSeed adrs).1

namespace WotsKey

theorem ext_parts {k k' : WotsKey} (hs : k.secret = k'.secret) (hp : k.pubSeed = k'.pubSeed)
    (ha : k.adrs = k'.adrs) : k = k' := by
  obtain ⟨s, p, a, pk, hk⟩ := k
  obtain ⟨s', p', a', pk', hk'⟩ := k'
  cases hs; cases hp; cases ha; cases hk; cases hk'
  rfl

def implicitAddress (key : WotsKey) : Address := addrFromWots key.pk

def tag (key : WotsKey) : Tag := tagOf key.implicitAddress

/-- The address of this key under an account's tag. -/
def address (key : WotsKey) (tag : Tag) : Address := tag.append (hashOf key.implicitAddress)

/-- The address an older wallet writes: public key, public seed and hash address, with twelve bytes
of a tag laid over the end. -/
def legacyAddress (key : WotsKey) (tag12 : Block legacyTagLen) : Block wotsAddrLen :=
  let out := (key.pk.append key.pubSeed).append key.adrs.leImage
  (out.slice 0 (wotsAddrLen - legacyTagLen)).append tag12

@[simp] theorem tagOf_address (key : WotsKey) (tag : Tag) : tagOf (key.address tag) = tag :=
  tagOf_append ..

end WotsKey

def firstKeyFromComponents (secret : Secret) (pubSeed : Block seedLen) (adrs : Adrs) : WotsKey :=
  ⟨secret, pubSeed, adrs, (wotsPkgen secret pubSeed adrs).1, rfl⟩

/-- The key whose public parts are the tail of the next 2208 bytes the generator gives. -/
def firstKey (derived : DerivedSeed) : WotsKey :=
  let buf := (derived.prng.fill wotsAddrLen).1
  let pubSeed := buf.slice pkLen seedLen
  let adrs := Adrs.fromLeImage (buf.slice (pkLen + seedLen) 32)
  firstKeyFromComponents derived.secret pubSeed adrs

/-- The key of one rotation of the stream a seed names. -/
def deriveWotsKey (accountSeed : Secret) (rotation : UInt32) : WotsKey :=
  firstKey (deriveSeed accountSeed.1 rotation)

def streamId (seed : Secret) : StreamId := ⟨(deriveWotsKey seed 0).tag⟩

structure DerivedAccount where
  tag : Tag
  seed : Secret
  first : WotsKey

def deriveAccount (master : Secret) (accountIndex : UInt32) : DerivedAccount :=
  let derived := deriveSeed master.1 accountIndex
  let first := firstKey derived
  ⟨first.tag, derived.secret, first⟩

end MochimoWallet
