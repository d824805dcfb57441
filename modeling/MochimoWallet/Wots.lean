import MochimoWallet.Crypto

/-!
# WOTS+

The signature scheme of the native backend. A key is sixty-seven hash chains:
the public key is their ends, a signature is a point on each, as far along as the
message's digit for that chain, and a verifier walks the rest. The hash address is
a word array the chain functions write into as they go, so each of them returns
the array it leaves beside its result.
-/

namespace MochimoWallet

open Codec

/-! ## Hash addresses -/

/-- The eight words of a hash address. -/
structure Adrs where
  words : List UInt32
  length_eq : words.length = 8
  deriving DecidableEq

namespace Adrs

/-- Word `i` set to `w`. -/
def set (a : Adrs) (i : ℕ) (w : UInt32) : Adrs :=
  ⟨a.words.set i w, by rw [List.length_set, a.length_eq]⟩

def setChainAddr (a : Adrs) (chain : UInt32) : Adrs := a.set 5 chain
def setHashAddr (a : Adrs) (hash : UInt32) : Adrs := a.set 6 hash
def setKeyAndMask (a : Adrs) (keyAndMask : UInt32) : Adrs := a.set 7 keyAndMask

theorem length_flatMap_four {α : Type} (f : α → Block 4) (l : List α) :
    (l.flatMap fun x => (f x).1).length = 4 * l.length := by
  induction l with
  | nil => rfl
  | cons x xs ih => simp only [List.flatMap_cons, List.length_append, ih, (f x).2,
      List.length_cons]; omega

/-- The words as a 32-byte little-endian image, the form a wallet stores. -/
def leImage (a : Adrs) : Block 32 :=
  ⟨a.words.flatMap fun w => (u32le w).1, by rw [length_flatMap_four, a.length_eq]⟩

/-- The words of an image, four bytes each. -/
def wordsOf : ℕ → Bytes → List UInt32
  | 0, _ => []
  | n + 1, image => .ofNat (ofLe (image.take 4)) :: wordsOf n (image.drop 4)

theorem length_wordsOf (n : ℕ) (b : Bytes) : (wordsOf n b).length = n := by
  induction n generalizing b with
  | zero => rfl
  | succ n ih => simp [wordsOf, ih]

theorem wordsOf_append (m n : ℕ) {a : Bytes} (h : a.length = 4 * m) (b : Bytes) :
    wordsOf (m + n) (a ++ b) = wordsOf m a ++ wordsOf n b := by
  induction m generalizing a with
  | zero =>
    have hnil : a = [] := List.eq_nil_of_length_eq_zero (by omega)
    rw [hnil, Nat.zero_add]; rfl
  | succ m ih =>
    rw [Nat.succ_add, wordsOf, wordsOf, List.take_append_of_le_length (by omega),
      List.drop_append_of_le_length (by omega), ih (by rw [List.length_drop]; omega),
      List.cons_append]

def fromLeImage (image : Block 32) : Adrs := ⟨wordsOf 8 image.1, length_wordsOf ..⟩

theorem wordsOf_flatMap (ws : List UInt32) :
    wordsOf ws.length (ws.flatMap fun w => (u32le w).1) = ws := by
  induction ws with
  | nil => rfl
  | cons w ws ih =>
    have h4 : (u32le w).1.length = 4 := (u32le w).2
    have hw : UInt32.ofNat (ofLe (u32le w).1) = w := ofU32le_u32le w
    rw [List.length_cons, List.flatMap_cons, wordsOf, List.take_append_of_le_length h4.ge,
      List.take_of_length_le h4.le, hw, List.drop_append_of_le_length h4.ge,
      List.drop_of_length_le h4.le, List.nil_append, ih]

@[simp] theorem fromLeImage_leImage (a : Adrs) : fromLeImage a.leImage = a := by
  have h := wordsOf_flatMap a.words
  rw [a.length_eq] at h
  cases a
  simpa only [fromLeImage, leImage, mk.injEq] using h

theorem flatMap_wordsOf (n : ℕ) (b : Bytes) (h : b.length = 4 * n) :
    ((wordsOf n b).flatMap fun w => (u32le w).1) = b := by
  induction n generalizing b with
  | zero =>
    have hnil : b = [] := List.eq_nil_of_length_eq_zero (by omega)
    rw [hnil]; rfl
  | succ n ih =>
    have h4 : (b.take 4).length = 4 := by rw [List.length_take]; omega
    have hw : (u32le (.ofNat (ofLe (b.take 4)))).1 = b.take 4 :=
      congrArg Block.bytes (u32le_ofU32le ⟨b.take 4, h4⟩)
    rw [wordsOf, List.flatMap_cons, hw, ih _ (by rw [List.length_drop]; omega),
      List.take_append_drop]

@[simp] theorem leImage_fromLeImage (image : Block 32) : (fromLeImage image).leImage = image :=
  Block.ext (flatMap_wordsOf 8 image.1 image.2)

end Adrs

/-! ## Chains -/

/-- Rewrite the chains in order, each under its own chain address. -/
def overChains (f : ℕ → Block 32 → Adrs → Block 32 × Adrs) :
    ℕ → List (Block 32) → Adrs → List (Block 32) × Adrs
  | _, [], adrs => ([], adrs)
  | i, c :: cs, adrs =>
    let (out, adrs) := f i c (adrs.setChainAddr (.ofNat i))
    let (outs, adrs) := overChains f (i + 1) cs adrs
    (out :: outs, adrs)

theorem length_overChains (f : ℕ → Block 32 → Adrs → Block 32 × Adrs) (i : ℕ)
    (cs : List (Block 32)) (adrs : Adrs) : (overChains f i cs adrs).1.length = cs.length := by
  induction cs generalizing i adrs with
  | nil => rfl
  | cons c cs ih => simp only [overChains, List.length_cons, ih]

/-- The chains end to end. -/
def joinChains (cs : List (Block 32)) : Bytes := cs.flatMap Block.bytes

theorem length_joinChains (cs : List (Block 32)) : (joinChains cs).length = cs.length * 32 := by
  induction cs with
  | nil => rfl
  | cons c cs ih =>
    simp only [joinChains, List.flatMap_cons, List.length_append, c.2, List.length_cons] at ih ⊢
    omega

/-- The chain elements of a signature. -/
def splitChains : ℕ → Bytes → List Bytes
  | 0, _ => []
  | n + 1, b => b.take 32 :: splitChains n (b.drop 32)

theorem length_splitChains (n : ℕ) (b : Bytes) : (splitChains n b).length = n := by
  induction n generalizing b with
  | zero => rfl
  | succ n ih => simp [splitChains, ih]

theorem length_of_mem_splitChains {n : ℕ} {b c : Bytes} (h : b.length = n * 32)
    (hc : c ∈ splitChains n b) : c.length = 32 := by
  induction n generalizing b with
  | zero => cases hc
  | succ n ih =>
    rcases List.mem_cons.mp hc with rfl | hc
    · rw [List.length_take]; omega
    · exact ih (by rw [List.length_drop]; omega) hc

def sigChains (sig : Block sigLen) : List (Block 32) :=
  (splitChains wotsLen sig.1).attach.map fun c =>
    ⟨c.1, length_of_mem_splitChains sig.2 c.2⟩

theorem length_sigChains (sig : Block sigLen) : (sigChains sig).length = wotsLen := by
  simp [sigChains, length_splitChains]

/-! ## The hash functions -/

/-- `value` as `len` big-endian bytes. -/
def ullToBytes (len value : ℕ) : Block len := ⟨(toLe len value).reverse, by simp⟩

/-- The words as the hash functions read them: big-endian. -/
def addrToBytes (adrs : Adrs) : Block 32 :=
  ⟨adrs.words.flatMap fun w => (ullToBytes 4 w.toNat).1, by
    rw [Adrs.length_flatMap_four fun w : UInt32 => ullToBytes 4 w.toNat, adrs.length_eq]⟩

abbrev xmssHashPaddingF : ℕ := 0
abbrev xmssHashPaddingPrf : ℕ := 3

section
variable [Crypto]

def prf (input key : Block 32) : Block 32 :=
  Crypto.sha256 ((ullToBytes 32 xmssHashPaddingPrf).1 ++ key.1 ++ input.1)

def xor (a b : Block 32) : Block 32 :=
  ⟨List.zipWith (· ^^^ ·) a.1 b.1, by simp [a.2, b.2]⟩

def thashF (input pubSeed : Block 32) (adrs : Adrs) : Block 32 × Adrs :=
  let adrs := adrs.setKeyAndMask 0
  let key := prf (addrToBytes adrs) pubSeed
  let adrs := adrs.setKeyAndMask 1
  let bitmask := prf (addrToBytes adrs) pubSeed
  (Crypto.sha256 ((ullToBytes 32 xmssHashPaddingF).1 ++ key.1 ++ (xor input bitmask).1), adrs)

/-- `n` steps of a chain from position `i`. -/
def genChainFrom (pubSeed : Block 32) : ℕ → ℕ → Block 32 → Adrs → Block 32 × Adrs
  | 0, _, out, adrs => (out, adrs)
  | n + 1, i, out, adrs =>
    let (out, adrs) := thashF out pubSeed (adrs.setHashAddr (.ofNat i))
    genChainFrom pubSeed n (i + 1) out adrs

/-- The chain from `start`: it stops after `steps` steps, and at the chain's end whatever
`steps` says. -/
def genChain (input : Block 32) (start steps : ℕ) (pubSeed : Block 32) (adrs : Adrs) :
    Block 32 × Adrs :=
  genChainFrom pubSeed (min ((start + steps) % 2 ^ 32) wotsW - start) start input adrs

/-! ## Digits of a message -/

/-- `outLen` base-16 digits, high nibble first; `total` and `bits` are the byte being read and how
many of its bits are left. -/
def baseWFrom : ℕ → Bytes → UInt8 → ℕ → List ℕ
  | 0, _, _, _ => []
  | n + 1, input, _, 0 =>
    match input with
    | [] => []
    | total :: rest => (total.toNat >>> 4) % wotsW :: baseWFrom n rest total 4
  | n + 1, input, total, bits + 1 =>
    let bits := bits + 1 - wotsLogW
    (total.toNat >>> bits) % wotsW :: baseWFrom n input total bits

def baseW (outLen : ℕ) (input : Bytes) : List ℕ := baseWFrom outLen input 0 0

def wotsChecksum (msgBaseW : List ℕ) : List ℕ :=
  let csum := (msgBaseW.map fun digit => wotsW - 1 - digit).sum
  let csum := csum <<< (8 - (wotsLen2 * wotsLogW) % 8)
  baseW wotsLen2 (ullToBytes 2 csum).1

def chainLengths (msg : Digest) : List ℕ :=
  let msgDigits := baseW wotsLen1 msg.1
  msgDigits ++ wotsChecksum msgDigits

/-! ## Keys and signatures -/

/-- The private ends of the sixty-seven chains. -/
def expandSeed (inseed : Secret) : List (Block 32) :=
  (List.range wotsLen).map fun i => prf (ullToBytes 32 i) inseed

theorem length_expandSeed (inseed : Secret) : (expandSeed inseed).length = wotsLen := by
  simp [expandSeed]

/-- The public key, and the hash address `pkgen` leaves. -/
def wotsPkgen (secret pubSeed : Block 32) (adrs : Adrs) : Block pkLen × Adrs :=
  let r := overChains (fun _ chain adrs => genChain chain 0 (wotsW - 1) pubSeed adrs) 0
    (expandSeed secret) adrs
  (⟨joinChains r.1, by rw [length_joinChains, length_overChains, length_expandSeed]⟩, r.2)

def wotsSign (msg : Digest) (secret pubSeed : Block 32) (adrs : Adrs) : Block sigLen × Adrs :=
  let lengths := chainLengths msg
  let r := overChains (fun i chain adrs => genChain chain 0 (lengths.getD i 0) pubSeed adrs) 0
    (expandSeed secret) adrs
  (⟨joinChains r.1, by rw [length_joinChains, length_overChains, length_expandSeed]⟩, r.2)

def wotsPkFromSig (sig : Block sigLen) (msg : Digest) (pubSeed : Block 32) (adrs : Adrs) :
    Block pkLen × Adrs :=
  let lengths := chainLengths msg
  let r := overChains
    (fun i chain adrs =>
      let start := lengths.getD i 0
      genChain chain start (wotsW - 1 - start) pubSeed adrs) 0 (sigChains sig) adrs
  (⟨joinChains r.1, by rw [length_joinChains, length_overChains, length_sigChains]⟩, r.2)

/-! ## Addresses of public keys -/

def addrHashGenerate (input : Bytes) : Block 20 := Crypto.ripemd160 (Crypto.sha3_512 input).1

/-- The address whose tag and hash are the same. -/
def addrFromImplicit (tag : Tag) : Address := tag.append tag

def addrFromWots (pk : Block pkLen) : Address := addrFromImplicit (addrHashGenerate pk.1)

end

def tagOf (addr : Address) : Tag := addr.slice 0 addrTagLen
def hashOf (addr : Address) : Block 20 := addr.slice addrTagLen 20

@[simp] theorem tagOf_append (tag : Tag) (hash : Block 20) : tagOf (tag.append hash) = tag :=
  Block.slice_append_left tag hash _

@[simp] theorem hashOf_append (tag : Tag) (hash : Block 20) : hashOf (tag.append hash) = hash :=
  Block.slice_append_right tag hash _

end MochimoWallet
