import MochimoWallet.WotsRecover

/-!
# Counted walks

The signer and the verifier as the backend runs them: each chain is a loop that counts
its own steps, over an address array that all the chains write into. The plain functions
are these without their counts (`wotsSignCounted_eq`, `wotsPkFromSigCounted_eq`), and on
every chain the two counts make up the whole chain.
-/

namespace MochimoWallet

open Codec

/-- The chains in order, each under its own chain address and with a note of its walk. -/
def overCounted {γ : Type} (f : ℕ → Block 32 → Adrs → (Block 32 × γ) × Adrs) :
    ℕ → List (Block 32) → Adrs → List (Block 32 × γ) × Adrs
  | _, [], adrs => ([], adrs)
  | i, c :: cs, adrs =>
    let (out, adrs) := f i c (adrs.setChainAddr (.ofNat i))
    let (outs, adrs) := overCounted f (i + 1) cs adrs
    (out :: outs, adrs)

theorem length_overCounted {γ : Type} (f : ℕ → Block 32 → Adrs → (Block 32 × γ) × Adrs) (i : ℕ)
    (cs : List (Block 32)) (adrs : Adrs) :
    ((overCounted f i cs adrs).1.map Prod.fst).length = cs.length := by
  induction cs generalizing i adrs with
  | nil => rfl
  | cons c cs ih => simp only [overCounted, List.map_cons, List.length_cons, ih]

/-- Walks that note what the chain's number says of them are the walks, and the notes in order. -/
theorem overCounted_eq {γ : Type} {f : ℕ → Block 32 → Adrs → (Block 32 × γ) × Adrs}
    {g : ℕ → Block 32 → Adrs → Block 32 × Adrs} (note : ℕ → γ)
    (h : ∀ i c adrs, f i c adrs = (((g i c adrs).1, note i), (g i c adrs).2)) (i : ℕ)
    (cs : List (Block 32)) (adrs : Adrs) :
    (overCounted f i cs adrs).1.map Prod.fst = (overChains g i cs adrs).1 ∧
      (overCounted f i cs adrs).1.map Prod.snd = (List.range' i cs.length).map note ∧
      (overCounted f i cs adrs).2 = (overChains g i cs adrs).2 := by
  induction cs generalizing i adrs with
  | nil => exact ⟨rfl, rfl, rfl⟩
  | cons c cs ih =>
    obtain ⟨hfst, hsnd, hadrs⟩ := ih (i + 1) (g i c (adrs.setChainAddr (.ofNat i))).2
    simp only [overCounted, overChains, h, List.map_cons, hfst, hsnd, hadrs, List.length_cons,
      List.range'_succ]
    exact ⟨trivial, trivial, trivial⟩

section
variable [Crypto]

/-- The loop of a chain: it stops at `stop`, and at the chain's end whatever `stop` says. -/
def genChainLoop (pubSeed : Block 32) (stop i : ℕ) (out : Block 32) (count : ℕ) (adrs : Adrs) :
    (Block 32 × ℕ) × Adrs :=
  if i < stop ∧ i < wotsW then
    let (out, adrs) := thashF out pubSeed (adrs.setHashAddr (.ofNat i))
    genChainLoop pubSeed stop (i + 1) out (count + 1) adrs
  else ((out, count), adrs)
termination_by wotsW - i

def genChainCounted (input : Block 32) (start steps : ℕ) (pubSeed : Block 32) (adrs : Adrs) :
    (Block 32 × ℕ) × Adrs :=
  genChainLoop pubSeed ((start + steps) % 2 ^ 32) start input 0 adrs

/-- The loop is as many steps as there are between its start and its stop. -/
theorem genChainLoop_eq (pubSeed : Block 32) (stop i : ℕ) (out : Block 32) (count : ℕ) (adrs : Adrs) :
    genChainLoop pubSeed stop i out count adrs =
      (((genChainFrom pubSeed (min stop wotsW - i) i out adrs).1, count + (min stop wotsW - i)),
        (genChainFrom pubSeed (min stop wotsW - i) i out adrs).2) := by
  fun_induction genChainLoop pubSeed stop i out count adrs with
  | case1 i out count adrs h out' adrs' hstep ih =>
    have hn : min stop wotsW - i = min stop wotsW - (i + 1) + 1 := by omega
    rw [ih, hn, genChainFrom, hstep]
    simp only [Prod.mk.injEq, true_and, and_true]
    omega
  | case2 i out count adrs h =>
    have hn : min stop wotsW - i = 0 := by omega
    rw [hn]
    rfl

theorem genChainCounted_eq (input : Block 32) (start steps : ℕ) (pubSeed : Block 32) (adrs : Adrs) :
    genChainCounted input start steps pubSeed adrs =
      (((genChain input start steps pubSeed adrs).1, min ((start + steps) % 2 ^ 32) wotsW - start),
        (genChain input start steps pubSeed adrs).2) := by
  rw [genChainCounted, genChainLoop_eq, Nat.zero_add]
  rfl

def wotsSignCounted (msg : Digest) (secret pubSeed : Block 32) (adrs : Adrs) :
    (Block sigLen × List ℕ) × Adrs :=
  let lengths := chainLengths msg
  let r := overCounted (fun i chain adrs => genChainCounted chain 0 (lengths.getD i 0) pubSeed adrs) 0
    (expandSeed secret) adrs
  ((⟨joinChains (r.1.map Prod.fst), by
    rw [length_joinChains, length_overCounted, length_expandSeed]⟩, r.1.map Prod.snd), r.2)

/-- Each chain's bounds are where it was taken up and how far it was walked. -/
def wotsPkFromSigCounted (sig : Block sigLen) (msg : Digest) (pubSeed : Block 32) (adrs : Adrs) :
    (Block pkLen × List (ℕ × ℕ)) × Adrs :=
  let lengths := chainLengths msg
  let r := overCounted
    (fun i chain adrs =>
      let start := lengths.getD i 0
      let ((out, n), adrs) := genChainCounted chain start (wotsW - 1 - start) pubSeed adrs
      ((out, (start, n)), adrs)) 0 (sigChains sig) adrs
  ((⟨joinChains (r.1.map Prod.fst), by
    rw [length_joinChains, length_overCounted, length_sigChains]⟩, r.1.map Prod.snd), r.2)

/-- A chain that stays inside its length is walked as far as it is asked to be. -/
theorem genChainCounted_of_le {d n : ℕ} (h : d + n < wotsW) (x pubSeed : Block 32) (adrs : Adrs) :
    genChainCounted x d n pubSeed adrs =
      (((genChain x d n pubSeed adrs).1, n), (genChain x d n pubSeed adrs).2) := by
  have hw : wotsW = 16 := rfl
  rw [hw] at h
  have hcount : min ((d + n) % 2 ^ 32) wotsW - d = n := by
    rw [hw, Nat.mod_eq_of_lt (by omega)]
    omega
  rw [genChainCounted_eq, hcount]

variable (msg : Digest) (secret pubSeed : Block 32) (adrs : Adrs)

theorem wotsSignCounted_eq : wotsSignCounted msg secret pubSeed adrs =
    (((wotsSign msg secret pubSeed adrs).1,
      (List.range' 0 wotsLen).map fun i => (chainLengths msg).getD i 0),
      (wotsSign msg secret pubSeed adrs).2) := by
  obtain ⟨hfst, hsnd, hadrs⟩ := overCounted_eq (fun i => (chainLengths msg).getD i 0)
    (f := fun i chain adrs => genChainCounted chain 0 ((chainLengths msg).getD i 0) pubSeed adrs)
    (g := fun i chain adrs => genChain chain 0 ((chainLengths msg).getD i 0) pubSeed adrs)
    (fun i c adrs => genChainCounted_of_le (by rw [Nat.zero_add]; exact chainLengths_lt msg i) c
      pubSeed adrs) 0 (expandSeed secret) adrs
  rw [length_expandSeed] at hsnd
  simp only [wotsSignCounted, wotsSign, hfst, hsnd, hadrs]

theorem wotsPkFromSigCounted_eq (sig : Block sigLen) : wotsPkFromSigCounted sig msg pubSeed adrs =
    (((wotsPkFromSig sig msg pubSeed adrs).1, (List.range' 0 wotsLen).map fun i =>
      ((chainLengths msg).getD i 0, wotsW - 1 - (chainLengths msg).getD i 0)),
      (wotsPkFromSig sig msg pubSeed adrs).2) := by
  obtain ⟨hfst, hsnd, hadrs⟩ := overCounted_eq
    (fun i => ((chainLengths msg).getD i 0, wotsW - 1 - (chainLengths msg).getD i 0))
    (f := fun i chain adrs =>
      let start := (chainLengths msg).getD i 0
      let ((out, n), adrs) := genChainCounted chain start (wotsW - 1 - start) pubSeed adrs
      ((out, (start, n)), adrs))
    (g := fun i chain adrs => genChain chain ((chainLengths msg).getD i 0)
      (wotsW - 1 - (chainLengths msg).getD i 0) pubSeed adrs)
    (fun i c adrs => by
      have hle : (chainLengths msg).getD i 0 + (wotsW - 1 - (chainLengths msg).getD i 0) < wotsW := by
        rw [digits_add]
        decide
      simp only [genChainCounted_of_le hle]) 0 (sigChains sig) adrs
  rw [length_sigChains] at hsnd
  simp only [wotsPkFromSigCounted, wotsPkFromSig, hfst, hsnd, hadrs]

/-! ## Sign and recover -/

/-- Key generation reads the words that no chain writes. -/
theorem wotsPkgen_alike {adrs a : Adrs} (h : adrs.Alike a) :
    (wotsPkgen secret pubSeed adrs).1 = (wotsPkgen secret pubSeed a).1 := by
  refine Block.ext ?_
  rw [wotsPkgen_fst secret pubSeed h, wotsPkgen_fst secret pubSeed (.refl a)]

/-- So does signing. -/
theorem wotsSign_alike {adrs a : Adrs} (h : adrs.Alike a) :
    (wotsSign msg secret pubSeed adrs).1 = (wotsSign msg secret pubSeed a).1 := by
  refine Block.ext ?_
  rw [wotsSign_fst msg secret pubSeed h, wotsSign_fst msg secret pubSeed (.refl a)]

theorem wotsPkFromSig_alike (sig : Block sigLen) {adrs a : Adrs} (h : adrs.Alike a) :
    (wotsPkFromSig sig msg pubSeed adrs).1 = (wotsPkFromSig sig msg pubSeed a).1 := by
  refine Block.ext ?_
  rw [(wotsPkFromSig_eq sig msg pubSeed h).1, (wotsPkFromSig_eq sig msg pubSeed (.refl a)).1]

/-- Chains that stay inside their length leave the words that are not theirs. -/
theorem overChains_alike (start steps : ℕ → ℕ) (h : ∀ i, start i + steps i < wotsW) (i : ℕ)
    (xs : List (Block 32)) :
    (overChains (fun i x adrs => genChain x (start i) (steps i) pubSeed adrs) i xs adrs).2.Alike
      adrs := by
  simp only [genChain_of_le (h _)]
  rw [overChains_snd]
  exact Adrs.alike_writes adrs (five_le_walkWrites _ _ _ _)

theorem wotsPkgen_snd_alike : (wotsPkgen secret pubSeed adrs).2.Alike adrs := by
  have hle (i : ℕ) : 0 + (wotsW - 1) < wotsW := by decide
  have halike := overChains_alike pubSeed adrs (fun _ => 0) (fun _ => wotsW - 1) hle 0
    (expandSeed secret)
  simpa only [wotsPkgen] using halike

theorem wotsSign_snd_alike : (wotsSign msg secret pubSeed adrs).2.Alike adrs := by
  have hle (i : ℕ) : 0 + (chainLengths msg).getD i 0 < wotsW := by
    rw [Nat.zero_add]
    exact chainLengths_lt msg i
  have halike := overChains_alike pubSeed adrs (fun _ => 0) (fun i => (chainLengths msg).getD i 0)
    hle 0 (expandSeed secret)
  simpa only [wotsSign] using halike

theorem wotsPkFromSig_snd_alike (sig : Block sigLen) :
    (wotsPkFromSig sig msg pubSeed adrs).2.Alike adrs := by
  rw [(wotsPkFromSig_eq sig msg pubSeed (.refl adrs)).2]
  exact Adrs.alike_writes adrs (five_le_walkWrites _ _ _ _)

/-- The counts of signer and verifier on each chain make up the chain. -/
theorem counts_add (sig : Block sigLen) (b : Adrs) {i : ℕ} (hi : i < wotsLen) :
    ∃ n start m, (wotsSignCounted msg secret pubSeed adrs).1.2[i]? = some n ∧
      (wotsPkFromSigCounted sig msg pubSeed b).1.2[i]? = some (start, m) ∧ n + m = 15 := by
  have hrange : (List.range' 0 wotsLen)[i]? = some i := by
    rw [List.getElem?_range' hi, Nat.zero_add, Nat.one_mul]
  rw [wotsSignCounted_eq, wotsPkFromSigCounted_eq]
  simp only [List.getElem?_map, hrange, Option.map_some, Option.some.injEq, Prod.mk.injEq]
  exact ⟨(chainLengths msg).getD i 0, (chainLengths msg).getD i 0,
    wotsW - 1 - (chainLengths msg).getD i 0, rfl, ⟨rfl, rfl⟩, digits_add msg i⟩

/-- A signature made under one address is recovered to its key under any other that agrees on the
words no chain writes, each chain walked to its end between the two, and none of the three writes
those words. -/
theorem sign_recover_inverse {a b c : Adrs} (hb : b.Alike a) (hc : c.Alike a)
    (sig : Block sigLen) :
    (wotsPkFromSigCounted (wotsSignCounted msg secret pubSeed a).1.1 msg pubSeed b).1.1 =
        (wotsPkgen secret pubSeed c).1 ∧
      (∀ i < wotsLen, ∃ n start m, (wotsSignCounted msg secret pubSeed a).1.2[i]? = some n ∧
        (wotsPkFromSigCounted sig msg pubSeed b).1.2[i]? = some (start, m) ∧ n + m = 15) ∧
      (wotsSignCounted msg secret pubSeed a).2.Alike a ∧
      (wotsPkFromSigCounted sig msg pubSeed b).2.Alike b ∧
      (wotsPkgen secret pubSeed c).2.Alike c := by
  have hrecover : (wotsPkFromSig (wotsSign msg secret pubSeed a).1 msg pubSeed b).1 =
      (wotsPkgen secret pubSeed c).1 := by
    rw [wotsPkFromSig_alike msg pubSeed _ hb, wotsPkFromSig_wotsSign,
      wotsPkgen_alike secret pubSeed hc]
  refine ⟨?_, fun i hi => counts_add msg secret pubSeed a sig b hi, ?_, ?_, ?_⟩
  · rw [wotsSignCounted_eq, wotsPkFromSigCounted_eq]
    exact hrecover
  · rw [wotsSignCounted_eq]
    exact wotsSign_snd_alike msg secret pubSeed a
  · rw [wotsPkFromSigCounted_eq]
    exact wotsPkFromSig_snd_alike msg pubSeed b sig
  · exact wotsPkgen_snd_alike secret pubSeed c

end

/-- Addresses that differ in every word a chain writes. -/
def scratched (w : UInt32) : Adrs := ⟨[1, 2, 3, 4, 5, w, w, w], rfl⟩

theorem scratched_alike (w w' : UInt32) : (scratched w).Alike (scratched w') := by
  intro j hj
  match j with
  | 0 | 1 | 2 | 3 | 4 => rfl
  | j + 5 => omega

attribute [local instance] Crypto.plain

theorem sign_recover_inverse_scratched :
    (wotsPkFromSigCounted (wotsSignCounted (.zero 32) (.zero 32) (.zero 32) (scratched 1)).1.1
        (.zero 32) (.zero 32) (scratched 2)).1.1 =
      (wotsPkgen (.zero 32) (.zero 32) (scratched 3)).1 :=
  (sign_recover_inverse (.zero 32) (.zero 32) (.zero 32) (scratched_alike 2 1)
    (scratched_alike 3 1) (.zero sigLen)).1

end MochimoWallet
