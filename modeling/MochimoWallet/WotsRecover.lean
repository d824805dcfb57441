import MochimoWallet.Wots

/-!
# What a key signs recovers it

The chain functions write words 5 to 7 of the hash address before they read them, so
what a chain computes depends on the other five words alone (`overChains_fst`), and
the writes themselves do not depend on the address (`overChains_snd`). A signature's
chains are therefore the beginnings of the public key's (`wotsPkFromSig_wotsSign`),
and a recovery that starts from the address another one left gives the same key and
leaves the same address (`wotsPkFromSig_again`).
-/

namespace MochimoWallet

open Codec

/-! ## Writing words over and over -/

namespace Adrs

/-- The address with each word of the list written in turn. -/
def writes (a : Adrs) : List (ℕ × UInt32) → Adrs
  | [] => a
  | (i, w) :: ws => (a.set i w).writes ws

theorem writes_append (a : Adrs) (ws ws' : List (ℕ × UInt32)) :
    a.writes (ws ++ ws') = (a.writes ws).writes ws' := by
  induction ws generalizing a with
  | nil => rfl
  | cons w ws ih => exact ih _

theorem writes_of_notMem {ws : List (ℕ × UInt32)} {j : ℕ} (h : j ∉ ws.map Prod.fst) (a : Adrs) :
    (a.writes ws).words[j]? = a.words[j]? := by
  induction ws generalizing a with
  | nil => rfl
  | cons w ws ih =>
    rw [List.map_cons, List.mem_cons, not_or] at h
    rw [writes, ih h.2, set, List.getElem?_set_ne (Ne.symm h.1)]

/-- A word that is written is what it was written to. -/
theorem writes_of_mem {ws : List (ℕ × UInt32)} {j : ℕ} (h : j ∈ ws.map Prod.fst) (a b : Adrs) :
    (a.writes ws).words[j]? = (b.writes ws).words[j]? := by
  induction ws generalizing a b with
  | nil => cases h
  | cons w ws ih =>
    by_cases hmem : j ∈ ws.map Prod.fst
    · exact ih hmem _ _
    · rw [List.map_cons, List.mem_cons] at h
      have hj : j = w.1 := h.resolve_right hmem
      rw [writes, writes, writes_of_notMem hmem, writes_of_notMem hmem, set, set, hj,
        List.getElem?_set, List.getElem?_set, a.length_eq, b.length_eq, if_pos rfl, if_pos rfl]

theorem ext_words {a b : Adrs} (h : ∀ j : ℕ, a.words[j]? = b.words[j]?) : a = b := by
  obtain ⟨ws, hws⟩ := a
  obtain ⟨ws', hws'⟩ := b
  have : ws = ws' := List.ext_getElem? h
  subst this
  rfl

/-- Writing the same words again changes nothing. -/
theorem writes_writes (a : Adrs) (ws : List (ℕ × UInt32)) : (a.writes ws).writes ws = a.writes ws := by
  refine ext_words fun j => ?_
  by_cases h : j ∈ ws.map Prod.fst
  · exact writes_of_mem h _ _
  · exact writes_of_notMem h _

/-- The words that no chain writes: addresses that agree on them are one to a chain. -/
def Alike (a b : Adrs) : Prop := ∀ j : ℕ, j < 5 → a.words[j]? = b.words[j]?

theorem Alike.refl (a : Adrs) : a.Alike a := fun _ _ => rfl

theorem alike_writes (a : Adrs) {ws : List (ℕ × UInt32)} (h : ∀ w ∈ ws, 5 ≤ w.1) :
    (a.writes ws).Alike a := by
  intro j hj
  refine writes_of_notMem (fun hmem => ?_) a
  obtain ⟨w, hw, rfl⟩ := List.mem_map.mp hmem
  have := h w hw
  omega

/-- Once words 5 to 7 are written, addresses that were alike are equal. -/
theorem writes_congr {a b : Adrs} (h : a.Alike b) {ws : List (ℕ × UInt32)}
    (hws : ∀ j, 5 ≤ j → j < 8 → j ∈ ws.map Prod.fst) : a.writes ws = b.writes ws := by
  refine ext_words fun j => ?_
  by_cases hmem : j ∈ ws.map Prod.fst
  · exact writes_of_mem hmem a b
  · rw [writes_of_notMem hmem, writes_of_notMem hmem]
    by_cases hj : j < 5
    · exact h j hj
    · have : 8 ≤ j := by
        by_contra hlt
        exact hmem (hws j (by omega) (by omega))
      rw [List.getElem?_eq_none (by rw [a.length_eq]; exact this),
        List.getElem?_eq_none (by rw [b.length_eq]; exact this)]

end Adrs

/-! ## One chain -/

/-- The words `n` steps of a chain from position `i` write. -/
def chainWrites : ℕ → ℕ → List (ℕ × UInt32)
  | 0, _ => []
  | n + 1, i => [(6, .ofNat i), (7, 0), (7, 1)] ++ chainWrites n (i + 1)

theorem six_le_chainWrites (n i : ℕ) : ∀ w ∈ chainWrites n i, 6 ≤ w.1 := by
  induction n generalizing i with
  | zero => exact fun w hw => by cases hw
  | succ n ih =>
    intro w hw
    rcases List.mem_append.mp hw with hw | hw
    · simp only [List.mem_cons, List.not_mem_nil, or_false] at hw
      rcases hw with rfl | rfl | rfl <;> exact Nat.le_of_ble_eq_true rfl
    · exact ih _ w hw

theorem five_le_chainWrites (n i : ℕ) : ∀ w ∈ chainWrites n i, 5 ≤ w.1 :=
  fun w hw => (Nat.le_succ 5).trans (six_le_chainWrites n i w hw)

/-- A chain writes its own number only when it is taken up. -/
theorem notMem_chainWrites {j : ℕ} (hj : j < 6) (n i : ℕ) : j ∉ (chainWrites n i).map Prod.fst := by
  intro hmem
  obtain ⟨w, hw, rfl⟩ := List.mem_map.mp hmem
  have hle : 6 ≤ w.1 := six_le_chainWrites n i w hw
  omega

/-- The words that walking `n` chains from chain `i` on writes. -/
def walkWrites (start steps : ℕ → ℕ) : ℕ → ℕ → List (ℕ × UInt32)
  | _, 0 => []
  | i, n + 1 => [(5, .ofNat i)] ++ chainWrites (steps i) (start i) ++ walkWrites start steps (i + 1) n

theorem five_le_walkWrites (start steps : ℕ → ℕ) (i n : ℕ) :
    ∀ w ∈ walkWrites start steps i n, 5 ≤ w.1 := by
  induction n generalizing i with
  | zero => exact fun w hw => by cases hw
  | succ n ih =>
    intro w hw
    rcases List.mem_append.mp hw with hw | hw
    · rcases List.mem_append.mp hw with hw | hw
      · rw [List.mem_singleton.mp hw]
      · exact five_le_chainWrites _ _ w hw
    · exact ih _ w hw

/-- The address is one to chain `c` of the addresses that are alike `a`. -/
def OnChain (a : Adrs) (c : UInt32) (d : Adrs) : Prop := d.Alike a ∧ d.words[5]? = some c

theorem OnChain.start {a b : Adrs} (h : b.Alike a) (c : UInt32) : OnChain a c (b.setChainAddr c) := by
  refine ⟨fun j hj => ?_, ?_⟩
  · rw [← h j hj, Adrs.setChainAddr, Adrs.set, List.getElem?_set_ne (by omega)]
  · rw [Adrs.setChainAddr, Adrs.set, List.getElem?_set_self (by rw [b.length_eq]; decide)]

theorem OnChain.writes {a d : Adrs} {c : UInt32} (h : OnChain a c d) {ws : List (ℕ × UInt32)}
    (hws : ∀ w ∈ ws, 6 ≤ w.1) : OnChain a c (d.writes ws) := by
  have hkeep (j : ℕ) (hj : j < 6) : (d.writes ws).words[j]? = d.words[j]? := by
    refine Adrs.writes_of_notMem (fun hmem => ?_) d
    obtain ⟨w, hw, rfl⟩ := List.mem_map.mp hmem
    have := hws w hw
    omega
  exact ⟨fun j hj => (hkeep j (by omega)).trans (h.1 j hj), (hkeep 5 (by omega)).trans h.2⟩

/-- What a step reads, on any address of the chain. -/
theorem OnChain.read {a d : Adrs} {c : UInt32} (h : OnChain a c d) (w w' : UInt32) :
    d.writes [(6, w), (7, w')] = a.writes [(5, c), (6, w), (7, w')] := by
  have hd : d.writes [(5, c)] = d := by
    refine Adrs.ext_words fun j => ?_
    by_cases hj : j = 5
    · subst hj
      rw [h.2, Adrs.writes, Adrs.writes, Adrs.set,
        List.getElem?_set_self (by rw [d.length_eq]; decide)]
    · exact Adrs.writes_of_notMem (by simpa using hj) d
  have hboth : d.writes ([(5, c)] ++ [(6, w), (7, w')]) = a.writes [(5, c), (6, w), (7, w')] := by
    refine Adrs.writes_congr h.1 fun j hj hj' => ?_
    simp only [List.cons_append, List.nil_append, List.map_cons, List.map_nil, List.mem_cons,
      List.not_mem_nil, or_false]
    omega
  rwa [Adrs.writes_append, hd] at hboth

section
variable [Crypto]

theorem genChainFrom_snd (pubSeed : Block 32) (n i : ℕ) (x : Block 32) (a : Adrs) :
    (genChainFrom pubSeed n i x a).2 = a.writes (chainWrites n i) := by
  induction n generalizing i x a with
  | zero => rfl
  | succ n ih =>
    rw [chainWrites, Adrs.writes_append]
    exact ih _ _ _

/-- A step on chain `c` of the addresses that are alike `a`. -/
def chainStep (pubSeed : Block 32) (a : Adrs) (c : UInt32) (i : ℕ) (x : Block 32) : Block 32 :=
  (thashF x pubSeed (a.writes [(5, c), (6, .ofNat i)])).1

/-- `n` steps from position `i`. -/
def chainWalk (pubSeed : Block 32) (a : Adrs) (c : UInt32) : ℕ → ℕ → Block 32 → Block 32
  | 0, _, x => x
  | n + 1, i, x => chainWalk pubSeed a c n (i + 1) (chainStep pubSeed a c i x)

theorem chainWalk_add (pubSeed : Block 32) (a : Adrs) (c : UInt32) (m n i : ℕ) (x : Block 32) :
    chainWalk pubSeed a c (m + n) i x =
      chainWalk pubSeed a c n (i + m) (chainWalk pubSeed a c m i x) := by
  induction m generalizing i x with
  | zero => rw [Nat.zero_add, Nat.add_zero, chainWalk]
  | succ m ih =>
    rw [Nat.add_right_comm, chainWalk, ih, chainWalk]
    congr 1
    omega

theorem thashF_congr {x pubSeed : Block 32} {a b : Adrs}
    (h : a.setKeyAndMask 0 = b.setKeyAndMask 0) : (thashF x pubSeed a).1 = (thashF x pubSeed b).1 := by
  unfold thashF
  rw [h]

theorem genChainFrom_fst (pubSeed : Block 32) {a d : Adrs} {c : UInt32} (h : OnChain a c d) (n i : ℕ)
    (x : Block 32) : (genChainFrom pubSeed n i x d).1 = chainWalk pubSeed a c n i x := by
  induction n generalizing i x d with
  | zero => rfl
  | succ n ih =>
    have hread : (thashF x pubSeed (d.setHashAddr (.ofNat i))).1 = chainStep pubSeed a c i x :=
      thashF_congr (h.read (.ofNat i) 0)
    have hnext : OnChain a c (d.writes [(6, .ofNat i), (7, 0), (7, 1)]) := h.writes (by simp)
    rw [chainWalk, ← hread]
    exact ih hnext _ _

/-! ## All of them -/

/-- The chains, each walked its own number of steps from its own start. -/
def walkChains (pubSeed : Block 32) (a : Adrs) (start steps : ℕ → ℕ) :
    ℕ → List (Block 32) → List (Block 32)
  | _, [] => []
  | i, x :: xs =>
    chainWalk pubSeed a (.ofNat i) (steps i) (start i) x :: walkChains pubSeed a start steps (i + 1) xs

theorem length_walkChains (pubSeed : Block 32) (a : Adrs) (start steps : ℕ → ℕ) (i : ℕ)
    (xs : List (Block 32)) : (walkChains pubSeed a start steps i xs).length = xs.length := by
  induction xs generalizing i with
  | nil => rfl
  | cons x xs ih => rw [walkChains, List.length_cons, List.length_cons, ih]

/-- Rewriting chains that each start and stop at their own positions. -/
theorem overChains_fst {pubSeed : Block 32} (start steps : ℕ → ℕ) {a d : Adrs} (h : d.Alike a)
    (i : ℕ) (xs : List (Block 32)) :
    (overChains (fun i x adrs => genChainFrom pubSeed (steps i) (start i) x adrs) i xs d).1 =
      walkChains pubSeed a start steps i xs := by
  induction xs generalizing i d with
  | nil => rfl
  | cons x xs ih =>
    simp only [overChains, walkChains]
    have hon := OnChain.start h (.ofNat i)
    rw [genChainFrom_fst pubSeed hon, genChainFrom_snd]
    refine congrArg _ (ih (fun j hj => ?_) _)
    rw [Adrs.alike_writes _ (five_le_chainWrites _ _) j hj]
    exact hon.1 j hj

theorem overChains_snd {pubSeed : Block 32} (start steps : ℕ → ℕ) (d : Adrs) (i : ℕ)
    (xs : List (Block 32)) :
    (overChains (fun i x adrs => genChainFrom pubSeed (steps i) (start i) x adrs) i xs d).2 =
      d.writes (walkWrites start steps i xs.length) := by
  induction xs generalizing i d with
  | nil => rfl
  | cons x xs ih =>
    simp only [overChains, List.length_cons, walkWrites]
    rw [ih, genChainFrom_snd, Adrs.writes_append, Adrs.writes_append]
    rfl

/-- Walking chains on from where they stopped. -/
theorem walkChains_walkChains {pubSeed : Block 32} {a : Adrs} {stop rest : ℕ → ℕ} {all : ℕ}
    (h : ∀ i, stop i + rest i = all) (i : ℕ) (xs : List (Block 32)) :
    walkChains pubSeed a stop rest i (walkChains pubSeed a (fun _ => 0) stop i xs) =
      walkChains pubSeed a (fun _ => 0) (fun _ => all) i xs := by
  induction xs generalizing i with
  | nil => rfl
  | cons x xs ih =>
    simp only [walkChains]
    rw [ih, ← h i, chainWalk_add, Nat.zero_add]

end

/-! ## Digits and images -/

theorem lt_of_mem_baseWFrom {n bits : ℕ} {input : Bytes} {total : UInt8} :
    ∀ d ∈ baseWFrom n input total bits, d < wotsW := by
  induction n generalizing input total bits with
  | zero => exact fun d hd => by cases hd
  | succ n ih =>
    intro d hd
    cases bits with
    | zero =>
      cases input with
      | nil => cases hd
      | cons b bs =>
        rcases List.mem_cons.mp hd with rfl | hd
        · exact Nat.mod_lt _ (by decide)
        · exact ih d hd
    | succ bits =>
      rcases List.mem_cons.mp hd with rfl | hd
      · exact Nat.mod_lt _ (by decide)
      · exact ih d hd

theorem chainLengths_lt (msg : Digest) (i : ℕ) : (chainLengths msg).getD i 0 < wotsW := by
  rw [List.getD_eq_getElem?_getD]
  rcases h : (chainLengths msg)[i]? with _ | d
  · exact (by decide : 0 < wotsW)
  · rcases List.mem_append.mp (List.mem_of_getElem? h) with hd | hd
    · exact lt_of_mem_baseWFrom d hd
    · exact lt_of_mem_baseWFrom d hd

/-- The digits of a message, and how far each chain has yet to go. -/
theorem digits_add (msg : Digest) (i : ℕ) :
    (chainLengths msg).getD i 0 + (wotsW - 1 - (chainLengths msg).getD i 0) = wotsW - 1 := by
  have := chainLengths_lt msg i
  omega

theorem splitChains_joinChains (cs : List (Block 32)) :
    splitChains cs.length (joinChains cs) = cs.map Block.bytes := by
  induction cs with
  | nil => rfl
  | cons c cs ih =>
    have hc : c.1.length = 32 := c.2
    rw [List.length_cons, splitChains, joinChains, List.flatMap_cons, List.take_left' hc,
      List.drop_left' hc, List.map_cons]
    exact congrArg _ ih

theorem sigChains_joinChains {cs : List (Block 32)} (hlen : cs.length = wotsLen)
    {h : (joinChains cs).length = sigLen} : sigChains ⟨joinChains cs, h⟩ = cs := by
  have hinj : Function.Injective (Block.bytes : Block 32 → Bytes) := fun a b hab => Block.ext hab
  refine List.map_injective_iff.mpr hinj ?_
  rw [sigChains, List.map_map]
  show (splitChains wotsLen (joinChains cs)).attach.map (fun c => c.1) = _
  rw [List.attach_map_subtype_val, ← hlen, splitChains_joinChains]

/-! ## Signatures -/

section
variable [Crypto]

theorem genChain_of_le {d n : ℕ} (h : d + n < wotsW) (x pubSeed : Block 32) (adrs : Adrs) :
    genChain x d n pubSeed adrs = genChainFrom pubSeed n d x adrs := by
  have hw : wotsW = 16 := rfl
  have hsteps : min ((d + n) % 2 ^ 32) wotsW - d = n := by
    rw [hw] at h ⊢
    rw [Nat.mod_eq_of_lt (by omega)]
    omega
  rw [genChain, hsteps]

theorem wotsPkgen_fst (secret pubSeed : Block 32) {adrs a : Adrs} (h : adrs.Alike a) :
    (wotsPkgen secret pubSeed adrs).1.1 = joinChains
      (walkChains pubSeed a (fun _ => 0) (fun _ => wotsW - 1) 0 (expandSeed secret)) := by
  unfold wotsPkgen
  simp only [genChain_of_le (d := 0) (n := wotsW - 1) (by decide)]
  rw [overChains_fst (fun _ => 0) (fun _ => wotsW - 1) h]

theorem wotsSign_fst (msg : Digest) (secret pubSeed : Block 32) {adrs a : Adrs} (h : adrs.Alike a) :
    (wotsSign msg secret pubSeed adrs).1.1 = joinChains (walkChains pubSeed a (fun _ => 0)
      (fun i => (chainLengths msg).getD i 0) 0 (expandSeed secret)) := by
  have hgen (i : ℕ) (x : Block 32) (d : Adrs) :
      genChain x 0 ((chainLengths msg).getD i 0) pubSeed d =
        genChainFrom pubSeed ((chainLengths msg).getD i 0) 0 x d :=
    genChain_of_le (by rw [Nat.zero_add]; exact chainLengths_lt msg i) ..
  unfold wotsSign
  simp only [hgen]
  rw [overChains_fst (fun _ => 0) (fun i => (chainLengths msg).getD i 0) h]

/-- A recovery, as a walk of the rest of each chain. -/
theorem wotsPkFromSig_eq (sig : Block sigLen) (msg : Digest) (pubSeed : Block 32) {adrs a : Adrs}
    (h : adrs.Alike a) :
    (wotsPkFromSig sig msg pubSeed adrs).1.1 = joinChains (walkChains pubSeed a
        (fun i => (chainLengths msg).getD i 0) (fun i => wotsW - 1 - (chainLengths msg).getD i 0) 0
        (sigChains sig)) ∧
      (wotsPkFromSig sig msg pubSeed adrs).2 = adrs.writes (walkWrites
        (fun i => (chainLengths msg).getD i 0) (fun i => wotsW - 1 - (chainLengths msg).getD i 0) 0
        wotsLen) := by
  have hgen (i : ℕ) (x : Block 32) (d : Adrs) :
      genChain x ((chainLengths msg).getD i 0) (wotsW - 1 - (chainLengths msg).getD i 0) pubSeed d =
        genChainFrom pubSeed (wotsW - 1 - (chainLengths msg).getD i 0)
          ((chainLengths msg).getD i 0) x d := by
    refine genChain_of_le ?_ ..
    rw [digits_add]
    decide
  unfold wotsPkFromSig
  simp only [hgen]
  rw [overChains_fst (fun i => (chainLengths msg).getD i 0)
      (fun i => wotsW - 1 - (chainLengths msg).getD i 0) h,
    overChains_snd (fun i => (chainLengths msg).getD i 0)
      (fun i => wotsW - 1 - (chainLengths msg).getD i 0), length_sigChains]
  exact ⟨rfl, rfl⟩

/-- What a key signs recovers its public key. -/
theorem wotsPkFromSig_wotsSign (msg : Digest) (secret pubSeed : Block 32) (adrs : Adrs) :
    (wotsPkFromSig (wotsSign msg secret pubSeed adrs).1 msg pubSeed adrs).1 =
      (wotsPkgen secret pubSeed adrs).1 := by
  refine Block.ext ?_
  have hsig : sigChains (wotsSign msg secret pubSeed adrs).1 = walkChains pubSeed adrs (fun _ => 0)
      (fun i => (chainLengths msg).getD i 0) 0 (expandSeed secret) := by
    have hchains := wotsSign_fst msg secret pubSeed (Adrs.Alike.refl adrs)
    have hlen : (walkChains pubSeed adrs (fun _ => 0) (fun i => (chainLengths msg).getD i 0) 0
        (expandSeed secret)).length = wotsLen := by rw [length_walkChains, length_expandSeed]
    rw [← sigChains_joinChains hlen (h := hchains ▸ (wotsSign msg secret pubSeed adrs).1.2)]
    exact congrArg sigChains (Block.ext hchains)
  rw [(wotsPkFromSig_eq _ msg pubSeed (Adrs.Alike.refl adrs)).1, hsig,
    walkChains_walkChains (digits_add msg), wotsPkgen_fst secret pubSeed (Adrs.Alike.refl adrs)]

/-- A recovery from the address a recovery left gives the same key, and leaves that address. -/
theorem wotsPkFromSig_again (sig : Block sigLen) (msg : Digest) (pubSeed : Block 32) (adrs : Adrs) :
    wotsPkFromSig sig msg pubSeed (wotsPkFromSig sig msg pubSeed adrs).2 =
      wotsPkFromSig sig msg pubSeed adrs := by
  obtain ⟨hfst, hsnd⟩ := wotsPkFromSig_eq sig msg pubSeed (Adrs.Alike.refl adrs)
  have halike : (wotsPkFromSig sig msg pubSeed adrs).2.Alike adrs := by
    rw [hsnd]
    exact Adrs.alike_writes adrs (five_le_walkWrites _ _ _ _)
  obtain ⟨hfst', hsnd'⟩ := wotsPkFromSig_eq sig msg pubSeed halike
  refine Prod.ext (Block.ext (hfst'.trans hfst.symm)) ?_
  rw [hsnd', hsnd, Adrs.writes_writes]

end

end MochimoWallet
