import MochimoWallet.Mesh.Spend
import MochimoWallet.WotsChecksum
import MochimoWallet.WotsCounted

/-!
# The address scheme a recovery leaves

A recovery writes the number of the last chain into word 5, and its hash steps write words
6 and 7. A chain that takes no step writes neither, but the checksum leaves no message for
which every chain is at its end (`exists_chain_open`), and the last step of any chain that
takes one is step 14. So a recovery leaves one scheme whatever it started from, and a
transaction's scheme is accepted exactly when it is that one.
-/

namespace MochimoWallet

open Codec Keystore

namespace Adrs

theorem getElem?_set (a : Adrs) (i j : ℕ) (w : UInt32) :
    (a.set i w).words[j]? = if i = j then (if i < 8 then some w else none) else a.words[j]? := by
  rw [set, List.getElem?_set, a.length_eq]

/-- The words a hash step leaves, once the last step of some chain was made. -/
structure Ended (a : Adrs) : Prop where
  hash : a.words[6]? = some 14
  mask : a.words[7]? = some 1

theorem Ended.set_five {a : Adrs} (h : a.Ended) (w : UInt32) : (a.set 5 w).Ended :=
  ⟨by rw [getElem?_set, if_neg (by decide), h.hash], by rw [getElem?_set, if_neg (by decide), h.mask]⟩

/-- A chain that is walked to its end from a step before it leaves the words of the last step. -/
theorem ended_chainWrites {n i : ℕ} (h : i + n = 15) (hn : n ≠ 0) (a : Adrs) :
    (a.writes (chainWrites n i)).Ended := by
  induction n generalizing i a with
  | zero => exact absurd rfl hn
  | succ n ih =>
    rw [chainWrites, writes_append]
    rcases Nat.eq_zero_or_pos n with rfl | hpos
    · have hi : i = 14 := by omega
      subst hi
      constructor <;> simp [writes, chainWrites, getElem?_set]
    · exact ih (by omega) (by omega) _

theorem Ended.chainWrites {n i : ℕ} {a : Adrs} (ha : a.Ended) (h : i + n = 15) :
    (a.writes (chainWrites n i)).Ended := by
  rcases Nat.eq_zero_or_pos n with rfl | hpos
  · exact ha
  · exact ended_chainWrites h (by omega) a

/-- Chains walked to their ends leave the words of the last step, when one of them had a step to
make or the words were these before. -/
theorem ended_walkWrites {start steps : ℕ → ℕ} (h : ∀ i, start i + steps i = 15) {i n : ℕ} {a : Adrs}
    (ha : a.Ended ∨ ∃ j, i ≤ j ∧ j < i + n ∧ steps j ≠ 0) :
    (a.writes (walkWrites start steps i n)).Ended := by
  induction n generalizing i a with
  | zero =>
    rcases ha with ha | ⟨j, hi, hj, -⟩
    · exact ha
    · omega
  | succ n ih =>
    rw [walkWrites, writes_append, writes_append]
    apply ih
    rcases ha with ha | ⟨j, hi, hj, hstep⟩
    · exact .inl ((ha.set_five _).chainWrites (h i))
    · by_cases hj : j = i
      · exact .inl (ended_chainWrites (h i) (hj ▸ hstep) _)
      · exact .inr ⟨j, by omega, by omega, hstep⟩

end Adrs

theorem walkWrites_five {start steps : ℕ → ℕ} (i n : ℕ) (a : Adrs) :
    (a.writes (walkWrites start steps i (n + 1))).words[5]? = some (.ofNat (i + n)) := by
  induction n generalizing i a with
  | zero =>
    rw [walkWrites, walkWrites, List.append_nil, Adrs.writes_append,
      Adrs.writes_of_notMem (notMem_chainWrites (by decide) _ _)]
    simp [Adrs.writes, Adrs.getElem?_set]
  | succ n ih =>
    rw [walkWrites, Adrs.writes_append, ih, Nat.add_assoc, Nat.add_comm 1]

/-- No message has every chain at its end: some other message is further on one of them. -/
theorem exists_chain_open (msg : Digest) : ∃ i < wotsLen, (chainLengths msg).getD i 0 < 15 := by
  obtain ⟨other, hne⟩ : ∃ other : Digest, other ≠ msg := by
    by_cases h : msg = .zero 32
    · exact ⟨.replicate 32 1, fun h' => absurd (h'.trans h) (by decide)⟩
    · exact ⟨.zero 32, Ne.symm h⟩
  obtain ⟨i, hi, hlt⟩ := exists_chainLengths_lt hne
  have := chainLengths_lt other i
  exact ⟨i, hi, by rw [show wotsW = 16 from rfl] at this; omega⟩

/-- The words 5 to 7 that every recovery leaves. -/
def recoveredScheme : List UInt32 := [66, 14, 1]

variable [Crypto]

theorem wotsPkFromSig_words (sig : Block sigLen) (msg : Digest) (pubSeed : Block 32) (adrs : Adrs) :
    (wotsPkFromSig sig msg pubSeed adrs).2.words = adrs.words.take 5 ++ recoveredScheme := by
  have halike := wotsPkFromSig_snd_alike msg pubSeed adrs sig
  have hsnd := (wotsPkFromSig_eq sig msg pubSeed (.refl adrs)).2
  have hfive : (adrs.writes (walkWrites (fun i => (chainLengths msg).getD i 0)
      (fun i => wotsW - 1 - (chainLengths msg).getD i 0) 0 67)).words[5]? = some 66 :=
    walkWrites_five 0 66 adrs
  obtain ⟨i, hi, hopen⟩ := exists_chain_open msg
  have hended : (wotsPkFromSig sig msg pubSeed adrs).2.Ended := by
    rw [hsnd]
    refine Adrs.ended_walkWrites (digits_add msg) (.inr ⟨i, Nat.zero_le i, by omega, ?_⟩)
    rw [show wotsW = 16 from rfl]
    omega
  have htake : (adrs.words.take 5).length = 5 := by rw [List.length_take, adrs.length_eq]; rfl
  refine List.ext_getElem? fun j => ?_
  rcases Nat.lt_or_ge j 5 with hj | hj
  · rw [halike j hj, List.getElem?_append_left (by omega), List.getElem?_take_of_lt hj]
  · rw [List.getElem?_append_right (by omega), htake]
    rcases Nat.lt_or_ge j 8 with hj' | hj'
    · obtain rfl | rfl | rfl : j = 5 ∨ j = 6 ∨ j = 7 := by omega
      · rw [hsnd]
        exact hfive
      · exact hended.hash
      · exact hended.mask
    · rw [List.getElem?_eq_none (by rw [Adrs.length_eq]; exact hj'),
        List.getElem?_eq_none (by simp only [recoveredScheme, List.length_cons, List.length_nil]; omega)]

/-- A recovery finds the scheme it leaves, and only that one, as it will leave it. -/
theorem scheme_stands (sig : Block sigLen) (msg : Digest) (pubSeed : Block 32) (adrs : Adrs) :
    (wotsPkFromSig sig msg pubSeed adrs).2 = adrs ↔ adrs.words.drop 5 = recoveredScheme := by
  have hwords := wotsPkFromSig_words sig msg pubSeed adrs
  have hsplit := List.take_append_drop 5 adrs.words
  constructor
  · intro h
    rw [h] at hwords
    exact List.append_cancel_left (hsplit.trans hwords)
  · intro h
    rw [← h, hsplit] at hwords
    exact Adrs.ext_words fun j => by rw [hwords]

theorem verifyWots_scheme (tx : Transaction) :
    verifyWots tx ≠ .error (.signatureDoesNotRecover "address scheme") ↔
      (Adrs.fromLeImage tx.wots.adrs).words.drop 5 = recoveredScheme := by
  rw [← scheme_stands tx.wots.signature (Transaction.messageDigest tx.toTransfer) tx.wots.pubSeed]
  unfold verifyWots
  dsimp only
  split
  · next h => exact iff_of_false (by simp) h
  · next h =>
    refine iff_of_true ?_ (not_not.mp h)
    split <;> simp

theorem SpendPlan.unsigned_ne_error (plan : SpendPlan) (e : Error) : plan.unsigned ≠ .error e := by
  obtain ⟨tx, htx, -⟩ := plan.unsigned_eq_ok
  rw [htx]
  simp

/-- What attaching assembles has the scheme of the recovery it made. -/
theorem SignedTransaction.attach_scheme (plan : SpendPlan) (sig : SpendSignature) :
    attach plan sig ≠ .error (.signatureDoesNotRecover "address scheme") := by
  intro h
  unfold attach at h
  split at h
  · cases h
  rcases bind_eq_error.mp h with h | ⟨tx, -, h⟩
  · exact plan.unsigned_ne_error _ h
  dsimp only at h
  split at h
  · simp at h
  rcases bind_eq_error.mp h with h | ⟨⟨⟩, -, h⟩
  · refine (verifyWots_scheme _).mpr ?_ h
    have hwords := wotsPkFromSig_words sig.signature (Transaction.messageDigest tx.toTransfer)
      sig.pubSeed sig.adrs
    have htake : (sig.adrs.words.take 5).length = 5 := by
      rw [List.length_take, sig.adrs.length_eq]
      rfl
    rw [Adrs.fromLeImage_leImage, hwords, List.drop_left' htake]
  · cases h

/-- A recovery leaves the first five words and 66, 14 and 1, whatever it started from. It leaves a
scheme that ends so as it is, and recovers the same key from it; so the comparison of the scheme a
transaction states with the one its recovery leaves passes for these words and no others, and for
every transaction that attaching assembles. -/
theorem recovered_scheme_fixed (sig : Block sigLen) (msg : Digest) (pubSeed : Block 32) (adrs : Adrs) :
    (wotsPkFromSigCounted sig msg pubSeed adrs).2.words = adrs.words.take 5 ++ [66, 14, 1] ∧
      wotsPkFromSig sig msg pubSeed (wotsPkFromSig sig msg pubSeed adrs).2 =
        wotsPkFromSig sig msg pubSeed adrs ∧
      (∀ tx, verifyWots tx ≠ .error (.signatureDoesNotRecover "address scheme") ↔
        (Adrs.fromLeImage tx.wots.adrs).words.drop 5 = [66, 14, 1]) ∧
      ∀ plan sig',
        SignedTransaction.attach plan sig' ≠ .error (.signatureDoesNotRecover "address scheme") := by
  refine ⟨?_, wotsPkFromSig_again sig msg pubSeed adrs, verifyWots_scheme,
    SignedTransaction.attach_scheme⟩
  rw [wotsPkFromSigCounted_eq]
  exact wotsPkFromSig_words sig msg pubSeed adrs

end MochimoWallet
