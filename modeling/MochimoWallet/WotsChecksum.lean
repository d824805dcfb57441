import MochimoWallet.Lib.Winternitz
import MochimoWallet.WotsRecover

/-!
# The checksum

The digits of a message are its nibbles, and the three digits after them are what the
nibbles are short of the largest, shifted to the top of two bytes and read back
(`value_wotsChecksum`). So the chain lengths of two messages cross: each message has a
chain that the other's signature stops short of.
-/

namespace MochimoWallet

open Codec Winternitz

/-! ## Nibbles -/

def nibbles (b : Bytes) : List ℕ := b.flatMap fun x => [x.toNat / 16, x.toNat % 16]

theorem length_nibbles (b : Bytes) : (nibbles b).length = 2 * b.length := by
  induction b with
  | nil => rfl
  | cons x xs ih =>
    rw [nibbles, List.flatMap_cons, List.length_append, ← nibbles, ih, List.length_cons]
    simp only [List.length_cons, List.length_nil]
    omega

theorem nibbles_injective {b c : Bytes} (h : nibbles b = nibbles c) : b = c := by
  induction b generalizing c with
  | nil =>
    have hlen := congrArg List.length h
    rw [length_nibbles, length_nibbles, List.length_nil] at hlen
    exact (List.eq_nil_of_length_eq_zero (by omega)).symm
  | cons x xs ih =>
    cases c with
    | nil => cases h
    | cons y ys =>
      simp only [nibbles, List.flatMap_cons, List.cons_append, List.nil_append,
        List.cons.injEq] at h
      obtain ⟨hhigh, hlow, htail⟩ := h
      have hxy : x = y := UInt8.toNat_inj.mp (by omega)
      rw [hxy, ih htail]

/-- The digits are the nibbles, from the top of a byte and from its middle. -/
theorem baseWFrom_eq (n : ℕ) (input : Bytes) (total : UInt8) :
    baseWFrom n input total 0 = (nibbles input).take n ∧
      baseWFrom n input total 4 = (total.toNat % 16 :: nibbles input).take n := by
  induction n generalizing input total with
  | zero => exact ⟨rfl, rfl⟩
  | succ n ih =>
    constructor
    · cases input with
      | nil => rfl
      | cons x xs =>
        have hx : x.toNat < 256 := x.toNat_lt
        have hhigh : (x.toNat >>> 4) % wotsW = x.toNat / 16 := by
          rw [Nat.shiftRight_eq_div_pow]
          exact Nat.mod_eq_of_lt ((Nat.div_lt_iff_lt_mul (by decide)).mpr hx)
        rw [baseWFrom, hhigh, (ih xs x).2]
        rfl
    · rw [List.take_succ_cons, ← (ih input total).1]
      rfl

theorem baseW_eq (n : ℕ) (input : Bytes) : baseW n input = (nibbles input).take n :=
  (baseWFrom_eq n input 0).1

theorem baseW_msg (msg : Digest) : baseW wotsLen1 msg.1 = nibbles msg.1 := by
  rw [baseW_eq]
  exact List.take_of_length_le (by rw [length_nibbles, msg.2]; decide)

/-! ## The checksum digits -/

/-- The three digits are the low twelve bits of the sum, the highest first. -/
theorem wotsChecksum_eq (digits : List ℕ) : wotsChecksum digits =
    [shortfall wotsW digits / 256 % 16, shortfall wotsW digits / 16 % 16,
      shortfall wotsW digits % 16] := by
  have hbytes (v : ℕ) : (ullToBytes 2 v).1 = [.ofNat (v / 256), .ofNat v] := rfl
  have hshift (v : ℕ) : v <<< (8 - wotsLen2 * wotsLogW % 8) = v * 16 := Nat.shiftLeft_eq v 4
  rw [wotsChecksum, baseW_eq, hshift, hbytes, ← shortfall]
  generalize shortfall wotsW digits = s
  have hfirst : s * 16 / 256 % 2 ^ 8 / 16 = s / 256 % 16 := by omega
  have hsecond : s * 16 / 256 % 2 ^ 8 % 16 = s / 16 % 16 := by omega
  have hthird : s * 16 % 2 ^ 8 / 16 = s % 16 := by omega
  simp only [nibbles, List.flatMap_cons, List.flatMap_nil, List.append_nil, List.cons_append,
    List.nil_append, UInt8.toNat_ofNat', List.take_succ_cons, List.take_zero, hfirst, hsecond,
    hthird]

theorem value_wotsChecksum (digits : List ℕ) :
    value wotsW (wotsChecksum digits) = shortfall wotsW digits % 4096 := by
  rw [wotsChecksum_eq, value]
  simp only [List.reverse_cons, List.reverse_nil, List.nil_append, List.cons_append,
    Nat.ofDigits_cons, Nat.ofDigits_nil]
  generalize shortfall wotsW digits = s
  rw [show wotsW = 16 from rfl]
  omega

theorem length_wotsChecksum (digits : List ℕ) : (wotsChecksum digits).length = wotsLen2 := by
  rw [wotsChecksum, baseW_eq, List.length_take, length_nibbles, (ullToBytes 2 _).2]
  rfl

theorem shortfall_le_length (digits : List ℕ) : shortfall wotsW digits ≤ 15 * digits.length := by
  induction digits with
  | nil => exact le_rfl
  | cons d ds ih =>
    have hd : wotsW - 1 - d ≤ 15 := Nat.sub_le _ _
    simp only [shortfall, List.map_cons, List.sum_cons, List.length_cons] at ih ⊢
    omega

/-- Sixty-four digits are not short of enough to reach twelve bits. -/
theorem value_checksum_msg (msg : Digest) :
    value wotsW (wotsChecksum (nibbles msg.1)) = shortfall wotsW (nibbles msg.1) := by
  rw [value_wotsChecksum]
  refine Nat.mod_eq_of_lt (lt_of_le_of_lt (shortfall_le_length _) ?_)
  rw [length_nibbles, msg.2]
  decide

theorem length_chainLengths (msg : Digest) : (chainLengths msg).length = wotsLen := by
  simp only [chainLengths, baseW_msg, List.length_append, length_nibbles, msg.2,
    length_wotsChecksum]
  rfl

/-- Two messages have each a chain on which it is the further. -/
theorem exists_chainLengths_lt {m m' : Digest} (hne : m ≠ m') :
    ∃ i < wotsLen, (chainLengths m').getD i 0 < (chainLengths m).getD i 0 := by
  have hnibbles : nibbles m.1 ≠ nibbles m'.1 := fun h => hne (Block.ext (nibbles_injective h))
  have hlen : (nibbles m.1).length = (nibbles m'.1).length := by
    rw [length_nibbles, length_nibbles, m.2, m'.2]
  have hlen' : (wotsChecksum (nibbles m.1)).length = (wotsChecksum (nibbles m'.1)).length := by
    rw [length_wotsChecksum, length_wotsChecksum]
  have hlt : ∀ d ∈ nibbles m'.1, d < wotsW := by
    rw [← baseW_msg]
    exact fun d => lt_of_mem_baseWFrom d
  obtain ⟨i, hi, habove⟩ := exists_lt hlen hlen' hlt (value_checksum_msg m) (value_checksum_msg m')
    hnibbles
  simp only [← baseW_msg] at hi habove
  exact ⟨i, (length_chainLengths m) ▸ hi, habove⟩

/-- Two messages have each a chain on which it is the further, so no signature of one is walked on
to a signature of the other; and no length is beyond a chain's end. -/
theorem chainLengths_cross {m m' : Digest} (hne : m ≠ m') :
    (∃ i < wotsLen, (chainLengths m').getD i 0 < (chainLengths m).getD i 0) ∧
      (¬ ∃ steps : ℕ → ℕ, ∀ i < wotsLen,
        (chainLengths m).getD i 0 + steps i = (chainLengths m').getD i 0) ∧
      ∀ d ∈ chainLengths m, d ≤ 15 := by
  have hcross := exists_chainLengths_lt hne
  refine ⟨hcross, ?_, fun d hd => ?_⟩
  · rintro ⟨steps, hsteps⟩
    obtain ⟨i, hi, habove⟩ := hcross
    have := hsteps i hi
    omega
  · rcases List.mem_append.mp hd with hd | hd
    · exact Nat.le_of_lt_succ (lt_of_mem_baseWFrom d hd)
    · exact Nat.le_of_lt_succ (lt_of_mem_baseWFrom d hd)

theorem chainLengths_cross_one :
    ∃ i < wotsLen, (chainLengths (.zero 32)).getD i 0 < (chainLengths (.replicate 32 1)).getD i 0 :=
  have hne : Block.replicate 32 1 ≠ .zero 32 := by decide
  (chainLengths_cross hne).1

end MochimoWallet
