import Mathlib.Algebra.Field.ZMod
import Mathlib.Algebra.Polynomial.FieldDivision
import Mathlib.Data.List.GetD
import Mathlib.RingTheory.PrincipalIdealDomain
import Mathlib.Tactic.LinearCombination

/-!
# Bits as polynomials

A string of bits, the most significant first, is a polynomial over the field of two elements, and a
word is its own bits. A shift register with feedback divides: one step multiplies by `X` and takes
the remainder (`ofWord_step`). Two strings that differ within a window no longer than the generator
is high leave different remainders (`remainder_ne_of_window`).
-/

namespace BitPoly

open Polynomial

abbrev GF2 := ZMod 2

/-- The coefficient a bit is. -/
def coeffOf (bit : Bool) : GF2 := if bit then 1 else 0

theorem coeffOf_xor (a b : Bool) : coeffOf (a ^^ b) = coeffOf a + coeffOf b := by
  cases a <;> cases b <;> decide

theorem coeffOf_injective : Function.Injective coeffOf := by
  intro a b h
  cases a <;> cases b <;> simp [coeffOf] at h ⊢

/-- The bits of a word, the most significant first. -/
def msbBits {w : ℕ} (x : BitVec w) : List Bool := (List.range w).map x.getMsbD

@[simp] theorem length_msbBits {w : ℕ} (x : BitVec w) : (msbBits x).length = w := by
  rw [msbBits, List.length_map, List.length_range]

noncomputable section

/-- The polynomial of some bits. -/
def ofBits (bits : List Bool) : GF2[X] := bits.foldl (fun p bit => X * p + C (coeffOf bit)) 0

def ofWord {w : ℕ} (x : BitVec w) : GF2[X] := ofBits (msbBits x)

/-! ## Strings -/

theorem ofBits_concat (bits : List Bool) (bit : Bool) :
    ofBits (bits ++ [bit]) = X * ofBits bits + C (coeffOf bit) := by
  rw [ofBits, List.foldl_append]
  rfl

theorem coeff_ofBits (bits : List Bool) (i : ℕ) :
    (ofBits bits).coeff i = coeffOf (bits.reverse.getD i false) := by
  induction bits using List.reverseRecOn generalizing i with
  | nil => simp [ofBits, coeffOf]
  | append_singleton bits bit ih =>
    rw [ofBits_concat, List.reverse_append, List.reverse_singleton, List.singleton_append]
    cases i with
    | zero => simp
    | succ i => simp [ih]

theorem ofBits_append (a b : List Bool) : ofBits (a ++ b) = ofBits a * X ^ b.length + ofBits b := by
  induction b using List.reverseRecOn with
  | nil => simp [ofBits]
  | append_singleton b bit ih =>
    rw [← List.append_assoc, ofBits_concat, ih, ofBits_concat, List.length_append, List.length_singleton]
    ring

theorem degree_ofBits_lt (bits : List Bool) : (ofBits bits).degree < bits.length := by
  rw [degree_lt_iff_coeff_zero]
  intro i hi
  rw [coeff_ofBits, List.getD_eq_default]
  · rfl
  · rwa [List.length_reverse]

theorem ofBits_eq_zero {bits : List Bool} (h : ∀ bit ∈ bits, bit = false) : ofBits bits = 0 := by
  ext i
  rw [coeff_ofBits, coeff_zero]
  have hbit : bits.reverse.getD i false = false := by
    rcases hget : bits.reverse[i]? with _ | bit
    · rw [List.getD_eq_getElem?_getD, hget]
      rfl
    · rw [List.getD_eq_getElem?_getD, hget]
      exact h bit (List.mem_reverse.mp (List.mem_of_getElem? hget))
  rw [hbit]
  rfl

theorem ofBits_injective {a b : List Bool} (hlen : a.length = b.length) (h : ofBits a = ofBits b) :
    a = b := by
  rw [← List.reverse_inj]
  refine List.ext_getElem (by simpa using hlen) fun i hi hi' => ?_
  have hcoeff := congrArg (coeff · i) h
  simp only [coeff_ofBits] at hcoeff
  have hbit := coeffOf_injective hcoeff
  rwa [List.getD_eq_getElem _ _ hi, List.getD_eq_getElem _ _ hi'] at hbit

/-- Where two strings of a length differ is the sum of the two. -/
theorem ofBits_zipWith_xor {a b : List Bool} (hlen : a.length = b.length) :
    ofBits (a.zipWith (· ^^ ·) b) = ofBits a + ofBits b := by
  ext i
  rw [coeff_add, coeff_ofBits, coeff_ofBits, coeff_ofBits, ← coeffOf_xor, List.reverse_zipWith hlen]
  congr 1
  by_cases hi : i < a.length
  · rw [List.getD_eq_getElem _ _ (by simpa [← hlen] using hi), List.getD_eq_getElem _ _ (by simpa using hi),
      List.getD_eq_getElem _ _ (by simpa [← hlen] using hi), List.getElem_zipWith]
  · rw [List.getD_eq_default _ _ (by simpa [← hlen] using hi), List.getD_eq_default _ _ (by simpa using hi),
      List.getD_eq_default _ _ (by simpa [← hlen] using hi)]
    rfl

/-! ## Words -/

variable {w : ℕ}

theorem coeff_ofWord (x : BitVec w) (i : ℕ) : (ofWord x).coeff i = coeffOf (x.getLsbD i) := by
  rw [ofWord, coeff_ofBits]
  congr 1
  by_cases hi : i < w
  · rw [List.getD_eq_getElem _ _ (by simpa using hi)]
    simp only [msbBits, List.getElem_reverse, List.getElem_map, List.getElem_range, List.length_map,
      List.length_range]
    rw [BitVec.getLsbD_eq_getMsbD, decide_eq_true hi, Bool.true_and]
  · rw [List.getD_eq_default _ _ (by simpa using hi), BitVec.getLsbD_of_ge _ _ (Nat.le_of_not_lt hi)]

theorem degree_ofWord_lt (x : BitVec w) : (ofWord x).degree < w := by
  have h := degree_ofBits_lt (msbBits x)
  rwa [length_msbBits] at h

theorem ofWord_injective : Function.Injective (ofWord (w := w)) := by
  intro x y h
  refine BitVec.eq_of_getLsbD_eq fun i _ => coeffOf_injective ?_
  rw [← coeff_ofWord, ← coeff_ofWord, h]

theorem ofWord_xor (x y : BitVec w) : ofWord (x ^^^ y) = ofWord x + ofWord y := by
  ext i
  rw [coeff_add, coeff_ofWord, coeff_ofWord, coeff_ofWord, BitVec.getLsbD_xor, coeffOf_xor]

theorem ofWord_append {n : ℕ} (x : BitVec w) (y : BitVec n) :
    ofWord (x ++ y) = ofWord x * X ^ n + ofWord y := by
  ext i
  rw [coeff_add, coeff_mul_X_pow', coeff_ofWord, coeff_ofWord, BitVec.getLsbD_append]
  by_cases hi : i < n
  · rw [if_pos hi, if_neg (Nat.not_le.mpr hi), zero_add, coeff_ofWord]
  · rw [if_neg hi, if_pos (Nat.le_of_not_lt hi), coeff_ofWord, BitVec.getLsbD_of_ge _ _ (Nat.le_of_not_lt hi)]
    exact (add_zero _).symm

theorem ofWord_zero : ofWord (0#w) = 0 := by
  ext i
  rw [coeff_ofWord, coeff_zero, BitVec.getLsbD_zero]
  rfl

/-- What a shift drops is the top bit. -/
theorem ofWord_shiftLeft_one (x : BitVec w) :
    ofWord (x <<< 1) + C (coeffOf x.msb) * X ^ w = X * ofWord x := by
  ext i
  rw [coeff_add, coeff_C_mul, coeff_X_pow, coeff_ofWord, BitVec.getLsbD_shiftLeft]
  rcases i with _ | i
  · rcases Nat.eq_zero_or_pos w with rfl | hw
    · simp [coeffOf, BitVec.msb]
    · simp [coeffOf, hw.ne]
  · rw [coeff_X_mul, coeff_ofWord]
    rcases Nat.lt_trichotomy (i + 1) w with hi | rfl | hi
    · simp [hi, hi.ne]
    · simp [coeffOf, BitVec.msb_eq_getLsbD_last]
    · have hout : x.getLsbD i = false := BitVec.getLsbD_of_ge _ _ (by omega)
      simp [hi.ne', Nat.not_lt.mpr hi.le, hout, coeffOf]

/-! ## Division -/

/-- The generator whose lower coefficients are `g`. -/
def generator (g : BitVec w) : GF2[X] := X ^ w + ofWord g

theorem generator_monic (g : BitVec w) : (generator g).Monic := monic_X_pow_add (degree_ofWord_lt g)

theorem degree_generator (g : BitVec w) : (generator g).degree = w := by
  rw [generator, degree_add_eq_left_of_degree_lt, degree_X_pow]
  rw [degree_X_pow]
  exact degree_ofWord_lt g

/-- One step of a shift register that feeds `g` back. -/
def step (g x : BitVec w) : BitVec w := if x.msb then (x <<< 1) ^^^ g else x <<< 1

theorem ofWord_step (g x : BitVec w) : ofWord (step g x) = (X * ofWord x) %ₘ generator g := by
  refine ((div_modByMonic_unique (C (coeffOf x.msb)) _ (generator_monic g) ⟨?_, ?_⟩).2).symm
  · rw [← ofWord_shiftLeft_one, generator]
    rcases hx : x.msb with _ | _
    · simp [step, hx, coeffOf]
    · rw [step, hx, if_pos rfl, ofWord_xor]
      have htwo : ofWord g + ofWord g = 0 := CharTwo.add_self_eq_zero _
      simp only [coeffOf, if_true, C_1, one_mul, mul_one]
      rw [add_assoc, ← add_assoc (ofWord g), add_comm (ofWord g), add_assoc, htwo, add_zero]
  · rw [degree_generator]
    exact degree_ofWord_lt _

theorem mul_modByMonic_modByMonic {q : GF2[X]} (hq : q.Monic) (a p : GF2[X]) :
    (a * (p %ₘ q)) %ₘ q = (a * p) %ₘ q := by
  refine modByMonic_eq_of_dvd_sub hq ?_
  have hdiv := modByMonic_add_div p q
  exact ⟨-(a * (p /ₘ q)), by linear_combination a * hdiv⟩

theorem ofWord_steps (g x : BitVec w) (n : ℕ) :
    ofWord ((step g)^[n] x) = (X ^ n * ofWord x) %ₘ generator g := by
  induction n with
  | zero =>
    rw [pow_zero, one_mul, Function.iterate_zero, id_eq, eq_comm, modByMonic_eq_self_iff (generator_monic g),
      degree_generator]
    exact degree_ofWord_lt x
  | succ n ih =>
    rw [Function.iterate_succ_apply', ofWord_step, ih, mul_modByMonic_modByMonic (generator_monic g),
      ← mul_assoc, ← pow_succ']

/-- A string no longer than the generator is high has no multiple of the generator among its
shifts, but the zero string. -/
theorem eq_zero_of_dvd_shift {g : BitVec w} (hg : (generator g).coeff 0 ≠ 0) {p : GF2[X]}
    (hdeg : p.degree < w) {n : ℕ} (h : generator g ∣ X ^ n * p) : p = 0 := by
  have hirreducible : Irreducible (X : GF2[X]) := irreducible_X
  have hcoprime : IsCoprime (generator g) (X ^ n) := by
    refine (IsCoprime.pow_left ?_).symm
    exact hirreducible.coprime_iff_not_dvd.mpr (fun hdvd => hg (X_dvd_iff.mp hdvd))
  by_contra hne
  refine (generator_monic g).not_dvd_of_degree_lt hne ?_ (hcoprime.dvd_of_dvd_mul_left h)
  rwa [degree_generator]

/-- Two strings of a length that differ, and only within a window as wide as the generator is
high, leave different remainders. -/
theorem remainder_ne_of_window {g : BitVec w} (hg : (generator g).coeff 0 ≠ 0) {a b : List Bool}
    (hlen : a.length = b.length) (hne : a ≠ b) {start : ℕ}
    (hwindow : ∀ i, a[i]? ≠ b[i]? → start ≤ i ∧ i < start + w) (n : ℕ) :
    (X ^ n * ofBits a) %ₘ generator g ≠ (X ^ n * ofBits b) %ₘ generator g := by
  intro h
  let d := a.zipWith (· ^^ ·) b
  have hd : ofBits d = ofBits a + ofBits b := ofBits_zipWith_xor hlen
  have hout : ∀ i, ¬ (start ≤ i ∧ i < start + w) → ∀ bit ∈ d[i]?, bit = false := by
    intro i hi bit hbit
    have hsame : a[i]? = b[i]? := of_not_not fun hdiff => hi (hwindow i hdiff)
    rw [List.getElem?_zipWith, hsame] at hbit
    rcases hb : b[i]? with _ | c
    · simp [hb] at hbit
    · simp only [hb, Option.mem_def, Option.some.injEq] at hbit
      rw [← hbit, Bool.xor_self]
  have hsplit : d = d.take start ++ ((d.drop start).take w ++ d.drop (start + w)) := by
    rw [← List.drop_drop, List.take_append_drop, List.take_append_drop]
  have hfront : ofBits (d.take start) = 0 := by
    refine ofBits_eq_zero fun bit hbit => ?_
    obtain ⟨i, hi⟩ := List.mem_iff_getElem?.mp hbit
    rw [List.getElem?_take] at hi
    split_ifs at hi with hlt
    exact hout i (fun hin => absurd hin.1 (Nat.not_le.mpr hlt)) bit hi
  have hback : ofBits (d.drop (start + w)) = 0 := by
    refine ofBits_eq_zero fun bit hbit => ?_
    obtain ⟨i, hi⟩ := List.mem_iff_getElem?.mp hbit
    rw [List.getElem?_drop] at hi
    exact hout _ (fun hin => absurd hin.2 (Nat.not_lt.mpr (Nat.le_add_right _ _))) bit hi
  let k := (d.drop (start + w)).length
  have hpoly : ofBits d = ofBits ((d.drop start).take w) * X ^ k := by
    conv_lhs => rw [hsplit]
    rw [ofBits_append, ofBits_append, hfront, hback, zero_mul, zero_add, add_zero]
  have hdeg : (ofBits ((d.drop start).take w)).degree < w :=
    (degree_ofBits_lt _).trans_le (by exact_mod_cast List.length_take_le _ _)
  have hdvd : generator g ∣ X ^ (n + k) * ofBits ((d.drop start).take w) := by
    have hzero : (X ^ n * ofBits d) %ₘ generator g = 0 := by
      rw [hd, mul_add, add_modByMonic, h]
      exact CharTwo.add_self_eq_zero _
    rw [modByMonic_eq_zero_iff_dvd (generator_monic g), hpoly] at hzero
    rwa [pow_add, mul_assoc, mul_comm (X ^ k)]
  have hzero := eq_zero_of_dvd_shift hg hdeg hdvd
  rw [hpoly, hzero, zero_mul] at hd
  refine hne (ofBits_injective hlen ?_)
  exact CharTwo.add_eq_zero.mp hd.symm

end

end BitPoly
