import Mathlib.Algebra.Field.Rat
import MochimoWallet.Lib.Text

/-!
# Numbers in decimal

What the digits of a text are worth: a natural number, an integer with a minus sign before it or
none, and a number with a point in it. Each is read back from its own writing (`readNat_ofNat`,
`readInt_ofInt`, `readFixed_fixed`).
-/

namespace Text

/-- An integer in decimal. -/
def ofInt (z : ℤ) : Text := if z < 0 then '-' :: ofNat z.natAbs else ofNat z.natAbs

/-- A text to the right of a field that is at least so wide. -/
def padLeft (width : ℕ) (fill : Char) (t : Text) : Text := List.replicate (width - t.length) fill ++ t

/-- A text to the left of a field that is at least so wide. -/
def padRight (width : ℕ) (fill : Char) (t : Text) : Text := t ++ List.replicate (width - t.length) fill

end Text

namespace Decimal

open Text

/-- Digits, and at least one of them. -/
def isDigits (t : Text) : Bool := !t.isEmpty && t.all Char.isDigit

/-- What some digits are worth. -/
def value (t : Text) : ℕ := Nat.ofDigitChars 10 t 0

def readNat (t : Text) : Option ℕ := if isDigits t then some (value t) else none

/-- Whether there is a minus sign, and what follows it. -/
def sign (t : Text) : Bool × Text :=
  match t.stripPrefix ['-'] with
  | some t => (true, t)
  | none => (false, t)

def signed (minus : Bool) (n : ℕ) : ℤ := if minus then -(n : ℤ) else n

def readInt (t : Text) : Option ℤ := (readNat (sign t).2).map (signed (sign t).1)

/-- Digits, a point and digits. -/
def readFixed (t : Text) : Option ℚ :=
  let (minus, body) := sign t
  match split '.' body with
  | [whole, frac] => do
    let n ← readNat whole
    let m ← readNat frac
    let v : ℚ := n + m / 10 ^ frac.length
    some (if minus then -v else v)
  | _ => none

/-! ## Digits -/

theorem isDigits_iff {t : Text} : isDigits t = true ↔ t ≠ [] ∧ ∀ c ∈ t, c.isDigit = true := by
  simp [isDigits]

/-- Digits are worth less than a one and as many zeros. -/
theorem value_lt {t : Text} (h : ∀ c ∈ t, c.isDigit = true) : value t < 10 ^ t.length := by
  induction t with
  | nil => exact Nat.one_pos
  | cons c t ih =>
    rw [List.forall_mem_cons] at h
    have hc : c.toNat - '0'.toNat ≤ 9 := by
      have hle := Nat.sub_le_sub_right (Char.isDigit_iff_toNat.mp h.1).2 48
      exact hle
    have htail := ih h.2
    rw [value] at htail ⊢
    rw [Nat.ofDigitChars_cons, Nat.ofDigitChars_eq_ofDigitChars_zero, Nat.mul_zero, Nat.zero_add,
      List.length_cons, Nat.pow_succ']
    have hpart : 10 ^ t.length * (c.toNat - '0'.toNat) ≤ 10 ^ t.length * 9 := Nat.mul_le_mul_left _ hc
    omega

theorem toDigits_eq (n : ℕ) : ofNat n = Nat.toDigits 10 n := Nat.toList_repr

theorem isDigit_of_mem_ofNat {n : ℕ} : ∀ c ∈ ofNat n, c.isDigit = true := by
  rw [toDigits_eq]
  exact fun c hc => Nat.isDigit_of_mem_toDigits (by decide) (by decide) hc

theorem ofNat_ne_nil (n : ℕ) : ofNat n ≠ [] := by
  rw [toDigits_eq]
  exact Nat.toDigits_ne_nil

theorem length_ofNat_le {n k : ℕ} (hk : 0 < k) : (ofNat n).length ≤ k ↔ n < 10 ^ k := by
  rw [toDigits_eq]
  exact Nat.length_toDigits_le_iff (by decide) hk

/-- A number is read from its digits, with zeros before them or none. -/
theorem readNat_padLeft (width n : ℕ) : readNat (padLeft width '0' (ofNat n)) = some n := by
  have hdigits : isDigits (padLeft width '0' (ofNat n)) = true := by
    refine isDigits_iff.mpr ⟨fun h => ofNat_ne_nil n (List.append_eq_nil_iff.mp h).2, fun c hc => ?_⟩
    rcases List.mem_append.mp hc with hc | hc
    · rw [List.eq_of_mem_replicate hc]
      rfl
    · exact isDigit_of_mem_ofNat c hc
  rw [readNat, if_pos hdigits, value, padLeft, Nat.ofDigitChars_append,
    Nat.ofDigitChars_replicate_zero, Nat.mul_zero, toDigits_eq, Nat.ofDigitChars_ten_toDigits]

theorem readNat_ofNat (n : ℕ) : readNat (ofNat n) = some n := by
  have hread := readNat_padLeft 0 n
  rwa [padLeft, Nat.zero_sub, List.replicate_zero, List.nil_append] at hread

theorem length_padLeft {width : ℕ} {fill : Char} {t : Text} (h : t.length ≤ width) :
    (padLeft width fill t).length = width := by
  rw [padLeft, List.length_append, List.length_replicate]
  omega

/-! ## Signs and points -/

theorem sign_minus (t : Text) : sign ('-' :: t) = (true, t) := by
  rw [sign, show '-' :: t = ['-'] ++ t from rfl, stripPrefix_append]

/-- What begins with a digit has no sign. -/
theorem sign_of_digit {t : Text} (h : ∀ c ∈ t.head?, c.isDigit = true) : sign t = (false, t) := by
  have hnot : ¬ t.startsWith ['-'] = true := by
    intro hstart
    obtain ⟨r, rfl⟩ := startsWith_iff.mp hstart
    exact absurd (h '-' rfl) (by decide)
  rw [sign, stripPrefix_eq_none hnot]

theorem head_ofNat (n : ℕ) (t : Text) : ∀ c ∈ (ofNat n ++ t).head?, c.isDigit = true := by
  intro c hc
  refine isDigit_of_mem_ofNat (n := n) c ?_
  rw [List.head?_append_of_ne_nil _ (ofNat_ne_nil n)] at hc
  exact List.mem_of_mem_head? hc

theorem abs_signed (minus : Bool) (n : ℕ) : (signed minus n).natAbs = n := by
  cases minus
  · exact Int.natAbs_natCast n
  · exact (Int.natAbs_neg _).trans (Int.natAbs_natCast n)

theorem sign_ofNat (n : ℕ) (t : Text) : sign (ofNat n ++ t) = (false, ofNat n ++ t) :=
  sign_of_digit (head_ofNat n t)

theorem readInt_ofInt (z : ℤ) : readInt (ofInt z) = some z := by
  unfold ofInt
  split
  · next h =>
    rw [readInt, sign_minus, readNat_ofNat, Option.map_some, Option.some.injEq, signed, if_pos rfl]
    omega
  · next h =>
    have hsign : sign (ofNat z.natAbs) = (false, ofNat z.natAbs) := by
      have happend := sign_ofNat z.natAbs []
      rwa [List.append_nil] at happend
    rw [readInt, hsign, readNat_ofNat, Option.map_some, Option.some.injEq, signed,
      if_neg Bool.false_ne_true]
    omega

/-- A number with `places` digits after the point. -/
def fixed (places n : ℕ) : Text :=
  ofNat (n / 10 ^ places) ++ '.' :: padLeft places '0' (ofNat (n % 10 ^ places))

theorem point_notMem_ofNat (n : ℕ) : '.' ∉ ofNat n := fun h =>
  absurd (isDigit_of_mem_ofNat _ h) (by decide)

theorem length_fraction {places : ℕ} (h : 0 < places) (n : ℕ) :
    (padLeft places '0' (ofNat (n % 10 ^ places))).length = places :=
  length_padLeft ((length_ofNat_le h).mpr (Nat.mod_lt _ (Nat.pow_pos (by decide))))

theorem split_fixed (places n : ℕ) : split '.' (fixed places n) =
    [ofNat (n / 10 ^ places), padLeft places '0' (ofNat (n % 10 ^ places))] := by
  have hpieces : ∀ t ∈ [ofNat (n / 10 ^ places), padLeft places '0' (ofNat (n % 10 ^ places))],
      '.' ∉ t := by
    intro t ht
    simp only [List.mem_cons, List.not_mem_nil, or_false] at ht
    rcases ht with rfl | rfl
    · exact point_notMem_ofNat _
    · intro h
      rcases List.mem_append.mp h with h | h
      · exact absurd (List.eq_of_mem_replicate h) (by decide)
      · exact point_notMem_ofNat _ h
  have hjoin : fixed places n = ['.'].intercalate
      [ofNat (n / 10 ^ places), padLeft places '0' (ofNat (n % 10 ^ places))] := by
    rw [fixed, List.intercalate_cons_cons, List.intercalate_singleton, List.append_assoc]
    rfl
  rw [hjoin, split_intercalate hpieces (by simp)]

/-- A whole number and a part of one. -/
theorem div_add_mod_div (places n : ℕ) :
    ((n / 10 ^ places : ℕ) : ℚ) + ((n % 10 ^ places : ℕ) : ℚ) / 10 ^ places = n / 10 ^ places := by
  have hpow : (10 ^ places : ℚ) ≠ 0 := pow_ne_zero _ (by decide)
  have hsplit : ((n / 10 ^ places * 10 ^ places + n % 10 ^ places : ℕ) : ℚ) = n := by
    rw [Nat.div_add_mod']
  rw [Nat.cast_add, Nat.cast_mul, Nat.cast_pow, Nat.cast_ofNat] at hsplit
  rw [eq_div_iff hpow, add_mul, div_mul_cancel₀ _ hpow, hsplit]

/-- What is written with so many places is read as that many parts of one. -/
theorem readFixed_fixed {places : ℕ} (h : 0 < places) (n : ℕ) :
    readFixed (fixed places n) = some (n / 10 ^ places : ℚ) := by
  have hsign : sign (fixed places n) = (false, fixed places n) := sign_ofNat _ _
  rw [readFixed, hsign]
  simp only [split_fixed, readNat_ofNat, readNat_padLeft, length_fraction h, div_add_mod_div,
    Option.bind_eq_bind, Option.bind_some, Bool.false_eq_true, if_false]

theorem readFixed_minus {places : ℕ} (h : 0 < places) (n : ℕ) :
    readFixed ('-' :: fixed places n) = some (-(n / 10 ^ places : ℚ)) := by
  rw [readFixed, sign_minus]
  simp only [split_fixed, readNat_ofNat, readNat_padLeft, length_fraction h, div_add_mod_div,
    Option.bind_eq_bind, Option.bind_some, if_true]

end Decimal
