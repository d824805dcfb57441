import Mathlib.Algebra.BigOperators.Group.List.Basic
import Mathlib.Algebra.Order.Group.Int
import Mathlib.Algebra.Order.Group.Unbundled.Abs
import MochimoWallet.Lib.Decimal

/-!
# Signed 128-bit integers

An `I128` is an integer that its word holds. A sum of them is `none` where a partial sum is not one
(`sum`), and what bounds the terms and their number bounds every partial sum (`sum_eq`). A decimal is
read digit by digit (`parse`), and is what its digits are worth where these are few (`parse_eq`).
-/

/-- A signed 128-bit integer. -/
structure I128 where
  toInt : ℤ
  le : -2 ^ 127 ≤ toInt
  lt : toInt < 2 ^ 127
  deriving DecidableEq

namespace I128

open Text Decimal

def zero : I128 := ⟨0, by decide, by decide⟩

/-- The word that holds an integer. -/
def ofInt (z : ℤ) : Option I128 :=
  if h : -2 ^ 127 ≤ z ∧ z < 2 ^ 127 then some ⟨z, h.1, h.2⟩ else none

def ofU64 (n : UInt64) : I128 :=
  have hn : n.toNat < 2 ^ 64 := n.toNat_lt
  ⟨n.toNat, by omega, by omega⟩

def checkedAdd (a b : I128) : Option I128 := ofInt (a.toInt + b.toInt)

/-- The sum, added up in order. -/
def sum (l : List I128) : Option I128 := l.foldlM checkedAdd zero

/-- The sum of the integers. -/
def total (l : List I128) : ℤ := (l.map toInt).sum

def unsignedAbs (a : I128) : ℕ := a.toInt.natAbs

/-- One more digit, added to what is read of a number or, where it is negative, taken from it. -/
def push (minus : Bool) (a : I128) (c : Char) : Option I128 := do
  let d ← digit 10 c
  let tenfold ← ofInt (a.toInt * 10)
  ofInt (if minus then tenfold.toInt - d else tenfold.toInt + d)

/-- A number in decimal, as the general parser of numbers reads it: a sign may go before. -/
def parse (src : Text) : Option I128 :=
  if src = [] ∨ src = ['+'] ∨ src = ['-'] then none
  else
    match src.stripPrefix ['-'] with
    | some digits => digits.foldlM (push true) zero
    | none => ((src.stripPrefix ['+']).getD src).foldlM (push false) zero

@[simp] theorem toInt_zero : zero.toInt = 0 := rfl

theorem ofInt_of_bounds {z : ℤ} (hle : -2 ^ 127 ≤ z) (hlt : z < 2 ^ 127) :
    ofInt z = some ⟨z, hle, hlt⟩ := dif_pos ⟨hle, hlt⟩

/-! ## Sums -/

theorem foldlM_checkedAdd {l : List I128} {b : ℤ} (hb : ∀ a ∈ l, |a.toInt| ≤ b) {acc : I128}
    (hacc : |acc.toInt| + l.length * b < 2 ^ 127) :
    ∃ s, l.foldlM checkedAdd acc = some s ∧ s.toInt = acc.toInt + total l := by
  induction l generalizing acc with
  | nil => exact ⟨acc, rfl, (Int.add_zero _).symm⟩
  | cons a l ih =>
    rw [List.forall_mem_cons] at hb
    have hb0 : 0 ≤ b := (abs_nonneg _).trans hb.1
    have hrest : 0 ≤ (l.length : ℤ) * b := Int.mul_nonneg (Int.natCast_nonneg _) hb0
    have habs : |acc.toInt + a.toInt| ≤ |acc.toInt| + |a.toInt| := abs_add_le _ _
    rw [List.length_cons, Nat.cast_add, Nat.cast_one, Int.add_mul, Int.one_mul] at hacc
    have hsum : |acc.toInt + a.toInt| + l.length * b < 2 ^ 127 := by
      have := hb.1
      omega
    obtain ⟨hle, hlt⟩ : -2 ^ 127 ≤ acc.toInt + a.toInt ∧ acc.toInt + a.toInt < 2 ^ 127 := by
      have hself := le_abs_self (acc.toInt + a.toInt)
      have hneg := neg_abs_le (acc.toInt + a.toInt)
      omega
    obtain ⟨s, hs, hvalue⟩ := @ih hb.2 ⟨_, hle, hlt⟩ hsum
    refine ⟨s, ?_, ?_⟩
    · rw [List.foldlM_cons, checkedAdd, ofInt_of_bounds hle hlt]
      exact hs
    · rw [hvalue, total, total, List.map_cons, List.sum_cons, Int.add_assoc]

/-- Terms that are small enough for their number have a sum, and it is the sum of the integers. -/
theorem sum_eq {l : List I128} {b : ℤ} (hb : ∀ a ∈ l, |a.toInt| ≤ b)
    (hl : (l.length : ℤ) * b < 2 ^ 127) : ∃ s, sum l = some s ∧ s.toInt = total l := by
  have hacc : |zero.toInt| + l.length * b < 2 ^ 127 := by
    rw [toInt_zero, abs_zero, Int.zero_add]
    exact hl
  obtain ⟨s, hs, hvalue⟩ := foldlM_checkedAdd hb hacc
  exact ⟨s, hs, hvalue.trans (Int.zero_add _)⟩

/-! ## Digits -/

theorem digit_of_isDigit {c : Char} (h : c.isDigit = true) : digit 10 c = some (c.toNat - '0'.toNat) := by
  obtain ⟨hlo, hhi⟩ := Char.isDigit_iff_toNat.mp h
  have hd : c.toNat - 48 < 10 := by
    have hle := Nat.sub_le_sub_right hhi 48
    exact Nat.lt_succ_of_le hle
  have hrange : '0' ≤ c ∧ c ≤ '9' := ⟨hlo, hhi⟩
  rw [digit, if_pos hrange]
  exact if_pos (decide_eq_true hd)

/-- What is read of a number, one digit further. -/
theorem push_eq {minus : Bool} {a : I128} {n : ℕ} {c : Char} (hc : c.isDigit = true)
    (ha : a.toInt = signed minus n) (hn : 10 * n + (c.toNat - '0'.toNat) < 2 ^ 127) :
    ∃ b, push minus a c = some b ∧ b.toInt = signed minus (10 * n + (c.toNat - '0'.toNat)) := by
  unfold push
  rw [digit_of_isDigit hc]
  generalize c.toNat - '0'.toNat = d at hn ⊢
  have hten : ofInt (a.toInt * 10) = ofInt (signed minus (10 * n)) := by
    rw [ha]
    cases minus <;> simp only [signed, Bool.false_eq_true, if_false, if_true] <;> congr 1 <;> omega
  have hbounds (m : ℕ) (hm : m < 2 ^ 127) : -2 ^ 127 ≤ signed minus m ∧ signed minus m < 2 ^ 127 := by
    have habs := abs_signed minus m
    omega
  have hvalue : (if minus then signed minus (10 * n) - (d : ℤ) else signed minus (10 * n) + d) =
      signed minus (10 * n + d) := by
    cases minus <;> simp only [signed, Bool.false_eq_true, if_false, if_true] <;> omega
  obtain ⟨hle, hlt⟩ := hbounds (10 * n) (by omega)
  obtain ⟨hle', hlt'⟩ := hbounds (10 * n + d) hn
  refine ⟨⟨_, hle', hlt'⟩, ?_, rfl⟩
  simp only [Option.bind_eq_bind, Option.bind_some, hten, ofInt_of_bounds hle hlt, hvalue,
    ofInt_of_bounds hle' hlt']

/-- The digits that are pushed are added on the side of the sign. -/
theorem foldlM_push {minus : Bool} {t : Text} (ht : ∀ c ∈ t, c.isDigit = true) {a : I128} {n : ℕ}
    (ha : a.toInt = signed minus n) (hn : Nat.ofDigitChars 10 t n < 2 ^ 127) :
    ∃ v, t.foldlM (push minus) a = some v ∧ v.toInt = signed minus (Nat.ofDigitChars 10 t n) := by
  induction t generalizing a n with
  | nil => exact ⟨a, rfl, ha⟩
  | cons c t ih =>
    rw [List.forall_mem_cons] at ht
    rw [Nat.ofDigitChars_cons] at hn ⊢
    -- What has been read so far is no more than the whole.
    have hle : 10 * n + (c.toNat - '0'.toNat) < 2 ^ 127 := by
      rw [Nat.ofDigitChars_eq_ofDigitChars_zero] at hn
      have hpos : 0 < 10 ^ t.length := Nat.pow_pos (by decide)
      have hpart := Nat.le_mul_of_pos_left (10 * n + (c.toNat - '0'.toNat)) hpos
      omega
    obtain ⟨b, hb, hvalue⟩ := push_eq ht.1 ha hle
    obtain ⟨v, hv, hfinal⟩ := ih ht.2 hvalue hn
    exact ⟨v, by rw [List.foldlM_cons, hb]; exact hv, hfinal⟩

/-- The parser takes a sign off as `sign` does, and pushes the digits after it. -/
theorem parse_sign {src : Text} (h : isDigits (sign src).2 = true) :
    parse src = (sign src).2.foldlM (push (sign src).1) zero := by
  obtain ⟨hne, hdigits⟩ := isDigits_iff.mp h
  have hnot (c : Char) (hc : c.isDigit = false) : ¬ c ∈ (sign src).2 := fun hmem => by
    rw [hdigits c hmem] at hc
    cases hc
  unfold parse
  rcases hstrip : src.stripPrefix ['-'] with _ | digits
  · have hsign : sign src = (false, src) := by rw [sign, hstrip]
    rw [hsign] at hne hnot ⊢
    have hplus : src.stripPrefix ['+'] = none := stripPrefix_eq_none fun hstart => by
      obtain ⟨r, rfl⟩ := startsWith_iff.mp hstart
      exact hnot '+' rfl List.mem_cons_self
    have hsome : ¬ (src = [] ∨ src = ['+'] ∨ src = ['-']) := by
      rintro (rfl | rfl | rfl)
      · exact hne rfl
      · exact hnot '+' rfl List.mem_cons_self
      · exact hnot '-' rfl List.mem_cons_self
    rw [if_neg hsome, hplus]
    rfl
  · have hsign : sign src = (true, digits) := by rw [sign, hstrip]
    rw [hsign] at hne ⊢
    have hsome : ¬ (src = [] ∨ src = ['+'] ∨ src = ['-']) := by
      rintro (rfl | rfl | rfl)
      · cases hstrip
      · cases hstrip
      · cases hstrip
        exact hne rfl
    rw [if_neg hsome]

/-- Few enough digits, with a minus sign before them or none, are read as what they are worth. -/
theorem parse_eq {src : Text} (hdigits : isDigits (sign src).2 = true)
    (hvalue : value (sign src).2 < 2 ^ 127) :
    ∃ v, parse src = some v ∧ readInt src = some v.toInt ∧ v.toInt.natAbs = value (sign src).2 := by
  have hzero : zero.toInt = signed (sign src).1 0 := by
    cases (sign src).1 <;> rfl
  obtain ⟨v, hv, hint⟩ := foldlM_push (isDigits_iff.mp hdigits).2 hzero hvalue
  refine ⟨v, (parse_sign hdigits).trans hv, ?_, ?_⟩
  · rw [readInt, readNat, if_pos hdigits, Option.map_some, hint]
    rfl
  · rw [hint, abs_signed]
    rfl

end I128
