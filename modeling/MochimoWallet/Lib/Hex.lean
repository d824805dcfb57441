import MochimoWallet.Lib.Text

/-!
# Hexadecimal text

Two digits a byte, the high half first. `ofBytes` writes lower case; `spelled` is what the digits
of either case spell.
-/

namespace Hex

open Codec

/-- The value of a digit, in either case. -/
def digit (c : Char) : Option ℕ :=
  if '0' ≤ c ∧ c ≤ '9' then some (c.toNat - 48)
  else if 'a' ≤ c ∧ c ≤ 'f' then some (c.toNat - 87)
  else if 'A' ≤ c ∧ c ≤ 'F' then some (c.toNat - 55)
  else none

def isDigit (c : Char) : Bool := (digit c).isSome

/-- The lower-case digit of a value. -/
def char (d : ℕ) : Char := .ofNat (if d < 10 then 48 + d else 87 + d)

def ofBytes (b : Bytes) : Text := b.flatMap fun x => [char (x.toNat / 16), char (x.toNat % 16)]

/-- The bytes some digits spell, a last one without a partner left out. -/
def spelled : Text → Bytes
  | a :: b :: t => .ofNat (16 * (digit a).getD 0 + (digit b).getD 0) :: spelled t
  | _ => []

/-- A byte in base 16, as the general parser of numbers reads it: a plus sign may go before. -/
def u8FromStrRadix (src : Text) : Option UInt8 :=
  if src = [] ∨ src = ['+'] ∨ src = ['-'] then none
  else
    (((src.stripPrefix ['+']).getD src).foldlM (fun value c => do
      let d ← digit c
      if value * 16 + d ≤ 255 then some (value * 16 + d) else none) 0).map UInt8.ofNat

/-- A digit is an ASCII character. -/
theorem digit_range {c : Char} {d : ℕ} (h : digit c = some d) :
    d < 16 ∧ (48 ≤ c.toNat ∧ c.toNat ≤ 57 ∨ 97 ≤ c.toNat ∧ c.toNat ≤ 102 ∨
      65 ≤ c.toNat ∧ c.toNat ≤ 70) := by
  have hle : ∀ a b : Char, a ≤ b ↔ a.toNat ≤ b.toNat := fun _ _ => Iff.rfl
  simp only [digit, hle] at h
  have h0 : '0'.toNat = 48 := rfl
  have h9 : '9'.toNat = 57 := rfl
  have ha : 'a'.toNat = 97 := rfl
  have hf : 'f'.toNat = 102 := rfl
  have hA : 'A'.toNat = 65 := rfl
  have hF : 'F'.toNat = 70 := rfl
  rw [h0, h9, ha, hf, hA, hF] at h
  split_ifs at h <;> cases h <;> omega

theorem isDigit_iff {c : Char} : isDigit c = true ↔ ∃ d, digit c = some d := Option.isSome_iff_exists

theorem isDigit_ascii {c : Char} (h : isDigit c = true) : c.toNat < 128 := by
  obtain ⟨d, hd⟩ := isDigit_iff.mp h
  obtain ⟨-, hrange⟩ := digit_range hd
  omega

theorem isDigit_not_whitespace {c : Char} (h : isDigit c = true) : Text.isWhitespace c = false := by
  obtain ⟨d, hd⟩ := isDigit_iff.mp h
  obtain ⟨-, hrange⟩ := digit_range hd
  simp [Text.isWhitespace]
  omega

theorem digit_char : ∀ d < 16, digit (char d) = some d := by decide

@[simp] theorem length_ofBytes (b : Bytes) : (ofBytes b).length = 2 * b.length := by
  induction b with
  | nil => rfl
  | cons x b ih =>
    rw [ofBytes, List.flatMap_cons, List.length_append, List.length_cons, ← ofBytes, ih]
    simp
    omega

theorem isDigit_of_mem_ofBytes {b : Bytes} : ∀ c ∈ ofBytes b, isDigit c = true := by
  intro c hc
  obtain ⟨x, -, hc⟩ := List.mem_flatMap.mp hc
  have hhi : x.toNat / 16 < 16 := by
    have hx := x.toNat_lt
    omega
  have hlo : x.toNat % 16 < 16 := Nat.mod_lt _ (by decide)
  simp only [List.mem_cons, List.not_mem_nil, or_false] at hc
  rcases hc with rfl | rfl
  · exact isDigit_iff.mpr ⟨_, digit_char _ hhi⟩
  · exact isDigit_iff.mpr ⟨_, digit_char _ hlo⟩

/-- One character is a number only where it is a digit. -/
theorem u8FromStrRadix_single {c : Char} (h : digit c = none) : u8FromStrRadix [c] = none := by
  unfold u8FromStrRadix
  by_cases hsign : [c] = [] ∨ [c] = ['+'] ∨ [c] = ['-']
  · exact if_pos hsign
  rw [if_neg hsign]
  have hplus : ¬ Text.startsWith [c] ['+'] = true := by
    intro hstart
    obtain ⟨r, hr⟩ := Text.startsWith_iff.mp hstart
    obtain ⟨rfl, -⟩ := List.cons.inj hr
    exact hsign (.inr (.inl rfl))
  rw [Text.stripPrefix_eq_none hplus]
  simp [h]

/-- Two characters are a number where both are digits, or the second is and the first is a plus. -/
theorem u8FromStrRadix_two (a b : Char) : u8FromStrRadix [a, b] =
    if a = '+' then (digit b).map UInt8.ofNat
    else (digit a).bind fun x => (digit b).map fun y => UInt8.ofNat (16 * x + y) := by
  unfold u8FromStrRadix
  rw [if_neg (by simp)]
  by_cases hplus : a = '+'
  · subst hplus
    rw [if_pos rfl]
    have hstrip : Text.stripPrefix ['+', b] ['+'] = some [b] := Text.stripPrefix_append ['+'] [b]
    rw [hstrip]
    rcases hb : digit b with _ | y
    · simp [hb]
    · have hy := (digit_range hb).1
      simp [hb]
      omega
  · rw [if_neg hplus]
    have hstart : ¬ Text.startsWith [a, b] ['+'] = true := by
      intro hstart
      obtain ⟨r, hr⟩ := Text.startsWith_iff.mp hstart
      exact hplus (List.cons.inj hr).1
    rw [Text.stripPrefix_eq_none hstart]
    rcases ha : digit a with _ | x
    · simp [ha]
    rcases hb : digit b with _ | y
    · simp [ha, hb]
    · have hx := (digit_range ha).1
      have hy := (digit_range hb).1
      have hfits : x * 16 + y ≤ 255 := by omega
      have hfst : x ≤ 255 := by omega
      simp [ha, hb, hfits, hfst, Nat.mul_comm]

end Hex
