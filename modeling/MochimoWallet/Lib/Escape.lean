import MochimoWallet.Lib.Hex
import MochimoWallet.Lib.PrefixCode

/-!
# Escapes

A character is spelled as itself, as a backslash and a letter, or as a number in braces. Whatever
follows a spelling, the character is read off its front (`readSpelled_append`): spelling any set of
characters that has the backslash in it, and leaving the others as they are, is a prefix code.
-/

namespace Text

open PrefixCode

/-- The number some digits of base 16 spell. -/
def hexValue (ds : Text) : ℕ := ds.foldl (fun n c => 16 * n + (Hex.digit c).getD 0) 0

theorem digit_digitChar : ∀ d < 16, Hex.digit (Nat.digitChar d) = some d := by decide

theorem toDigits_hex (n : ℕ) : hexValue (Nat.toDigits 16 n) = n ∧
    ∀ c ∈ Nat.toDigits 16 n, Hex.isDigit c = true := by
  have hdigit {d : ℕ} (hd : d < 16) : Hex.isDigit (Nat.digitChar d) = true :=
    Hex.isDigit_iff.mpr ⟨d, digit_digitChar d hd⟩
  induction n using Nat.strong_induction_on with
  | _ n ih =>
    rw [Nat.toDigits_eq_if (by decide)]
    split
    · next hn =>
      refine ⟨?_, fun c hc => ?_⟩
      · rw [hexValue, List.foldl_cons, List.foldl_nil, digit_digitChar n hn, Option.getD_some,
          Nat.mul_zero, Nat.zero_add]
      · rw [List.mem_singleton.mp hc]
        exact hdigit hn
    · next hn =>
      obtain ⟨hvalue, hdigits⟩ := ih (n / 16) (by omega)
      have hmod : n % 16 < 16 := Nat.mod_lt n (by decide)
      refine ⟨?_, fun c hc => ?_⟩
      · rw [hexValue, List.foldl_append, ← hexValue, hvalue, List.foldl_cons, List.foldl_nil,
          digit_digitChar _ hmod, Option.getD_some]
        omega
      · rcases List.mem_append.mp hc with hc | hc
        · exact hdigits c hc
        · rw [List.mem_singleton.mp hc]
          exact hdigit hmod

/-- The character whose spelling a text begins with. -/
def readSpelled : Text → Option Char
  | [] => none
  | '\\' :: 't' :: _ => some '\t'
  | '\\' :: 'r' :: _ => some '\r'
  | '\\' :: 'n' :: _ => some '\n'
  | '\\' :: 'u' :: t => some (.ofNat (hexValue ((t.drop 1).takeWhile Hex.isDigit)))
  | '\\' :: c :: _ => some c
  | c :: _ => some c

theorem readSpelled_self {c : Char} (h : c ≠ '\\') (rest : Text) : readSpelled (c :: rest) = some c := by
  unfold readSpelled
  split <;> simp_all

theorem readSpelled_append (c : Char) (rest : Text) : readSpelled (escapeDefault c ++ rest) = some c := by
  unfold escapeDefault
  split_ifs with htab hreturn hfeed hquote hprint
  · rw [htab]
    rfl
  · rw [hreturn]
    rfl
  · rw [hfeed]
    rfl
  · rcases hquote with rfl | rfl | rfl <;> rfl
  · refine readSpelled_self (fun h => hquote (.inr (.inr h))) rest
  · obtain ⟨hvalue, hdigits⟩ := toDigits_hex c.toNat
    have hclose : ¬ Hex.isDigit '\x7d' = true := by decide
    have htake : (Nat.toDigits 16 c.toNat ++ ('\x7d' :: rest)).takeWhile Hex.isDigit =
        Nat.toDigits 16 c.toNat := by
      rw [List.takeWhile_append_of_pos hdigits, List.takeWhile_cons_of_neg hclose, List.append_nil]
    have hread : readSpelled ("\\u\x7b".toList ++ Nat.toDigits 16 c.toNat ++ "\x7d".toList ++ rest) =
        some (.ofNat (hexValue ((Nat.toDigits 16 c.toNat ++ ('\x7d' :: rest)).takeWhile Hex.isDigit))) := by
      rw [List.append_assoc, List.append_assoc]
      rfl
    rw [hread, htake, hvalue, Char.ofNat_toNat]

/-- A spelling that is not the character is a backslash and more, and no second backslash but the
one of the backslash. -/
theorem escapeDefault_cases (c : Char) : escapeDefault c = [c] ∧ c ≠ '\\' ∨
    escapeDefault c = ['\\', '\\'] ∧ c = '\\' ∨ ∃ t, escapeDefault c = '\\' :: t ∧ '\\' ∉ t := by
  unfold escapeDefault
  split_ifs with htab hreturn hfeed hquote hprint
  · exact .inr (.inr ⟨['t'], rfl, by decide⟩)
  · exact .inr (.inr ⟨['r'], rfl, by decide⟩)
  · exact .inr (.inr ⟨['n'], rfl, by decide⟩)
  · rcases hquote with rfl | rfl | rfl
    · exact .inr (.inr ⟨['\''], rfl, by decide⟩)
    · exact .inr (.inr ⟨['"'], rfl, by decide⟩)
    · exact .inr (.inl ⟨rfl, rfl⟩)
  · exact .inl ⟨rfl, fun h => hquote (.inr (.inr h))⟩
  · refine .inr (.inr ⟨"u\x7b".toList ++ Nat.toDigits 16 c.toNat ++ "\x7d".toList, rfl, fun h => ?_⟩)
    rw [List.append_assoc, List.mem_append, List.mem_append] at h
    rcases h with h | h | h
    · revert h
      decide
    · have hdigit := (toDigits_hex c.toNat).2 _ h
      revert hdigit
      decide
    · revert h
      decide

/-- A text with the characters of a set spelled. -/
def escapeWhere (p : Char → Bool) (c : Char) : Text := if p c then escapeDefault c else [c]

/-- Spelling a set of characters that has the backslash in it is a prefix code. -/
theorem isPrefixCode_escapeWhere {p : Char → Bool} (hp : p '\\' = true) : IsPrefixCode (escapeWhere p) := by
  refine .of_reader readSpelled (fun c => ?_) (fun c rest => ?_) <;> unfold escapeWhere
  · split
    · rcases escapeDefault_cases c with ⟨h, -⟩ | ⟨h, -⟩ | ⟨t, h, -⟩ <;> rw [h] <;> simp
    · simp
  · split
    · exact readSpelled_append c rest
    · next hc =>
      refine readSpelled_self (fun h => hc ?_) rest
      rw [h, hp]

end Text
