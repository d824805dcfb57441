import MochimoWallet.Cli.Explorer
import MochimoWallet.Lib.Escape

/-!
# A node's text on the terminal

What a node sends is shown with the characters that could steer a terminal spelled out, and the
backslash with them. So a page says which characters it stands for (`terminalText_injective`), a
text is shown as its parts are, and a backslash on a page was written by an escape, of one
character: none that a node sends is left to begin one (`backslash_of_escape`).
-/

namespace MochimoWallet.Cli

open PrefixCode

/-- The characters that are spelled. -/
def isEscaped (c : Char) : Bool := Text.isControl c || isBidi c || isZeroWidth c || c = '\\'

theorem terminalText_eq (t : Text) : terminalText t = encode (Text.escapeWhere isEscaped) t := rfl

theorem isPrefixCode_shown : IsPrefixCode (Text.escapeWhere isEscaped) :=
  Text.isPrefixCode_escapeWhere rfl

theorem terminalText_injective : Function.Injective terminalText := isPrefixCode_shown.encode_injective

theorem terminalText_append (a b : Text) : terminalText (a ++ b) = terminalText a ++ terminalText b :=
  encode_append a b

/-- The place after `u` is where the escape of one character of `s` begins. -/
def StartsEscape (s u v : Text) : Prop :=
  ∃ before c after, s = before ++ c :: after ∧ isEscaped c = true ∧ u = terminalText before ∧
    '\\' :: v = Text.escapeDefault c ++ terminalText after

/-- The place after `u` is the second of the two by which a backslash of `s` is written. -/
def EndsDoubled (s u v : Text) : Prop :=
  ∃ before after, s = before ++ '\\' :: after ∧ u = terminalText before ++ ['\\'] ∧
    v = terminalText after

/-- A backslash that is shown was put there by one character's escape. -/
theorem backslash_of_escape {s u v : Text} (h : terminalText s = u ++ '\\' :: v) :
    StartsEscape s u v ∨ EndsDoubled s u v := by
  rw [terminalText_eq] at h
  obtain ⟨before, c, after, p, q, rfl, hword, rfl, rfl⟩ := encode_eq_append_cons h
  have hmem : '\\' ∈ Text.escapeWhere isEscaped c := hword ▸ List.mem_append_right p List.mem_cons_self
  have hescaped : isEscaped c = true := by
    by_contra hnot
    rw [Text.escapeWhere, if_neg hnot, List.mem_singleton] at hmem
    subst hmem
    exact hnot rfl
  rw [Text.escapeWhere, if_pos hescaped] at hword
  have hstart (hp : p = []) : StartsEscape (before ++ c :: after) (terminalText before ++ p)
      (q ++ terminalText after) := by
    subst hp
    exact ⟨before, c, after, rfl, hescaped, List.append_nil _, by rw [hword]; rfl⟩
  rcases Text.escapeDefault_cases c with ⟨hself, hne⟩ | ⟨hdouble, rfl⟩ | ⟨t, ht, hnot⟩
  · rw [hself] at hword
    have hc : '\\' ∈ [c] := hword ▸ List.mem_append_right p List.mem_cons_self
    exact absurd (List.mem_singleton.mp hc).symm hne
  · rw [hdouble] at hword
    rcases p with _ | ⟨x, _ | ⟨y, p⟩⟩
    · exact .inl (hstart rfl)
    · obtain ⟨rfl, hq⟩ := List.cons.inj hword
      obtain ⟨-, rfl⟩ := List.cons.inj hq
      exact .inr ⟨before, after, rfl, rfl, rfl⟩
    · have hlen := congrArg List.length hword
      simp at hlen
  · rw [ht] at hword
    rcases p with _ | ⟨x, p⟩
    · exact .inl (hstart rfl)
    · obtain ⟨-, hp⟩ := List.cons.inj hword
      exact absurd (hp ▸ List.mem_append_right p List.mem_cons_self) hnot

/-- Text that is shown alike is alike, a text is shown as its parts are, and each backslash that is
shown begins the escape of one character or is the second of those that a backslash is written by. -/
theorem terminal_text_unambiguous :
    (∀ a b, terminalText a = terminalText b → a = b) ∧
      (∀ s u v, terminalText s = u ++ '\\' :: v → StartsEscape s u v ∨ EndsDoubled s u v) ∧
      ∀ a b, terminalText (a ++ b) = terminalText a ++ terminalText b :=
  ⟨fun _ _ h => terminalText_injective h, fun _ _ _ h => backslash_of_escape h, terminalText_append⟩

/-- A backslash is written by two, and the second of them begins nothing. -/
theorem second_backslash_starts_none :
    ¬ ((∀ a b, terminalText a = terminalText b → a = b) ∧
      (∀ s u v, terminalText s = u ++ '\\' :: v → StartsEscape s u v) ∧
      ∀ a b, terminalText (a ++ b) = terminalText a ++ terminalText b) := by
  rintro ⟨-, hstarts, -⟩
  obtain ⟨before, c, after, hs, -, hu, -⟩ := hstarts ['\\'] ['\\'] [] rfl
  rcases before with _ | ⟨d, before⟩
  · cases hu
  · simp at hs

end MochimoWallet.Cli
