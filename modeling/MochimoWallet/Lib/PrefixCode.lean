import Mathlib.Data.List.Basic

/-!
# Prefix codes

A text is coded letter by letter, each letter as a word of its own. Where no word begins another,
a text is read back off its code (`encode_injective`), and what stands at a place of the code was
put there by one letter (`encode_eq_append_cons`).
-/

namespace PrefixCode

variable {α β : Type*}

/-- The words of a text, one after the other. -/
def encode (word : α → List β) (text : List α) : List β := text.flatMap word

/-- No word is empty, and none begins another. -/
structure IsPrefixCode (word : α → List β) : Prop where
  ne_nil : ∀ a, word a ≠ []
  eq_of_prefix : ∀ {a b}, word a <+: word b → a = b

variable {word : α → List β}

/-- A code that has a reader: whatever follows a word, its letter is read off the front. -/
theorem IsPrefixCode.of_reader (next : List β → Option α) (hne : ∀ a, word a ≠ [])
    (hread : ∀ a rest, next (word a ++ rest) = some a) : IsPrefixCode word := by
  refine ⟨hne, fun {a b} hprefix => ?_⟩
  obtain ⟨rest, hrest⟩ := hprefix
  have hb := hread b []
  rw [List.append_nil, ← hrest, hread a rest] at hb
  exact Option.some.inj hb

theorem encode_cons (a : α) (text : List α) : encode word (a :: text) = word a ++ encode word text :=
  List.flatMap_cons

theorem encode_append (s t : List α) : encode word (s ++ t) = encode word s ++ encode word t :=
  List.flatMap_append

/-- The first letter is known by its word, and what follows it is left. -/
theorem IsPrefixCode.cancel (h : IsPrefixCode word) {a b : α} {u v : List β}
    (heq : word a ++ u = word b ++ v) : a = b ∧ u = v := by
  have hab : a = b := by
    rcases List.prefix_or_prefix_of_prefix ⟨u, heq⟩ ⟨v, rfl⟩ with hprefix | hprefix
    · exact h.eq_of_prefix hprefix
    · exact (h.eq_of_prefix hprefix).symm
  subst hab
  exact ⟨rfl, List.append_cancel_left heq⟩

theorem IsPrefixCode.encode_ne_nil (h : IsPrefixCode word) {text : List α} (hne : text ≠ []) :
    encode word text ≠ [] := by
  obtain ⟨a, text, rfl⟩ := List.exists_cons_of_ne_nil hne
  rw [encode_cons]
  exact List.append_ne_nil_of_left_ne_nil (h.ne_nil a) _

theorem IsPrefixCode.encode_injective (h : IsPrefixCode word) : Function.Injective (encode word) := by
  intro s
  induction s with
  | nil =>
    intro t heq
    by_contra hne
    exact h.encode_ne_nil (Ne.symm hne) heq.symm
  | cons a s ih =>
    intro t heq
    cases t with
    | nil => exact absurd heq (h.encode_ne_nil (List.cons_ne_nil a s))
    | cons b t =>
      rw [encode_cons, encode_cons] at heq
      obtain ⟨rfl, hrest⟩ := h.cancel heq
      rw [ih hrest]

/-- What stands at a place of a code stands in the word of one letter. -/
theorem encode_eq_append_cons {text : List α} {u v : List β} {x : β}
    (h : encode word text = u ++ x :: v) : ∃ before a after p q, text = before ++ a :: after ∧
      word a = p ++ x :: q ∧ u = encode word before ++ p ∧ v = q ++ encode word after := by
  induction text generalizing u with
  | nil =>
    have hnil : [] = u ++ x :: v := h
    exact absurd hnil.symm (by simp)
  | cons a text ih =>
    rw [encode_cons] at h
    rcases List.append_eq_append_iff.mp h with ⟨w, hu, htext⟩ | ⟨w, ha, hv⟩
    · obtain ⟨before, b, after, p, q, rfl, hb, rfl, rfl⟩ := ih htext
      refine ⟨a :: before, b, after, p, q, rfl, hb, ?_, rfl⟩
      rw [hu, encode_cons, List.append_assoc]
    · cases w with
      | nil =>
        obtain ⟨before, b, after, p, q, rfl, hb, hp, rfl⟩ := ih (u := []) hv.symm
        refine ⟨a :: before, b, after, p, q, rfl, hb, ?_, rfl⟩
        rw [encode_cons, List.append_assoc, ← hp, ha, List.append_nil, List.append_nil]
      | cons y w =>
        obtain ⟨rfl, rfl⟩ := List.cons.inj hv
        exact ⟨[], a, text, u, w, rfl, ha, rfl, rfl⟩

end PrefixCode
