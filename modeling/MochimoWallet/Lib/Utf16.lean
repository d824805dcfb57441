import MochimoWallet.Lib.Text

/-!
# Text in sixteen-bit units

A character past the first 65536 is two units, a high surrogate and a low one, and any other is one
unit that is no surrogate. So text can be cut into pieces of units wherever no piece ends on a high
surrogate (`utf16_split`), and a piece that does end on one is completed by the next unit
(`utf16_pair`). Decoding is by the units read so far: an unpaired surrogate is no character, and what
follows it is read on.
-/

namespace Text

open Codec

abbrev isHigh (u : UInt16) : Prop := 0xD800 ≤ u.toNat ∧ u.toNat < 0xDC00
abbrev isLow (u : UInt16) : Prop := 0xDC00 ≤ u.toNat ∧ u.toNat < 0xE000

/-- The units of a character. -/
def utf16EncodeChar (c : Char) : List UInt16 :=
  if c.toNat < 0x10000 then [.ofNat c.toNat]
  else [.ofNat (0xD800 + (c.toNat - 0x10000) / 0x400), .ofNat (0xDC00 + (c.toNat - 0x10000) % 0x400)]

def utf16 (t : Text) : List UInt16 := t.flatMap utf16EncodeChar

/-- The characters some units are, and nothing for each surrogate without its partner. -/
def decodeUtf16 : List UInt16 → List (Option Char)
  | [] => []
  | u :: us =>
    if ¬ (isHigh u ∨ isLow u) then some (.ofNat u.toNat) :: decodeUtf16 us
    else if isLow u then none :: decodeUtf16 us
    else
      match us with
      | [] => [none]
      | v :: vs =>
        if isLow v then
          some (.ofNat (0x10000 + (u.toNat - 0xD800) * 0x400 + (v.toNat - 0xDC00))) :: decodeUtf16 vs
        else none :: decodeUtf16 (v :: vs)

/-! ## A character's units -/

theorem char_range (c : Char) : c.toNat < 0xD800 ∨ (0xDFFF < c.toNat ∧ c.toNat < 0x110000) := c.valid

/-- A character is a unit that is no surrogate, or a pair of them. -/
theorem utf16EncodeChar_cases (c : Char) :
    (∃ u, utf16EncodeChar c = [u] ∧ ¬ (isHigh u ∨ isLow u) ∧ u.toNat = c.toNat) ∨
      ∃ h l, utf16EncodeChar c = [h, l] ∧ isHigh h ∧ isLow l ∧
        c.toNat = 0x10000 + (h.toNat - 0xD800) * 0x400 + (l.toNat - 0xDC00) := by
  have hrange := char_range c
  unfold utf16EncodeChar
  split
  · rename_i hlt
    have hu : (UInt16.ofNat c.toNat).toNat = c.toNat := by
      rw [UInt16.toNat_ofNat']
      exact Nat.mod_eq_of_lt hlt
    refine .inl ⟨_, rfl, ?_, hu⟩
    rw [isHigh, isLow, hu]
    omega
  · rename_i hge
    have hh : (UInt16.ofNat (0xD800 + (c.toNat - 0x10000) / 0x400)).toNat =
        0xD800 + (c.toNat - 0x10000) / 0x400 := by
      rw [UInt16.toNat_ofNat']
      omega
    have hl : (UInt16.ofNat (0xDC00 + (c.toNat - 0x10000) % 0x400)).toNat =
        0xDC00 + (c.toNat - 0x10000) % 0x400 := by
      rw [UInt16.toNat_ofNat']
      omega
    refine .inr ⟨_, _, rfl, ?_, ?_, ?_⟩
    · rw [isHigh, hh]
      omega
    · rw [isLow, hl]
      omega
    · rw [hh, hl]
      omega

theorem utf16_cons (c : Char) (t : Text) : utf16 (c :: t) = utf16EncodeChar c ++ utf16 t := rfl

/-- What is encoded is decoded. -/
theorem decodeUtf16_utf16 (t : Text) : decodeUtf16 (utf16 t) = t.map some := by
  induction t with
  | nil => rfl
  | cons c t ih =>
    rw [utf16_cons]
    obtain ⟨u, hu, hplain, hc⟩ | ⟨h, l, hu, hh, hl, hc⟩ := utf16EncodeChar_cases c
    · rw [hu, List.singleton_append, decodeUtf16.eq_def]
      simp only [hplain, not_false_eq_true, ↓reduceIte, ih, hc, List.map_cons, Char.ofNat_toNat]
    · have hnot : ¬ isLow h := fun hlow => by omega
      have hsurrogate : isHigh h ∨ isLow h := .inl hh
      rw [hu, List.cons_append, List.singleton_append, decodeUtf16.eq_def]
      dsimp only
      rw [if_neg (not_not.mpr hsurrogate), if_neg hnot, if_pos hl, ih, ← hc, Char.ofNat_toNat,
        List.map_cons]

theorem utf16_append (t u : Text) : utf16 (t ++ u) = utf16 t ++ utf16 u := List.flatMap_append

theorem utf16_ne_nil {t : Text} (h : t ≠ []) : utf16 t ≠ [] := by
  intro hnil
  have hback := decodeUtf16_utf16 t
  rw [hnil] at hback
  exact h (List.map_eq_nil_iff.mp hback.symm)

/-! ## Cutting units into pieces -/

/-- A piece that does not end on a high surrogate is whole characters, and so is the rest. -/
theorem utf16_split {t : Text} {p rest : List UInt16} (h : utf16 t = p ++ rest)
    (hlast : ∀ u ∈ p.getLast?, ¬ isHigh u) :
    ∃ t₁ t₂, t = t₁ ++ t₂ ∧ p = utf16 t₁ ∧ rest = utf16 t₂ := by
  induction t generalizing p with
  | nil =>
    obtain ⟨rfl, rfl⟩ := List.append_eq_nil_iff.mp h.symm
    exact ⟨[], [], rfl, rfl, rfl⟩
  | cons c t ih =>
    rcases p with _ | ⟨u, p⟩
    · exact ⟨[], c :: t, rfl, rfl, h.symm⟩
    rw [utf16_cons] at h
    obtain ⟨v, hv, -⟩ | ⟨a, b, hv, ha, -⟩ := utf16EncodeChar_cases c
    · rw [hv, List.singleton_append, List.cons_append, List.cons.injEq] at h
      obtain ⟨rfl, h⟩ := h
      have hlast' : ∀ u ∈ p.getLast?, ¬ isHigh u := fun w hw => by
        rcases p with _ | ⟨x, p⟩
        · cases hw
        · exact hlast w (by rwa [List.getLast?_cons_cons])
      obtain ⟨t₁, t₂, rfl, rfl, rfl⟩ := ih h hlast'
      exact ⟨c :: t₁, t₂, rfl, by rw [utf16_cons, hv]; rfl, rfl⟩
    · rw [hv, List.cons_append, List.singleton_append, List.cons_append, List.cons.injEq] at h
      obtain ⟨rfl, h⟩ := h
      rcases p with _ | ⟨x, p⟩
      · exact absurd ha (hlast _ rfl)
      rw [List.cons_append, List.cons.injEq] at h
      obtain ⟨rfl, h⟩ := h
      have hlast' : ∀ u ∈ p.getLast?, ¬ isHigh u := fun w hw => by
        rcases p with _ | ⟨y, p⟩
        · cases hw
        · exact hlast w (by rwa [List.getLast?_cons_cons, List.getLast?_cons_cons])
      obtain ⟨t₁, t₂, rfl, rfl, rfl⟩ := ih h hlast'
      exact ⟨c :: t₁, t₂, rfl, by rw [utf16_cons, hv]; rfl, rfl⟩

/-- What follows a piece that ends on a high surrogate begins with the low one. -/
theorem utf16_pair {t : Text} {p rest : List UInt16} {u : UInt16} (h : utf16 t = p ++ u :: rest)
    (hu : isHigh u) : ∃ l rest', rest = l :: rest' ∧ isLow l := by
  induction t generalizing p with
  | nil => simp [utf16] at h
  | cons c t ih =>
    rw [utf16_cons] at h
    obtain ⟨v, hv, hplain, -⟩ | ⟨a, b, hv, ha, hb, -⟩ := utf16EncodeChar_cases c
    · rw [hv, List.singleton_append] at h
      rcases p with _ | ⟨x, p⟩
      · rw [List.nil_append, List.cons.injEq] at h
        obtain ⟨rfl, -⟩ := h
        exact absurd (.inl hu) hplain
      · rw [List.cons_append, List.cons.injEq] at h
        exact ih h.2
    · rw [hv, List.cons_append, List.singleton_append] at h
      rcases p with _ | ⟨x, _ | ⟨y, p⟩⟩
      · rw [List.nil_append, List.cons.injEq] at h
        exact ⟨b, _, h.2.symm, hb⟩
      · simp only [List.cons_append, List.nil_append, List.cons.injEq] at h
        obtain ⟨-, rfl, -⟩ := h
        omega
      · simp only [List.cons_append, List.cons.injEq] at h
        exact ih h.2.2

/-! ## Sizes -/

/-- The bytes of what may be a character. -/
def sizeOf : Option Char → ℕ
  | some c => c.utf8Size
  | none => 0

/-- A unit that is no surrogate is three bytes at most. -/
theorem utf8Size_plain {u : UInt16} (h : ¬ (isHigh u ∨ isLow u)) : (Char.ofNat u.toNat).utf8Size ≤ 3 := by
  have hlt := u.toNat_lt
  have hvalid : u.toNat.isValidChar := by
    rw [isHigh, isLow] at h
    rw [Nat.isValidChar]
    omega
  have hval : (Char.ofNat u.toNat).toNat = u.toNat := by
    rw [Char.ofNat, dif_pos hvalid]
    rfl
  have hnot : (Char.ofNat u.toNat).utf8Size ≠ 4 := fun hfour => by
    have hbig := Char.utf8Size_eq_four_iff.mp hfour
    rw [UInt32.lt_iff_toNat_lt] at hbig
    change 0xffff < (Char.ofNat u.toNat).toNat at hbig
    omega
  have hle := Char.utf8Size_le_four (Char.ofNat u.toNat)
  omega

/-- A unit is three bytes of text at most. -/
theorem size_decodeUtf16 (us : List UInt16) : ((decodeUtf16 us).map sizeOf).sum ≤ 3 * us.length := by
  fun_induction decodeUtf16 us with
  | case1 => simp
  | case2 u us hplain ih =>
    have hsize := utf8Size_plain hplain
    simp only [List.map_cons, List.sum_cons, List.length_cons, sizeOf]
    omega
  | case3 u us hsurrogate hlow ih =>
    simp only [List.map_cons, List.sum_cons, List.length_cons, sizeOf]
    omega
  | case4 u hsurrogate hlow => simp [sizeOf]
  | case5 u hsurrogate hhigh v vs hlow ih =>
    have hsize := Char.utf8Size_le_four
      (.ofNat (0x10000 + (u.toNat - 0xD800) * 0x400 + (v.toNat - 0xDC00)))
    simp only [List.map_cons, List.sum_cons, List.length_cons, sizeOf]
    omega
  | case6 u hsurrogate hhigh v vs hlow ih =>
    simp only [List.map_cons, List.sum_cons, List.length_cons, sizeOf] at ih ⊢
    omega

/-- A text is three bytes a unit at most. -/
theorem length_utf8_le (t : Text) : t.utf8.length ≤ 3 * (utf16 t).length := by
  have hsize := size_decodeUtf16 (utf16 t)
  have hlen : t.utf8.length = ((t.map some).map sizeOf).sum := by
    induction t with
    | nil => rfl
    | cons c t ih =>
      have hrest := ih (size_decodeUtf16 _)
      rw [utf8_cons, List.length_append, String.length_utf8EncodeChar, hrest]
      rfl
  rwa [hlen, ← decodeUtf16_utf16]

end Text
