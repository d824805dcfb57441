import MochimoWallet.Lib.Bytes
import Mathlib.Data.List.DropRight

/-!
# Text

A text is the list of its characters, Unicode scalar values, and `utf8` is its image in bytes.
The operations are the ones a systems language's strings have, under the same names:
white space is Unicode's `White_Space`, and case is ignored for ASCII letters alone.
-/

abbrev Text := List Char

namespace Text

open Codec

/-- Unicode's `White_Space`. -/
def isWhitespace (c : Char) : Bool :=
  let n := c.toNat
  (9 ≤ n && n ≤ 13) || n = 0x20 || n = 0x85 || n = 0xA0 || n = 0x1680 ||
    (0x2000 ≤ n && n ≤ 0x200A) || n = 0x2028 || n = 0x2029 || n = 0x202F || n = 0x205F || n = 0x3000

def isAscii (t : Text) : Bool := t.all fun c => c.toNat < 128

def utf8 (t : Text) : Bytes := t.flatMap String.utf8EncodeChar

def trimEnd (t : Text) : Text := t.rdropWhile isWhitespace

def trim (t : Text) : Text := trimEnd (t.dropWhile isWhitespace)

def startsWith (t p : Text) : Bool := p.isPrefixOf t

/-- What follows `p`, where the text begins with it. -/
def stripPrefix (t p : Text) : Option Text := if t.startsWith p then some (t.drop p.length) else none

/-- Unicode's `Cc`. -/
def isControl (c : Char) : Bool := c.toNat < 0x20 || (0x7F ≤ c.toNat && c.toNat < 0xA0)

/-- A character as source code spells it. -/
def escapeDefault (c : Char) : Text :=
  if c = '\t' then ['\\', 't']
  else if c = '\r' then ['\\', 'r']
  else if c = '\n' then ['\\', 'n']
  else if c = '\'' ∨ c = '"' ∨ c = '\\' then ['\\', c]
  else if 0x20 ≤ c.toNat ∧ c.toNat ≤ 0x7E then [c]
  else "\\u\x7b".toList ++ (Nat.toDigits 16 c.toNat) ++ "\x7d".toList

/-- The pieces between white space, none of them empty. -/
def splitWhitespace (t : Text) : List Text := (t.splitOnP isWhitespace).filter (· ≠ [])

/-- The pieces between the characters that are `c`, which may be empty. -/
def split (c : Char) (t : Text) : List Text := t.splitOnP (· = c)

def lowerAscii (c : Char) : Char := if 'A' ≤ c ∧ c ≤ 'Z' then .ofNat (c.toNat + 32) else c

def eqIgnoreAsciiCase (a b : Text) : Bool := a.map lowerAscii = b.map lowerAscii

/-- A number in decimal. -/
def ofNat (n : ℕ) : Text := (toString n).toList

def stripSuffix (t p : Text) : Option Text :=
  if p.isSuffixOf t then some (t.take (t.length - p.length)) else none

/-- The lines, each without its line feed and one carriage return before that. -/
def lines (t : Text) : List Text :=
  let pieces := split '\n' t
  pieces.dropLast.map (fun l => (stripSuffix l ['\r']).getD l) ++
    pieces.getLast?.toList.filter (· ≠ [])

def digit (radix : ℕ) (c : Char) : Option ℕ :=
  let d := if '0' ≤ c ∧ c ≤ '9' then some (c.toNat - 48)
    else if 'a' ≤ c ∧ c ≤ 'z' then some (c.toNat - 87)
    else if 'A' ≤ c ∧ c ≤ 'Z' then some (c.toNat - 55)
    else none
  d.filter (· < radix)

/-- A number in decimal, as the general parser of numbers reads it: a plus sign may go before. -/
def parseU64 (src : Text) : Option UInt64 :=
  if src = [] ∨ src = ['+'] ∨ src = ['-'] then none
  else
    (((src.stripPrefix ['+']).getD src).foldlM (fun value c => do
      let d ← digit 10 c
      if value * 10 + d < 2 ^ 64 then some (value * 10 + d) else none) 0).map UInt64.ofNat

/-! ## Pieces -/

/-- Pieces without the separator are what their joining splits into. -/
theorem split_intercalate {c : Char} {ts : List Text} (hts : ∀ t ∈ ts, c ∉ t) (hne : ts ≠ []) :
    split c ([c].intercalate ts) = ts :=
  List.splitOn_intercalate c hts hne

theorem mem_intercalate {c d : Char} {ts : List Text} (h : d ∈ [c].intercalate ts) :
    d = c ∨ ∃ t ∈ ts, d ∈ t := by
  induction ts with
  | nil => cases h
  | cons t ts ih =>
    rcases ts with _ | ⟨u, ts⟩
    · rw [List.intercalate_singleton] at h
      exact .inr ⟨t, List.mem_cons_self, h⟩
    · rw [List.intercalate_cons_cons] at h
      rcases List.mem_append.mp h with h | h
      · rcases List.mem_append.mp h with h | h
        · exact .inr ⟨t, List.mem_cons_self, h⟩
        · exact .inl (List.mem_singleton.mp h)
      · rcases ih h with h | ⟨v, hv, h⟩
        · exact .inl h
        · exact .inr ⟨v, List.mem_cons_of_mem _ hv, h⟩

theorem intercalate_split (c : Char) (t : Text) : [c].intercalate (split c t) = t :=
  List.intercalate_splitOn c

/-! ## Bytes of a text -/

def byteLen (t : Text) : ℕ := (t.map Char.utf8Size).sum

/-- The text before a byte and the text from it on, where a character begins there. -/
def splitAtByte : Text → ℕ → Option (Text × Text)
  | t, 0 => some ([], t)
  | [], _ + 1 => none
  | c :: t, n + 1 =>
    if c.utf8Size ≤ n + 1 then
      (splitAtByte t (n + 1 - c.utf8Size)).map fun p => (c :: p.1, p.2)
    else none

/-- The slice from byte `i` to byte `j`, where both are at characters. -/
def get (t : Text) (i j : ℕ) : Option Text :=
  (splitAtByte t i).bind fun p => (splitAtByte p.2 (j - i)).map Prod.fst

theorem splitAtByte_zero (t : Text) : splitAtByte t 0 = some ([], t) := by
  cases t <;> rfl

theorem splitAtByte_cons {c : Char} (t : Text) {n : ℕ} (h : c.utf8Size ≤ n) :
    splitAtByte (c :: t) n = (splitAtByte t (n - c.utf8Size)).map fun p => (c :: p.1, p.2) := by
  rcases n with _ | n
  · exact absurd h (Nat.not_le.mpr c.utf8Size_pos)
  · exact if_pos h

theorem byteLen_cons (c : Char) (t : Text) : byteLen (c :: t) = c.utf8Size + byteLen t := List.sum_cons

/-- A text of no bytes is empty. -/
theorem eq_nil_of_byteLen {t : Text} (h : byteLen t = 0) : t = [] := by
  rcases t with _ | ⟨c, t⟩
  · rfl
  · have hpos := c.utf8Size_pos
    rw [byteLen_cons] at h
    omega

theorem byteLen_append (t u : Text) : byteLen (t ++ u) = byteLen t + byteLen u := by
  rw [byteLen, List.map_append, List.sum_append]
  rfl

theorem length_le_byteLen (t : Text) : t.length ≤ byteLen t := by
  induction t with
  | nil => exact le_rfl
  | cons c t ih =>
    have hpos := c.utf8Size_pos
    rw [byteLen_cons, List.length_cons]
    omega

theorem splitAtByte_eq_some {t a b : Text} {n : ℕ} :
    splitAtByte t n = some (a, b) ↔ t = a ++ b ∧ byteLen a = n := by
  induction t generalizing n a with
  | nil =>
    rcases n with _ | n
    · rw [splitAtByte_zero, Option.some.injEq, Prod.mk.injEq]
      constructor
      · rintro ⟨rfl, rfl⟩
        exact ⟨rfl, rfl⟩
      · rintro ⟨h, -⟩
        obtain ⟨rfl, rfl⟩ := List.append_eq_nil_iff.mp h.symm
        exact ⟨rfl, rfl⟩
    · refine iff_of_false (fun h => by cases h) ?_
      rintro ⟨h, hlen⟩
      obtain ⟨rfl, -⟩ := List.append_eq_nil_iff.mp h.symm
      cases hlen
  | cons c t ih =>
    rcases Nat.eq_zero_or_pos n with rfl | hn
    · rw [splitAtByte_zero, Option.some.injEq, Prod.mk.injEq]
      constructor
      · rintro ⟨rfl, rfl⟩
        exact ⟨rfl, rfl⟩
      · rintro ⟨h, hlen⟩
        obtain rfl := eq_nil_of_byteLen hlen
        exact ⟨rfl, h⟩
    by_cases hsize : c.utf8Size ≤ n
    · rw [splitAtByte_cons t hsize, Option.map_eq_some_iff]
      constructor
      · rintro ⟨⟨a', b'⟩, h, hab⟩
        cases hab
        obtain ⟨rfl, hlen⟩ := ih.mp h
        refine ⟨rfl, ?_⟩
        rw [byteLen_cons, hlen, Nat.add_sub_of_le hsize]
      · rintro ⟨h, hlen⟩
        rcases a with _ | ⟨d, a⟩
        · exact absurd hlen hn.ne
        obtain ⟨rfl, rfl⟩ := List.cons.inj h
        rw [byteLen_cons] at hlen
        exact ⟨(a, b), ih.mpr ⟨rfl, by omega⟩, rfl⟩
    · have hnone : splitAtByte (c :: t) n = none := by
        rcases n with _ | n
        · exact absurd hn (Nat.lt_irrefl 0)
        · exact if_neg hsize
      rw [hnone]
      refine iff_of_false (fun h => by cases h) ?_
      rintro ⟨h, hlen⟩
      rcases a with _ | ⟨d, a⟩
      · exact absurd hlen hn.ne
      obtain ⟨rfl, -⟩ := List.cons.inj h
      rw [byteLen_cons] at hlen
      omega

/-- What a slice is. -/
theorem get_eq_some {t p : Text} {i j : ℕ} :
    get t i j = some p ↔ ∃ a b, t = a ++ (p ++ b) ∧ byteLen a = i ∧ byteLen p = j - i := by
  rw [get, Option.bind_eq_some_iff]
  constructor
  · rintro ⟨⟨a, r⟩, hr, hp⟩
    obtain ⟨⟨p', b⟩, hb, rfl⟩ := Option.map_eq_some_iff.mp hp
    obtain ⟨rfl, ha⟩ := splitAtByte_eq_some.mp hr
    obtain ⟨hsplit, hlen⟩ := splitAtByte_eq_some.mp hb
    exact ⟨a, b, congrArg (a ++ ·) hsplit, ha, hlen⟩
  · rintro ⟨a, b, rfl, ha, hlen⟩
    exact ⟨(a, p ++ b), splitAtByte_eq_some.mpr ⟨rfl, ha⟩,
      Option.map_eq_some_iff.mpr ⟨(p, b), splitAtByte_eq_some.mpr ⟨rfl, hlen⟩, rfl⟩⟩

/-- Two beginnings of a text that have as many bytes are one. -/
theorem append_inj_byteLen {a a' b b' : Text} (h : a ++ b = a' ++ b') (hlen : byteLen a = byteLen a') :
    a = a' ∧ b = b' := by
  have hsplit : splitAtByte (a ++ b) (byteLen a) = some (a', b') :=
    splitAtByte_eq_some.mpr ⟨h, hlen.symm⟩
  rw [splitAtByte_eq_some.mpr ⟨rfl, rfl⟩] at hsplit
  cases hsplit
  exact ⟨rfl, rfl⟩

/-! ## Beginnings -/

theorem startsWith_iff {t p : Text} : t.startsWith p = true ↔ ∃ r, t = p ++ r := by
  rw [startsWith, List.isPrefixOf_iff_prefix]
  exact ⟨fun ⟨r, h⟩ => ⟨r, h.symm⟩, fun ⟨r, h⟩ => ⟨r, h.symm⟩⟩

theorem stripPrefix_append (p r : Text) : stripPrefix (p ++ r) p = some r := by
  rw [stripPrefix, if_pos (startsWith_iff.mpr ⟨r, rfl⟩), List.drop_left]

theorem stripPrefix_eq_none {t p : Text} (h : ¬ t.startsWith p = true) : t.stripPrefix p = none :=
  if_neg h

/-- A text without white space is what it trims to. -/
theorem trim_eq_self {t : Text} (h : ∀ c ∈ t, isWhitespace c = false) : trim t = t := by
  have hstart : t.dropWhile isWhitespace = t := by
    rcases t with _ | ⟨c, t⟩
    · rfl
    · rw [List.dropWhile_cons_of_neg]
      simp [h c List.mem_cons_self]
  rw [trim, hstart, trimEnd, List.rdropWhile_eq_self_iff]
  exact fun hne => by simp [h _ (List.getLast_mem hne)]

/-- White space around a text that has none is dropped. -/
theorem trim_around {left t right : Text} (hleft : ∀ c ∈ left, isWhitespace c = true)
    (ht : ∀ c ∈ t, isWhitespace c = false) (hright : ∀ c ∈ right, isWhitespace c = true) :
    (left ++ t ++ right).trim = t := by
  have hstart : (left ++ (t ++ right)).dropWhile isWhitespace = (t ++ right).dropWhile isWhitespace :=
    List.dropWhile_append_of_pos hleft
  rw [trim, List.append_assoc, hstart]
  rcases t with _ | ⟨c, t⟩
  · rw [List.nil_append, List.dropWhile_eq_nil_iff.mpr hright]
    rfl
  · rw [List.cons_append, List.dropWhile_cons_of_neg (by simp [ht c List.mem_cons_self]),
      ← List.cons_append, trimEnd, List.rdropWhile, List.reverse_append,
      List.dropWhile_append_of_pos fun c hc => hright c (List.mem_reverse.mp hc)]
    refine (congrArg List.reverse (List.dropWhile_eq_self_iff.mpr fun hlen => ?_)).trans
      (List.reverse_reverse _)
    exact ne_true_of_eq_false (ht _ (List.mem_reverse.mp (List.getElem_mem hlen)))

/-! ## ASCII -/

theorem isAscii_iff {t : Text} : t.isAscii = true ↔ ∀ c ∈ t, c.toNat < 128 := by
  simp [isAscii]

@[simp] theorem utf8_cons (c : Char) (t : Text) : utf8 (c :: t) = String.utf8EncodeChar c ++ utf8 t :=
  rfl

theorem utf8Size_ascii {c : Char} (h : c.toNat < 128) : c.utf8Size = 1 := by
  have hle : c.val.toNat ≤ 127 := Nat.le_of_lt_succ h
  exact if_pos (UInt32.le_iff_toNat_le.mpr hle)

theorem utf8EncodeChar_ascii {c : Char} (h : c.toNat < 128) :
    String.utf8EncodeChar c = [.ofNat c.toNat] := by
  have hle : c.val.toNat ≤ 0x7f := Nat.le_of_lt_succ h
  rw [String.utf8EncodeChar, if_pos hle]
  rfl

/-- Every byte of a character that is not ASCII has its high bit set. -/
theorem utf8EncodeChar_high {c : Char} (h : 128 ≤ c.toNat) :
    ∀ b ∈ String.utf8EncodeChar c, 128 ≤ b.toNat := by
  have hc : ¬ c.val.toNat ≤ 0x7f := Nat.not_le.mpr h
  have hlt : c.val.toNat < 0x110000 := by
    rcases c.valid with hv | ⟨-, hv⟩
    · exact Nat.lt_trans hv (by decide)
    · exact hv
  intro b hb
  simp only [String.utf8EncodeChar, if_neg hc] at hb
  split_ifs at hb <;> simp only [List.mem_cons, List.not_mem_nil, or_false] at hb
  · rcases hb with rfl | rfl <;> simp <;> omega
  · rcases hb with rfl | rfl | rfl <;> simp <;> omega
  · rcases hb with rfl | rfl | rfl | rfl <;> simp <;> omega

/-- The image of an ASCII text is its characters. -/
theorem utf8_ascii {t : Text} (h : t.isAscii = true) : t.utf8 = t.map fun c => .ofNat c.toNat := by
  rw [isAscii_iff] at h
  induction t with
  | nil => rfl
  | cons c t ih =>
    rw [List.forall_mem_cons] at h
    rw [utf8_cons, utf8EncodeChar_ascii h.1, ih h.2]
    rfl

/-- An ASCII text is read off its image. -/
theorem utf8_ascii_inj {t u : Text} (ht : t.isAscii = true) (hu : u.isAscii = true)
    (h : t.utf8 = u.utf8) : t = u := by
  have hback : ∀ v : Text, v.isAscii = true → v.utf8.map (fun b => Char.ofNat b.toNat) = v := by
    intro v hv
    rw [utf8_ascii hv, List.map_map]
    refine (List.map_congr_left fun c hc => ?_).trans (List.map_id v)
    have hmod : c.toNat % 256 = c.toNat :=
      Nat.mod_eq_of_lt (Nat.lt_trans (isAscii_iff.mp hv c hc) (by decide))
    rw [Function.comp_apply, UInt8.toNat_ofNat', hmod, Char.ofNat_toNat]
    rfl
  rw [← hback t ht, h, hback u hu]

/-- A text whose image is ASCII is. -/
theorem isAscii_of_utf8 {t : Text} (h : ∀ b ∈ t.utf8, b.toNat < 128) : t.isAscii = true := by
  rw [isAscii_iff]
  intro c hc
  by_contra hhigh
  obtain ⟨b, hb⟩ := List.exists_mem_of_ne_nil _ (String.utf8EncodeChar_ne_nil (c := c))
  have hlow := h b (List.mem_flatMap.mpr ⟨c, hc, hb⟩)
  exact absurd hlow (Nat.not_lt.mpr (utf8EncodeChar_high (Nat.le_of_not_lt hhigh) b hb))

/-- The text that some bytes are, if they are any. -/
def fromUtf8 (b : Bytes) : Option Text := b.toByteArray.utf8Decode?.map Array.toList

theorem fromUtf8_eq_some {b : Bytes} {t : Text} : fromUtf8 b = some t ↔ b = t.utf8 := by
  have hencode : t.utf8Encode = t.utf8.toByteArray := rfl
  constructor
  · intro h
    obtain ⟨chars, hchars, rfl⟩ := Option.map_eq_some_iff.mp h
    have hsome : b.toByteArray.utf8Decode?.isSome = true := by rw [hchars]; rfl
    have hback := ByteArray.utf8Encode_get_utf8Decode? (b := b.toByteArray) (h := hsome)
    simp only [hchars, Option.get_some] at hback
    exact List.toByteArray_inj.mp (hback.symm.trans hencode)
  · rintro rfl
    rw [fromUtf8, ← hencode, List.utf8Decode?_utf8Encode, Option.map_some]

theorem utf8_append (t u : Text) : utf8 (t ++ u) = t.utf8 ++ u.utf8 := List.flatMap_append

theorem utf8_ne_nil {t : Text} (h : t ≠ []) : t.utf8 ≠ [] := by
  intro hnil
  obtain ⟨c, t, rfl⟩ := List.exists_cons_of_ne_nil h
  have hlen := congrArg List.length (List.append_eq_nil_iff.mp ((utf8_cons c t).symm.trans hnil)).1
  rw [String.length_utf8EncodeChar] at hlen
  exact absurd hlen (Nat.ne_of_gt c.utf8Size_pos)

end Text
