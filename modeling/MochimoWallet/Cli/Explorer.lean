import MochimoWallet.Cli.TagArg

/-!
# An operation's address

A node sends any text as the address of an operation. Forty hexadecimal digits are a tag, and its
destination is shown beside them; everything else is shown as escaped text. The digits are read two
bytes at a time by the general parser of numbers, which takes a plus sign before the digits of a
number: a pair of a sign and a digit passes for a byte (`SignedHex`), and that is the only text
which is shown with a destination and is not a tag (`explorer_address_shows_real_tags_iff`).
-/

namespace MochimoWallet.Cli

open Codec

/-! ## What is shown -/

def isBidi (c : Char) : Bool :=
  let n := c.toNat
  n = 0x061C || n = 0x200E || n = 0x200F || (0x2028 ≤ n && n ≤ 0x202E) || (0x2066 ≤ n && n ≤ 0x2069)

def isZeroWidth (c : Char) : Bool :=
  let n := c.toNat
  n = 0x00AD || n = 0x180E || (0x200B ≤ n && n ≤ 0x200D) || (0x2060 ≤ n && n ≤ 0x2064) || n = 0xFEFF

/-- A text with what could steer the terminal escaped. -/
def terminalText (value : Text) : Text :=
  value.flatMap fun c =>
    if Text.isControl c || isBidi c || isZeroWidth c || c = '\\' then Text.escapeDefault c else [c]

def destination (tag : Tag) : Except ReferenceError Text := tagToBase58 tag

/-- What is left of an address without one leading `0x`. -/
def addressBody (text : Text) : Text := (text.stripPrefix hexPrefix).getD text

def ledgerAddressNote : Text :=
  "  (a 40-byte ledger address: tag then the key's hash -- not a destination)".toList

/-- Slice `i` of two bytes, read as a number. -/
def readPair (body : Text) (i : ℕ) : Option UInt8 :=
  (Text.get body (i * 2) (i * 2 + 2)).bind Hex.u8FromStrRadix

def readTag (body : Text) : Option Tag := do
  let bytes ← (List.range addrTagLen).mapM (readPair body)
  if h : bytes.length = addrTagLen then some ⟨bytes, h⟩ else none

def explorerAddress (text : Text) : Text :=
  let body := addressBody text
  if body.byteLen = addrTagLen * 2 then
    match readTag body with
    | none => terminalText text
    | some tag =>
      match destination tag with
      | .ok d => d ++ "  (".toList ++ terminalText text ++ ")".toList
      | .error _ => terminalText text
  else if body.byteLen = addrLen * 2 then terminalText text ++ ledgerAddressNote
  else terminalText text

/-! ## What passes for twenty bytes -/

/-- What the parser takes for a byte: two digits, or a plus sign and one. -/
def Reads (p : Char × Char) : Prop := (Hex.isDigit p.1 = true ∨ p.1 = '+') ∧ Hex.isDigit p.2 = true

def flatten (pairs : List (Char × Char)) : Text := pairs.flatMap fun p => [p.1, p.2]

/-- Twenty pairs that read, a sign among them. -/
def SignedHex (body : Text) : Prop :=
  ∃ pairs : List (Char × Char), pairs.length = addrTagLen ∧ body = flatten pairs ∧
    (∀ p ∈ pairs, Reads p) ∧ ∃ p ∈ pairs, p.1 = '+'

theorem Reads.ascii {p : Char × Char} (h : Reads p) : p.1.toNat < 128 ∧ p.2.toNat < 128 := by
  refine ⟨?_, Hex.isDigit_ascii h.2⟩
  rcases h.1 with hdigit | hplus
  · exact Hex.isDigit_ascii hdigit
  · rw [hplus]
    decide

theorem byteLen_flatten {pairs : List (Char × Char)} (h : ∀ p ∈ pairs, Reads p) :
    Text.byteLen (flatten pairs) = pairs.length * 2 := by
  induction pairs with
  | nil => rfl
  | cons p pairs ih =>
    rw [List.forall_mem_cons] at h
    obtain ⟨hfst, hsnd⟩ := h.1.ascii
    have hcons : flatten (p :: pairs) = p.1 :: p.2 :: flatten pairs := rfl
    rw [hcons, Text.byteLen_cons, Text.byteLen_cons, ih h.2, Text.utf8Size_ascii hfst,
      Text.utf8Size_ascii hsnd, List.length_cons]
    omega

theorem spelled_flatten (pairs : List (Char × Char)) : Hex.spelled (flatten pairs) =
    pairs.map fun p => .ofNat (16 * (Hex.digit p.1).getD 0 + (Hex.digit p.2).getD 0) := by
  induction pairs with
  | nil => rfl
  | cons p pairs ih =>
    have hcons : flatten (p :: pairs) = p.1 :: p.2 :: flatten pairs := rfl
    rw [hcons, Hex.spelled, ih, List.map_cons]

/-- Two bytes read as a number exactly where they are such a pair. -/
theorem u8FromStrRadix_pair {t : Text} {v : UInt8} (hlen : t.byteLen = 2) :
    Hex.u8FromStrRadix t = some v ↔ ∃ p, Reads p ∧ t = [p.1, p.2] ∧
      v = .ofNat (16 * (Hex.digit p.1).getD 0 + (Hex.digit p.2).getD 0) := by
  have hplus : Hex.digit '+' = none := by decide
  constructor
  · intro h
    rcases t with _ | ⟨a, _ | ⟨b, _ | ⟨c, t⟩⟩⟩
    · cases hlen
    · rw [Hex.u8FromStrRadix_single] at h
      · cases h
      rcases ha : Hex.digit a with _ | x
      · rfl
      · have hsize := Text.utf8Size_ascii (Hex.isDigit_ascii (Hex.isDigit_iff.mpr ⟨x, ha⟩))
        rw [Text.byteLen_cons, hsize] at hlen
        cases hlen
    · rw [Hex.u8FromStrRadix_two] at h
      split_ifs at h with hsign
      · obtain ⟨y, hb, rfl⟩ := Option.map_eq_some_iff.mp h
        refine ⟨(a, b), ⟨.inr hsign, Hex.isDigit_iff.mpr ⟨y, hb⟩⟩, rfl, ?_⟩
        rw [hsign, hplus, hb]
        simp
      · obtain ⟨x, ha, h⟩ := Option.bind_eq_some_iff.mp h
        obtain ⟨y, hb, rfl⟩ := Option.map_eq_some_iff.mp h
        refine ⟨(a, b), ⟨.inl (Hex.isDigit_iff.mpr ⟨x, ha⟩), Hex.isDigit_iff.mpr ⟨y, hb⟩⟩, rfl, ?_⟩
        rw [ha, hb]
        rfl
    · have ha := a.utf8Size_pos
      have hb := b.utf8Size_pos
      have hc := c.utf8Size_pos
      rw [Text.byteLen_cons, Text.byteLen_cons, Text.byteLen_cons] at hlen
      omega
  · rintro ⟨⟨a, b⟩, ⟨hfst, hsnd⟩, rfl, rfl⟩
    obtain ⟨y, hb⟩ := Hex.isDigit_iff.mp hsnd
    rw [Hex.u8FromStrRadix_two]
    by_cases hsign : a = '+'
    · rw [if_pos hsign, hsign, hplus, hb]
      simp
    · obtain ⟨x, ha⟩ := Hex.isDigit_iff.mp (hfst.resolve_right hsign)
      rw [if_neg hsign, ha, hb]
      rfl

/-- Reading `n` slices takes `n` pairs off the text. -/
theorem readPairs_eq_some {body : Text} {n : ℕ} {bytes : Bytes} :
    (List.range n).mapM (readPair body) = some bytes ↔ ∃ pairs rest, body = flatten pairs ++ rest ∧
      pairs.length = n ∧ (∀ p ∈ pairs, Reads p) ∧ bytes = Hex.spelled (flatten pairs) := by
  induction n generalizing bytes with
  | zero =>
    constructor
    · rintro ⟨⟩
      exact ⟨[], body, rfl, rfl, fun _ hp => (by cases hp), rfl⟩
    · rintro ⟨pairs, rest, -, hlen, -, rfl⟩
      obtain rfl := List.length_eq_zero_iff.mp hlen
      rfl
  | succ n ih =>
    have hsnoc : ∀ (pairs : List (Char × Char)) p, flatten (pairs ++ [p]) = flatten pairs ++ [p.1, p.2] := by
      intro pairs p
      rw [flatten, List.flatMap_append, List.flatMap_singleton]
      rfl
    have hslice : ∀ p, Reads p → Text.byteLen [p.1, p.2] = 2 := fun p hp => by
      have hone : ∀ q ∈ [p], Reads q := by simpa using hp
      have hflat := byteLen_flatten hone
      exact hflat
    rw [List.range_succ, List.mapM_append]
    simp only [List.mapM_cons, List.mapM_nil, Option.pure_def, Option.bind_eq_bind,
      Option.bind_eq_some_iff, Option.some.injEq]
    constructor
    · rintro ⟨vs, hvs, ws, ⟨v, hv, _, rfl, rfl⟩, rfl⟩
      obtain ⟨pairs, rest, rfl, hlen, hreads, rfl⟩ := ih.mp hvs
      obtain ⟨t, ht, hparse⟩ := Option.bind_eq_some_iff.mp hv
      obtain ⟨a, b, hsplit, ha, htlen⟩ := Text.get_eq_some.mp ht
      obtain ⟨p, hp, rfl, rfl⟩ := (u8FromStrRadix_pair (by rw [htlen]; omega)).mp hparse
      have hprefix := Text.append_inj_byteLen hsplit (by rw [byteLen_flatten hreads, hlen, ha])
      refine ⟨pairs ++ [p], b, ?_, ?_, ?_, ?_⟩
      · rw [hsnoc, hprefix.2, List.append_assoc]
      · rw [List.length_append, hlen, List.length_singleton]
      · intro q hq
        rcases List.mem_append.mp hq with hq | hq
        · exact hreads q hq
        · rwa [List.mem_singleton.mp hq]
      · rw [spelled_flatten, spelled_flatten, List.map_append, List.map_singleton]
    · rintro ⟨pairs, rest, rfl, hlen, hreads, rfl⟩
      rcases List.eq_nil_or_concat' pairs with rfl | ⟨front, p, rfl⟩
      · cases hlen
      have hlen' : front.length = n := by
        rw [List.length_append, List.length_singleton] at hlen
        exact Nat.succ.inj hlen
      have hp : Reads p := hreads p (List.mem_append_right _ List.mem_cons_self)
      have hfront : ∀ q ∈ front, Reads q := fun q hq => hreads q (List.mem_append_left _ hq)
      have hget : Text.get (flatten (front ++ [p]) ++ rest) (n * 2) (n * 2 + 2) = some [p.1, p.2] := by
        refine Text.get_eq_some.mpr ⟨flatten front, rest, ?_, ?_, ?_⟩
        · rw [hsnoc, List.append_assoc]
        · rw [byteLen_flatten hfront, hlen']
        · rw [hslice p hp]
          omega
      refine ⟨_, ih.mpr ⟨front, [p.1, p.2] ++ rest, ?_, hlen', hfront, rfl⟩, _,
        ⟨.ofNat (16 * (Hex.digit p.1).getD 0 + (Hex.digit p.2).getD 0), ?_, _, rfl, rfl⟩, ?_⟩
      · rw [hsnoc, List.append_assoc]
      · rw [readPair, hget]
        exact (u8FromStrRadix_pair (hslice p hp)).mpr ⟨p, hp, rfl, rfl⟩
      · rw [spelled_flatten, spelled_flatten, List.map_append, List.map_singleton]

/-! ## What is shown of an address -/

/-- The text passes for twenty bytes. -/
def Readable (body : Text) : Prop :=
  ∃ pairs : List (Char × Char), pairs.length = addrTagLen ∧ body = flatten pairs ∧ ∀ p ∈ pairs, Reads p

theorem readTag_eq_some {body : Text} {tag : Tag} (hlen : body.byteLen = addrTagLen * 2) :
    readTag body = some tag ↔ Readable body ∧ tag.1 = Hex.spelled body := by
  unfold readTag
  rw [Option.bind_eq_bind, Option.bind_eq_some_iff]
  constructor
  · rintro ⟨bytes, hbytes, htag⟩
    obtain ⟨pairs, rest, rfl, hpairs, hreads, rfl⟩ := readPairs_eq_some.mp hbytes
    split_ifs at htag
    cases htag
    rw [Text.byteLen_append, byteLen_flatten hreads, hpairs] at hlen
    obtain rfl := Text.eq_nil_of_byteLen (by omega : Text.byteLen rest = 0)
    rw [List.append_nil]
    exact ⟨⟨pairs, hpairs, rfl, hreads⟩, rfl⟩
  · rintro ⟨⟨pairs, hpairs, rfl, hreads⟩, htag⟩
    refine ⟨_, readPairs_eq_some.mpr ⟨pairs, [], (List.append_nil _).symm, hpairs, hreads, rfl⟩, ?_⟩
    rw [← htag, dif_pos tag.2]

/-- Forty characters in twenty pairs. -/
theorem exists_flatten {n : ℕ} {t : Text} (h : t.length = n * 2) :
    ∃ pairs : List (Char × Char), pairs.length = n ∧ t = flatten pairs := by
  induction n generalizing t with
  | zero => exact ⟨[], rfl, List.length_eq_zero_iff.mp (by simpa using h)⟩
  | succ n ih =>
    rcases t with _ | ⟨a, _ | ⟨b, t⟩⟩
    · simp at h
    · have hone : 1 = (n + 1) * 2 := h
      omega
    · obtain ⟨pairs, hpairs, rfl⟩ := ih (by simpa [Nat.succ_mul] using h : t.length = n * 2)
      exact ⟨(a, b) :: pairs, congrArg (· + 1) hpairs, rfl⟩

/-- What passes for twenty bytes is forty digits, or has a sign among them. -/
theorem readable_iff {body : Text} : Readable body ↔ BareHex body ∨ SignedHex body := by
  constructor
  · rintro ⟨pairs, hpairs, rfl, hreads⟩
    by_cases hplus : ∃ p ∈ pairs, p.1 = '+'
    · exact .inr ⟨pairs, hpairs, rfl, hreads, hplus⟩
    · refine .inl ⟨?_, fun c hc => ?_⟩
      · have hlen : (flatten pairs).length = pairs.length * 2 := by
          rw [flatten, List.length_flatMap]
          simp
        rw [hlen, hpairs]
      · obtain ⟨p, hp, hc⟩ := List.mem_flatMap.mp hc
        obtain ⟨hfst, hsnd⟩ := hreads p hp
        rcases List.mem_cons.mp hc with rfl | hc
        · exact hfst.resolve_right fun h => hplus ⟨p, hp, h⟩
        · rwa [List.mem_singleton.mp hc]
  · rintro (⟨hlen, hdigits⟩ | ⟨pairs, hpairs, rfl, hreads, -⟩)
    · obtain ⟨pairs, hpairs, rfl⟩ := exists_flatten hlen
      refine ⟨pairs, hpairs, rfl, fun p hp => ⟨.inl (hdigits _ ?_), hdigits _ ?_⟩⟩
      · exact List.mem_flatMap.mpr ⟨p, hp, List.mem_cons_self⟩
      · exact List.mem_flatMap.mpr ⟨p, hp, List.mem_cons_of_mem _ List.mem_cons_self⟩
    · exact ⟨pairs, hpairs, rfl, hreads⟩

theorem SignedHex.not_bareHex {body : Text} (h : SignedHex body) : ¬ BareHex body := by
  obtain ⟨pairs, -, rfl, -, p, hp, hplus⟩ := h
  intro hbare
  have hdigit := hbare.2 p.1 (List.mem_flatMap.mpr ⟨p, hp, List.mem_cons_self⟩)
  rw [hplus] at hdigit
  exact absurd hdigit (by decide)

/-- The page shows the destination of a tag beside the text. -/
def PrintsDestination (text : Text) (tag : Tag) : Prop :=
  ∃ d, tagToBase58 tag = .ok d ∧
    explorerAddress text = d ++ "  (".toList ++ terminalText text ++ ")".toList

/-- The page shows the text escaped, and at most says that it is a ledger address. -/
def ShownAsText (text : Text) : Prop :=
  explorerAddress text = terminalText text ∨ explorerAddress text = terminalText text ++ ledgerAddressNote

theorem Readable.byteLen {body : Text} (h : Readable body) : body.byteLen = addrTagLen * 2 := by
  obtain ⟨pairs, hpairs, rfl, hreads⟩ := h
  rw [byteLen_flatten hreads, hpairs]

theorem Readable.prints {text : Text} (h : Readable (addressBody text)) :
    ∃ tag : Tag, tag.1 = Hex.spelled (addressBody text) ∧ PrintsDestination text tag := by
  have hspelled : (Hex.spelled (addressBody text)).length = addrTagLen := by
    obtain ⟨pairs, hpairs, hbody, -⟩ := h
    rw [hbody, spelled_flatten, List.length_map, hpairs]
  obtain ⟨d, hd⟩ := tagToBase58_ok ⟨_, hspelled⟩
  refine ⟨⟨_, hspelled⟩, rfl, d, hd, ?_⟩
  have hread := (readTag_eq_some h.byteLen).mpr ⟨h, (rfl : (⟨_, hspelled⟩ : Tag).1 = _)⟩
  unfold explorerAddress
  rw [if_pos h.byteLen, hread]
  dsimp only
  rw [destination, hd]

theorem shownAsText_of_not_readable {text : Text} (h : ¬ Readable (addressBody text)) :
    ShownAsText text := by
  unfold ShownAsText explorerAddress
  by_cases hlen : (addressBody text).byteLen = addrTagLen * 2
  · rw [if_pos hlen]
    rcases hread : readTag (addressBody text) with _ | tag
    · exact .inl rfl
    · exact absurd ((readTag_eq_some hlen).mp hread).1 h
  · rw [if_neg hlen]
    by_cases hledger : (addressBody text).byteLen = addrLen * 2
    · rw [if_pos hledger]
      exact .inr rfl
    · rw [if_neg hledger]
      exact .inl rfl

/-- Text that is only escaped has no destination beside it: that would be longer. -/
theorem ShownAsText.not_prints {text : Text} (h : ShownAsText text) (tag : Tag) :
    ¬ PrintsDestination text tag := by
  rintro ⟨d, hd, hprints⟩
  have hmax : d.length ≤ 31 := (length_base58Encode (tagPayload tag).2 hd).2
  have hpage : (explorerAddress text).length = d.length + 3 + (terminalText text).length + 1 := by
    rw [hprints]
    simp
    omega
  have hnote : ledgerAddressNote.length = 74 := by decide
  rcases h with h | h
  · rw [h] at hpage
    omega
  · rw [h, List.length_append, hnote] at hpage
    omega

/-- A page shows one destination. -/
theorem PrintsDestination.unique {text : Text} {tag tag' : Tag} (h : PrintsDestination text tag)
    (h' : PrintsDestination text tag') : tag = tag' := by
  obtain ⟨d, hd, hpage⟩ := h
  obtain ⟨d', hd', hpage'⟩ := h'
  rw [hpage] at hpage'
  obtain ⟨hleft, -⟩ := List.append_inj' hpage' rfl
  obtain ⟨hleft, -⟩ := List.append_inj' hleft rfl
  obtain ⟨rfl, -⟩ := List.append_inj' hleft rfl
  have hread := tagFromBase58_eq_ok.mpr hd
  rw [tagFromBase58_eq_ok.mpr hd'] at hread
  cases hread
  rfl

/-- A destination is shown for forty digits alone, and it is the one of the tag they spell. -/
def ShowsRealTags (text : Text) : Prop :=
  ((∃ tag, PrintsDestination text tag) ↔ BareHex (addressBody text)) ∧
  (∀ tag, PrintsDestination text tag → tag.1 = Hex.spelled (addressBody text)) ∧
  (¬ BareHex (addressBody text) → ShownAsText text)

theorem SignedHex.not_showsRealTags {text : Text} (h : SignedHex (addressBody text)) :
    ¬ ShowsRealTags text := by
  rintro ⟨hiff, -, -⟩
  obtain ⟨tag, -, hprints⟩ := (readable_iff.mpr (.inr h)).prints
  exact h.not_bareHex (hiff.mp ⟨tag, hprints⟩)

/-- The page keeps the promise for every text but the ones a sign passes in. -/
theorem explorer_address_shows_real_tags_iff (text : Text) :
    ShowsRealTags text ↔ ¬ SignedHex (addressBody text) := by
  refine ⟨fun h hsigned => hsigned.not_showsRealTags h, fun hsigned => ?_⟩
  by_cases hbare : BareHex (addressBody text)
  · obtain ⟨tag, htag, hprints⟩ := (readable_iff.mpr (.inl hbare)).prints
    refine ⟨iff_of_true ⟨tag, hprints⟩ hbare, fun tag' hprints' => ?_, fun hnot => absurd hbare hnot⟩
    rw [← htag, hprints'.unique hprints]
  · have hshown : ShownAsText text := by
      refine shownAsText_of_not_readable fun hread => ?_
      exact (readable_iff.mp hread).elim hbare hsigned
    refine ⟨iff_of_false ?_ hbare, fun tag hprints => absurd hprints (hshown.not_prints tag), fun _ => hshown⟩
    rintro ⟨tag, hprints⟩
    exact hshown.not_prints tag hprints

/-- Twenty signs and digits. -/
def signedAddress : Text := "0x+f+f+f+f+f+f+f+f+f+f+f+f+f+f+f+f+f+f+f+f".toList

/-- A text that is no tag is shown with a destination. -/
theorem signed_address_shown : ¬ ShowsRealTags signedAddress := by
  have hbody : addressBody signedAddress = flatten (List.replicate addrTagLen ('+', 'f')) := by decide
  refine SignedHex.not_showsRealTags (hbody ▸ ⟨_, rfl, rfl, fun p hp => ?_, ('+', 'f'), by decide, rfl⟩)
  obtain rfl := List.eq_of_mem_replicate hp
  exact ⟨.inr rfl, by decide⟩

end MochimoWallet.Cli
