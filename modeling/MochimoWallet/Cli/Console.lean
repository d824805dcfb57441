import MochimoWallet.Cli.SecretLine
import MochimoWallet.Lib.Utf16

/-!
# The console (Windows)

The console answers in sixteen-bit units, and a read turns what it answers into UTF-8: it asks for a
third of the room it is offered less a unit, and for that unit where the answer ends on a high
surrogate, so no character is cut and nothing is held over. `Ctrl-Z` ends the input where it begins
a line, which the read before tells. A line is therefore read as it was typed, wherever the console
cuts it (`secret_line_however_it_arrives`).
-/

namespace MochimoWallet.Cli

open Codec Reader

/-- The most units that are asked for at once. -/
abbrev readUnits : ℕ := 4096

abbrev ctrlZ : UInt16 := 0x1A
abbrev lineFeedUnit : UInt16 := 0x0A

def invalidInput : IoError := ⟨.invalidInput, "invalid input parameter".toList⟩
def invalidData : IoError := ⟨.invalidData, "invalid data".toList⟩

/-- The console's input, and whether the next read begins a line. -/
structure Console (σ : Type) where
  input : σ
  atLineStart : Bool

/-- Characters written to a buffer behind what is written already; past its end there is nowhere to
write to. -/
def transcode (room : ℕ) (written : Bytes) : List (Option Char) → Reply IoError Bytes
  | [] => .ok written
  | none :: _ => .err invalidData
  | some c :: cs =>
    if room < written.length + c.utf8Size then .killed
    else transcode room (written ++ String.utf8EncodeChar c) cs

namespace Console

section
variable {σ : Type} (readConsoleW : ℕ → Call σ IoError (List UInt16))

/-- The units of one read, of which `want` were made room for. -/
def deliver (room want : ℕ) (units : List UInt16) (c : Console σ) : Reply IoError Bytes × Console σ :=
  if want < units.length then (.killed, c)
  else
    let atLineStart := (units.getLast?.map fun last => decide (last = lineFeedUnit)).getD c.atLineStart
    let c' : Console σ := { c with atLineStart }
    if c.atLineStart ∧ units.head? = some ctrlZ then (.ok [], c')
    else (transcode room [] (Text.decodeUtf16 units), c')

def read (room : ℕ) : Call (Console σ) IoError Bytes := fun c =>
  let want := min (room / 3) readUnits
  if want < 2 then (.err invalidInput, c)
  else
    match readConsoleW (want - 1) c.input with
    | (.ok units, input) =>
      if ∃ last ∈ units.getLast?, Text.isHigh last then
        if want < units.length + 1 then (.killed, { c with input })
        else
          match readConsoleW 1 input with
          | (.ok more, input) => deliver room want (units ++ more) { c with input }
          | (.err e, input) => (.err e, { c with input })
          | (.killed, input) => (.killed, { c with input })
      else deliver room want units { c with input }
    | (.err e, input) => (.err e, { c with input })
    | (.killed, input) => (.killed, { c with input })

end

end Console

/-! ## Characters in the buffer -/

/-- Characters there is room for are written. -/
theorem transcode_text {room : ℕ} {written : Bytes} (t : Text)
    (h : written.length + t.utf8.length ≤ room) :
    transcode room written (t.map some) = .ok (written ++ t.utf8) := by
  induction t generalizing written with
  | nil => simp [transcode, Text.utf8]
  | cons c t ih =>
    rw [Text.utf8_cons, List.length_append, String.length_utf8EncodeChar] at h
    rw [List.map_cons, transcode, if_neg (by omega), ih, Text.utf8_cons, List.append_assoc]
    rw [List.length_append, String.length_utf8EncodeChar]
    omega

/-- What there is room for is written within the room. -/
theorem transcode_bounded {room : ℕ} {written : Bytes} (cs : List (Option Char))
    (h : written.length + (cs.map Text.sizeOf).sum ≤ room) :
    transcode room written cs ≠ .killed ∧
      ∀ bytes, transcode room written cs = .ok bytes → bytes.length ≤ room := by
  induction cs generalizing written with
  | nil =>
    refine ⟨by simp [transcode], fun bytes hbytes => ?_⟩
    cases hbytes
    simpa using h
  | cons c cs ih =>
    cases c with
    | none =>
      refine ⟨by simp [transcode], fun bytes hbytes => ?_⟩
      simp [transcode] at hbytes
    | some c =>
      rw [List.map_cons, List.sum_cons, Text.sizeOf] at h
      rw [transcode, if_neg (by omega)]
      refine ih ?_
      rw [List.length_append, String.length_utf8EncodeChar]
      omega

/-! ## A line in pieces -/

section
variable {σ : Type} {readConsoleW : ℕ → Call σ IoError (List UInt16)} {left : σ → List UInt16}

/-- The console hands over what is left of a line in pieces, each of one unit or more and of no more
than are asked for. -/
def Splits (readConsoleW : ℕ → Call σ IoError (List UInt16)) (left : σ → List UInt16) : Prop :=
  ∀ asked s, 0 < asked → left s ≠ [] → ∃ piece s', readConsoleW asked s = (.ok piece, s') ∧
    piece ≠ [] ∧ piece.length ≤ asked ∧ left s = piece ++ left s'

example : Splits (fun asked (s : List UInt16) => (.ok (s.take asked), s.drop asked)) id := by
  intro asked s hasked hs
  have hne : s ≠ [] := hs
  exact ⟨s.take asked, s.drop asked, rfl, by simp [hne, Nat.ne_of_gt hasked], by simp, by simp⟩

theorem read_eq (c : Console σ) : Console.read readConsoleW phraseCapacity c =
    match readConsoleW 169 c.input with
    | (.ok units, input) =>
      if ∃ last ∈ units.getLast?, Text.isHigh last then
        if 170 < units.length + 1 then (.killed, { c with input })
        else
          match readConsoleW 1 input with
          | (.ok more, input) => Console.deliver phraseCapacity 170 (units ++ more) { c with input }
          | (.err e, input) => (.err e, { c with input })
          | (.killed, input) => (.killed, { c with input })
      else Console.deliver phraseCapacity 170 units { c with input }
    | (.err e, input) => (.err e, { c with input })
    | (.killed, input) => (.killed, { c with input }) := rfl

theorem read_whole {c : Console σ} {piece : List UInt16} {input : σ}
    (hread : readConsoleW 169 c.input = (.ok piece, input))
    (hlast : ¬ ∃ last ∈ piece.getLast?, Text.isHigh last) :
    Console.read readConsoleW phraseCapacity c =
      Console.deliver phraseCapacity 170 piece { c with input } := by
  rw [read_eq, hread]
  exact if_neg hlast

theorem read_pair {c : Console σ} {piece more : List UInt16} {input input' : σ}
    (hread : readConsoleW 169 c.input = (.ok piece, input)) (hlen : piece.length ≤ 169)
    (hlast : ∃ last ∈ piece.getLast?, Text.isHigh last)
    (hread' : readConsoleW 1 input = (.ok more, input')) :
    Console.read readConsoleW phraseCapacity c =
      Console.deliver phraseCapacity 170 (piece ++ more) { c with input := input' } := by
  have hroom : ¬ 170 < piece.length + 1 := by omega
  rw [read_eq, hread]
  dsimp only
  rw [if_pos hlast, if_neg hroom, hread']

/-- A read takes whole characters of the line. -/
theorem read_takes (hsplits : Splits readConsoleW left) {c : Console σ} {text : Text}
    (hleft : left c.input = Text.utf16 text) (hne : text ≠ []) :
    ∃ t₁ t₂ input, text = t₁ ++ t₂ ∧ t₁ ≠ [] ∧ left input = Text.utf16 t₂ ∧
      (Text.utf16 t₁).length ≤ 170 ∧ Console.read readConsoleW phraseCapacity c =
        Console.deliver phraseCapacity 170 (Text.utf16 t₁) { c with input } := by
  have hunits : left c.input ≠ [] := by
    rw [hleft]
    exact Text.utf16_ne_nil hne
  obtain ⟨piece, input, hread, hpiece, hlen, hcut⟩ := hsplits 169 c.input (by decide) hunits
  have hnonempty : ∀ {t₁ : Text} {units : List UInt16}, units ≠ [] → units = Text.utf16 t₁ → t₁ ≠ [] := by
    rintro t₁ units hu heq rfl
    exact hu heq
  by_cases hhigh : ∃ last ∈ piece.getLast?, Text.isHigh last
  · -- the pair is completed by the unit that follows
    obtain ⟨last, hlast, hsurrogate⟩ := hhigh
    obtain ⟨front, rfl⟩ : ∃ front, piece = front ++ [last] := by
      exact ⟨piece.dropLast, (List.dropLast_append_getLast? last hlast).symm⟩
    rw [hleft, List.append_assoc, List.singleton_append] at hcut
    obtain ⟨low, rest, hrest, hlow⟩ := Text.utf16_pair hcut hsurrogate
    obtain ⟨more, input', hread', hmore, hlen', hcut'⟩ := hsplits 1 input (by decide) (by rw [hrest]; simp)
    obtain ⟨v, rfl⟩ : ∃ v, more = [v] := by
      obtain ⟨v, vs, rfl⟩ := List.exists_cons_of_ne_nil hmore
      have hvs : vs = [] := List.eq_nil_of_length_eq_zero (by simpa using hlen')
      exact ⟨v, by rw [hvs]⟩
    rw [hrest, List.singleton_append, List.cons.injEq] at hcut'
    obtain ⟨rfl, hrest'⟩ := hcut'
    have hwhole : Text.utf16 text = (front ++ [last] ++ [low]) ++ left input' := by
      rw [hcut, hrest, hrest']
      simp
    obtain ⟨t₁, t₂, rfl, hunits₁, hunits₂⟩ := Text.utf16_split hwhole (fun u hu => by
      rw [List.getLast?_concat, Option.mem_def, Option.some.injEq] at hu
      subst hu
      omega)
    refine ⟨t₁, t₂, input', rfl, hnonempty (by simp) hunits₁, hunits₂, ?_, ?_⟩
    · rw [← hunits₁, List.length_append, List.length_singleton]
      omega
    · rw [read_pair hread hlen ⟨last, List.getLast?_concat, hsurrogate⟩ hread', hunits₁]
  · obtain ⟨t₁, t₂, rfl, hunits₁, hunits₂⟩ := Text.utf16_split (hleft.symm.trans hcut)
      (fun u hu hsurrogate => hhigh ⟨u, hu, hsurrogate⟩)
    refine ⟨t₁, t₂, input, rfl, hnonempty hpiece hunits₁, hunits₂, ?_, ?_⟩
    · rw [← hunits₁]
      omega
    · rw [read_whole hread hhigh, hunits₁]

/-- A piece of a line that is not `Ctrl-Z` at its start comes out as its characters. -/
theorem deliver_text {c : Console σ} {t : Text} (hlen : (Text.utf16 t).length ≤ 170)
    (hctrlZ : c.atLineStart = true → (Text.utf16 t).head? ≠ some ctrlZ) :
    ∃ start, Console.deliver phraseCapacity 170 (Text.utf16 t) c =
        (.ok t.utf8, { c with atLineStart := start }) ∧
      ∀ last ∈ (Text.utf16 t).getLast?, start = decide (last = lineFeedUnit) := by
  have hroom : t.utf8.length ≤ phraseCapacity := by
    have hle := Text.length_utf8_le t
    change t.utf8.length ≤ 512
    omega
  unfold Console.deliver
  rw [if_neg (by omega), if_neg (fun h => hctrlZ h.1 h.2), Text.decodeUtf16_utf16,
    transcode_text t (by simpa using hroom), List.nil_append]
  refine ⟨_, rfl, fun last hlast => ?_⟩
  rw [hlast]
  rfl

/-- A line is delivered as its characters, wherever it is cut. -/
theorem console_delivers (hsplits : Splits readConsoleW left) {c : Console σ} {text : Text}
    (hleft : left c.input = Text.utf16 text)
    (hctrlZ : c.atLineStart = true → (Text.utf16 text).head? ≠ some ctrlZ)
    (hfeed : ∀ front rest, Text.utf16 text = front ++ lineFeedUnit :: rest → rest = []) :
    DeliversLine (Console.read readConsoleW) c text.utf8 .unread := by
  induction hn : text.length using Nat.strong_induction_on generalizing c text with
  | _ n ih =>
    subst hn
    by_cases hne : text = []
    · subst hne
      exact .unread c
    obtain ⟨t₁, t₂, input, rfl, hne₁, hleft₂, hlen, hread⟩ := read_takes hsplits hleft hne
    have hunits₁ := Text.utf16_ne_nil hne₁
    have hctrlZ₁ : c.atLineStart = true → (Text.utf16 t₁).head? ≠ some ctrlZ := by
      intro hstart hhead
      refine hctrlZ hstart ?_
      rw [Text.utf16_append, List.head?_append, hhead]
      rfl
    obtain ⟨start, hdeliver, hstart⟩ := deliver_text (c := { c with input }) hlen hctrlZ₁
    rw [hdeliver] at hread
    have hbytes := Text.utf8_ne_nil hne₁
    have hroom : t₁.utf8.length ≤ phraseCapacity := by
      have hle := Text.length_utf8_le t₁
      change t₁.utf8.length ≤ 512
      omega
    rw [Text.utf8_append]
    refine .piece hread hbytes hroom (ih t₂.length ?_ hleft₂ ?_ ?_ rfl)
    · have hpos := List.length_pos_iff.mpr hne₁
      rw [List.length_append]
      omega
    · -- only the last piece can end on the line feed
      intro hbegins hhead
      obtain ⟨front, last, hlast⟩ := List.exists_cons_of_ne_nil (List.reverse_ne_nil_iff.mpr hunits₁)
      have hlast : Text.utf16 t₁ = last.reverse ++ [front] := by
        rw [← List.reverse_reverse (Text.utf16 t₁), hlast, List.reverse_cons]
      have hfeed₁ := hstart front (by rw [hlast]; exact List.getLast?_concat)
      rw [show start = true from hbegins] at hfeed₁
      have hunit : front = lineFeedUnit := of_decide_eq_true hfeed₁.symm
      have hnone := hfeed last.reverse (Text.utf16 t₂) (by rw [Text.utf16_append, hlast, hunit]; simp)
      rw [hnone] at hhead
      cases hhead
    · intro front rest hcut
      exact hfeed (Text.utf16 t₁ ++ front) rest (by rw [Text.utf16_append, hcut, List.append_assoc])

/-- A line that begins with `Ctrl-Z` is delivered as the end of input. -/
theorem console_ends (hsplits : Splits readConsoleW left) {c : Console σ} {text : Text}
    (hleft : left c.input = Text.utf16 text) (hstart : c.atLineStart = true)
    (hctrlZ : (Text.utf16 text).head? = some ctrlZ) :
    DeliversLine (Console.read readConsoleW) c [] .eof := by
  have hne : text ≠ [] := by
    rintro rfl
    cases hctrlZ
  obtain ⟨t₁, t₂, input, rfl, hne₁, -, hlen, hread⟩ := read_takes hsplits hleft hne
  have hhead : (Text.utf16 t₁).head? = some ctrlZ := by
    obtain ⟨u, us, hus⟩ := List.exists_cons_of_ne_nil (Text.utf16_ne_nil hne₁)
    rw [Text.utf16_append, hus] at hctrlZ
    rw [hus]
    exact hctrlZ
  unfold Console.deliver at hread
  rw [if_neg (by omega), if_pos ⟨hstart, hhead⟩] at hread
  exact .eof hread

end

/-! ## Where a line ends -/

theorem lineFeed_mem_utf8 {t : Text} (h : lineFeed ∈ t.utf8) : '\n' ∈ t := by
  obtain ⟨c, hc, hb⟩ := List.mem_flatMap.mp h
  rcases Nat.lt_or_ge c.toNat 128 with hlow | hhigh
  · rw [Text.utf8EncodeChar_ascii hlow, List.mem_singleton] at hb
    have hten : c.toNat = 10 := by
      have hnat := congrArg UInt8.toNat hb
      rw [UInt8.toNat_ofNat', Nat.mod_eq_of_lt (by omega)] at hnat
      exact hnat.symm
    have hchar : c = '\n' := by
      rw [← Char.ofNat_toNat c, hten]
    exact hchar ▸ hc
  · have hbig := Text.utf8EncodeChar_high hhigh _ hb
    exact absurd hbig (by decide)

/-- Units that end on their only line feed are a text that ends on its only one. -/
theorem exists_line {text : Text} {front : List UInt16} (h : Text.utf16 text = front ++ [lineFeedUnit])
    (hfront : lineFeedUnit ∉ front) : ∃ body : Text, text = body ++ ['\n'] ∧ '\n' ∉ body := by
  obtain ⟨t₁, t₂, rfl, rfl, hfeed⟩ := Text.utf16_split h (fun u hu hhigh => by
    obtain ⟨init, rfl⟩ : ∃ init, front = init ++ [u] :=
      ⟨front.dropLast, (List.dropLast_append_getLast? u hu).symm⟩
    rw [List.append_assoc, List.singleton_append] at h
    obtain ⟨low, rest, hlow, hrange⟩ := Text.utf16_pair h hhigh
    rw [List.cons.injEq] at hlow
    rw [← hlow.1] at hrange
    exact absurd hrange (by decide))
  have hlast : t₂ = ['\n'] := by
    have hback := Text.decodeUtf16_utf16 t₂
    rw [← hfeed, show Text.decodeUtf16 [lineFeedUnit] = ['\n'].map some by decide] at hback
    exact (List.map_injective_iff.mpr (Option.some_injective _) hback).symm
  refine ⟨t₁, by rw [hlast], fun hmem => hfront ?_⟩
  exact List.mem_flatMap.mpr ⟨'\n', hmem, by decide⟩

/-- Nothing follows the only mark, which is last. -/
theorem eq_nil_of_last {α : Type} {x : α} {front f r : List α} (h : x ∉ front)
    (hcut : front ++ [x] = f ++ x :: r) : r = [] := by
  induction front generalizing f with
  | nil =>
    rcases f with _ | ⟨a, f⟩
    · simpa using hcut.symm
    · simp at hcut
  | cons a front ih =>
    obtain ⟨hne, hfront⟩ := not_or.mp (mt List.mem_cons.mpr h)
    rcases f with _ | ⟨b, f⟩
    · rw [List.cons_append, List.nil_append, List.cons.injEq] at hcut
      exact absurd hcut.1.symm hne
    · rw [List.cons_append, List.cons_append, List.cons.injEq] at hcut
      exact ih hfront hcut.2

/-- A line up to its line feed is the whole. -/
theorem upTo_line {body : Text} (h : '\n' ∉ body) :
    lineFeed ∈ (body ++ ['\n']).utf8 ∧
      upTo lineFeed (body ++ ['\n']).utf8 = (body ++ ['\n']).utf8 := by
  have hfeed : Text.utf8 ['\n'] = [lineFeed] := by decide
  have hbody : lineFeed ∉ body.utf8 := mt lineFeed_mem_utf8 h
  rw [Text.utf8_append, hfeed]
  refine ⟨List.mem_append_right _ (List.mem_singleton_self _), ?_⟩
  rw [upTo_append_of_notMem hbody]
  rfl

/-! ## No read writes past its buffer -/

/-- The console answers with no more units than it is asked for. -/
def Bounded {σ : Type} (readConsoleW : ℕ → Call σ IoError (List UInt16)) : Prop :=
  ∀ asked s, (readConsoleW asked s).1 ≠ .killed ∧
    ∀ units, (readConsoleW asked s).1 = .ok units → units.length ≤ asked

section
variable {σ : Type} {readConsoleW : ℕ → Call σ IoError (List UInt16)}

theorem deliver_bounded {room want : ℕ} {units : List UInt16} (c : Console σ)
    (hwant : units.length ≤ want) (hroom : 3 * want ≤ room) :
    (Console.deliver room want units c).1 ≠ .killed ∧
      ∀ bytes, (Console.deliver room want units c).1 = .ok bytes → bytes.length ≤ room := by
  have hsize := Text.size_decodeUtf16 units
  have hfits : ([] : Bytes).length + ((Text.decodeUtf16 units).map Text.sizeOf).sum ≤ room := by
    rw [List.length_nil]
    omega
  have hbounded := transcode_bounded (Text.decodeUtf16 units) hfits
  unfold Console.deliver
  rw [if_neg (by omega)]
  dsimp only
  split_ifs
  · refine ⟨by simp, fun bytes hbytes => ?_⟩
    cases hbytes
    exact Nat.zero_le _
  · exact hbounded

theorem read_bounded (hbounded : Bounded readConsoleW) (room : ℕ) (c : Console σ) :
    (Console.read readConsoleW room c).1 ≠ .killed ∧
      ∀ bytes, (Console.read readConsoleW room c).1 = .ok bytes → bytes.length ≤ room := by
  have hthird : 3 * min (room / 3) readUnits ≤ room := by omega
  unfold Console.read
  dsimp only
  generalize min (room / 3) readUnits = want at hthird ⊢
  split_ifs with hsmall
  · simp
  obtain ⟨halive, hlen⟩ := hbounded (want - 1) c.input
  rcases hread : readConsoleW (want - 1) c.input with ⟨units | e | _, input⟩
  · rw [hread] at hlen
    have hunits := hlen units rfl
    dsimp only
    split_ifs with hhigh hfull
    · omega
    · obtain ⟨halive', hlen'⟩ := hbounded 1 input
      rcases hread' : readConsoleW 1 input with ⟨more | e | _, input'⟩
      · rw [hread'] at hlen'
        have hmore := hlen' more rfl
        refine deliver_bounded _ ?_ hthird
        rw [List.length_append]
        omega
      · simp
      · rw [hread'] at halive'
        exact absurd rfl halive'
    · exact deliver_bounded _ (by omega) hthird
  · simp
  · rw [hread] at halive
    exact absurd rfl halive

end

/-- However its bytes arrive, a line is read as what is gathered of them. Over the console that is
the line as it was typed, or the end of input where it begins with `Ctrl-Z`, and no read of the
console writes past the room it is offered. -/
theorem secret_line_however_it_arrives :
    (∀ (σ : Type) (read : ℕ → Call σ IoError Bytes) (s : σ) (bytes : Bytes) (ending : Ending IoError),
      DeliversLine read s bytes ending → (ending = .unread → lineFeed ∈ bytes) →
      ∃ n r s', (∀ fuel, n ≤ fuel → readScrubbedLine read fuel s = some (r, s')) ∧
        (r = .ok none ↔ bytes = [] ∧ ending = .eof) ∧
        (∀ e, r = .err e ↔ (lineFeed ∉ bytes ∧ ending = .failed e) ∨
          e = notUtf8 ∧ ∃ line, gathered bytes ending = .ok line ∧ ∀ text : Text, line ≠ text.utf8) ∧
        (∀ t, r = .ok (some t) ↔ ∃ text : Text, text ≠ [] ∧ gathered bytes ending = .ok text.utf8 ∧
          t = text.trim)) ∧
    (∀ (σ : Type) (readConsoleW : ℕ → Call σ IoError (List UInt16)) (left : σ → List UInt16),
      Splits readConsoleW left → ∀ (c : Console σ) (text : Text) (front : List UInt16),
      c.atLineStart = true → left c.input = Text.utf16 text →
      Text.utf16 text = front ++ [lineFeedUnit] → lineFeedUnit ∉ front →
      ∃ n s', ∀ fuel, n ≤ fuel → readScrubbedLine (Console.read readConsoleW) fuel c = some
        (if (Text.utf16 text).head? = some ctrlZ then .ok none else .ok (some text.trim), s')) ∧
    ∀ (σ : Type) (readConsoleW : ℕ → Call σ IoError (List UInt16)), Bounded readConsoleW →
      ∀ room c, (Console.read readConsoleW room c).1 ≠ .killed ∧
        ∀ bytes, (Console.read readConsoleW room c).1 = .ok bytes → bytes.length ≤ room := by
  refine ⟨fun σ read s bytes ending h hread => ?_, fun σ readConsoleW left hsplits c text front hstart
    hleft hline hfront => ?_, fun σ readConsoleW hbounded room c => read_bounded hbounded room c⟩
  · obtain ⟨n, s', hloop⟩ := readScrubbedLine_delivers h hread
    refine ⟨n, _, s', hloop, ?_, fun e => ?_, fun t => ?_⟩
    · rw [lineAnswer_eq_none, gathered_eq_nil hread]
    · rw [lineAnswer_eq_err, gathered_eq_error]
    · exact lineAnswer_eq_some
  · split_ifs with hctrlZ
    · have hends := console_ends hsplits hleft hstart hctrlZ
      obtain ⟨n, s', hloop⟩ := readScrubbedLine_delivers hends (fun h => by cases h)
      exact ⟨n, s', hloop⟩
    · obtain ⟨body, rfl, hbody⟩ := exists_line hline hfront
      obtain ⟨hmem, hupTo⟩ := upTo_line hbody
      have hfeed : ∀ f r, Text.utf16 (body ++ ['\n']) = f ++ lineFeedUnit :: r → r = [] := by
        intro f r hcut
        rw [hline] at hcut
        exact eq_nil_of_last hfront hcut
      have hdelivers := console_delivers hsplits hleft (fun _ => hctrlZ) hfeed
      obtain ⟨n, s', hloop⟩ := readScrubbedLine_delivers hdelivers (fun _ => hmem)
      refine ⟨n, s', fun fuel hfuel => ?_⟩
      rw [hloop fuel hfuel, gathered_of_mem hmem, hupTo,
        lineAnswer_eq_some.mpr ⟨body ++ ['\n'], by simp, rfl, rfl⟩]

end MochimoWallet.Cli
