import MochimoWallet.Basic
import MochimoWallet.Lib.Reader
import MochimoWallet.Lib.Text

/-!
# Secret lines

A line is gathered from a terminal in pieces of one fixed size, and grows by hand: it is moved into
a buffer of twice the room before a byte would not fit, so that no buffer is left behind with part of
a secret in it. However its bytes arrive, what comes of it is the same.
-/

namespace MochimoWallet.Cli

open Codec

/-- The size of every read, and the room a line starts with. -/
abbrev phraseCapacity : ℕ := 512

abbrev lineFeed : UInt8 := 0x0A

/-- An error of a read, and how it is shown. -/
structure IoError where
  kind : ErrorKind
  shown : Text
  deriving DecidableEq

def IoError.isInterrupted (e : IoError) : Bool := e.kind = .interrupted

/-- Bytes in a buffer that holds them. -/
structure Line where
  bytes : Bytes
  capacity : ℕ
  fits : bytes.length ≤ capacity
  pos : 0 < capacity

namespace Line

def withCapacity (capacity : ℕ) (h : 0 < capacity) : Line := ⟨[], capacity, Nat.zero_le _, h⟩

/-- The line in a buffer of twice the room. -/
def wider (line : Line) : Line :=
  ⟨line.bytes, line.capacity * 2, Nat.le_trans line.fits (by omega), by have := line.pos; omega⟩

/-- Room for one byte more. -/
def reserve (line : Line) : Line := if line.bytes.length = line.capacity then line.wider else line

theorem reserve_room (line : Line) : line.reserve.bytes.length < line.reserve.capacity := by
  have hfits := line.fits
  have hpos := line.pos
  unfold reserve
  split_ifs with hfull
  · change line.bytes.length < line.capacity * 2
    omega
  · omega

/-- A byte more, which never moves the buffer it is put in. -/
def push (line : Line) (byte : UInt8) : Line :=
  ⟨line.reserve.bytes ++ [byte], line.reserve.capacity, by
    have := line.reserve_room
    rw [List.length_append, List.length_singleton]
    omega, line.reserve.pos⟩

/-- The bytes of a chunk, to the line feed if there is one. -/
def gather : Line → Bytes → Line × Bool
  | line, [] => (line, false)
  | line, byte :: chunk =>
    let line := line.push byte
    if byte = lineFeed then (line, true) else line.gather chunk

end Line

def notUtf8 : IoError := ⟨.invalidData, "stream did not contain valid UTF-8".toList⟩

/-- The line that has been gathered, trimmed. -/
def lineText (line : Line) : Reply IoError (Option Text) :=
  if line.bytes = [] then .ok none
  else
    match Text.fromUtf8 line.bytes with
    | none => .err notUtf8
    | some text => .ok (some text.trim)

section
variable {σ : Type}

section
variable (read : ℕ → Call σ IoError Bytes)

/-- The loop, for so many reads. -/
def gatherLine : ℕ → Line → σ → Option (Reply IoError Line × σ)
  | 0, _, _ => none
  | fuel + 1, line, s =>
    match read phraseCapacity s with
    | (.ok [], s) => some (.ok line, s)
    | (.ok (b :: bs), s) =>
      match line.gather (b :: bs) with
      | (line, true) => some (.ok line, s)
      | (line, false) => gatherLine fuel line s
    | (.err e, s) => if e.isInterrupted then gatherLine fuel line s else some (.err e, s)
    | (.killed, s) => some (.killed, s)

def readScrubbedLine (fuel : ℕ) (s : σ) : Option (Reply IoError (Option Text) × σ) :=
  (gatherLine read fuel (.withCapacity phraseCapacity (by decide)) s).map fun
    | (.ok line, s) => (lineText line, s)
    | (.err e, s) => (.err e, s)
    | (.killed, s) => (.killed, s)

end

/-! ## What a read of a line returns -/

namespace Line

theorem push_bytes (line : Line) (byte : UInt8) : (line.push byte).bytes = line.bytes ++ [byte] := by
  unfold push reserve
  split_ifs <;> rfl

theorem gather_eq (line : Line) (chunk : Bytes) :
    (line.gather chunk).1.bytes = line.bytes ++ upTo lineFeed chunk ∧
      ((line.gather chunk).2 = true ↔ lineFeed ∈ chunk) := by
  induction chunk generalizing line with
  | nil => simp [gather, upTo]
  | cons byte chunk ih =>
    rw [gather, upTo]
    split_ifs with hfeed
    · exact ⟨push_bytes line byte, iff_of_true rfl (by rw [hfeed]; exact List.mem_cons_self)⟩
    · obtain ⟨hbytes, hended⟩ := ih (line.push byte)
      refine ⟨?_, ?_⟩
      · rw [hbytes, push_bytes, List.append_assoc, List.singleton_append]
      · rw [hended, List.mem_cons, or_iff_right (Ne.symm hfeed)]

end Line

open Reader

/-- The bytes up to the line feed or the end of input, or the error that comes before either. -/
def gathered (bytes : Bytes) : Ending IoError → Except IoError Bytes
  | .failed e => if lineFeed ∈ bytes then .ok (upTo lineFeed bytes) else .error e
  | .eof | .unread => .ok (upTo lineFeed bytes)

/-- The reader delivers these bytes to the loop. -/
abbrev DeliversLine (read : ℕ → Call σ IoError Bytes) : σ → Bytes → Ending IoError → Prop :=
  Delivers IoError.isInterrupted phraseCapacity read

/-- The ending of the loop, as one of its bytes. -/
def loopBytes : Reply IoError Line → Reply IoError Bytes := Reply.map Line.bytes

theorem gathered_append {piece bytes : Bytes} (h : lineFeed ∉ piece) (ending : Ending IoError) :
    gathered (piece ++ bytes) ending = (gathered bytes ending).map (piece ++ ·) := by
  have hmem : lineFeed ∈ piece ++ bytes ↔ lineFeed ∈ bytes := by
    rw [List.mem_append, or_iff_right h]
  cases ending with
  | failed e =>
    unfold gathered
    simp only [hmem, upTo_append_of_notMem h]
    split_ifs <;> rfl
  | eof => rw [gathered, gathered, upTo_append_of_notMem h]; rfl
  | unread => rw [gathered, gathered, upTo_append_of_notMem h]; rfl

theorem gathered_of_mem {bytes : Bytes} (h : lineFeed ∈ bytes) (ending : Ending IoError) :
    gathered bytes ending = .ok (upTo lineFeed bytes) := by
  cases ending with
  | failed e => exact if_pos h
  | eof => rfl
  | unread => rfl

/-- However they are delivered, the loop adds to the line what is gathered of the bytes. -/
theorem gatherLine_delivers {read : ℕ → Call σ IoError Bytes} {s : σ} {bytes : Bytes}
    {ending : Ending IoError} (h : DeliversLine read s bytes ending)
    (hread : ending = .unread → lineFeed ∈ bytes) (line : Line) :
    ∃ n r s', (∀ fuel, n ≤ fuel → gatherLine read fuel line s = some (r, s')) ∧
      loopBytes r = Reply.ofExcept ((gathered bytes ending).map (line.bytes ++ ·)) := by
  induction h generalizing line with
  | unread s => exact absurd (hread rfl) List.not_mem_nil
  | eof hs =>
    rename_i s s'
    refine ⟨1, .ok line, s', fun fuel hfuel => ?_, ?_⟩
    · obtain ⟨fuel, rfl⟩ := Nat.exists_eq_add_of_le' hfuel
      rw [gatherLine, hs]
    · simp [loopBytes, Reply.map, gathered, upTo, Except.map, Reply.ofExcept]
  | failed hs hagain =>
    rename_i s s' e
    refine ⟨1, .err e, s', fun fuel hfuel => ?_, ?_⟩
    · obtain ⟨fuel, rfl⟩ := Nat.exists_eq_add_of_le' hfuel
      rw [gatherLine, hs]
      dsimp only
      rw [hagain]
      rfl
    · simp [loopBytes, Reply.map, gathered, Except.map, Reply.ofExcept]
  | again hs hagain hrest ih =>
    obtain ⟨n, r, s', hloop, hr⟩ := ih hread line
    refine ⟨n + 1, r, s', fun fuel hfuel => ?_, hr⟩
    obtain ⟨fuel, rfl⟩ := Nat.exists_eq_add_of_le' (Nat.le_trans (Nat.le_add_left 1 n) hfuel)
    rw [gatherLine, hs]
    dsimp only
    rw [hagain]
    exact hloop fuel (by omega)
  | piece hs hne hroom hrest ih =>
    rename_i s s₁ piece bytes ending
    obtain ⟨b, bs, rfl⟩ := List.exists_cons_of_ne_nil hne
    obtain ⟨hbytes, hended⟩ := line.gather_eq (b :: bs)
    by_cases hfeed : lineFeed ∈ b :: bs
    · refine ⟨1, .ok (line.gather (b :: bs)).1, s₁, fun fuel hfuel => ?_, ?_⟩
      · obtain ⟨fuel, rfl⟩ := Nat.exists_eq_add_of_le' hfuel
        rw [gatherLine, hs]
        dsimp only
        rw [← Prod.mk.eta (p := line.gather (b :: bs)), hended.mpr hfeed]
      · rw [gathered_of_mem (List.mem_append_left _ hfeed), upTo_append_of_mem hfeed]
        simp [loopBytes, Reply.map, hbytes, Except.map, Reply.ofExcept]
    · have hnot : (line.gather (b :: bs)).2 = false := by
        rw [Bool.eq_false_iff]
        exact mt hended.mp hfeed
      have hread' : ending = .unread → lineFeed ∈ bytes := fun hunread =>
        (List.mem_append.mp (hread hunread)).resolve_left hfeed
      obtain ⟨n, r, s', hloop, hr⟩ := ih hread' (line.gather (b :: bs)).1
      refine ⟨n + 1, r, s', fun fuel hfuel => ?_, ?_⟩
      · obtain ⟨fuel, rfl⟩ := Nat.exists_eq_add_of_le' (Nat.le_trans (Nat.le_add_left 1 n) hfuel)
        rw [gatherLine, hs]
        dsimp only
        rw [← Prod.mk.eta (p := line.gather (b :: bs)), hnot]
        exact hloop fuel (by omega)
      · rw [hr, hbytes, upTo_of_notMem hfeed, gathered_append hfeed]
        cases gathered bytes ending <;> simp [Except.map]

/-- What comes of the bytes that have been gathered. -/
def lineAnswer : Except IoError Bytes → Reply IoError (Option Text)
  | .error e => .err e
  | .ok [] => .ok none
  | .ok (b :: bs) =>
    match Text.fromUtf8 (b :: bs) with
    | none => .err notUtf8
    | some text => .ok (some text.trim)

theorem lineText_eq (line : Line) : lineText line = lineAnswer (.ok line.bytes) := by
  unfold lineText lineAnswer
  cases line.bytes with
  | nil => rfl
  | cons b bs => rfl

/-- However its bytes are delivered, a line is read as what is gathered of them. -/
theorem readScrubbedLine_delivers {read : ℕ → Call σ IoError Bytes} {s : σ} {bytes : Bytes}
    {ending : Ending IoError} (h : DeliversLine read s bytes ending)
    (hread : ending = .unread → lineFeed ∈ bytes) :
    ∃ n s', ∀ fuel, n ≤ fuel →
      readScrubbedLine read fuel s = some (lineAnswer (gathered bytes ending), s') := by
  obtain ⟨n, r, s', hloop, hr⟩ := gatherLine_delivers h hread (.withCapacity phraseCapacity (by decide))
  refine ⟨n, s', fun fuel hfuel => ?_⟩
  rw [readScrubbedLine, hloop fuel hfuel]
  have hempty : (Line.withCapacity phraseCapacity (by decide)).bytes = [] := rfl
  simp only [hempty, List.nil_append] at hr
  cases r with
  | ok line =>
    rw [Option.map_some]
    dsimp only
    rw [lineText_eq]
    cases hg : gathered bytes ending with
    | error e => simp [hg, loopBytes, Reply.map, Except.map, Reply.ofExcept] at hr
    | ok got =>
      simp only [hg, loopBytes, Reply.map, Except.map, Reply.ofExcept, Reply.ok.injEq] at hr
      rw [hr]
  | err e =>
    cases hg : gathered bytes ending with
    | error e' =>
      simp only [hg, loopBytes, Reply.map, Except.map, Reply.ofExcept, Reply.err.injEq] at hr
      rw [hr]
      rfl
    | ok got => simp [hg, loopBytes, Reply.map, Except.map, Reply.ofExcept] at hr
  | killed =>
    cases hg : gathered bytes ending <;>
      simp [hg, loopBytes, Reply.map, Except.map, Reply.ofExcept] at hr

/-! ## The four outcomes -/

theorem lineAnswer_eq_none {got : Except IoError Bytes} : lineAnswer got = .ok none ↔ got = .ok [] := by
  unfold lineAnswer
  split
  · simp
  · simp
  · split <;> simp

theorem lineAnswer_eq_err {got : Except IoError Bytes} {e : IoError} :
    lineAnswer got = .err e ↔ got = .error e ∨
      e = notUtf8 ∧ ∃ bytes, got = .ok bytes ∧ ∀ text : Text, bytes ≠ text.utf8 := by
  unfold lineAnswer
  split
  · simp
  · refine iff_of_false (fun h => by cases h) ?_
    rintro (h | ⟨-, bytes, h, hnot⟩)
    · cases h
    · cases h
      exact hnot [] rfl
  · rename_i b bs
    split
    · rename_i hnone
      have hnot : ∀ text : Text, b :: bs ≠ text.utf8 := fun text heq => by
        rw [Text.fromUtf8_eq_some.mpr heq] at hnone
        cases hnone
      constructor
      · intro h
        cases h
        exact .inr ⟨rfl, _, rfl, hnot⟩
      · rintro (h | ⟨rfl, -⟩)
        · cases h
        · rfl
    · rename_i text hsome
      refine iff_of_false (fun h => by cases h) ?_
      rintro (h | ⟨-, bytes, h, hnot⟩)
      · cases h
      · cases h
        exact hnot text (Text.fromUtf8_eq_some.mp hsome)

theorem lineAnswer_eq_some {got : Except IoError Bytes} {t : Text} :
    lineAnswer got = .ok (some t) ↔ ∃ text : Text, text ≠ [] ∧ got = .ok text.utf8 ∧ t = text.trim := by
  unfold lineAnswer
  split
  · simp
  · refine iff_of_false (fun h => by cases h) ?_
    rintro ⟨text, hne, h, -⟩
    exact Text.utf8_ne_nil hne (Except.ok.inj h).symm
  · rename_i b bs
    split
    · rename_i hnone
      refine iff_of_false (fun h => by cases h) ?_
      rintro ⟨text, -, h, -⟩
      rw [Text.fromUtf8_eq_some.mpr (Except.ok.inj h)] at hnone
      cases hnone
    · rename_i text hsome
      have hbytes := Text.fromUtf8_eq_some.mp hsome
      constructor
      · intro h
        cases h
        refine ⟨text, ?_, by rw [hbytes], rfl⟩
        rintro rfl
        cases hbytes
      · rintro ⟨text', -, h, rfl⟩
        have hsame := Text.fromUtf8_eq_some.mpr (Except.ok.inj h)
        rw [hsome] at hsame
        rw [Option.some.inj hsame]

theorem gathered_eq_error {bytes : Bytes} {ending : Ending IoError} {e : IoError} :
    gathered bytes ending = .error e ↔ lineFeed ∉ bytes ∧ ending = .failed e := by
  cases ending with
  | failed e' =>
    unfold gathered
    split_ifs with hfeed
    · simp [hfeed]
    · simp [hfeed]
  | eof => simp [gathered]
  | unread => simp [gathered]

/-- Nothing is gathered of an input that ends before any byte, and only of that. -/
theorem gathered_eq_nil {bytes : Bytes} {ending : Ending IoError}
    (hread : ending = .unread → lineFeed ∈ bytes) :
    gathered bytes ending = .ok [] ↔ bytes = [] ∧ ending = .eof := by
  cases ending with
  | failed e =>
    unfold gathered
    split_ifs with hfeed
    · simp [upTo_eq_nil, List.ne_nil_of_mem hfeed]
    · simp
  | eof => simp [gathered, upTo_eq_nil]
  | unread =>
    have hne : bytes ≠ [] := List.ne_nil_of_mem (hread rfl)
    simp [gathered, upTo_eq_nil, hne]

end

end MochimoWallet.Cli
