import Mathlib.Data.List.Lex
import Mathlib.Order.Lattice
import Mathlib.Data.Nat.Notation
import Mathlib.Tactic.Ring

/-!
# Byte strings and fixed-width integers

`Bytes` is a byte string and `Block n` one of exactly `n` bytes, ordered the way
arrays of bytes are: lexicographically. `toLe w n` and `ofLe b` are the
little-endian image of a number in `w` bytes and its reading; the `u16`, `u32`
and `u64` forms carry the machine types, and each is the inverse of the other.
-/

namespace Codec

abbrev Bytes := List UInt8

/-- A byte string of exactly `n` bytes. -/
@[ext] structure Block (n : ℕ) where
  bytes : Bytes
  length_eq : bytes.length = n
  deriving DecidableEq

instance linearOrderUInt8 : LinearOrder UInt8 where
  le_refl a := UInt8.le_refl a
  le_trans _ _ _ := UInt8.le_trans
  lt_iff_le_not_ge a b := by simp only [UInt8.le_iff_toNat_le, UInt8.lt_iff_toNat_lt]; omega
  le_antisymm _ _ := UInt8.le_antisymm
  le_total := UInt8.le_total
  toDecidableLE := inferInstance

/-! ## Blocks -/

instance (n : ℕ) : LinearOrder (Block n) :=
  LinearOrder.lift' Block.bytes fun _ _ => Block.ext

namespace Block

variable {m n : ℕ}

/-- `n` copies of one byte. -/
def replicate (n : ℕ) (x : UInt8) : Block n := ⟨List.replicate n x, List.length_replicate⟩

/-- `n` zero bytes. -/
abbrev zero (n : ℕ) : Block n := replicate n 0

def append (a : Block m) (b : Block n) : Block (m + n) :=
  ⟨a.1 ++ b.1, by rw [List.length_append, a.2, b.2]⟩

/-- The `len` bytes of `b` from position `i`. -/
def slice (b : Block n) (i len : ℕ) (h : i + len ≤ n := by decide) : Block len :=
  ⟨(b.1.drop i).take len, by simp only [List.length_take, List.length_drop, b.2]; omega⟩

theorem slice_bytes (b : Block n) (i len : ℕ) (h : i + len ≤ n) :
    (b.slice i len h).1 = (b.1.drop i).take len := rfl

theorem append_inj {a a' : Block m} {b b' : Block n} (h : a.1 ++ b.1 = a'.1 ++ b'.1) :
    a = a' ∧ b = b' := by
  obtain ⟨ha, hb⟩ := List.append_inj h (by rw [a.2, a'.2])
  exact ⟨Block.ext ha, Block.ext hb⟩

theorem slice_append_left (a : Block m) (b : Block n) (h : 0 + m ≤ m + n) :
    (a.append b).slice 0 m h = a := by
  apply Block.ext
  simp [slice, append, a.2]

theorem slice_append_right (a : Block m) (b : Block n) (h : m + n ≤ m + n) :
    (a.append b).slice m n h = b := by
  have hb : b.1.take n = b.1 := List.take_of_length_le b.2.le
  apply Block.ext
  simp [slice, append, a.2, hb]

theorem append_slice (b : Block (m + n)) (h : 0 + m ≤ m + n) (h' : m + n ≤ m + n) :
    (b.slice 0 m h).append (b.slice m n h') = b := by
  apply Block.ext
  have : (b.1.drop m).take n = b.1.drop m := List.take_of_length_le (by
    simp only [List.length_drop, b.2]; omega)
  simp [slice, append, this]

theorem append_injective {a a' : Block m} {b b' : Block n} (h : a.append b = a'.append b') :
    a = a' ∧ b = b' :=
  append_inj (congrArg Block.bytes h)

end Block

/-- A string long enough for a block is that block and what follows. -/
theorem exists_block_append {n : ℕ} {b : Bytes} (h : n ≤ b.length) :
    ∃ (x : Block n) (rest : Bytes), b = x.1 ++ rest :=
  ⟨⟨b.take n, List.length_take_of_le h⟩, b.drop n, (List.take_append_drop n b).symm⟩

/-- Fixed-width images laid end to end say which they were. -/
theorem flatMap_block_injective {α : Type} {n : ℕ} {f : α → Block n} (hn : 0 < n)
    (hf : ∀ {a b}, f a = f b → a = b) {l l' : List α}
    (h : (l.flatMap fun a => (f a).1) = l'.flatMap fun a => (f a).1) : l = l' := by
  induction l generalizing l' with
  | nil =>
    cases l' with
    | nil => rfl
    | cons b l' =>
      have hlen := congrArg List.length h
      rw [List.flatMap_nil, List.flatMap_cons, List.length_append, (f b).2, List.length_nil] at hlen
      omega
  | cons a l ih =>
    cases l' with
    | nil =>
      have hlen := congrArg List.length h
      rw [List.flatMap_nil, List.flatMap_cons, List.length_append, (f a).2, List.length_nil] at hlen
      omega
    | cons b l' =>
      rw [List.flatMap_cons, List.flatMap_cons] at h
      obtain ⟨hab, hl⟩ := List.append_inj h (by rw [(f a).2, (f b).2])
      rw [hf (Block.ext hab), ih hl]

/-! ## Little-endian images -/

/-- The low `w` bytes of `n`, least significant first. -/
def toLe : ℕ → ℕ → Bytes
  | 0, _ => []
  | w + 1, n => UInt8.ofNat n :: toLe w (n / 256)

/-- The number whose little-endian image is `b`. -/
def ofLe : Bytes → ℕ
  | [] => 0
  | b :: bs => b.toNat + 256 * ofLe bs

@[simp] theorem length_toLe (w n : ℕ) : (toLe w n).length = w := by
  induction w generalizing n with
  | zero => rfl
  | succ w ih => simp [toLe, ih]

theorem ofLe_lt (b : Bytes) : ofLe b < 256 ^ b.length := by
  induction b with
  | nil => simp [ofLe]
  | cons x xs ih =>
    have hx : x.toNat < 256 := x.toNat_lt
    simp only [ofLe, List.length_cons, pow_succ]
    omega

theorem ofLe_toLe (w n : ℕ) : ofLe (toLe w n) = n % 256 ^ w := by
  induction w generalizing n with
  | zero => simp [toLe, ofLe, Nat.mod_one]
  | succ w ih =>
    have hx : (UInt8.ofNat n).toNat = n % 256 := by simp
    rw [toLe, ofLe, ih, hx, pow_succ', Nat.mod_mul]

theorem toLe_ofLe (b : Bytes) : toLe b.length (ofLe b) = b := by
  induction b with
  | nil => rfl
  | cons x xs ih =>
    have hx : x.toNat < 256 := x.toNat_lt
    have hd : (x.toNat + 256 * ofLe xs) / 256 = ofLe xs := by omega
    have hm : UInt8.ofNat (x.toNat + 256 * ofLe xs) = x := by
      apply UInt8.toNat_inj.mp
      simp
    rw [List.length_cons, toLe, ofLe, hd, ih, hm]

/-! ## The machine types -/

def u16le (v : UInt16) : Block 2 := ⟨toLe 2 v.toNat, length_toLe ..⟩
def u32le (v : UInt32) : Block 4 := ⟨toLe 4 v.toNat, length_toLe ..⟩
def u64le (v : UInt64) : Block 8 := ⟨toLe 8 v.toNat, length_toLe ..⟩

def ofU16le (b : Block 2) : UInt16 := .ofNat (ofLe b.1)
def ofU32le (b : Block 4) : UInt32 := .ofNat (ofLe b.1)
def ofU64le (b : Block 8) : UInt64 := .ofNat (ofLe b.1)

/-- The big-endian image of a 32-bit word. -/
def u32be (v : UInt32) : Block 4 := ⟨(u32le v).1.reverse, by simp [(u32le v).2]⟩

@[simp] theorem ofU16le_u16le (v : UInt16) : ofU16le (u16le v) = v := by
  apply UInt16.toNat_inj.mp
  have hv : v.toNat < 2 ^ 16 := v.toNat_lt
  simp only [ofU16le, u16le, ofLe_toLe, UInt16.toNat_ofNat']
  omega

@[simp] theorem ofU32le_u32le (v : UInt32) : ofU32le (u32le v) = v := by
  apply UInt32.toNat_inj.mp
  have hv : v.toNat < 2 ^ 32 := v.toNat_lt
  simp only [ofU32le, u32le, ofLe_toLe, UInt32.toNat_ofNat']
  omega

@[simp] theorem ofU64le_u64le (v : UInt64) : ofU64le (u64le v) = v := by
  apply UInt64.toNat_inj.mp
  have hv : v.toNat < 2 ^ 64 := v.toNat_lt
  simp only [ofU64le, u64le, ofLe_toLe, UInt64.toNat_ofNat']
  omega

@[simp] theorem u64le_ofU64le (b : Block 8) : u64le (ofU64le b) = b := by
  have hb : ofLe b.1 < 2 ^ 64 := by simpa [b.2] using ofLe_lt b.1
  have hm : ofLe b.1 % 2 ^ 64 = ofLe b.1 := Nat.mod_eq_of_lt hb
  have h8 := toLe_ofLe b.1
  rw [b.2] at h8
  apply Block.ext
  simpa only [u64le, ofU64le, UInt64.toNat_ofNat', hm] using h8

theorem u64le_injective {v w : UInt64} (h : u64le v = u64le w) : v = w := by
  rw [← ofU64le_u64le v, h, ofU64le_u64le]

@[simp] theorem u16le_ofU16le (b : Block 2) : u16le (ofU16le b) = b := by
  have hb : ofLe b.1 < 2 ^ 16 := by simpa [b.2] using ofLe_lt b.1
  have hm : ofLe b.1 % 2 ^ 16 = ofLe b.1 := Nat.mod_eq_of_lt hb
  have h2 := toLe_ofLe b.1
  rw [b.2] at h2
  apply Block.ext
  simpa only [u16le, ofU16le, UInt16.toNat_ofNat', hm] using h2

@[simp] theorem u32le_ofU32le (b : Block 4) : u32le (ofU32le b) = b := by
  have hb : ofLe b.1 < 2 ^ 32 := by simpa [b.2] using ofLe_lt b.1
  have hm : ofLe b.1 % 2 ^ 32 = ofLe b.1 := Nat.mod_eq_of_lt hb
  have h4 := toLe_ofLe b.1
  rw [b.2] at h4
  apply Block.ext
  simpa only [u32le, ofU32le, UInt32.toNat_ofNat', hm] using h4

theorem u32le_injective {v w : UInt32} (h : u32le v = u32le w) : v = w := by
  simpa using congrArg ofU32le h

end Codec
