import Mathlib.Order.Interval.Finset.Nat
import MochimoWallet.WotsChecksum
import MochimoWallet.WotsCounted

/-!
# WOTS+ in machine words

The digit and chain functions of the native backend on the words the backend itself computes in:
signed 32-bit digits and sums, 32-bit chain positions. `none` is where the program would stop: an
assertion, an index past a slice, a sum or a shift its word does not hold. Where the numbers are
what the other functions hand over, these are the functions on numbers (`baseW_eq`,
`wotsChecksum_ofNat`, `genChain_eq`, `genChainCounted_eq`).
-/

namespace MochimoWallet.Native

open Codec Winternitz

/-! ## Checked words -/

/-- Signed addition, `none` where it overflows. -/
def checkedAdd (a b : Int32) : Option Int32 :=
  if -2 ^ 31 ≤ a.toInt + b.toInt ∧ a.toInt + b.toInt < 2 ^ 31 then some (a + b) else none

/-- Signed subtraction, `none` where it overflows. -/
def checkedSub (a b : Int32) : Option Int32 :=
  if -2 ^ 31 ≤ a.toInt - b.toInt ∧ a.toInt - b.toInt < 2 ^ 31 then some (a - b) else none

/-- A byte shifted right, `none` where the shift is not within the byte. -/
def checkedShr (a : UInt8) (n : Int32) : Option UInt8 :=
  if 0 ≤ n.toInt ∧ n.toInt < 8 then some (a >>> .ofNat n.toInt.toNat) else none

/-! ## Digits -/

/-- The bytes of `value`, the last of `n` first. -/
def lowBytes : ℕ → UInt64 → Bytes
  | 0, _ => []
  | n + 1, v => (v &&& 0xff).toUInt8 :: lowBytes n (v >>> 8)

/-- An empty output is refused. -/
def ullToBytes (outLen : ℕ) (value : UInt64) : Option Bytes :=
  if outLen = 0 then none else some (lowBytes outLen value).reverse

/-- The loop over the digits: `total` is the byte being read, and `bits` how many of its bits are
left. -/
def baseWLoop (input : Bytes) : ℕ → ℕ → UInt8 → Int32 → Option (List Int32)
  | 0, _, _, _ => some []
  | n + 1, inIdx, total, bits => do
    let (inIdx, total, bits) ←
      if bits = 0 then do
        let total ← input[inIdx]?
        let bits ← checkedAdd bits 8
        some (inIdx + 1, total, bits)
      else some (inIdx, total, bits)
    let bits ← checkedSub bits (.ofNat wotsLogW)
    let digit ← checkedShr total bits
    let rest ← baseWLoop input n inIdx total bits
    some ((digit &&& (.ofNat wotsW - 1)).toUInt32.toInt32 :: rest)

def baseW (outLen : ℕ) (input : Bytes) : Option (List Int32) :=
  if input.length < (outLen + 1) / 2 then none else baseWLoop input outLen 0 0 0

/-- The sum wraps, and so does the shift. -/
def wotsChecksum (msgBaseW : Vector Int32 wotsLen1) : Option (List Int32) := do
  let csum := msgBaseW.toList.foldl (fun csum digit => csum + (.ofNat wotsW - 1 - digit)) (0 : Int32)
  let csum := csum <<< .ofNat (8 - (wotsLen2 * wotsLogW) % 8)
  let csumBytes ← ullToBytes ((wotsLen2 * wotsLogW + 7) / 8) csum.toUInt32.toUInt64
  baseW wotsLen2 csumBytes

/-! ## Digits, as numbers -/

/-- The low half of a byte, as a digit. -/
theorem digit_low (x : UInt8) :
    (x &&& (.ofNat wotsW - 1)).toUInt32.toInt32 = Int32.ofNat (x.toNat % 16) := by
  have hmask : (UInt8.ofNat wotsW - 1).toNat = 2 ^ 4 - 1 := rfl
  have hword : (x &&& (.ofNat wotsW - 1)).toUInt32 = .ofNat (x.toNat % 16) := by
    refine UInt32.toNat_inj.mp ?_
    rw [UInt8.toNat_toUInt32, UInt8.toNat_and, hmask, Nat.and_two_pow_sub_one_eq_mod,
      UInt32.toNat_ofNat']
    omega
  rw [hword]
  rfl

/-- The high half. -/
theorem digit_high (x : UInt8) :
    ((x >>> 4) &&& (.ofNat wotsW - 1)).toUInt32.toInt32 = Int32.ofNat (x.toNat / 16) := by
  have hx : x.toNat < 256 := x.toNat_lt
  have hshift : (x >>> 4).toNat = x.toNat / 16 := by
    rw [UInt8.toNat_shiftRight, show (4 : UInt8).toNat % 8 = 4 from rfl, Nat.shiftRight_eq_div_pow]
  rw [digit_low, hshift, Nat.mod_eq_of_lt (by omega)]

/-- The loop neither runs past its input nor overflows, from the top of a byte and from its
middle. -/
theorem baseWLoop_eq (input : Bytes) (n inIdx : ℕ) (total : UInt8) :
    ((n + 1) / 2 ≤ (input.drop inIdx).length → baseWLoop input n inIdx total 0 =
      some (((nibbles (input.drop inIdx)).take n).map .ofNat)) ∧
    (n / 2 ≤ (input.drop inIdx).length → baseWLoop input n inIdx total 4 =
      some (((total.toNat % 16 :: nibbles (input.drop inIdx)).take n).map .ofNat)) := by
  induction n generalizing inIdx total with
  | zero => exact ⟨fun _ => rfl, fun _ => rfl⟩
  | succ n ih =>
    constructor <;> intro hlen
    · rw [List.length_drop] at hlen
      have hidx : inIdx < input.length := by omega
      have hbyte : input[inIdx]? = some input[inIdx] := List.getElem?_eq_getElem hidx
      have hdrop : input.drop inIdx = input[inIdx] :: input.drop (inIdx + 1) :=
        List.drop_eq_getElem_cons hidx
      have hrest := (ih (inIdx + 1) input[inIdx]).2 (by rw [List.length_drop]; omega)
      have hadd : checkedAdd 0 8 = some 8 := by decide
      have hsub : checkedSub 8 (.ofNat wotsLogW) = some 4 := by decide
      have hshr : checkedShr input[inIdx] 4 = some (input[inIdx] >>> 4) := rfl
      simp only [baseWLoop, if_true, hbyte, hadd, hsub, hshr, hrest, Option.bind_eq_bind,
        Option.bind_some, digit_high]
      rw [hdrop]
      rfl
    · have hrest := (ih inIdx total).1 (by omega)
      have hsub : checkedSub 4 (.ofNat wotsLogW) = some 0 := by decide
      have hshr : checkedShr total 0 = some total := by
        have hzero : total >>> 0 = total := UInt8.shiftRight_zero
        exact congrArg some hzero
      have hfour : ¬ (4 : Int32) = 0 := by decide
      simp only [baseWLoop, if_neg hfour, hsub, hshr, hrest, Option.bind_eq_bind, Option.bind_some,
        digit_low]
      rfl

/-- The digits are those of the function on numbers, wherever there are bytes for them. -/
theorem baseW_eq {outLen : ℕ} {input : Bytes} (h : (outLen + 1) / 2 ≤ input.length) :
    baseW outLen input = some ((MochimoWallet.baseW outLen input).map .ofNat) := by
  rw [baseW, if_neg (by omega), (baseWLoop_eq input outLen 0 0).1 h, MochimoWallet.baseW_eq]
  rfl

/-! ## The checksum -/

/-- What the digits are short of the largest, added up over the integers. -/
def shortSum (digits : List Int32) : ℤ := (digits.map fun d => 15 - d.toInt).sum

theorem bmod_emod_word (x : ℤ) : x.bmod (2 ^ 32) % 2 ^ 32 = x % 2 ^ 32 := Int.bmod_emod

/-- A sum that wraps is the sum, as far as the word shows it. -/
theorem emod_foldl (digits : List Int32) (csum : Int32) :
    (digits.foldl (fun csum digit => csum + (.ofNat wotsW - 1 - digit)) csum).toInt % 2 ^ 32 =
      (csum.toInt + shortSum digits) % 2 ^ 32 := by
  induction digits generalizing csum with
  | nil => rw [List.foldl_nil, shortSum, List.map_nil, List.sum_nil, Int.add_zero]
  | cons d ds ih =>
    have hlast : (Int32.ofNat wotsW - 1).toInt = 15 := rfl
    have hstep : (csum + (.ofNat wotsW - 1 - d)).toInt % 2 ^ 32 =
        (csum.toInt + (15 - d.toInt)) % 2 ^ 32 := by
      rw [Int32.toInt_add, Int32.toInt_sub, hlast, bmod_emod_word, Int.add_emod, bmod_emod_word,
        ← Int.add_emod]
    rw [List.foldl_cons, ih]
    simp only [shortSum, List.map_cons, List.sum_cons] at hstep ⊢
    omega

/-- A signed word as an unsigned one. -/
theorem toNat_toUInt32 (x : Int32) : (x.toUInt32.toNat : ℤ) = x.toInt % 2 ^ 32 := by
  have hlt : x.toUInt32.toNat < 2 ^ 32 := x.toUInt32.toNat_lt
  have hbmod : x.toInt = (x.toUInt32.toNat : ℤ).bmod (2 ^ 32) := BitVec.toInt_eq_toNat_bmod x.toBitVec
  rw [hbmod, bmod_emod_word]
  omega

theorem toNat_shiftLeft_four (x : Int32) :
    (x <<< Int32.ofNat (8 - (wotsLen2 * wotsLogW) % 8)).toUInt32.toNat =
      x.toUInt32.toNat * 16 % 2 ^ 32 := by
  have hword : (x <<< Int32.ofNat (8 - (wotsLen2 * wotsLogW) % 8)).toUInt32.toNat =
      (x.toBitVec <<< 4).toNat := rfl
  rw [hword, BitVec.toNat_shiftLeft, Nat.shiftLeft_eq]
  rfl

/-- Two bytes of a word, and the three digits they start with. -/
theorem digits_two (v : UInt64) :
    (ullToBytes ((wotsLen2 * wotsLogW + 7) / 8) v).bind (baseW wotsLen2) =
      some ([v.toNat / 4096 % 16, v.toNat / 256 % 16, v.toNat / 16 % 16].map .ofNat) := by
  have hmask : (0xff : UInt64).toNat = 2 ^ 8 - 1 := rfl
  have hlow (w : UInt64) : (w &&& 0xff).toUInt8.toNat = w.toNat % 256 := by
    rw [UInt64.toNat_toUInt8, UInt64.toNat_and, hmask, Nat.and_two_pow_sub_one_eq_mod]
    omega
  have hshift : (v >>> 8).toNat = v.toNat / 256 := by
    rw [UInt64.toNat_shiftRight, show (8 : UInt64).toNat % 64 = 8 from rfl,
      Nat.shiftRight_eq_div_pow]
  have hbytes : ullToBytes ((wotsLen2 * wotsLogW + 7) / 8) v =
      some [(v >>> 8 &&& 0xff).toUInt8, (v &&& 0xff).toUInt8] := rfl
  have henough : (wotsLen2 + 1) / 2 ≤ [(v >>> 8 &&& 0xff).toUInt8, (v &&& 0xff).toUInt8].length := by
    rw [List.length_cons, List.length_singleton]
    decide
  have hfirst : v.toNat / 256 % 256 / 16 = v.toNat / 4096 % 16 := by omega
  have hsecond : v.toNat / 256 % 256 % 16 = v.toNat / 256 % 16 := by omega
  have hthird : v.toNat % 256 / 16 = v.toNat / 16 % 16 := by omega
  rw [hbytes, Option.bind_some, baseW_eq henough, MochimoWallet.baseW_eq]
  simp only [nibbles, List.flatMap_cons, List.flatMap_nil, List.append_nil, List.cons_append,
    List.nil_append, hlow, hshift, List.take_succ_cons, List.take_zero, hfirst, hsecond, hthird]

/-- The sum that is shifted, read as digits, is the sum over the integers. -/
theorem digits_shifted {n : ℕ} {s : ℤ} (h : (n : ℤ) = s % 2 ^ 32) :
    n * 16 % 2 ^ 32 / 4096 % 16 = (s / 256 % 16).toNat ∧
      n * 16 % 2 ^ 32 / 256 % 16 = (s / 16 % 16).toNat ∧
      n * 16 % 2 ^ 32 / 16 % 16 = (s % 16).toNat := by
  omega

theorem wotsChecksum_eq (msg : Vector Int32 wotsLen1) :
    wotsChecksum msg = some ([(shortSum msg.toList / 256 % 16).toNat,
      (shortSum msg.toList / 16 % 16).toNat, (shortSum msg.toList % 16).toNat].map .ofNat) := by
  have hsum : ((msg.toList.foldl (fun csum digit => csum + (.ofNat wotsW - 1 - digit))
      (0 : Int32)).toUInt32.toNat : ℤ) = shortSum msg.toList % 2 ^ 32 := by
    rw [toNat_toUInt32, emod_foldl, Int32.toInt_zero, Int.zero_add]
  obtain ⟨hfirst, hsecond, hthird⟩ := digits_shifted hsum
  rw [wotsChecksum]
  refine (digits_two _).trans ?_
  rw [UInt32.toNat_toUInt64, toNat_shiftLeft_four, hfirst, hsecond, hthird]

/-- On any words at all, the digits are those of the sum over the integers, from its low twelve
bits and the highest first; nothing is refused. -/
theorem checksum_low_twelve_bits (msg : Vector Int32 wotsLen1) :
    ∃ a b c : Int32, wotsChecksum msg = some [a, b, c] ∧
      (∀ d ∈ [a, b, c], 0 ≤ d.toInt ∧ d.toInt < 16) ∧
      256 * a.toInt + 16 * b.toInt + c.toInt = (msg.toList.map fun d => 15 - d.toInt).sum % 4096 := by
  have hdigit (s : ℤ) : (Int32.ofNat (s % 16).toNat).toInt = s % 16 := by
    rw [Int32.toInt_ofNat_of_lt (by omega), Int.toNat_of_nonneg (Int.emod_nonneg s (by decide))]
  refine ⟨_, _, _, wotsChecksum_eq msg, fun d hd => ?_, ?_⟩
  · simp only [List.mem_cons, List.not_mem_nil, or_false] at hd
    rcases hd with rfl | rfl | rfl <;> rw [hdigit] <;> omega
  · rw [hdigit, hdigit, hdigit, shortSum]
    omega

/-- On digits, the checksum is that of the numbers. -/
theorem wotsChecksum_ofNat (digits : Vector ℕ wotsLen1) (h : ∀ d ∈ digits.toList, d < wotsW) :
    wotsChecksum (digits.map .ofNat) =
      some ((MochimoWallet.wotsChecksum digits.toList).map .ofNat) := by
  have hsum : shortSum (digits.map .ofNat).toList = shortfall wotsW digits.toList := by
    rw [Vector.toList_map, shortSum, shortfall]
    generalize digits.toList = ds at h
    induction ds with
    | nil => rfl
    | cons d ds ih =>
      have hd : d < 16 := h d List.mem_cons_self
      have htail := ih fun e he => h e (List.mem_cons_of_mem d he)
      have hlast : wotsW - 1 - d = 15 - d := rfl
      simp only [List.map_cons, List.sum_cons, hlast] at htail ⊢
      rw [htail, Int32.toInt_ofNat_of_lt (by omega)]
      omega
  rw [wotsChecksum_eq, hsum, MochimoWallet.wotsChecksum_eq]
  rfl

/-! ## Chains -/

/-- A position that is walked from is short of the last word. -/
theorem toNat_succ {i : UInt32} (h : i.toNat < wotsW) : (i + 1).toNat = i.toNat + 1 := by
  have hw : wotsW = 16 := rfl
  have hone : (1 : UInt32).toNat = 1 := rfl
  rw [UInt32.toNat_add]
  omega

/-- The positions that are counted. -/
theorem card_positions (start stop : ℕ) :
    ((Finset.range wotsW).filter fun i => start ≤ i ∧ i < stop).card = min stop wotsW - start := by
  have hset : (Finset.range wotsW).filter (fun i => start ≤ i ∧ i < stop) =
      Finset.Ico start (min stop wotsW) := by
    ext i
    rw [Finset.mem_filter, Finset.mem_range, Finset.mem_Ico]
    omega
  rw [hset, Nat.card_Ico]

/-- Inside the chain's length nothing wraps and nothing is cut short. -/
theorem walked_of_le {start steps : UInt32} (h : start.toNat + steps.toNat ≤ wotsW) :
    min ((start.toNat + steps.toNat) % 2 ^ 32) wotsW - start.toNat = steps.toNat := by
  have hw : wotsW = 16 := rfl
  omega

theorem toNat_add_of_le {a b : UInt32} (h : a.toNat + b.toNat ≤ wotsW) :
    (a + b).toNat = a.toNat + b.toNat := by
  have hw : wotsW = 16 := rfl
  rw [UInt32.toNat_add]
  omega

/-- Where a walk in two goes ends inside the chain's length, so does each of them. -/
theorem legs_of_le {start k l : UInt32} (h : start.toNat + k.toNat + l.toNat ≤ wotsW) :
    start.toNat + k.toNat ≤ wotsW ∧ (start + k).toNat + l.toNat ≤ wotsW ∧
      start.toNat + (k + l).toNat ≤ wotsW := by
  have hfirst : start.toNat + k.toNat ≤ wotsW := by omega
  have hlast : k.toNat + l.toNat ≤ wotsW := by omega
  rw [toNat_add_of_le hfirst, toNat_add_of_le hlast]
  omega

/-- While the loop goes on, one step and those that are left after it. -/
theorem walked_succ {stop i : UInt32} (h : i < stop ∧ i.toNat < wotsW) :
    min stop.toNat wotsW - i.toNat = min stop.toNat wotsW - (i.toNat + 1) + 1 := by
  have hi : i.toNat < stop.toNat := UInt32.lt_iff_toNat_lt.mp h.1
  omega

/-- Where the loop ends no step is left. -/
theorem walked_end {stop i : UInt32} (h : ¬ (i < stop ∧ i.toNat < wotsW)) :
    min stop.toNat wotsW - i.toNat = 0 := by
  have hi : ¬ (i.toNat < stop.toNat ∧ i.toNat < wotsW) := fun hlt =>
    h ⟨UInt32.lt_iff_toNat_lt.mpr hlt.1, hlt.2⟩
  omega

section
variable [Crypto]

/-- The loop of a chain: it stops at `stop`, and at the chain's end whatever `stop` says. -/
def genChainLoop (pubSeed : Block 32) (stop i : UInt32) (out : Block 32) (adrs : Adrs) :
    Block 32 × Adrs :=
  if i < stop ∧ i.toNat < wotsW then
    let (out, adrs) := thashF out pubSeed (adrs.setHashAddr i)
    genChainLoop pubSeed stop (i + 1) out adrs
  else (out, adrs)
termination_by wotsW - i.toNat
decreasing_by
  rename_i h
  rw [toNat_succ h.2]
  omega

/-- Where a chain stops is a sum that wraps. -/
def genChain (input : Block 32) (start steps : UInt32) (pubSeed : Block 32) (adrs : Adrs) :
    Block 32 × Adrs :=
  genChainLoop pubSeed (start + steps) start input adrs

/-- The loop again, with its steps counted. -/
def genChainCountedLoop (pubSeed : Block 32) (stop i : UInt32) (out : Block 32) (count : UInt32)
    (adrs : Adrs) : (Block 32 × UInt32) × Adrs :=
  if i < stop ∧ i.toNat < wotsW then
    let (out, adrs) := thashF out pubSeed (adrs.setHashAddr i)
    genChainCountedLoop pubSeed stop (i + 1) out (count + 1) adrs
  else ((out, count), adrs)
termination_by wotsW - i.toNat
decreasing_by
  rename_i h
  rw [toNat_succ h.2]
  omega

def genChainCounted (input : Block 32) (start steps : UInt32) (pubSeed : Block 32) (adrs : Adrs) :
    (Block 32 × UInt32) × Adrs :=
  genChainCountedLoop pubSeed (start + steps) start input 0 adrs

variable (pubSeed : Block 32)

/-- The loop is as many steps as there are between its start and its stop. -/
theorem genChainLoop_eq (stop i : UInt32) (out : Block 32) (adrs : Adrs) :
    genChainLoop pubSeed stop i out adrs =
      genChainFrom pubSeed (min stop.toNat wotsW - i.toNat) i.toNat out adrs := by
  fun_induction genChainLoop pubSeed stop i out adrs with
  | case1 i out adrs h out' adrs' hstep ih =>
    rw [ih, toNat_succ h.2, walked_succ h, genChainFrom, UInt32.ofNat_toNat, hstep]
  | case2 i out adrs h =>
    rw [walked_end h]
    rfl

/-- The counted loop is the same steps, and counts them. -/
theorem genChainCountedLoop_eq (stop i : UInt32) (out : Block 32) (count : UInt32) (adrs : Adrs) :
    genChainCountedLoop pubSeed stop i out count adrs =
      (((genChainFrom pubSeed (min stop.toNat wotsW - i.toNat) i.toNat out adrs).1,
        count + .ofNat (min stop.toNat wotsW - i.toNat)),
        (genChainFrom pubSeed (min stop.toNat wotsW - i.toNat) i.toNat out adrs).2) := by
  fun_induction genChainCountedLoop pubSeed stop i out count adrs with
  | case1 i out count adrs h out' adrs' hstep ih =>
    have hcount (n : ℕ) : count + 1 + .ofNat n = count + .ofNat (n + 1) := by
      rw [UInt32.ofNat_add, UInt32.add_assoc, UInt32.add_comm 1]
      rfl
    rw [ih, toNat_succ h.2, walked_succ h, genChainFrom, UInt32.ofNat_toNat, hstep, hcount]
  | case2 i out count adrs h =>
    rw [walked_end h, show UInt32.ofNat 0 = 0 from rfl, UInt32.add_zero]
    rfl

variable (input : Block 32) (start steps : UInt32) (adrs : Adrs)

/-- The chain on words is the chain on numbers. -/
theorem genChain_eq : genChain input start steps pubSeed adrs =
    MochimoWallet.genChain input start.toNat steps.toNat pubSeed adrs := by
  rw [genChain, genChainLoop_eq, UInt32.toNat_add]
  rfl

theorem genChainCounted_eq : genChainCounted input start steps pubSeed adrs =
    (((genChain input start steps pubSeed adrs).1,
      .ofNat (min ((start.toNat + steps.toNat) % 2 ^ 32) wotsW - start.toNat)),
      (genChain input start steps pubSeed adrs).2) := by
  rw [genChainCounted, genChainCountedLoop_eq, genChain, genChainLoop_eq, UInt32.toNat_add,
    UInt32.zero_add]

/-- The counted chain on words is the counted chain on numbers. -/
theorem genChainCounted_eq_ofNat : genChainCounted input start steps pubSeed adrs =
    (((MochimoWallet.genChainCounted input start.toNat steps.toNat pubSeed adrs).1.1,
      .ofNat (MochimoWallet.genChainCounted input start.toNat steps.toNat pubSeed adrs).1.2),
      (MochimoWallet.genChainCounted input start.toNat steps.toNat pubSeed adrs).2) := by
  rw [genChainCounted_eq, genChain_eq, MochimoWallet.genChainCounted_eq]

theorem toNat_genChainCounted : (genChainCounted input start steps pubSeed adrs).1.2.toNat =
    min ((start.toNat + steps.toNat) % 2 ^ 32) wotsW - start.toNat := by
  have hw : wotsW = 16 := rfl
  rw [genChainCounted_eq, UInt32.toNat_ofNat']
  omega

/-- A chain walked in two goes, the second from where the first left value and address. -/
theorem genChainFrom_add (m n i : ℕ) (x : Block 32) (a : Adrs) :
    genChainFrom pubSeed (m + n) i x a =
      genChainFrom pubSeed n (i + m) (genChainFrom pubSeed m i x a).1
        (genChainFrom pubSeed m i x a).2 := by
  induction m generalizing i x a with
  | zero =>
    rw [Nat.zero_add]
    rfl
  | succ m ih =>
    rcases hstep : thashF x pubSeed (a.setHashAddr (.ofNat i)) with ⟨y, b⟩
    rw [Nat.add_right_comm]
    simp only [genChainFrom, hstep]
    rw [ih, Nat.add_right_comm, Nat.add_assoc]

theorem genChain_of_le {start steps : UInt32} (h : start.toNat + steps.toNat ≤ wotsW) :
    genChain input start steps pubSeed adrs =
      genChainFrom pubSeed steps.toNat start.toNat input adrs := by
  rw [genChain_eq, MochimoWallet.genChain, walked_of_le h]

theorem genChainCounted_of_le {start steps : UInt32} (h : start.toNat + steps.toNat ≤ wotsW) :
    genChainCounted input start steps pubSeed adrs =
      (((genChain input start steps pubSeed adrs).1, steps),
        (genChain input start steps pubSeed adrs).2) := by
  rw [genChainCounted_eq, walked_of_le h, UInt32.ofNat_toNat]

/-- A chain inside its length is as well walked in two goes. -/
theorem genChain_add {start k l : UInt32} (h : start.toNat + k.toNat + l.toNat ≤ wotsW) :
    genChain (genChain input start k pubSeed adrs).1 (start + k) l pubSeed
        (genChain input start k pubSeed adrs).2 = genChain input start (k + l) pubSeed adrs := by
  obtain ⟨hfirst, hsecond, hwhole⟩ := legs_of_le h
  rw [genChain_of_le _ _ _ hsecond, genChain_of_le _ _ _ hfirst, genChain_of_le _ _ _ hwhole,
    toNat_add_of_le hfirst, toNat_add_of_le (by omega : k.toNat + l.toNat ≤ wotsW), genChainFrom_add]

/-- The value of a chain reads the words of the address before the last two alone. -/
theorem genChainFrom_congr {a b : Adrs} (h : ∀ j : ℕ, j < 6 → b.words[j]? = a.words[j]?) (n i : ℕ)
    (x : Block 32) : (genChainFrom pubSeed n i x b).1 = (genChainFrom pubSeed n i x a).1 := by
  have hlen : 5 < a.words.length := by
    rw [a.length_eq]
    decide
  have ha : OnChain a a.words[5] a := ⟨.refl a, List.getElem?_eq_getElem hlen⟩
  have hb : OnChain a a.words[5] b := ⟨fun j hj => h j (by omega), (h 5 (by omega)).trans ha.2⟩
  rw [genChainFrom_fst pubSeed hb, genChainFrom_fst pubSeed ha]

/-- The two chains are one function: one value, one address left behind, and as many steps as
there are positions from the start to where the sum wraps to, short of the chain's end. Where the
end is not passed, a walk is as well made in two goes. -/
theorem chains_one_function (start steps : UInt32) :
    (genChainCounted input start steps pubSeed adrs).1.1 =
        (genChain input start steps pubSeed adrs).1 ∧
      (genChainCounted input start steps pubSeed adrs).2 =
        (genChain input start steps pubSeed adrs).2 ∧
      (genChainCounted input start steps pubSeed adrs).1.2.toNat =
        ((Finset.range 16).filter fun i =>
          start.toNat ≤ i ∧ i < (start.toNat + steps.toNat) % 2 ^ 32).card ∧
      ∀ k l : UInt32, start.toNat + k.toNat + l.toNat ≤ 16 →
        (let r := genChain input start k pubSeed adrs
         genChain r.1 (start + k) l pubSeed r.2 = genChain input start (k + l) pubSeed adrs ∧
          ∀ b : Adrs, (∀ j : ℕ, j < 6 → b.words[j]? = adrs.words[j]?) →
            (genChain r.1 (start + k) l pubSeed b).1 =
              (genChain input start (k + l) pubSeed adrs).1) ∧
        let r := genChainCounted input start k pubSeed adrs
        let s := genChainCounted r.1.1 (start + k) l pubSeed r.2
        ((s.1.1, r.1.2 + s.1.2), s.2) = genChainCounted input start (k + l) pubSeed adrs := by
  refine ⟨?_, ?_, ?_, fun k l h => ?_⟩
  · rw [genChainCounted_eq]
  · rw [genChainCounted_eq]
  · rw [toNat_genChainCounted, card_positions]
  obtain ⟨hfirst, hsecond, hwhole⟩ := legs_of_le h
  have htwo := genChain_add pubSeed input adrs h
  refine ⟨⟨htwo, fun b hb => ?_⟩, ?_⟩
  · rw [← htwo, genChain_of_le _ _ _ hsecond, genChain_of_le _ _ _ hsecond]
    refine genChainFrom_congr pubSeed (fun j hj => ?_) _ _ _
    rw [hb j hj, genChain_of_le _ _ _ hfirst, genChainFrom_snd]
    exact (Adrs.writes_of_notMem (notMem_chainWrites hj _ _) adrs).symm
  · simp only [genChainCounted_of_le _ _ _ hfirst, genChainCounted_of_le _ _ _ hsecond,
      genChainCounted_of_le _ _ _ hwhole, htwo]

end

end MochimoWallet.Native
