import Mathlib.Logic.Function.Iterate
import MochimoWallet.Derive
import MochimoWallet.Lib.Words

/-!
# The generator, draw after draw

A generator is a stream of states, and a draw takes as many of them as its bytes begin
(`fill_eq`): what is left of the last one is thrown away, so two draws are one where the first
ends with a state (`fill_fill`). The counters say how many states there have been, and from that
alone how often the seed has cycled (`counted_run`).
-/

namespace MochimoWallet.DigestRandomGenerator

open Codec Words

section
variable [Crypto]

/-! ## The stream of states -/

/-- The bytes of the next `k` states, each of them fresh. -/
def stream : ℕ → DigestRandomGenerator → Bytes
  | 0, _ => []
  | k + 1, g => g.generateState.state.1 ++ stream k g.generateState

/-- How many states `n` bytes begin. -/
def statesOf (n : ℕ) : ℕ := (n + stateLen - 1) / stateLen

variable {g : DigestRandomGenerator}

theorem length_stream (k : ℕ) (g : DigestRandomGenerator) : (stream k g).length = 64 * k := by
  induction k generalizing g with
  | zero => rfl
  | succ k ih =>
    rw [stream, List.length_append, ih, g.generateState.state.2, stateLen]
    omega

theorem stream_add (j k : ℕ) (g : DigestRandomGenerator) :
    stream (j + k) g = stream j g ++ stream k (generateState^[j] g) := by
  induction j generalizing g with
  | zero =>
    rw [Nat.zero_add]
    rfl
  | succ j ih => rw [Nat.add_right_comm, stream, ih, stream, List.append_assoc, Function.iterate_succ_apply]

theorem fillChunks_eq (k n : ℕ) (g : DigestRandomGenerator) :
    fillChunks k n g = ((stream k g).take n, generateState^[k] g) := by
  induction k generalizing n g with
  | zero => rw [stream, List.take_nil]; rfl
  | succ k ih =>
    have hlen : g.generateState.state.1.length = stateLen := g.generateState.state.2
    simp only [fillChunks, ih, stream, List.take_append, hlen, Function.iterate_succ_apply]

/-- A draw is the front of the stream, and leaves the generator past the states it began. -/
theorem fill_eq (g : DigestRandomGenerator) (n : ℕ) :
    (g.fill n).1.1 = (stream (statesOf n) g).take n ∧ (g.fill n).2 = generateState^[statesOf n] g := by
  have hfill : fillChunks ((n + stateLen - 1) / stateLen) n g =
      ((stream (statesOf n) g).take n, generateState^[statesOf n] g) := fillChunks_eq _ _ _
  rw [fill]
  exact ⟨congrArg Prod.fst hfill, congrArg Prod.snd hfill⟩

/-! ## Two draws -/

omit [Crypto] in
/-- The states a draw begins hold its bytes and the rest of the last one. -/
theorem statesOf_bounds (n : ℕ) : n ≤ 64 * statesOf n ∧ 64 * statesOf n < n + 64 := by
  have hlen : stateLen = 64 := rfl
  unfold statesOf
  rw [hlen]
  omega

/-- Draws of whole states are one draw with what follows them. -/
theorem fill_fill {a : ℕ} (h : 64 ∣ a) (g : DigestRandomGenerator) (b : ℕ) :
    (g.fill a).1.1 ++ ((g.fill a).2.fill b).1.1 = (g.fill (a + b)).1.1 ∧
      ((g.fill a).2.fill b).2 = (g.fill (a + b)).2 := by
  have ha := statesOf_bounds a
  have hb := statesOf_bounds b
  have hab := statesOf_bounds (a + b)
  have hadd : statesOf (a + b) = statesOf a + statesOf b := by omega
  have hlength : (stream (statesOf a) g).length = a := by
    rw [length_stream]
    omega
  rw [(fill_eq g a).1, (fill_eq g a).2, (fill_eq g (a + b)).1, (fill_eq g (a + b)).2,
    (fill_eq _ b).1, (fill_eq _ b).2, hadd]
  constructor
  · have hfront : (stream (statesOf a) g).take (a + b) = stream (statesOf a) g :=
      List.take_of_length_le (by omega)
    rw [stream_add, List.take_of_length_le hlength.le, List.take_append, hfront, hlength,
      Nat.add_sub_cancel_left]
  · rw [Nat.add_comm, Function.iterate_add_apply]

/-- A draw that ends inside a state throws the rest of it away: it is the longer draw without it. -/
theorem fill_tail {a : ℕ} (h : ¬ 64 ∣ a) (g : DigestRandomGenerator) :
    (g.fill a).1.1 ++ (g.fill a).2.state.1.drop (a % 64) = (g.fill (a + (64 - a % 64))).1.1 ∧
      (g.fill a).2 = (g.fill (a + (64 - a % 64))).2 := by
  have ha := statesOf_bounds a
  have hwhole := statesOf_bounds (a + (64 - a % 64))
  have hsame : statesOf (a + (64 - a % 64)) = a / 64 + 1 := by omega
  have hstates : statesOf a = a / 64 + 1 := by omega
  have hfront : (stream (a / 64) g).length = 64 * (a / 64) := length_stream _ g
  have hall : (stream (a / 64 + 1) g).length = a + (64 - a % 64) := by
    rw [length_stream]
    omega
  have hlast : stream (a / 64 + 1) g =
      stream (a / 64) g ++ (generateState^[a / 64 + 1] g).state.1 := by
    rw [stream_add, Function.iterate_succ_apply']
    exact congrArg _ (List.append_nil _)
  have htail : (stream (a / 64 + 1) g).drop a =
      (generateState^[a / 64 + 1] g).state.1.drop (a % 64) := by
    have hnone : (stream (a / 64) g).drop a = [] := List.drop_eq_nil_of_le (by omega)
    rw [hlast, List.drop_append, hnone, hfront, List.nil_append]
    congr 1
    omega
  rw [(fill_eq g a).1, (fill_eq g a).2, (fill_eq g (a + (64 - a % 64))).1,
    (fill_eq g (a + (64 - a % 64))).2, hsame, hstates]
  refine ⟨?_, rfl⟩
  rw [← htail, List.take_append_drop, ← hall, List.take_length]

/-! ## A first key -/

/-- The secret of a key is the front of the first state, and its public seed and hash address stand
a public key's length into the states after it. -/
theorem firstKey_deriveSeed (seed : Bytes) (id : UInt32) :
    let g := new.addSeedMaterial (Crypto.sha512 (seed ++ (indexBytes id).1)).1
    let key := firstKey (deriveSeed seed id)
    key.secret.1 = (stream 36 g).take seedLen ∧
      key.pubSeed.1 = ((stream 36 g).drop (stateLen + pkLen)).take seedLen ∧
      key.adrs.leImage.1 = ((stream 36 g).drop (stateLen + pkLen + seedLen)).take 32 := by
  intro g key
  have hsplit : stream 36 g = stream 1 g ++ stream 35 g.generateState := stream_add 1 35 g
  have hone : (stream 1 g).length = stateLen := length_stream 1 g
  have hsecret : key.secret.1 = (stream 1 g).take seedLen := (fill_eq g seedLen).1
  have hbuf : ((g.fill seedLen).2.fill wotsAddrLen).1.1 = (stream 35 g.generateState).take wotsAddrLen := by
    rw [(fill_eq g seedLen).2]
    exact (fill_eq g.generateState wotsAddrLen).1
  -- What stands in the buffer stands as far behind the first state.
  have hread (i len : ℕ) (h : i + len ≤ wotsAddrLen) :
      (((g.fill seedLen).2.fill wotsAddrLen).1.slice i len h).1 =
        ((stream 36 g).drop (stateLen + i)).take len := by
    rw [Block.slice_bytes, hbuf, hsplit, ← hone, List.drop_length_add_append, List.drop_take,
      List.take_take, Nat.min_eq_left (by omega)]
  refine ⟨?_, hread pkLen seedLen (by decide), ?_⟩
  · rw [hsecret, hsplit, List.take_append_of_le_length (by rw [hone]; decide)]
  · have hadrs : key.adrs.leImage =
        ((g.fill seedLen).2.fill wotsAddrLen).1.slice (pkLen + seedLen) 32 :=
      Adrs.leImage_fromLeImage _
    rw [hadrs, hread, Nat.add_assoc]

/-! ## Counting -/

/-- How many states have been generated, and how often the seed has cycled. -/
def statesGenerated (g : DigestRandomGenerator) : UInt64 := saturatingSub64 g.stateCounter 1

def seedCycles (g : DigestRandomGenerator) : UInt64 := saturatingSub64 g.seedCounter 1

/-- The counters after `n` states. -/
structure Counted (n : ℕ) (g : DigestRandomGenerator) : Prop where
  states : g.stateCounter.toNat = n + 1
  seeds : g.seedCounter.toNat = (n + 1) / 10 + 1

omit [Crypto] in
theorem counted_new : Counted 0 new := ⟨rfl, rfl⟩

/-- A state is counted, and the seed cycles where the count it leaves is a tenth. -/
theorem Counted.generateState {n : ℕ} (h : Counted n g) (hn : n + 2 < 2 ^ 64) :
    Counted (n + 1) g.generateState := by
  obtain ⟨hstates, hseeds⟩ := h
  have hone : (1 : UInt64).toNat = 1 := rfl
  have hnext : (g.stateCounter + 1).toNat = n + 2 := by
    rw [UInt64.toNat_add]
    omega
  have hseed : (g.seedCounter + 1).toNat = (n + 1) / 10 + 2 := by
    rw [UInt64.toNat_add]
    omega
  unfold DigestRandomGenerator.generateState
  simp only [hnext, cycleCount]
  split
  · refine ⟨hnext, ?_⟩
    rw [cycleSeed, hseed]
    omega
  · refine ⟨hnext, ?_⟩
    rw [hseeds]
    omega

theorem Counted.iterate {n k : ℕ} (h : Counted n g) (hk : n + k + 1 < 2 ^ 64) :
    Counted (n + k) (DigestRandomGenerator.generateState^[k] g) := by
  induction k with
  | zero => exact h
  | succ k ih =>
    rw [Function.iterate_succ_apply']
    exact (ih (by omega)).generateState (by omega)

/-! ## Runs -/

/-- What a caller asks of a generator. -/
inductive Draw where
  | addSeedMaterial (material : Bytes)
  | fill (n : ℕ)
  deriving DecidableEq

/-- How many states a call draws. -/
def Draw.states : Draw → ℕ
  | .addSeedMaterial _ => 0
  | .fill n => (n + 63) / 64

def after (g : DigestRandomGenerator) : Draw → DigestRandomGenerator
  | .addSeedMaterial material => g.addSeedMaterial material
  | .fill n => (g.fill n).2

def run (g : DigestRandomGenerator) (calls : List Draw) : DigestRandomGenerator :=
  calls.foldl after g

theorem Counted.after {n : ℕ} (h : Counted n g) (call : Draw) (hn : n + call.states + 1 < 2 ^ 64) :
    Counted (n + call.states) (g.after call) := by
  cases call with
  | addSeedMaterial material => exact ⟨h.states, h.seeds⟩
  | fill m =>
    rw [DigestRandomGenerator.after, (fill_eq g m).2]
    exact h.iterate hn

theorem Counted.run {n : ℕ} {calls : List Draw} (h : Counted n g)
    (hn : n + (calls.map Draw.states).sum + 1 < 2 ^ 64) :
    Counted (n + (calls.map Draw.states).sum) (g.run calls) := by
  induction calls generalizing n g with
  | nil => exact h
  | cons call calls ih =>
    rw [List.map_cons, List.sum_cons, ← Nat.add_assoc] at hn ⊢
    exact ih (h.after call (by omega)) hn

/-- Whatever has been asked of a fresh generator, it counts a state for every 64 bytes a draw
begins, and its seed has cycled at the ninth state and every tenth after it. Two draws are one
where the first ends with a state, and otherwise one that draws the rest of that state between
them. -/
theorem generator_accounting (calls : List Draw) (h : (calls.map Draw.states).sum + 1 < 2 ^ 64) :
    (new.run calls).statesGenerated.toNat = (calls.map Draw.states).sum ∧
      (new.run calls).seedCycles.toNat = ((calls.map Draw.states).sum + 1) / 10 ∧
      ∀ (g : DigestRandomGenerator) (a b : ℕ),
        (64 ∣ a → (g.fill a).1.1 ++ ((g.fill a).2.fill b).1.1 = (g.fill (a + b)).1.1 ∧
          ((g.fill a).2.fill b).2 = (g.fill (a + b)).2) ∧
        (¬ 64 ∣ a → (g.fill a).1.1 ++ (g.fill a).2.state.1.drop (a % 64) ++
            ((g.fill a).2.fill b).1.1 = (g.fill (a + (64 - a % 64) + b)).1.1 ∧
          ((g.fill a).2.fill b).2 = (g.fill (a + (64 - a % 64) + b)).2) := by
  have hone : (1 : UInt64).toNat = 1 := rfl
  have hcounted : Counted (0 + (calls.map Draw.states).sum) (new.run calls) :=
    counted_new.run (by omega)
  rw [Nat.zero_add] at hcounted
  refine ⟨?_, ?_, fun g a b => ⟨fun ha => fill_fill ha g b, fun ha => ?_⟩⟩
  · rw [statesGenerated, toNat_saturatingSub64, hcounted.states]
    omega
  · rw [seedCycles, toNat_saturatingSub64, hcounted.seeds]
    omega
  · have hdvd : 64 ∣ a + (64 - a % 64) := by omega
    obtain ⟨hbytes, hstate⟩ := fill_tail ha g
    rw [hbytes, hstate]
    exact fill_fill hdvd g b

end

section
attribute [local instance] Crypto.plain

theorem generator_accounting_seeded :
    (new.run [.addSeedMaterial [1, 2], .fill 32, .fill 2208]).statesGenerated.toNat = 36 ∧
      (new.run [.addSeedMaterial [1, 2], .fill 32, .fill 2208]).seedCycles.toNat = 3 :=
  have haccount := generator_accounting [.addSeedMaterial [1, 2], .fill 32, .fill 2208] (by decide)
  ⟨haccount.1, haccount.2.1⟩

end

end MochimoWallet.DigestRandomGenerator
