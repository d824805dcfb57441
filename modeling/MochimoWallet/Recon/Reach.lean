import MochimoWallet.Recon.Classify
import MochimoWallet.Recon.Watched

/-!
# What a walk can reach

The positions of a scope are a window around the stored position and the range below the ceiling,
each of them once (`positions_eq`, `nodup_positions`). `reach` counts them from the scope's edges
alone, in 64-bit arithmetic that never overflows (`reachTotal_eq`), and it is how many there are.
-/

namespace MochimoWallet

open Codec Words

namespace ScanScope

variable (scope : ScanScope) (stored : Option WotsIndex)

/-- The position is in the window around the stored one; the last word never is. -/
def InWindow (i : WotsIndex) : Prop :=
  ∃ w s, scope.window = some w ∧ stored = some s ∧ s.pos - w.toNat ≤ i.pos ∧
    i.pos ≤ s.pos + w.toNat ∧ i.pos ≠ u32Max

/-- The window as numbers, and the range below the ceiling without it. -/
def windowNats : List ℕ :=
  match scope.windowEdges stored with
  | some (lo, hi) => List.range' lo (hi + 1 - lo)
  | none => []

def belowNats : List ℕ :=
  (List.range scope.ceiling.toNat).filter fun i =>
    !(scope.windowEdges stored).any fun (lo, hi) => lo ≤ i && i ≤ hi

variable {scope stored}

theorem positions_eq : scope.positions stored =
    (scope.windowNats stored).map (fun i => ⟨.ofNat i⟩) ++
      (scope.belowNats stored).map fun i => ⟨.ofNat i⟩ :=
  List.map_append

/-- The window's edges stand in order, short of the last word. -/
theorem windowEdges_bounds {lo hi : ℕ} (h : scope.windowEdges stored = some (lo, hi)) :
    lo ≤ hi + 1 ∧ hi < u32Max := by
  have hmax : u32Max = 2 ^ 32 - 1 := rfl
  unfold windowEdges at h
  split at h
  · next w s _ =>
    have hs := s.pos_lt
    cases h
    omega
  · cases h

theorem mem_windowNats {i : WotsIndex} : i.pos ∈ scope.windowNats stored ↔ scope.InWindow stored i := by
  have hmax : u32Max = 2 ^ 32 - 1 := rfl
  have hi := i.pos_lt
  unfold windowNats windowEdges InWindow
  rcases scope.window with _ | w
  · simp
  rcases stored with _ | s
  · simp
  simp only [List.mem_range'_1, Option.some.injEq]
  constructor
  · rintro ⟨hlo, hhi⟩
    exact ⟨w, s, rfl, rfl, by omega, by omega, by omega⟩
  · rintro ⟨_, _, rfl, rfl, hlo, hhi, hne⟩
    omega

theorem mem_belowNats {i : WotsIndex} :
    i.pos ∈ scope.belowNats stored ↔ i.pos < scope.ceiling.toNat ∧ ¬ scope.InWindow stored i := by
  rw [← mem_windowNats, belowNats, List.mem_filter, List.mem_range, windowNats]
  refine and_congr_right fun _ => ?_
  rcases scope.windowEdges stored with _ | ⟨lo, hi⟩
  · simp
  · simp only [Option.any_some, List.mem_range'_1, Bool.not_eq_true', Bool.and_eq_false_iff,
      decide_eq_false_iff_not]
    omega

theorem lt_of_mem_windowNats {j : ℕ} (h : j ∈ scope.windowNats stored) : j < u32Max := by
  unfold windowNats at h
  split at h
  · next lo hi hedges =>
    obtain ⟨hle, hlt⟩ := windowEdges_bounds hedges
    rw [List.mem_range'_1] at h
    omega
  · cases h

theorem lt_of_mem_belowNats {j : ℕ} (h : j ∈ scope.belowNats stored) : j < u32Max := by
  have hmax : u32Max = 2 ^ 32 - 1 := rfl
  have hceiling := scope.ceiling.toNat_lt
  have hj := List.mem_range.mp (List.mem_of_mem_filter h)
  omega

theorem pairwise_windowNats : (scope.windowNats stored).Pairwise (· < ·) := by
  unfold windowNats
  split
  · exact List.pairwise_lt_range'
  · exact .nil

theorem pairwise_belowNats : (scope.belowNats stored).Pairwise (· < ·) :=
  List.pairwise_lt_range.filter _

/-- Numbers in order, as positions. -/
theorem pairwise_pos {l : List ℕ} (hl : l.Pairwise (· < ·)) (hlt : ∀ j ∈ l, j < u32Max) :
    (l.map fun i => (⟨.ofNat i⟩ : WotsIndex)).Pairwise fun a b => a.pos < b.pos := by
  have hmax : u32Max = 2 ^ 32 - 1 := rfl
  rw [List.pairwise_map]
  refine hl.imp_of_mem fun {a b} ha hb hab => ?_
  rw [WotsIndex.pos_ofNat (by have := hlt a ha; omega), WotsIndex.pos_ofNat (by have := hlt b hb; omega)]
  exact hab

theorem mem_positions_iff {i : WotsIndex} :
    i ∈ scope.positions stored ↔ scope.InWindow stored i ∨ i.pos < scope.ceiling.toNat := by
  have hmax : u32Max = 2 ^ 32 - 1 := rfl
  rw [positions_eq, List.mem_append,
    mem_map_positions fun j hj => by have := lt_of_mem_windowNats hj; omega,
    mem_map_positions fun j hj => by have := lt_of_mem_belowNats hj; omega,
    mem_windowNats, mem_belowNats]
  by_cases h : scope.InWindow stored i <;> simp [h]

theorem nodup_positions : (scope.positions stored).Nodup := by
  have hmax : u32Max = 2 ^ 32 - 1 := rfl
  have hpart {l : List WotsIndex} (h : l.Pairwise fun a b => a.pos < b.pos) : l.Nodup :=
    h.imp fun hab heq => by rw [heq] at hab; omega
  rw [positions_eq]
  refine List.nodup_append'.mpr ⟨hpart (pairwise_pos pairwise_windowNats fun _ => lt_of_mem_windowNats),
    hpart (pairwise_pos pairwise_belowNats fun _ => lt_of_mem_belowNats), fun i hwindow hbelow => ?_⟩
  rw [mem_map_positions fun j hj => by have := lt_of_mem_windowNats hj; omega] at hwindow
  rw [mem_map_positions fun j hj => by have := lt_of_mem_belowNats hj; omega] at hbelow
  exact (mem_belowNats.mp hbelow).2 (mem_windowNats.mp hwindow)

/-! ## How many there are -/

/-- The numbers below `c` that are not between two others. -/
theorem length_filter_outside {lo hi : ℕ} (h : lo ≤ hi + 1) (c : ℕ) :
    ((List.range c).filter fun i => !(decide (lo ≤ i) && decide (i ≤ hi))).length =
      c - (min (hi + 1) c - lo) := by
  induction c with
  | zero => simp
  | succ c ih =>
    rw [List.range_succ, List.filter_append, List.length_append, ih]
    by_cases hin : lo ≤ c ∧ c ≤ hi
    · rw [List.filter_cons_of_neg (by simpa using hin)]
      simp only [List.filter_nil, List.length_nil]
      omega
    · rw [List.filter_cons_of_pos (by simp; omega)]
      simp only [List.filter_nil, List.length_cons, List.length_nil]
      omega

theorem length_positions : (scope.positions stored).length =
    match scope.windowEdges stored with
    | none => scope.ceiling.toNat
    | some (lo, hi) =>
      (hi + 1 - lo) + (scope.ceiling.toNat - (min (hi + 1) scope.ceiling.toNat - lo)) := by
  rw [positions_eq, List.length_append, List.length_map, List.length_map, windowNats, belowNats]
  rcases hedges : scope.windowEdges stored with _ | ⟨lo, hi⟩
  · simp
  · simp only [List.length_range', Option.any_some]
    rw [length_filter_outside (windowEdges_bounds hedges).1]

theorem length_positions_le : (scope.positions stored).length ≤ u32Max := by
  have hmax : u32Max = 2 ^ 32 - 1 := rfl
  have hceiling := scope.ceiling.toNat_lt
  rw [length_positions]
  rcases hedges : scope.windowEdges stored with _ | ⟨lo, hi⟩
  · dsimp only
    omega
  · obtain ⟨hle, hlt⟩ := windowEdges_bounds hedges
    show hi + 1 - lo + (scope.ceiling.toNat - (min (hi + 1) scope.ceiling.toNat - lo)) ≤ u32Max
    omega

/-- What the window holds of the range below the ceiling, in words that are checked. -/
def sharedTotal (ceiling lo hi : UInt64) : Option UInt64 :=
  match checkedSub64 ceiling 1 with
  | none => some 0
  | some last => do
    let top ← checkedAdd64 (min hi last) 1
    some (saturatingSub64 top lo)

/-- The count as it is computed, in words that are checked: `none` where one overflows. -/
def reachTotal (scope : ScanScope) (stored : Option WotsIndex) : Option UInt64 :=
  let ceiling := scope.ceiling.toUInt64
  match scope.windowEdges stored with
  | none => some ceiling
  | some (lo, hi) => do
    let (lo, hi) := (UInt64.ofNat lo, UInt64.ofNat hi)
    let top ← checkedAdd64 hi 1
    let window := saturatingSub64 top lo
    let shared ← sharedTotal ceiling lo hi
    let both ← checkedAdd64 window ceiling
    checkedSub64 both shared

theorem sharedTotal_eq {ceiling : UInt64} (lo hi : UInt64) (hceiling : ceiling.toNat < 2 ^ 32) :
    ∃ shared, sharedTotal ceiling lo hi = some shared ∧
      shared.toNat = min (hi.toNat + 1) ceiling.toNat - lo.toNat := by
  have hone : (1 : UInt64).toNat = 1 := rfl
  unfold sharedTotal
  rcases hlast : checkedSub64 ceiling 1 with _ | last
  · have hzero := checkedSub64_eq_none.mp hlast
    exact ⟨0, rfl, by rw [UInt64.toNat_zero]; omega⟩
  · have hsum := checkedSub64_eq_some.mp hlast
    have hmin : (min hi last).toNat = min hi.toNat last.toNat := by
      have heq : min hi last = if hi ≤ last then hi else last := rfl
      rw [heq, min_def]
      simp only [UInt64.le_iff_toNat_le]
      split <;> rfl
    obtain ⟨top, htop, htopNat⟩ := exists_checkedAdd64 (a := min hi last) (b := 1) (by omega)
    have hsat := toNat_saturatingSub64 top lo
    refine ⟨saturatingSub64 top lo, ?_, by omega⟩
    simp only [htop, Option.bind_eq_bind, Option.bind_some]

/-- Nothing overflows, and the count is how many positions there are. -/
theorem reachTotal_eq : ∃ total, scope.reachTotal stored = some total ∧
    total.toNat = (scope.positions stored).length := by
  have hmax : u32Max = 2 ^ 32 - 1 := rfl
  have hone : (1 : UInt64).toNat = 1 := rfl
  have hceiling : scope.ceiling.toUInt64.toNat < 2 ^ 32 := by
    rw [UInt32.toNat_toUInt64]
    exact scope.ceiling.toNat_lt
  rw [length_positions]
  unfold reachTotal
  rcases hedges : scope.windowEdges stored with _ | ⟨lo, hi⟩
  · exact ⟨_, rfl, UInt32.toNat_toUInt64 _⟩
  obtain ⟨hle, hlt⟩ := windowEdges_bounds hedges
  have hlo : (UInt64.ofNat lo).toNat = lo := by
    rw [UInt64.toNat_ofNat']
    omega
  have hhi : (UInt64.ofNat hi).toNat = hi := by
    rw [UInt64.toNat_ofNat']
    omega
  dsimp only
  rw [← UInt32.toNat_toUInt64]
  generalize scope.ceiling.toUInt64 = ceiling at hceiling ⊢
  obtain ⟨top, htop, htopNat⟩ := exists_checkedAdd64 (a := .ofNat hi) (b := 1) (by omega)
  have hwindow := toNat_saturatingSub64 top (.ofNat lo)
  obtain ⟨shared, hshared, hsharedNat⟩ :=
    sharedTotal_eq (.ofNat lo) (.ofNat hi) hceiling
  obtain ⟨both, hboth, hbothNat⟩ :=
    exists_checkedAdd64 (a := saturatingSub64 top (.ofNat lo)) (b := ceiling) (by omega)
  obtain ⟨total, htotal⟩ : ∃ total, checkedSub64 both shared = some total :=
    ⟨_, if_pos (by omega)⟩
  have htotalNat := checkedSub64_eq_some.mp htotal
  refine ⟨total, ?_, ?_⟩
  · simp only [htop, hshared, hboth, htotal, Option.bind_eq_bind, Option.bind_some]
  · show total.toNat = hi + 1 - lo + (ceiling.toNat - (min (hi + 1) ceiling.toNat - lo))
    omega

/-- The count that is reported is the checked one. -/
theorem reach_of_reachTotal {total : UInt64} (h : scope.reachTotal stored = some total) :
    scope.reach stored = countOf total.toNat := by
  unfold reachTotal at h
  unfold reach
  rcases hedges : scope.windowEdges stored with _ | ⟨lo, hi⟩ <;> rw [hedges] at h
  · cases h
    rfl
  simp only [Option.bind_eq_bind, Option.bind_eq_some_iff] at h
  obtain ⟨top, htop, shared, hshared, both, hboth, htotal⟩ := h
  obtain rfl := checkedAdd64_some htop
  obtain rfl := checkedAdd64_some hboth
  obtain ⟨-, rfl⟩ := checkedSub64_some htotal
  unfold sharedTotal at hshared
  rcases hlast : checkedSub64 scope.ceiling.toUInt64 1 with _ | last <;> rw [hlast] at hshared
  · have hzero : ¬ 1 ≤ scope.ceiling.toUInt64 := by
      rw [UInt64.le_iff_toNat_le, not_le]
      exact checkedSub64_eq_none.mp hlast
    cases hshared
    simp only [saturatingSub64_eq, if_neg hzero]
  · obtain ⟨hone, rfl⟩ := checkedSub64_some hlast
    simp only [Option.bind_eq_bind, Option.bind_eq_some_iff, Option.some.injEq] at hshared
    obtain ⟨least, hleast, rfl⟩ := hshared
    obtain rfl := checkedAdd64_some hleast
    simp only [saturatingSub64_eq, if_pos hone]

theorem toNat_reach : (scope.reach stored).toNat = (scope.positions stored).length := by
  have hmax : u32Max = 2 ^ 32 - 1 := rfl
  have hle : (scope.positions stored).length ≤ u32Max := length_positions_le
  obtain ⟨total, htotal, hlength⟩ : ∃ total, scope.reachTotal stored = some total ∧
      total.toNat = (scope.positions stored).length := reachTotal_eq
  rw [reach_of_reachTotal htotal, hlength, countOf, if_pos hle, UInt32.toNat_ofNat']
  omega

end ScanScope

end MochimoWallet
