import Mathlib.Data.Nat.Notation
import Mathlib.Algebra.Group.Nat.Defs

/-!
# Checked machine arithmetic

`checkedAdd` and `checkedSub` on machine words answer `none` where the result
does not fit, as the checked operations of a systems language do; each carries
the lemma that states its result as a number.
-/

namespace Words

def checkedAdd32 (a b : UInt32) : Option UInt32 :=
  if a.toNat + b.toNat < 2 ^ 32 then some (a + b) else none

def checkedSub32 (a b : UInt32) : Option UInt32 :=
  if b.toNat ≤ a.toNat then some (a - b) else none

def checkedAdd64 (a b : UInt64) : Option UInt64 :=
  if a.toNat + b.toNat < 2 ^ 64 then some (a + b) else none

def checkedSub64 (a b : UInt64) : Option UInt64 :=
  if b.toNat ≤ a.toNat then some (a - b) else none

def checkedMul64 (a b : UInt64) : Option UInt64 :=
  if a.toNat * b.toNat < 2 ^ 64 then some (a * b) else none

/-- Addition that stops at the largest word. -/
def saturatingAdd32 (a b : UInt32) : UInt32 :=
  (checkedAdd32 a b).getD (.ofNat (2 ^ 32 - 1))

def saturatingAdd64 (a b : UInt64) : UInt64 :=
  (checkedAdd64 a b).getD (.ofNat (2 ^ 64 - 1))

/-- Subtraction that stops at zero. -/
def saturatingSub64 (a b : UInt64) : UInt64 := (checkedSub64 a b).getD 0

theorem checkedAdd32_eq_some {a b c : UInt32} :
    checkedAdd32 a b = some c ↔ c.toNat = a.toNat + b.toNat := by
  have hc : c.toNat < 2 ^ 32 := c.toNat_lt
  unfold checkedAdd32
  split
  · next h =>
    rw [Option.some.injEq, ← UInt32.toNat_inj, UInt32.toNat_add, Nat.mod_eq_of_lt h]
    exact eq_comm
  · next h => exact iff_of_false (by simp) (by omega)

theorem checkedAdd32_eq_none {a b : UInt32} :
    checkedAdd32 a b = none ↔ 2 ^ 32 ≤ a.toNat + b.toNat := by
  unfold checkedAdd32
  split
  · next h => exact iff_of_false (by simp) (by omega)
  · next h => exact iff_of_true rfl (by omega)

theorem checkedSub32_eq_some {a b c : UInt32} :
    checkedSub32 a b = some c ↔ c.toNat + b.toNat = a.toNat := by
  unfold checkedSub32
  split
  · next h =>
    rw [Option.some.injEq, ← UInt32.toNat_inj, UInt32.toNat_sub_of_le _ _ h]
    omega
  · next h => exact iff_of_false (by simp) (by omega)

theorem checkedSub32_eq_none {a b : UInt32} :
    checkedSub32 a b = none ↔ a.toNat < b.toNat := by
  unfold checkedSub32
  split
  · next h => exact iff_of_false (by simp) (by omega)
  · next h => exact iff_of_true rfl (by omega)

theorem checkedAdd64_eq_some {a b c : UInt64} :
    checkedAdd64 a b = some c ↔ c.toNat = a.toNat + b.toNat := by
  have hc : c.toNat < 2 ^ 64 := c.toNat_lt
  unfold checkedAdd64
  split
  · next h =>
    rw [Option.some.injEq, ← UInt64.toNat_inj, UInt64.toNat_add, Nat.mod_eq_of_lt h]
    exact eq_comm
  · next h => exact iff_of_false (by simp) (by omega)

theorem toNat_saturatingAdd32_le (a b : UInt32) : (saturatingAdd32 a b).toNat ≤ a.toNat + b.toNat := by
  unfold saturatingAdd32
  rcases h : checkedAdd32 a b with _ | c
  · have hfull := checkedAdd32_eq_none.mp h
    have hmax : (UInt32.ofNat (2 ^ 32 - 1)).toNat = 2 ^ 32 - 1 := rfl
    rw [Option.getD_none]
    omega
  · exact Nat.le_of_eq (checkedAdd32_eq_some.mp h)

theorem exists_checkedAdd64 {a b : UInt64} (h : a.toNat + b.toNat < 2 ^ 64) :
    ∃ c, checkedAdd64 a b = some c ∧ c.toNat = a.toNat + b.toNat :=
  ⟨a + b, if_pos h, checkedAdd64_eq_some.mp (if_pos h)⟩

theorem checkedSub64_eq_some {a b c : UInt64} :
    checkedSub64 a b = some c ↔ c.toNat + b.toNat = a.toNat := by
  unfold checkedSub64
  split
  · next h =>
    rw [Option.some.injEq, ← UInt64.toNat_inj, UInt64.toNat_sub_of_le _ _ h]
    omega
  · next h => exact iff_of_false (by simp) (by omega)

theorem checkedSub64_eq_none {a b : UInt64} :
    checkedSub64 a b = none ↔ a.toNat < b.toNat := by
  unfold checkedSub64
  split
  · next h => exact iff_of_false (by simp) (by omega)
  · next h => exact iff_of_true rfl (by omega)

theorem checkedAdd64_some {a b c : UInt64} (h : checkedAdd64 a b = some c) : c = a + b := by
  unfold checkedAdd64 at h
  split at h <;> cases h
  rfl

theorem checkedSub64_some {a b c : UInt64} (h : checkedSub64 a b = some c) : b ≤ a ∧ c = a - b := by
  unfold checkedSub64 at h
  split at h <;> cases h
  next hle => exact ⟨UInt64.le_iff_toNat_le.mpr hle, rfl⟩

theorem saturatingSub64_eq (a b : UInt64) : saturatingSub64 a b = if b ≤ a then a - b else 0 := by
  unfold saturatingSub64 checkedSub64
  simp only [UInt64.le_iff_toNat_le]
  split <;> rfl

theorem toNat_saturatingSub64 (a b : UInt64) :
    (saturatingSub64 a b).toNat = a.toNat - b.toNat := by
  unfold saturatingSub64
  rcases h : checkedSub64 a b with _ | c
  · have hlt := checkedSub64_eq_none.mp h
    simp only [Option.getD_none, UInt64.toNat_zero]
    omega
  · have hsum := checkedSub64_eq_some.mp h
    simp only [Option.getD_some]
    omega

end Words
