import Mathlib.Data.List.Forall2
import Mathlib.Data.Nat.Digits.Defs

/-!
# Checksummed digits

A word of base-`w` digits is followed by the digits of its shortfall: how much its digits
are together short of the largest. Raising a digit lowers the shortfall, so of two such
words neither is at every place at most the other (`eq_of_forall₂`), and words that differ
each have a place where they are above the other (`exists_lt`).
-/

namespace Winternitz

/-- The number of these digits, the most significant first. -/
def value (w : ℕ) (ds : List ℕ) : ℕ := Nat.ofDigits w ds.reverse

def shortfall (w : ℕ) (ds : List ℕ) : ℕ := (ds.map fun d => w - 1 - d).sum

variable {w : ℕ} {ds es : List ℕ}

theorem ofDigits_le (h : List.Forall₂ (· ≤ ·) ds es) : Nat.ofDigits w ds ≤ Nat.ofDigits w es := by
  induction h with
  | nil => exact le_rfl
  | cons hd _ ih =>
    rw [Nat.ofDigits_cons, Nat.ofDigits_cons]
    exact Nat.add_le_add hd (Nat.mul_le_mul_left w ih)

theorem value_le (h : List.Forall₂ (· ≤ ·) ds es) : value w ds ≤ value w es :=
  ofDigits_le (List.rel_reverse h)

theorem shortfall_le (h : List.Forall₂ (· ≤ ·) ds es) : shortfall w es ≤ shortfall w ds := by
  induction h with
  | nil => exact le_rfl
  | cons hd _ ih =>
    simp only [shortfall, List.map_cons, List.sum_cons] at ih ⊢
    omega

theorem eq_of_shortfall_le (h : List.Forall₂ (· ≤ ·) ds es) (he : ∀ e ∈ es, e < w)
    (hle : shortfall w ds ≤ shortfall w es) : ds = es := by
  induction h with
  | nil => rfl
  | cons hd htl ih =>
    have hbelow := shortfall_le (w := w) htl
    have hlt := he _ List.mem_cons_self
    simp only [shortfall, List.map_cons, List.sum_cons] at hbelow hle ih
    rw [ih (fun e hmem => he e (List.mem_cons_of_mem _ hmem)) (by omega)]
    congr 1
    omega

/-- A checksummed word that is nowhere above another is that word. -/
theorem eq_of_forall₂ {cs cs' : List ℕ} (hlen : ds.length = es.length)
    (h : List.Forall₂ (· ≤ ·) (ds ++ cs) (es ++ cs')) (he : ∀ e ∈ es, e < w)
    (hcs : value w cs = shortfall w ds) (hcs' : value w cs' = shortfall w es) : ds = es := by
  have hword : List.Forall₂ (· ≤ ·) ds es := by
    have htake := List.forall₂_take ds.length h
    rwa [List.take_left' rfl, List.take_left' hlen.symm] at htake
  have hsum : List.Forall₂ (· ≤ ·) cs cs' := by
    have hdrop := List.forall₂_drop ds.length h
    rwa [List.drop_left' rfl, List.drop_left' hlen.symm] at hdrop
  refine eq_of_shortfall_le hword he ?_
  rw [← hcs, ← hcs']
  exact value_le hsum

/-- Of two checksummed words that differ, each is above the other somewhere. -/
theorem exists_lt {cs cs' : List ℕ} (hlen : ds.length = es.length) (hlen' : cs.length = cs'.length)
    (he : ∀ e ∈ es, e < w) (hcs : value w cs = shortfall w ds)
    (hcs' : value w cs' = shortfall w es) (hne : ds ≠ es) :
    ∃ i < (ds ++ cs).length, (es ++ cs').getD i 0 < (ds ++ cs).getD i 0 := by
  by_contra hnone
  refine hne (eq_of_forall₂ hlen (List.forall₂_iff_get.mpr ⟨?_, fun i hi hi' => ?_⟩) he hcs hcs')
  · rw [List.length_append, List.length_append, hlen, hlen']
  · by_contra hlt
    refine hnone ⟨i, hi, ?_⟩
    rw [List.getD_eq_getElem?_getD, List.getD_eq_getElem?_getD, List.getElem?_eq_getElem hi,
      List.getElem?_eq_getElem hi']
    exact not_le.mp hlt

end Winternitz
