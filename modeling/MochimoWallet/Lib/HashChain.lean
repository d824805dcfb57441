import Mathlib.Data.List.Basic
import Mathlib.Tactic.Common

/-!
# Hash chains that meet

A step of a chain hashes an image its position makes of the value reached, under a key that is
itself made of hashes. Two chains that meet hashed an image each, somewhere on the way, that differ
and have one hash, or they were at one value where the later of them set out (`meet`). A chain that
set out below another and meets it hashed the other's first value (`below`). Nothing is assumed of
the hash: what breaks it is named.
-/

variable {α β : Type*}

/-- Two images, one of each, that differ and have one hash. -/
def Collide (hash : α → β) (as bs : List α) : Prop := ∃ a ∈ as, ∃ b ∈ bs, a ≠ b ∧ hash a = hash b

theorem Collide.mono {hash : α → β} {as as' bs bs' : List α} (h : Collide hash as bs)
    (ha : as ⊆ as') (hb : bs ⊆ bs') : Collide hash as' bs' := by
  obtain ⟨a, hmem, b, hmem', hne, heq⟩ := h
  exact ⟨a, ha hmem, b, hb hmem', hne, heq⟩

theorem Collide.of_eq {hash : α → β} {a b : α} (h : hash a = hash b) : Collide hash [a] [b] ∨ a = b := by
  by_cases heq : a = b
  · exact .inr heq
  · exact .inl ⟨a, List.mem_singleton_self a, b, List.mem_singleton_self b, heq, h⟩

/-- The images of a step's key, and the image the step itself hashes. -/
structure HashChain (α β : Type*) where
  keys : ℕ → List α
  image : ℕ → β → α

namespace HashChain

variable (hash : α → β)

/-- `n` steps from position `i`. -/
def walk (c : HashChain α β) : ℕ → ℕ → β → β
  | 0, _, x => x
  | n + 1, i, x => c.walk n (i + 1) (hash (c.image i x))

/-- Everything hashed on the way. -/
def images (c : HashChain α β) : ℕ → ℕ → β → List α
  | 0, _, _ => []
  | n + 1, i, x => c.image i x :: c.keys i ++ c.images n (i + 1) (hash (c.image i x))

/-- Steps of the two chains that hash one image are steps from one value, or their keys collide. -/
def Reads (c c' : HashChain α β) : Prop :=
  ∀ i x y, c.image i x = c'.image i y → Collide hash (c.keys i) (c'.keys i) ∨ x = y

variable {hash} {c c' : HashChain α β}

/-- Walks of one length that end at one value set out from one, or collide. -/
theorem meet (hreads : c.Reads hash c') {n i : ℕ} {x y : β}
    (h : c.walk hash n i x = c'.walk hash n i y) :
    Collide hash (c.images hash n i x) (c'.images hash n i y) ∨ x = y := by
  induction n generalizing i x y with
  | zero => exact .inr h
  | succ n ih =>
    rcases ih h with hlater | hhere
    · exact .inl (hlater.mono (by simp [images]) (by simp [images]))
    rcases Collide.of_eq hhere with hstep | himage
    · exact .inl (hstep.mono (by simp [images]) (by simp [images]))
    · exact (hreads i x y himage).imp (fun hkeys => hkeys.mono
        (List.subset_append_of_subset_left _ (List.subset_cons_self _ _))
        (List.subset_append_of_subset_left _ (List.subset_cons_self _ _))) id

theorem below_add (hreads : c.Reads hash c') {k n i : ℕ} {x y : β}
    (h : c.walk hash n (i + k + 1) x = c'.walk hash (k + 1 + n) i y) :
    Collide hash (c.images hash n (i + k + 1) x) (c'.images hash (k + 1 + n) i y) ∨
      ∃ a ∈ c'.images hash (k + 1 + n) i y, hash a = x := by
  induction k generalizing i y with
  | zero =>
    rw [Nat.add_zero, Nat.zero_add, Nat.add_comm 1 n] at h ⊢
    rcases meet hreads h with hlater | hhere
    · exact .inl (hlater.mono (List.Subset.refl _) (by simp [images]))
    · exact .inr ⟨c'.image i y, by simp [images], hhere.symm⟩
  | succ k ih =>
    have hend : k + 1 + 1 + n = k + 1 + n + 1 := by omega
    have hfrom : i + (k + 1) + 1 = i + 1 + k + 1 := by omega
    rw [hend, hfrom] at h ⊢
    have hlater : c'.images hash (k + 1 + n) (i + 1) (hash (c'.image i y)) ⊆
        c'.images hash (k + 1 + n + 1) i y := by
      simp only [images]
      exact List.subset_append_right _ _
    rcases ih h with hcollide | ⟨a, ha, hx⟩
    · exact .inl (hcollide.mono (List.Subset.refl _) hlater)
    · exact .inr ⟨a, hlater ha, hx⟩

/-- A walk that sets out below another and ends where it ends hashed what the other set out from. -/
theorem below (hreads : c.Reads hash c') {n m i j : ℕ} {x y : β} (hij : i < j) (hend : i + m = j + n)
    (h : c.walk hash n j x = c'.walk hash m i y) :
    Collide hash (c.images hash n j x) (c'.images hash m i y) ∨
      ∃ a ∈ c'.images hash m i y, hash a = x := by
  obtain ⟨k, rfl⟩ := Nat.exists_eq_add_of_lt hij
  obtain rfl : m = k + 1 + n := by omega
  exact below_add hreads h

end HashChain
