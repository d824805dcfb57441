import Mathlib.Data.List.Sort
import Mathlib.Order.Lattice

/-!
# Ordered maps

An `OrdMap α β` is a finite map kept as its entries in ascending key order, so
that it is iterated in that order and one map has one representation
(`ext_get?`). `insert` and `modify` are the two writes; `get?_insert` and
`get?_modify` say that each of them changes one key and no other.
-/

/-- A finite map, kept as its entries in strictly ascending key order. -/
structure OrdMap (α : Type*) (β : Type*) [LinearOrder α] where
  entries : List (α × β)
  sorted : entries.Pairwise fun a b => a.1 < b.1

namespace OrdMap

variable {α β γ : Type*} [LinearOrder α]

/-! ## Lookup -/

/-- The value of the first entry for `k`. -/
def lookup (k : α) : List (α × β) → Option β
  | [] => none
  | (a, b) :: es => if k = a then some b else lookup k es

def get? (m : OrdMap α β) (k : α) : Option β := lookup k m.entries

def empty : OrdMap α β := ⟨[], .nil⟩

instance : Inhabited (OrdMap α β) := ⟨empty⟩

def contains (m : OrdMap α β) (k : α) : Bool := (m.get? k).isSome

def keys (m : OrdMap α β) : List α := m.entries.map Prod.fst

def values (m : OrdMap α β) : List β := m.entries.map Prod.snd

def size (m : OrdMap α β) : ℕ := m.entries.length

@[simp] theorem get?_empty (k : α) : (empty : OrdMap α β).get? k = none := rfl

theorem mem_of_lookup {k : α} {b : β} {es : List (α × β)} (h : lookup k es = some b) :
    (k, b) ∈ es := by
  induction es with
  | nil => cases h
  | cons e es ih =>
    simp only [lookup] at h
    split at h
    · next hk => cases h; subst hk; exact List.mem_cons_self
    · exact List.mem_cons_of_mem _ (ih h)

theorem lookup_of_mem {k : α} {b : β} {es : List (α × β)}
    (hs : es.Pairwise fun a b => a.1 < b.1) (h : (k, b) ∈ es) : lookup k es = some b := by
  induction es with
  | nil => cases h
  | cons e es ih =>
    rw [List.pairwise_cons] at hs
    rcases List.mem_cons.mp h with rfl | h
    · simp [lookup]
    · have hk : k ≠ e.1 := (hs.1 _ h).ne'
      simp only [lookup, if_neg hk]
      exact ih hs.2 h

theorem mem_entries_iff {m : OrdMap α β} {k : α} {b : β} :
    (k, b) ∈ m.entries ↔ m.get? k = some b :=
  ⟨lookup_of_mem m.sorted, mem_of_lookup⟩

theorem mem_values_iff {m : OrdMap α β} {b : β} : b ∈ m.values ↔ ∃ k, m.get? k = some b := by
  simp only [values, List.mem_map, Prod.exists, mem_entries_iff]
  exact ⟨fun ⟨k, _, h, rfl⟩ => ⟨k, h⟩, fun ⟨k, h⟩ => ⟨k, b, h, rfl⟩⟩

theorem mem_keys_iff {m : OrdMap α β} {k : α} : k ∈ m.keys ↔ ∃ b, m.get? k = some b := by
  simp only [keys, List.mem_map, Prod.exists, mem_entries_iff]
  exact ⟨fun ⟨_, b, h, hk⟩ => ⟨b, hk ▸ h⟩, fun ⟨b, h⟩ => ⟨k, b, h, rfl⟩⟩

/-- One map has one representation. -/
theorem ext_get? {m m' : OrdMap α β} (h : ∀ k, m.get? k = m'.get? k) : m = m' := by
  have hmem (e : α × β) : e ∈ m.entries ↔ e ∈ m'.entries := by
    rw [mem_entries_iff, mem_entries_iff, h]
  have hnd {l : List (α × β)} (hl : l.Pairwise fun a b => a.1 < b.1) : l.Nodup :=
    hl.imp fun hab heq => absurd (heq ▸ hab) (lt_irrefl _)
  have hperm : m.entries.Perm m'.entries :=
    (List.perm_ext_iff_of_nodup (hnd m.sorted) (hnd m'.sorted)).mpr hmem
  have heq : m.entries = m'.entries :=
    hperm.eq_of_pairwise (fun a b _ _ hab hba => absurd hba hab.asymm) m.sorted m'.sorted
  cases m; cases m'; cases heq; rfl

/-! ## Insertion -/

/-- Put `(k, b)` at its place, replacing the value `k` has. -/
def insertEntry (k : α) (b : β) : List (α × β) → List (α × β)
  | [] => [(k, b)]
  | e :: es =>
    if k < e.1 then (k, b) :: e :: es
    else if k = e.1 then (k, b) :: es
    else e :: insertEntry k b es

theorem mem_insertEntry {k : α} {b : β} {e : α × β} {es : List (α × β)}
    (h : e ∈ insertEntry k b es) : e = (k, b) ∨ e ∈ es := by
  induction es with
  | nil => exact .inl (List.mem_singleton.mp h)
  | cons x es ih =>
    simp only [insertEntry] at h
    split at h
    · exact List.mem_cons.mp h
    split at h
    · exact (List.mem_cons.mp h).imp_right (List.mem_cons_of_mem _)
    · rcases List.mem_cons.mp h with rfl | h
      · exact .inr List.mem_cons_self
      · exact (ih h).imp_right (List.mem_cons_of_mem _)

theorem sorted_insertEntry {k : α} {b : β} {es : List (α × β)}
    (hs : es.Pairwise fun a b => a.1 < b.1) :
    (insertEntry k b es).Pairwise fun a b => a.1 < b.1 := by
  induction es with
  | nil => simp [insertEntry]
  | cons x es ih =>
    have ⟨hx, hes⟩ := List.pairwise_cons.mp hs
    simp only [insertEntry]
    split
    · next hlt =>
      refine List.pairwise_cons.mpr ⟨fun e he => ?_, hs⟩
      rcases List.mem_cons.mp he with rfl | he
      · exact hlt
      · exact hlt.trans (hx e he)
    split
    · next heq => exact List.pairwise_cons.mpr ⟨fun e he => by rw [heq]; exact hx e he, hes⟩
    · next hlt hne =>
      refine List.pairwise_cons.mpr ⟨fun e he => ?_, ih hes⟩
      rcases mem_insertEntry he with rfl | he
      · exact lt_of_le_of_ne (not_lt.mp hlt) (Ne.symm hne)
      · exact hx e he

def insert (m : OrdMap α β) (k : α) (b : β) : OrdMap α β :=
  ⟨insertEntry k b m.entries, sorted_insertEntry m.sorted⟩

theorem lookup_insertEntry (k k' : α) (b : β) (es : List (α × β))
    (hs : es.Pairwise fun a b => a.1 < b.1) :
    lookup k' (insertEntry k b es) = if k' = k then some b else lookup k' es := by
  induction es with
  | nil => simp [insertEntry, lookup]
  | cons x es ih =>
    have ⟨hx, hes⟩ := List.pairwise_cons.mp hs
    simp only [insertEntry]
    split
    · simp [lookup]
    split
    · next hk =>
      subst hk
      by_cases h : k' = x.1 <;> simp [lookup, h]
    · next hlt hne =>
      by_cases h : k' = x.1
      · subst h; simp [lookup, Ne.symm hne]
      · simp [lookup, h, ih hes]

@[simp] theorem get?_insert (m : OrdMap α β) (k k' : α) (b : β) :
    (m.insert k b).get? k' = if k' = k then some b else m.get? k' :=
  lookup_insertEntry k k' b m.entries m.sorted

theorem insertEntry_perm {k : α} {b : β} {es : List (α × β)} (h : lookup k es = none) :
    (insertEntry k b es).Perm ((k, b) :: es) := by
  induction es with
  | nil => exact .refl _
  | cons x es ih =>
    simp only [lookup] at h
    split at h
    · cases h
    · next hne =>
      simp only [insertEntry, if_neg hne]
      split
      · exact .refl _
      · exact (List.Perm.cons x (ih h)).trans (.swap _ _ _)

theorem length_insertEntry_le (k : α) (b : β) (es : List (α × β)) :
    (insertEntry k b es).length ≤ es.length + 1 := by
  induction es with
  | nil => exact le_refl _
  | cons x es ih =>
    simp only [insertEntry]
    split
    · exact le_refl _
    split <;> simp only [List.length_cons] at ih ⊢ <;> omega

theorem size_insert_le (m : OrdMap α β) (k : α) (b : β) : (m.insert k b).size ≤ m.size + 1 :=
  length_insertEntry_le k b m.entries

/-! ## Modification in place -/

/-- Replace the value at `k`, when there is one, by its image under `f`. -/
def modify (m : OrdMap α β) (k : α) (f : β → β) : OrdMap α β :=
  ⟨m.entries.map fun e => if e.1 = k then (e.1, f e.2) else e, by
    refine List.pairwise_map.mpr (m.sorted.imp fun {a b} h => ?_)
    split <;> split <;> exact h⟩

theorem lookup_modify (k k' : α) (f : β → β) (es : List (α × β)) :
    lookup k' (es.map fun e => if e.1 = k then (e.1, f e.2) else e) =
      if k' = k then (lookup k' es).map f else lookup k' es := by
  induction es with
  | nil => simp [lookup]
  | cons x es ih =>
    by_cases hx : x.1 = k
    · by_cases hk : k' = x.1
      · simp [lookup, hx, hk]
      · have : k' ≠ k := fun h => hk (h.trans hx.symm)
        simp [lookup, hx, this, ih]
    · by_cases hk : k' = x.1
      · have : k' ≠ k := fun h => hx (hk.symm.trans h)
        simp [lookup, hx, hk]
      · simp [lookup, hx, hk, ih]

@[simp] theorem get?_modify (m : OrdMap α β) (k k' : α) (f : β → β) :
    (m.modify k f).get? k' = if k' = k then (m.get? k').map f else m.get? k' :=
  lookup_modify k k' f m.entries

@[simp] theorem size_modify (m : OrdMap α β) (k : α) (f : β → β) :
    (m.modify k f).size = m.size := List.length_map ..

/-! ## Building a map in key order -/

theorem insertEntry_append {k : α} {b : β} {es : List (α × β)} (h : ∀ e ∈ es, e.1 < k) :
    insertEntry k b es = es ++ [(k, b)] := by
  induction es with
  | nil => rfl
  | cons x es ih =>
    have hx : x.1 < k := h x List.mem_cons_self
    simp only [insertEntry, if_neg hx.asymm, if_neg hx.ne', List.cons_append]
    rw [ih fun e he => h e (List.mem_cons_of_mem _ he)]

/-- An insertion past the last key appends. -/
theorem entries_insert_last {m : OrdMap α β} {k : α} (h : ∀ e ∈ m.entries, e.1 < k) (b : β) :
    (m.insert k b).entries = m.entries ++ [(k, b)] :=
  insertEntry_append h

end OrdMap
