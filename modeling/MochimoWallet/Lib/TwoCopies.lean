import Mathlib.Algebra.GroupWithZero.Nat
import Mathlib.Data.Fin.Rev
import Mathlib.Logic.Function.Basic
import Mathlib.Data.Nat.Notation

/-!
# Two copies, rewritten in turn

A value is kept in two cells of a device that is slow to write. A cell holds what a
reader sees now, and what a power cut may bring it back to: everything it held since
its last flush, or a torn mixture while there is anything unflushed. The copy that
stands is flushed, and only the other one is written; once that one is flushed too,
it is the one that stands.

`Standing` is the invariant of this discipline: whatever a cut leaves, the copy that
stands reads as it did, and the other one reads as older than it, as the one value
being written, or as nothing.
-/

namespace TwoCopies

variable {C A : Type*}

/-- The cells are numbered 0 and 1 by this instance, wherever they are named. -/
instance neZero_two : NeZero 2 := inferInstance

/-! ## Cells -/

structure Cell (C : Type*) where
  now : C
  /-- What the cell held since it was last flushed. -/
  device : List C
  deriving DecidableEq

namespace Cell

/-- A cell with nothing unflushed. -/
def clean (x : C) : Cell C := ⟨x, [x]⟩

def put (c : Cell C) (x : C) : Cell C := ⟨x, x :: c.device⟩

def flush (c : Cell C) : Cell C := clean c.now

/-- What a power cut leaves of a cell: one of its unflushed values, or one torn from them. -/
inductive Cut (torn : List C → C → Prop) (c : Cell C) : Cell C → Prop where
  | whole {x : C} (h : x ∈ c.device) : Cut torn c (clean x)
  | torn {x : C} (hdirty : 1 < c.device.length) (h : torn c.device x) : Cut torn c (clean x)

theorem Cut.of_clean {torn : List C → C → Prop} {x : C} {c : Cell C}
    (h : (clean x).Cut torn c) : c = clean x := by
  cases h with
  | whole h => rw [List.mem_singleton.mp h]
  | torn hdirty h => exact absurd hdirty (by simp [clean])

end Cell

/-- The two cells. -/
abbrev Pair (C : Type*) := Fin 2 → Cell C

namespace Pair

def put (cells : Pair C) (i : Fin 2) (x : C) : Pair C :=
  Function.update cells i ((cells i).put x)

def flush (cells : Pair C) (i : Fin 2) : Pair C := Function.update cells i (cells i).flush

@[simp] theorem put_self (cells : Pair C) (i : Fin 2) (x : C) :
    cells.put i x i = (cells i).put x := by
  simp [put]

@[simp] theorem put_of_ne {cells : Pair C} {i j : Fin 2} (h : j ≠ i) (x : C) :
    cells.put i x j = cells j := by
  simp [put, h]

@[simp] theorem flush_self (cells : Pair C) (i : Fin 2) : cells.flush i i = (cells i).flush := by
  simp [flush]

@[simp] theorem flush_of_ne {cells : Pair C} {i j : Fin 2} (h : j ≠ i) :
    cells.flush i j = cells j := by
  simp [flush, h]

/-- A flush changes nothing a reader sees. -/
@[simp] theorem flush_now (cells : Pair C) (i j : Fin 2) : (cells.flush i j).now = (cells j).now := by
  by_cases h : j = i
  · rw [h, flush_self]
    rfl
  · rw [flush_of_ne h]

/-- Every cell after a power cut. -/
def Cut (torn : List C → C → Prop) (cells cells' : Pair C) : Prop :=
  ∀ i, (cells i).Cut torn (cells' i)

end Pair

theorem rev_ne (i : Fin 2) : i.rev ≠ i := by
  revert i
  decide

theorem ne_rev (i : Fin 2) : i ≠ i.rev := (rev_ne i).symm

theorem eq_or_eq_rev (i j : Fin 2) : j = i ∨ j = i.rev := by
  revert i j
  decide

theorem eq_one_of_rev_eq_zero (i : Fin 2) (h : i.rev = 0) : i = 1 := by
  revert i
  decide

theorem eq_zero_of_one_eq_rev (i : Fin 2) (h : 1 = i.rev) : i = 0 := by
  revert i
  decide

theorem fin2_cases (i : Fin 2) : i = 0 ∨ i = 1 := by
  revert i
  decide

/-! ## The copy that stands -/

/-- Cell `i` stands with the value `a`, while `next` may be in the writing: `reads j x v` says that
the content `x` of cell `j` has the value `v`, and `rank` orders the values. -/
structure Standing (reads : Fin 2 → C → Option A → Prop) (rank : A → ℕ) (cells : Pair C)
    (i : Fin 2) (a : A) (next : Option A) : Prop where
  flushed : cells i = .clean (cells i).now
  stands : reads i (cells i).now (some a)
  now_mem : (cells i.rev).now ∈ (cells i.rev).device
  behind : ∀ x ∈ (cells i.rev).device, ∃ v, reads i.rev x v ∧ ∀ b, v = some b →
    rank b < rank a ∨ (x = (cells i.rev).now ∧ next = some b ∧ rank a < rank b)

namespace Standing

variable {reads : Fin 2 → C → Option A → Prop} {rank : A → ℕ} {cells cells' : Pair C} {i : Fin 2}
  {a : A} {next : Option A}

theorem other (h : Standing reads rank cells i a next) :
    ∃ v, reads i.rev (cells i.rev).now v ∧ ∀ b, v = some b →
      rank b < rank a ∨ (next = some b ∧ rank a < rank b) := by
  obtain ⟨v, hv, hb⟩ := h.behind _ h.now_mem
  exact ⟨v, hv, fun b he => (hb b he).imp_right And.right⟩

/-- With nothing in the writing, anything may begin to be. -/
theorem begin (h : Standing reads rank cells i a none) (next : Option A) :
    Standing reads rank cells i a next := by
  refine ⟨h.flushed, h.stands, h.now_mem, fun x hx => ?_⟩
  obtain ⟨v, hv, hb⟩ := h.behind x hx
  refine ⟨v, hv, fun b he => .inl ?_⟩
  rcases hb b he with hlt | ⟨-, hnone, -⟩
  · exact hlt
  · cases hnone

/-- With the other copy reading as older, nothing is in the writing. -/
theorem settle (h : Standing reads rank cells i a next) {v : Option A}
    (hv : reads i.rev (cells i.rev).now v) (holder : ∀ b, v = some b → rank b < rank a) :
    Standing reads rank cells i a none := by
  refine ⟨h.flushed, h.stands, h.now_mem, fun x hx => ?_⟩
  by_cases hnow : x = (cells i.rev).now
  · subst hnow
    exact ⟨v, hv, fun b he => .inl (holder b he)⟩
  · obtain ⟨w, hw, hb⟩ := h.behind x hx
    refine ⟨w, hw, fun b he => .inl ?_⟩
    rcases hb b he with hlt | ⟨heq, -⟩
    · exact hlt
    · exact absurd heq hnow

/-- The first copy flushed, beside a clean cell that says nothing. -/
theorem first (hstands : reads i (cells i).now (some a)) {x : C} (hother : cells i.rev = .clean x)
    (hx : reads i.rev x none) : Standing reads rank (cells.flush i) i a none := by
  have hrev : cells.flush i i.rev = .clean x := (Pair.flush_of_ne (rev_ne i)).trans hother
  refine ⟨?_, ?_, ?_, ?_⟩
  · rw [Pair.flush_self]
    rfl
  · rw [Pair.flush_self]
    exact hstands
  · rw [hrev]
    exact List.mem_singleton_self _
  · rw [hrev]
    intro y hy
    rw [List.mem_singleton.mp hy]
    exact ⟨none, hx, fun b he => by cases he⟩

/-- The other copy written, with the value in the writing or with none. -/
theorem put (h : Standing reads rank cells i a none) {x : C} {v : Option A}
    (hv : reads i.rev x v) (hahead : ∀ b, v = some b → next = some b ∧ rank a < rank b) :
    Standing reads rank (cells.put i.rev x) i a next := by
  have hi : cells.put i.rev x i = cells i := Pair.put_of_ne (ne_rev i) x
  refine ⟨by rw [hi]; exact h.flushed, by rw [hi]; exact h.stands, ?_, ?_⟩
  · rw [Pair.put_self]
    exact List.mem_cons_self
  · rw [Pair.put_self]
    intro y hy
    rcases List.mem_cons.mp hy with rfl | hy
    · exact ⟨v, hv, fun b he => .inr ⟨rfl, hahead b he⟩⟩
    · obtain ⟨w, hw, hb⟩ := (h.begin none).behind y hy
      refine ⟨w, hw, fun b he => .inl ?_⟩
      rcases hb b he with hlt | ⟨-, hnone, -⟩
      · exact hlt
      · cases hnone

/-- The other copy, newer, flushed: it stands from now on. -/
theorem promote (h : Standing reads rank cells i a next) {b : A}
    (hb : reads i.rev (cells i.rev).now (some b)) (hlt : rank a < rank b) :
    Standing reads rank (cells.flush i.rev) i.rev b none := by
  have hi : cells.flush i.rev i = cells i := Pair.flush_of_ne (ne_rev i)
  refine ⟨?_, ?_, ?_, ?_⟩
  · rw [Pair.flush_self]
    rfl
  · rw [Pair.flush_self]
    exact hb
  · rw [Fin.rev_rev, hi, h.flushed]
    exact List.mem_singleton_self _
  · rw [Fin.rev_rev, hi, h.flushed]
    intro x hx
    rw [List.mem_singleton.mp hx]
    refine ⟨some a, h.stands, fun c he => .inl ?_⟩
    cases he
    exact hlt

/-- The other copy flushed as it is. -/
theorem flush_other (h : Standing reads rank cells i a next) :
    Standing reads rank (cells.flush i.rev) i a next := by
  have hi : cells.flush i.rev i = cells i := Pair.flush_of_ne (ne_rev i)
  refine ⟨by rw [hi]; exact h.flushed, by rw [hi]; exact h.stands, ?_, ?_⟩
  · rw [Pair.flush_self]
    exact List.mem_singleton_self _
  · rw [Pair.flush_self]
    intro x hx
    rw [List.mem_singleton.mp hx]
    exact h.behind _ h.now_mem

/-- Flushing the copy that stands changes nothing. -/
theorem flush_standing (h : Standing reads rank cells i a next) : cells.flush i = cells := by
  rw [Pair.flush, Cell.flush, ← h.flushed]
  exact Function.update_eq_self ..

/-- A power cut leaves the copy that stands, and of the other one no more than there was. -/
theorem cut {torn : List C → C → Prop} (h : Standing reads rank cells i a next)
    (hcut : cells.Cut torn cells') (htorn : ∀ x, torn (cells i.rev).device x → reads i.rev x none) :
    Standing reads rank cells' i a next := by
  have hi : cells' i = cells i := by
    have hcut := hcut i
    rw [h.flushed] at hcut ⊢
    exact hcut.of_clean
  have hrev := hcut i.rev
  refine ⟨by rw [hi]; exact h.flushed, by rw [hi]; exact h.stands, ?_, ?_⟩
  · generalize cells' i.rev = c at hrev ⊢
    cases hrev <;> exact List.mem_singleton_self _
  · intro x hx
    generalize cells' i.rev = c at hrev hx ⊢
    cases hrev with
    | whole hmem =>
      rw [List.mem_singleton.mp hx]
      obtain ⟨v, hv, hb⟩ := h.behind _ hmem
      exact ⟨v, hv, fun b he => (hb b he).imp_right fun hr => ⟨rfl, hr.2⟩⟩
    | torn _ ht =>
      rw [List.mem_singleton.mp hx]
      exact ⟨none, htorn _ ht, fun b he => by cases he⟩

end Standing

end TwoCopies
