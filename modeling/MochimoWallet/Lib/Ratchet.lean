import Mathlib.Data.Nat.Notation
import Mathlib.Logic.Relation

/-!
# One-time keys in turn

A holder of numbered one-time keys, and a ledger that names one of them. The holder reserves the key
the ledger names for a message, signs that message with it, and settles when the ledger names the
next; the ledger goes on to the next key by a signature of the one it names, and may take that back.
As long as it takes back no more than what the holder has not settled, the ledger names the key the
holder last reserved or the one after it (`InStep.run`). However much it takes back, it is never
ahead, and no key signs two messages (`Sane.run`).
-/

namespace Ratchet

structure State (δ : Type) where
  /-- The first key that was never reserved. -/
  next : ℕ
  /-- The key that is reserved and not settled, with what for. -/
  reserved : Option (ℕ × δ)
  /-- The key the ledger names. -/
  held : ℕ
  /-- The keys that have signed, with what they signed. -/
  signed : List (ℕ × δ)

variable {δ : Type}

/-- One move of the holder or of the ledger; `deep` is whether the ledger may take back what the
holder has settled. -/
inductive Step (deep : Prop) : State δ → State δ → Prop
  | reserve {s : State δ} (m : δ) (hfree : s.reserved = none) (hheld : s.held = s.next) :
      Step deep s { s with next := s.next + 1, reserved := some (s.next, m) }
  | sign {s : State δ} {i : ℕ} {m : δ} (h : s.reserved = some (i, m)) :
      Step deep s { s with signed := (i, m) :: s.signed }
  | settle {s : State δ} {i : ℕ} {m : δ} (h : s.reserved = some (i, m)) (hheld : s.held = s.next) :
      Step deep s { s with reserved := none }
  | land {s : State δ} {m : δ} (h : (s.held, m) ∈ s.signed) :
      Step deep s { s with held := s.held + 1 }
  | undo {s : State δ} {i : ℕ} (h : s.held = i + 1) (hback : deep ∨ ∃ m, s.reserved = some (i, m)) :
      Step deep s { s with held := i }

def Run (deep : Prop) : State δ → State δ → Prop := Relation.ReflTransGen (Step deep)

/-- The ledger is not ahead, nothing is signed that was not reserved, and no key signed two messages
or another than it is reserved for. -/
structure Sane (s : State δ) : Prop where
  reserved : ∀ i m, s.reserved = some (i, m) → s.next = i + 1
  signed : ∀ i m, (i, m) ∈ s.signed → i < s.next
  held : s.held ≤ s.next
  once : ∀ i m m', (i, m) ∈ s.signed → (i, m') ∈ s.signed ∨ s.reserved = some (i, m') → m = m'

/-- Nor is the ledger behind what was settled. -/
structure InStep (s : State δ) : Prop extends Sane s where
  floor : (s.reserved.map Prod.fst).getD s.next ≤ s.held

variable {deep : Prop} {s s' : State δ}

theorem Sane.step (h : Sane s) (hstep : Step deep s s') : Sane s' := by
  obtain ⟨hreserved, hsigned, hheld, honce⟩ := h
  cases hstep with
  | reserve m hfree hat =>
    refine ⟨fun i m hi => ?_, fun i m hi => Nat.lt_succ_of_lt (hsigned i m hi),
      Nat.le_succ_of_le hheld, fun i m m' hi hi' => ?_⟩
    · cases hi
      rfl
    · rcases hi' with hi' | hi'
      · exact honce i m m' hi (.inl hi')
      -- The key that is reserved now has signed nothing yet.
      · cases hi'
        exact absurd (hsigned _ m hi) (Nat.lt_irrefl _)
  | @sign i m h =>
    refine ⟨hreserved, fun j m' hj => ?_, hheld, fun j m₁ m₂ h₁ h₂ => ?_⟩
    · rcases List.mem_cons.mp hj with heq | hj
      · cases heq
        rw [hreserved i m h]
        exact Nat.lt_succ_self i
      · exact hsigned j m' hj
    · have hwas {m' : δ} (hm : (j, m') ∈ (i, m) :: s.signed) :
          (j, m') ∈ s.signed ∨ s.reserved = some (j, m') := by
        rcases List.mem_cons.mp hm with heq | hm
        · cases heq
          exact .inr h
        · exact .inl hm
      have h₂ : (j, m₂) ∈ s.signed ∨ s.reserved = some (j, m₂) := h₂.elim hwas .inr
      rcases hwas h₁ with h₁ | h₁
      · exact honce j m₁ m₂ h₁ h₂
      · rcases h₂ with h₂ | h₂
        · exact (honce j m₂ m₁ h₂ (.inr h₁)).symm
        · cases h₁.symm.trans h₂
          rfl
  | settle h hat => exact ⟨nofun, hsigned, hheld, fun i m m' hi hi' => honce i m m' hi (hi'.imp id nofun)⟩
  | land h => exact ⟨hreserved, hsigned, hsigned _ _ h, honce⟩
  | @undo i h hback =>
    refine ⟨hreserved, hsigned, ?_, honce⟩
    show i ≤ s.next
    omega

theorem InStep.step (h : InStep s) (hstep : Step False s s') : InStep s' := by
  refine ⟨h.toSane.step hstep, ?_⟩
  have hfloor := h.floor
  cases hstep with
  | reserve m hfree hat => exact Nat.le_of_eq hat.symm
  | sign h' => exact hfloor
  | settle h' hat => exact Nat.le_of_eq hat.symm
  | land h' => exact Nat.le_succ_of_le hfloor
  | undo h' hback =>
    obtain ⟨m, hback⟩ := hback.resolve_left id
    show (s.reserved.map Prod.fst).getD s.next ≤ _
    rw [hback]
    exact Nat.le_refl _

theorem Sane.run (h : Sane s) (hrun : Run deep s s') : Sane s' := by
  induction hrun with
  | refl => exact h
  | tail _ hstep ih => exact ih.step hstep

theorem InStep.run (h : InStep s) (hrun : Run False s s') : InStep s' := by
  induction hrun with
  | refl => exact h
  | tail _ hstep ih => exact ih.step hstep

/-- With nothing reserved the ledger names the next key. -/
theorem InStep.held_of_free (h : InStep s) (hfree : s.reserved = none) : s.held = s.next := by
  have hfloor := h.floor
  rw [hfree] at hfloor
  exact Nat.le_antisymm h.held hfloor

/-- With a key reserved the ledger names it or the one after it. -/
theorem InStep.held_of_reserved (h : InStep s) {i : ℕ} {m : δ} (hi : s.reserved = some (i, m)) :
    s.held = i ∨ s.held = s.next := by
  have hfloor := h.floor
  have hheld := h.held
  have hnext := h.reserved i m hi
  rw [hi] at hfloor
  have : i ≤ s.held := hfloor
  omega

end Ratchet
