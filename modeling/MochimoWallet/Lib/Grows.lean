import MochimoWallet.Lib.Call

/-!
# What calls add and what they yield

A state keeps a log. A call `Grows` it if whatever was in the log before is in it afterwards, however
the call ends. So what is known of everything in the log at the end is known at every point between.
A call `Yields` what every value it returns is.
-/

namespace Call

variable {σ τ ρ ε δ α β : Type} {log : σ → List ρ}

structure Grows (log : σ → List ρ) (x : Call σ ε α) : Prop where
  keeps : ∀ {s t : σ} {r : Reply ε α}, x s = (r, t) → log s ⊆ log t

namespace Grows

/-- A call that leaves the log as it is. -/
theorem same {x : Call σ ε α} (h : ∀ {s t r}, x s = (r, t) → log t = log s) : Grows log x := by
  refine ⟨fun hx => ?_⟩
  rw [h hx]
  exact List.Subset.refl _

theorem pure (a : α) : Grows log (Pure.pure a : Call σ ε α) := by
  apply same
  intro s t r h
  cases h
  rfl

theorem refuse (e : ε) : Grows log (Call.refuse e : Call σ ε α) := by
  apply same
  intro s t r h
  cases h
  rfl

theorem check (c : Except ε α) : Grows log (Call.check c) := by
  cases c with
  | ok a => exact pure a
  | error e => exact refuse e

theorem bind {x : Call σ ε α} (hx : Grows log x) {f : α → Call σ ε β} (hf : ∀ a, Grows log (f a)) :
    Grows log (x >>= f) := by
  refine ⟨fun h => ?_⟩
  rcases bind_cases h with ⟨a, u, hu, h⟩ | ⟨e, hu, -⟩ | ⟨hu, -⟩
  · exact List.Subset.trans (hx.keeps hu) ((hf a).keeps h)
  · exact hx.keeps hu
  · exact hx.keeps hu

theorem get_bind {f : σ → Call σ ε β} (hf : ∀ s, Grows log (f s)) : Grows log (Call.get >>= f) :=
  ⟨fun {s} {_} {_} h => (hf s).keeps h⟩

theorem ite {c : Prop} [Decidable c] {x y : Call σ ε α} (hx : Grows log x) (hy : Grows log y) :
    Grows log (if c then x else y) := by
  split
  · exact hx
  · exact hy

theorem attempt {x : Call σ δ α} (hx : Grows log x) : Grows log (x.attempt : Call σ ε (Except δ α)) := by
  refine ⟨fun h => ?_⟩
  rcases attempt_cases h with ⟨found, -, h⟩ | ⟨-, h⟩
  · exact hx.keeps h
  · exact hx.keeps h

theorem mapErr {f : ε → δ} {x : Call σ ε α} (hx : Grows log x) : Grows log (Call.mapErr f x) := by
  refine ⟨fun h => ?_⟩
  obtain ⟨r, h, -⟩ := mapErr_cases h
  exact hx.keeps h

/-- A call on the part of a state that has the log. -/
theorem zoom {log : τ → List ρ} {part : τ → σ} {put : σ → τ → τ} {inner : σ → List ρ} {x : Call σ ε α}
    (hx : Grows inner x) (hlog : ∀ t, log t = inner (part t)) (hput : ∀ s t, log (put s t) = inner s) :
    Grows log (Call.zoom part put x) := by
  refine ⟨fun h => ?_⟩
  obtain ⟨s, hs, rfl⟩ := zoom_cases h
  rw [hlog, hput]
  exact hx.keeps hs

end Grows

/-- Every value the call returns is so. -/
structure Yields (P : α → Prop) (x : Call σ ε α) : Prop where
  holds : ∀ {s t : σ} {a : α}, x s = (.ok a, t) → P a

namespace Yields

variable {P : β → Prop}

theorem pure {b : β} (h : P b) : Yields P (Pure.pure b : Call σ ε β) := by
  refine ⟨fun hx => ?_⟩
  cases hx
  exact h

theorem bind {x : Call σ ε α} {f : α → Call σ ε β} (hf : ∀ a, Yields P (f a)) :
    Yields P (x >>= f) := by
  refine ⟨fun h => ?_⟩
  rcases bind_cases h with ⟨a, u, -, h⟩ | ⟨e, -, hr⟩ | ⟨-, hr⟩
  · exact (hf a).holds h
  · cases hr
  · cases hr

end Yields

end Call
