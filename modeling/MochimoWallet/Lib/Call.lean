import Mathlib.Data.Nat.Notation
import Mathlib.Logic.Basic

/-!
# Calls that return, refuse or die

A `Call σ ε α` acts on a state and ends in one of three ways: with a value, with
a refusal, or with the process gone. A refusal and a kill both stop the calls
sequenced after them; the state they leave is what had been done by then, so
nothing is rolled back. `bind_cases` takes a sequence of calls apart.
-/

/-- How a call ends. -/
inductive Reply (ε α : Type) where
  | ok (a : α)
  | err (e : ε)
  /-- The process ended before the call did. -/
  | killed
  deriving DecidableEq, Repr

/-- An ending, with its value mapped. -/
def Reply.map {ε α β : Type} (f : α → β) : Reply ε α → Reply ε β
  | .ok a => .ok (f a)
  | .err e => .err e
  | .killed => .killed

/-- An ending, with its refusal mapped. -/
def Reply.mapErr {ε δ α : Type} (f : ε → δ) : Reply ε α → Reply δ α
  | .ok a => .ok a
  | .err e => .err (f e)
  | .killed => .killed

/-- A result, as an ending. -/
def Reply.ofExcept {ε α : Type} : Except ε α → Reply ε α
  | .ok a => .ok a
  | .error e => .err e

def Call (σ ε α : Type) : Type := σ → Reply ε α × σ

namespace Call

variable {σ τ ε α β : Type}

protected def pure (a : α) : Call σ ε α := fun s => (.ok a, s)

protected def bind (x : Call σ ε α) (f : α → Call σ ε β) : Call σ ε β := fun s =>
  match x s with
  | (.ok a, t) => f a t
  | (.err e, t) => (.err e, t)
  | (.killed, t) => (.killed, t)

instance : Monad (Call σ ε) where
  pure := Call.pure
  bind := Call.bind

/-- Read the state. -/
def get : Call σ ε σ := fun s => (.ok s, s)

def modify (f : σ → σ) : Call σ ε Unit := fun s => (.ok (), f s)

/-- A call written out on its state. -/
def of (f : σ → Reply ε α × σ) : Call σ ε α := f

/-- End with `e`, the state as it is. -/
def refuse (e : ε) : Call σ ε α := fun s => (.err e, s)

/-- A check that reads no state. -/
def check : Except ε α → Call σ ε α
  | .ok a => pure a
  | .error e => refuse e

/-- Take a refusal as a value. -/
def attempt {δ : Type} (x : Call σ δ α) : Call σ ε (Except δ α) := fun s =>
  match x s with
  | (.ok a, t) => (.ok (.ok a), t)
  | (.err e, t) => (.ok (.error e), t)
  | (.killed, t) => (.killed, t)

/-- Name a refusal anew. -/
def mapErr {δ : Type} (f : ε → δ) (x : Call σ ε α) : Call σ δ α := fun s =>
  match x s with
  | (.ok a, t) => (.ok a, t)
  | (.err e, t) => (.err (f e), t)
  | (.killed, t) => (.killed, t)

/-- Run a call on one component of a larger state. -/
def zoom (proj : τ → σ) (put : σ → τ → τ) (x : Call σ ε α) : Call τ ε α := fun t =>
  match x (proj t) with
  | (r, s) => (r, put s t)

/-! ## Reading a call back -/

@[simp] theorem pure_apply (a : α) (s : σ) : (pure a : Call σ ε α) s = (.ok a, s) := rfl

@[simp] theorem get_apply (s : σ) : (get : Call σ ε σ) s = (.ok s, s) := rfl

@[simp] theorem modify_apply (f : σ → σ) (s : σ) : (modify f : Call σ ε Unit) s = (.ok (), f s) :=
  rfl

@[simp] theorem of_apply (f : σ → Reply ε α × σ) (s : σ) : of f s = f s := rfl

@[simp] theorem refuse_apply (e : ε) (s : σ) : (refuse e : Call σ ε α) s = (.err e, s) := rfl

@[simp] theorem check_ok (a : α) : (check (.ok a) : Call σ ε α) = pure a := rfl

@[simp] theorem check_error (e : ε) : (check (.error e) : Call σ ε α) = refuse e := rfl

@[simp] theorem pure_bind (a : α) (f : α → Call σ ε β) : (pure a >>= f : Call σ ε β) = f a := rfl

@[simp] theorem refuse_bind (e : ε) (f : α → Call σ ε β) :
    (refuse e >>= f : Call σ ε β) = refuse e := rfl

theorem bind_apply (x : Call σ ε α) (f : α → Call σ ε β) (s : σ) :
    (x >>= f) s = match x s with
      | (.ok a, t) => f a t
      | (.err e, t) => (.err e, t)
      | (.killed, t) => (.killed, t) := rfl

@[simp] theorem get_bind (f : σ → Call σ ε β) (s : σ) : (get >>= f) s = f s s := rfl

@[simp] theorem modify_bind (g : σ → σ) (f : Unit → Call σ ε β) (s : σ) :
    (modify g >>= f) s = f () (g s) := rfl

theorem ite_apply (c : Prop) [Decidable c] (x y : Call σ ε α) (s : σ) :
    (if c then x else y) s = if c then x s else y s := by
  split <;> rfl

/-- The ways a sequence of calls ends: in its second call, or early in its first. -/
theorem bind_cases {x : Call σ ε α} {f : α → Call σ ε β} {s t : σ} {r : Reply ε β}
    (h : (x >>= f) s = (r, t)) :
    (∃ a u, x s = (.ok a, u) ∧ f a u = (r, t)) ∨ (∃ e, x s = (.err e, t) ∧ r = .err e) ∨
      (x s = (.killed, t) ∧ r = .killed) := by
  rw [bind_apply] at h
  rcases hx : x s with ⟨a | e | _, u⟩ <;> rw [hx] at h
  · exact .inl ⟨a, u, rfl, h⟩
  · cases h; exact .inr (.inl ⟨e, rfl, rfl⟩)
  · cases h; exact .inr (.inr ⟨rfl, rfl⟩)

/-- A check and what follows it: refused with the state untouched, or passed. -/
theorem check_bind_cases {c : Except ε α} {f : α → Call σ ε β} {s t : σ} {r : Reply ε β}
    (h : (check c >>= f) s = (r, t)) :
    (∃ e, c = .error e ∧ r = .err e ∧ t = s) ∨ ∃ a, c = .ok a ∧ f a s = (r, t) := by
  rcases c with e | a
  · cases h; exact .inl ⟨e, rfl, rfl, rfl⟩
  · exact .inr ⟨a, rfl, h⟩

/-- Two calls one after the other, where the first left the state `u`. -/
theorem bind_of_ok {x : Call σ ε α} {f : α → Call σ ε β} {s u : σ} {a : α} (h : x s = (.ok a, u)) :
    (x >>= f) s = f a u := by
  rw [bind_apply, h]

/-- A call that is not killed, taken as a value. -/
theorem attempt_cases {δ : Type} {x : Call σ δ α} {s t : σ} {r : Reply ε (Except δ α)}
    (h : attempt x s = (r, t)) :
    (∃ found, r = .ok found ∧ x s = (.ofExcept found, t)) ∨ r = .killed ∧ x s = (.killed, t) := by
  unfold attempt at h
  rcases hx : x s with ⟨a | e | _, u⟩ <;> rw [hx] at h <;> cases h
  · exact .inl ⟨.ok a, rfl, rfl⟩
  · exact .inl ⟨.error e, rfl, rfl⟩
  · exact .inr ⟨rfl, rfl⟩

theorem mapErr_cases {δ : Type} {f : ε → δ} {x : Call σ ε α} {s t : σ} {r : Reply δ α}
    (h : mapErr f x s = (r, t)) : ∃ r', x s = (r', t) ∧ r = r'.mapErr f := by
  unfold mapErr at h
  rcases hx : x s with ⟨a | e | _, u⟩ <;> rw [hx] at h <;> cases h <;> exact ⟨_, rfl, rfl⟩

theorem zoom_cases {proj : τ → σ} {put : σ → τ → τ} {x : Call σ ε α} {t t' : τ} {r : Reply ε α}
    (h : zoom proj put x t = (r, t')) : ∃ s, x (proj t) = (r, s) ∧ t' = put s t := by
  unfold zoom at h
  rcases hx : x (proj t) with ⟨r', s⟩
  rw [hx] at h
  cases h
  exact ⟨s, rfl, rfl⟩

theorem check_ok_iff {c : Except ε α} {s t : σ} {a : α} :
    (check c : Call σ ε α) s = (.ok a, t) ↔ c = .ok a ∧ t = s := by
  cases c <;> simp [eq_comm]

/-- A call and a pure function of its value. -/
theorem map_apply {x : Call σ ε α} {f : α → β} {s t : σ} {r : Reply ε α} (h : x s = (r, t)) :
    (do let a ← x
        pure (f a)) s = (r.map f, t) := by
  rw [bind_apply, h]
  cases r <;> rfl

/-! ## Calls that keep a part of the state -/

/-- The call returns or refuses, and leaves `proj` of the state as it was. -/
structure Quiet (proj : σ → τ) (x : Call σ ε α) : Prop where
  keeps : ∀ {s t : σ} {r : Reply ε α}, x s = (r, t) → proj t = proj s ∧ r ≠ .killed

namespace Quiet

variable {proj : σ → τ}

theorem pure (a : α) : Quiet proj (Pure.pure a : Call σ ε α) := by
  refine ⟨fun h => ?_⟩
  cases h
  exact ⟨rfl, by simp⟩

theorem get : Quiet proj (Call.get : Call σ ε σ) := by
  refine ⟨fun h => ?_⟩
  cases h
  exact ⟨rfl, by simp⟩

theorem refuse (e : ε) : Quiet proj (Call.refuse e : Call σ ε α) := by
  refine ⟨fun h => ?_⟩
  cases h
  exact ⟨rfl, by simp⟩

theorem check (c : Except ε α) : Quiet proj (Call.check c) := by
  cases c with
  | ok a => exact pure a
  | error e => exact refuse e

theorem bind_cases {x : Call σ ε α} (hx : Quiet proj x) {f : α → Call σ ε β} {s t : σ}
    {r : Reply ε β} (h : (x >>= f) s = (r, t)) :
    (∃ e, r = .err e ∧ proj t = proj s) ∨
      ∃ a u, x s = (.ok a, u) ∧ proj u = proj s ∧ f a u = (r, t) := by
  rcases Call.bind_cases h with ⟨a, u, hu, h⟩ | ⟨e, hu, rfl⟩ | ⟨hu, rfl⟩
  · exact .inr ⟨a, u, hu, (hx.keeps hu).1, h⟩
  · exact .inl ⟨e, rfl, (hx.keeps hu).1⟩
  · exact absurd rfl (hx.keeps hu).2

theorem bind {x : Call σ ε α} (hx : Quiet proj x) {f : α → Call σ ε β}
    (hf : ∀ a, Quiet proj (f a)) : Quiet proj (x >>= f) := by
  refine ⟨fun h => ?_⟩
  rcases hx.bind_cases h with ⟨e, rfl, ht⟩ | ⟨a, u, -, hu, h⟩
  · exact ⟨ht, by simp⟩
  · exact ⟨((hf a).keeps h).1.trans hu, ((hf a).keeps h).2⟩

theorem ite {c : Prop} [Decidable c] {x y : Call σ ε α} (hx : Quiet proj x) (hy : Quiet proj y) :
    Quiet proj (if c then x else y) := by
  split
  · exact hx
  · exact hy

end Quiet

end Call
