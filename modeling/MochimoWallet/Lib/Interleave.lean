import MochimoWallet.Lib.Call

/-!
# Programs that share a state

A program asks for operations on a shared state one at a time, and goes on with each answer or
fails. Others act between any two of its operations. A `Discipline` says what the operations can
do, what the program relies on the others to do, and what it guarantees of its own. `Safe` is a
program's specification under a discipline: whatever the others do within `rely`, each of its
operations is within `guar`, and it ends in its postcondition, or fails in the other one. An
assertion that is `Stable` survives the others; the rules below take a program apart at its
operations, with a stable assertion before each.
-/

/-- A program over operations `O`, each with its type of answers. -/
inductive Prog (O : Type) (A : O → Type) (ε α : Type) where
  | ret (a : α)
  | fail (e : ε)
  | op (o : O) (k : A o → Prog O A ε α)

namespace Prog

variable {O : Type} {A : O → Type} {ε δ α β : Type}

protected def bind : Prog O A ε α → (α → Prog O A ε β) → Prog O A ε β
  | .ret a, f => f a
  | .fail e, _ => .fail e
  | .op o k, f => .op o fun x => (k x).bind f

instance : Monad (Prog O A ε) where
  pure := Prog.ret
  bind := Prog.bind

/-- One operation. -/
def perform (o : O) : Prog O A ε (A o) := .op o .ret

def check : Except ε α → Prog O A ε α
  | .ok a => .ret a
  | .error e => .fail e

/-- Take a failure as a value. -/
def attempt : Prog O A δ α → Prog O A ε (Except δ α)
  | .ret a => .ret (.ok a)
  | .fail e => .ret (.error e)
  | .op o k => .op o fun x => (k x).attempt

/-- Perform `o` before failing. -/
def onFail (o : O) : Prog O A ε α → Prog O A ε α
  | .ret a => .ret a
  | .fail e => .op o fun _ => .fail e
  | .op o' k => .op o' fun x => (k x).onFail o

/-- Run alone, over a system that answers each operation or ends the process in it. -/
def run {σ : Type} (answer : (o : O) → σ → Option (A o) × σ) : Prog O A ε α → Call σ ε α
  | .ret a, s => (.ok a, s)
  | .fail e, s => (.err e, s)
  | .op o k, s =>
    match answer o s with
    | (some x, t) => (k x).run answer t
    | (none, t) => (.killed, t)

section
variable {σ : Type} (answer : (o : O) → σ → Option (A o) × σ)

theorem run_bind (p : Prog O A ε α) (f : α → Prog O A ε β) :
    (p >>= f).run answer = p.run answer >>= fun a => (f a).run answer := by
  funext s
  induction p generalizing s with
  | ret a => rfl
  | fail e => rfl
  | op o k ih =>
    show (Prog.op o fun x => k x >>= f).run answer s = _
    rw [Call.bind_apply, run, run]
    rcases answer o s with ⟨_ | x, t⟩
    · rfl
    · exact ih x t

theorem run_bind_of_ok {p : Prog O A ε α} {s t : σ} {a : α} (h : p.run answer s = (.ok a, t))
    (f : α → Prog O A ε β) : (p >>= f).run answer s = (f a).run answer t := by
  rw [run_bind, Call.bind_of_ok h]

theorem run_attempt (p : Prog O A δ α) :
    (p.attempt : Prog O A ε (Except δ α)).run answer = (p.run answer).attempt := by
  funext s
  induction p generalizing s with
  | ret a => rfl
  | fail e => rfl
  | op o k ih =>
    simp only [attempt, run, Call.attempt]
    rcases answer o s with ⟨_ | x, t⟩
    · rfl
    · exact ih x t

theorem run_onFail {o : O} {p : Prog O A ε α} {s t : σ} {a : α} (h : p.run answer s = (.ok a, t)) :
    (p.onFail o).run answer s = (.ok a, t) := by
  induction p generalizing s with
  | ret b => exact h
  | fail e => cases h
  | op o' k ih =>
    rw [run] at h
    rw [onFail, run]
    rcases hanswer : answer o' s with ⟨_ | x, u⟩ <;> rw [hanswer] at h
    · cases h
    · exact ih x h

theorem run_bind_of_err {p : Prog O A ε α} {s t : σ} {e : ε} (h : p.run answer s = (.err e, t))
    (f : α → Prog O A ε β) : (p >>= f).run answer s = (.err e, t) := by
  rw [run_bind, Call.bind_apply, h]

theorem run_onFail_err {o : O} {p : Prog O A ε α} {s t u : σ} {e : ε} {x : A o}
    (h : p.run answer s = (.err e, t)) (hanswer : answer o t = (some x, u)) :
    (p.onFail o).run answer s = (.err e, u) := by
  induction p generalizing s with
  | ret b => cases h
  | fail e' =>
    cases h
    rw [onFail, run, hanswer]
    rfl
  | op o' k ih =>
    rw [run] at h
    rw [onFail, run]
    rcases hstep : answer o' s with ⟨_ | y, v⟩ <;> rw [hstep] at h
    · cases h
    · exact ih y h

end

@[simp] theorem pure_bind (a : α) (f : α → Prog O A ε β) : (pure a >>= f) = f a := rfl

theorem check_bind_of_ok {c : Except ε α} {a : α} (h : c = .ok a) (f : α → Prog O A ε β) :
    (check c >>= f) = f a := by
  rw [h]
  rfl

theorem bind_assoc {γ : Type} (p : Prog O A ε α) (f : α → Prog O A ε β) (g : β → Prog O A ε γ) :
    (p >>= f) >>= g = p >>= fun a => f a >>= g := by
  induction p with
  | ret a => rfl
  | fail e => rfl
  | op o k ih => exact congrArg (Prog.op o) (funext ih)

@[simp] theorem bind_pure (p : Prog O A ε α) : (p >>= fun a => pure a) = p := by
  induction p with
  | ret a => rfl
  | fail e => rfl
  | op o k ih => exact congrArg (Prog.op o) (funext ih)

end Prog

/-- What the operations can do to a state, and what a program relies on and guarantees. -/
structure Discipline (σ O : Type) (A : O → Type) where
  act : (o : O) → σ → A o → σ → Prop
  rely : σ → σ → Prop
  guar : σ → σ → Prop
  refl : ∀ s, rely s s
  trans : ∀ {s t u}, rely s t → rely t u → rely s u

namespace Discipline

variable {σ O : Type} {A : O → Type} {ε δ α β : Type} {D : Discipline σ O A}

/-- An assertion that the others keep. -/
def Stable (D : Discipline σ O A) (P : σ → Prop) : Prop := ∀ {s t}, P s → D.rely s t → P t

/-- The program keeps its discipline from `s`, and ends in `Q` or fails in `E`. -/
def Safe (D : Discipline σ O A) (Q : α → σ → Prop) (E : ε → σ → Prop) : Prog O A ε α → σ → Prop
  | .ret a, s => ∀ t, D.rely s t → Q a t
  | .fail e, s => ∀ t, D.rely s t → E e t
  | .op o k, s => ∀ t, D.rely s t → ∀ x u, D.act o t x u → D.guar t u ∧ Safe D Q E (k x) u

namespace Safe

variable {Q Q' : α → σ → Prop} {R : β → σ → Prop} {E E' : ε → σ → Prop} {P : σ → Prop}
  {p : Prog O A ε α} {s t : σ}

/-- What the others do leaves a program safe. -/
theorem stable (h : D.Safe Q E p s) (hrely : D.rely s t) : D.Safe Q E p t := by
  cases p with
  | ret a => exact fun u hu => h u (D.trans hrely hu)
  | fail e => exact fun u hu => h u (D.trans hrely hu)
  | op o k => exact fun u hu => h u (D.trans hrely hu)

/-- An operation of a safe program is within its guarantee and leaves it safe. -/
theorem acts {o : O} {k : A o → Prog O A ε α} {x : A o} (h : D.Safe Q E (.op o k) s)
    (hact : D.act o s x t) : D.guar s t ∧ D.Safe Q E (k x) t :=
  h s (D.refl s) x t hact

/-- What a safe program returns is as specified. -/
theorem returns {a : α} (h : D.Safe Q E (.ret a) s) : Q a s := h s (D.refl s)

theorem ret {a : α} (hQ : D.Stable (Q a)) (h : Q a s) : D.Safe Q E (.ret a) s :=
  fun _ hrely => hQ h hrely

theorem fail {e : ε} (hE : D.Stable (E e)) (h : E e s) : D.Safe Q E (.fail e : Prog O A ε α) s :=
  fun _ hrely => hE h hrely

theorem op {o : O} {k : A o → Prog O A ε α} (hP : D.Stable P) (h : P s)
    (hact : ∀ t x u, P t → D.act o t x u → D.guar t u ∧ D.Safe Q E (k x) u) :
    D.Safe Q E (.op o k) s :=
  fun t hrely x u hu => hact t x u (hP h hrely) hu

theorem mono (h : D.Safe Q E p s) (hQ : ∀ a t, Q a t → Q' a t) (hE : ∀ e t, E e t → E' e t) :
    D.Safe Q' E' p s := by
  induction p generalizing s with
  | ret a => exact fun t ht => hQ a t (h t ht)
  | fail e => exact fun t ht => hE e t (h t ht)
  | op o k ih => exact fun t ht x u hu => ⟨(h t ht x u hu).1, ih x (h t ht x u hu).2⟩

theorem bind {f : α → Prog O A ε β} (h : D.Safe Q E p s)
    (hf : ∀ a t, Q a t → D.Safe R E (f a) t) : D.Safe R E (p >>= f) s := by
  induction p generalizing s with
  | ret a => exact hf a s (h s (D.refl s))
  | fail e => exact h
  | op o k ih => exact fun t ht x u hu => ⟨(h t ht x u hu).1, ih x (h t ht x u hu).2⟩

theorem map {f : α → β} (h : D.Safe (fun a => R (f a)) E p s) : D.Safe R E (f <$> p) s := by
  induction p generalizing s with
  | ret a => exact h
  | fail e => exact h
  | op o k ih => exact fun t ht x u hu => ⟨(h t ht x u hu).1, ih x (h t ht x u hu).2⟩

theorem perform {o : O} {f : A o → Prog O A ε α} (hP : D.Stable P) (h : P s)
    (hact : ∀ t x u, P t → D.act o t x u → D.guar t u ∧ D.Safe Q E (f x) u) :
    D.Safe Q E (Prog.perform o >>= f) s :=
  op hP h hact

/-- A check: what it gives is known from there on, and what it refuses fails. -/
theorem check {c : Except ε α} {f : α → Prog O A ε β} (hP : D.Stable P) (h : P s)
    (hok : ∀ a, c = .ok a → D.Safe R E (f a) s) (herr : ∀ e, c = .error e → ∀ t, P t → E e t) :
    D.Safe R E (Prog.check c >>= f) s := by
  rcases c with e | a
  · exact fun t ht => herr e rfl t (hP h ht)
  · exact hok a rfl

theorem attempt {p : Prog O A δ α} {Q : Except δ α → σ → Prop}
    (h : D.Safe (fun a => Q (.ok a)) (fun e => Q (.error e)) p s) :
    D.Safe Q E (p.attempt : Prog O A ε (Except δ α)) s := by
  induction p generalizing s with
  | ret a => exact h
  | fail e => exact h
  | op o k ih => exact fun t ht x u hu => ⟨(h t ht x u hu).1, ih x (h t ht x u hu).2⟩

/-- A failure on which an operation is performed first, from `F` to a stable `E`. -/
theorem onFail {o : O} {F : ε → σ → Prop} (h : D.Safe Q F p s) (hE : ∀ e, D.Stable (E e))
    (hact : ∀ e t x u, F e t → D.act o t x u → D.guar t u ∧ E e u) :
    D.Safe Q E (p.onFail o) s := by
  induction p generalizing s with
  | ret a => exact h
  | fail e =>
    intro t ht x u hu
    obtain ⟨hguar, hend⟩ := hact e t x u (h t ht) hu
    exact ⟨hguar, fun v hv => hE e hend hv⟩
  | op o' k ih => exact fun t ht x u hu => ⟨(h t ht x u hu).1, ih x (h t ht x u hu).2⟩

end Safe

-- A specification is taken apart by the rules above.
attribute [irreducible] Safe

end Discipline
