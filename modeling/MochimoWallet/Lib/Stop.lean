import MochimoWallet.Lib.Call
import Mathlib.Data.List.Basic

/-!
# Calls that can be stopped, and calls that are watched

A call that can be stopped asks its caller now and then, who answers from a list that
may hold anything. `Heeds` says what asking does: as long as no answer is `true` the
call is the one that never asks, on the same state and whatever answers it is given; the
first `true` is the last answer it takes, and it then ends in one of the endings `halts`
names, with a part of the state as it was. `Heeds.bind` puts such calls one after the
other; a stop may come back as a value that the next call ends on.

`Over` is one call seen on two states that a relation ties together: on the larger of them it
may also leave a record.
-/

/-- Where a state keeps the answers to come, and the part of it that a stop leaves as it was. -/
structure Stops (σ τ : Type) where
  answers : σ → List Bool
  setAnswers : List Bool → σ → σ
  kept : σ → τ

namespace Stops

variable {σ τ : Type} (S : Stops σ τ)

/-- Answers were taken, none of which says stop. -/
def Went (s s' : σ) : Prop := ∃ asked, S.answers s = asked ++ S.answers s' ∧ true ∉ asked

/-- Answers were taken, the last of which is the first to say stop. -/
def Halted (s s' : σ) : Prop :=
  (∃ asked, S.answers s = asked ++ true :: S.answers s' ∧ true ∉ asked) ∧ S.kept s' = S.kept s

variable {S} {s t u : σ}

theorem Went.refl (s : σ) : S.Went s s := ⟨[], rfl, List.not_mem_nil⟩

theorem Went.of_eq (h : S.answers t = S.answers s) : S.Went s t := ⟨[], h.symm, List.not_mem_nil⟩

theorem Went.trans (h : S.Went s t) (h' : S.Went t u) : S.Went s u := by
  obtain ⟨asked, hs, hno⟩ := h
  obtain ⟨asked', ht, hno'⟩ := h'
  refine ⟨asked ++ asked', by rw [hs, ht, List.append_assoc], fun hmem => ?_⟩
  exact (List.mem_append.mp hmem).elim hno hno'

theorem Went.halted (h : S.Went s t) (hkept : S.kept t = S.kept s) (h' : S.Halted t u) :
    S.Halted s u := by
  obtain ⟨asked, hs, hno⟩ := h
  obtain ⟨⟨asked', ht, hno'⟩, hu⟩ := h'
  refine ⟨⟨asked ++ asked', by rw [hs, ht, List.append_assoc], fun hmem => ?_⟩, hu.trans hkept⟩
  exact (List.mem_append.mp hmem).elim hno hno'

end Stops

namespace Call

variable {σ τ ε δ α β : Type}

/-- On states whose kept part has `inv`, `x` is `y`, asking its caller whether to stop. -/
structure Heeds (S : Stops σ τ) (inv : τ → Prop) (halts : Reply ε α → Prop) (x y : Call σ ε α) :
    Prop where
  run : ∀ {s s' : σ} {r : Reply ε α}, inv (S.kept s) → x s = (r, s') →
    (S.Went s s' ∧ ¬ halts r ∧ ∀ l, y (S.setAnswers l s) = (r, S.setAnswers l s')) ∨
      S.Halted s s' ∧ halts r

/-- A call that asks nothing, and reads no answers. -/
structure Deaf (S : Stops σ τ) (x : Call σ ε α) : Prop where
  run : ∀ {s s' : σ} {r : Reply ε α}, x s = (r, s') → S.answers s' = S.answers s ∧
    ∀ l, x (S.setAnswers l s) = (r, S.setAnswers l s')

variable {S : Stops σ τ} {inv : τ → Prop} {halts : Reply ε α → Prop} {halts' : Reply ε β → Prop}

namespace Deaf

theorem pure (a : α) : Deaf S (Pure.pure a : Call σ ε α) := by
  refine ⟨fun h => ?_⟩
  cases h
  exact ⟨rfl, fun _ => rfl⟩

theorem refuse (e : ε) : Deaf S (Call.refuse e : Call σ ε α) := by
  refine ⟨fun h => ?_⟩
  cases h
  exact ⟨rfl, fun _ => rfl⟩

theorem check (c : Except ε α) : Deaf S (Call.check c) := by
  cases c with
  | ok a => exact pure a
  | error e => exact refuse e

theorem bind {x : Call σ ε α} {f : α → Call σ ε β} (hx : Deaf S x) (hf : ∀ a, Deaf S (f a)) :
    Deaf S (x >>= f) := by
  refine ⟨fun h => ?_⟩
  rcases bind_cases h with ⟨a, u, hu, h⟩ | ⟨e, hu, rfl⟩ | ⟨hu, rfl⟩ <;>
    obtain ⟨hanswers, hsame⟩ := hx.run hu
  · obtain ⟨hanswers', hsame'⟩ := (hf a).run h
    exact ⟨hanswers'.trans hanswers, fun l => by rw [bind_of_ok (hsame l), hsame' l]⟩
  · exact ⟨hanswers, fun l => by rw [bind_apply, hsame l]⟩
  · exact ⟨hanswers, fun l => by rw [bind_apply, hsame l]⟩

/-- A call that asks nothing has nothing to heed, if it does not end as a stop would. -/
theorem heeds {x : Call σ ε α} (hx : Deaf S x)
    (hlive : ∀ {s s' r}, inv (S.kept s) → x s = (r, s') → ¬ halts r) : Heeds S inv halts x x := by
  refine ⟨fun hinv h => .inl ?_⟩
  obtain ⟨hanswers, hsame⟩ := hx.run h
  exact ⟨.of_eq hanswers, hlive hinv h, hsame⟩

end Deaf

namespace Heeds

theorem pure {a : α} (ha : ¬ halts (.ok a)) :
    Heeds S inv halts (Pure.pure a : Call σ ε α) (Pure.pure a) :=
  (Deaf.pure a).heeds fun _ h => by cases h; exact ha

theorem refuse {e : ε} (he : ¬ halts (.err e)) :
    Heeds S inv halts (Call.refuse e : Call σ ε α) (Call.refuse e) :=
  (Deaf.refuse e).heeds fun _ h => by cases h; exact he

theorem check {c : Except ε α} (hc : ¬ halts (.ofExcept c)) :
    Heeds S inv halts (Call.check c) (Call.check c) :=
  (Deaf.check c).heeds fun _ h => by cases c <;> cases h <;> exact hc

/-- What is read of the state, when it is no answer. -/
theorem get_bind {f g : σ → Call σ ε β} (hread : ∀ s l, g (S.setAnswers l s) = g s)
    (h : ∀ s, Heeds S inv halts' (f s) (g s)) :
    Heeds S inv halts' (Call.get >>= f) (Call.get >>= g) := by
  refine ⟨fun {s s' r} hinv hrun => ?_⟩
  rcases (h s).run hinv hrun with ⟨hwent, hlive, hsame⟩ | hhalted
  · exact .inl ⟨hwent, hlive, fun l => by rw [Call.get_bind, hread, hsame l]⟩
  · exact .inr hhalted

/-- One call after the other: a stop in the first ends it, or is the value the second ends on. -/
theorem bind {x y : Call σ ε α} {f g : α → Call σ ε β} (hx : Heeds S inv halts x y)
    (hquiet : Quiet S.kept x) (hf : ∀ a, ¬ halts (.ok a) → Heeds S inv halts' (f a) (g a))
    (hmark : ∀ a s, halts (.ok a) → ∃ r, f a s = (r, s) ∧ halts' r)
    (herr : ∀ {s s' e}, x s = (.err e, s') → (halts (.err e) ↔ halts' (.err e))) :
    Heeds S inv halts' (x >>= f) (y >>= g) := by
  refine ⟨fun hinv h => ?_⟩
  rcases bind_cases h with ⟨a, u, hu, h⟩ | ⟨e, hu, rfl⟩ | ⟨hu, -⟩
  · have hkept := (hquiet.keeps hu).1
    rcases hx.run hinv hu with ⟨hwent, hlive, hsame⟩ | ⟨hhalted, ha⟩
    · rcases (hf a hlive).run (hkept ▸ hinv) h with ⟨hwent', hlive', hsame'⟩ | ⟨hhalted, hr⟩
      · exact .inl ⟨hwent.trans hwent', hlive', fun l => by rw [bind_of_ok (hsame l), hsame' l]⟩
      · exact .inr ⟨hwent.halted hkept hhalted, hr⟩
    · obtain ⟨r', hr', hends⟩ := hmark a u ha
      cases hr'.symm.trans h
      exact .inr ⟨hhalted, hends⟩
  · rcases hx.run hinv hu with ⟨hwent, hlive, hsame⟩ | ⟨hhalted, he⟩
    · exact .inl ⟨hwent, fun he => hlive ((herr hu).mpr he), fun l => by rw [bind_apply, hsame l]⟩
    · exact .inr ⟨hhalted, (herr hu).mp he⟩
  · exact absurd rfl (hquiet.keeps hu).2

/-- One call after the other, where no value is a stop's. -/
theorem seq {x y : Call σ ε α} {f g : α → Call σ ε β} (hx : Heeds S inv halts x y)
    (hquiet : Quiet S.kept x) (hvalue : ∀ a, ¬ halts (.ok a))
    (herr : ∀ {s s' e}, x s = (.err e, s') → (halts (.err e) ↔ halts' (.err e)))
    (hf : ∀ a, Heeds S inv halts' (f a) (g a)) :
    Heeds S inv halts' (x >>= f) (y >>= g) :=
  bind hx hquiet (fun a _ => hf a) (fun a _ ha => absurd ha (hvalue a)) herr

/-- A call and a pure function of its value. -/
theorem map {x y : Call σ ε α} {f : α → β} (hx : Heeds S inv halts x y)
    (hhalts : ∀ r, halts r ↔ halts' (r.map f)) :
    Heeds S inv halts' (do let a ← x
                           Pure.pure (f a)) (do let a ← y
                                                Pure.pure (f a)) := by
  refine ⟨fun {s s' r} hinv h => ?_⟩
  rcases hr : x s with ⟨r', u⟩
  cases (map_apply hr).symm.trans h
  rcases hx.run hinv hr with ⟨hwent, hlive, hsame⟩ | ⟨hhalted, hends⟩
  · exact .inl ⟨hwent, fun hends => hlive ((hhalts _).mpr hends), fun l => map_apply (hsame l)⟩
  · exact .inr ⟨hhalted, (hhalts _).mp hends⟩

/-- A refusal taken as a value. -/
theorem attempt {x y : Call σ δ α} {stopped : Reply δ α → Prop} (hx : Heeds S inv stopped x y)
    (hlive : ¬ stopped .killed) :
    Heeds S inv (fun r : Reply ε (Except δ α) => ∃ found, r = .ok found ∧ stopped (.ofExcept found))
      x.attempt y.attempt := by
  refine ⟨fun {s s' r} hinv h => ?_⟩
  rcases attempt_cases h with ⟨found, rfl, hfound⟩ | ⟨rfl, hkilled⟩
  · rcases hx.run hinv hfound with ⟨hwent, hgoes, hsame⟩ | ⟨hhalted, hstopped⟩
    · refine .inl ⟨hwent, ?_, fun l => ?_⟩
      · rintro ⟨_, ⟨⟩, hstopped⟩
        exact hgoes hstopped
      · unfold Call.attempt
        rw [hsame l]
        cases found <;> rfl
    · exact .inr ⟨hhalted, found, rfl, hstopped⟩
  · rcases hx.run hinv hkilled with ⟨hwent, -, hsame⟩ | ⟨-, hstopped⟩
    · refine .inl ⟨hwent, by rintro ⟨_, ⟨⟩, -⟩, fun l => ?_⟩
      unfold Call.attempt
      rw [hsame l]
    · exact absurd hstopped hlive

theorem ite {c : Prop} [Decidable c] {x y x' y' : Call σ ε α} (h : Heeds S inv halts x y)
    (h' : Heeds S inv halts x' y') : Heeds S inv halts (if c then x else x') (if c then y else y') := by
  split
  · exact h
  · exact h'

end Heeds

/-- On states `R` relates, `x` ends as `y` does, on states it relates again. -/
structure Over (R : τ → σ → Prop) (x : Call τ ε α) (y : Call σ ε α) : Prop where
  run : ∀ {t t' : τ} {s : σ} {r : Reply ε α}, R t s → x t = (r, t') → ∃ s', y s = (r, s') ∧ R t' s'

namespace Over

variable {R : τ → σ → Prop}

theorem pure (a : α) : Over R (Pure.pure a : Call τ ε α) (Pure.pure a) := by
  refine ⟨fun hR h => ?_⟩
  cases h
  exact ⟨_, rfl, hR⟩

theorem refuse (e : ε) : Over R (Call.refuse e : Call τ ε α) (Call.refuse e) := by
  refine ⟨fun hR h => ?_⟩
  cases h
  exact ⟨_, rfl, hR⟩

theorem check (c : Except ε α) : Over R (Call.check c : Call τ ε α) (Call.check c) := by
  cases c with
  | ok a => exact pure a
  | error e => exact refuse e

theorem bind {x : Call τ ε α} {y : Call σ ε α} {f : α → Call τ ε β} {g : α → Call σ ε β}
    (hx : Over R x y) (hf : ∀ a, Over R (f a) (g a)) : Over R (x >>= f) (y >>= g) := by
  refine ⟨fun hR h => ?_⟩
  rcases bind_cases h with ⟨a, u, hu, h⟩ | ⟨e, hu, rfl⟩ | ⟨hu, rfl⟩ <;>
    obtain ⟨v, hv, hR⟩ := hx.run hR hu
  · obtain ⟨s', hs', hR⟩ := (hf a).run hR h
    exact ⟨s', by rw [bind_of_ok hv, hs'], hR⟩
  · exact ⟨v, by rw [bind_apply, hv], hR⟩
  · exact ⟨v, by rw [bind_apply, hv], hR⟩

/-- A step of the larger state alone. -/
theorem modify_bind {g : τ → τ} (hg : ∀ {t s}, R t s → R (g t) s) {f : Unit → Call τ ε β}
    {y : Call σ ε β} (hf : Over R (f ()) y) : Over R (Call.modify g >>= f) y :=
  ⟨fun hR h => hf.run (hg hR) (by rwa [Call.modify_bind] at h)⟩

theorem get_bind {f : τ → Call τ ε β} {g : σ → Call σ ε β}
    (h : ∀ {t s}, R t s → Over R (f t) (g s)) : Over R (Call.get >>= f) (Call.get >>= g) :=
  ⟨fun hR hrun => by
    rw [Call.get_bind] at hrun
    simpa only [Call.get_bind] using (h hR).run hR hrun⟩

/-- What the larger state alone is read for. -/
theorem read_bind {f : τ → Call τ ε β} {y : Call σ ε β} (h : ∀ t, Over R (f t) y) :
    Over R (Call.get >>= f) y :=
  ⟨fun {t t' s r} hR hrun => (h t).run hR (by rwa [Call.get_bind] at hrun)⟩

theorem attempt {x : Call τ δ α} {y : Call σ δ α} (hx : Over R x y) :
    Over R (x.attempt : Call τ ε (Except δ α)) y.attempt := by
  refine ⟨fun hR h => ?_⟩
  rcases attempt_cases h with ⟨found, rfl, hfound⟩ | ⟨rfl, hkilled⟩
  · obtain ⟨s', hs', hR⟩ := hx.run hR hfound
    refine ⟨s', ?_, hR⟩
    unfold Call.attempt
    rw [hs']
    cases found <;> rfl
  · obtain ⟨s', hs', hR⟩ := hx.run hR hkilled
    refine ⟨s', ?_, hR⟩
    unfold Call.attempt
    rw [hs']

theorem ite {c : Prop} [Decidable c] {x x' : Call τ ε α} {y y' : Call σ ε α} (h : Over R x y)
    (h' : Over R x' y') : Over R (if c then x else x') (if c then y else y') := by
  split
  · exact h
  · exact h'

/-- A call on one component of the larger state. -/
theorem zoom {proj : τ → σ} {put : σ → τ → τ} (y : Call σ ε α) (hproj : ∀ {t s}, R t s → proj t = s)
    (hput : ∀ {t s s'}, R t s → R (put s' t) s') : Over R (Call.zoom proj put y) y := by
  refine ⟨fun hR h => ?_⟩
  obtain ⟨s', hy, rfl⟩ := zoom_cases h
  exact ⟨s', by rwa [hproj hR] at hy, hput hR⟩

end Over

end Call
