import MochimoWallet.Lib.Call

/-!
# Calls that count, and log what they count

A call counts as it goes, and writes to a log. `Ticks n x` bounds both at once: `x` counts at most
`n`, and what it logs is allowed at the count it may have reached. `Logs P x s` is about the log
alone, for calls that put the count back as they go: `Ticks.logs` is the step from the one to the
other, at a call that counts from none.
-/

namespace Call

/-- Where a state keeps a count, and a log. -/
structure Meter (σ ρ : Type) where
  count : σ → ℕ
  log : σ → List ρ

variable {σ ρ ε δ α β : Type}

/-- `x` counts at most `n`, and logs what is allowed at the count it may have reached. -/
structure Ticks (M : Meter σ ρ) (allowed : ℕ → ρ → Prop) (n : ℕ) (x : Call σ ε α) : Prop where
  run : ∀ {s s' : σ} {r : Reply ε α}, x s = (r, s') → M.count s' ≤ M.count s + n ∧
    ∃ new, M.log s' = M.log s ++ new ∧ ∀ p ∈ new, allowed (M.count s + n) p

/-- Run on `s`, `x` logs only what has `P`. -/
structure Logs (M : Meter σ ρ) (P : ρ → Prop) (x : Call σ ε α) (s : σ) : Prop where
  run : ∀ {s' : σ} {r : Reply ε α}, x s = (r, s') → ∃ new, M.log s' = M.log s ++ new ∧ ∀ p ∈ new, P p

variable {M : Meter σ ρ} {allowed : ℕ → ρ → Prop} {P : ρ → Prop} {n : ℕ} {s : σ}

namespace Ticks

/-- A call that neither counts nor logs. -/
theorem still {x : Call σ ε α}
    (h : ∀ {s s' r}, x s = (r, s') → M.count s' = M.count s ∧ M.log s' = M.log s) :
    Ticks M allowed n x := by
  refine ⟨fun hrun => ?_⟩
  obtain ⟨hcount, hlog⟩ := h hrun
  exact ⟨by omega, [], by rw [hlog, List.append_nil], fun _ hp => by cases hp⟩

theorem pure (a : α) : Ticks M allowed n (Pure.pure a : Call σ ε α) :=
  still fun h => by cases h; exact ⟨rfl, rfl⟩

theorem refuse (e : ε) : Ticks M allowed n (Call.refuse e : Call σ ε α) :=
  still fun h => by cases h; exact ⟨rfl, rfl⟩

/-- A check, and what follows it where it passes. -/
theorem check_bind {c : Except ε α} {f : α → Call σ ε β}
    (h : ∀ a, c = .ok a → Ticks M allowed n (f a)) : Ticks M allowed n (Call.check c >>= f) := by
  cases c with
  | error e => exact refuse e
  | ok a => exact h a rfl

/-- A call that neither counts nor logs, and what follows it. -/
theorem still_bind {x : Call σ ε α} {f : α → Call σ ε β}
    (hx : ∀ {s s' r}, x s = (r, s') → M.count s' = M.count s ∧ M.log s' = M.log s)
    (hf : ∀ a, Ticks M allowed n (f a)) : Ticks M allowed n (x >>= f) := by
  have hstill : Ticks M allowed n x := still hx
  refine ⟨fun hrun => ?_⟩
  rcases bind_cases hrun with ⟨a, u, hu, hrun⟩ | ⟨e, hu, rfl⟩ | ⟨hu, rfl⟩
  · obtain ⟨hcount, hlog⟩ := hx hu
    have hticks := (hf a).run hrun
    rwa [hcount, hlog] at hticks
  · exact hstill.run hu
  · exact hstill.run hu

/-- A call, and one after it that neither counts nor logs. -/
theorem bind_still {x : Call σ ε α} {f : α → Call σ ε β} (hx : Ticks M allowed n x)
    (hf : ∀ {a s s' r}, f a s = (r, s') → M.count s' = M.count s ∧ M.log s' = M.log s) :
    Ticks M allowed n (x >>= f) := by
  refine ⟨fun hrun => ?_⟩
  rcases bind_cases hrun with ⟨a, u, hu, hrun⟩ | ⟨e, hu, rfl⟩ | ⟨hu, rfl⟩
  · obtain ⟨hcount, hlog⟩ := hf hrun
    rw [hcount, hlog]
    exact hx.run hu
  · exact hx.run hu
  · exact hx.run hu

theorem attempt {x : Call σ δ α} (hx : Ticks M allowed n x) :
    Ticks M allowed n (x.attempt : Call σ ε (Except δ α)) := by
  refine ⟨fun hrun => ?_⟩
  rcases attempt_cases hrun with ⟨found, rfl, hfound⟩ | ⟨rfl, hkilled⟩
  · exact hx.run hfound
  · exact hx.run hkilled

theorem ite {c : Prop} [Decidable c] {x y : Call σ ε α} (hx : Ticks M allowed n x)
    (hy : Ticks M allowed n y) : Ticks M allowed n (if c then x else y) := by
  split
  · exact hx
  · exact hy

/-- Counted from none. -/
theorem logs {x : Call σ ε α} (hx : Ticks M allowed n x) (hs : M.count s = 0) :
    Logs M (allowed n) x s := by
  refine ⟨fun hrun => ?_⟩
  have hnew := (hx.run hrun).2
  rwa [hs, Nat.zero_add] at hnew

end Ticks

namespace Logs

theorem still {x : Call σ ε α} (h : ∀ {s' r}, x s = (r, s') → M.log s' = M.log s) :
    Logs M P x s :=
  ⟨fun hrun => ⟨[], by rw [h hrun, List.append_nil], fun _ hp => by cases hp⟩⟩

theorem pure (a : α) : Logs M P (Pure.pure a : Call σ ε α) s :=
  still fun h => by cases h; rfl

theorem refuse (e : ε) : Logs M P (Call.refuse e : Call σ ε α) s :=
  still fun h => by cases h; rfl

theorem check (c : Except ε α) : Logs M P (Call.check c : Call σ ε α) s := by
  cases c with
  | error e => exact refuse e
  | ok a => exact pure a

theorem bind {x : Call σ ε α} {f : α → Call σ ε β} (hx : Logs M P x s)
    (hf : ∀ a s, Logs M P (f a) s) : Logs M P (x >>= f) s := by
  refine ⟨fun hrun => ?_⟩
  rcases bind_cases hrun with ⟨a, u, hu, hrun⟩ | ⟨e, hu, rfl⟩ | ⟨hu, rfl⟩
  · obtain ⟨new, hlog, hnew⟩ := hx.run hu
    obtain ⟨more, hlog', hmore⟩ := (hf a u).run hrun
    refine ⟨new ++ more, by rw [hlog', hlog, List.append_assoc], fun p hp => ?_⟩
    exact (List.mem_append.mp hp).elim (hnew p) (hmore p)
  · exact hx.run hu
  · exact hx.run hu

/-- A step of the state, and what follows it. -/
theorem modify_bind {g : σ → σ} {f : Unit → Call σ ε β} (new : List ρ)
    (hlog : M.log (g s) = M.log s ++ new) (hnew : ∀ p ∈ new, P p) (hf : Logs M P (f ()) (g s)) :
    Logs M P (Call.modify g >>= f) s := by
  refine ⟨fun hrun => ?_⟩
  obtain ⟨more, hlog', hmore⟩ := hf.run hrun
  refine ⟨new ++ more, by rw [hlog', hlog, List.append_assoc], fun p hp => ?_⟩
  exact (List.mem_append.mp hp).elim (hnew p) (hmore p)

theorem get_bind {f : σ → Call σ ε β} (h : Logs M P (f s) s) : Logs M P (Call.get >>= f) s :=
  ⟨fun hrun => h.run hrun⟩

theorem attempt {x : Call σ δ α} (hx : Logs M P x s) :
    Logs M P (x.attempt : Call σ ε (Except δ α)) s := by
  refine ⟨fun hrun => ?_⟩
  rcases attempt_cases hrun with ⟨found, rfl, hfound⟩ | ⟨rfl, hkilled⟩
  · exact hx.run hfound
  · exact hx.run hkilled

theorem ite {c : Prop} [Decidable c] {x y : Call σ ε α} (hx : Logs M P x s) (hy : Logs M P y s) :
    Logs M P (if c then x else y) s := by
  split
  · exact hx
  · exact hy

theorem mono {Q : ρ → Prop} {x : Call σ ε α} (h : Logs M P x s) (hPQ : ∀ p, P p → Q p) :
    Logs M Q x s := by
  refine ⟨fun hrun => ?_⟩
  obtain ⟨new, hlog, hnew⟩ := h.run hrun
  exact ⟨new, hlog, fun p hp => hPQ p (hnew p hp)⟩

end Logs

end Call
