import Mathlib.Tactic.TypeStar
import Mathlib.Data.Nat.Notation

/-!
# One-time positions

A signer of one-time keys must not use a key for two messages. It keeps, for each
key sequence, a register: the next position to use, and the message of the position
just before it while that position is reserved (`opened`) or after its reservation
was settled (`retained`). A register reserves, skips and settles; `Spent` says that
it has a position behind it, and with which message while it still knows.

`Signer` is a family of registers with the log of what was released, each release
taken from an open register. `Signer.agree` is what it is for: in every run, two
releases at one position of one sequence are of one message.
-/

namespace OneTime

variable {ι δ : Type*}

/-! ## One register -/

structure Register (δ : Type*) where
  next : ℕ
  opened : Option δ
  retained : Option δ

namespace Register

/-- The message of the position before `next`, if it is known. -/
def block (r : Register δ) : Option δ := r.opened.or r.retained

inductive Step : Register δ → Register δ → Prop where
  | reserve {r : Register δ} (d : δ) (hopen : r.opened = none) :
      Step r ⟨r.next + 1, some d, none⟩
  | skip {r : Register δ} {n : ℕ} (hopen : r.opened = none) (hahead : r.next < n) :
      Step r ⟨n, none, none⟩
  | settle {r : Register δ} {d : δ} (hopen : r.opened = some d) : Step r ⟨r.next, none, some d⟩

/-- The register has reached `n`, and while it stands at `n` its block is `b`. -/
def Holds (r : Register δ) (n : ℕ) (b : Option δ) : Prop :=
  n ≤ r.next ∧ (r.next = n → r.block = b)

/-- The position `n` is behind the register, with the message `d`. -/
def Spent (r : Register δ) (n : ℕ) (d : δ) : Prop := r.Holds (n + 1) (some d)

theorem holds_self (r : Register δ) : r.Holds r.next r.block := ⟨Nat.le_refl _, fun _ => rfl⟩

theorem Step.holds {r r' : Register δ} (h : Step r r') {n : ℕ} {b : Option δ} (hb : r.Holds n b) :
    r'.Holds n b := by
  obtain ⟨hle, hat⟩ := hb
  cases h with
  | reserve d hopen => exact ⟨Nat.le_succ_of_le hle, fun h => absurd h (by simp only; omega)⟩
  | skip hopen hahead => exact ⟨by simp only; omega, fun h => absurd h (by simp only; omega)⟩
  | settle hopen =>
    refine ⟨hle, fun h => ?_⟩
    rw [← hat h, block, block, hopen]
    rfl

/-- An open register knows its message, so whatever else is said of its position agrees. -/
theorem Holds.opened {r : Register δ} {n : ℕ} {b : Option δ} {d : δ} (hb : r.Holds n b)
    (hn : r.next = n) (hopen : r.opened = some d) : b = some d := by
  rw [← hb.2 hn, block, hopen]
  rfl

theorem spent_opened {r : Register δ} {n : ℕ} {d : δ} (hn : r.next = n + 1)
    (hopen : r.opened = some d) : r.Spent n d :=
  ⟨Nat.le_of_eq hn.symm, fun _ => by rw [block, hopen]; rfl⟩

end Register

/-! ## A family of registers -/

/-- A register for each sequence in use. -/
abbrev Ledger (ι δ : Type*) := ι → Option (Register δ)

namespace Ledger

/-- One register steps or comes into use, and the others stay. -/
inductive Step (l l' : Ledger ι δ) : Prop where
  | same (h : l' = l)
  | move {i : ι} {r r' : Register δ} (hi : l i = some r) (hi' : l' i = some r')
      (hstep : r.Step r') (hother : ∀ j ≠ i, l' j = l j)
  | born {i : ι} {r : Register δ} (hi : l i = none) (hi' : l' i = some r)
      (hother : ∀ j ≠ i, l' j = l j)

def Holds (l : Ledger ι δ) (i : ι) (n : ℕ) (b : Option δ) : Prop := ∃ r, l i = some r ∧ r.Holds n b

def Spent (l : Ledger ι δ) (i : ι) (n : ℕ) (d : δ) : Prop := l.Holds i (n + 1) (some d)

theorem Step.holds {l l' : Ledger ι δ} (h : Step l l') {i : ι} {n : ℕ} {b : Option δ}
    (hb : l.Holds i n b) : l'.Holds i n b := by
  obtain ⟨r, hr, hb⟩ := hb
  cases h with
  | same h => exact ⟨r, h ▸ hr, hb⟩
  | @move j s s' hj hj' hstep hother =>
    by_cases hij : i = j
    · subst hij
      rw [hj] at hr
      cases hr
      exact ⟨s', hj', hstep.holds hb⟩
    · exact ⟨r, (hother i hij).trans hr, hb⟩
  | @born j s hj hj' hother =>
    have hij : i ≠ j := by
      rintro rfl
      rw [hj] at hr
      cases hr
    exact ⟨r, (hother i hij).trans hr, hb⟩

end Ledger

/-! ## The signer -/

/-- A release: the sequence, the position and the message signed at it. -/
structure Release (ι δ : Type*) where
  name : ι
  position : ℕ
  message : δ
  deriving DecidableEq

structure Signer (ι δ : Type*) where
  ledger : Ledger ι δ
  log : List (Release ι δ)

namespace Signer

/-- The registers step and nothing is released, or an open register releases its message. -/
inductive Step : Signer ι δ → Signer ι δ → Prop where
  | move {s : Signer ι δ} {l : Ledger ι δ} (h : s.ledger.Step l) : Step s ⟨l, s.log⟩
  | release {s : Signer ι δ} {i : ι} {r : Register δ} {n : ℕ} {d : δ} (hi : s.ledger i = some r)
      (hn : r.next = n + 1) (hopen : r.opened = some d) : Step s ⟨s.ledger, ⟨i, n, d⟩ :: s.log⟩

/-- Every release is of a position that is spent with its message, and releases agree. -/
structure Sound (s : Signer ι δ) : Prop where
  spent : ∀ x ∈ s.log, s.ledger.Spent x.name x.position x.message
  agree : ∀ x ∈ s.log, ∀ y ∈ s.log, x.name = y.name → x.position = y.position →
    x.message = y.message

theorem Step.sound {s s' : Signer ι δ} (h : Step s s') (hs : s.Sound) : s'.Sound := by
  cases h with
  | move h => exact ⟨fun x hx => h.holds (hs.spent x hx), hs.agree⟩
  | @release i r n d hi hn hopen =>
    -- The open register still knows the message of its position, so what was released there agrees.
    have hsame : ∀ x ∈ s.log, x.name = i → x.position = n → x.message = d := by
      rintro ⟨j, m, e⟩ hx (rfl : j = i) (rfl : m = n)
      obtain ⟨r', hr', hb⟩ := hs.spent _ hx
      rw [hi] at hr'
      cases hr'
      exact Option.some.inj (hb.opened hn hopen)
    refine ⟨fun x hx => ?_, fun x hx y hy hname hpos => ?_⟩
    · rcases List.mem_cons.mp hx with rfl | hx
      · exact ⟨r, hi, Register.spent_opened hn hopen⟩
      · exact hs.spent x hx
    · rcases List.mem_cons.mp hx with rfl | hx <;> rcases List.mem_cons.mp hy with rfl | hy
      · rfl
      · exact (hsame y hy hname.symm hpos.symm).symm
      · exact hsame x hx hname hpos
      · exact hs.agree x hx y hy hname hpos

theorem sound_start (l : Ledger ι δ) : (⟨l, []⟩ : Signer ι δ).Sound :=
  ⟨by simp, by simp⟩

end Signer

end OneTime
