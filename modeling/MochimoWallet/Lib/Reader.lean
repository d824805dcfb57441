import MochimoWallet.Lib.Call
import Mathlib.Data.List.Basic

/-!
# Readers

A reader is asked again and again for as many bytes as there is room for, and answers with some of
them, with an error, which may ask for another try, or with none, which is the end. `Delivers` says
which bytes come of a state in all and how they end, however they are cut into answers; the rest may
be left unread. What a caller takes of them is often a line, `upTo` its last byte.
-/

/-! ## Up to a mark -/

section
variable {α : Type} [DecidableEq α] {x : α} {l m : List α}

/-- A list to the first `x` and with it, or the whole. -/
def upTo (x : α) : List α → List α
  | [] => []
  | a :: l => if a = x then [a] else a :: upTo x l

theorem upTo_of_notMem (h : x ∉ l) : upTo x l = l := by
  induction l with
  | nil => rfl
  | cons a l ih =>
    obtain ⟨hne, hl⟩ := not_or.mp (mt List.mem_cons.mpr h)
    rw [upTo, if_neg (Ne.symm hne), ih hl]

theorem upTo_append_of_mem (h : x ∈ l) : upTo x (l ++ m) = upTo x l := by
  induction l with
  | nil => cases h
  | cons a l ih =>
    rw [List.cons_append, upTo, upTo]
    split_ifs with ha
    · rfl
    · rw [ih ((List.mem_cons.mp h).resolve_left (Ne.symm ha))]

theorem upTo_append_of_notMem (h : x ∉ l) : upTo x (l ++ m) = l ++ upTo x m := by
  induction l with
  | nil => rfl
  | cons a l ih =>
    obtain ⟨hne, hl⟩ := not_or.mp (mt List.mem_cons.mpr h)
    rw [List.cons_append, upTo, if_neg (Ne.symm hne), ih hl, List.cons_append]

theorem upTo_eq_nil : upTo x l = [] ↔ l = [] := by
  cases l with
  | nil => simp [upTo]
  | cons a l =>
    rw [upTo]
    split_ifs <;> simp

end

/-! ## What a reader delivers -/

namespace Reader

/-- How the bytes end: with the end of the input, with an error, or nobody has looked. -/
inductive Ending (ε : Type) where
  | eof
  | failed (e : ε)
  | unread

variable {σ ε β : Type}

/-- From this state the answers to `room` come to these bytes; errors that are `again` are no more
than a call to make once again. -/
inductive Delivers (again : ε → Bool) (room : ℕ) (read : ℕ → Call σ ε (List β)) :
    σ → List β → Ending ε → Prop where
  | unread (s : σ) : Delivers again room read s [] .unread
  | eof {s s' : σ} : read room s = (.ok [], s') → Delivers again room read s [] .eof
  | failed {s s' : σ} {e : ε} : read room s = (.err e, s') → again e = false →
      Delivers again room read s [] (.failed e)
  | again {s s' : σ} {e : ε} {bytes : List β} {ending : Ending ε} : read room s = (.err e, s') →
      again e = true → Delivers again room read s' bytes ending →
      Delivers again room read s bytes ending
  | piece {s s' : σ} {piece bytes : List β} {ending : Ending ε} : read room s = (.ok piece, s') →
      piece ≠ [] → piece.length ≤ room → Delivers again room read s' bytes ending →
      Delivers again room read s (piece ++ bytes) ending

end Reader
