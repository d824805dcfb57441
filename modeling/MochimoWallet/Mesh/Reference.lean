import MochimoWallet.Mesh.Spend
import Mathlib.Data.List.Chain

/-!
# What a reference can be

The validator of a destination's reference is a machine of six states over sixteen bytes. What it
accepts is a grammar: groups of capitals and groups of digits in turn, a dash between two, and zeros
to the end. `Rest` is the language of what may follow a character of a group, which is what the
machine's two states inside groups accept (`accepts_inside`) and what the grammar leaves after one
(`rest_iff`).
-/

namespace MochimoWallet

open Codec

/-- The kinds of group. -/
inductive RefKind where
  | upper
  | digit
  deriving DecidableEq

namespace RefKind

def has : RefKind → UInt8 → Bool
  | upper, c => isUpper c
  | digit, c => isDigit c

def other : RefKind → RefKind
  | upper => digit
  | digit => upper

@[simp] theorem other_other (k : RefKind) : k.other.other = k := by cases k <;> rfl

theorem ne_iff {k k' : RefKind} : k ≠ k' ↔ k' = k.other := by
  cases k <;> cases k' <;> simp [other]

/-- A character is of one kind at most, and neither a dash nor a zero is of any. -/
theorem has_excludes {k : RefKind} {c : UInt8} (h : k.has c = true) :
    k.other.has c = false ∧ c ≠ dash ∧ c ≠ 0 := by
  cases k <;> simp only [has, other, isUpper, isDigit, dash, Bool.and_eq_true, decide_eq_true_eq,
    Bool.and_eq_false_iff, decide_eq_false_iff_not, ne_eq] at h ⊢ <;>
    obtain ⟨hlo, hhi⟩ := h <;> rw [UInt8.le_iff_toNat_le] at hlo hhi <;>
    refine ⟨?_, ?_, ?_⟩ <;> simp only [UInt8.le_iff_toNat_le, ← UInt8.toNat_inj] <;>
    simp at hlo hhi ⊢ <;> omega

end RefKind

/-! ## The grammar -/

/-- Non-empty groups of one kind each, neighbours of different kinds. -/
structure RefGroups (groups : List (RefKind × List UInt8)) : Prop where
  nonempty : ∀ g ∈ groups, g.2 ≠ []
  pure : ∀ g ∈ groups, ∀ c ∈ g.2, g.1.has c = true
  turns : groups.IsChain fun a b => a.1 ≠ b.1

/-- The text of some groups, a dash between two. -/
def joinGroups (groups : List (RefKind × List UInt8)) : List UInt8 :=
  [dash].intercalate (groups.map Prod.snd)

/-- A reference as a node accepts it. -/
def RefText (r : List UInt8) : Prop :=
  ∃ groups n, RefGroups groups ∧ r = joinGroups groups ++ List.replicate n 0

/-- What may follow a character of a group of the kind `k`. -/
inductive Rest : RefKind → List UInt8 → Prop where
  | stop (k : RefKind) (n : ℕ) : Rest k (List.replicate n 0)
  | more {k : RefKind} {c : UInt8} {s : List UInt8} (hc : k.has c = true) (h : Rest k s) :
      Rest k (c :: s)
  | turn {k : RefKind} {c : UInt8} {s : List UInt8} (hc : k.other.has c = true)
      (h : Rest k.other s) : Rest k (dash :: c :: s)

theorem rest_cons {k : RefKind} {c : UInt8} {s : List UInt8} : Rest k (c :: s) ↔
    k.has c = true ∧ Rest k s ∨
    c = dash ∧ (∃ c' s', s = c' :: s' ∧ k.other.has c' = true ∧ Rest k.other s') ∨
    c = 0 ∧ ∃ n, s = List.replicate n 0 := by
  constructor
  · intro h
    generalize hr : c :: s = r at h
    cases h with
    | stop _ n =>
      rcases n with _ | n
      · cases hr
      · obtain ⟨rfl, rfl⟩ := List.cons.inj hr
        exact .inr (.inr ⟨rfl, n, rfl⟩)
    | more hc h =>
      cases hr
      exact .inl ⟨hc, h⟩
    | turn hc h =>
      obtain ⟨rfl, rfl⟩ := List.cons.inj hr
      exact .inr (.inl ⟨rfl, _, _, rfl, hc, h⟩)
  · rintro (⟨hc, h⟩ | ⟨rfl, c', s', rfl, hc, h⟩ | ⟨rfl, n, rfl⟩)
    · exact .more hc h
    · exact .turn hc h
    · exact .stop k (n + 1)

/-! ## The machine -/

namespace RefState

def inside : RefKind → RefState
  | .upper => upper
  | .digit => digit

/-- After the dash that ends a group of the kind `k`. -/
def between : RefKind → RefState
  | .upper => upperDash
  | .digit => digitDash

def accepting : RefState → Bool
  | zero | digit | upper => true
  | _ => false

def accepts (s : RefState) (r : List UInt8) : Bool := (s.walk r).any accepting

theorem accepts_cons (s : RefState) (c : UInt8) (r : List UInt8) :
    s.accepts (c :: r) = (s.next c).any (accepts · r) := by
  rw [accepts, walk]
  rcases s.next c with _ | t <;> rfl

theorem next_inside (k : RefKind) (c : UInt8) : (inside k).next c =
    if k.has c then some (inside k) else if c = dash then some (between k)
    else if c = 0 then some zero else none := by
  cases k <;> rfl

theorem next_between (k : RefKind) (c : UInt8) :
    (between k).next c = if k.other.has c then some (inside k.other) else none := by
  cases k <;> rfl

theorem accepts_zero (r : List UInt8) : zero.accepts r = true ↔ ∃ n, r = List.replicate n 0 := by
  induction r with
  | nil => exact iff_of_true rfl ⟨0, rfl⟩
  | cons c r ih =>
    rw [accepts_cons, next]
    by_cases hc : c = 0
    · subst hc
      rw [if_pos rfl, Option.any_some, ih]
      constructor
      · rintro ⟨n, rfl⟩
        exact ⟨n + 1, rfl⟩
      · rintro ⟨_ | n, hn⟩
        · cases hn
        · exact ⟨n, (List.cons.inj hn).2⟩
    · rw [if_neg hc]
      refine iff_of_false nofun ?_
      rintro ⟨_ | n, hn⟩
      · cases hn
      · exact hc (List.cons.inj hn).1

/-- The states inside and after a group of a kind, together: each reads the other's language on. -/
theorem accepts_group (k : RefKind) (r : List UInt8) :
    ((inside k).accepts r = true ↔ Rest k r) ∧
      ((between k).accepts r = true ↔ ∃ c s, r = c :: s ∧ k.other.has c = true ∧ Rest k.other s) := by
  induction r generalizing k with
  | nil =>
    refine ⟨iff_of_true (by cases k <;> rfl) (.stop k 0), iff_of_false (by cases k <;> nofun) ?_⟩
    rintro ⟨c, s, h, -⟩
    cases h
  | cons c r ih =>
    constructor
    · rw [accepts_cons, next_inside, rest_cons]
      by_cases hc : k.has c = true
      · obtain ⟨-, hdash, hzero⟩ := RefKind.has_excludes hc
        rw [if_pos hc, Option.any_some, (ih k).1]
        exact ⟨fun h => .inl ⟨hc, h⟩,
          fun h => (h.resolve_right fun h => h.elim (hdash ·.1) (hzero ·.1)).2⟩
      rw [if_neg hc]
      by_cases hdash : c = dash
      · subst hdash
        rw [if_pos rfl, Option.any_some, (ih k).2]
        exact ⟨fun h => .inr (.inl ⟨rfl, h⟩), fun h =>
          ((h.resolve_left (hc ·.1)).resolve_right fun h => absurd h.1 (by decide)).2⟩
      rw [if_neg hdash]
      by_cases hzero : c = 0
      · subst hzero
        rw [if_pos rfl, Option.any_some, accepts_zero]
        exact ⟨fun h => .inr (.inr ⟨rfl, h⟩), fun h =>
          ((h.resolve_left (hc ·.1)).resolve_left (hdash ·.1)).2⟩
      rw [if_neg hzero]
      refine iff_of_false nofun ?_
      rintro (⟨h, -⟩ | ⟨h, -⟩ | ⟨h, -⟩)
      · exact hc h
      · exact hdash h
      · exact hzero h
    · rw [accepts_cons, next_between]
      by_cases hc : k.other.has c = true
      · rw [if_pos hc, Option.any_some, (ih k.other).1]
        refine ⟨fun h => ⟨c, r, rfl, hc, h⟩, ?_⟩
        rintro ⟨_, _, ⟨⟩, -, h⟩
        exact h
      · rw [if_neg hc]
        refine iff_of_false nofun ?_
        rintro ⟨_, _, ⟨⟩, hc', -⟩
        exact hc hc'

theorem accepts_start (c : UInt8) (r : List UInt8) : start.accepts (c :: r) = true ↔
    (c = 0 ∧ ∃ n, r = List.replicate n 0) ∨ ∃ k : RefKind, k.has c = true ∧ Rest k r := by
  rw [accepts_cons, next]
  by_cases hzero : c = 0
  · rw [if_pos hzero, Option.any_some, accepts_zero]
    refine ⟨fun h => .inl ⟨hzero, h⟩, ?_⟩
    rintro (⟨-, h⟩ | ⟨k, hk, -⟩)
    · exact h
    · exact absurd hzero (RefKind.has_excludes hk).2.2
  rw [if_neg hzero]
  by_cases hdigit : isDigit c = true
  · have hinside : RefState.digit.accepts r = true ↔ Rest .digit r := (accepts_group .digit r).1
    rw [if_pos hdigit, Option.any_some, hinside]
    refine ⟨fun h => .inr ⟨.digit, hdigit, h⟩, ?_⟩
    rintro (⟨h, -⟩ | ⟨_ | _, hk, h⟩)
    · exact absurd h hzero
    · have hnot : isDigit c = false := (RefKind.has_excludes hk).1
      exact absurd hdigit (Bool.not_eq_true _ ▸ hnot)
    · exact h
  rw [if_neg hdigit]
  by_cases hupper : isUpper c = true
  · have hinside : RefState.upper.accepts r = true ↔ Rest .upper r := (accepts_group .upper r).1
    rw [if_pos hupper, Option.any_some, hinside]
    refine ⟨fun h => .inr ⟨.upper, hupper, h⟩, ?_⟩
    rintro (⟨h, -⟩ | ⟨_ | _, hk, h⟩)
    · exact absurd h hzero
    · exact h
    · exact absurd hk hdigit
  rw [if_neg hupper]
  refine iff_of_false nofun ?_
  rintro (⟨h, -⟩ | ⟨_ | _, hk, -⟩)
  · exact hzero h
  · exact hupper hk
  · exact hdigit hk

end RefState

/-! ## The machine accepts the grammar -/

theorem joinGroups_single (g : RefKind × List UInt8) : joinGroups [g] = g.2 := by
  simp [joinGroups]

theorem joinGroups_cons_cons (g h : RefKind × List UInt8) (groups : List (RefKind × List UInt8)) :
    joinGroups (g :: h :: groups) = g.2 ++ dash :: joinGroups (h :: groups) := by
  simp [joinGroups, List.intercalate]

theorem joinGroups_cons_head (k : RefKind) (c : UInt8) (g : List UInt8)
    (groups : List (RefKind × List UInt8)) :
    joinGroups ((k, c :: g) :: groups) = c :: joinGroups ((k, g) :: groups) := by
  rcases groups with _ | ⟨h, groups⟩
  · rw [joinGroups_single, joinGroups_single]
  · rw [joinGroups_cons_cons, joinGroups_cons_cons]
    rfl

/-- A group goes before groups that begin with the other kind. -/
theorem refGroups_cons {k : RefKind} {g : List UInt8} {groups : List (RefKind × List UInt8)} :
    RefGroups ((k, g) :: groups) ↔ g ≠ [] ∧ (∀ c ∈ g, k.has c = true) ∧ RefGroups groups ∧
      ∀ h ∈ groups.head?, h.1 = k.other := by
  constructor
  · rintro ⟨hne, hpure, hturns⟩
    rw [List.forall_mem_cons] at hne hpure
    rw [List.isChain_cons] at hturns
    exact ⟨hne.1, hpure.1, ⟨hne.2, hpure.2, hturns.2⟩, fun h hh => RefKind.ne_iff.mp (hturns.1 h hh)⟩
  · rintro ⟨hne, hpure, hgroups, hhead⟩
    exact ⟨List.forall_mem_cons.mpr ⟨hne, hgroups.nonempty⟩, List.forall_mem_cons.mpr ⟨hpure, hgroups.pure⟩,
      List.isChain_cons.mpr ⟨fun h hh => RefKind.ne_iff.mpr (hhead h hh), hgroups.turns⟩⟩

/-- What follows a character of a group: more of it, then groups, the first of the other kind. -/
theorem rest_iff {k : RefKind} {r : List UInt8} : Rest k r ↔ ∃ g groups n,
    (∀ c ∈ g, k.has c = true) ∧ RefGroups groups ∧ (∀ h ∈ groups.head?, h.1 = k.other) ∧
      r = joinGroups ((k, g) :: groups) ++ List.replicate n 0 := by
  constructor
  · intro h
    induction h with
    | stop k n => exact ⟨[], [], n, nofun, ⟨nofun, nofun, .nil⟩, nofun, by simp [joinGroups]⟩
    | @more k c s hc _ ih =>
      obtain ⟨g, groups, n, hg, hgroups, hhead, rfl⟩ := ih
      refine ⟨c :: g, groups, n, List.forall_mem_cons.mpr ⟨hc, hg⟩, hgroups, hhead, ?_⟩
      rw [joinGroups_cons_head]
      rfl
    | @turn k c s hc _ ih =>
      obtain ⟨g, groups, n, hg, hgroups, hhead, rfl⟩ := ih
      refine ⟨[], (k.other, c :: g) :: groups, n, nofun, refGroups_cons.mpr
        ⟨List.cons_ne_nil _ _, List.forall_mem_cons.mpr ⟨hc, hg⟩, hgroups, hhead⟩, ?_, ?_⟩
      · rintro _ ⟨⟩
        rfl
      · rw [joinGroups_cons_cons, joinGroups_cons_head]
        rfl
  · rintro ⟨g, groups, n, hg, hgroups, hhead, rfl⟩
    induction groups generalizing k g with
    | nil =>
      rw [joinGroups_single]
      induction g with
      | nil => exact .stop k n
      | cons c g ih =>
        rw [List.forall_mem_cons] at hg
        exact .more hg.1 (ih hg.2)
    | cons h groups ih =>
      induction g with
      | nil =>
        obtain ⟨k', g'⟩ := h
        obtain rfl : k' = k.other := hhead _ rfl
        obtain ⟨hne, hpure, hrest, hhead'⟩ := refGroups_cons.mp hgroups
        obtain ⟨c, g', rfl⟩ := List.exists_cons_of_ne_nil hne
        rw [List.forall_mem_cons] at hpure
        rw [joinGroups_cons_cons, joinGroups_cons_head]
        exact .turn hpure.1 (ih g' hpure.2 hrest hhead')
      | cons c g ihg =>
        rw [List.forall_mem_cons] at hg
        rw [joinGroups_cons_head]
        exact .more hg.1 (ihg hg.2)

theorem refText_cons {c : UInt8} {r : List UInt8} : RefText (c :: r) ↔
    (c = 0 ∧ ∃ n, r = List.replicate n 0) ∨ ∃ k : RefKind, k.has c = true ∧ Rest k r := by
  constructor
  · rintro ⟨_ | ⟨⟨k, g⟩, groups⟩, n, hgroups, h⟩
    · rcases n with _ | n
      · cases h
      · exact .inl ⟨(List.cons.inj h).1, n, (List.cons.inj h).2⟩
    · obtain ⟨hne, hpure, hrest, hhead⟩ := refGroups_cons.mp hgroups
      obtain ⟨d, g, rfl⟩ := List.exists_cons_of_ne_nil hne
      rw [List.forall_mem_cons] at hpure
      rw [joinGroups_cons_head] at h
      obtain ⟨rfl, rfl⟩ := List.cons.inj h
      exact .inr ⟨k, hpure.1, rest_iff.mpr ⟨g, groups, n, hpure.2, hrest, hhead, rfl⟩⟩
  · rintro (⟨rfl, n, rfl⟩ | ⟨k, hk, h⟩)
    · exact ⟨[], n + 1, ⟨nofun, nofun, .nil⟩, rfl⟩
    · obtain ⟨g, groups, n, hg, hgroups, hhead, rfl⟩ := rest_iff.mp h
      refine ⟨(k, c :: g) :: groups, n, refGroups_cons.mpr
        ⟨List.cons_ne_nil _ _, List.forall_mem_cons.mpr ⟨hk, hg⟩, hgroups, hhead⟩, ?_⟩
      rw [joinGroups_cons_head]
      rfl

/-- The validator accepts exactly the grammar. -/
theorem reference_grammar (reference : Block addrRefLen) :
    referenceIsValid reference = true ↔ RefText reference.1 := by
  have hwalk : referenceIsValid reference = RefState.start.accepts reference.1 := by
    unfold referenceIsValid RefState.accepts
    rcases RefState.start.walk reference.1 with _ | _ | _ | _ | _ | _ | _ <;> rfl
  obtain ⟨r, hr⟩ := reference
  rcases r with _ | ⟨c, r⟩
  · cases hr
  · rw [hwalk, RefState.accepts_start, refText_cons]

end MochimoWallet
