import Mathlib.Data.Nat.Digits.Lemmas

/-!
# Positional notation

A string of digits, the most significant first, is the zeros it begins with and the number it
denotes: `spell` is the inverse of the two together (`spell_read`). So a string can be spelled in
another base with the zeros kept (`convert`), and the two directions are inverse to each other
(`convert_convert`).
-/

namespace Radix

/-- The zeros a string begins with. -/
def zeros (ds : List ℕ) : ℕ := (ds.takeWhile (· = 0)).length

/-- The number a string denotes in base `b`. -/
def value (b : ℕ) (ds : List ℕ) : ℕ := Nat.ofDigits b ds.reverse

/-- `z` zeros and then the digits of `n`. -/
def spell (b z n : ℕ) : List ℕ := List.replicate z 0 ++ (Nat.digits b n).reverse

/-- A string of base `r` in base `b`. -/
def convert (r b : ℕ) (ds : List ℕ) : List ℕ := spell b (zeros ds) (value r ds)

theorem value_eq_foldl (b : ℕ) (ds : List ℕ) : value b ds = ds.foldl (fun n d => d + b * n) 0 := by
  rw [value, Nat.ofDigits_eq_foldr, List.foldr_reverse]
  rfl

theorem spell_lt {b z n : ℕ} (hb : 1 < b) : ∀ d ∈ spell b z n, d < b := by
  intro d hd
  rcases List.mem_append.mp hd with hd | hd
  · obtain rfl := List.eq_of_mem_replicate hd
    exact Nat.zero_lt_of_lt hb
  · exact Nat.digits_lt_base hb (List.mem_reverse.mp hd)

theorem digits_head_ne_zero {b n : ℕ} : ∀ d ∈ (Nat.digits b n).reverse.head?, d ≠ 0 := by
  intro d hd
  rw [List.head?_reverse] at hd
  have hne : Nat.digits b n ≠ [] := fun h => by
    rw [h] at hd
    cases hd
  rw [List.getLast?_eq_some_getLast hne, Option.mem_some] at hd
  subst hd
  exact Nat.getLast_digit_ne_zero b (Nat.digits_ne_nil_iff_ne_zero.mp hne)

/-- Zeros before a string that does not begin with one. -/
theorem zeros_replicate_append {z : ℕ} {ds : List ℕ} (h : ∀ d ∈ ds.head?, d ≠ 0) :
    zeros (List.replicate z 0 ++ ds) = z := by
  unfold zeros
  rw [List.takeWhile_append_of_pos fun d hd => by simp [List.eq_of_mem_replicate hd]]
  rcases ds with _ | ⟨d, ds⟩
  · simp
  · rw [List.takeWhile_cons_of_neg (by simpa using h d rfl)]
    simp

theorem zeros_spell (b z n : ℕ) : zeros (spell b z n) = z :=
  zeros_replicate_append digits_head_ne_zero

theorem value_replicate_append (b z : ℕ) (ds : List ℕ) :
    value b (List.replicate z 0 ++ ds) = value b ds := by
  unfold value
  rw [List.reverse_append, List.reverse_replicate, Nat.ofDigits_append_replicate_zero]

theorem value_spell (b z n : ℕ) : value b (spell b z n) = n := by
  rw [spell, value_replicate_append, value, List.reverse_reverse, Nat.ofDigits_digits]

/-- Every string is its zeros and the rest, which begins with no zero. -/
theorem zeros_append_drop (ds : List ℕ) :
    ds = List.replicate (zeros ds) 0 ++ ds.drop (zeros ds) ∧ ∀ d ∈ (ds.drop (zeros ds)).head?, d ≠ 0 := by
  induction ds with
  | nil => exact ⟨rfl, nofun⟩
  | cons d ds ih =>
    by_cases hd : d = 0
    · subst hd
      have hz : zeros (0 :: ds) = zeros ds + 1 := rfl
      rw [hz, List.replicate_succ, List.drop_succ_cons]
      exact ⟨congrArg (0 :: ·) ih.1, ih.2⟩
    · have hz : zeros (d :: ds) = 0 := by simp [zeros, hd]
      rw [hz]
      refine ⟨rfl, ?_⟩
      rintro _ ⟨⟩
      exact hd

theorem value_drop_zeros (b : ℕ) (ds : List ℕ) : value b (ds.drop (zeros ds)) = value b ds := by
  conv_rhs => rw [(zeros_append_drop ds).1]
  exact (value_replicate_append b _ _).symm

/-- A string without a zero in front is the digits of what it denotes. -/
theorem digits_value {b : ℕ} {ds : List ℕ} (hb : 1 < b) (hlt : ∀ d ∈ ds, d < b)
    (hhead : ∀ d ∈ ds.head?, d ≠ 0) : (Nat.digits b (value b ds)).reverse = ds := by
  unfold value
  rw [Nat.digits_ofDigits b hb _ (fun d hd => hlt d (List.mem_reverse.mp hd)), List.reverse_reverse]
  intro hne
  refine hhead _ ?_
  rw [Option.mem_def, ← List.getLast?_reverse, List.getLast?_eq_some_getLast hne]

/-- A string is the spelling of its zeros and its number. -/
theorem spell_read {b : ℕ} {ds : List ℕ} (hb : 1 < b) (hlt : ∀ d ∈ ds, d < b) :
    spell b (zeros ds) (value b ds) = ds := by
  obtain ⟨heq, hhead⟩ := zeros_append_drop ds
  have hrest : ∀ d ∈ ds.drop (zeros ds), d < b := fun d hd => hlt d (List.mem_of_mem_drop hd)
  rw [spell, ← value_drop_zeros, digits_value hb hrest hhead]
  exact heq.symm

theorem convert_convert {r b : ℕ} {ds : List ℕ} (hr : 1 < r) (hlt : ∀ d ∈ ds, d < r) :
    convert b r (convert r b ds) = ds := by
  rw [convert, convert, zeros_spell, value_spell, spell_read hr hlt]

theorem convert_lt {r b : ℕ} {ds : List ℕ} (hb : 1 < b) : ∀ d ∈ convert r b ds, d < b :=
  spell_lt hb

theorem convert_ne_nil {r b : ℕ} {ds : List ℕ} (hr : 1 < r) (hlt : ∀ d ∈ ds, d < r) (hne : ds ≠ []) :
    convert r b ds ≠ [] := by
  intro h
  apply hne
  have hback : convert b r (convert r b ds) = ds := convert_convert hr hlt
  rw [← hback, h]
  simp [convert, spell, zeros, value]

theorem length_spell (b z n : ℕ) : (spell b z n).length = z + (Nat.digits b n).length := by
  rw [spell, List.length_append, List.length_replicate, List.length_reverse]

/-- A string converted to a smaller base is no shorter. -/
theorem le_length_convert {r b : ℕ} {ds : List ℕ} (hb : 1 < b) (hbr : b ≤ r)
    (hlt : ∀ d ∈ ds, d < r) : ds.length ≤ (convert r b ds).length := by
  conv_lhs => rw [← spell_read (Nat.lt_of_lt_of_le hb hbr) hlt]
  rw [convert, length_spell, length_spell]
  refine Nat.add_le_add_left ((Nat.digits_length_le_iff (Nat.lt_of_lt_of_le hb hbr) _).mpr ?_) _
  exact (Nat.lt_base_pow_length_digits hb).trans_le (Nat.pow_le_pow_left hbr _)

/-- And no longer than a string of zeros and top digits would be. -/
theorem length_convert_le {r b k : ℕ} {ds : List ℕ} (hb : 1 < b) (hbr : b ≤ r)
    (hlt : ∀ d ∈ ds, d < r) (hk : r ^ ds.length ≤ b ^ k) : (convert r b ds).length ≤ k := by
  have hr : 1 < r := Nat.lt_of_lt_of_le hb hbr
  obtain ⟨heq, -⟩ := zeros_append_drop ds
  have hlen : ds.length = zeros ds + (ds.drop (zeros ds)).length := by
    have h := congrArg List.length heq
    rwa [List.length_append, List.length_replicate] at h
  have hvalue : value r ds < r ^ (ds.drop (zeros ds)).length := by
    have hdigits : ∀ d ∈ (ds.drop (zeros ds)).reverse, d < r := fun d hd =>
      hlt d (List.mem_of_mem_drop (List.mem_reverse.mp hd))
    have hbound := Nat.ofDigits_lt_base_pow_length hr hdigits
    rwa [List.length_reverse, ← value, value_drop_zeros] at hbound
  rw [convert, length_spell]
  have hzeros : zeros ds ≤ k := by
    refine (Nat.pow_le_pow_iff_right hb).mp (le_trans ?_ hk)
    calc b ^ zeros ds ≤ r ^ zeros ds := Nat.pow_le_pow_left hbr _
      _ ≤ r ^ ds.length := Nat.pow_le_pow_right (Nat.zero_lt_of_lt hr) (by omega)
  have hdigits : (Nat.digits b (value r ds)).length ≤ k - zeros ds := by
    refine (Nat.digits_length_le_iff hb _).mpr ?_
    have hpow : b ^ zeros ds * value r ds < b ^ zeros ds * b ^ (k - zeros ds) := by
      rw [← pow_add, Nat.add_sub_of_le hzeros]
      calc b ^ zeros ds * value r ds
          < b ^ zeros ds * r ^ (ds.drop (zeros ds)).length :=
            Nat.mul_lt_mul_of_pos_left hvalue (Nat.pow_pos (Nat.zero_lt_of_lt hb))
        _ ≤ r ^ zeros ds * r ^ (ds.drop (zeros ds)).length :=
            Nat.mul_le_mul_right _ (Nat.pow_le_pow_left hbr _)
        _ = r ^ ds.length := by rw [← pow_add, ← hlen]
        _ ≤ b ^ k := hk
    exact Nat.lt_of_mul_lt_mul_left hpow
  omega

/-! ## Digits in a given number -/

/-- The lowest `w` digits of `n`. -/
def fixed (b w n : ℕ) : List ℕ := (List.range w).map fun k => n / b ^ (w - 1 - k) % b

@[simp] theorem length_fixed (b w n : ℕ) : (fixed b w n).length = w := by
  rw [fixed, List.length_map, List.length_range]

theorem fixed_succ (b w n : ℕ) : fixed b (w + 1) n = fixed b w (n / b) ++ [n % b] := by
  rw [fixed, List.range_succ, List.map_append, List.map_singleton]
  congr 1
  · refine List.map_congr_left fun k hk => ?_
    have hk : k < w := List.mem_range.mp hk
    have hexp : w + 1 - 1 - k = (w - 1 - k) + 1 := by omega
    rw [hexp, pow_succ', Nat.div_div_eq_div_mul]
  · rw [Nat.add_sub_cancel, Nat.sub_self, pow_zero, Nat.div_one]

theorem value_concat (b : ℕ) (ds : List ℕ) (d : ℕ) : value b (ds ++ [d]) = d + b * value b ds := by
  rw [value_eq_foldl, value_eq_foldl, List.foldl_append]
  rfl

theorem value_lt {b : ℕ} {ds : List ℕ} (hlt : ∀ d ∈ ds, d < b) : value b ds < b ^ ds.length := by
  induction ds using List.reverseRecOn with
  | nil => simp [value]
  | append_singleton ds d ih =>
    have hrest := ih fun c hc => hlt c (List.mem_append_left _ hc)
    have hd : d < b := hlt d (List.mem_append_right _ List.mem_cons_self)
    rw [value_concat, List.length_append, List.length_singleton, pow_succ']
    calc d + b * value b ds < b + b * value b ds := Nat.add_lt_add_right hd _
      _ = b * (value b ds + 1) := by ring
      _ ≤ b * b ^ ds.length := Nat.mul_le_mul_left b hrest

theorem value_fixed (b w n : ℕ) : value b (fixed b w n) = n % b ^ w := by
  induction w generalizing n with
  | zero => simp [fixed, value, Nat.mod_one]
  | succ w ih => rw [fixed_succ, value_concat, ih, pow_succ', Nat.mod_mul]

/-- Digits are read back from what they denote. -/
theorem fixed_value {b w : ℕ} {ds : List ℕ} (hlen : ds.length = w) (hlt : ∀ d ∈ ds, d < b) :
    fixed b w (value b ds) = ds := by
  induction ds using List.reverseRecOn generalizing w with
  | nil =>
    subst hlen
    rfl
  | append_singleton ds d ih =>
    have hrest := ih rfl fun c hc => hlt c (List.mem_append_left _ hc)
    have hd : d < b := hlt d (List.mem_append_right _ List.mem_cons_self)
    have hpos : 0 < b := Nat.zero_lt_of_lt hd
    rw [← hlen, List.length_append, List.length_singleton, fixed_succ, value_concat,
      Nat.add_mul_div_left _ _ hpos, Nat.div_eq_of_lt hd, Nat.zero_add, hrest, Nat.add_mul_mod_self_left,
      Nat.mod_eq_of_lt hd]

theorem fixed_lt {b : ℕ} (hb : 0 < b) (w n : ℕ) : ∀ d ∈ fixed b w n, d < b := by
  intro d hd
  obtain ⟨k, -, rfl⟩ := List.mem_map.mp hd
  exact Nat.mod_lt _ hb

/-! ## Groups of a length -/

/-- Group `j` of the groups of `w` that a list is cut into. -/
def group {α : Type*} (w j : ℕ) (l : List α) : List α := (l.drop (w * j)).take w

theorem group_succ {α : Type*} (w j : ℕ) (l : List α) : group w (j + 1) l = group w j (l.drop w) := by
  rw [group, group, List.drop_drop, Nat.mul_succ, Nat.add_comm]

theorem length_group {α : Type*} {w j n : ℕ} {l : List α} (h : l.length = w * n) (hj : j < n) :
    (group w j l).length = w := by
  have hle : w * (j + 1) ≤ w * n := Nat.mul_le_mul_left w hj
  rw [group, List.length_take, List.length_drop, h]
  rw [Nat.mul_succ] at hle
  omega

/-- The groups in a row are the list. -/
theorem flatMap_group {α : Type*} {w n : ℕ} {l : List α} (h : l.length = w * n) :
    (List.range n).flatMap (fun j => group w j l) = l := by
  induction n generalizing l with
  | zero => exact (List.length_eq_zero_iff.mp h).symm
  | succ n ih =>
    have hrest : (l.drop w).length = w * n := by
      rw [List.length_drop, h, Nat.mul_succ, Nat.add_sub_cancel]
    rw [List.range_succ_eq_map, List.flatMap_cons, List.flatMap_map]
    simp only [group_succ]
    rw [ih hrest]
    exact List.take_append_drop w l

/-- Parts of a length put in a row are its groups. -/
theorem group_flatMap {α β : Type*} {w : ℕ} {f : β → List α} (hf : ∀ x, (f x).length = w) (xs : List β)
    {j : ℕ} (hj : j < xs.length) : group w j (xs.flatMap f) = f xs[j] := by
  induction xs generalizing j with
  | nil => cases hj
  | cons x xs ih =>
    rw [List.flatMap_cons]
    rcases j with _ | j
    · rw [group, Nat.mul_zero, List.drop_zero, ← hf x, List.take_left]
      rfl
    · have hdrop : (f x ++ xs.flatMap f).drop w = xs.flatMap f := by
        rw [← hf x, List.drop_left]
      rw [group_succ, hdrop]
      exact ih (Nat.lt_of_succ_lt_succ hj)

theorem group_map_range {α : Type*} {w j n : ℕ} (f : ℕ → α) (h : w * j + w ≤ n) :
    group w j ((List.range n).map f) = (List.range w).map fun k => f (w * j + k) := by
  refine List.ext_getElem ?_ fun i hi hi' => ?_
  · rw [group, List.length_take, List.length_drop, List.length_map, List.length_map, List.length_range,
      List.length_range]
    omega
  · simp [group]

end Radix
