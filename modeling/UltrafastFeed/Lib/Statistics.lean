import Mathlib.Algebra.Order.BigOperators.Group.List
import Mathlib.Algebra.Order.Floor.Semifield
import Mathlib.Data.List.Sort
import Mathlib.Data.Rat.Floor
import Mathlib.Tactic.Linarith

/-!
# Lib — Statistics

Order statistics of a sample, looked up by a rank that is computed in
floating point. Of the arithmetic only this is used: rounding keeps the
order, and keeps what a `double` can hold. So a rank cannot leave the
sample, though the product it is truncated from is rounded.
-/

namespace Lib.Statistics

/-! ## Rounding -/

/-- Rounding to a `double`, in any of its modes: 53 binary digits, the
last no smaller than `2 ^ -1074`. -/
structure Rounding where
  round : ℚ → ℚ
  mono : Monotone round
  exact : ∀ (z : ℤ) (k : ℕ), |z| ≤ 2 ^ 53 → k ≤ 1074 → round (z / 2 ^ k) = z / 2 ^ k

theorem Rounding.exact_int (d : Rounding) {z : ℤ} (h : |z| ≤ 2 ^ 53) : d.round z = z := by
  have hexact := d.exact z 0 h (Nat.zero_le _)
  rwa [pow_zero, div_one] at hexact

theorem Rounding.exact_nat (d : Rounding) {n : ℕ} (h : n ≤ 2 ^ 53) : d.round n = n := by
  have hexact := @Rounding.exact_int d n (by rw [Nat.abs_cast]; exact_mod_cast h)
  exact_mod_cast hexact

theorem Rounding.exact_half (d : Rounding) {n : ℕ} (h : n ≤ 2 ^ 53) :
    d.round (n / 2) = n / 2 := by
  have hexact := d.exact n 1 (by rw [Nat.abs_cast]; exact_mod_cast h) (by omega)
  rwa [pow_one, Int.cast_natCast] at hexact

/-- The arithmetic without rounding. -/
def Rounding.none : Rounding := ⟨id, monotone_id, fun _ _ _ _ => rfl⟩

/-- `static_cast<size_t>(p * static_cast<double>(last))`. -/
def Rounding.rank (d : Rounding) (p : ℚ) (last : ℕ) : ℕ := ⌊d.round (p * d.round last)⌋₊

section Rank

variable (d : Rounding) {p q : ℚ} {last : ℕ}

theorem Rounding.rank_le (hp : p ≤ 1) (hlast : last ≤ 2 ^ 53) : d.rank p last ≤ last := by
  have hnonneg : (0 : ℚ) ≤ last := Nat.cast_nonneg _
  have hle : d.round (p * last) ≤ last := by
    rw [← d.exact_nat hlast]
    apply d.mono
    rw [d.exact_nat hlast]
    nlinarith
  rw [Rounding.rank, d.exact_nat hlast]
  exact Nat.floor_le_of_le hle

theorem Rounding.rank_mono (hpq : p ≤ q) (hlast : last ≤ 2 ^ 53) :
    d.rank p last ≤ d.rank q last := by
  have hnonneg : (0 : ℚ) ≤ last := Nat.cast_nonneg _
  rw [Rounding.rank, Rounding.rank, d.exact_nat hlast]
  apply Nat.floor_mono
  apply d.mono
  exact mul_le_mul_of_nonneg_right hpq hnonneg

end Rank

/-- The rank of the median is half of the last place. -/
theorem Rounding.rank_half (d : Rounding) {last : ℕ} (hlast : last ≤ 2 ^ 53) :
    d.rank (1 / 2) last = last / 2 := by
  have hhalf : (1 / 2 : ℚ) * last = last / 2 := by ring
  rw [Rounding.rank, d.exact_nat hlast, hhalf, d.exact_half hlast]
  exact Nat.floor_div_eq_div last 2

/-! ## Sorted samples -/

section Sorted

variable {α : Type*} [LinearOrder α] {xs : List α} {i j : ℕ} {a b : α}

def sorted (xs : List α) : List α := xs.mergeSort fun a b => decide (a ≤ b)

theorem sorted_perm (xs : List α) : (sorted xs).Perm xs := List.mergeSort_perm _ _

theorem sorted_length (xs : List α) : (sorted xs).length = xs.length := (sorted_perm xs).length_eq

theorem mem_of_sorted (h : (sorted xs)[i]? = some a) : a ∈ xs :=
  (sorted_perm xs).mem_iff.mp (List.mem_of_getElem? h)

theorem sorted_some (h : i < xs.length) : ∃ a, (sorted xs)[i]? = some a :=
  ⟨_, List.getElem?_eq_getElem (by rw [sorted_length]; exact h)⟩

/-- A later place holds no smaller value. -/
theorem sorted_mono (hij : i ≤ j) (ha : (sorted xs)[i]? = some a)
    (hb : (sorted xs)[j]? = some b) : a ≤ b := by
  obtain ⟨hi, rfl⟩ := List.getElem?_eq_some_iff.mp ha
  obtain ⟨hj, rfl⟩ := List.getElem?_eq_some_iff.mp hb
  rcases Nat.lt_or_eq_of_le hij with hlt | rfl
  · have hpair := List.pairwise_mergeSort' (· ≤ ·) xs
    exact List.pairwise_iff_getElem.mp hpair i j hi hj hlt
  · exact le_refl _

/-- The first place holds the least value, the last one the greatest. -/
theorem sorted_bounds {lo hi x : α} (hlo : (sorted xs)[0]? = some lo)
    (hhi : (sorted xs)[xs.length - 1]? = some hi) (hx : x ∈ xs) : lo ≤ x ∧ x ≤ hi := by
  obtain ⟨i, hi⟩ := List.mem_iff_getElem?.mp ((sorted_perm xs).mem_iff.mpr hx)
  have hlt : i < xs.length := by
    rw [← sorted_length]
    exact (List.getElem?_eq_some_iff.mp hi).1
  exact ⟨sorted_mono (Nat.zero_le i) hlo hi, sorted_mono (by omega) hi hhi⟩

/-- **What a rank means**: at least `i + 1` of the sample are no greater
than the value at place `i`, and at most `i` are smaller. -/
theorem rank_counts (ha : (sorted xs)[i]? = some a) :
    i + 1 ≤ xs.countP (· ≤ a) ∧ xs.countP (· < a) ≤ i := by
  obtain ⟨hi, -⟩ := List.getElem?_eq_some_iff.mp ha
  have hperm := sorted_perm xs
  rw [← hperm.countP_eq, ← hperm.countP_eq]
  constructor
  · -- the places up to `i`
    have htake : ((sorted xs).take (i + 1)).countP (· ≤ a) = i + 1 := by
      rw [List.countP_eq_length.mpr, List.length_take, Nat.min_eq_left hi]
      intro x hx
      obtain ⟨j, hj⟩ := List.mem_iff_getElem?.mp hx
      rw [List.getElem?_take] at hj
      split at hj
      · exact decide_eq_true (sorted_mono (by omega) hj ha)
      · cases hj
    calc i + 1 = ((sorted xs).take (i + 1)).countP (· ≤ a) := htake.symm
      _ ≤ (sorted xs).countP (· ≤ a) := (List.take_sublist _ _).countP_le
  · -- the places from `i` on
    have hdrop : ((sorted xs).drop i).countP (· < a) = 0 := by
      rw [List.countP_eq_zero]
      intro x hx
      obtain ⟨j, hj⟩ := List.mem_iff_getElem?.mp hx
      rw [List.getElem?_drop] at hj
      simpa using sorted_mono (Nat.le_add_right i j) ha hj
    calc (sorted xs).countP (· < a)
        = ((sorted xs).take i).countP (· < a) + ((sorted xs).drop i).countP (· < a) := by
          rw [← List.countP_append, List.take_append_drop]
      _ ≤ ((sorted xs).take i).length := by rw [hdrop]; exact List.countP_le_length
      _ ≤ i := by rw [List.length_take]; exact Nat.min_le_left _ _

end Sorted

/-! ## The mean -/

/-- `static_cast<double>(sum) / static_cast<double>(count)`. -/
def Rounding.mean (d : Rounding) (sum : ℤ) (count : ℕ) : ℚ :=
  d.round (d.round sum / d.round count)

/-- A mean computed from an exact sum lies within any whole bounds of the
sample. -/
theorem Rounding.mean_between (d : Rounding) {xs : List ℤ} {lo hi : ℤ}
    (hpos : 0 < xs.length) (hlen : xs.length ≤ 2 ^ 53) (hsum : |xs.sum| ≤ 2 ^ 53)
    (hxs : ∀ x ∈ xs, lo ≤ x ∧ x ≤ hi) (hlo : |lo| ≤ 2 ^ 53) (hhi : |hi| ≤ 2 ^ 53) :
    lo ≤ d.mean xs.sum xs.length ∧ d.mean xs.sum xs.length ≤ hi := by
  have hn : (0 : ℚ) < xs.length := Nat.cast_pos.mpr hpos
  have hbelow : (xs.length : ℚ) * lo ≤ (xs.sum : ℤ) := by
    have h := List.card_nsmul_le_sum xs lo fun x hx => (hxs x hx).1
    rw [nsmul_eq_mul] at h
    exact_mod_cast h
  have habove : ((xs.sum : ℤ) : ℚ) ≤ (xs.length : ℚ) * hi := by
    have h := List.sum_le_card_nsmul xs hi fun x hx => (hxs x hx).2
    rw [nsmul_eq_mul] at h
    exact_mod_cast h
  rw [Rounding.mean, d.exact_int hsum, d.exact_nat hlen, ← d.exact_int hlo,
    ← d.exact_int hhi]
  constructor
  · apply d.mono
    rw [le_div_iff₀ hn]
    linarith
  · apply d.mono
    rw [div_le_iff₀ hn]
    linarith

end Lib.Statistics
