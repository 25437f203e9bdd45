import Mathlib.Algebra.BigOperators.Group.List.Basic
import Mathlib.Algebra.Order.BigOperators.Group.List
import Mathlib.Algebra.Order.Ring.Defs
import Mathlib.Tactic.Linarith
import Mathlib.Tactic.Ring
/-!
# Points, and lines through the origin

The sums of products over a list of points. Their difference is a sum of
squares, up to a factor (`sum_sq_cross`), and so the square of the mixed
sum is at most the product of the others. The two are equal exactly where
all points are on one line through the origin (`sq_sumXy_eq_iff`).
-/

namespace Rushit

namespace Origin

variable {K : Type*} [CommRing K]

def sumXy (ps : List (K × K)) : K := (ps.map fun p => p.1 * p.2).sum

def sumXx (ps : List (K × K)) : K := (ps.map fun p => p.1 * p.1).sum

def sumYy (ps : List (K × K)) : K := (ps.map fun p => p.2 * p.2).sum

variable {ps : List (K × K)} {p : K × K} {a b c : K}

@[simp] theorem sumXy_nil : sumXy ([] : List (K × K)) = 0 := rfl

@[simp] theorem sumXx_nil : sumXx ([] : List (K × K)) = 0 := rfl

@[simp] theorem sumYy_nil : sumYy ([] : List (K × K)) = 0 := rfl

@[simp] theorem sumXy_cons : sumXy (p :: ps) = p.1 * p.2 + sumXy ps := by simp [sumXy]

@[simp] theorem sumXx_cons : sumXx (p :: ps) = p.1 * p.1 + sumXx ps := by simp [sumXx]

@[simp] theorem sumYy_cons : sumYy (p :: ps) = p.2 * p.2 + sumYy ps := by simp [sumYy]

/-- On a line through the origin the sums are multiples of one. -/
theorem sums_of_line (h : ∀ p ∈ ps, p.2 = c * p.1) :
    sumXy ps = c * sumXx ps ∧ sumYy ps = c ^ 2 * sumXx ps := by
  induction ps with
  | nil => simp
  | cons p ps ih =>
    obtain ⟨hxy, hyy⟩ := ih fun q hq => h q (List.mem_cons_of_mem _ hq)
    have hp := h p List.mem_cons_self
    rw [sumXy_cons, sumXx_cons, sumYy_cons, hxy, hyy, hp]
    exact ⟨by ring, by ring⟩

/-- How far the points are off the line of direction `(a, b)`. -/
theorem sum_sq_cross (ps : List (K × K)) (a b : K) :
    (ps.map fun p => (p.2 * a - p.1 * b) ^ 2).sum =
      sumYy ps * a ^ 2 - 2 * (a * b) * sumXy ps + sumXx ps * b ^ 2 := by
  induction ps with
  | nil => simp
  | cons p ps ih =>
    rw [List.map_cons, List.sum_cons, ih, sumXy_cons, sumXx_cons, sumYy_cons]
    ring

/-- The squares along the line of the sums themselves. -/
theorem sum_sq_own (ps : List (K × K)) :
    (ps.map fun p => (p.2 * sumXx ps - p.1 * sumXy ps) ^ 2).sum =
      sumXx ps * (sumXx ps * sumYy ps - sumXy ps ^ 2) := by
  rw [sum_sq_cross]
  ring

variable [LinearOrder K] [IsStrictOrderedRing K]

theorem mul_self_le_sumXx (h : p ∈ ps) : p.1 * p.1 ≤ sumXx ps :=
  List.single_le_sum (fun x hx => by
    obtain ⟨q, -, rfl⟩ := List.mem_map.mp hx
    exact mul_self_nonneg q.1) _ (List.mem_map_of_mem h)

theorem mul_self_le_sumYy (h : p ∈ ps) : p.2 * p.2 ≤ sumYy ps :=
  List.single_le_sum (fun x hx => by
    obtain ⟨q, -, rfl⟩ := List.mem_map.mp hx
    exact mul_self_nonneg q.2) _ (List.mem_map_of_mem h)

theorem sumXx_nonneg (ps : List (K × K)) : 0 ≤ sumXx ps :=
  List.sum_nonneg fun x hx => by
    obtain ⟨q, -, rfl⟩ := List.mem_map.mp hx
    exact mul_self_nonneg q.1

/-- Points of the first quadrant have a mixed sum that is not negative. -/
theorem sumXy_nonneg (h : ∀ p ∈ ps, 0 ≤ p.1 ∧ 0 ≤ p.2) : 0 ≤ sumXy ps :=
  List.sum_nonneg fun x hx => by
    obtain ⟨q, hq, rfl⟩ := List.mem_map.mp hx
    exact mul_nonneg (h q hq).1 (h q hq).2

theorem sum_sq_nonneg (ps : List (K × K)) (a b : K) :
    0 ≤ (ps.map fun p => (p.2 * a - p.1 * b) ^ 2).sum :=
  List.sum_nonneg fun x hx => by
    obtain ⟨q, -, rfl⟩ := List.mem_map.mp hx
    exact sq_nonneg _

/-- **The mixed sum is bounded by the others.** -/
theorem sq_sumXy_le (ps : List (K × K)) : sumXy ps ^ 2 ≤ sumXx ps * sumYy ps := by
  rcases (sumXx_nonneg ps).eq_or_lt with hzero | hpos
  · -- all points are on the second axis
    have hx : ∀ p ∈ ps, p.1 = 0 := fun p hp => by
      have hle := mul_self_le_sumXx hp
      rw [← hzero] at hle
      exact mul_self_eq_zero.mp (le_antisymm hle (mul_self_nonneg _))
    have hxy : sumXy ps = 0 := List.sum_eq_zero fun x hx' => by
      obtain ⟨q, hq, rfl⟩ := List.mem_map.mp hx'
      rw [hx q hq, zero_mul]
    rw [hxy, ← hzero]
    simp
  · have hsum := sum_sq_nonneg ps (sumXx ps) (sumXy ps)
    rw [sum_sq_own] at hsum
    linarith only [nonneg_of_mul_nonneg_right hsum hpos]

/-- **They are equal exactly on a line through the origin.** -/
theorem sq_sumXy_eq_iff (hpos : 0 < sumXx ps) :
    sumXy ps ^ 2 = sumXx ps * sumYy ps ↔ ∀ p ∈ ps, p.2 * sumXx ps = p.1 * sumXy ps := by
  have hown := sum_sq_own ps
  have hterms : ∀ x ∈ ps.map fun p => (p.2 * sumXx ps - p.1 * sumXy ps) ^ 2, 0 ≤ x := by
    intro x hx
    obtain ⟨q, -, rfl⟩ := List.mem_map.mp hx
    exact sq_nonneg _
  constructor
  · intro heq p hp
    rw [heq, sub_self, mul_zero] at hown
    have hle := List.single_le_sum hterms _ (List.mem_map_of_mem hp)
    rw [hown] at hle
    have hsq := pow_eq_zero_iff two_ne_zero |>.mp (le_antisymm hle (sq_nonneg _))
    exact sub_eq_zero.mp hsq
  · intro hline
    have hsum : (ps.map fun p => (p.2 * sumXx ps - p.1 * sumXy ps) ^ 2).sum = 0 :=
      List.sum_eq_zero fun x hx => by
        obtain ⟨q, hq, rfl⟩ := List.mem_map.mp hx
        rw [hline q hq, sub_self]
        exact zero_pow two_ne_zero
    rw [hown] at hsum
    have hdiff := (mul_eq_zero.mp hsum).resolve_left hpos.ne'
    exact (sub_eq_zero.mp hdiff).symm

end Origin

end Rushit
