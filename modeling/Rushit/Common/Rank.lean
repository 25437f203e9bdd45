import Mathlib.Data.Multiset.Lattice
import Mathlib.Data.Multiset.Sort
/-!
# The elements of a multiset by rank

The elements of a finite multiset over a linear order, in order, have a
rank from 0 on. The element of rank `k` has at least `k + 1` elements at
or below it and at least `card - k` at or above it, it grows with `k`,
and the least and the greatest element are at the two ends.
-/

namespace Rushit

variable {α : Type*} [LinearOrder α]

/-- The element of rank `k`. -/
def atRank (s : Multiset α) (k : ℕ) : Option α := s.sort[k]?

variable {s : Multiset α} {k k' : ℕ} {x y : α}

theorem atRank_isSome (hk : k < s.card) : ∃ x, atRank s k = some x := by
  have hlen : k < s.sort.length := by rwa [Multiset.length_sort]
  exact ⟨_, List.getElem?_eq_getElem hlen⟩

theorem atRank_mem (h : atRank s k = some x) : x ∈ s :=
  (Multiset.mem_sort _).mp (List.mem_of_getElem? h)

/-- **The rank orders the elements.** -/
theorem atRank_mono (hle : k ≤ k') (h : atRank s k = some x)
    (h' : atRank s k' = some y) : x ≤ y := by
  obtain ⟨hk, rfl⟩ := List.getElem?_eq_some_iff.mp h
  obtain ⟨hk', rfl⟩ := List.getElem?_eq_some_iff.mp h'
  rcases hle.eq_or_lt with rfl | hlt
  · exact le_rfl
  · exact List.pairwise_iff_getElem.mp (Multiset.pairwise_sort s (· ≤ ·)) k k' hk hk' hlt

/-- The elements in order, split at a rank. -/
theorem atRank_split (h : atRank s k = some x) :
    ∃ l₁ l₂, s = ↑(l₁ ++ x :: l₂) ∧ l₁.length = k ∧ (∀ y ∈ l₁, y ≤ x) ∧ ∀ y ∈ l₂, x ≤ y := by
  obtain ⟨hk, hx⟩ := List.getElem?_eq_some_iff.mp h
  have hsplit : s.sort = s.sort.take k ++ x :: s.sort.drop (k + 1) := by
    rw [← hx, ← List.drop_eq_getElem_cons hk, List.take_append_drop]
  have hsorted := Multiset.pairwise_sort s (· ≤ ·)
  rw [hsplit] at hsorted
  obtain ⟨-, hright, hcross⟩ := List.pairwise_append.mp hsorted
  refine ⟨_, _, ?_, List.length_take_of_le hk.le,
    fun y hy => hcross y hy x List.mem_cons_self, (List.pairwise_cons.mp hright).1⟩
  rw [← hsplit, Multiset.sort_eq]

/-- **At least `k + 1` elements are at or below it.** -/
theorem card_le_atRank (h : atRank s k = some x) :
    k + 1 ≤ (s.filter (· ≤ x)).card := by
  obtain ⟨l₁, l₂, rfl, hlen, hle, -⟩ := atRank_split h
  have hall : l₁.filter (· ≤ x) = l₁ := List.filter_eq_self.mpr fun y hy => by simpa using hle y hy
  rw [Multiset.filter_coe, Multiset.coe_card, List.filter_append, hall,
    List.filter_cons_of_pos (by simp), List.length_append, List.length_cons, hlen]
  omega

/-- **At least `card - k` elements are at or above it.** -/
theorem card_ge_atRank (h : atRank s k = some x) :
    s.card - k ≤ (s.filter (x ≤ ·)).card := by
  obtain ⟨l₁, l₂, rfl, hlen, -, hge⟩ := atRank_split h
  have hall : l₂.filter (x ≤ ·) = l₂ := List.filter_eq_self.mpr fun y hy => by simpa using hge y hy
  rw [Multiset.filter_coe, Multiset.coe_card, Multiset.coe_card, List.filter_append,
    List.filter_cons_of_pos (by simp), hall, List.length_append, List.length_append,
    List.length_cons, hlen]
  omega

/-- **The least element has rank 0.** -/
theorem atRank_zero_le (h : atRank s 0 = some x) (hy : y ∈ s) : x ≤ y := by
  obtain ⟨l₁, l₂, rfl, hlen, -, hge⟩ := atRank_split h
  obtain rfl := List.length_eq_zero_iff.mp hlen
  rcases List.mem_cons.mp (Multiset.mem_coe.mp hy) with rfl | hy
  · exact le_rfl
  · exact hge y hy

/-- **The greatest element has the last rank.** -/
theorem le_atRank_last (h : atRank s (s.card - 1) = some x) (hy : y ∈ s) :
    y ≤ x := by
  obtain ⟨l₁, l₂, rfl, hlen, hle, -⟩ := atRank_split h
  have hnil : l₂ = [] := by
    rw [Multiset.coe_card, List.length_append, List.length_cons] at hlen
    exact List.length_eq_zero_iff.mp (by omega)
  subst hnil
  rcases List.mem_append.mp (Multiset.mem_coe.mp hy) with hy | hy
  · exact hle y hy
  · rw [List.mem_singleton.mp hy]

end Rushit
