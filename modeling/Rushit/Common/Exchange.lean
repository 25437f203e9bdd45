import Mathlib.Order.Lattice
/-!
# The exchange sort

Each place of an array is compared with all later ones, and the two
elements are exchanged where they are out of order. The elements stay the
same (`perm_exchangeSort`). One round brings the least of the remaining
elements to its place, and so the array ends up in order
(`pairwise_exchangeSort`).
-/

namespace Rushit

variable {α κ : Type*} [LinearOrder κ] (key : α → κ)

/-- The elements at `i` and `j` are exchanged where they are out of order. -/
def exchange (a : Array α) (i j : ℕ) : Array α :=
  match a[i]?, a[j]? with
  | some x, some y => if key y < key x then a.swapIfInBounds i j else a
  | _, _ => a

/-- The place `i` is compared with the `count` places from `j` on. -/
def exchangeFrom (i j : ℕ) : (count : ℕ) → Array α → Array α
  | 0, a => a
  | count + 1, a => exchangeFrom i (j + 1) count (exchange key a i j)

/-- The `count` places from `i` on are each compared with all later ones. -/
def exchangeRounds (i : ℕ) : (count : ℕ) → Array α → Array α
  | 0, a => a
  | count + 1, a =>
    exchangeRounds (i + 1) count (exchangeFrom key i (i + 1) (a.size - (i + 1)) a)

/-- The exchange sort. -/
def exchangeSort (a : Array α) : Array α := exchangeRounds key 0 a.size a

variable {key} {a : Array α} {i j m count hi : ℕ} {x y : α}

/-! ## The elements -/

theorem perm_swapIfInBounds : (a.swapIfInBounds i j).Perm a := by
  unfold Array.swapIfInBounds
  split_ifs
  · exact Array.swap_perm _ _
  · exact .refl _
  · exact .refl _

theorem perm_exchange : (exchange key a i j).Perm a := by
  unfold exchange
  split
  · split_ifs
    · exact perm_swapIfInBounds
    · exact .refl _
  · exact .refl _

theorem perm_exchangeFrom : (exchangeFrom key i j count a).Perm a := by
  induction count generalizing j a with
  | zero => exact .refl _
  | succ count ih => exact ih.trans perm_exchange

theorem perm_exchangeRounds : (exchangeRounds key i count a).Perm a := by
  induction count generalizing i a with
  | zero => exact .refl _
  | succ count ih => exact ih.trans perm_exchangeFrom

/-- **The elements stay the same.** -/
theorem perm_exchangeSort : (exchangeSort key a).Perm a := perm_exchangeRounds

@[simp] theorem size_exchange : (exchange key a i j).size = a.size := perm_exchange.size_eq

@[simp] theorem size_exchangeFrom : (exchangeFrom key i j count a).size = a.size :=
  perm_exchangeFrom.size_eq

/-! ## The order -/

/-- An exchange puts the two elements into each other's place. -/
theorem getElem?_swapIfInBounds (hx : a[i]? = some x) (hy : a[j]? = some y) :
    (a.swapIfInBounds i j)[m]? =
      if j = m then some x else if i = m then some y else a[m]? := by
  obtain ⟨hi, rfl⟩ := Array.getElem?_eq_some_iff.mp hx
  obtain ⟨hj, rfl⟩ := Array.getElem?_eq_some_iff.mp hy
  unfold Array.swapIfInBounds
  rw [dif_pos hi, dif_pos hj, Array.getElem?_swap]

/-- **What one comparison leaves**: the two elements, the lesser one first. -/
theorem exchange_spec (key : α → κ) (hx : a[i]? = some x) (hy : a[j]? = some y) (hne : i ≠ j) :
    ∃ x' y', (exchange key a i j)[i]? = some x' ∧ (exchange key a i j)[j]? = some y' ∧
      key x' ≤ key y' ∧ (x' = x ∧ y' = y ∨ x' = y ∧ y' = x) ∧
      ∀ m, m ≠ i → m ≠ j → (exchange key a i j)[m]? = a[m]? := by
  unfold exchange
  rw [hx, hy]
  dsimp only
  by_cases hlt : key y < key x
  · rw [if_pos hlt]
    refine ⟨y, x, ?_, ?_, hlt.le, .inr ⟨rfl, rfl⟩, fun m hi hj => ?_⟩
    · rw [getElem?_swapIfInBounds hx hy, if_neg hne.symm, if_pos rfl]
    · rw [getElem?_swapIfInBounds hx hy, if_pos rfl]
    · rw [getElem?_swapIfInBounds hx hy, if_neg hj.symm, if_neg hi.symm]
  · rw [if_neg hlt]
    exact ⟨x, y, hx, hy, not_lt.mp hlt, .inl ⟨rfl, rfl⟩, fun _ _ _ => rfl⟩

/-- The element at `i` is at most those from `lo` up to `hi`. -/
def LeastOf (key : α → κ) (a : Array α) (i lo hi : ℕ) : Prop :=
  ∀ m x y, lo ≤ m → m < hi → a[i]? = some x → a[m]? = some y → key x ≤ key y

/-- The elements below `i` are in order, and at most the later ones. -/
def SortedBelow (key : α → κ) (a : Array α) (i : ℕ) : Prop :=
  ∀ p q x y, p < i → p < q → a[p]? = some x → a[q]? = some y → key x ≤ key y

/-- A comparison leaves the place below `i` and `j` in order. -/
theorem SortedBelow.exchange (h : SortedBelow key a i) (hij : i < j) (hj : j < a.size) :
    SortedBelow key (exchange key a i j) i := by
  obtain ⟨x', y', hx', hy', -, hcase, hframe⟩ :=
    exchange_spec key (Array.getElem?_eq_getElem (hij.trans hj))
      (Array.getElem?_eq_getElem hj) hij.ne
  intro p q x y hp hpq hx hy
  rw [hframe p hp.ne (by omega)] at hx
  have hi := h p i x a[i] hp hp hx (Array.getElem?_eq_getElem _)
  have hj := h p j x a[j] hp (by omega) hx (Array.getElem?_eq_getElem _)
  by_cases hqi : q = i
  · subst hqi
    rw [hx', Option.some.injEq] at hy
    rcases hcase with ⟨rfl, -⟩ | ⟨rfl, -⟩ <;> rwa [← hy]
  by_cases hqj : q = j
  · subst hqj
    rw [hy', Option.some.injEq] at hy
    rcases hcase with ⟨-, rfl⟩ | ⟨-, rfl⟩ <;> rwa [← hy]
  rw [hframe q hqi hqj] at hy
  exact h p q x y hp hpq hx hy

/-- **A comparison extends the range** that the element at `i` is least of. -/
theorem LeastOf.exchange (h : LeastOf key a i (i + 1) j) (hij : i < j) (hj : j < a.size) :
    LeastOf key (exchange key a i j) i (i + 1) (j + 1) := by
  obtain ⟨x', y', hx', hy', hle, hcase, hframe⟩ :=
    exchange_spec key (Array.getElem?_eq_getElem (hij.trans hj))
      (Array.getElem?_eq_getElem hj) hij.ne
  -- the new element is at most the old one
  have hold : key x' ≤ key a[i] := by
    rcases hcase with ⟨rfl, -⟩ | ⟨-, rfl⟩
    · exact le_rfl
    · exact hle
  intro m x y hlo hhi hx hy
  rw [hx', Option.some.injEq] at hx
  subst hx
  by_cases hmj : m = j
  · subst hmj
    rw [hy', Option.some.injEq] at hy
    rwa [← hy]
  · rw [hframe m (by omega) hmj] at hy
    exact hold.trans (h m a[i] y hlo (by omega) (Array.getElem?_eq_getElem _) hy)

/-- **One round** brings the least of the remaining elements to its place. -/
theorem exchangeFrom_spec (count : ℕ) (hsorted : SortedBelow key a i)
    (hleast : LeastOf key a i (i + 1) j)
    (hij : i < j) (hcount : j + count = a.size) :
    SortedBelow key (exchangeFrom key i j count a) i ∧
      LeastOf key (exchangeFrom key i j count a) i (i + 1) a.size := by
  induction count generalizing j a with
  | zero => exact ⟨hsorted, fun m x y hlo hhi => hleast m x y hlo (by omega)⟩
  | succ count ih =>
    have hj : j < a.size := by omega
    have h := ih (hsorted.exchange hij hj) (hleast.exchange hij hj) (by omega)
      (by rw [size_exchange]; omega)
    rwa [size_exchange] at h

theorem exchangeRounds_spec (hsorted : SortedBelow key a i) (hcount : i + count = a.size) :
    SortedBelow key (exchangeRounds key i count a) a.size := by
  induction count generalizing i a with
  | zero => exact hcount ▸ hsorted
  | succ count ih =>
    have hempty : LeastOf key a i (i + 1) (i + 1) := fun m x y hlo hhi => by omega
    obtain ⟨hbelow, hleast⟩ := exchangeFrom_spec (a.size - (i + 1)) hsorted hempty
      (Nat.lt_succ_self i) (by omega)
    have hnext : SortedBelow key (exchangeFrom key i (i + 1) (a.size - (i + 1)) a) (i + 1) := by
      intro p q x y hp hpq hx hy
      rcases Nat.lt_succ_iff_lt_or_eq.mp hp with hlt | rfl
      · exact hbelow p q x y hlt hpq hx hy
      · have hq := (Array.getElem?_eq_some_iff.mp hy).1
        rw [size_exchangeFrom] at hq
        exact hleast q x y hpq hq hx hy
    have h := ih hnext (by rw [size_exchangeFrom]; omega)
    rwa [size_exchangeFrom] at h

/-- **The array ends up in order.** -/
theorem pairwise_exchangeSort (a : Array α) :
    (exchangeSort key a).toList.Pairwise fun x y => key x ≤ key y := by
  have hsorted : SortedBelow key (exchangeSort key a) a.size :=
    exchangeRounds_spec (fun p q x y hp => by omega) (Nat.zero_add _)
  rw [List.pairwise_iff_getElem]
  intro p q hp hq hpq
  refine hsorted p q _ _ ?_ hpq ?_ ?_
  · have hsize : (exchangeSort key a).size = a.size := perm_exchangeSort.size_eq
    rw [Array.length_toList, hsize] at hp
    exact hp
  · rw [Array.getElem_toList, Array.getElem?_eq_getElem]
  · rw [Array.getElem_toList, Array.getElem?_eq_getElem]

end Rushit
