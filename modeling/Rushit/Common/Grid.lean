import Mathlib.Data.Int.Notation
import Mathlib.Data.List.Basic
import Mathlib.Logic.Function.Basic
/-!
# Arrays of arrays

A grid has rows of widths of their own. A read or a write of a cell
that is not there has no result. What a grid says about the cells it
has is a function on pairs (`Holds`), and a write updates that function
at one point; no access changes the widths, so which accesses are in
bounds is settled when the grid is allocated.
-/

namespace Rushit

variable {M : Type*}

/-- The rows of a grid. -/
abbrev Grid (M : Type*) := List (List M)

namespace Grid

/-- The widths of the rows. -/
def widths (t : Grid M) : List ℕ := t.map List.length

/-- There is a row `i`, and it has a column `j`. -/
def InBounds (ws : List ℕ) (i : ℤ) (j : ℕ) : Prop := 0 ≤ i ∧ j < ws.getD i.toNat 0

instance (ws : List ℕ) (i : ℤ) (j : ℕ) : Decidable (InBounds ws i j) :=
  inferInstanceAs (Decidable (_ ∧ _))

/-- A grid of the given widths, all cells of which hold `z`. -/
def filled (z : M) (ws : List ℕ) : Grid M := ws.map fun w => List.replicate w z

/-- The value of a cell. -/
def read (t : Grid M) (i : ℤ) (j : ℕ) : Option M :=
  if 0 ≤ i then t[i.toNat]?.bind fun row => row[j]? else none

/-- The grid after a write to a cell. -/
def write (t : Grid M) (i : ℤ) (j : ℕ) (v : M) : Option (Grid M) :=
  if InBounds t.widths i j then some (t.modify i.toNat fun row => row.set j v) else none

/-- The cells of the grid hold the values of `f`. -/
def Holds (t : Grid M) (f : ℤ × ℕ → M) : Prop :=
  ∀ i j, InBounds t.widths i j → t.read i j = some (f (i, j))

variable {t t' : Grid M} {ws : List ℕ} {i i' : ℤ} {j j' : ℕ} {v z : M} {f : ℤ × ℕ → M}

theorem width_eq (n : ℕ) : t.widths.getD n 0 = (t[n]?.map List.length).getD 0 := by
  simp [widths, List.getD]

@[simp] theorem widths_filled : widths (filled z ws) = ws := by
  simp [widths, filled, Function.comp_def]

/-- A read has a result exactly in bounds. -/
theorem read_eq_none_iff : t.read i j = none ↔ ¬ InBounds t.widths i j := by
  unfold read InBounds
  rw [width_eq]
  by_cases hi : 0 ≤ i
  · rw [if_pos hi]
    cases hrow : t[i.toNat]? with
    | none => simp
    | some row => simp [hi]
  · simp [hi]

theorem holds_filled : Holds (filled z ws) fun _ => z := by
  intro i j hij
  rw [widths_filled] at hij
  obtain ⟨hi, hj⟩ := hij
  rw [List.getD_eq_getElem?_getD] at hj
  cases hw : ws[i.toNat]? with
  | none => rw [hw] at hj; exact absurd hj (Nat.not_lt_zero j)
  | some w =>
    rw [hw] at hj
    have hj : j < w := hj
    simp [read, filled, hi, hw, hj]

/-- A write has a result exactly in bounds. -/
theorem write_isSome_iff : (∃ t', t.write i j v = some t') ↔ InBounds t.widths i j := by
  unfold write
  by_cases h : InBounds t.widths i j
  · simp [h]
  · simp [h]

/-- A write leaves the widths as they are. -/
theorem widths_write (h : t.write i j v = some t') : t'.widths = t.widths := by
  unfold write at h
  split at h
  · cases h
    refine List.ext_getElem? fun n => ?_
    simp only [widths, List.getElem?_map, List.getElem?_modify]
    by_cases hn : i.toNat = n <;> cases t[n]? <;> simp [hn]
  · cases h

/-- A cell after a write to one. -/
theorem read_write (h : t.write i j v = some t') :
    t'.read i' j' = if i' = i ∧ j' = j then some v else t.read i' j' := by
  unfold write at h
  split at h
  next hin =>
    cases h
    obtain ⟨hi, hj⟩ := hin
    rw [width_eq] at hj
    by_cases hi' : 0 ≤ i'
    · have hrow : i' = i ↔ i.toNat = i'.toNat := by omega
      simp only [read, if_pos hi', List.getElem?_modify, hrow]
      by_cases hn : i.toNat = i'.toNat
      · rw [hn] at hj
        cases hr : t[i'.toNat]? with
        | none => rw [hr] at hj; simp at hj
        | some row =>
          rw [hr] at hj
          have hj : j < row.length := hj
          by_cases hc : j = j'
          · subst hc; simp [hn, hj]
          · have hc' : j' ≠ j := fun e => hc e.symm
            simp [hn, hc, hc']
      · simp [hn]
    · have hne : i' ≠ i := by omega
      simp [read, hi', hne]
  next => cases h

/-- **A write updates the function the grid holds.** -/
theorem Holds.write (hf : t.Holds f) (h : t.write i j v = some t') :
    t'.Holds (Function.update f (i, j) v) := by
  intro i' j' hin
  rw [widths_write h] at hin
  rw [read_write h, hf i' j' hin]
  by_cases hij : i' = i ∧ j' = j
  · obtain ⟨rfl, rfl⟩ := hij
    simp
  · have hne : (i', j') ≠ (i, j) := fun e => hij ⟨congrArg Prod.fst e, congrArg Prod.snd e⟩
    rw [if_neg hij, Function.update_of_ne hne]

end Grid

end Rushit
