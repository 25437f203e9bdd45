import Rushit.Lua.Heap
import Mathlib.Data.List.TakeWhile
/-!
# Sequences

A table used as an array: its entries are under the indices from 1 up,
in order. Such a table's length is the number of its entries, and
storing under the next index appends.
-/

namespace Rushit

namespace Lua

/-- The entries of an array, from index `i` on. -/
def arrayFrom : ℕ → List Value → List (Value × Value)
  | _, [] => []
  | i, v :: vs => (.ofNat i, v) :: arrayFrom (i + 1) vs

/-- The table holds the values under the indices from 1 up, and nothing
else. -/
def Table.Holds (t : Table) (vs : List Value) : Prop := t.entries = arrayFrom 1 vs

theorem Value.ofNat_inj {i j : ℕ} : Value.ofNat i = Value.ofNat j ↔ i = j := by
  simp [Value.ofNat, Number.ofNat]

theorem arrayFrom_append (i : ℕ) (vs ws : List Value) :
    arrayFrom i (vs ++ ws) = arrayFrom i vs ++ arrayFrom (i + vs.length) ws := by
  induction vs generalizing i with
  | nil => rfl
  | cons v vs ih =>
    rw [List.cons_append, arrayFrom, ih, arrayFrom, List.cons_append, List.length_cons]
    congr 3
    omega

@[simp] theorem arrayFrom_length (i : ℕ) (vs : List Value) :
    (arrayFrom i vs).length = vs.length := by
  induction vs generalizing i with
  | nil => rfl
  | cons v vs ih => simp [arrayFrom, ih]

/-- The keys of an array are its indices. -/
theorem mem_keys_arrayFrom {i j : ℕ} {vs : List Value} :
    Value.ofNat j ∈ (arrayFrom i vs).map Prod.fst ↔ i ≤ j ∧ j < i + vs.length := by
  induction vs generalizing i with
  | nil => simp [arrayFrom]
  | cons v vs ih =>
    rw [arrayFrom, List.map_cons, List.mem_cons, ih, Value.ofNat_inj, List.length_cons]
    omega

namespace Table

variable {t : Table} {vs : List Value}

/-- What is under an index of the array is not nil. -/
theorem Holds.rawgeti_ne_nil (h : t.Holds vs) {j : ℕ} (hj : 1 ≤ j) (hlt : j < 1 + vs.length) :
    t.rawgeti j ≠ .nil := by
  have hkey : Value.ofNat j ∈ t.entries.map Prod.fst := by
    rw [h]; exact mem_keys_arrayFrom.mpr ⟨hj, hlt⟩
  unfold rawgeti rawget
  cases hl : t.entries.lookup (.ofNat j) with
  | none => exact absurd hkey (not_mem_keys_of_lookup hl)
  | some v => exact t.value_ne_nil _ (mem_of_lookup hl)

/-- **The length of an array is the number of its entries.** -/
theorem Holds.objlen_eq (h : t.Holds vs) : t.objlen = vs.length := by
  have hlen : t.entries.length = vs.length := by rw [h, arrayFrom_length]
  have hall : ∀ i ∈ List.range' 1 t.entries.length, decide (t.rawgeti i ≠ .nil) = true := by
    intro i hi
    rw [hlen, List.mem_range'_1] at hi
    simpa using h.rawgeti_ne_nil hi.1 hi.2
  rw [objlen, List.takeWhile_eq_self_iff.mpr hall, List.length_range', hlen]

/-- **Storing under the next index appends.** -/
theorem Holds.insert_next (h : t.Holds vs) {v : Value} (hk : (Value.ofNat (vs.length + 1)).keyable)
    (hv : v ≠ .nil) : (t.insert (.ofNat (vs.length + 1)) v hk hv).Holds (vs ++ [v]) := by
  have hnew : Value.ofNat (vs.length + 1) ∉ t.entries.map Prod.fst := by
    rw [h, mem_keys_arrayFrom]; omega
  unfold Holds
  rw [insert_entries hk hv hnew, h, arrayFrom_append, Nat.add_comm 1]
  rfl

/-- Removing the only element leaves an empty array. -/
theorem Holds.erase_single {v : Value} (h : t.Holds [v]) : (t.erase (.ofNat 1)).Holds [] := by
  show t.without (.ofNat 1) = []
  rw [without, h]
  simp [arrayFrom]

end Table

end Lua

end Rushit
