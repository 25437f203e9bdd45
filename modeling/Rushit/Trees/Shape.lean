import Rushit.Trees.Model
/-!
# Trees in memory

`ValueAt`, `UpvaluesAt` and `EntriesAt` say which cells a tree has. What
`free_value_data` frees are these cells, each once, and what
`serialize_object` allocates are the cells of the tree that it makes on
values.
-/

namespace Rushit

namespace Trees

open Lua
open Ram (Malloc Stop access forEach Returns Mirrors)
open Serialize (SValue SUpvalues SEntries SFunction)

abbrev Cells := List (Σ _ : ℕ, Cell)

mutual

/-- The value is `c`, and its cells are `l`. -/
def ValueAt : SValue → CValue → Cells → Prop
  | .boolean b, c, l => c = .boolean b ∧ l = []
  | .number n, c, l => c = .number n ∧ l = []
  | .string s, c, l => ∃ p, c = .string p ∧ l = [⟨p, .string s⟩]
  | .function id code upvalues, c, l => ∃ p q u lu, c = .function p ∧ UpvaluesAt upvalues u lu ∧
      l = ⟨p, .function ⟨id, some q, u⟩⟩ :: ⟨q, .code code⟩ :: lu
  | .table id entries, c, l => ∃ p e le, c = .table p ∧ EntriesAt entries e le ∧
      l = ⟨p, .table ⟨id, e⟩⟩ :: le

/-- The list of upvalues begins at `p`. -/
def UpvaluesAt : SUpvalues → Option ℕ → Cells → Prop
  | .nil, p, l => p = none ∧ l = []
  | .cons id number value collectorId next, p, l => ∃ a n c lv ln, p = some a ∧
      ValueAt value c lv ∧ UpvaluesAt next n ln ∧
      l = ⟨a, .upvalue ⟨n, id, number, c, collectorId⟩⟩ :: (lv ++ ln)

/-- The list of entries begins at `p`. -/
def EntriesAt : SEntries → Option ℕ → Cells → Prop
  | .nil, p, l => p = none ∧ l = []
  | .cons key value collectorId next, p, l => ∃ a n ck cv lk lv ln, p = some a ∧
      ValueAt key ck lk ∧ ValueAt value cv lv ∧ EntriesAt next n ln ∧
      l = ⟨a, .entry ⟨n, ck, cv, collectorId⟩⟩ :: (lk ++ (lv ++ ln))

end

variable {l k : Cells} {m : Ram Cell} {n : ℕ} {al : Malloc Cell} {h : Heap}

/-! ## Freeing -/

mutual

/-- **`free_value_data`** frees the cells of a value. -/
theorem freeValueData_returns (sv : SValue) {c : CValue} {l k : Cells} {m : Ram Cell} {n : ℕ}
    (hsv : ValueAt sv c l) (hm : m.Holds (l ++ k)) (hn : l.length ≤ n) :
    Returns (freeValueData n c m) fun m' => m'.Holds k :=
  match sv with
  | .boolean b => by
    obtain ⟨rfl, rfl⟩ := hsv
    cases n <;> exact .pure hm
  | .number x => by
    obtain ⟨rfl, rfl⟩ := hsv
    cases n <;> exact .pure hm
  | .string s => by
    obtain ⟨p, rfl, rfl⟩ := hsv
    cases n <;> exact (Ram.Holds.free (l := []) hm).access
  | .function id code upvalues => by
    obtain ⟨p, q, u, lu, rfl, hu, rfl⟩ := hsv
    rw [List.length_cons, List.length_cons] at hn
    obtain ⟨n, rfl⟩ := Nat.exists_eq_succ_of_ne_zero (n := n) (by omega)
    unfold freeValueData freeSfunctionWith
    refine .of_read (hm.read List.mem_cons_self rfl) ?_
    refine .of_access (hm.free (l := [_])) fun m₁ hm₁ => ?_
    have hrest : m₁.Holds (lu ++ (⟨p, .function ⟨id, some q, u⟩⟩ :: k)) :=
      Ram.Holds.perm (l := _ :: (lu ++ k)) hm₁ List.perm_middle.symm
    refine (freeUpvalues_returns upvalues hu hrest hrest.length_le (by omega)).bind fun m₂ hm₂ => ?_
    refine .of_access (Ram.Holds.modify (l := []) hm₂ rfl _) fun m₃ hm₃ => ?_
    exact (Ram.Holds.free (l := []) hm₃).access
  | .table id entries => by
    obtain ⟨p, e, le, rfl, he, rfl⟩ := hsv
    rw [List.length_cons] at hn
    obtain ⟨n, rfl⟩ := Nat.exists_eq_succ_of_ne_zero (n := n) (by omega)
    unfold freeValueData freeTable
    refine .of_read (hm.read List.mem_cons_self rfl) ?_
    have hrest : m.Holds (le ++ (⟨p, .table ⟨id, e⟩⟩ :: k)) := hm.perm List.perm_middle.symm
    refine (freeTableEntries_returns entries he hrest hrest.length_le (by omega)).bind
      fun m₁ hm₁ => ?_
    exact (Ram.Holds.free (l := []) hm₁).access

/-- **`free_upvalues`** -/
theorem freeUpvalues_returns (us : SUpvalues) {p : Option ℕ} {l k : Cells} {m : Ram Cell}
    {n fuel : ℕ} (hus : UpvaluesAt us p l) (hm : m.Holds (l ++ k)) (hfuel : l.length ≤ fuel)
    (hn : l.length ≤ n) : Returns (forEach Cell.next? id (freeUpvalue (freeValueData n)) fuel p m)
      fun m' => m'.Holds k :=
  match us with
  | .nil => by
    obtain ⟨rfl, rfl⟩ := hus
    cases fuel <;> exact .pure hm
  | .cons id number value collectorId next => by
    obtain ⟨a, q, c, lv, ln, rfl, hv, hnext, rfl⟩ := hus
    rw [List.length_cons, List.length_append] at hfuel hn
    obtain ⟨fuel, rfl⟩ := Nat.exists_eq_succ_of_ne_zero (n := fuel) (by omega)
    unfold forEach
    refine .of_read (hm.read List.mem_cons_self rfl) ?_
    have hrest : m.Holds (lv ++ (⟨a, .upvalue ⟨q, id, number, c, collectorId⟩⟩ :: (ln ++ k))) := by
      refine hm.perm ?_
      rw [List.cons_append, List.append_assoc]
      exact List.perm_middle.symm
    refine (Returns.of_read (hm.read List.mem_cons_self rfl) ?_ :
      Returns (freeUpvalue _ a m) fun m' => m'.Holds (ln ++ k)).bind fun m₁ hm₁ => ?_
    · refine (freeValueData_returns value hv hrest (by omega)).bind fun m₁ hm₁ => ?_
      exact (Ram.Holds.free (l := []) hm₁).access
    · exact freeUpvalues_returns next hnext hm₁ (by omega) (by omega)

/-- **`free_table_entries`** -/
theorem freeTableEntries_returns (es : SEntries) {p : Option ℕ} {l k : Cells} {m : Ram Cell}
    {n fuel : ℕ} (hes : EntriesAt es p l) (hm : m.Holds (l ++ k)) (hfuel : l.length ≤ fuel)
    (hn : l.length ≤ n) :
    Returns (forEach Cell.next? id (freeTableEntry (freeValueData n)) fuel p m)
      fun m' => m'.Holds k :=
  match es with
  | .nil => by
    obtain ⟨rfl, rfl⟩ := hes
    cases fuel <;> exact .pure hm
  | .cons key value collectorId next => by
    obtain ⟨a, q, ck, cv, lk, lv, ln, rfl, hk, hv, hnext, rfl⟩ := hes
    rw [List.length_cons, List.length_append, List.length_append] at hfuel hn
    obtain ⟨fuel, rfl⟩ := Nat.exists_eq_succ_of_ne_zero (n := fuel) (by omega)
    unfold forEach
    refine .of_read (hm.read List.mem_cons_self rfl) ?_
    have hrest : m.Holds (lk ++ (⟨a, .entry ⟨q, ck, cv, collectorId⟩⟩ :: (lv ++ (ln ++ k)))) := by
      refine hm.perm ?_
      rw [List.cons_append, List.append_assoc, List.append_assoc]
      exact List.perm_middle.symm
    refine (Returns.of_read (hm.read List.mem_cons_self rfl) ?_ :
      Returns (freeTableEntry _ a m) fun m' => m'.Holds (ln ++ k)).bind fun m₁ hm₁ => ?_
    · refine (freeValueData_returns key hk hrest (by omega)).bind fun m₁ hm₁ => ?_
      refine .of_read (hm₁.read List.mem_cons_self rfl) ?_
      refine (freeValueData_returns value hv (hm₁.perm List.perm_middle.symm) (by omega)).bind
        fun m₂ hm₂ => ?_
      exact (Ram.Holds.free (l := []) hm₂).access
    · exact freeTableEntries_returns next hnext hm₁ (by omega) (by omega)

end

end Trees

end Rushit
