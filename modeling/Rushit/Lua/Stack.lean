import Rushit.Lua.Heap
/-!
# The Lua stack

C code hands values to Lua and takes them back on a stack, which it
addresses from the top: index `-1` is the top, `-2` the value under it.
An index out of range is outside the contract of the API, so the
accesses are partial.

Also `lua_next`, which finds its place in a table from the key that the
caller kept on the stack.
-/

namespace Rushit

namespace Lua

/-- The stack of a Lua state, top first. -/
abbrev Stack := List Value

namespace Stack

/-- The value at index `-i`. -/
def index (s : Stack) : ℕ → Option Value
  | 0 => none
  | i + 1 => s[i]?

/-- `lua_pop(L, n)`. -/
def pop : ℕ → Stack → Option Stack
  | 0, s => some s
  | n + 1, _ :: s => pop n s
  | _ + 1, [] => none

/-- `lua_remove(L, -i)`: the values above move down. -/
def remove : ℕ → Stack → Option Stack
  | 1, _ :: s => some s
  | i + 2, v :: s => (remove (i + 1) s).map (v :: ·)
  | _, _ => none

variable {s s' : Stack} {n : ℕ}

/-- **What is popped is above what is left.** -/
theorem pop_eq_some : s.pop n = some s' ↔ ∃ vs, vs.length = n ∧ s = vs ++ s' := by
  induction n generalizing s with
  | zero => simp [pop, eq_comm]
  | succ n ih =>
    cases s with
    | nil => simp [pop]
    | cons v s =>
      rw [pop, ih]
      constructor
      · rintro ⟨vs, hvs, rfl⟩
        exact ⟨v :: vs, by simp [hvs], rfl⟩
      · rintro ⟨vs, hvs, heq⟩
        cases vs with
        | nil => cases hvs
        | cons w vs =>
          obtain ⟨rfl, rfl⟩ := List.cons.inj heq
          exact ⟨vs, by simpa using hvs, rfl⟩

end Stack

/-! ## Traversal -/

/-- The entry after the one under `k`, if there is one; there must be
one under `k`. -/
def entryAfter (k : Value) : List (Value × Value) → Option (Option (Value × Value))
  | [] => none
  | e :: es => if e.1 = k then some es.head? else entryAfter k es

/-- `lua_next`: nil stands before the first entry. -/
def Table.next (t : Table) (k : Value) : Option (Option (Value × Value)) :=
  if k = .nil then some t.entries.head? else entryAfter k t.entries

theorem entryAfter_append {e : Value × Value} {es es' : List (Value × Value)}
    (he : e.1 ∉ es.map Prod.fst) : entryAfter e.1 (es ++ e :: es') = some es'.head? := by
  induction es with
  | nil => simp [entryAfter]
  | cons d es ih =>
    rw [List.map_cons, List.mem_cons, not_or] at he
    rw [List.cons_append, entryAfter, if_neg (Ne.symm he.1), ih he.2]

/-- **A traversal comes to the entries in order.** -/
theorem Table.next_append {t : Table} {e : Value × Value} {es es' : List (Value × Value)}
    (ht : t.entries = es ++ e :: es') : t.next e.1 = some es'.head? := by
  have hkey : e.1.keyable = true := t.keyable e (by simp [ht])
  have hnil : e.1 ≠ .nil := by
    intro hnil
    rw [hnil] at hkey
    cases hkey
  have hfresh : e.1 ∉ es.map Prod.fst := by
    have hnodup := t.nodup
    rw [ht, List.map_append, List.map_cons] at hnodup
    exact fun hmem => (List.nodup_append.mp hnodup).2.2 _ hmem _ List.mem_cons_self rfl
  rw [next, if_neg hnil, ht, entryAfter_append hfresh]

/-- The upvalues of a closure by number. -/
theorem Heap.upvalueid_append {h : Heap} {f : Addr} {c : Closure} {xs ys : List Addr}
    (hc : h.lookup f = some (.closure c)) (hxs : c.uvs = ys ++ xs) :
    h.upvalueid f (ys.length + 1) = xs.head? := by
  rw [Heap.upvalueid_succ hc, hxs, List.getElem?_append_right (le_refl _), Nat.sub_self,
    List.head?_eq_getElem?]

theorem Table.next_nil (t : Table) : t.next .nil = some t.entries.head? := by simp [next]

end Lua

end Rushit
