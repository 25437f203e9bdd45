import Mathlib.Data.List.Nodup
import Mathlib.Data.List.Range
import Mathlib.Data.List.Perm.Subperm
import Mathlib.Logic.Function.Basic
/-!
# Chains of cells

Each cell of a memory has a link to another or to none, and a chain
follows the links from a first cell to the last. A chain that ends is
determined by where it begins (`Chain.unique`), so that it never comes
back to a cell (`Chain.nodup`), and it does not see what happens to other
cells (`Chain.congr`). Two chains that share no cell are joined by one
write to the last cell of the first (`Chain.join`).
-/

namespace Rushit

variable {A : Type*}

/-- From `p` on, the links `next` lead through the cells `l` to an end. -/
inductive Chain (next : A → Option (Option A)) : Option A → List A → Prop
  | nil : Chain next none []
  | cons {a : A} {p : Option A} {l : List A} :
      next a = some p → Chain next p l → Chain next (some a) (a :: l)

namespace Chain

variable {next next' : A → Option (Option A)} {p q : Option A} {a : A} {l l' : List A}

theorem nil_iff : Chain next p [] ↔ p = none :=
  ⟨fun h => by cases h; rfl, fun h => h ▸ .nil⟩

theorem cons_iff : Chain next p (a :: l) ↔ p = some a ∧ ∃ q, next a = some q ∧ Chain next q l := by
  constructor
  · intro h
    cases h with
    | cons ha h => exact ⟨rfl, _, ha, h⟩
  · rintro ⟨rfl, q, ha, h⟩
    exact .cons ha h

/-- **A chain is determined by where it begins.** -/
theorem unique (h : Chain next p l) (h' : Chain next p l') : l = l' := by
  induction h generalizing l' with
  | nil =>
    cases h'
    rfl
  | cons ha _ ih =>
    cases h' with
    | cons ha' h' =>
      obtain rfl := Option.some.inj (ha.symm.trans ha')
      rw [ih h']

/-- A chain does not see the links of other cells. -/
theorem congr (h : Chain next p l) (heq : ∀ a ∈ l, next' a = next a) : Chain next' p l := by
  induction h with
  | nil => exact .nil
  | cons ha _ ih =>
    exact .cons ((heq _ List.mem_cons_self).trans ha)
      (ih fun a hmem => heq a (List.mem_cons_of_mem _ hmem))

/-- The chain from a cell of a chain is the rest of it. -/
theorem from_mem (h : Chain next p l) (ha : a ∈ l) :
    ∃ before after, l = before ++ a :: after ∧ Chain next (some a) (a :: after) := by
  induction h with
  | nil => cases ha
  | @cons b q l hb hl ih =>
    rcases List.mem_cons.mp ha with rfl | ha
    · exact ⟨[], l, rfl, .cons hb hl⟩
    · obtain ⟨before, after, rfl, hafter⟩ := ih ha
      exact ⟨b :: before, after, rfl, hafter⟩

/-- **A chain that ends does not come back to a cell.** -/
theorem nodup (h : Chain next p l) : l.Nodup := by
  induction h with
  | nil => exact List.nodup_nil
  | @cons b q l hb hl ih =>
    refine List.nodup_cons.mpr ⟨fun hmem => ?_, ih⟩
    -- the chain from the second visit would be both shorter and the same
    obtain ⟨before, after, hl', hafter⟩ := hl.from_mem hmem
    have hsame := (Chain.cons hb hl).unique hafter
    have hlen := congrArg List.length hsame
    rw [hl'] at hlen
    simp only [List.length_cons, List.length_append] at hlen
    omega

/-- Every cell of a chain has a link. -/
theorem next_isSome (h : Chain next p l) (ha : a ∈ l) : ∃ q, next a = some q := by
  obtain ⟨_, _, -, hafter⟩ := h.from_mem ha
  obtain ⟨-, q, hq, -⟩ := cons_iff.mp hafter
  exact ⟨q, hq⟩

/-- A chain that is not empty has a first cell. -/
theorem exists_eq_some (h : Chain next p l) (hne : l ≠ []) : ∃ a, p = some a ∧ a ∈ l := by
  cases h with
  | nil => exact absurd rfl hne
  | cons _ _ => exact ⟨_, rfl, List.mem_cons_self⟩

/-- **A chain of cells below `n`** has at most `n` of them. -/
theorem length_le {next : ℕ → Option (Option ℕ)} {p : Option ℕ} {l : List ℕ} {n : ℕ}
    (h : Chain next p l) (hlt : ∀ a ∈ l, a < n) : l.length ≤ n := by
  have hsub : l ⊆ List.range n := fun a ha => List.mem_range.mpr (hlt a ha)
  have hle := (h.nodup.subperm hsub).length_le
  rwa [List.length_range] at hle

/-- **Two chains are joined** by a link from the last cell of the first to
the first cell of the second, where they share no cell. -/
theorem join [DecidableEq A] (h : Chain next p (l ++ [a])) (h' : Chain next q l')
    (hdisj : ∀ b ∈ l ++ [a], b ∉ l') :
    Chain (Function.update next a (some q)) p (l ++ a :: l') := by
  have hnodup := h.nodup
  induction l generalizing p with
  | nil =>
    obtain ⟨rfl, -⟩ := cons_iff.mp h
    refine .cons (Function.update_self ..) (h'.congr fun b hb => ?_)
    -- the second chain does not have the cell
    have hne : b ≠ a := fun e => hdisj a (by simp) (e ▸ hb)
    exact Function.update_of_ne hne ..
  | cons c l ih =>
    obtain ⟨rfl, r, hc, hrest⟩ := cons_iff.mp h
    have hne : c ≠ a := fun e => (List.nodup_cons.mp hnodup).1 (by simp [e])
    refine .cons ((Function.update_of_ne hne ..).trans hc) (ih hrest ?_ hrest.nodup)
    exact fun b hb => hdisj b (List.mem_cons_of_mem _ hb)

end Chain

end Rushit
