import Mathlib.Logic.Relation
import Mathlib.Order.WellFounded
import Mathlib.Data.Set.Finite.Basic
/-!
# Acyclic and well-founded

A relation descends from `a` for finitely many steps only (`Acc`)
exactly when no cycle is reached from `a`, provided only finitely many
elements reached from `a` have a successor.
-/

namespace Rushit

variable {α : Type*} {r : α → α → Prop} {a b : α}

/-- From an accessible element no step leads to an inaccessible one. -/
theorem acc_of_reach (ha : Acc (fun y x => r x y) a) (h : Relation.ReflTransGen r a b) :
    Acc (fun y x => r x y) b := by
  induction h with
  | refl => exact ha
  | tail _ hbc ih => exact ih.inv hbc

/-- An accessible element lies on no cycle. -/
theorem not_transGen_of_acc (ha : Acc (fun y x => r x y) a) : ¬ Relation.TransGen r a a := by
  induction ha with
  | intro x _ ih =>
    intro hcycle
    obtain ⟨y, hxy, hyx⟩ := Relation.TransGen.head'_iff.mp hcycle
    exact ih y hxy (Relation.TransGen.tail' hyx hxy)

/-- **Finite and acyclic is well-founded.** -/
theorem acc_of_acyclic (hfin : {b | Relation.ReflTransGen r a b ∧ ∃ c, r b c}.Finite)
    (hac : ∀ b, Relation.ReflTransGen r a b → ¬ Relation.TransGen r b b) :
    Acc (fun y x => r x y) a := by
  let S := {b | Relation.ReflTransGen r a b ∧ ∃ c, r b c}
  have : Finite S := hfin
  let below : S → S → Prop := fun y x => Relation.TransGen r x.1 y.1
  have htrans : IsTrans S below := ⟨fun _ _ _ h₁ h₂ => h₂.trans h₁⟩
  have hirrefl : Std.Irrefl below := ⟨fun x h => hac x.1 x.2.1 h⟩
  have hwf : WellFounded below := Finite.wellFounded_of_trans_of_irrefl below
  have key : ∀ x : S, Acc (fun y x => r x y) x.1 := by
    intro x
    induction x using hwf.induction with
    | _ x ih =>
      refine ⟨x.1, fun y hy => ?_⟩
      by_cases hnext : ∃ c, r y c
      · exact ih ⟨y, x.2.1.tail hy, hnext⟩ (Relation.TransGen.single hy)
      · exact ⟨y, fun c hc => absurd ⟨c, hc⟩ hnext⟩
  by_cases hnext : ∃ c, r a c
  · exact key ⟨a, .refl, hnext⟩
  · exact ⟨a, fun c hc => absurd ⟨c, hc⟩ hnext⟩

end Rushit
