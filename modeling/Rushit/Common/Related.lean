import Mathlib.Data.List.Forall2
/-!
# Lists that are related

Two lists related element by element, beyond what the library has of
`List.Forall₂`: partners of elements, composition, and lists that a
computation relates.
-/

namespace Rushit

variable {α β γ : Type*} {S : α → β → Prop} {l : List α} {l' : List β}

theorem forall₂_mem_left (h : List.Forall₂ S l l') {x : α} (hx : x ∈ l) : ∃ y ∈ l', S x y := by
  induction h with
  | nil => cases hx
  | @cons x' y l l' hxy _ ih =>
    rcases List.mem_cons.mp hx with rfl | hx
    · exact ⟨y, by simp, hxy⟩
    · obtain ⟨z, hz, hxz⟩ := ih hx
      exact ⟨z, List.mem_cons_of_mem _ hz, hxz⟩

theorem forall₂_mem_right (h : List.Forall₂ S l l') {y : β} (hy : y ∈ l') : ∃ x ∈ l, S x y := by
  obtain ⟨x, hx, hxy⟩ := forall₂_mem_left h.flip hy
  exact ⟨x, hx, hxy⟩

theorem forall₂_getElem? (h : List.Forall₂ S l l') {m : ℕ} {x : α} (hx : l[m]? = some x) :
    ∃ y, l'[m]? = some y ∧ S x y := by
  induction h generalizing m with
  | nil => cases hx
  | @cons x' y l l' hxy _ ih =>
    cases m with
    | zero =>
      obtain rfl : x' = x := by simpa using hx
      exact ⟨y, rfl, hxy⟩
    | succ m => exact ih hx

theorem forall₂_trans {T : β → γ → Prop} {U : α → γ → Prop} {l'' : List γ}
    (h : List.Forall₂ S l l') (h' : List.Forall₂ T l' l'') (hSTU : ∀ x y z, S x y → T y z → U x z) :
    List.Forall₂ U l l'' := by
  induction h generalizing l'' with
  | nil => cases h'; exact .nil
  | cons hxy _ ih =>
    cases h' with
    | cons hyz hrest => exact .cons (hSTU _ _ _ hxy hyz) (ih hrest)

/-- Related lists stay related when filtered alike. -/
theorem forall₂_filter {p : α → Bool} {q : β → Bool} (h : List.Forall₂ S l l')
    (hpq : ∀ x ∈ l, ∀ y, S x y → p x = q y) : List.Forall₂ S (l.filter p) (l'.filter q) := by
  induction h with
  | nil => exact .nil
  | @cons x y l l' hxy _ ih =>
    have hrest := ih fun z hz => hpq z (List.mem_cons_of_mem _ hz)
    have heq := hpq x (by simp) y hxy
    cases hy : q y with
    | true => simpa [hy, heq] using List.Forall₂.cons hxy hrest
    | false => simpa [hy, heq] using hrest

/-- What holds along two lists, read off the first. -/
theorem forall₂_of_zip {P : α → γ → Prop} {cs : List γ} (hlen : l.length = l'.length)
    (h : List.Forall₂ (fun p c => P p.1 c) (l.zip l') cs) : List.Forall₂ P l cs := by
  have hfst := List.map_fst_zip (Nat.le_of_eq hlen)
  rw [← hfst, List.forall₂_map_left_iff]
  exact h

/-- A result for every element, where there is one for each. -/
theorem exists_mapM {α β : Type} {f : α → Option β} {P : α → β → Prop} {l : List α}
    (h : ∀ a ∈ l, ∃ b, f a = some b ∧ P a b) :
    ∃ bs, l.mapM f = some bs ∧ List.Forall₂ P l bs := by
  induction l with
  | nil => exact ⟨[], rfl, .nil⟩
  | cons a l ih =>
    obtain ⟨b, hb, hP⟩ := h a List.mem_cons_self
    obtain ⟨bs, hbs, hall⟩ := ih fun a ha => h a (List.mem_cons_of_mem _ ha)
    exact ⟨b :: bs, by simp [List.mapM_cons, hb, hbs], .cons hP hall⟩

end Rushit
