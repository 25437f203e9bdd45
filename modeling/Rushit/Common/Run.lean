import Mathlib.Data.Nat.Notation
import Mathlib.Tactic.TypeStar
/-!
# Runs of a labelled transition relation

A run is a finite sequence of labelled steps. What one step preserves, a
run preserves (`Run.preserves`); a run whose steps all meet a side
condition is a run of the restricted relation, so an invariant that
needs the condition is carried by the same rule
(`Run.preserves_of_guarded`).
-/

namespace Rushit

variable {State Label : Type*}

/-- The steps `ls`, taken one after the other, lead from `s` to `s'`. -/
inductive Run (step : State → Label → State → Prop) : State → List Label → State → Prop
  | refl (s : State) : Run step s [] s
  | cons {s t u : State} {l : Label} {ls : List Label} :
      step s l t → Run step t ls u → Run step s (l :: ls) u

/-- The steps of `step` at which `ok` holds of the state and the label. -/
def Guarded (step : State → Label → State → Prop) (ok : State → Label → Prop) :
    State → Label → State → Prop :=
  fun s l s' => ok s l ∧ step s l s'

namespace Run

variable {step : State → Label → State → Prop} {ok : State → Label → Prop}
variable {s t u : State} {l : Label} {ls ls' : List Label}

theorem single (h : step s l t) : Run step s [l] t := .cons h (.refl t)

/-- A run of fewer steps is a run of more. -/
theorem mono {step' : State → Label → State → Prop} (h : Run step s ls t)
    (hle : ∀ s l s', step s l s' → step' s l s') : Run step' s ls t := by
  induction h with
  | refl _ => exact .refl _
  | cons hstep _ ih => exact .cons (hle _ _ _ hstep) ih

/-- Two runs compose. -/
theorem append (h₁ : Run step s ls t) (h₂ : Run step t ls' u) : Run step s (ls ++ ls') u := by
  induction h₁ with
  | refl _ => exact h₂
  | cons hstep _ ih => exact .cons hstep (ih h₂)

/-- **The invariant rule.** What every step preserves, a run preserves. -/
theorem preserves {I : State → Prop} (hstep : ∀ s l s', I s → step s l s' → I s')
    (h : Run step s ls t) (hs : I s) : I t := by
  induction h with
  | refl _ => exact hs
  | cons h _ ih => exact ih (hstep _ _ _ hs h)

/-- **The invariant rule with a history**: the invariant may speak of the
steps taken so far. -/
theorem history {I : List Label → State → Prop}
    (hstep : ∀ ls s l s', I ls s → step s l s' → I (ls ++ [l]) s')
    (h : Run step s ls t) (hs : I [] s) : I ls t := by
  suffices key : ∀ before, I before s → I (before ++ ls) t from key [] hs
  clear hs
  induction h with
  | refl _ => intro before hs; simpa using hs
  | cons h _ ih =>
    intro before hs
    simpa using ih _ (hstep _ _ _ _ hs h)

/-- A run can be stopped between any two steps. -/
theorem split (h : Run step s (ls ++ ls') u) : ∃ t, Run step s ls t ∧ Run step t ls' u := by
  induction ls generalizing s with
  | nil => exact ⟨s, .refl s, h⟩
  | cons l ls ih =>
    cases h with
    | cons hstep h =>
      obtain ⟨t, h₁, h₂⟩ := ih h
      exact ⟨t, .cons hstep h₁, h₂⟩

/-- The step at a position of a run, between what came before and after
it. -/
theorem getElem? {i : ℕ} (h : Run step s ls u) (hl : ls[i]? = some l) :
    ∃ t t', Run step s (ls.take i) t ∧ step t l t' ∧ Run step t' (ls.drop (i + 1)) u := by
  obtain ⟨hi, rfl⟩ := List.getElem?_eq_some_iff.mp hl
  have hsplit : ls = ls.take i ++ ls[i] :: ls.drop (i + 1) := by
    rw [← List.drop_eq_getElem_cons hi, List.take_append_drop]
  rw [hsplit] at h
  obtain ⟨t, h₁, h₂⟩ := h.split
  cases h₂ with
  | cons hstep h₂ => exact ⟨t, _, h₁, hstep, h₂⟩

/-- **The invariant rule under a side condition**: each step may use that
the condition held where it was taken. -/
theorem preserves_of_guarded {I : State → Prop}
    (hstep : ∀ s l s', I s → ok s l → step s l s' → I s')
    (h : Run (Guarded step ok) s ls t) (hs : I s) : I t :=
  h.preserves (fun s l s' hI hg => hstep s l s' hI hg.1 hg.2) hs

/-- A run keeps to what all of its labels meet. -/
theorem guarded_of_forall (h : Run step s ls t) (hok : ∀ l ∈ ls, ∀ s, ok s l) :
    Run (Guarded step ok) s ls t := by
  induction h with
  | refl s => exact .refl s
  | @cons s t u l ls hst _ ih =>
    exact .cons ⟨hok l List.mem_cons_self s, hst⟩
      (ih fun l' hl' => hok l' (List.mem_cons_of_mem _ hl'))

/-- **When a run keeps to the condition.** Where the condition is what
keeps `Good`, and a step that does not meet it ends `Good` for ever, the
runs that reach a good state are those whose steps all meet it. -/
theorem good_iff_guarded (Good : State → Prop) {I : State → Prop}
    (hstep : ∀ s l s', I s → ok s l → step s l s' → I s') (hgood : ∀ s, I s → Good s)
    (hbad : ∀ s l s', I s → ¬ ok s l → step s l s' → ¬ Good s')
    (hback : ∀ s l s', step s l s' → Good s' → Good s) (h : Run step s ls t) (hs : I s) :
    Good t ↔ Run (Guarded step ok) s ls t := by
  constructor
  · intro ht
    induction h with
    | refl s => exact .refl s
    | @cons s t u l ls hst hrun ih =>
      by_cases hok : ok s l
      · exact .cons ⟨hok, hst⟩ (ih (hstep s l t hs hok hst) ht)
      · have hback' : Good u → Good t := fun hu => by
          refine hrun.preserves (I := fun r => Good r → Good t) ?_ id hu
          exact fun r l r' hr hrr hr' => hr (hback r l r' hrr hr')
        exact absurd (hback' ht) (hbad s l t hs hok hst)
  · exact fun hg => hgood t (hg.preserves_of_guarded (fun s l s' hI hok => hstep s l s' hI hok) hs)

end Run

end Rushit
