import Mathlib.Data.List.Basic
/-!
# Computations that can fail

Sequencing over `Except` and `Option`: a bind succeeds exactly where
both of its parts do. Where a `List.foldlM` succeeds every step of it did, and what
each step preserves the fold preserves.
-/

namespace Rushit

/-- A bind returns exactly where both of its parts do. -/
theorem bind_eq_ok {ε α β : Type} {x : Except ε α} {f : α → Except ε β} {b : β} :
    (x >>= f) = .ok b ↔ ∃ a, x = .ok a ∧ f a = .ok b := by
  cases x with
  | error e => simp [bind, Except.bind]
  | ok a => simp [bind, Except.bind]

variable {ε α β : Type} {f : β → α → Except ε β} {b c : β} {a : α} {l : List α}

theorem foldlM_cons_eq_ok :
    (a :: l).foldlM f b = .ok c ↔ ∃ b', f b a = .ok b' ∧ l.foldlM f b' = .ok c := by
  rw [List.foldlM_cons, bind_eq_ok]

/-- The same for steps that may have no result. -/
theorem foldlM_cons_eq_some {g : β → α → Option β} :
    (a :: l).foldlM g b = some c ↔ ∃ b', g b a = some b' ∧ l.foldlM g b' = some c := by
  rw [List.foldlM_cons]
  exact Option.bind_eq_some_iff

/-- **The invariant rule**: what every step preserves, the fold preserves,
and the invariant holds before each of its steps. -/
theorem foldlM_invariant {I : β → Prop}
    (hstep : ∀ b b', ∀ a ∈ l, I b → f b a = .ok b' → I b') (h : l.foldlM f b = .ok c) (hb : I b) :
    I c ∧ ∀ a ∈ l, ∃ d d', I d ∧ f d a = .ok d' := by
  induction l generalizing b with
  | nil => cases h; exact ⟨hb, by simp⟩
  | cons a l ih =>
    obtain ⟨b', hf, hrest⟩ := foldlM_cons_eq_ok.mp h
    obtain ⟨hc, hall⟩ := ih (fun b b' x hx => hstep b b' x (List.mem_cons_of_mem _ hx)) hrest
      (hstep b b' a (by simp) hb hf)
    refine ⟨hc, fun x hx => ?_⟩
    rcases List.mem_cons.mp hx with rfl | hx
    · exact ⟨b, b', hb, hf⟩
    · exact hall x hx

/-- **The progress rule**: where every step under the invariant succeeds
or ends in one of the errors `P`, so does the fold. -/
theorem foldlM_ok_or {I : β → Prop} {P : ε → Prop}
    (hstep : ∀ b, ∀ a ∈ l, I b → (∃ b', f b a = .ok b' ∧ I b') ∨ ∃ e, f b a = .error e ∧ P e)
    (hb : I b) : (∃ c, l.foldlM f b = .ok c ∧ I c) ∨ ∃ e, l.foldlM f b = .error e ∧ P e := by
  induction l generalizing b with
  | nil => exact .inl ⟨b, rfl, hb⟩
  | cons a l ih =>
    rw [List.foldlM_cons]
    rcases hstep b a (by simp) hb with ⟨b', hf, hb'⟩ | ⟨e, hf, he⟩
    · rw [hf]
      exact ih (fun b x hx => hstep b x (List.mem_cons_of_mem _ hx)) hb'
    · rw [hf]
      exact .inr ⟨e, rfl, he⟩

/-- A `List.mapM` succeeds where it does on every element. -/
theorem mapM_eq_ok {f : α → Except ε β} (h : ∀ a ∈ l, ∃ b, f a = .ok b) :
    ∃ bs, l.mapM f = .ok bs := by
  induction l with
  | nil => exact ⟨[], rfl⟩
  | cons a l ih =>
    obtain ⟨b, hb⟩ := h a List.mem_cons_self
    obtain ⟨bs, hbs⟩ := ih fun x hx => h x (List.mem_cons_of_mem _ hx)
    refine ⟨b :: bs, ?_⟩
    rw [List.mapM_cons, hb, hbs]
    rfl

end Rushit
