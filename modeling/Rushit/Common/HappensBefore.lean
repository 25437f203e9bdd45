import Mathlib.Data.List.Basic
import Mathlib.Data.Nat.Notation
import Mathlib.Tactic.TypeStar
/-!
# Happens-before

The steps of several agents that share memory, as they are interleaved
in a trace. A step comes before a later one of the same agent, and
before one that it synchronises with; steps that this does not order
were interleaved by chance.

An agent hands over what it did by a release that a step of the other
one acquires (`HappensBefore.handover`). Two neighbours in the trace are
ordered only directly (`HappensBefore.adjacent`).
-/

namespace Rushit

variable {Step Agent : Type*}

/-- Who takes a step, and which later steps it synchronises with. -/
structure Threads (Step Agent : Type*) where
  agent : Step → Agent
  sync : Step → Step → Prop

namespace Threads

/-- The step at `i` of a trace happens before the one at `j`. -/
inductive HappensBefore (T : Threads Step Agent) (ls : List Step) : ℕ → ℕ → Prop
  | program {i j : ℕ} {x y : Step} : i < j → ls[i]? = some x → ls[j]? = some y →
      T.agent x = T.agent y → HappensBefore T ls i j
  | sync {i j : ℕ} {x y : Step} : i < j → ls[i]? = some x → ls[j]? = some y →
      T.sync x y → HappensBefore T ls i j
  | trans {i j k : ℕ} : HappensBefore T ls i j → HappensBefore T ls j k → HappensBefore T ls i k

variable {T : Threads Step Agent} {ls : List Step} {i j k : ℕ} {x y z : Step}

namespace HappensBefore

theorem lt (h : T.HappensBefore ls i j) : i < j := by
  induction h with
  | program hij => exact hij
  | sync hij => exact hij
  | trans _ _ ih₁ ih₂ => exact Nat.lt_trans ih₁ ih₂

/-- **A handover.** The agent of `x` releases with `z`, which the step `y`
acquires. -/
theorem handover (hik : i < k) (hkj : k < j) (hx : ls[i]? = some x) (hz : ls[k]? = some z)
    (hy : ls[j]? = some y) (hagent : T.agent x = T.agent z) (hsync : T.sync z y) :
    T.HappensBefore ls i j :=
  .trans (.program hik hx hz hagent) (.sync hkj hz hy hsync)

/-- The other way round: the agent of `y` acquires with `z` what `x`
released. -/
theorem acquired (hik : i < k) (hkj : k < j) (hx : ls[i]? = some x) (hz : ls[k]? = some z)
    (hy : ls[j]? = some y) (hsync : T.sync x z) (hagent : T.agent z = T.agent y) :
    T.HappensBefore ls i j :=
  .trans (.sync hik hx hz hsync) (.program hkj hz hy hagent)

/-- **Neighbours** are ordered by their agent, or because they
synchronise. -/
theorem adjacent (h : T.HappensBefore ls i (i + 1)) (hx : ls[i]? = some x)
    (hy : ls[i + 1]? = some y) : T.agent x = T.agent y ∨ T.sync x y := by
  cases h with
  | program _ hx' hy' hagent =>
    obtain rfl := Option.some.inj (hx.symm.trans hx')
    obtain rfl := Option.some.inj (hy.symm.trans hy')
    exact .inl hagent
  | sync _ hx' hy' hsync =>
    obtain rfl := Option.some.inj (hx.symm.trans hx')
    obtain rfl := Option.some.inj (hy.symm.trans hy')
    exact .inr hsync
  | trans h₁ h₂ =>
    -- nothing lies between them
    have h₁ := h₁.lt
    have h₂ := h₂.lt
    omega

end HappensBefore

end Threads

end Rushit
