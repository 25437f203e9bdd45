import Mathlib.Data.List.TakeWhile
import Mathlib.Data.UInt
/-!
# Strings that end with a NUL

What stands in memory before the first NUL is the string there. A bounded
print stores the first characters of a string and a NUL, and what is
stored is the string exactly where that is shorter than the bound and has
no NUL of its own (`text_bounded_iff`).
-/

namespace Rushit

namespace CString

variable {C : Type*} [DecidableEq C] [Zero C] {memory s rest : List C} {n : ℕ}

/-- The string at the start of `memory`. -/
def text (memory : List C) : List C := memory.takeWhile fun c => !decide (c = 0)

/-- There is a NUL in `memory`. -/
def Terminated (memory : List C) : Prop := 0 ∈ memory

instance (memory : List C) : Decidable (Terminated memory) :=
  inferInstanceAs (Decidable (0 ∈ memory))

/-- What `vsnprintf` and the calls like it store in a buffer of `n`, of
all that there is to print. -/
def bounded (n : ℕ) (s : List C) : List C := s.take (n - 1) ++ [0]

/-- A string, without the NUL that ends it. -/
structure CStr (C : Type*) [Zero C] where
  chars : List C
  no_nul : (0 : C) ∉ chars

/-- The string in memory. -/
def CStr.inMemory (s : CStr C) : List C := s.chars ++ [0]

omit [DecidableEq C] in
theorem terminated_append : Terminated (s ++ 0 :: rest) :=
  List.mem_append_right s List.mem_cons_self

/-- **The string of what is stored** is what was stored, up to its NUL. -/
theorem text_append (hs : 0 ∉ s) : text (s ++ 0 :: rest) = s := by
  have hall : ∀ c ∈ s, (!decide (c = 0)) = true := by
    intro c hc
    have hne : c ≠ 0 := fun h => hs (h ▸ hc)
    simpa using hne
  unfold text
  rw [List.takeWhile_append_of_pos hall, List.takeWhile_cons_of_neg (by simp), List.append_nil]

theorem zero_notMem_text : 0 ∉ text memory := by
  intro h
  have hne := List.mem_takeWhile_imp h
  simp at hne

/-- The string is at the start of the memory. -/
theorem text_getElem? (h : n < (text memory).length) : (text memory)[n]? = memory[n]? := by
  have hprefix : text memory <+: memory := List.takeWhile_prefix _
  rw [List.getElem?_eq_getElem h, hprefix.getElem h]
  exact (List.getElem?_eq_getElem _).symm

/-- A string ends before any NUL. -/
theorem length_text_le_of_nul (h : memory[n]? = some 0) : (text memory).length ≤ n := by
  by_contra hlt
  exact zero_notMem_text (List.mem_of_getElem? ((text_getElem? (by omega)).trans h))

/-- **A bounded print keeps the string** exactly where it has no NUL and
there is room for the one that ends it. -/
theorem text_bounded_iff (hn : 0 < n) : text (bounded n s) = s ↔ 0 ∉ s ∧ s.length < n := by
  constructor
  · intro h
    refine ⟨h ▸ zero_notMem_text, ?_⟩
    -- what is cut off has no NUL either, and so is the string that is read back
    have hcut : 0 ∉ s.take (n - 1) := fun hmem => by
      rw [← h] at hmem
      exact zero_notMem_text (List.mem_of_mem_take hmem)
    have hlen := congrArg List.length ((text_append hcut : text (bounded n s) = _).symm.trans h)
    rw [List.length_take] at hlen
    omega
  · rintro ⟨hs, hlen⟩
    unfold bounded
    rw [List.take_of_length_le (by omega)]
    exact text_append hs

end CString

end Rushit
