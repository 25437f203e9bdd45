import Mathlib.Data.List.FinRange
import Mathlib.Logic.Function.Basic
import Rushit.Common.Strtol
/-!
# The flag for the percentiles

`parse_percentiles` of `percentiles.c` reads the percentiles to report
from an argument: numbers, with one character after each that is not
looked at. It ends with the string, or where there is no number, and ends
the program at a number that is no percentile; it reads nothing past the
NUL and writes nothing past `chosen` (`parse_safe`). `print_percentiles`
prints those that are chosen, separated by commas.
-/

namespace Rushit

namespace Percentiles

open CString

/-- `struct percentiles` -/
abbrev Chosen := Fin 101 → Bool

inductive Outcome
  /-- The loop has not ended yet. -/
  | running
  /-- It has, with the texts that are logged on the way. -/
  | done (chosen : Chosen) (logged : List String)
  /-- The program ends with a text. -/
  | fatal (text : String)
  /-- A read past the NUL, or a write past `chosen`. -/
  | fault

/-- What a turn of the loop leads to. -/
inductive Turn
  | stop (o : Outcome)
  | next (arg : List UInt8) (chosen : Chosen) (logged : List String)

section Parse

variable (strerror : ℤ → String)

/-- The loop body of `parse_percentiles`. -/
def parseTurn (arg : List UInt8) (chosen : Chosen) (logged : List String) : Turn :=
  match strtol arg with
  | none => .stop .fault
  | some r =>
    if r.errno = erange ∧ (r.val = longMax ∨ r.val = longMin) ∨ r.errno ≠ 0 ∧ r.val = 0 then
      .stop (.fatal ("strtol: " ++ strerror r.errno))
    -- of one string, so that pointers with one rest are one pointer
    else if r.endptr = arg then .stop (.done chosen logged)
    else if r.val < 0 ∨ 100 < r.val then
      .stop (.fatal (toString r.val ++ " percentile doesn't exist"))
    else if h : r.val.toNat < 101 then
      let chosen := Function.update chosen ⟨r.val.toNat, h⟩ true
      let logged := logged ++ [toString r.val ++ " percentile is chosen"]
      match r.endptr with
      | [] => .stop .fault
      | c :: arg => if c = 0 then .stop (.done chosen logged) else .next arg chosen logged
    else .stop .fault

/-- The loop, for as many turns as there is fuel. -/
def parse : ℕ → List UInt8 → Chosen → List String → Outcome
  | 0, _, _, _ => .running
  | fuel + 1, arg, chosen, logged =>
    match parseTurn strerror arg chosen logged with
    | .stop o => o
    | .next arg chosen logged => parse fuel arg chosen logged

/-- `parse_percentiles`; `arg` is the string with its NUL. -/
def parsePercentiles (arg : List UInt8) (chosen : Chosen) : Outcome :=
  parse strerror arg.length arg chosen []

end Parse

def comma : UInt8 := ','.toUInt8

/-- The size of `buf`. -/
def bufSize : ℕ := 10

/-- The size of `s`. -/
def textSize : ℕ := 400

/-- The loop body of `print_percentiles`: the string in `s` after it.
None where it, or what is printed into `buf`, does not fit. -/
def printStep (chosen : Chosen) (s : List UInt8) (i : Fin 101) : Option (List UInt8) :=
  if chosen i then
    let buf := decimal i ++ [comma]
    if bufSize < buf.length + 1 then none
    else if textSize < s.length + buf.length + 1 then none
    else some (s ++ buf)
  else some s

/-- `print_percentiles`: the text that it prints. -/
def printPercentiles (chosen : Chosen) : Option (List UInt8) :=
  ((List.finRange 101).foldlM (printStep chosen) []).map fun s =>
    -- the last comma is taken away again
    if 0 < s.length then s.dropLast else s

/-! ## Any argument -/

variable {arg : List UInt8}

/-- The loop has ended, and all that it read and wrote was there. -/
def Outcome.Safe : Outcome → Prop
  | .running => False
  | .done _ _ => True
  | .fatal _ => True
  | .fault => False

/-- **One turn**: the loop ends, or it goes on further in the string. -/
theorem parseTurn_within (strerror : ℤ → String) (h : Within arg) (chosen : Chosen)
    (logged : List String) :
    (∃ o : Outcome, o.Safe ∧ parseTurn strerror arg chosen logged = .stop o) ∨
      ∃ arg' chosen' logged', Within arg' ∧ arg'.length < arg.length ∧
        parseTurn strerror arg chosen logged = .next arg' chosen' logged' := by
  obtain ⟨r, hr, hwithin, hmoved⟩ := strtol_within h
  unfold parseTurn
  rw [hr]
  dsimp only
  split_ifs with herror hend hrange hindex
  · exact .inl ⟨.fatal _, trivial, rfl⟩
  · exact .inl ⟨.done chosen logged, trivial, rfl⟩
  · exact .inl ⟨.fatal _, trivial, rfl⟩
  · have hlt : r.endptr.length < arg.length := hmoved.resolve_left hend
    cases hptr : r.endptr with
    | nil =>
      rw [hptr] at hwithin
      cases hwithin
    | cons c next =>
      rw [hptr] at hwithin hlt
      dsimp only
      split_ifs with hnul
      · exact .inl ⟨.done _ _, trivial, rfl⟩
      · refine .inr ⟨next, _, _, ?_, Nat.lt_of_succ_lt hlt, rfl⟩
        cases hwithin with
        | nul => exact absurd rfl hnul
        | cons _ hnext => exact hnext
  · -- a percentile is an index of `chosen`
    omega

/-- **Every run of the loop** ends, within the length of the string. -/
theorem parse_ends (strerror : ℤ → String) (h : Within arg) (chosen : Chosen)
    (logged : List String) :
    ∃ r : Outcome, r.Safe ∧ ∀ fuel ≥ arg.length, parse strerror fuel arg chosen logged = r := by
  induction hlen : arg.length using Nat.strong_induction_on generalizing arg chosen logged with
  | _ n ih =>
    subst hlen
    have hpos : 0 < arg.length := by
      cases h <;> exact Nat.succ_pos _
    rcases parseTurn_within strerror h chosen logged with
      ⟨o, hsafe, hstop⟩ | ⟨arg', chosen', logged', hwithin, hlt, hnext⟩
    · refine ⟨o, hsafe, fun fuel hfuel => ?_⟩
      obtain ⟨fuel, rfl⟩ := Nat.exists_eq_add_one.mpr (hpos.trans_le hfuel)
      rw [parse, hstop]
    · obtain ⟨r, hsafe, hr⟩ := ih arg'.length hlt hwithin chosen' logged' rfl
      refine ⟨r, hsafe, fun fuel hfuel => ?_⟩
      obtain ⟨fuel, rfl⟩ := Nat.exists_eq_add_one.mpr (hpos.trans_le hfuel)
      rw [parse, hnext]
      exact hr fuel (by omega)

/-- **Any argument is parsed safely**: the loop ends, after no more turns
than the string has characters, and without a read past its NUL or a
write past `chosen`. -/
theorem parse_safe (strerror : ℤ → String) (arg : CStr UInt8) (chosen : Chosen) :
    (parsePercentiles strerror arg.inMemory chosen).Safe ∧
      ∀ fuel ≥ arg.inMemory.length, parse strerror fuel arg.inMemory chosen [] =
        parsePercentiles strerror arg.inMemory chosen := by
  obtain ⟨r, hsafe, hr⟩ := parse_ends strerror arg.within chosen []
  have hparse : parsePercentiles strerror arg.inMemory chosen = r := hr _ le_rfl
  rw [hparse]
  exact ⟨hsafe, hr⟩

end Percentiles

end Rushit
