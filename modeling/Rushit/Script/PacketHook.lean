import Mathlib.Algebra.Group.Nat.Defs
import Mathlib.Data.Int.Notation
import Mathlib.Data.Nat.Notation
import Mathlib.Order.Basic
/-!
# Packet hooks

`do_write`, `do_read` and `do_readerr` of `common.c` call a packet hook
in place of the system call where one is registered. What the hook
returns goes through `call_hook`, which makes an `int` of it; a negative
one is taken for a negated error number. A hook that only makes the
system call and passes its result up is not told apart from none where
the call succeeds, and is where it fails (`transparent_iff`).
-/

namespace Rushit

namespace Script

/-- `EHOOKEMPTY`: there is no hook. -/
def ehookempty : ℤ := 256

/-- `EHOOKRETVAL`: the hook did not return a number. -/
def ehookretval : ℤ := 257

def eperm : ℤ := 1

def eagain : ℤ := 11

/-- `MSG_ERRQUEUE` -/
def msgErrqueue : ℕ := 0x2000

/-- The most that a `read`, a `write` or a call like them transfers. -/
def maxRwCount : ℕ := 0x7ffff000

/-- What comes of a system call: the bytes transferred, or an error
number. -/
inductive Outcome
  | count (n : ℕ) (le : n ≤ maxRwCount)
  | failed (errno : ℤ) (pos : 0 < errno)

/-- A returned value, and `errno` after the call. -/
structure Ret where
  value : ℤ
  errno : ℤ
  deriving DecidableEq

/-- How a system call returns. It leaves `errno` alone where it
succeeds. -/
def Outcome.ret : Outcome → ℤ → Ret
  | .count n _, errno => ⟨n, errno⟩
  | .failed e _, _ => ⟨-1, e⟩

/-- What a hook returns to `call_hook`. -/
inductive LuaResult
  | number (n : ℤ)
  /-- Anything that is not a number: `lua_isnumber` fails. -/
  | other

/-- A registered hook: from its `flags` argument and `errno` to what it
returns, and `errno` after it. -/
abbrev Hook := ℕ → ℤ → LuaResult × ℤ

/-- The conversion to the 32 bits of an `int`. -/
def toInt (n : ℤ) : ℤ := n.bmod (2 ^ 32)

/-- `call_hook`, after the call -/
def callHook : LuaResult → ℤ
  | .number n => toInt n
  | .other => -ehookretval

/-- `run_packet_hook`: the result, and `errno` after it. -/
def runPacketHook (hook : Option Hook) (flags : ℕ) (errno : ℤ) : ℤ × ℤ :=
  match hook with
  | none => (-ehookempty, errno)
  | some hook => (callHook (hook flags errno).1, (hook flags errno).2)

/-- What the three wrappers make of the result `n` of the hook: `plain`
is the system call each of them makes where there is no hook. -/
def orPlain (n errno : ℤ) (plain : ℤ → Ret) : Ret :=
  -- any other negative result is a negated error number, and `errno` is an `int`
  let r := if n = -ehookempty then plain errno else if n < 0 then ⟨n, toInt (-n)⟩ else ⟨n, errno⟩
  ⟨if r.value < 0 then -1 else r.value, r.errno⟩

/-- The system calls of the wrappers. -/
inductive Syscall
  | write
  | read
  | recv (flags : ℕ)

variable (sys : Syscall → Outcome) (hook : Option Hook) (flags : ℕ) (errno : ℤ)

/-- `do_write`; `sys` is what comes of each system call. -/
def doWrite : Ret :=
  let (n, errno) := runPacketHook hook flags errno
  orPlain n errno (sys .write).ret

/-- `do_read` -/
def doRead : Ret :=
  let (n, errno) := runPacketHook hook flags errno
  orPlain n errno (sys .read).ret

/-- `do_readerr` -/
def doReaderr : Ret :=
  let flags := flags ||| msgErrqueue
  let (n, errno) := runPacketHook hook flags errno
  orPlain n errno (sys (.recv flags)).ret

/-! ## Hooks that pass the result up -/

/-- How a hook passes a failure up: as -1, or as the nil that a call of
`ljsyscall` returns first. -/
inductive PassUp
  | minusOne
  | luaNil

def PassUp.result : PassUp → Outcome → LuaResult
  | _, .count n _ => .number n
  | .minusOne, .failed _ _ => .number (-1)
  | .luaNil, .failed _ _ => .other

/-- A hook that makes the system call `call` and passes its result up. -/
def passThrough (p : PassUp) (call : ℕ → Outcome) : Hook := fun flags errno =>
  (p.result (call flags), ((call flags).ret errno).errno)

/-- The error numbers that such a hook does not lose. -/
def PassUp.Keeps : PassUp → Outcome → Prop
  | _, .count _ _ => True
  | .minusOne, .failed errno _ => errno = eperm
  | .luaNil, .failed errno _ => errno = ehookretval

variable {sys flags errno} {p : PassUp} {o : Outcome}

/-- A byte count fits an `int`. -/
theorem toInt_count {n : ℕ} (h : n ≤ maxRwCount) : toInt n = n := by
  have hn : n ≤ 2147479552 := h
  rw [toInt, Int.bmod_eq_of_le] <;> omega

/-- A hook's byte count is returned. -/
theorem orPlain_of_nonneg {n : ℤ} {plain : ℤ → Ret} (h : 0 ≤ n) :
    orPlain n errno plain = ⟨n, errno⟩ := by
  have hne : n ≠ -ehookempty := by unfold ehookempty; omega
  simp [orPlain, hne, Int.not_lt.mpr h]

/-- Any other result of a hook is an error number. -/
theorem orPlain_of_neg {n : ℤ} {plain : ℤ → Ret} (h : n < 0) (hne : n ≠ -ehookempty) :
    orPlain n errno plain = ⟨-1, toInt (-n)⟩ := by
  simp [orPlain, hne, h]

/-- Without a hook the system call decides. -/
theorem orPlain_empty (o : Outcome) (errno : ℤ) :
    orPlain (-ehookempty) errno o.ret = o.ret errno := by
  cases o <;> simp [orPlain, Outcome.ret]

/-- **One wrapper**: with the hook it does as without just if the hook
keeps the error number. -/
theorem orPlain_passThrough_iff :
    orPlain (callHook (p.result o)) (o.ret errno).errno o.ret =
        orPlain (-ehookempty) errno o.ret ↔ p.Keeps o := by
  rw [orPlain_empty]
  cases o with
  | count n le =>
    have hcount : callHook (p.result (.count n le)) = n := toInt_count le
    rw [hcount, orPlain_of_nonneg (by omega)]
    simp [Outcome.ret, PassUp.Keeps]
  | failed e pos =>
    cases p with
    | minusOne =>
      have hres : callHook (PassUp.result .minusOne (.failed e pos)) = -eperm := rfl
      have herrno : toInt (- -eperm) = eperm := by decide
      rw [hres, orPlain_of_neg (by decide) (by decide), herrno]
      simp [Outcome.ret, PassUp.Keeps, eq_comm]
    | luaNil =>
      have hres : callHook (PassUp.result .luaNil (.failed e pos)) = -ehookretval := rfl
      have herrno : toInt (- -ehookretval) = ehookretval := by decide
      rw [hres, orPlain_of_neg (by decide) (by decide), herrno]
      simp [Outcome.ret, PassUp.Keeps, eq_comm]

/-- **When a pass-through hook is transparent.** With a hook that makes
the same system call and passes its result up each wrapper returns the
same value and leaves the same `errno` as without one, just if the call
succeeds, or fails with the error number that the wrapper makes of the
failure that is passed up. -/
theorem transparent_iff (sys : Syscall → Outcome) (p : PassUp) (flags : ℕ) (errno : ℤ) :
    (doWrite sys (some (passThrough p fun _ => sys .write)) flags errno =
      doWrite sys none flags errno ↔ p.Keeps (sys .write)) ∧
    (doRead sys (some (passThrough p fun _ => sys .read)) flags errno =
      doRead sys none flags errno ↔ p.Keeps (sys .read)) ∧
    (doReaderr sys (some (passThrough p fun f => sys (.recv f))) flags errno =
      doReaderr sys none flags errno ↔ p.Keeps (sys (.recv (flags ||| msgErrqueue)))) :=
  ⟨orPlain_passThrough_iff, orPlain_passThrough_iff, orPlain_passThrough_iff⟩

/-- Calls that would block: the error number is `EAGAIN` without a hook,
and another one with either kind of hook. -/
theorem eagain_lost :
    let sys := fun _ => Outcome.failed eagain (by decide)
    ∀ p, doWrite sys (some (passThrough p fun _ => sys .write)) 0 0 ≠ doWrite sys none 0 0 ∧
      doRead sys (some (passThrough p fun _ => sys .read)) 0 0 ≠ doRead sys none 0 0 ∧
      doReaderr sys (some (passThrough p fun f => sys (.recv f))) 0 0 ≠
        doReaderr sys none 0 0 := by
  intro sys p
  cases p <;> decide

end Script

end Rushit
