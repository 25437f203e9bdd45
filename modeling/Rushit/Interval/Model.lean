import Mathlib.Algebra.Order.Floor.Ring
import Mathlib.Data.Rat.Floor
import Mathlib.Tactic.FieldSimp
import Mathlib.Tactic.Ring
import Rushit.Common.Run
/-!
# When a sample is due

`interval.c`, with the nanoseconds as they are stored and the seconds as
rational numbers, so that the arithmetic on them is exact. The threads
share `time_start`, which one of them sets in the critical section of
`ensure_initialized`; what else `interval_collect` touches is of its
thread. A call is thus three steps, which those of other threads may come
between: the clock is read, the critical section is passed, and the rest
is done.
-/

namespace Rushit

namespace Interval

/-- `struct timespec` -/
structure Time where
  sec : ℤ
  nsec : ℤ
  deriving DecidableEq

/-- `set_uninitialized` -/
def uninitialized : Time := ⟨0, 0⟩

/-- `is_uninitialized` -/
def isUninitialized (ts : Time) : Bool := ts.sec = 0 ∧ ts.nsec = 0

/-- `seconds_between` -/
def secondsBetween (a b : Time) : ℚ :=
  ((b.sec - a.sec : ℤ) : ℚ) + ((b.nsec - a.nsec : ℤ) : ℚ) / 1000000000

/-- `to_seconds` -/
def toSeconds (a : Time) : ℚ := a.sec + a.nsec / 1000000000

/-- The integer part, toward zero, which `modf` and the conversion to an
integer take. -/
def intPart (x : ℚ) : ℤ := if 0 ≤ x then ⌊x⌋ else ⌈x⌉

/-- `get_next_time`, of `last_time` -/
def getNextTime (seconds duration : ℚ) (lastTime : Time) : Time :=
  let newTime := toSeconds lastTime + ⌊duration / seconds⌋ * seconds
  let fracPart := newTime - intPart newTime
  ⟨intPart newTime, intPart (fracPart * 1000000000)⟩

/-- The critical section of `ensure_initialized`: `time_start` after
it. -/
def setTimeStart (now lastTime timeStart : Time) : Time :=
  if isUninitialized lastTime then
    if isUninitialized timeStart then now else timeStart
  else timeStart

/-- The rest of `ensure_initialized`: `last_time` after it. -/
def setLastTime (timeStart lastTime : Time) : Time :=
  if isUninitialized lastTime then timeStart else lastTime

/-- The rest of `interval_collect`: whether `add_sample` is called, and
`last_time`. -/
def collect (seconds : ℚ) (now lastTime : Time) : Bool × Time :=
  let duration := secondsBetween lastTime now
  if duration < seconds then (false, lastTime)
  else (true, getNextTime seconds duration lastTime)

/-! ## The threads -/

/-- How far a thread is with `interval_collect`, for one of its flows. -/
inductive Stage
  | idle
  | clockRead (flow : ℕ) (now : Time)
  | started (flow : ℕ) (now : Time)

/-- A thread with its flows: the `last_time` of each, and the timestamps
of its samples, the last one first. -/
structure Thread where
  stage : Stage
  lastTime : ℕ → Option Time
  samples : ℕ → List Time
  /-- The last reading of the clock. -/
  clock : Time

structure State where
  timeStart : Time
  threads : ℕ → Thread

/-- Before any thread has a flow. -/
def start : State := ⟨uninitialized, fun _ => ⟨.idle, fun _ => none, fun _ => [], uninitialized⟩⟩

inductive Label
  /-- `interval_create`, for a new flow. -/
  | create (thread flow : ℕ)
  /-- `interval_collect` reads the clock. -/
  | clockGettime (thread flow : ℕ) (now : Time)
  /-- It passes the critical section. -/
  | ensureInitialized (thread : ℕ)
  /-- It does the rest. -/
  | collect (thread : ℕ)

/-- Whole nanoseconds. -/
def Time.ns (ts : Time) : ℤ := ts.sec * 1000000000 + ts.nsec

/-- A positive time, normalised. -/
structure Time.Valid (ts : Time) : Prop where
  nonneg : 0 ≤ ts.nsec
  lt : ts.nsec < 1000000000
  pos : 0 < ts.ns

def State.setThread (s : State) (i : ℕ) (t : Thread) : State :=
  { s with threads := Function.update s.threads i t }

/-- **One step** of a thread. The readings of the clock are positive, and
do not decrease on a thread. -/
def step (seconds : ℚ) (s : State) (l : Label) (s' : State) : Prop :=
  match l with
  | .create i flow => (s.threads i).lastTime flow = none ∧
      s' = s.setThread i { s.threads i with
        lastTime := Function.update (s.threads i).lastTime flow (some uninitialized) }
  | .clockGettime i flow now => (s.threads i).stage = .idle ∧
      (∃ lastTime, (s.threads i).lastTime flow = some lastTime) ∧
      now.Valid ∧ (s.threads i).clock.ns ≤ now.ns ∧
      s' = s.setThread i { s.threads i with stage := .clockRead flow now, clock := now }
  | .ensureInitialized i => ∃ flow now lastTime, (s.threads i).stage = .clockRead flow now ∧
      (s.threads i).lastTime flow = some lastTime ∧
      s' = { s.setThread i { s.threads i with stage := .started flow now } with
        timeStart := setTimeStart now lastTime s.timeStart }
  | .collect i => ∃ flow now lastTime, (s.threads i).stage = .started flow now ∧
      (s.threads i).lastTime flow = some lastTime ∧
      ∃ r, r = collect seconds now (setLastTime s.timeStart lastTime) ∧
        s' = s.setThread i { s.threads i with
          stage := .idle
          lastTime := Function.update (s.threads i).lastTime flow (some r.2)
          samples := if r.1 then
            Function.update (s.threads i).samples flow (now :: (s.threads i).samples flow)
            else (s.threads i).samples }

end Interval

end Rushit
