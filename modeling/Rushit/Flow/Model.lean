import Rushit.Common.Ram
import Rushit.TcpRr.Worker
/-!
# Flows in memory

`flow.c`, and what `interval.c` and `sample.c` do to a flow, on the
objects that `malloc` hands out: a `struct flow` has pointers to its
interval and to its list of latencies, which go to a sample with
`add_sample` and are freed by `delflow`. epoll has the address of the
flow beside its descriptor, and hands it back with each event.

A list of latencies is one object here; the blocks it has are those of
`Rushit.Numlist.Memory`. `rusage` is left out, and so are failures of
`malloc` and of `epoll_ctl` that end the process.
-/

namespace Rushit

namespace Flow

open Ram (Fault Malloc deref)
open TcpRr (Events)

/-- `struct flow`. `addflow_lite` leaves the pointers null. -/
structure FlowObject where
  fd : ℕ
  id : ℕ
  bytesRead : ℤ
  bytesToRead : ℤ
  bytesToWrite : ℤ
  transactions : ℕ
  writeTime : Timespec
  latency : Option ℕ
  itv : Option ℕ

/-- `struct sample` -/
structure SampleObject where
  tid : ℤ
  flowId : ℕ
  bytesRead : ℤ
  transactions : ℕ
  latency : Option ℕ
  timestamp : Timespec
  next : Option ℕ

/-- What is allocated for flows. Of a `struct interval` there is its
`last_time` in seconds. -/
inductive Object
  | flow (f : FlowObject)
  | interval (lastTime : ℚ)
  | numlist (l : Numlist ℚ)
  | sample (s : SampleObject)

namespace Object

def flow? : Object → Option FlowObject
  | .flow f => some f
  | _ => none

def interval? : Object → Option ℚ
  | .interval lastTime => some lastTime
  | _ => none

def numlist? : Object → Option (Numlist ℚ)
  | .numlist l => some l
  | _ => none

def sample? : Object → Option SampleObject
  | .sample s => some s
  | _ => none

end Object

/-- A descriptor that epoll watches, with `data.ptr`. -/
structure Interest where
  fd : ℕ
  ptr : ℕ
  events : Events
  deriving DecidableEq

/-- What the handlers of a thread read and write: the memory, the
interest list of its epoll descriptor, its `transactions` and `samples`,
and `*time_start`, which is 0 until it is initialised. -/
structure State where
  ram : Ram Object
  epoll : List Interest
  transactions : ℕ
  samples : Option ℕ
  timeStart : ℚ

namespace State

/-- A new object, and its address. -/
def malloc (al : Malloc Object) (o : Object) (s : State) : ℕ × State :=
  let (a, ram) := Ram.malloc al o s.ram
  (a, { s with ram := ram })

/-- An object is overwritten. -/
def put (a : ℕ) (o : Object) (s : State) : Except Fault State := do
  let ram ← s.ram.write a o
  pure { s with ram := ram }

def free (a : ℕ) (s : State) : Except Fault State := do
  let ram ← s.ram.free a
  pure { s with ram := ram }

/-- The flow at an address. -/
def flow (p : ℕ) (s : State) : Except Fault FlowObject := s.ram.read Object.flow? p

/-- Fields of a flow are assigned. -/
def update (p : ℕ) (f : FlowObject → FlowObject) (s : State) : Except Fault State := do
  let flow ← s.flow p
  s.put p (.flow (f flow))

/-! ## `flow.c` -/

/-- `epoll_ctl` with `EPOLL_CTL_ADD` -/
def epollAdd (fd p : ℕ) (events : Events) (s : State) : State :=
  { s with epoll := ⟨fd, p, events⟩ :: s.epoll }

/-- `epoll_ctl` with `EPOLL_CTL_MOD`, for the flow at `p`. -/
def epollMod (p : ℕ) (events : Events) (s : State) : Except Fault State := do
  let flow ← s.flow p
  pure { s with
    epoll := s.epoll.map fun e => if e.fd = flow.fd then ⟨flow.fd, p, events⟩ else e }

/-- A flow as `calloc` leaves it, with its descriptor. -/
def blank (fd : ℕ) : FlowObject := ⟨fd, 0, 0, 0, 0, 0, .atSecond 0, none, none⟩

/-- `addflow_lite` -/
def addflowLite (al : Malloc Object) (fd : ℕ) (events : Events) (s : State) : ℕ × State :=
  let (p, s) := s.malloc al (.flow (blank fd))
  (p, s.epollAdd fd p events)

/-- `addflow` -/
def addflow (al : Malloc Object) (fd flowId : ℕ) (events : Events) (s : State) :
    Except Fault (ℕ × State) := do
  let (p, s) := s.malloc al (.flow (blank fd))
  -- `numlist_create`
  let (q, s) := s.malloc al (.numlist .create)
  let s ← s.update p fun flow => { flow with id := flowId, latency := some q }
  pure (p, s.epollAdd fd p { events with epollrdhup := true })

/-- `interval_destroy` -/
def intervalDestroy (itv : Option ℕ) (s : State) : Except Fault State :=
  match itv with
  | none => pure s
  | some r => s.free r

/-- `numlist_destroy`: the list is looked at before it is freed. -/
def numlistDestroy (latency : Option ℕ) (s : State) : Except Fault State := do
  let q ← deref latency
  let _ ← s.ram.read Object.numlist? q
  s.free q

/-- `numlist_add` -/
def numlistAdd (lst : Option ℕ) (val : ℚ) (s : State) : Except Fault State := do
  let q ← deref lst
  let l ← s.ram.read Object.numlist? q
  s.put q (.numlist (l.add val))

/-- `delflow` -/
def delflow (p : ℕ) (s : State) : Except Fault State := do
  let flow ← s.flow p
  let s ← s.intervalDestroy flow.itv
  let s ← s.numlistDestroy flow.latency
  -- `epoll_del_or_err` and `do_close`
  let flow ← s.flow p
  let s := { s with epoll := s.epoll.filter fun e => e.fd ≠ flow.fd }
  s.free p

/-! ## `sample.c` and `interval.c` -/

/-- `add_sample`: the latencies go to the sample, and the flow gets a new
list. -/
def addSample (al : Malloc Object) (tid : ℕ) (ts : Timespec) (p : ℕ) (s : State) :
    Except Fault State := do
  let flow ← s.flow p
  let (a, s) := s.malloc al (.sample ⟨tid, flow.id, flow.bytesRead, flow.transactions,
    flow.latency, ts, s.samples⟩)
  let (q, s) := s.malloc al (.numlist .create)
  let s ← s.update p fun flow => { flow with latency := some q }
  pure { s with samples := some a }

/-- `ensure_initialized` -/
def ensureInitialized (now : Timespec) (r : ℕ) (s : State) : Except Fault State := do
  let lastTime ← s.ram.read Object.interval? r
  if lastTime = 0 then
    let timeStart := if s.timeStart = 0 then now.seconds else s.timeStart
    { s with timeStart := timeStart }.put r (.interval timeStart)
  else pure s

/-- `get_next_time` -/
def getNextTime (seconds duration : ℚ) (r : ℕ) (s : State) : Except Fault State := do
  let lastTime ← s.ram.read Object.interval? r
  s.put r (.interval (lastTime + ⌊duration / seconds⌋ * seconds))

/-- `interval_collect`, in exact arithmetic -/
def intervalCollect (al : Malloc Object) (seconds : ℚ) (tid : ℕ) (now : Timespec) (p : ℕ)
    (s : State) : Except Fault State := do
  let flow ← s.flow p
  let r ← deref flow.itv
  let s ← s.ensureInitialized now r
  let lastTime ← s.ram.read Object.interval? r
  let duration := now.seconds - lastTime
  if duration < seconds then pure s
  else
    let s ← s.addSample al tid now p
    s.getNextTime seconds duration r

/-- The loop of `free_samples`. -/
def freeSamples : ℕ → Option ℕ → Ram Object → Except Fault (Ram Object)
  | _, none, m => pure m
  -- out of fuel, which the number of objects rules out
  | 0, some _, _ => .error .dead
  | fuel + 1, some a, m => do
    let sample ← m.read Object.sample? a
    let q ← deref sample.latency
    let _ ← m.read Object.numlist? q
    let m ← m.free q
    let sample ← m.read Object.sample? a
    let m ← m.free a
    freeSamples fuel sample.next m

end State

end Flow

end Rushit
