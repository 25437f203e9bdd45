import Mathlib.Data.Nat.Notation
import Mathlib.Logic.Function.Basic
import Rushit.Common.HappensBefore
import Rushit.Common.Run
/-!
# The threads

`run_main_thread` of `thread.c` with `run_worker_threads`, the script
that may be run around it (`run_script` and `run_cb` of `script.c`), and
the worker threads: what each of them does to the memory they share.

The main thread makes its calls in the order of the program. Which calls
the script makes is given beforehand; it may call `run` any number of
times. A worker is somewhere in `run_client` or `run_server`; the hooks
it fires, the samples it takes and when it looks at `time_start` are up
to it. `LOG_FATAL` by any thread ends the process (`exit`), a script that
fails included. A dry run, which does nothing, is left out.
-/

namespace Rushit

namespace Thread

/-- What more than one thread gets to see. -/
inductive Resource
  /-- `struct script_engine`, with its Lua state and the hooks. -/
  | engine
  /-- `t[w].script_slave` -/
  | slave (w : ℕ)
  /-- `t[w].samples` -/
  | samples (w : ℕ)
  | timeStart
  | rusageStart
  deriving DecidableEq

inductive Access
  | read
  | write
  deriving DecidableEq

/-! ## The main thread -/

/-- The calls of the main thread. -/
inductive Call
  | scriptEngineCreate
  | controlPlaneStart
  /-- The loop body of `create_worker_threads`. -/
  | createWorker (w : ℕ)
  /-- The script runs, but for `run`. -/
  | lua
  | emptyCollectors
  /-- `script_engine_push_data`, which does nothing. -/
  | pushData (w : ℕ)
  | pthreadCreate (w : ℕ)
  /-- The main thread gets to `pthread_barrier_wait`. -/
  | barrierArrive
  /-- `pthread_barrier_wait` returns. -/
  | barrierReturn
  | getrusageStart
  | waitUntilDone
  | getrusageEnd
  | eventfdWrite (w : ℕ)
  | pthreadJoin (w : ℕ)
  /-- `script_engine_pull_data` -/
  | pullData (w : ℕ)
  | controlPlaneStop
  | reportRusage
  | reportStats
  /-- The loop body of `free_worker_threads`. -/
  | freeWorker (w : ℕ)
  | scriptEngineDestroy
  deriving DecidableEq

/-- How a call of the main thread uses what is shared. -/
def Call.uses : Call → Resource → Option Access
  | .scriptEngineCreate, .engine => some .write
  | .createWorker _, .engine => some .read
  | .createWorker w, .slave v => if v = w then some .write else none
  | .createWorker w, .samples v => if v = w then some .write else none
  | .lua, .engine => some .write
  | .emptyCollectors, .engine => some .write
  | .getrusageStart, .rusageStart => some .write
  | .pullData _, .engine => some .write
  | .pullData w, .slave v => if v = w then some .write else none
  | .reportRusage, .timeStart => some .read
  | .reportRusage, .rusageStart => some .read
  -- `report_latency` moves the latencies of the samples to one list
  | .reportStats, .samples _ => some .write
  | .freeWorker w, .slave v => if v = w then some .write else none
  | .freeWorker w, .samples v => if v = w then some .write else none
  | .scriptEngineDestroy, .engine => some .write
  | _, _ => none

/-- The same call for every thread, in order. -/
def forThreads (n : ℕ) (call : ℕ → Call) : List Call := (List.range n).map call

/-- `run_worker_threads` for `n` threads. -/
def runWorkerThreads (n : ℕ) : List Call :=
  forThreads n .pushData ++ (forThreads n .pthreadCreate ++
    (.barrierArrive :: .barrierReturn :: .getrusageStart :: .waitUntilDone :: .getrusageEnd ::
      (forThreads n .eventfdWrite ++ (forThreads n .pthreadJoin ++ forThreads n .pullData))))

/-- What a script does. -/
inductive ScriptAction
  /-- Anything but calling `run`. -/
  | lua
  | run
  deriving DecidableEq

/-- `run_cb`, where `runFunc` is whether `run_func` is still to be run. -/
def runCb (n : ℕ) (runFunc : Bool) : List Call :=
  if runFunc then .emptyCollectors :: runWorkerThreads n else []

/-- `run_script`: after the script `run_cb` is called once more. -/
def runScript (n : ℕ) (runFunc : Bool) : List ScriptAction → List Call
  | [] => runCb n runFunc
  | .lua :: script => .lua :: runScript n runFunc script
  | .run :: script => runCb n runFunc ++ runScript n false script

/-- The options that `run_main_thread` reads. -/
structure Options where
  numThreads : ℕ
  script : Option (List ScriptAction)

/-- With a script the threads are run from it. -/
def runThreads (opts : Options) : List Call :=
  match opts.script with
  | some script => runScript opts.numThreads true script
  | none => runWorkerThreads opts.numThreads

/-- `run_main_thread` -/
def runMainThread (opts : Options) : List Call :=
  .scriptEngineCreate :: .controlPlaneStart :: (forThreads opts.numThreads .createWorker ++
    (runThreads opts ++ (.controlPlaneStop :: .reportRusage :: .reportStats ::
      (forThreads opts.numThreads .freeWorker ++ [.scriptEngineDestroy]))))

/-! ## The workers -/

/-- What a worker does. -/
inductive Action
  /-- A hook is loaded and called. -/
  | hook
  | barrierArrive
  | barrierReturn
  /-- `ensure_initialized` has the mutex; `writes` is whether `time_start`
  is uninitialized. -/
  | lock (writes : Bool)
  /-- `ensure_initialized` reads `time_start` after it has given the mutex
  back. -/
  | readTimeStart
  | addSample
  /-- The stop event is handled. -/
  | stop
  /-- The thread returns. -/
  | leave
  deriving DecidableEq

/-- How the action of a worker uses what is shared. -/
def Action.uses (w : ℕ) : Action → Resource → Option Access
  | .hook, .engine => some .read
  | .hook, .slave v => if v = w then some .write else none
  | .lock writes, .timeStart => some (if writes then .write else .read)
  | .lock writes, .rusageStart => if writes then some .write else none
  | .readTimeStart, .timeStart => some .read
  | .addSample, .samples v => if v = w then some .write else none
  | _, _ => none

/-- How far a worker is. -/
inductive Phase
  | absent
  /-- Up to `pthread_barrier_wait`. -/
  | setup
  /-- In `pthread_barrier_wait`. -/
  | arrived
  /-- The loop around `process_events`. -/
  | running
  /-- In the loop, with `time_start` to be read. -/
  | unlocked
  /-- After the loop. -/
  | closing
  | returned
  | joined
  deriving DecidableEq

/-! ## All threads together -/

structure State where
  /-- The calls that the main thread still has to make. -/
  main : List Call
  worker : ℕ → Phase
  /-- The threads that got to the barrier. -/
  arrived : ℕ
  /-- The stop events that were written. -/
  told : ℕ → Bool
  /-- `time_start` is initialized. -/
  initialized : Bool
  exited : Bool

def State.start (opts : Options) : State :=
  ⟨runMainThread opts, fun _ => .absent, 0, fun _ => false, false, false⟩

inductive Label
  | main (c : Call)
  | worker (w : ℕ) (a : Action)
  | exit
  deriving DecidableEq

namespace State

/-- Worker `w` is in phase `p` now. -/
def setWorker (s : State) (w : ℕ) (p : Phase) : State :=
  { s with worker := Function.update s.worker w p }

/-- Whether the main thread can make a call: the barrier is for `n`
workers and the main thread, and `pthread_join` waits for the worker. -/
def CanCall (n : ℕ) (s : State) : Call → Prop
  | .barrierReturn => s.arrived = n + 1
  | .pthreadJoin w => s.worker w = .returned
  | _ => True

/-- What a call of the main thread does. -/
def call (s : State) : Call → State
  | .pthreadCreate w => s.setWorker w .setup
  | .barrierArrive => { s with arrived := s.arrived + 1 }
  | .eventfdWrite w => { s with told := Function.update s.told w true }
  | .pthreadJoin w => s.setWorker w .joined
  | _ => s

/-- What an action of worker `w` does, where it is possible. -/
def act (n : ℕ) (s : State) (w : ℕ) (a : Action) : Option State :=
  match s.worker w, a with
  | .setup, .hook => some s
  | .running, .hook => some s
  | .closing, .hook => some s
  | .setup, .barrierArrive => some { s.setWorker w .arrived with arrived := s.arrived + 1 }
  | .arrived, .barrierReturn =>
    if s.arrived = n + 1 then some (s.setWorker w .running) else none
  | .running, .lock writes =>
    if writes = !s.initialized then some { s.setWorker w .unlocked with initialized := true }
    else none
  | .unlocked, .readTimeStart => some (s.setWorker w .running)
  | .running, .addSample => some s
  | .running, .stop => if s.told w then some (s.setWorker w .closing) else none
  | .closing, .leave => some (s.setWorker w .returned)
  | _, _ => none

end State

/-- **One step** of one thread. -/
def step (n : ℕ) (s : State) (l : Label) (s' : State) : Prop :=
  s.exited = false ∧
    match l with
    | .main c => ∃ rest, s.main = c :: rest ∧ s.CanCall n c ∧ s' = { s.call c with main := rest }
    | .worker w a => s.act n w a = some s'
    | .exit => s' = { s with exited := true }

/-! ## Races -/

/-- A worker by its number, and none for the main thread. -/
def Label.agent : Label → Option ℕ
  | .worker w _ => some w
  | _ => none

/-- How a step uses what is shared. -/
def Label.uses : Label → Resource → Option Access
  | .main c => c.uses
  | .worker w a => a.uses w
  | .exit => fun _ => none

/-- What synchronises: `pthread_create`, `pthread_join`, the barrier and
the mutex of `time_start`. -/
inductive Sync : Label → Label → Prop
  | create (w : ℕ) (a : Action) : Sync (.main (.pthreadCreate w)) (.worker w a)
  | join (w : ℕ) (a : Action) : Sync (.worker w a) (.main (.pthreadJoin w))
  | barrierMain (w : ℕ) : Sync (.main .barrierArrive) (.worker w .barrierReturn)
  | barrierWorker (w : ℕ) : Sync (.worker w .barrierArrive) (.main .barrierReturn)
  | barrierWorkers (v w : ℕ) : Sync (.worker v .barrierArrive) (.worker w .barrierReturn)
  | mutex (v w : ℕ) (a b : Bool) : Sync (.worker v (.lock a)) (.worker w (.lock b))

/-- The threads, and how they synchronise. -/
def threads : Threads Label (Option ℕ) := ⟨Label.agent, Sync⟩

/-- Two steps of different threads use the same memory, and not both only
read it. -/
def Conflict (x y : Label) : Prop :=
  x.agent ≠ y.agent ∧ ∃ r a b, x.uses r = some a ∧ y.uses r = some b ∧ (a = .write ∨ b = .write)

end Thread

end Rushit
