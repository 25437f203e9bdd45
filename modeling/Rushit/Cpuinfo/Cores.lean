import Mathlib.Data.Finset.Insert
import Rushit.Common.Fold
import Rushit.Cpuinfo.Model
/-!
# CPU sets of the physical cores

`get_cpuset` and `start_worker_threads` of `thread.c`. The entries that
`get_cpuinfo` returned are put into one CPU set for each pair of physical
id and core id: the pairs met so far stand in two arrays, which are
searched for each entry, and the set has the pair's index. Thread `i` is
pinned to the set `i % n_cores`.
-/

namespace Rushit

namespace Cores

/-- `CPU_SETSIZE`, the CPU numbers a `cpu_set_t` has a bit for. -/
def cpuSetsize : ℕ := 1024

/-- `cpu_set_t`: the CPUs whose bits are set. -/
abbrev CpuSet := Finset ℕ

/-- How the C program can end other than by returning. -/
inductive Fault
  /-- `LOG_FATAL` or `PLOG_FATAL` -/
  | fatal (msg : String)
  /-- An `int` or a set is read that nothing was written to, or an index
  is past the end of its array. -/
  | undefined
  deriving DecidableEq

/-- An array of `CPU_SETSIZE` elements. `none` is an element that nothing
was written to. -/
abbrev Cells (α : Type) := ℕ → Option α

/-- `a[j]` as a value -/
def Cells.read {α : Type} (a : Cells α) (j : ℕ) : Except Fault α :=
  match a j with
  | some x => .ok x
  | none => .error .undefined

/-- `a[j] = x` -/
def Cells.write {α : Type} (a : Cells α) (j : ℕ) (x : α) : Except Fault (Cells α) :=
  if j < cpuSetsize then .ok (Function.update a j (some x)) else .error .undefined

/-- `CPU_ZERO` -/
def cpuZero : CpuSet := ∅

/-- `CPU_SET`, which ignores a number that the set has no bit for. -/
def cpuSet (cpu : ℤ) (set : CpuSet) : CpuSet :=
  if 0 ≤ cpu ∧ cpu < cpuSetsize then insert cpu.toNat set else set

/-- The locals of `get_cpuset`, and the array its caller passed. -/
structure Search where
  cpuset : Cells CpuSet
  numCores : ℕ
  physicalId : Cells ℤ
  coreId : Cells ℤ

/-- The inner loop: the first index that holds the entry's pair, and
`num_cores` when none does. `left` counts the indices still to look at. -/
def Search.find (s : Search) (cpu : Cpuinfo) : (left j : ℕ) → Except Fault ℕ
  | 0, j => .ok j
  | left + 1, j => do
    let p ← s.physicalId.read j
    if p = cpu.physicalId then
      let c ← s.coreId.read j
      if c = cpu.coreId then return j
    s.find cpu left (j + 1)

/-- A pair that was not found takes the next index, with a cleared set. -/
def Search.addCore (s : Search) (cpu : Cpuinfo) (j : ℕ) : Except Fault Search :=
  if j = s.numCores then do
    let cpuset ← s.cpuset.write j cpuZero
    let coreId ← s.coreId.write j cpu.coreId
    let physicalId ← s.physicalId.write j cpu.physicalId
    return ⟨cpuset, s.numCores + 1, physicalId, coreId⟩
  else return s

/-- The body of the outer loop. -/
def Search.enter (s : Search) (cpu : Cpuinfo) : Except Fault Search := do
  let j ← s.find cpu s.numCores 0
  let s ← s.addCore cpu j
  let set ← s.cpuset.read j
  let cpuset ← s.cpuset.write j (cpuSet cpu.processor set)
  return { s with cpuset := cpuset }

/-- `get_cpuset`, given what `get_cpuinfo` returned (`none` is -1): the
number of cores, and the array as it is left. -/
def getCpuset (cpus : Option (List Cpuinfo)) (cpuset : Cells CpuSet) :
    Except Fault (ℕ × Cells CpuSet) := do
  match cpus with
  | none => .error (.fatal "get_cpuinfo")
  | some [] => .error (.fatal "no cpu found in /proc/cpuinfo")
  | some cpus =>
    let s ← cpus.foldlM Search.enter ⟨cpuset, 0, fun _ => none, fun _ => none⟩
    return (s.numCores, s.cpuset)

/-- What the calls of the thread library return, 0 on success. -/
structure Pthread where
  attrInit : ℕ
  setaffinity : CpuSet → ℕ
  create : ℕ → ℕ
  attrDestroy : ℕ
  strerror : ℕ → String

/-- A result that must be 0. -/
def Pthread.check (lib : Pthread) (call : String) (s : ℕ) : Except Fault Unit :=
  if s ≠ 0 then .error (.fatal (call ++ ": " ++ lib.strerror s)) else .ok ()

/-- One iteration of the loop of `start_worker_threads`: the affinity that
thread `i` is created with, `none` when it is not pinned. -/
def startThread (lib : Pthread) (pinCpu : Bool) (nCores : ℕ) (cpuSets : Cells CpuSet)
    (affinities : List (Option CpuSet)) (i : ℕ) : Except Fault (List (Option CpuSet)) := do
  let affinity ←
    if pinCpu then do
      let set ← cpuSets.read (i % nCores)
      lib.check "pthread_attr_setaffinity_np" (lib.setaffinity set)
      pure (some set)
    else pure none
  lib.check "pthread_create" (lib.create i)
  return affinities ++ [affinity]

/-- `start_worker_threads`: the affinities of the threads, in the order of
the threads. The array comes from `calloc`, so each set is empty. -/
def startWorkerThreads (lib : Pthread) (cpus : Option (List Cpuinfo)) (nWorkers : ℕ)
    (pinCpu : Bool) : Except Fault (List (Option CpuSet)) := do
  let (nCores, cpuSets) ←
    if pinCpu then getCpuset cpus fun _ => some ∅ else pure (1, fun _ => some ∅)
  lib.check "pthread_attr_init" lib.attrInit
  let affinities ← (List.range nWorkers).foldlM (startThread lib pinCpu nCores cpuSets) []
  lib.check "pthread_attr_destroy" lib.attrDestroy
  return affinities

end Cores

end Rushit
