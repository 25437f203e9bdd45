import Rushit.Serialize.Model
/-!
# The script engine and its slaves

`script.c`: the engine runs the main script, which registers hooks and
marks values for collection; each worker thread has a slave, which loads
a hook when it first fires. After the run the engine pulls the collected
values from the slaves, one slave after the other.

The engine's registry is modelled by its entries under light userdata
keys: a collector table under its own address. A slave's registry is the
object table of its `upvalue_cache`.
-/

namespace Rushit

namespace Script

open Lua Serialize

/-- `enum run_mode`. -/
inductive RunMode
  | client
  | server
  deriving DecidableEq

/-- `enum script_hook_id`. -/
inductive HookId
  | socket
  | close
  | sendmsg
  | recvmsg
  | recverr
  deriving DecidableEq

/-- `struct script_engine`, with the heap and the registry of its Lua
state. -/
structure Engine where
  heap : Heap
  registry : List (Addr × Value)
  runMode : RunMode
  hooks : HookId → Option SFunction
  /-- The ids of the collectors, newest first. -/
  collectors : List Addr

/-- `struct script_slave`: its Lua state with `hook_upvalues`, and the
keys of the hooks loaded. -/
structure Slave where
  target : Target
  hookKeys : HookId → Option Addr

/-! ## The main script -/

/-- `script_engine_create`, over the heap that the prelude leaves. -/
def scriptEngineCreate (h : Heap) (isClient : Bool) : Engine where
  heap := h
  registry := []
  runMode := if isClient then .client else .server
  hooks := fun _ => none
  collectors := []

/-- `store_hook`, called with the value `v`: the callback of each hook
name, with its own run mode and hook id. -/
def storeHook (n : ℕ) (runMode : RunMode) (hid : HookId) (v : Value) (se : Engine) :
    Except Fault Engine :=
  match v with
  | .function a =>
    -- a hook of the other side is left alone
    if se.runMode = runMode then
      match se.hooks hid with
      | some _ => .error .fatal
      | none => do
        let f ← serializeFunction se.heap n a
        pure { se with hooks := fun i => if i = hid then some f else se.hooks i }
    else pure se
  | _ => .error .luaError

/-- `register_collector_cb`: the table is kept in the registry under its
address. -/
def registerCollector (v : Value) (se : Engine) : Except Fault Engine :=
  match v with
  | .table a => pure { se with registry := (a, v) :: se.registry, collectors := a :: se.collectors }
  | _ => .error .luaError

/-- The table `collect` wraps a value in; `{ nil }` is empty. -/
def wrapper (v : Value) : Table :=
  { ((Table.empty.rawset (.ofNat 1) v).getD Table.empty) with collector := true }

/-- `collect`, of the prelude. -/
def collect (al : Allocator) (v : Value) (se : Engine) : Except Fault (Value × Engine) := do
  let a := al.next se.heap
  let se ← registerCollector (.table a) { se with heap := (a, .table (wrapper v)) :: se.heap }
  pure (.table a, se)

/-- The loop body of `empty_collectors`. -/
def emptyCollector (registry : List (Addr × Value)) (h : Heap) (c : Addr) : Except Fault Heap :=
  match registry.lookup c with
  | some (.table a) =>
    match h.table? a with
    | some t =>
      -- the assertion that one value is collected
      if t.objlen = 1 then orFault .api (h.rawset a (.ofNat 1) .nil) else .error .assertion
    | none => .error .api
  | _ => .error .assertion

/-- `empty_collectors`. -/
def emptyCollectors (se : Engine) : Except Fault Engine := do
  let h ← se.collectors.foldlM (emptyCollector se.registry) se.heap
  pure { se with heap := h }

/-! ## Slaves -/

/-- `script_slave_create`, over the heap that the prelude leaves. -/
def scriptSlaveCreate (h : Heap) : Slave := ⟨⟨h, [], [], [], []⟩, fun _ => none⟩

/-- `push_hook` with `load_hook`: nothing is pushed where there is no
hook (`EHOOKEMPTY`). -/
def pushHook (al : Allocator) (se : Engine) (hid : HookId) (ss : Slave) :
    Except Fault (Option Value × Slave) :=
  match ss.hookKeys hid with
  | some key => pure (some (ss.target.fetchObject key), ss)
  | none =>
    match se.hooks hid with
    | none => pure (none, ss)
    | some f => do
      let (key, σ) ← deserializeFunction al f ss.target
      pure (some (σ.fetchObject key),
        ⟨σ, fun i => if i = hid then some key else ss.hookKeys i⟩)

/-! ## Pulling the collected values -/

section Pull

variable (al : Allocator) (n : ℕ)

/-- `get_collected_value`. -/
def getCollectedValue (ss : Slave) (collectorId : Addr) : Except Fault SValue := do
  let v ← pushCollectedValue al ss.target collectorId
  serializeValue ss.target.heap n v

/-- `add_collected_value`; `σ` is the engine's heap with the cache of
this pull. -/
def addCollectedValue (registry : List (Addr × Value)) (collectorId : Addr) (value : SValue)
    (σ : Target) : Except Fault Target :=
  match registry.lookup collectorId with
  | some (.table a) =>
    match σ.heap.table? a with
    | some t => do
      let m := t.objlen
      let (v, σ) ← deserializeValue al value σ
      let h ← orFault .api (σ.heap.rawset a (.ofNat (m + 1)) v)
      pure (σ.withHeap h)
    | none => .error .api
  | _ => .error .api

/-- `script_engine_pull_data`: each pull has a cache of its own. -/
def scriptEnginePullData (se : Engine) (ss : Slave) : Except Fault Engine := do
  let σ ← se.collectors.foldlM (fun σ c => do
    let sv ← getCollectedValue al n ss c
    addCollectedValue al se.registry c sv σ) ⟨se.heap, [], [], [], []⟩
  pure { se with heap := σ.heap }

/-- `pull_script_data`, over the slaves of the workers. -/
def pullScriptData (slaves : List Slave) (se : Engine) : Except Fault Engine :=
  slaves.foldlM (scriptEnginePullData al n) se

end Pull

end Script

end Rushit
