import Rushit.Script.System
import Rushit.Trees.Model
/-!
# The script engine in memory

`script.c` once more, on `struct script_engine`, `struct script_slave`
and the list of `struct collector`: the hooks that the main script
registers are trees in memory, each slave has an `upvalue_cache`, and a
pull makes a cache and, for each collector, a tree, and frees them. At
the end the slaves are destroyed and then the engine.

The Lua states are as in `Rushit.Script.Model`, and what is done to them
without a tree is done as there.
-/

namespace Rushit

namespace Trees

open Lua
open Ram (Malloc access forEach)
open Script (RunMode HookId)

/-- A slave: its `struct script_slave` and its Lua state. -/
structure Slave where
  ptr : ℕ
  heap : Heap
  objectTbl : List (Addr × Value)

/-- The memory, the `struct script_engine` with its Lua state, and the
slaves. -/
structure System where
  ram : Ram Cell
  engine : ℕ
  heap : Heap
  registry : List (Addr × Value)
  slaves : List Slave

/-- The hooks, in the order of `enum script_hook_id`. -/
def hookIds : List HookId := [.socket, .close, .sendmsg, .recvmsg, .recverr]

namespace System

variable (al : Allocator) (mal : Malloc Cell) (n : ℕ)

/-! ## The main script -/

/-- `script_engine_create`, over the heap that the prelude leaves. -/
def scriptEngineCreate (h : Heap) (isClient : Bool) : System :=
  let runMode := if isClient then RunMode.client else .server
  let (p, m) := Ram.malloc mal (.engine ⟨runMode, fun _ => none, none⟩) .empty
  ⟨m, p, h, [], []⟩

/-- `store_hook`, called with the value `v`. -/
def storeHook (runMode : RunMode) (hid : HookId) (v : Value) (s : System) : Except Ends System :=
  match v with
  | .function a => do
    let se ← access (s.ram.read Cell.engine? s.engine)
    if se.runMode = runMode then
      match se.hooks hid with
      | some _ => .error (.other .fatal)
      | none => do
        let (p, m) ← serializeFunction s.heap mal n a s.ram
        let m ← access (m.modify Cell.engine? .engine s.engine fun e =>
          { e with hooks := fun i => if i = hid then some p else e.hooks i })
        pure { s with ram := m }
    else pure s
  | _ => .error (.other .luaError)

/-- `register_collector_cb` -/
def registerCollector (v : Value) (s : System) : Except Ends System :=
  match v with
  | .table a => do
    let se ← access (s.ram.read Cell.engine? s.engine)
    let (p, m) := Ram.malloc mal (.collector se.collectors a) s.ram
    let m ← access (m.modify Cell.engine? .engine s.engine fun e => { e with collectors := some p })
    pure { s with registry := (a, v) :: s.registry, ram := m }
  | _ => .error (.other .luaError)

/-- `collect`, of the prelude. -/
def collect (v : Value) (s : System) : Except Ends (Value × System) := do
  let a := al.next s.heap
  let h := (a, .table (Script.wrapper v)) :: s.heap
  let s ← registerCollector mal (.table a) { s with heap := h }
  pure (.table a, s)

/-- The loop body of `empty_collectors`. -/
def emptyCollector (registry : List (Addr × Value)) (p : ℕ) (r : Heap × Ram Cell) :
    Except Ends (Heap × Ram Cell) := do
  let id ← access (r.2.read Cell.collectorId? p)
  let h ← Ram.lift (Script.emptyCollector registry r.1 id)
  pure (h, r.2)

/-- `empty_collectors` -/
def emptyCollectors (s : System) : Except Ends System := do
  let se ← access (s.ram.read Cell.engine? s.engine)
  let r ← forEach Cell.next? Prod.snd (emptyCollector s.registry) s.ram.size se.collectors
    (s.heap, s.ram)
  pure { s with heap := r.1, ram := r.2 }

/-! ## Slaves -/

/-- `script_slave_create`, over the heap that the prelude leaves. -/
def scriptSlaveCreate (h : Heap) (s : System) : Except Ends System := do
  let (p, m) := Ram.malloc mal (.slave ⟨0, 0, fun _ => none⟩) s.ram
  let (cache, m) := upvalueCacheNew mal m
  let m ← access (m.modify Cell.slave? .slave p fun c => { c with hookUpvalues := cache })
  let m ← access (m.modify Cell.slave? .slave p fun c => { c with se := s.engine })
  pure { s with ram := m, slaves := s.slaves ++ [⟨p, h, []⟩] }

/-- `push_hook` with `load_hook`. -/
def pushHook (hid : HookId) (ss : Slave) (m : Ram Cell) :
    Except Ends (Option Value × Slave × Ram Cell) := do
  let c ← access (m.read Cell.slave? ss.ptr)
  match c.hookKeys hid with
  | some key => pure (some ((Load.mk ss.heap ss.objectTbl m).fetchObject key), ss, m)
  | none => do
    let se ← access (m.read Cell.engine? c.se)
    match se.hooks hid with
    | none => pure (none, ss, m)
    | some p => do
      let (key, l) ← Load.deserializeFunction al mal c.hookUpvalues p ⟨ss.heap, ss.objectTbl, m⟩
      let m ← access (l.ram.modify Cell.slave? .slave ss.ptr fun c =>
        { c with hookKeys := fun i => if i = hid then some key else c.hookKeys i })
      pure (some (l.fetchObject key), ⟨ss.ptr, l.heap, l.objectTbl⟩, m)

/-! ## Pulling the collected values -/

/-- `get_collected_value` -/
def getCollectedValue (ss : Slave) (collectorId : Addr) (m : Ram Cell) :
    Except Ends (ℕ × Ram Cell) := do
  let c ← access (m.read Cell.slave? ss.ptr)
  let (v, l) ← Load.pushCollectedValue al mal c.hookUpvalues collectorId ⟨ss.heap, ss.objectTbl, m⟩
  serializeValue l.heap mal n v l.ram

/-- `add_collected_value` -/
def addCollectedValue (cache : ℕ) (registry : List (Addr × Value)) (collectorId : Addr) (value : ℕ)
    (l : Load) : Except Ends Load :=
  match registry.lookup collectorId with
  | some (.table a) =>
    match l.heap.table? a with
    | some t => do
      let m := t.objlen
      let (v, l) ← l.deserializeValue al mal cache value
      let h ← Load.orFault .api (l.heap.rawset a (.ofNat (m + 1)) v)
      pure (l.withHeap h)
    | none => .error (.other .api)
  | _ => .error (.other .api)

/-- The loop body of `script_engine_pull_data`. -/
def pullCollector (ss : Slave) (cache : ℕ) (registry : List (Addr × Value)) (p : ℕ) (l : Load) :
    Except Ends Load := do
  let id ← access (l.ram.read Cell.collectorId? p)
  let (sv, m) ← getCollectedValue al mal n ss id l.ram
  let l ← addCollectedValue al mal cache registry id sv { l with ram := m }
  let m ← freeSvalue (some sv) l.ram
  pure { l with ram := m }

/-- `script_engine_pull_data` -/
def scriptEnginePullData (ss : Slave) (s : System) : Except Ends System := do
  let (cache, m) := upvalueCacheNew mal s.ram
  let se ← access (m.read Cell.engine? s.engine)
  let l ← forEach Cell.next? Load.ram (pullCollector al mal n ss cache s.registry) m.size
    se.collectors ⟨s.heap, [], m⟩
  let m ← freeUpvalueCache (some cache) l.ram
  pure { s with heap := l.heap, ram := m }

/-! ## The end -/

/-- `script_slave_destroy` -/
def scriptSlaveDestroy (m : Ram Cell) (ss : Slave) : Except Ends (Ram Cell) := do
  let c ← access (m.read Cell.slave? ss.ptr)
  let m ← freeUpvalueCache (some c.hookUpvalues) m
  access (m.free ss.ptr)

/-- The loop body over the hooks of an engine. -/
def freeHook (p : ℕ) (m : Ram Cell) (hid : HookId) : Except Ends (Ram Cell) := do
  let se ← access (m.read Cell.engine? p)
  freeSfunction (se.hooks hid) m

/-- `script_engine_destroy` -/
def scriptEngineDestroy (p : ℕ) (m : Ram Cell) : Except Ends (Ram Cell) := do
  let m ← hookIds.foldlM (freeHook p) m
  let se ← access (m.read Cell.engine? p)
  let m ← forEach Cell.next? id (fun a m => access (m.free a)) m.size se.collectors m
  access (m.free p)

/-- The slaves are destroyed in `free_worker_threads`, and after them the
engine in `run_main_thread`. -/
def destroy (s : System) : Except Ends (Ram Cell) := do
  let m ← s.slaves.foldlM scriptSlaveDestroy s.ram
  scriptEngineDestroy s.engine m

/-- **One step**, as on values. -/
def exec (s : System) : Script.Action → Except Ends System
  | .script h => pure { s with heap := h }
  | .collect v => do
    let (_, s) ← collect al mal v s
    pure s
  | .register runMode hid v => storeHook mal n runMode hid v s
  | .slave h => scriptSlaveCreate mal h s
  | .fire i hid =>
    match s.slaves[i]? with
    | some ss => do
      let (_, ss, m) ← pushHook al mal hid ss s.ram
      pure { s with ram := m, slaves := s.slaves.set i ss }
    | none => .error (.other .api)
  | .body i h =>
    match s.slaves[i]? with
    | some ss => pure { s with slaves := s.slaves.set i { ss with heap := h } }
    | none => .error (.other .api)
  | .empty => emptyCollectors s
  | .pull i =>
    match s.slaves[i]? with
    | some ss => scriptEnginePullData al mal n ss s
    | none => .error (.other .api)

end System

end Trees

end Rushit
