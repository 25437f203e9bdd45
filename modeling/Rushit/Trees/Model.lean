import Rushit.Common.Linked
import Rushit.Script.Model
/-!
# The C structures of the serialiser

`serialize.c` once more, now on the structures that `calloc` hands out:
a tree has a `struct sfunction`, a `struct stable`, a list of `struct
supvalue` or `struct stable_entry` and a string wherever the trees of
`Rushit.Serialize.Model` have a node, and an `upvalue_cache` has three
lists of mappings. What is read, it is read through pointers, and the
`free_*` functions free it.

The loops over a list have a bound on the number of nodes, and
`free_value_data` and `push_object`, which follow pointers, one on their
depth: the number of cells that are allocated. Where `calloc` fails, the
process ends.
-/

namespace Rushit

namespace Trees

open Lua
open Ram (Malloc Stop access forEach)

/-- `struct svalue`; `calloc` leaves a nil. -/
inductive CValue
  | nil
  | boolean (b : Bool)
  | number (n : Number)
  | string (p : ℕ)
  | function (p : ℕ)
  | table (p : ℕ)

/-- `struct supvalue` -/
structure CUpvalue where
  next : Option ℕ
  id : Addr
  number : ℕ
  value : CValue
  collectorId : Option Addr

/-- `struct stable_entry` -/
structure CEntry where
  next : Option ℕ
  key : CValue
  value : CValue
  collectorId : Option Addr

/-- `struct stable` -/
structure CTable where
  id : Addr
  entries : Option ℕ

/-- `struct sfunction` -/
structure CFunction where
  id : Addr
  code : Option ℕ
  upvalues : Option ℕ

/-- `struct upvalue_cache`, without the index of the object table. -/
structure CCache where
  upvalueMap : Option ℕ
  objectMap : Option ℕ
  collectorMap : Option ℕ

/-- `struct script_engine`, without its Lua state and `run_func`. -/
structure CEngine where
  runMode : Script.RunMode
  hooks : Script.HookId → Option ℕ
  collectors : Option ℕ

/-- `struct script_slave`, without its Lua state. -/
structure CSlave where
  se : ℕ
  hookUpvalues : ℕ
  hookKeys : Script.HookId → Option Addr

/-- What is allocated. -/
inductive Cell
  | value (v : CValue)
  | string (s : LuaString)
  /-- `struct byte_array` with its bytes. -/
  | code (c : Proto)
  | function (f : CFunction)
  | upvalue (v : CUpvalue)
  | table (t : CTable)
  | entry (e : CEntry)
  /-- `struct upvalue_mapping` -/
  | upvalueMapping (next : Option ℕ) (key functionId : Addr) (upvalueNum : ℕ)
  /-- `struct object_mapping` -/
  | objectMapping (next : Option ℕ) (key objectId : Addr)
  /-- `struct collector_mapping` -/
  | collectorMapping (next : Option ℕ) (key objectId : Addr) (valueKey : CValue)
  | cache (c : CCache)
  /-- `struct collector` -/
  | collector (next : Option ℕ) (id : Addr)
  | engine (e : CEngine)
  | slave (s : CSlave)

namespace Cell

def value? : Cell → Option CValue
  | .value v => some v
  | _ => none

def string? : Cell → Option LuaString
  | .string s => some s
  | _ => none

def code? : Cell → Option Proto
  | .code c => some c
  | _ => none

def function? : Cell → Option CFunction
  | .function f => some f
  | _ => none

def upvalue? : Cell → Option CUpvalue
  | .upvalue v => some v
  | _ => none

def table? : Cell → Option CTable
  | .table t => some t
  | _ => none

def entry? : Cell → Option CEntry
  | .entry e => some e
  | _ => none

def cache? : Cell → Option CCache
  | .cache c => some c
  | _ => none

def engine? : Cell → Option CEngine
  | .engine e => some e
  | _ => none

def slave? : Cell → Option CSlave
  | .slave s => some s
  | _ => none

/-- What a search looks at: the next mapping, the key, and the rest. -/
def upvalueMapping? : Cell → Option (Option ℕ × Addr × Addr × ℕ)
  | .upvalueMapping next key functionId upvalueNum => some (next, key, functionId, upvalueNum)
  | _ => none

def objectMapping? : Cell → Option (Option ℕ × Addr × Addr)
  | .objectMapping next key objectId => some (next, key, objectId)
  | _ => none

def collectorMapping? : Cell → Option (Option ℕ × Addr × Addr × CValue)
  | .collectorMapping next key objectId valueKey => some (next, key, objectId, valueKey)
  | _ => none

/-- `next` of the structures that are in lists. -/
def next? : Cell → Option (Option ℕ)
  | .upvalue v => some v.next
  | .entry e => some e.next
  | .upvalueMapping next .. => some next
  | .objectMapping next .. => some next
  | .collectorMapping next .. => some next
  | .collector next _ => some next
  | _ => none

/-- `id` of a `struct collector`. -/
def collectorId? : Cell → Option Addr
  | .collector _ id => some id
  | _ => none

end Cell

/-- How a function ends early. -/
abbrev Ends := Stop Serialize.Fault

/-! ## Freeing -/

section Free

variable (rec : CValue → Ram Cell → Except Ends (Ram Cell))

/-- `free`, of what may be null. -/
def freeMaybe (p : Option ℕ) (m : Ram Cell) : Except Ends (Ram Cell) :=
  match p with
  | none => pure m
  | some p => access (m.free p)

/-- `free_upvalue` -/
def freeUpvalue (p : ℕ) (m : Ram Cell) : Except Ends (Ram Cell) := do
  let v ← access (m.read Cell.upvalue? p)
  let m ← rec v.value m
  access (m.free p)

/-- `free_upvalues` -/
def freeUpvalues (head : Option ℕ) (m : Ram Cell) : Except Ends (Ram Cell) :=
  forEach Cell.next? id (freeUpvalue rec) m.size head m

/-- `free_sfunction`, of a function that is not null. -/
def freeSfunctionWith (p : ℕ) (m : Ram Cell) : Except Ends (Ram Cell) := do
  let f ← access (m.read Cell.function? p)
  -- `byte_array_free`
  let m ← freeMaybe f.code m
  let m ← freeUpvalues rec f.upvalues m
  let m ← access (m.modify Cell.function? .function p fun f => { f with upvalues := none })
  access (m.free p)

/-- `free_table_entry` -/
def freeTableEntry (p : ℕ) (m : Ram Cell) : Except Ends (Ram Cell) := do
  let e ← access (m.read Cell.entry? p)
  let m ← rec e.key m
  let e ← access (m.read Cell.entry? p)
  let m ← rec e.value m
  access (m.free p)

/-- `free_table_entries` -/
def freeTableEntries (entries : Option ℕ) (m : Ram Cell) : Except Ends (Ram Cell) :=
  forEach Cell.next? id (freeTableEntry rec) m.size entries m

/-- `free_table`, of a table that is not null. -/
def freeTable (p : ℕ) (m : Ram Cell) : Except Ends (Ram Cell) := do
  let t ← access (m.read Cell.table? p)
  let m ← freeTableEntries rec t.entries m
  access (m.free p)

end Free

/-- `free_value_data` -/
def freeValueData : ℕ → CValue → Ram Cell → Except Ends (Ram Cell)
  | _, .boolean _, m => pure m
  | _, .number _, m => pure m
  | _, .string p, m => access (m.free p)
  | n + 1, .function p, m => freeSfunctionWith (freeValueData n) p m
  | n + 1, .table p, m => freeTable (freeValueData n) p m
  -- `assert(false)`
  | _, .nil, _ => .error (.other .assertion)
  | 0, _, _ => .error (.memory .dead)

/-- `free_sfunction` -/
def freeSfunction (p : Option ℕ) (m : Ram Cell) : Except Ends (Ram Cell) :=
  match p with
  | none => pure m
  | some p => freeSfunctionWith (freeValueData m.size) p m

/-- `free_svalue` -/
def freeSvalue (p : Option ℕ) (m : Ram Cell) : Except Ends (Ram Cell) :=
  match p with
  | none => pure m
  | some p => do
    let v ← access (m.read Cell.value? p)
    let m ← freeValueData m.size v m
    access (m.free p)

/-- The loop body of `free_collector_mappings`. -/
def freeCollectorMapping (p : ℕ) (m : Ram Cell) : Except Ends (Ram Cell) := do
  let c ← access (m.read Cell.collectorMapping? p)
  let m ← freeValueData m.size c.2.2.2 m
  access (m.free p)

/-- `free_upvalue_cache` -/
def freeUpvalueCache (p : Option ℕ) (m : Ram Cell) : Except Ends (Ram Cell) :=
  match p with
  | none => pure m
  | some p => do
    let c ← access (m.read Cell.cache? p)
    let m ← forEach Cell.next? id (fun a m => access (m.free a)) m.size c.objectMap m
    let c ← access (m.read Cell.cache? p)
    let m ← forEach Cell.next? id (fun a m => access (m.free a)) m.size c.upvalueMap m
    let c ← access (m.read Cell.cache? p)
    let m ← forEach Cell.next? id freeCollectorMapping m.size c.collectorMap m
    access (m.free p)

/-! ## Dumping -/

section Dump

variable (h : Heap) (al : Malloc Cell)

/-- `strdup` of what `lua_tostring` returns. -/
def strdup (s : LuaString) (m : Ram Cell) : ℕ × Ram Cell :=
  Ram.malloc al (.string (Serialize.strdup s)) m

section Rec

variable (rec : Value → Ram Cell → Except Ends (CValue × Ram Cell))

/-- The loop body of `dump_table_entries`: the entry is in the list
before it has a value. -/
def dumpTableEntry (r : Option ℕ × Ram Cell) (e : Value × Value) :
    Except Ends (Option ℕ × Ram Cell) := do
  let (p, m) := Ram.malloc al (.entry ⟨r.1, .nil, .nil, none⟩) r.2
  let slot := h.unwrapCollectorMaybe e.2
  let m ← access (m.modify Cell.entry? .entry p fun c => { c with collectorId := slot.collector })
  let (value, m) ← rec slot.value m
  let m ← access (m.modify Cell.entry? .entry p fun c => { c with value := value })
  let (key, m) ← rec e.1 m
  let m ← access (m.modify Cell.entry? .entry p fun c => { c with key := key })
  pure (some p, m)

/-- `dump_table_entries` -/
def dumpTableEntries (entries : List (Value × Value)) (m : Ram Cell) :
    Except Ends (Option ℕ × Ram Cell) :=
  entries.foldlM (dumpTableEntry h al rec) (none, m)

/-- `serialize_table` -/
def serializeTable (a : Addr) (m : Ram Cell) : Except Ends (CValue × Ram Cell) := do
  let (p, m) := Ram.malloc al (.table ⟨a, none⟩) m
  match h.table? a with
  | some t => do
    let (entries, m) ← dumpTableEntries h al rec t.entries m
    let m ← access (m.modify Cell.table? .table p fun c => { c with entries := entries })
    pure (.table p, m)
  | none => .error (.other .api)

/-- `serialize_upvalue`, and `prepend_upvalue`. -/
def serializeUpvalue (id : Addr) (number : ℕ) (v : Value) (head : Option ℕ) (m : Ram Cell) :
    Except Ends (Option ℕ × Ram Cell) := do
  let (p, m) := Ram.malloc al (.upvalue ⟨none, id, number, .nil, none⟩) m
  let slot := h.unwrapCollectorMaybe v
  let m ← access (m.modify Cell.upvalue? .upvalue p fun c =>
    { c with collectorId := slot.collector })
  let (value, m) ← rec slot.value m
  let m ← access (m.modify Cell.upvalue? .upvalue p fun c => { c with value := value })
  let m ← access (m.modify Cell.upvalue? .upvalue p fun c => { c with next := head })
  pure (some p, m)

/-- `serialize_upvalues`, from upvalue `i` on. -/
def serializeUpvalues :
    List Addr → ℕ → Option ℕ → Ram Cell → Except Ends (Option ℕ × Ram Cell)
  | [], _, list, m => pure (list, m)
  | x :: xs, i, list, m =>
    match h.cell? x with
    | some v => do
      let (list, m) ← serializeUpvalue h al rec x i v list m
      serializeUpvalues xs (i + 1) list m
    | none => .error (.other .api)

/-- `serialize_function` -/
def serializeFunctionWith (a : Addr) (m : Ram Cell) : Except Ends (ℕ × Ram Cell) := do
  let (p, m) := Ram.malloc al (.function ⟨a, none, none⟩) m
  match h.lookup a with
  | some (.closure c) => do
    -- `dump_function_bytecode`
    let (code, m) := Ram.malloc al (.code c.proto) m
    let m ← access (m.modify Cell.function? .function p fun f => { f with code := some code })
    let (upvalues, m) ← serializeUpvalues h al rec c.uvs 1 none m
    let m ← access (m.modify Cell.function? .function p fun f => { f with upvalues := upvalues })
    pure (p, m)
  | some .cfunction => .error (.other .fatal)
  | _ => .error (.other .api)

end Rec

/-- `serialize_object`: what is to be stored in the `struct svalue`. -/
def serializeObject : ℕ → Value → Ram Cell → Except Ends (CValue × Ram Cell)
  | 0, _, _ => .error (.other .outOfFuel)
  | n + 1, v, m =>
    match v with
    | .nil => .error (.other .assertNil)
    | .number x => pure (.number x, m)
    | .boolean b => pure (.boolean b, m)
    | .string s =>
      let (p, m) := strdup al s m
      pure (.string p, m)
    | .table a => serializeTable h al (serializeObject n) a m
    | .function a => do
      let (p, m) ← serializeFunctionWith h al (serializeObject n) a m
      pure (.function p, m)
    | .userdata _ => .error (.other .assertion)
    | .thread _ => .error (.other .assertion)
    | .lightuserdata _ => .error (.other .assertion)
    | .cdata _ => .error (.other .assertion)

/-- `serialize_function`, as called from outside. -/
def serializeFunction (n : ℕ) (a : Addr) (m : Ram Cell) : Except Ends (ℕ × Ram Cell) :=
  serializeFunctionWith h al (serializeObject h al n) a m

/-- `serialize_value` -/
def serializeValue (n : ℕ) (v : Value) (m : Ram Cell) : Except Ends (ℕ × Ram Cell) := do
  let (p, m) := Ram.malloc al (.value .nil) m
  let (sv, m) ← serializeObject h al n v m
  let m ← access (m.write p (.value sv))
  pure (p, m)

end Dump

/-! ## Loading -/

/-- A Lua state that is loaded into, and the memory. -/
structure Load where
  heap : Heap
  objectTbl : List (Addr × Value)
  ram : Ram Cell

/-- `upvalue_cache_new` -/
def upvalueCacheNew (mal : Malloc Cell) (m : Ram Cell) : ℕ × Ram Cell :=
  Ram.malloc mal (.cache ⟨none, none, none⟩) m

namespace Load

variable (al : Allocator) (mal : Malloc Cell) (cache : ℕ)

/-- `cache_object` -/
def cacheObject (v : Value) (id : Addr) (s : Load) : Load :=
  { s with objectTbl := (id, v) :: s.objectTbl }

def withHeap (h : Heap) (s : Load) : Load := { s with heap := h }

/-- `fetch_object` -/
def fetchObject (id : Addr) (s : Load) : Value := (s.objectTbl.lookup id).getD .nil

/-- `map_object` -/
def mapObject (key objectId : Addr) (s : Load) : Except Ends Load := do
  let c ← access (s.ram.read Cell.cache? cache)
  let (p, m) := Ram.malloc mal (.objectMapping c.objectMap key objectId) s.ram
  let m ← access (m.modify Cell.cache? .cache cache fun c => { c with objectMap := some p })
  pure { s with ram := m }

/-- `map_upvalue` -/
def mapUpvalue (key functionId : Addr) (number : ℕ) (s : Load) : Except Ends Load := do
  let c ← access (s.ram.read Cell.cache? cache)
  let (p, m) := Ram.malloc mal (.upvalueMapping c.upvalueMap key functionId number) s.ram
  let m ← access (m.modify Cell.cache? .cache cache fun c => { c with upvalueMap := some p })
  pure { s with ram := m }

/-- `copy_value` -/
def copyValue (src : CValue) (m : Ram Cell) : Except Ends (CValue × Ram Cell) :=
  match src with
  | .boolean b => pure (.boolean b, m)
  | .number n => pure (.number n, m)
  | .string p => do
    let s ← access (m.read Cell.string? p)
    let (p, m) := strdup mal s m
    pure (.string p, m)
  | _ => .error (.other .assertion)

/-- `map_collector` -/
def mapCollector (key objectId : Addr) (valueKey : CValue) (s : Load) : Except Ends Load := do
  let (p, m) := Ram.malloc mal (.collectorMapping none key objectId .nil) s.ram
  let (k, m) ← copyValue mal valueKey m
  let c ← access (m.read Cell.cache? cache)
  let m ← access (m.write p (.collectorMapping c.collectorMap key objectId k))
  let m ← access (m.modify Cell.cache? .cache cache fun c => { c with collectorMap := some p })
  pure { s with ram := m }

/-- `map_collector`, called where there is a collector id. -/
def mapCollectorMaybe (key : Option Addr) (objectId : Addr) (valueKey : CValue) (s : Load) :
    Except Ends Load :=
  match key with
  | some w => s.mapCollector mal cache w objectId valueKey
  | none => pure s

/-- `lookup_object` -/
def lookupObject (key : Addr) (s : Load) : Except Ends (Option Addr) := do
  let c ← access (s.ram.read Cell.cache? cache)
  access (Ram.lookup Cell.objectMapping? key s.ram s.ram.size c.objectMap)

/-- `lookup_and_fetch_object` -/
def lookupAndFetchObject (key : Addr) (s : Load) : Except Ends (Option Value) := do
  let id ← s.lookupObject cache key
  pure (id.map s.fetchObject)

/-- `lookup_upvalue` -/
def lookupUpvalue (key : Addr) (s : Load) : Except Ends (Option (Addr × ℕ)) := do
  let c ← access (s.ram.read Cell.cache? cache)
  access (Ram.lookup Cell.upvalueMapping? key s.ram s.ram.size c.upvalueMap)

section Rec

variable (rec : CValue → Load → Except Ends (Value × Load))

/-- An API call that must succeed. -/
def orFault {α : Type} (fault : Serialize.Fault) (x : Option α) : Except Ends α :=
  Ram.lift (Serialize.orFault fault x)

/-- `set_shared_upvalue`, for the upvalue at `p`. -/
def setSharedUpvalue (funcId : Addr) (p : ℕ) (s : Load) : Except Ends Load := do
  let upvalue ← access (s.ram.read Cell.upvalue? p)
  let m ← s.lookupUpvalue cache upvalue.id
  match m with
  | some m => do
    match s.fetchObject m.1 with
    | .function g => do
      let heap ← orFault .api (s.heap.upvaluejoin funcId upvalue.number g m.2)
      pure (s.withHeap heap)
    | _ => .error (.other .api)
  | none => do
    -- `set_upvalue`
    let (v, s) ← rec upvalue.value s
    let heap ← orFault .assertion (s.heap.setupvalue funcId upvalue.number v)
    let s ← (s.withHeap heap).mapUpvalue mal cache upvalue.id funcId upvalue.number
    s.mapCollectorMaybe mal cache upvalue.collectorId funcId (.number (.ofNat upvalue.number))

/-- `push_function`, for the function at `p`. -/
def pushFunctionWith (p : ℕ) (s : Load) : Except Ends (Addr × Load) := do
  let f ← access (s.ram.read Cell.function? p)
  let q ← access (Ram.deref f.code)
  let code ← access (s.ram.read Cell.code? q)
  let (funcId, heap) := loadbuffer al code s.heap
  let s ← ((s.withHeap heap).cacheObject (.function funcId) funcId).mapObject mal cache f.id funcId
  let s ← forEach Cell.next? Load.ram (setSharedUpvalue mal cache rec funcId) s.ram.size
    f.upvalues s
  pure (funcId, s)

/-- The loop body of `push_table`. -/
def pushEntry (tid : Addr) (p : ℕ) (s : Load) : Except Ends Load := do
  let e ← access (s.ram.read Cell.entry? p)
  let (k, s) ← rec e.key s
  let (v, s) ← rec e.value s
  let heap ← orFault .api (s.heap.rawset tid k v)
  (s.withHeap heap).mapCollectorMaybe mal cache e.collectorId tid e.key

/-- `push_table`, for the table at `p`. -/
def pushTable (p : ℕ) (s : Load) : Except Ends (Addr × Load) := do
  let t ← access (s.ram.read Cell.table? p)
  let (tid, heap) := newtable al s.heap
  let s ← ((s.withHeap heap).cacheObject (.table tid) tid).mapObject mal cache t.id tid
  let s ← forEach Cell.next? Load.ram (pushEntry mal cache rec tid) s.ram.size t.entries s
  pure (tid, s)

end Rec

/-- `push_object` -/
def pushObject : ℕ → CValue → Load → Except Ends (Value × Load)
  | _, .boolean b, s => pure (.boolean b, s)
  | _, .number n, s => pure (.number n, s)
  | _, .string p, s => do
    let str ← access (s.ram.read Cell.string? p)
    pure (.string str, s)
  | n + 1, .function p, s => do
    let f ← access (s.ram.read Cell.function? p)
    let seen ← s.lookupAndFetchObject cache f.id
    match seen with
    | some v => pure (v, s)
    | none => do
      let (funcId, s) ← pushFunctionWith al mal cache (pushObject n) p s
      pure (.function funcId, s)
  | n + 1, .table p, s => do
    let t ← access (s.ram.read Cell.table? p)
    let seen ← s.lookupAndFetchObject cache t.id
    match seen with
    | some v => pure (v, s)
    | none => do
      let (tid, s) ← pushTable al mal cache (pushObject n) p s
      pure (.table tid, s)
  | _, .nil, _ => .error (.other .assertion)
  | 0, _, _ => .error (.memory .dead)

/-- `deserialize_function` -/
def deserializeFunction (p : ℕ) (s : Load) : Except Ends (Addr × Load) :=
  s.pushFunctionWith al mal cache (pushObject al mal cache s.ram.size) p

/-- `deserialize_value`, of the value at `p`. -/
def deserializeValue (p : ℕ) (s : Load) : Except Ends (Value × Load) := do
  let v ← access (s.ram.read Cell.value? p)
  s.pushObject al mal cache s.ram.size v

/-- `push_collected_value` -/
def pushCollectedValue (collectorId : Addr) (s : Load) : Except Ends (Value × Load) := do
  let c ← access (s.ram.read Cell.cache? cache)
  let m ← access (Ram.lookup Cell.collectorMapping? collectorId s.ram s.ram.size c.collectorMap)
  match m with
  | some (objectId, valueKey) =>
    match s.fetchObject objectId, valueKey with
    | .function f, .number n => do
      let v ← orFault .assertion (s.heap.getupvalue f n.toNat)
      pure (v, s)
    | .function _, _ => .error (.other .api)
    | .table t, k => do
      let (k, s) ← pushObject al mal cache s.ram.size k s
      match s.heap.table? t with
      | some t => pure (t.rawget k, s)
      | none => .error (.other .api)
    | _, _ => .error (.other .fatal)
  | none => pure (.nil, s)

end Load

end Trees

end Rushit
