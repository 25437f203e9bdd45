import Rushit.Lua.Graph
/-!
# Serialisation

`serialize.c`: a Lua value is dumped into a tree of C structures, each
table, function and upvalue tagged with the address it had, and loaded
back through an `upvalue_cache` that folds the copies of one address
together again.

The tree types follow the C structures, linked lists included. Values
the C code leaves on the Lua stack are passed as arguments and results.
Dumping recurses over the heap, so it takes a fuel argument that bounds
the depth of `serialize_object` calls; loading recurses over the tree.
-/

namespace Rushit

namespace Serialize

open Lua

/-- How a run of the C code can end other than by returning. -/
inductive Fault
  /-- The recursion is deeper than the fuel given. -/
  | outOfFuel
  /-- `assert(false)` under `case LUA_TNIL`. -/
  | assertNil
  /-- Any other failed assertion. -/
  | assertion
  /-- `LOG_FATAL`. -/
  | fatal
  /-- A Lua API call outside its contract. -/
  | api
  /-- An error raised to the Lua code that made the call. -/
  | luaError
  deriving DecidableEq

/-! ## The serialised forms -/

mutual

/-- `struct svalue`, with `struct stable` and `struct sfunction` in
place of the pointers to them. -/
inductive SValue
  | boolean (b : Bool)
  | number (n : Number)
  | string (s : LuaString)
  | function (id : Addr) (code : Proto) (upvalues : SUpvalues)
  | table (id : Addr) (entries : SEntries)
  deriving DecidableEq

/-- The list of `struct supvalue`. -/
inductive SUpvalues
  | nil
  | cons (id : Addr) (number : ℕ) (value : SValue) (collectorId : Option Addr)
      (next : SUpvalues)
  deriving DecidableEq

/-- The list of `struct stable_entry`. -/
inductive SEntries
  | nil
  | cons (key value : SValue) (collectorId : Option Addr) (next : SEntries)
  deriving DecidableEq

end

/-- `struct sfunction`. -/
structure SFunction where
  id : Addr
  code : Proto
  upvalues : SUpvalues
  deriving DecidableEq

/-- A function as a value. -/
def SFunction.toSValue (f : SFunction) : SValue := .function f.id f.code f.upvalues

/-! ## Dumping -/

/-- `strdup` of a Lua string: the bytes before the first NUL. -/
def strdup (s : LuaString) : LuaString := s.takeWhile (· ≠ 0)

section Dump

variable (h : Heap)

/-- `dump_table_entries`, over the entries in `lua_next` order: each
entry is put in front of the list. `rec` is `serialize_object`. -/
def dumpTableEntries (rec : Value → Except Fault SValue) (entries : List (Value × Value)) :
    Except Fault SEntries :=
  entries.foldlM (fun head e => do
    let slot := h.unwrapCollectorMaybe e.2
    let value ← rec slot.value
    let key ← rec e.1
    pure (.cons key value slot.collector head)) .nil

/-- `serialize_table`. -/
def serializeTable (rec : Value → Except Fault SValue) (a : Addr) : Except Fault SValue :=
  match h.table? a with
  | some t => do
    let entries ← dumpTableEntries h rec t.entries
    pure (.table a entries)
  | none => .error .api

/-- `serialize_upvalues`, from upvalue `i` on: each upvalue is put in
front of the list. -/
def serializeUpvalues (rec : Value → Except Fault SValue) :
    List Addr → ℕ → SUpvalues → Except Fault SUpvalues
  | [], _, list => pure list
  | x :: xs, i, list =>
    match h.cell? x with
    | some v => do
      let slot := h.unwrapCollectorMaybe v
      let value ← rec slot.value
      serializeUpvalues rec xs (i + 1) (.cons x i value slot.collector list)
    | none => .error .api

/-- `serialize_function`; `lua_dump` fails on a C function. -/
def serializeFunctionWith (rec : Value → Except Fault SValue) (a : Addr) :
    Except Fault SFunction :=
  match h.lookup a with
  | some (.closure c) => do
    let upvalues ← serializeUpvalues h rec c.uvs 1 .nil
    pure ⟨a, c.proto, upvalues⟩
  | some .cfunction => .error .fatal
  | _ => .error .api

/-- `serialize_object`. -/
def serializeObject : ℕ → Value → Except Fault SValue
  | 0, _ => .error .outOfFuel
  | n + 1, v =>
    match v with
    | .nil => .error .assertNil
    | .number x => pure (.number x)
    | .boolean b => pure (.boolean b)
    | .string s => pure (.string (strdup s))
    | .table a => serializeTable h (fun u => serializeObject n u) a
    | .function a => do
      let f ← serializeFunctionWith h (fun u => serializeObject n u) a
      pure f.toSValue
    -- `assert(false)` under the types that are not supported
    | .userdata _ => .error .assertion
    | .thread _ => .error .assertion
    | .lightuserdata _ => .error .assertion
    | .cdata _ => .error .assertion

/-- `serialize_function`, as called from outside. -/
def serializeFunction (n : ℕ) (a : Addr) : Except Fault SFunction :=
  serializeFunctionWith h (serializeObject h n) a

/-- `serialize_value`. -/
def serializeValue (n : ℕ) (v : Value) : Except Fault SValue := serializeObject h n v

end Dump

/-! ## Loading -/

/-- A Lua state being loaded into, with its `upvalue_cache`: the heap,
the object table the cache indexes by address, and the three maps,
newest mapping first. -/
structure Target where
  heap : Heap
  objectTbl : List (Addr × Value)
  /-- Serialised upvalue id to (function, upvalue number). -/
  upvalueMap : List (Addr × Addr × ℕ)
  /-- Serialised object id to object. -/
  objectMap : List (Addr × Addr)
  /-- Collector to (function, upvalue number) or (table, key). -/
  collectorMap : List (Addr × Addr × SValue)

namespace Target

variable (σ : Target)

/-- `cache_object`. -/
def cacheObject (v : Value) (id : Addr) : Target :=
  { σ with objectTbl := (id, v) :: σ.objectTbl }

/-- `map_object`. -/
def mapObject (key objectId : Addr) : Target :=
  { σ with objectMap := (key, objectId) :: σ.objectMap }

/-- `map_upvalue`. -/
def mapUpvalue (key functionId : Addr) (number : ℕ) : Target :=
  { σ with upvalueMap := (key, functionId, number) :: σ.upvalueMap }

/-- `lookup_object`. -/
def lookupObject (key : Addr) : Option Addr := σ.objectMap.lookup key

/-- `lookup_upvalue`. -/
def lookupUpvalue (key : Addr) : Option (Addr × ℕ) := σ.upvalueMap.lookup key

/-- `fetch_object`. -/
def fetchObject (id : Addr) : Value := (σ.objectTbl.lookup id).getD .nil

/-- `lookup_and_fetch_object`. -/
def lookupAndFetchObject (key : Addr) : Option Value := (σ.lookupObject key).map σ.fetchObject

/-- A new heap under the same cache. -/
def withHeap (h : Heap) : Target := { σ with heap := h }

end Target

/-- `copy_value`. -/
def copyValue : SValue → Except Fault SValue
  | .boolean b => pure (.boolean b)
  | .number n => pure (.number n)
  | .string s => pure (.string (strdup s))
  | _ => .error .assertion

/-- `map_collector`. -/
def mapCollector (σ : Target) (key objectId : Addr) (valueKey : SValue) : Except Fault Target := do
  let k ← copyValue valueKey
  pure { σ with collectorMap := (key, objectId, k) :: σ.collectorMap }

/-- `map_collector`, called where there is a collector id. -/
def mapCollectorMaybe (σ : Target) (key : Option Addr) (objectId : Addr) (valueKey : SValue) :
    Except Fault Target :=
  match key with
  | some w => mapCollector σ w objectId valueKey
  | none => pure σ

/-- An API call that must succeed. -/
def orFault {α : Type} (fault : Fault) : Option α → Except Fault α
  | some a => pure a
  | none => .error fault

theorem orFault_eq_ok {α : Type} {fault : Fault} {x : Option α} {a : α} :
    orFault fault x = .ok a ↔ x = some a := by
  cases x with
  | none => simp [orFault]
  | some b => simp [orFault, pure, Except.pure]

section Load

variable (al : Allocator)

/-- The part of `push_function` before its loop: load the bytecode,
cache the function, map its id. -/
def newFunction (id : Addr) (code : Proto) (σ : Target) : Addr × Target :=
  let f := loadbuffer al code σ.heap
  (f.1, ((σ.withHeap f.2).cacheObject (.function f.1) f.1).mapObject id f.1)

/-- The part of `push_table` before its loop. -/
def newTable (id : Addr) (σ : Target) : Addr × Target :=
  let t := newtable al σ.heap
  (t.1, ((σ.withHeap t.2).cacheObject (.table t.1) t.1).mapObject id t.1)

/-- `set_shared_upvalue`; `push` is the `push_object` call on the
upvalue's value. -/
def setSharedUpvalue (funcId id : Addr) (number : ℕ) (collectorId : Option Addr)
    (push : Target → Except Fault (Value × Target)) (σ : Target) : Except Fault Target :=
  match σ.lookupUpvalue id with
  | some m => do
    -- an already seen upvalue: the fetched function must be one to join with
    match σ.fetchObject m.1 with
    | .function g => do
      let heap ← orFault .api (σ.heap.upvaluejoin funcId number g m.2)
      pure (σ.withHeap heap)
    | _ => .error .api
  | none => do
    let (v, σ) ← push σ
    let heap ← orFault .assertion (σ.heap.setupvalue funcId number v)
    let σ := (σ.withHeap heap).mapUpvalue id funcId number
    mapCollectorMaybe σ collectorId funcId (.number (.ofNat number))

mutual

/-- `push_object`. -/
def pushObject : SValue → Target → Except Fault (Value × Target)
  | .boolean b, σ => pure (.boolean b, σ)
  | .number n, σ => pure (.number n, σ)
  | .string s, σ => pure (.string s, σ)
  | .function id code upvalues, σ =>
    match σ.lookupAndFetchObject id with
    | some v => pure (v, σ)
    | none => do
      let f := newFunction al id code σ
      let σ ← setSharedUpvalues f.1 upvalues f.2
      pure (.function f.1, σ)
  | .table id entries, σ =>
    match σ.lookupAndFetchObject id with
    | some v => pure (v, σ)
    | none => do
      let t := newTable al id σ
      let σ ← pushEntries t.1 entries t.2
      pure (.table t.1, σ)

/-- The loop of `push_function`. -/
def setSharedUpvalues (funcId : Addr) : SUpvalues → Target → Except Fault Target
  | .nil, σ => pure σ
  | .cons id number value collectorId next, σ => do
    let σ ← setSharedUpvalue funcId id number collectorId (fun σ => pushObject value σ) σ
    setSharedUpvalues funcId next σ

/-- The loop of `push_table`. -/
def pushEntries (tid : Addr) : SEntries → Target → Except Fault Target
  | .nil, σ => pure σ
  | .cons key value collectorId next, σ => do
    let (k, σ) ← pushObject key σ
    let (v, σ) ← pushObject value σ
    let heap ← orFault .api (σ.heap.rawset tid k v)
    let σ ← mapCollectorMaybe (σ.withHeap heap) collectorId tid key
    pushEntries tid next σ

end

/-- `push_function`: no lookup comes before it. -/
def pushFunction (f : SFunction) (σ : Target) : Except Fault (Addr × Target) := do
  let g := newFunction al f.id f.code σ
  let σ ← setSharedUpvalues al g.1 f.upvalues g.2
  pure (g.1, σ)

/-- `deserialize_function`: the key of the loaded function, and the
state. -/
def deserializeFunction (f : SFunction) (σ : Target) : Except Fault (Addr × Target) :=
  pushFunction al f σ

/-- `deserialize_value`. -/
def deserializeValue (v : SValue) (σ : Target) : Except Fault (Value × Target) :=
  pushObject al v σ

/-- Loads hooks one after the other through one cache, and returns their
keys. -/
def deserializeFunctions : List SFunction → Target → Except Fault (List Addr × Target)
  | [], σ => pure ([], σ)
  | f :: fs, σ => do
    let (key, σ) ← deserializeFunction al f σ
    let (keys, σ) ← deserializeFunctions fs σ
    pure (key :: keys, σ)

/-- `push_collected_value`. -/
def pushCollectedValue (σ : Target) (collectorId : Addr) : Except Fault Value :=
  match σ.collectorMap.lookup collectorId with
  | some (objectId, valueKey) =>
    match σ.fetchObject objectId, valueKey with
    | .function f, .number n => orFault .assertion (σ.heap.getupvalue f n.toNat)
    | .function _, _ => .error .api
    | .table t, k => do
      let (k, σ) ← pushObject al k σ
      match σ.heap.table? t with
      | some t => pure (t.rawget k)
      | none => .error .api
    | _, _ => .error .fatal
  | none => pure .nil

end Load

end Serialize

end Rushit
