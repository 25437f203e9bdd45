import Rushit.Serialize.Model
import Rushit.Lua.Stack
/-!
# Serialisation on the Lua stack

The functions of `serialize.c` call by call: every value is on the Lua
stack, and the code addresses it from the top. `Serialize.Model` has the
same functions with the values as arguments and results.

The object table of the cache is addressed by a pseudo-index or from the
bottom of the stack, so it is not on the part that moves.
-/

namespace Rushit

namespace Serialize

open Lua

/-- A Lua state with its `upvalue_cache` and its stack. -/
structure Machine where
  target : Target
  stack : Stack

namespace Machine

variable (al : Allocator) (M : Machine)

/-! ## The API -/

/-- Any of the functions that push a value the caller has. -/
def push (v : Value) : Machine := ⟨M.target, v :: M.stack⟩

/-- The value at index `-i`. -/
def index (i : ℕ) : Except Fault Value := orFault .api (M.stack.index i)

/-- `lua_pop` -/
def pop (n : ℕ) : Except Fault Machine := do
  let s ← orFault .api (M.stack.pop n)
  pure ⟨M.target, s⟩

/-- `lua_remove(L, -i)` -/
def remove (i : ℕ) : Except Fault Machine := do
  let s ← orFault .api (M.stack.remove i)
  pure ⟨M.target, s⟩

/-- `lua_pushvalue(L, -i)` -/
def pushvalue (i : ℕ) : Except Fault Machine := do
  let v ← M.index i
  pure (M.push v)

/-- `lua_topointer(L, -i)`, of a table or a function. -/
def topointer (i : ℕ) : Except Fault Addr := do
  let v ← M.index i
  orFault .api v.ref?

/-- The address of the table at index `-i`. -/
def tableAt (i : ℕ) : Except Fault Addr := do
  match ← M.index i with
  | .table a => pure a
  | _ => .error .api

/-- The address of the function at index `-i`. -/
def functionAt (i : ℕ) : Except Fault Addr := do
  match ← M.index i with
  | .function a => pure a
  | _ => .error .api

/-- `lua_newtable` -/
def newtable : Machine :=
  let t := Lua.newtable al M.target.heap
  ⟨M.target.withHeap t.2, .table t.1 :: M.stack⟩

/-- `lua_rawset(L, -3)`: the value on top goes under the key below it. -/
def rawset : Except Fault Machine := do
  let a ← M.tableAt 3
  let k ← M.index 2
  let v ← M.index 1
  let h ← orFault .api (M.target.heap.rawset a k v)
  pop ⟨M.target.withHeap h, M.stack⟩ 2

/-- `lua_rawgeti(L, -1, i)` -/
def rawgeti (i : ℕ) : Except Fault Machine := do
  let a ← M.tableAt 1
  let t ← orFault .api (M.target.heap.table? a)
  pure (M.push (t.rawgeti i))

/-- `lua_next(L, -2)`: the key on top is replaced by the next key with
its value on top, or taken where there is no next one. -/
def next : Except Fault (Bool × Machine) := do
  let a ← M.tableAt 2
  let k ← M.index 1
  let t ← orFault .api (M.target.heap.table? a)
  let M ← M.pop 1
  match t.next k with
  | none => .error .luaError
  | some none => pure (false, M)
  | some (some e) => pure (true, (M.push e.1).push e.2)

/-- `luaL_getmetafield(L, -1, "collector")`: nothing is pushed where
there is no such field. -/
def getmetafield : Except Fault (Bool × Machine) := do
  match ← M.index 1 with
  | .table a =>
    match M.target.heap.table? a with
    | some t => pure (if t.collector then (true, M.push (.boolean true)) else (false, M))
    | none => pure (false, M)
  | _ => pure (false, M)

/-- `lua_rawset` on the object table. -/
def rawsetTbl : Except Fault Machine := do
  match ← M.index 2 with
  | .lightuserdata id =>
    let v ← M.index 1
    pop ⟨M.target.cacheObject v id, M.stack⟩ 2
  | _ => .error .api

/-- `lua_rawget` on the object table. -/
def rawgetTbl : Except Fault Machine := do
  match ← M.index 1 with
  | .lightuserdata id =>
    let M ← M.pop 1
    pure (M.push (M.target.fetchObject id))
  | _ => .error .api

/-- `lua_getupvalue(L, -1, i)`: nothing is pushed where there is no such
upvalue. -/
def getupvalue (i : ℕ) : Except Fault (Bool × Machine) := do
  let f ← M.functionAt 1
  match M.target.heap.upvalueid f i with
  | some x =>
    let v ← orFault .api (M.target.heap.cell? x)
    pure (true, M.push v)
  | none => pure (false, M)

/-- `lua_upvalueid(L, -2, i)` -/
def upvalueid (i : ℕ) : Except Fault Addr := do
  let f ← M.functionAt 2
  orFault .api (M.target.heap.upvalueid f i)

/-- `lua_setupvalue(L, -2, i)`, with the assertion that there is such an
upvalue. -/
def setupvalue (i : ℕ) : Except Fault Machine := do
  let f ← M.functionAt 2
  let v ← M.index 1
  let h ← orFault .assertion (M.target.heap.setupvalue f i v)
  pop ⟨M.target.withHeap h, M.stack⟩ 1

/-- `lua_upvaluejoin(L, -2, n, -1, m)` -/
def upvaluejoin (n m : ℕ) : Except Fault Machine := do
  let g ← M.functionAt 1
  let f ← M.functionAt 2
  let h ← orFault .api (M.target.heap.upvaluejoin f n g m)
  pure ⟨M.target.withHeap h, M.stack⟩

/-- `load_function_bytecode` -/
def loadFunctionBytecode (code : Proto) : Machine :=
  let f := loadbuffer al code M.target.heap
  ⟨M.target.withHeap f.2, .function f.1 :: M.stack⟩

/-! ## Dumping -/

/-- `unwrap_collector_maybe` -/
def unwrapCollectorMaybe : Except Fault (Option Addr × Machine) := do
  let (found, M) ← M.getmetafield
  if found then
    let M ← M.pop 1
    let collectorId ← M.topointer 1
    let M ← M.rawgeti 1
    let M ← M.remove 2
    pure (some collectorId, M)
  else pure (none, M)

/-- The most turns that a loop over the object on top can take: one for
each entry or upvalue, and the one that finds no more. -/
def turns : ℕ :=
  match M.stack.index 1 with
  | some (.table a) =>
    match M.target.heap.table? a with
    | some t => t.entries.length + 1
    | none => 1
  | some (.function a) =>
    match M.target.heap.closure? a with
    | some c => c.uvs.length + 1
    | none => 1
  | _ => 1

section Dump

variable (rec : Machine → Except Fault (SValue × Machine))

/-- The loop of `dump_table_entries`. `rec` is `serialize_object`. -/
def dumpTableLoop : ℕ → SEntries → Machine → Except Fault (SEntries × Machine)
  | 0, _, _ => .error .outOfFuel
  | n + 1, head, M => do
    let (more, M) ← M.next
    if more then
      let (collectorId, M) ← M.unwrapCollectorMaybe
      let (value, M) ← rec M
      let M ← M.pop 1
      let (key, M) ← rec M
      -- the key stays for `lua_next`
      dumpTableLoop n (.cons key value collectorId head) M
    else pure (head, M)

/-- `dump_table_entries` -/
def dumpTableEntries : Except Fault (SEntries × Machine) :=
  dumpTableLoop rec M.turns .nil (M.push .nil)

/-- `serialize_table` -/
def serializeTable : Except Fault (SValue × Machine) := do
  let id ← M.topointer 1
  let (entries, M) ← M.dumpTableEntries rec
  pure (.table id entries, M)

/-- `dump_function_bytecode`: the bytes are gathered on the stack.
`lua_dump` fails on a C function, and never writes nothing. -/
def dumpFunctionBytecode : Except Fault (Proto × Machine) := do
  let a ← M.functionAt 1
  match M.target.heap.lookup a with
  | some (.closure c) =>
    let M ← (M.push (.string c.proto.bytecode)).pop 1
    pure (c.proto, M)
  | some .cfunction => .error .fatal
  | _ => .error .api

/-- `serialize_upvalue` -/
def serializeUpvalue : Except Fault (SValue × Option Addr × Machine) := do
  let (collectorId, M) ← M.unwrapCollectorMaybe
  let (value, M) ← rec M
  pure (value, collectorId, M)

/-- The loop of `serialize_upvalues`, from upvalue `i` on. -/
def serializeUpvaluesLoop : ℕ → ℕ → SUpvalues → Machine → Except Fault (SUpvalues × Machine)
  | 0, _, _, _ => .error .outOfFuel
  | n + 1, i, list, M => do
    let (more, M) ← M.getupvalue i
    if more then
      let id ← M.upvalueid i
      let (value, collectorId, M) ← M.serializeUpvalue rec
      let M ← M.pop 1
      serializeUpvaluesLoop n (i + 1) (.cons id i value collectorId list) M
    else pure (list, M)

/-- `serialize_upvalues` -/
def serializeUpvalues : Except Fault (SUpvalues × Machine) :=
  serializeUpvaluesLoop rec M.turns 1 .nil M

/-- `serialize_function`, of the function on top. -/
def serializeFunctionWith : Except Fault (SFunction × Machine) := do
  let id ← M.topointer 1
  let (code, M) ← M.dumpFunctionBytecode
  let (upvalues, M) ← M.serializeUpvalues rec
  pure (⟨id, code, upvalues⟩, M)

end Dump

/-- `serialize_object`, of the value on top. -/
def serializeObject : ℕ → Machine → Except Fault (SValue × Machine)
  | 0, _ => .error .outOfFuel
  | n + 1, M => do
    match ← M.index 1 with
    | .nil => .error .assertNil
    | .number x => pure (.number x, M)
    | .boolean b => pure (.boolean b, M)
    | .string s => pure (.string (strdup s), M)
    | .table _ => M.serializeTable (fun M => serializeObject n M)
    | .function _ =>
      let (f, M) ← M.serializeFunctionWith (fun M => serializeObject n M)
      pure (f.toSValue, M)
    | .userdata _ => .error .assertion
    | .thread _ => .error .assertion
    | .lightuserdata _ => .error .assertion
    | .cdata _ => .error .assertion

/-- `serialize_value` -/
def serializeValue (n : ℕ) : Except Fault (SValue × Machine) := serializeObject n M

/-! ## Loading -/

/-- `map_object` -/
def mapObject (key objectId : Addr) : Machine := ⟨M.target.mapObject key objectId, M.stack⟩

/-- `map_upvalue` -/
def mapUpvalue (key functionId : Addr) (number : ℕ) : Machine :=
  ⟨M.target.mapUpvalue key functionId number, M.stack⟩

/-- `map_collector`, called where there is a collector id. -/
def mapCollectorMaybe (key : Option Addr) (objectId : Addr) (valueKey : SValue) :
    Except Fault Machine := do
  let σ ← Serialize.mapCollectorMaybe M.target key objectId valueKey
  pure ⟨σ, M.stack⟩

/-- `cache_object`, of the object on top. -/
def cacheObject : Except Fault (Addr × Machine) := do
  let id ← M.topointer 1
  let M := M.push (.lightuserdata id)
  let M ← M.pushvalue 2
  let M ← M.rawsetTbl
  pure (id, M)

/-- `fetch_object` -/
def fetchObject (id : Addr) : Except Fault Machine := (M.push (.lightuserdata id)).rawgetTbl

/-- `lookup_and_fetch_object` -/
def lookupAndFetchObject (key : Addr) : Except Fault (Bool × Machine) :=
  match M.target.lookupObject key with
  | some objectId => do
    let M ← (M.push (.lightuserdata objectId)).rawgetTbl
    pure (true, M)
  | none => pure (false, M)

/-- `push_function` before its loop. -/
def newFunction (id : Addr) (code : Proto) : Except Fault (Addr × Machine) := do
  let (funcId, M) ← (M.loadFunctionBytecode al code).cacheObject
  pure (funcId, M.mapObject id funcId)

/-- `push_table` before its loop. -/
def newTable (id : Addr) : Except Fault (Addr × Machine) := do
  let (tid, M) ← (M.newtable al).cacheObject
  pure (tid, M.mapObject id tid)

/-- `set_upvalue`; `push` is the `push_object` call. -/
def setUpvalue (number : ℕ) (push : Machine → Except Fault Machine) : Except Fault Machine := do
  let M ← push M
  M.setupvalue number

/-- `set_shared_upvalue`, of the function on top. -/
def setSharedUpvalue (funcId id : Addr) (number : ℕ) (collectorId : Option Addr)
    (push : Machine → Except Fault Machine) : Except Fault Machine :=
  match M.target.lookupUpvalue id with
  | some m => do
    let M ← M.fetchObject m.1
    let M ← M.upvaluejoin number m.2
    M.pop 1
  | none => do
    let M ← M.setUpvalue number push
    (M.mapUpvalue id funcId number).mapCollectorMaybe collectorId funcId
      (.number (.ofNat number))

mutual

/-- `push_object` -/
def pushObject : SValue → Machine → Except Fault Machine
  | .boolean b, M => pure (M.push (.boolean b))
  | .number n, M => pure (M.push (.number n))
  | .string s, M => pure (M.push (.string s))
  | .function id code upvalues, M => do
    let (found, M) ← M.lookupAndFetchObject id
    if found then pure M
    else
      let (funcId, M) ← M.newFunction al id code
      setSharedUpvalues funcId upvalues M
  | .table id entries, M => do
    let (found, M) ← M.lookupAndFetchObject id
    if found then pure M
    else
      let (tid, M) ← M.newTable al id
      pushEntries tid entries M

/-- The loop of `push_function`. -/
def setSharedUpvalues (funcId : Addr) : SUpvalues → Machine → Except Fault Machine
  | .nil, M => pure M
  | .cons id number value collectorId next, M => do
    let M ← M.setSharedUpvalue funcId id number collectorId (fun M => pushObject value M)
    setSharedUpvalues funcId next M

/-- The loop of `push_table`. -/
def pushEntries (tid : Addr) : SEntries → Machine → Except Fault Machine
  | .nil, M => pure M
  | .cons key value collectorId next, M => do
    let M ← pushObject key M
    let M ← pushObject value M
    let M ← M.rawset
    let M ← M.mapCollectorMaybe collectorId tid key
    pushEntries tid next M

end

/-- `push_function`: the key of the function, which is left on top. -/
def pushFunction (f : SFunction) : Except Fault (Addr × Machine) := do
  let (funcId, M) ← M.newFunction al f.id f.code
  let M ← setSharedUpvalues al funcId f.upvalues M
  pure (funcId, M)

/-- `deserialize_function` -/
def deserializeFunction (f : SFunction) : Except Fault (Addr × Machine) := M.pushFunction al f

end Machine

end Serialize

end Rushit
