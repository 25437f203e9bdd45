import Mathlib.Data.List.Perm.Basic
import Mathlib.Data.Rat.Defs
/-!
# The Lua heap

The part of a Lua state the program reads and writes through the Lua C
API: values, tables, closures and upvalue cells, and the heap that holds
the objects by address. A heap is an association list, newest binding
first; `List.lookup` reads it and a write conses.

A collector wrapper is an ordinary table whose metatable has a
`collector` field; nothing else of a metatable is read.
-/

namespace Rushit

namespace Lua

/-- The address of a heap object, as `lua_topointer` and `lua_upvalueid`
report it. -/
abbrev Addr := ℕ

/-- A `lua_Number`. The program copies numbers, compares them as table
keys and builds small positive ones; it does no arithmetic on them. -/
inductive Number
  | finite (q : ℚ)
  | posInf
  | negInf
  | nan
  deriving DecidableEq

/-- The number a C integer converts to. -/
def Number.ofNat (n : ℕ) : Number := .finite n

/-- The C integer a number converts to. -/
def Number.toNat : Number → ℕ
  | .finite q => q.num.toNat / q.den
  | _ => 0

/-- The bytes of a Lua string. -/
abbrev LuaString := List UInt8

/-- A Lua value; objects are referred to by address. -/
inductive Value
  | nil
  | boolean (b : Bool)
  | number (n : Number)
  | string (s : LuaString)
  | table (a : Addr)
  | function (a : Addr)
  | userdata (a : Addr)
  | thread (a : Addr)
  | lightuserdata (a : Addr)
  | cdata (a : Addr)
  deriving DecidableEq

/-- The `i`-th array index, as a value. -/
def Value.ofNat (i : ℕ) : Value := .number (.ofNat i)

/-- Whether a value can be a table key: neither nil nor NaN. -/
def Value.keyable : Value → Bool
  | .nil => false
  | .number .nan => false
  | _ => true

/-- A table: its entries in the order `lua_next` visits them, and
whether its metatable has a `collector` field. -/
structure Table where
  entries : List (Value × Value)
  collector : Bool
  nodup : (entries.map Prod.fst).Nodup
  keyable : ∀ e ∈ entries, e.1.keyable = true
  value_ne_nil : ∀ e ∈ entries, e.2 ≠ .nil
  deriving DecidableEq

/-- A function prototype: what `lua_dump` writes and `luaL_loadbuffer`
reads back, and the number of upvalues it declares. -/
structure Proto where
  bytecode : List UInt8
  sizeuv : ℕ
  deriving DecidableEq

/-- A Lua closure: its prototype and the cells of its upvalues, upvalue
`i` at position `i - 1`. -/
structure Closure where
  proto : Proto
  uvs : List Addr
  size_eq : uvs.length = proto.sizeuv
  deriving DecidableEq

/-- The closure of a prototype that declares `uvs`. -/
def Closure.of (bytecode : List UInt8) (uvs : List Addr) : Closure :=
  ⟨⟨bytecode, uvs.length⟩, uvs, rfl⟩

/-- What an address holds. -/
inductive Obj
  | table (t : Table)
  | closure (c : Closure)
  /-- A function implemented in C; `lua_dump` fails on it. -/
  | cfunction
  /-- An upvalue cell. -/
  | cell (v : Value)
  deriving DecidableEq

/-- The objects of a Lua state, by address. -/
abbrev Heap := List (Addr × Obj)

/-! ## Tables -/

namespace Table

/-- `lua_newtable`. -/
def empty : Table where
  entries := []
  collector := false
  nodup := List.nodup_nil
  keyable := by simp
  value_ne_nil := by simp

/-- `lua_rawget`: nil where the key is absent. -/
def rawget (t : Table) (k : Value) : Value := (t.entries.lookup k).getD .nil

/-- `lua_rawgeti`. -/
def rawgeti (t : Table) (i : ℕ) : Value := t.rawget (.ofNat i)

/-- The entries under every key but `k`. -/
def without (t : Table) (k : Value) : List (Value × Value) := t.entries.filter (·.1 ≠ k)

theorem without_sublist (t : Table) (k : Value) : (t.without k).Sublist t.entries :=
  List.filter_sublist

/-- The table without its entry under `k`. -/
def erase (t : Table) (k : Value) : Table where
  entries := t.without k
  collector := t.collector
  nodup := t.nodup.sublist ((t.without_sublist k).map _)
  keyable e he := t.keyable e ((t.without_sublist k).subset he)
  value_ne_nil e he := t.value_ne_nil e ((t.without_sublist k).subset he)

theorem nodup_without_append (t : Table) (k v : Value) :
    ((t.without k ++ [(k, v)]).map Prod.fst).Nodup := by
  rw [List.map_append, List.nodup_append]
  refine ⟨t.nodup.sublist ((t.without_sublist k).map _), by simp, ?_⟩
  intro a ha b hb
  obtain ⟨e, he, rfl⟩ := List.mem_map.mp ha
  have hne : e.1 ≠ k := by simpa using (List.mem_filter.mp he).2
  simpa [List.mem_singleton.mp hb] using hne

/-- The table with `v` under `k`. -/
def insert (t : Table) (k v : Value) (hk : k.keyable = true) (hv : v ≠ .nil) : Table where
  entries := t.without k ++ [(k, v)]
  collector := t.collector
  nodup := t.nodup_without_append k v
  keyable e he := by
    rcases List.mem_append.mp he with h | h
    · exact t.keyable e ((t.without_sublist k).subset h)
    · rw [List.mem_singleton.mp h]; exact hk
  value_ne_nil e he := by
    rcases List.mem_append.mp he with h | h
    · exact t.value_ne_nil e ((t.without_sublist k).subset h)
    · rw [List.mem_singleton.mp h]; exact hv

/-- `lua_rawset`: storing nil removes the entry; nil and NaN are errors
as keys. -/
def rawset (t : Table) (k v : Value) : Option Table :=
  if hk : k.keyable = true then
    if hv : v = .nil then some (t.erase k) else some (t.insert k v hk hv)
  else none

/-- `lua_objlen`: the least border, counting the array indices present
from 1 up. -/
def objlen (t : Table) : ℕ :=
  ((List.range' 1 t.entries.length).takeWhile (fun i => t.rawgeti i ≠ .nil)).length

end Table

/-! ## Heap access -/

namespace Heap

variable (h : Heap)

/-- The table at an address. -/
def table? (a : Addr) : Option Table :=
  match h.lookup a with
  | some (.table t) => some t
  | _ => none

/-- The Lua closure at an address. -/
def closure? (a : Addr) : Option Closure :=
  match h.lookup a with
  | some (.closure c) => some c
  | _ => none

/-- The content of the upvalue cell at an address. -/
def cell? (a : Addr) : Option Value :=
  match h.lookup a with
  | some (.cell v) => some v
  | _ => none

/-- The cell of upvalue `n` of the closure at `f`: `lua_upvalueid`. -/
def upvalueid (f : Addr) (n : ℕ) : Option Addr :=
  match h.closure? f with
  | some c => if n = 0 then none else c.uvs[n - 1]?
  | none => none

/-- `lua_getupvalue`. -/
def getupvalue (f : Addr) (n : ℕ) : Option Value := (h.upvalueid f n).bind h.cell?

/-- `lua_setupvalue`: fails where the closure has no such upvalue. -/
def setupvalue (f : Addr) (n : ℕ) (v : Value) : Option Heap :=
  (h.upvalueid f n).map fun x => (x, .cell v) :: h

/-- `lua_upvaluejoin`: upvalue `n` of `f` refers to the cell of upvalue
`m` of `g` from now on. -/
def upvaluejoin (f : Addr) (n : ℕ) (g : Addr) (m : ℕ) : Option Heap :=
  match h.closure? f, h.upvalueid f n, h.upvalueid g m with
  | some c, some _, some x =>
    some ((f, .closure { c with
      uvs := c.uvs.set (n - 1) x
      size_eq := by rw [List.length_set]; exact c.size_eq }) :: h)
  | _, _, _ => none

/-- `lua_rawset` on the table at `a`. -/
def rawset (a : Addr) (k v : Value) : Option Heap :=
  match h.table? a with
  | some t => (t.rawset k v).map fun t' => (a, .table t') :: h
  | none => none

end Heap

/-! ## Allocation -/

/-- Where the next object goes: any policy that never hands out an
address in use. -/
structure Allocator where
  next : Heap → Addr
  lookup_next : ∀ h : Heap, h.lookup (next h) = none

/-- The policy that hands out the address above all in use. -/
def Allocator.above : Allocator where
  next h := (h.map Prod.fst).foldr max 0 + 1
  lookup_next h := by
    have hmax : ∀ l : List Addr, ∀ a ∈ l, a ≤ l.foldr max 0 := by
      intro l
      induction l with
      | nil => simp
      | cons b l ih =>
        intro a ha
        rcases List.mem_cons.mp ha with rfl | ha
        · exact Nat.le_max_left _ _
        · exact (ih a ha).trans (Nat.le_max_right _ _)
    rw [List.lookup_eq_none_iff]
    intro p hp
    have hle := hmax _ p.1 (List.mem_map_of_mem hp)
    have hne : (h.map Prod.fst).foldr max 0 + 1 ≠ p.1 :=
      Nat.ne_of_gt (Nat.lt_succ_of_le hle)
    simpa using hne

/-- Fresh upvalue cells, holding nil. -/
def newCells (al : Allocator) : ℕ → Heap → List Addr × Heap
  | 0, h => ([], h)
  | n + 1, h =>
    let x := al.next h
    let (xs, h') := newCells al n ((x, .cell .nil) :: h)
    (x :: xs, h')

theorem newCells_length (al : Allocator) (n : ℕ) (h : Heap) :
    (newCells al n h).1.length = n := by
  induction n generalizing h with
  | zero => rfl
  | succ n ih => simp [newCells, ih]

/-- `luaL_loadbuffer` of what `lua_dump` wrote: a closure of the dumped
prototype whose upvalues are fresh cells. -/
def loadbuffer (al : Allocator) (p : Proto) (h : Heap) : Addr × Heap :=
  let cells := newCells al p.sizeuv h
  let f := al.next cells.2
  (f, (f, .closure ⟨p, cells.1, newCells_length al p.sizeuv h⟩) :: cells.2)

/-- `lua_newtable`. -/
def newtable (al : Allocator) (h : Heap) : Addr × Heap :=
  (al.next h, (al.next h, .table Table.empty) :: h)

end Lua

end Rushit
