import Rushit.Lua.Model
import Mathlib.Logic.Relation
import Mathlib.Data.List.Forall2
/-!
# The object graph of a heap

What a heap holds, as a graph of nodes: a table's entries, a closure's
prototype and cells, a cell's content. `Heap.plain` is the graph the Lua
code sees; `Heap.captured` is the graph the serialiser sees, where a
collector wrapper held by an upvalue cell or by a table entry is
replaced by the value it wraps and remembered as the slot's collector.

Two graphs agree along a correspondence of addresses (`Agree`) when
corresponding objects have the same kind, the same code and
corresponding content. For acyclic content that is equality of what the
two references unfold to.
-/

namespace Rushit

namespace Lua

/-- What an upvalue cell or a table entry holds, and the collector
wrapper it was found in. -/
structure Slot where
  value : Value
  collector : Option Addr
  deriving DecidableEq

/-- An object as a graph node. -/
inductive Node
  | table (entries : List (Value × Slot))
  | closure (c : Closure)
  | cell (s : Slot)
  deriving DecidableEq

/-- An object graph. -/
abbrev Graph := Addr → Option Node

/-- The address a value refers to, if it refers to a table or a
function. -/
def Value.ref? : Value → Option Addr
  | .table a => some a
  | .function a => some a
  | _ => none

/-- The addresses a node refers to. -/
def Node.children : Node → List Addr
  | .table es => es.flatMap fun e => e.1.ref?.toList ++ e.2.value.ref?.toList
  | .closure c => c.uvs
  | .cell s => s.value.ref?.toList

namespace Heap

variable (h : Heap)

/-- What `unwrap_collector_maybe` makes of a value: the element of a
collector wrapper and the wrapper's address, or the value itself. -/
def unwrapCollectorMaybe (v : Value) : Slot :=
  match v with
  | .table a =>
    match h.table? a with
    | some t => if t.collector then ⟨t.rawgeti 1, some a⟩ else ⟨v, none⟩
    | none => ⟨v, none⟩
  | _ => ⟨v, none⟩

/-- The graph the Lua code sees. -/
def plain : Graph := fun a =>
  match h.lookup a with
  | some (.table t) => some (.table (t.entries.map fun e => (e.1, ⟨e.2, none⟩)))
  | some (.closure c) => some (.closure c)
  | some (.cell v) => some (.cell ⟨v, none⟩)
  | _ => none

/-- The graph the serialiser sees. -/
def captured : Graph := fun a =>
  match h.lookup a with
  | some (.table t) => some (.table (t.entries.map fun e => (e.1, h.unwrapCollectorMaybe e.2)))
  | some (.closure c) => some (.closure c)
  | some (.cell v) => some (.cell (h.unwrapCollectorMaybe v))
  | _ => none

end Heap

/-- The nodes of a heap's graph are at addresses of the heap. -/
theorem mem_keys_of_captured {h : Heap} {a : Addr} {n : Node} (hn : h.captured a = some n) :
    a ∈ h.map Prod.fst := by
  by_contra hnot
  have hlook : h.lookup a = none := by
    rw [List.lookup_eq_none_iff]
    intro p hp
    have : a ≠ p.1 := fun heq => hnot (List.mem_map.mpr ⟨p, hp, heq.symm⟩)
    simpa using this
  simp [Heap.captured, hlook] at hn

namespace Graph

variable (G : Graph)

/-- `a` refers to `b`. -/
def Edge (a b : Addr) : Prop := ∃ n, G a = some n ∧ b ∈ n.children

/-- `b` is reached from `a`. -/
abbrev Reach : Addr → Addr → Prop := Relation.ReflTransGen G.Edge

/-- `b` is reached from what `a` refers to. -/
abbrev Below : Addr → Addr → Prop := Relation.TransGen G.Edge

/-- `b` is reached from the value `v`. -/
def ReachFrom (v : Value) (b : Addr) : Prop := ∃ a, v.ref? = some a ∧ G.Reach a b

/-- Every path from `a` ends. -/
abbrev Founded (a : Addr) : Prop := Acc (fun y x => G.Edge x y) a

/-- No cycle is reached from `v`: through tables, through upvalue cells
or through both. -/
def AcyclicFrom (v : Value) : Prop := ∀ b, G.ReachFrom v b → ¬ Relation.TransGen G.Edge b b

/-- `P` holds of every node reached from `v`. -/
def AllFrom (v : Value) (P : Node → Prop) : Prop :=
  ∀ b n, G.ReachFrom v b → G b = some n → P n

/-- A boolean, a number, a string, or a reference to a table or a Lua
closure that is there. -/
def Supports : Value → Prop
  | .boolean _ => True
  | .number _ => True
  | .string _ => True
  | .table a => ∃ es, G a = some (.table es)
  | .function a => ∃ c, G a = some (.closure c)
  | _ => False

instance decSupports : DecidablePred G.Supports
  | .boolean _ => isTrue trivial
  | .number _ => isTrue trivial
  | .string _ => isTrue trivial
  | .table a =>
    match ha : G a with
    | some (.table es) => isTrue ⟨es, ha⟩
    | some (.closure _) => isFalse (by rintro ⟨es, he⟩; simp [ha] at he)
    | some (.cell _) => isFalse (by rintro ⟨es, he⟩; simp [ha] at he)
    | none => isFalse (by rintro ⟨es, he⟩; simp [ha] at he)
  | .function a =>
    match ha : G a with
    | some (.closure c) => isTrue ⟨c, ha⟩
    | some (.table _) => isFalse (by rintro ⟨c, he⟩; simp [ha] at he)
    | some (.cell _) => isFalse (by rintro ⟨c, he⟩; simp [ha] at he)
    | none => isFalse (by rintro ⟨c, he⟩; simp [ha] at he)
  | .nil => isFalse id
  | .userdata _ => isFalse id
  | .thread _ => isFalse id
  | .lightuserdata _ => isFalse id
  | .cdata _ => isFalse id

/-- `a` is an upvalue cell. -/
def IsCell (a : Addr) : Prop := ∃ s, G a = some (.cell s)

instance decIsCell : DecidablePred G.IsCell := fun a =>
  match ha : G a with
  | some (.cell s) => isTrue ⟨s, ha⟩
  | some (.closure _) => isFalse (by rintro ⟨s, he⟩; simp [ha] at he)
  | some (.table _) => isFalse (by rintro ⟨s, he⟩; simp [ha] at he)
  | none => isFalse (by rintro ⟨s, he⟩; simp [ha] at he)

/-- A node all of whose content is supported. -/
def SupportsNode : Node → Prop
  | .table es => ∀ e ∈ es, G.Supports e.1 ∧ G.Supports e.2.value
  | .closure c => ∀ x ∈ c.uvs, G.IsCell x
  | .cell s => G.Supports s.value

instance decSupportsNode : DecidablePred G.SupportsNode
  | .table es => inferInstanceAs (Decidable (∀ e ∈ es, _))
  | .closure c => inferInstanceAs (Decidable (∀ x ∈ c.uvs, _))
  | .cell s => inferInstanceAs (Decidable (G.Supports s.value))

/-- `v` is supported, and so is everything reached from it. -/
def SupportedFrom (v : Value) : Prop := G.Supports v ∧ G.AllFrom v G.SupportsNode

variable {G} {a b : Addr} {v : Value}

theorem edge_upvalue {c : Closure} {x : Addr} (ha : G a = some (.closure c)) (hx : x ∈ c.uvs) :
    G.Edge a x := ⟨_, ha, hx⟩

/-- What a cell's content reaches, the cell reaches. -/
theorem reach_of_cell {s : Slot} (ha : G a = some (.cell s)) (hb : G.ReachFrom s.value b) :
    G.Reach a b := by
  obtain ⟨d, hd, hdb⟩ := hb
  exact .head ⟨_, ha, by simp [Node.children, hd]⟩ hdb

/-- What a key of a table reaches, the table reaches. -/
theorem reach_of_key {es : List (Value × Slot)} {e : Value × Slot} (ha : G a = some (.table es))
    (he : e ∈ es) (hb : G.ReachFrom e.1 b) : G.Reach a b := by
  obtain ⟨d, hd, hdb⟩ := hb
  exact .head ⟨_, ha, List.mem_flatMap.mpr ⟨e, he, by simp [hd]⟩⟩ hdb

/-- What a value of a table reaches, the table reaches. -/
theorem reach_of_entry {es : List (Value × Slot)} {e : Value × Slot} (ha : G a = some (.table es))
    (he : e ∈ es) (hb : G.ReachFrom e.2.value b) : G.Reach a b := by
  obtain ⟨d, hd, hdb⟩ := hb
  exact .head ⟨_, ha, List.mem_flatMap.mpr ⟨e, he, by simp [hd]⟩⟩ hdb

/-- What holds at every address of a heap holds of what is reached. -/
theorem allFrom_of_keys {h : Heap} {P : Node → Prop}
    (hall : ∀ a ∈ h.map Prod.fst, ∀ n ∈ h.captured a, P n) : h.captured.AllFrom v P :=
  fun b n _ hn => hall b (mem_keys_of_captured hn) n hn

theorem reachFrom_table (h : G.Reach a b) : G.ReachFrom (.table a) b := ⟨a, rfl, h⟩

theorem reachFrom_function (h : G.Reach a b) : G.ReachFrom (.function a) b := ⟨a, rfl, h⟩

end Graph

/-- A string without a NUL byte; every other value qualifies. -/
def Value.NulFree : Value → Prop
  | .string s => 0 ∉ s
  | _ => True

/-- No string in a node has a NUL byte. -/
def Node.NulFree : Node → Prop
  | .table es => ∀ e ∈ es, e.1.NulFree ∧ e.2.value.NulFree
  | .closure _ => True
  | .cell s => s.value.NulFree

instance : DecidablePred Value.NulFree
  | .string s => inferInstanceAs (Decidable (0 ∉ s))
  | .nil | .boolean _ | .number _ | .table _ | .function _ => isTrue trivial
  | .userdata _ | .thread _ | .lightuserdata _ | .cdata _ => isTrue trivial

instance : DecidablePred Node.NulFree
  | .table es => inferInstanceAs (Decidable (∀ e ∈ es, _))
  | .closure _ => isTrue trivial
  | .cell s => inferInstanceAs (Decidable s.value.NulFree)

/-- No slot of a node holds a collector wrapper. -/
def Node.Unwrapped : Node → Prop
  | .table es => ∀ e ∈ es, e.2.collector = none
  | .closure _ => True
  | .cell s => s.collector = none

instance : DecidablePred Node.Unwrapped
  | .table es => inferInstanceAs (Decidable (∀ e ∈ es, _))
  | .closure _ => isTrue trivial
  | .cell s => inferInstanceAs (Decidable (s.collector = none))

/-- A table key the serialiser can store with a collector: `copy_value`
takes booleans, numbers and strings. -/
def Value.Scalar : Value → Prop
  | .boolean _ => True
  | .number _ => True
  | .string _ => True
  | _ => False

instance : DecidablePred Value.Scalar
  | .boolean _ | .number _ | .string _ => isTrue trivial
  | .nil | .table _ | .function _ => isFalse id
  | .userdata _ | .thread _ | .lightuserdata _ | .cdata _ => isFalse id

/-- Wrappers stand under scalar keys only. -/
def Node.ScalarKeys : Node → Prop
  | .table es => ∀ e ∈ es, e.2.collector ≠ none → e.1.Scalar
  | .closure _ => True
  | .cell _ => True

instance : DecidablePred Node.ScalarKeys
  | .table es => inferInstanceAs (Decidable (∀ e ∈ es, _))
  | .closure _ => isTrue trivial
  | .cell _ => isTrue trivial

theorem Node.Unwrapped.scalarKeys {n : Node} (hn : n.Unwrapped) : n.ScalarKeys := by
  cases n with
  | table es => exact fun e he hne => absurd (hn e he) hne
  | closure c => trivial
  | cell s => trivial

/-- Without wrappers the serialiser sees what the Lua code sees. -/
theorem plain_of_captured {h : Heap} {a : Addr} {n : Node} (ha : h.captured a = some n)
    (hn : n.Unwrapped) : h.plain a = some n := by
  have hslot : ∀ v, (h.unwrapCollectorMaybe v).collector = none →
      h.unwrapCollectorMaybe v = ⟨v, none⟩ := by
    intro v hv
    unfold Heap.unwrapCollectorMaybe at hv ⊢
    split
    · split
      · split <;> simp_all
      · rfl
    · rfl
  unfold Heap.captured at ha
  unfold Heap.plain
  split at ha
  · rename_i t ht
    obtain rfl := Option.some.inj ha
    simp only [Option.some.injEq, Node.table.injEq, List.map_inj_left, Prod.mk.injEq, true_and]
    exact fun e he => (hslot e.2 (hn _ (List.mem_map_of_mem he))).symm
  · exact ha
  · rename_i v hv
    obtain rfl := Option.some.inj ha
    simp only [Option.some.injEq, Node.cell.injEq]
    exact (hslot v hn).symm
  · cases ha

/-! ## Correspondences -/

/-- A correspondence between two graphs: of objects (tables and
closures) and of upvalue cells. -/
structure Corr where
  obj : Addr → Addr → Prop
  cell : Addr → Addr → Prop

namespace Corr

variable (R : Corr)

/-- Corresponding values: equal, or references to corresponding
objects. -/
def Val : Value → Value → Prop
  | .table a, v' => ∃ a', v' = .table a' ∧ R.obj a a'
  | .function a, v' => ∃ a', v' = .function a' ∧ R.obj a a'
  | v, v' => v' = v

/-- Corresponding table entries. -/
def Entry (e e' : Value × Slot) : Prop := R.Val e.1 e'.1 ∧ R.Val e.2.value e'.2.value

/-- Corresponding nodes: the same entries in some order, the same code
over corresponding cells, or the same content. -/
def Node : Node → Node → Prop
  | .table es, .table es' => ∃ l, l.Perm es' ∧ List.Forall₂ R.Entry es l
  | .closure c, .closure c' => c.proto = c'.proto ∧ List.Forall₂ R.cell c.uvs c'.uvs
  | .cell s, .cell s' => R.Val s.value s'.value
  | _, _ => False

/-- Corresponding tables are identical exactly where their originals
are. -/
def TablesOneToOne (G : Graph) : Prop :=
  ∀ a a' b b' es, G a = some (.table es) → R.obj a a' → R.obj b b' → (a' = b' ↔ a = b)

/-- So are corresponding upvalue cells. -/
def CellsOneToOne : Prop :=
  ∀ c x d y, R.cell c x → R.cell d y → (x = y ↔ c = d)

end Corr

/-- **The two graphs agree along the correspondence.** -/
structure Agree (G G' : Graph) (R : Corr) : Prop where
  obj : ∀ a a', R.obj a a' → ∃ n n', G a = some n ∧ G' a' = some n' ∧ R.Node n n'
  cell : ∀ c x, R.cell c x → ∃ s s', G c = some (.cell s) ∧ G' x = some (.cell s') ∧
    R.Val s.value s'.value

/-- `v` in one graph and `v'` in the other unfold to the same value. -/
def SameValue (G : Graph) (v : Value) (G' : Graph) (v' : Value) : Prop :=
  ∃ R : Corr, Agree G G' R ∧ R.Val v v'

end Lua

end Rushit
