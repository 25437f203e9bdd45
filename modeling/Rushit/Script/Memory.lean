import Rushit.Common.Run
import Rushit.Script.System
import Rushit.Serialize.Hooks
/-!
# Ids and the objects behind them

The ids in a stored hook are the addresses the captured objects had when
it was registered. The engine keeps the serialised copy and not the
objects, so they may be collected and their addresses handed out again
while the copy is there. An object is told from the earlier ones at its
address by a generation number, which the program does not have.

A collector is different: `register_collector_cb` keeps its table in the
registry, and its address is never handed out again.
-/

namespace Rushit

namespace Serialize

open Lua

mutual

/-- `a` is the id of a table, a function or an upvalue in the tree. -/
def SValue.Names (a : Addr) : SValue → Prop
  | .boolean _ => False
  | .number _ => False
  | .string _ => False
  | .function id _ upvalues => a = id ∨ upvalues.Names a
  | .table id entries => a = id ∨ entries.Names a

def SUpvalues.Names (a : Addr) : SUpvalues → Prop
  | .nil => False
  | .cons id _ value _ next => a = id ∨ value.Names a ∨ next.Names a

def SEntries.Names (a : Addr) : SEntries → Prop
  | .nil => False
  | .cons key value _ next => key.Names a ∨ value.Names a ∨ next.Names a

end

/-- An id of a hook. -/
def SFunction.Names (f : SFunction) (a : Addr) : Prop := f.toSValue.Names a

/-- The cache has an object or an upvalue for the id. -/
def Target.Finds (σ : Target) (a : Addr) : Prop :=
  a ∈ σ.objectMap.map Prod.fst ∨ a ∈ σ.upvalueMap.map Prod.fst

variable {al : Allocator} {a : Addr}

theorem finds_of_lookup {σ : Target} (h : σ.lookupObject a ≠ none ∨ σ.lookupUpvalue a ≠ none) :
    σ.Finds a := by
  rcases h with h | h
  · obtain ⟨o, ho⟩ := Option.ne_none_iff_exists'.mp h
    exact .inl (List.mem_map_of_mem (mem_of_lookup ho))
  · obtain ⟨m, hm⟩ := Option.ne_none_iff_exists'.mp h
    exact .inr (List.mem_map_of_mem (mem_of_lookup hm))

theorem mapCollectorMaybe_finds {σ σ' : Target} {w : Option Addr} {o : Addr} {k : SValue}
    (h : mapCollectorMaybe σ w o k = .ok σ') : σ'.Finds a ↔ σ.Finds a := by
  cases w with
  | none => cases h; exact Iff.rfl
  | some w =>
    obtain ⟨k', -, hret⟩ := bind_eq_ok.mp h
    cases hret; exact Iff.rfl

/-- An object that is created is found from then on. -/
theorem finds_of_created {σ σ' : Target} {id o : Addr} {u : Value} (hcr : Created σ id o u σ')
    (hf : σ'.Finds a) : σ.Finds a ∨ a = id := by
  rcases hf with hf | hf
  · rw [hcr.objectMap] at hf
    rcases List.mem_cons.mp hf with rfl | hf
    · exact .inr rfl
    · exact .inl (.inl hf)
  · rw [hcr.upvalueMap] at hf
    exact .inl (.inr hf)

mutual

/-- **The cache finds only ids of what was loaded.** -/
theorem pushObject_finds {t : SValue} {σ σ' : Target} {v : Value}
    (h : pushObject al t σ = .ok (v, σ')) (hf : σ'.Finds a) : σ.Finds a ∨ t.Names a := by
  cases t with
  | boolean b => cases h; exact .inl hf
  | number n => cases h; exact .inl hf
  | string s => cases h; exact .inl hf
  | function id code us =>
    rw [pushObject] at h
    split at h
    · cases h; exact .inl hf
    · obtain ⟨σ₁, hus, hret⟩ := bind_eq_ok.mp h
      cases hret
      rcases setSharedUpvalues_finds hus hf with hnew | hname
      · exact (finds_of_created (newFunction_spec al id code σ).1 hnew).imp_right .inl
      · exact .inr (.inr hname)
  | table id es =>
    rw [pushObject] at h
    split at h
    · cases h; exact .inl hf
    · obtain ⟨σ₁, hes, hret⟩ := bind_eq_ok.mp h
      cases hret
      rcases pushEntries_finds hes hf with hnew | hname
      · exact (finds_of_created (newTable_spec al id σ).1 hnew).imp_right .inl
      · exact .inr (.inr hname)

theorem setSharedUpvalues_finds {us : SUpvalues} {fid : Addr} {σ σ' : Target}
    (h : setSharedUpvalues al fid us σ = .ok σ') (hf : σ'.Finds a) :
    σ.Finds a ∨ us.Names a := by
  cases us with
  | nil => rw [setSharedUpvalues] at h; cases h; exact .inl hf
  | cons id number value collectorId next =>
    rw [setSharedUpvalues] at h
    obtain ⟨σ₁, hu, hnext⟩ := bind_eq_ok.mp h
    rcases setSharedUpvalues_finds hnext hf with hf | hname
    · unfold setSharedUpvalue at hu
      split at hu
      · split at hu
        · obtain ⟨heap, -, hret⟩ := bind_eq_ok.mp hu
          cases hret
          exact .inl hf
        · cases hu
      · obtain ⟨⟨v, σ₂⟩, hpush, hu⟩ := bind_eq_ok.mp hu
        obtain ⟨heap, -, hmap⟩ := bind_eq_ok.mp hu
        rcases (mapCollectorMaybe_finds hmap).mp hf with hobj | hup
        · exact (pushObject_finds hpush (.inl hobj)).imp_right fun h => .inr (.inl h)
        · rcases List.mem_cons.mp hup with rfl | hup
          · exact .inr (.inl rfl)
          · exact (pushObject_finds hpush (.inr hup)).imp_right fun h => .inr (.inl h)
    · exact .inr (.inr (.inr hname))

theorem pushEntries_finds {es : SEntries} {tid : Addr} {σ σ' : Target}
    (h : pushEntries al tid es σ = .ok σ') (hf : σ'.Finds a) : σ.Finds a ∨ es.Names a := by
  cases es with
  | nil => rw [pushEntries] at h; cases h; exact .inl hf
  | cons key value collectorId next =>
    rw [pushEntries] at h
    obtain ⟨⟨k, σ₁⟩, hkey, h⟩ := bind_eq_ok.mp h
    obtain ⟨⟨v, σ₂⟩, hvalue, h⟩ := bind_eq_ok.mp h
    obtain ⟨heap, -, h⟩ := bind_eq_ok.mp h
    obtain ⟨σ₃, hmap, hnext⟩ := bind_eq_ok.mp h
    rcases pushEntries_finds hnext hf with hf | hname
    · have hf₂ : σ₂.Finds a := (mapCollectorMaybe_finds hmap).mp hf
      rcases pushObject_finds hvalue hf₂ with hf₁ | hname
      · exact (pushObject_finds hkey hf₁).imp_right .inl
      · exact .inr (.inr (.inl hname))
    · exact .inr (.inr (.inr hname))

end

theorem deserializeFunction_finds {f : SFunction} {σ σ' : Target} {key : Addr}
    (h : deserializeFunction al f σ = .ok (key, σ')) (hf : σ'.Finds a) :
    σ.Finds a ∨ f.Names a := by
  obtain ⟨σ₁, hus, hret⟩ := bind_eq_ok.mp h
  cases hret
  rcases setSharedUpvalues_finds hus hf with hnew | hname
  · exact (finds_of_created (newFunction_spec al f.id f.code σ).1 hnew).imp_right .inl
  · exact .inr (.inr hname)

/-- After several hooks. -/
theorem deserializeFunctions_finds {fs : List SFunction} {σ σ' : Target} {keys : List Addr}
    (h : deserializeFunctions al fs σ = .ok (keys, σ')) (hf : σ'.Finds a) :
    σ.Finds a ∨ ∃ f ∈ fs, f.Names a := by
  induction fs generalizing σ keys with
  | nil => cases h; exact .inl hf
  | cons f fs ih =>
    obtain ⟨⟨key, σ₁⟩, hload, h⟩ := bind_eq_ok.mp h
    obtain ⟨⟨keys', σ₂⟩, hrest, hret⟩ := bind_eq_ok.mp h
    cases hret
    rcases ih hrest with hf₁ | ⟨g, hg, hname⟩
    · exact (deserializeFunction_finds hload hf₁).imp_right fun h => ⟨f, by simp, h⟩
    · exact .inr ⟨g, List.mem_cons_of_mem _ hg, hname⟩

end Serialize

namespace Script

open Lua Serialize

/-! ## The main script and its memory -/

/-- A registered hook, with the generation each address had when it was
serialised. -/
structure Made where
  tree : SFunction
  generation : Addr → ℕ

/-- The state of the main script: the engine, what the script still
refers to, how often each address was handed out, and the hooks made,
newest first. -/
structure Machine where
  engine : Engine
  roots : List Value
  generation : Addr → ℕ
  made : List Made

inductive Act
  /-- A new object at an address that is not in use. -/
  | alloc (a : Addr) (o : Obj)
  /-- A write to an object. -/
  | write (a : Addr) (o : Obj)
  /-- The script takes or drops references. -/
  | hold (roots : List Value)
  /-- Garbage collection leaves the heap `h`. -/
  | sweep (h : Heap)
  /-- `register_collector__(v)`. -/
  | collector (v : Value)
  /-- `client_socket(v)` and the other hook callbacks. -/
  | register (runMode : RunMode) (hid : HookId) (v : Value)

namespace Machine

variable (s : Machine)

/-- The machine at the start of the main script. -/
def create (h : Heap) (isClient : Bool) (roots : List Value) : Machine :=
  ⟨scriptEngineCreate h isClient, roots, fun _ => 0, []⟩

/-- What the collector of garbage must keep: what is reached from the
script or from the registry. -/
def Kept (x : Addr) : Prop :=
  ∃ v, (v ∈ s.roots ∨ ∃ k, (k, v) ∈ s.engine.registry) ∧ s.engine.heap.plain.ReachFrom v x

/-- One more object at the address `a`. -/
def handOut (generation : Addr → ℕ) (a : Addr) : Addr → ℕ :=
  fun x => if x = a then generation a + 1 else generation x

/-- The machine with another heap. -/
def withHeap (h : Heap) : Machine := { s with engine := { s.engine with heap := h } }

/-- **One step of the main script.** -/
def step (s : Machine) : Act → Machine → Prop
  | .alloc a o, s' => s.engine.heap.lookup a = none ∧
      s' = { s.withHeap ((a, o) :: s.engine.heap) with generation := handOut s.generation a }
  | .write a o, s' => s.engine.heap.Live a ∧ s' = s.withHeap ((a, o) :: s.engine.heap)
  | .hold roots, s' => s' = { s with roots := roots }
  | .sweep h, s' => (∀ x, s.Kept x → h.lookup x = s.engine.heap.lookup x) ∧
      (∀ x, h.lookup x = none ∨ h.lookup x = s.engine.heap.lookup x) ∧ s' = s.withHeap h
  | .collector v, s' => (∀ a, v = .table a → s.engine.heap.Live a) ∧
      ∃ e, registerCollector v s.engine = .ok e ∧ s' = { s with engine := e }
  | .register runMode hid v, s' => ∃ n e, storeHook n runMode hid v s.engine = .ok e ∧
      s' = ⟨e, s.roots, s.generation,
        match s.engine.hooks hid, e.hooks hid with
        | none, some f => ⟨f, s.generation⟩ :: s.made
        | _, _ => s.made⟩

/-- **What keeps ids apart**: no address named by a hook is handed out
again. -/
def NotReused (s : Machine) : Act → Prop
  | .alloc a _ => ∀ p ∈ s.made, ¬ p.tree.Names a
  | _ => True

/-- No address named by a hook was handed out since. -/
def Fresh (s : Machine) : Prop :=
  ∀ p ∈ s.made, ∀ a, p.tree.Names a → p.generation a = s.generation a

/-- Every step that reuses no id keeps them fresh. -/
theorem Fresh.step {s s' : Machine} {a : Act} (hf : s.Fresh) (ha : s.NotReused a)
    (hs : s.step a s') : s'.Fresh := by
  cases a with
  | alloc a o =>
    obtain ⟨-, rfl⟩ := hs
    intro p hp x hx
    -- an address that a tree names is not handed out again
    have hne : x ≠ a := by rintro rfl; exact ha p hp hx
    show p.generation x = handOut s.generation a x
    rw [handOut, if_neg hne]
    exact hf p hp x hx
  | write a o => obtain ⟨-, rfl⟩ := hs; exact hf
  | hold roots => cases hs; exact hf
  | sweep h => obtain ⟨-, -, rfl⟩ := hs; exact hf
  | collector v => obtain ⟨-, e, -, rfl⟩ := hs; exact hf
  | register runMode hid v =>
    obtain ⟨n, e, -, rfl⟩ := hs
    intro p hp x hx
    simp only at hp
    split at hp
    · rcases List.mem_cons.mp hp with rfl | hp
      · rfl
      · exact hf p hp x hx
    · exact hf p hp x hx

/-- **An id is one object.** In a run that hands out no address a stored
hook names, two hooks that have one id in common had one object there
when they were registered. So whatever hooks a slave has loaded, what
its cache finds under an id of a further hook was put there for the
object that the further hook captured. -/
theorem id_is_one_object (al : Allocator) {h : Heap} {isClient : Bool} {roots : List Value}
    {as : List Act} {s : Machine}
    (hrun : Run (Guarded Machine.step NotReused) (create h isClient roots) as s) :
    (∀ p ∈ s.made, ∀ q ∈ s.made, ∀ a, p.tree.Names a → q.tree.Names a →
      p.generation a = q.generation a) ∧
    ∀ ps : List Made, (∀ p ∈ ps, p ∈ s.made) → ∀ h₀ keys σ,
      deserializeFunctions al (ps.map Made.tree) (Target.start h₀) = .ok (keys, σ) →
      ∀ q ∈ s.made, ∀ a, q.tree.Names a →
        (σ.lookupObject a ≠ none ∨ σ.lookupUpvalue a ≠ none) →
        ∃ p ∈ ps, p.tree.Names a ∧ p.generation a = q.generation a := by
  have hf : s.Fresh := hrun.preserves_of_guarded (fun _ _ _ hf ha hs => hf.step ha hs)
    fun p hp => (List.not_mem_nil hp).elim
  have hsame : ∀ p ∈ s.made, ∀ q ∈ s.made, ∀ a, p.tree.Names a → q.tree.Names a →
      p.generation a = q.generation a := fun p hp q hq a hpa hqa => by
    rw [hf p hp a hpa, hf q hq a hqa]
  refine ⟨hsame, fun ps hps h₀ keys σ hload q hq a hqa hfound => ?_⟩
  -- a cache that was just created finds nothing
  rcases deserializeFunctions_finds hload (finds_of_lookup hfound) with hstart | ⟨f, hmem, hname⟩
  · rcases hstart with hm | hm <;> cases hm
  · obtain ⟨p, hp, rfl⟩ := List.mem_map.mp hmem
    exact ⟨p, hp, hname, hsame p (hps p hp) q hq a hname hqa⟩

/-! ### Two hooks that share a local -/

/-- `local n = 0`, and two functions that return `n`, both registered. -/
theorem id_is_one_object_shared : ∃ s : Machine, s.made.map (fun p => p.tree.id) = [3, 2] ∧
    ∀ p ∈ s.made, ∀ q ∈ s.made, ∀ a, p.tree.Names a → q.tree.Names a →
      p.generation a = q.generation a := by
  have hrun : ∃ s : Machine, Run (Guarded Machine.step NotReused) (create [] true [])
      [.alloc 1 (.cell (.ofNat 0)), .alloc 2 (.closure (.of [1] [1])),
        .alloc 3 (.closure (.of [2] [1])), .register .client .socket (.function 2),
        .register .client .close (.function 3)] s ∧ s.made.map (fun p => p.tree.id) = [3, 2] := by
    have hnone : ∀ p ∈ ([] : List Made), ∀ a, ¬ p.tree.Names a := by simp
    exact ⟨_, .cons ⟨fun p hp => hnone p hp _, rfl, rfl⟩
      (.cons ⟨fun p hp => hnone p hp _, rfl, rfl⟩ (.cons ⟨fun p hp => hnone p hp _, rfl, rfl⟩
        (.cons ⟨trivial, 1, _, rfl, rfl⟩ (.cons ⟨trivial, 1, _, rfl, rfl⟩ (.refl _))))), rfl⟩
  obtain ⟨s, hrun, hmade⟩ := hrun
  exact ⟨s, hmade, (id_is_one_object .above hrun).1⟩

/-! ### A table that is gone -/

/-- `{ b }`. -/
def single (b : Bool) : Table where
  entries := [(.ofNat 1, .boolean b)]
  collector := false
  nodup := by simp
  keyable := by simp [Value.ofNat, Number.ofNat, Value.keyable]
  value_ne_nil := by simp

/-- `do local t = { b }; f(function() return t end) end`, where `f` is
the callback of a hook: the table, the local and the function are at the
addresses 1 to 3. -/
def scope (b : Bool) (hid : HookId) : List Act :=
  [.alloc 1 (.table (single b)), .alloc 2 (.cell (.table 1)),
    .alloc 3 (.closure (.of [1] [2])), .hold [.function 3],
    .register .client hid (.function 3), .hold []]

/-- The heap after the scope. -/
def scopeHeap (b : Bool) : Heap :=
  [(3, .closure (.of [1] [2])), (2, .cell (.table 1)), (1, .table (single b))]

/-- What the scope stores. -/
def scopeTree (b : Bool) : SFunction :=
  ⟨3, ⟨[1], 1⟩, .cons 2 1 (.table 1 (.cons (.number (.ofNat 1)) (.boolean b) none .nil)) none .nil⟩

theorem scopeTree_names (b : Bool) : (scopeTree b).Names 1 := by
  simp [scopeTree, SFunction.Names, SFunction.toSValue, SValue.Names, SUpvalues.Names]

/-- How the scope counts the addresses it is given. -/
def scopeCount (generation : Addr → ℕ) : Addr → ℕ :=
  handOut (handOut (handOut generation 1) 2) 3

/-- The machine of a client script with the hooks `hooks`. -/
def client (h : Heap) (hooks : HookId → Option SFunction) (generation : Addr → ℕ)
    (made : List Made) : Machine :=
  ⟨⟨h, [], .client, hooks, []⟩, [], generation, made⟩

theorem run_scope (b : Bool) (hid : HookId) (hooks : HookId → Option SFunction)
    (hnone : hooks hid = none) (generation : Addr → ℕ) (made : List Made) :
    Run Machine.step (client [] hooks generation made) (scope b hid)
      (client (scopeHeap b) (fun i => if i = hid then some (scopeTree b) else hooks i)
        (scopeCount generation) (⟨scopeTree b, scopeCount generation⟩ :: made)) := by
  have hser : serializeFunction (scopeHeap b) 2 3 = .ok (scopeTree b) := by cases b <;> rfl
  have hstore : ∀ se : Engine, se.heap = scopeHeap b → se.runMode = .client →
      se.hooks hid = none → storeHook 2 .client hid (.function 3) se =
        .ok { se with hooks := fun i => if i = hid then some (scopeTree b) else se.hooks i } := by
    intro se hheap hmode hno
    simp [storeHook, hheap, hmode, hno, hser, bind, Except.bind, pure, Except.pure]
  refine .cons ⟨rfl, rfl⟩ (.cons ⟨rfl, rfl⟩ (.cons ⟨rfl, rfl⟩ (.cons rfl
    (.cons ⟨2, _, hstore _ rfl rfl hnone, rfl⟩ (.cons ?_ (.refl _))))))
  simp [step, client, hnone, scopeHeap, scopeCount, Machine.withHeap]

/-- **A reused address gives one hook the table of another**: between
two such scopes the first table is collected and its address handed out
again, and a slave that loads both hooks finds the first table in the
local of the second. -/
theorem reused_id : ∃ (as : List Act) (s : Machine), Run Machine.step (create [] true []) as s ∧
    ∃ p ∈ s.made, ∃ q ∈ s.made, p.tree.Names 1 ∧ q.tree.Names 1 ∧
      p.generation 1 ≠ q.generation 1 ∧ s.engine.heap.table? 1 = some (single false) ∧
      ∃ σ, deserializeFunctions .above [p.tree, q.tree] (Target.start []) = .ok ([2, 5], σ) ∧
        σ.heap.getupvalue 5 1 = some (.table 3) ∧ σ.heap.table? 3 = some (single true) := by
  have hfirst := run_scope true .socket (fun _ => none) rfl (fun _ => 0) []
  have hsweep : step (client (scopeHeap true)
      (fun i => if i = .socket then some (scopeTree true) else none) (scopeCount fun _ => 0)
      [⟨scopeTree true, scopeCount fun _ => 0⟩]) (.sweep []) (client []
      (fun i => if i = .socket then some (scopeTree true) else none) (scopeCount fun _ => 0)
      [⟨scopeTree true, scopeCount fun _ => 0⟩]) := by
    refine ⟨?_, fun x => .inl rfl, rfl⟩
    rintro x ⟨v, hv | ⟨k, hk⟩, -⟩
    · cases hv
    · cases hk
  have hsecond := run_scope false .close
    (fun i => if i = .socket then some (scopeTree true) else none) rfl
    (scopeCount fun _ => 0) [⟨scopeTree true, scopeCount fun _ => 0⟩]
  refine ⟨_, _, hfirst.append (.cons hsweep hsecond), _, List.mem_cons_of_mem _ List.mem_cons_self,
    _, List.mem_cons_self, scopeTree_names true, scopeTree_names false, ?_, rfl, _, rfl, rfl, rfl⟩
  show (1 : ℕ) ≠ 2
  decide

/-! ## The ids of collectors -/

/-- The collectors are in the heap, and the registry refers to them. -/
def CollectorsKept (s : Machine) : Prop :=
  ∀ c ∈ s.engine.collectors, s.engine.heap.Live c ∧ (c, .table c) ∈ s.engine.registry

theorem CollectorsKept.step {s s' : Machine} {a : Act} (hk : s.CollectorsKept)
    (hs : s.step a s') : s'.CollectorsKept := by
  cases a with
  | alloc a o =>
    obtain ⟨-, rfl⟩ := hs
    exact fun c hc => ⟨(hk c hc).1.of_suffix (List.suffix_cons _ _), (hk c hc).2⟩
  | write a o =>
    obtain ⟨-, rfl⟩ := hs
    exact fun c hc => ⟨(hk c hc).1.of_suffix (List.suffix_cons _ _), (hk c hc).2⟩
  | hold roots => cases hs; exact hk
  | sweep h =>
    obtain ⟨hkept, -, rfl⟩ := hs
    refine fun c hc => ⟨?_, (hk c hc).2⟩
    show h.lookup c ≠ none
    rw [hkept c ⟨.table c, .inr ⟨c, (hk c hc).2⟩, Graph.reachFrom_table .refl⟩]
    exact (hk c hc).1
  | collector v =>
    obtain ⟨hlive, e, he, rfl⟩ := hs
    unfold registerCollector at he
    split at he
    · rename_i a
      cases he
      intro c hc
      rcases List.mem_cons.mp hc with rfl | hc
      · exact ⟨hlive c rfl, List.mem_cons_self⟩
      · exact ⟨(hk c hc).1, List.mem_cons_of_mem _ (hk c hc).2⟩
    · cases he
  | register runMode hid v =>
    obtain ⟨n, e, he, rfl⟩ := hs
    rcases storeHook_hooks he with rfl | ⟨f, g, -, -, rfl⟩
    · exact hk
    · exact hk

/-- **The address of a collector is not handed out again**, whatever the
main script does. -/
theorem collector_not_reused {h : Heap} {isClient : Bool} {roots : List Value} {as : List Act}
    {s s' : Machine} {c : Addr} {o : Obj}
    (hrun : Run Machine.step (create h isClient roots) as s) (hc : c ∈ s.engine.collectors) :
    ¬ s.step (.alloc c o) s' := by
  have hk : s.CollectorsKept := hrun.preserves (fun _ _ _ hk hs => hk.step hs)
    fun _ hc => (List.not_mem_nil hc).elim
  rintro ⟨hfree, -⟩
  exact (hk c hc).1 hfree

end Machine

end Script

end Rushit
