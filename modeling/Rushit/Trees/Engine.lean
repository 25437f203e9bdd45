import Rushit.Trees.Dump
import Rushit.Trees.Load
import Rushit.Trees.Script
/-!
# Runs of the engine in memory

What the engine and its slaves have allocated are the trees of the
hooks, the list of the collectors and a cache for each slave. Every step
does what it does on values, has no fault and keeps this, a pull frees
what it allocates, and when the slaves and the engine are destroyed
nothing is left.
-/

namespace Rushit

namespace Trees

open Lua
open Ram (Malloc access forEach Returns Mirrors Linked)
open Serialize (SValue SFunction Target)
open Script (RunMode HookId)

/-! ## The engine and its slaves in memory -/

/-- The function of a hook. -/
def HookAt : Option SFunction → Option ℕ → Cells → Prop
  | none, p, l => p = none ∧ l = []
  | some f, p, l => ∃ a, p = some a ∧ ValueAt f.toSValue (.function a) l

def collectorNode (a : ℕ) (next : Option ℕ) (id : Addr) (l : Cells) : Prop :=
  l = [⟨a, .collector next id⟩]

/-- The cells of an engine. -/
def EngineAt (se : Script.Engine) (p : ℕ) (l : Cells) : Prop :=
  ∃ (hooks : HookId → Option ℕ) (head : Option ℕ) (lh : HookId → Cells) (lc : Cells),
    (∀ hid, HookAt (se.hooks hid) (hooks hid) (lh hid)) ∧
    Linked collectorNode se.collectors head lc ∧
    l = ⟨p, .engine ⟨se.runMode, hooks, head⟩⟩ :: (hookIds.flatMap lh ++ lc)

/-- A slave in memory. -/
structure Place where
  slave : Script.Slave
  ptr : ℕ
  cache : ℕ
  cells : Cells
  cacheAt : CacheAt slave.target cache cells

namespace Place

def state (pl : Place) : Slave := ⟨pl.ptr, pl.slave.target.heap, pl.slave.target.objectTbl⟩

/-- The cells of a slave of the engine at `p`. -/
def all (p : ℕ) (pl : Place) : Cells :=
  ⟨pl.ptr, .slave ⟨p, pl.cache, pl.slave.hookKeys⟩⟩ :: pl.cells

end Place

/-- **The engine and its slaves, in memory**, and nothing else. -/
structure System.Rep (σ : Script.System) (s : System) : Prop where
  heap : s.heap = σ.engine.heap
  registry : s.registry = σ.engine.registry
  ram : ∃ (le : Cells) (places : List Place), EngineAt σ.engine s.engine le ∧
    places.map Place.slave = σ.slaves ∧ places.map Place.state = s.slaves ∧
    s.ram.Holds (le ++ places.flatMap (Place.all s.engine))

variable {al : Allocator} {mal : Malloc Cell} {n p i : ℕ} {σ : Script.System} {s : System}
variable {se : Script.Engine} {m : Ram Cell} {k l le rest : Cells} {hid : HookId} {id : Addr}

theorem mem_hookIds (hid : HookId) : hid ∈ hookIds := by
  cases hid <;> simp [hookIds]

/-- What a hook has is among what all have. -/
theorem hook_subperm (lh : HookId → Cells) (hid : HookId) (e : Σ _ : ℕ, Cell) (lc k : Cells) :
    (lh hid).Subperm ((e :: (hookIds.flatMap lh ++ lc)) ++ k) := by
  refine List.Sublist.subperm (List.Sublist.trans ?_ (List.sublist_append_left _ _))
  refine List.Sublist.trans ?_ ((List.sublist_append_left _ _).cons e)
  rw [List.flatMap_def]
  exact List.sublist_flatten_of_mem (List.mem_map_of_mem (mem_hookIds hid))

theorem collectors_subperm (lh : HookId → Cells) (e : Σ _ : ℕ, Cell) (lc k : Cells) :
    lc.Subperm ((e :: (hookIds.flatMap lh ++ lc)) ++ k) :=
  List.Sublist.subperm (((List.sublist_append_right _ _).cons e).trans
    (List.sublist_append_left _ _))

/-- One more hook. -/
theorem flatMap_hook_perm {ids : List HookId} (hmem : hid ∈ ids) (hids : ids.Nodup)
    (lh : HookId → Cells) (h : lh hid = []) :
    (ids.flatMap fun i => if i = hid then l else lh i).Perm (l ++ ids.flatMap lh) := by
  induction ids with
  | nil => cases hmem
  | cons j ids ih =>
    obtain ⟨hj, hids⟩ := List.nodup_cons.mp hids
    rw [List.flatMap_cons, List.flatMap_cons]
    rcases List.mem_cons.mp hmem with rfl | hmem
    · rw [if_pos rfl, h, List.nil_append]
      refine List.Perm.append_left _ (.of_eq (List.flatMap_congr fun i hi => if_neg ?_))
      rintro rfl
      exact hj hi
    · rw [if_neg (ne_of_mem_of_not_mem hmem hj).symm]
      exact ((ih hmem hids).append_left _).trans (List.perm_append_comm_assoc _ _ _)

namespace System

/-! ## The main script -/

/-- **`script_engine_create`** -/
theorem Rep.create (mal : Malloc Cell) (h : Heap) (isClient : Bool) :
    Rep (.create h isClient) (scriptEngineCreate mal h isClient) :=
  ⟨rfl, rfl, _, [], ⟨fun _ => none, none, fun _ => [], [], fun _ => ⟨rfl, rfl⟩, .nil, rfl⟩, rfl,
    rfl, Ram.Holds.malloc .empty mal _⟩

/-- **`store_hook`** -/
theorem storeHook_mirrors (hrep : Rep σ s) (runMode : RunMode) (hid : HookId) (v : Value) :
    Mirrors (Script.storeHook n runMode hid v σ.engine) (storeHook mal n runMode hid v s)
      fun e s' => Rep ⟨e, σ.slaves⟩ s' := by
  obtain ⟨hheap, hreg, _, places, ⟨hooks, head, lh, lc, hh, hc, rfl⟩, hσ, hs, hm⟩ := hrep
  cases v with
  | function a =>
    unfold Script.storeHook storeHook
    refine .read (hm.read List.mem_cons_self rfl) ?_
    dsimp only
    by_cases hmode : σ.engine.runMode = runMode
    · rw [if_pos hmode, if_pos hmode]
      have hhid := hh hid
      cases hf : σ.engine.hooks hid with
      | some f =>
        rw [hf] at hhid
        obtain ⟨p, hp, -⟩ := hhid
        rw [hp]
        exact .error
      | none =>
        rw [hf] at hhid
        obtain ⟨hp, hl⟩ := hhid
        rw [hp, hheap]
        refine (serializeFunction_mirrors hm).bind ?_
        rintro f ⟨p, m₁⟩ ⟨lf, hat, hm₁⟩
        refine .of_returns (hm₁.modify rfl _).access fun m₂ hm₂ => .pure ?_
        refine ⟨rfl, hreg, _, places, ⟨fun i => if i = hid then some p else hooks i, head,
          fun i => if i = hid then lf else lh i, lc, fun i => ?_, hc, rfl⟩, hσ, hs, hm₂.perm ?_⟩
        · by_cases hi : i = hid
          · simp only [if_pos hi]
            exact ⟨p, rfl, hat⟩
          · simp only [if_neg hi]
            exact hh i
        · refine List.perm_middle.trans (.cons _ ?_)
          have hperm := flatMap_hook_perm (l := lf) (mem_hookIds hid) (by decide) lh hl
          simpa using (hperm.append_right (lc ++ places.flatMap (Place.all s.engine))).symm
    · rw [if_neg hmode, if_neg hmode]
      exact .pure ⟨hheap, hreg, _, places, ⟨hooks, head, lh, lc, hh, hc, rfl⟩, hσ, hs, hm⟩
  | _ => exact .error

/-- **`register_collector_cb`** -/
theorem registerCollector_mirrors (hrep : Rep σ s) (v : Value) :
    Mirrors (Script.registerCollector v σ.engine) (registerCollector mal v s)
      fun e s' => Rep ⟨e, σ.slaves⟩ s' := by
  obtain ⟨hheap, hreg, _, places, ⟨hooks, head, lh, lc, hh, hc, rfl⟩, hσ, hs, hm⟩ := hrep
  cases v with
  | table a =>
    unfold Script.registerCollector registerCollector
    refine .read (hm.read List.mem_cons_self rfl) ?_
    obtain ⟨p, m₁, hp, hm₁⟩ := hm.exists_malloc mal (.collector head a)
    simp only [hp]
    refine .of_returns (Ram.Holds.modify (l := [_]) hm₁ rfl _).access fun m₂ hm₂ => .pure ?_
    refine ⟨hheap, congrArg ((a, Value.table a) :: ·) hreg, _, places, ⟨hooks, some p, lh, _, hh,
      hc.cons (a := p) (x := a) rfl, rfl⟩, hσ, hs, hm₂.perm ?_⟩
    refine (List.Perm.swap _ _ _).trans (.cons _ ?_)
    simp only [List.append_eq, List.append_assoc, List.cons_append, List.nil_append]
    exact List.perm_middle.symm
  | _ => exact .error

/-- **`collect`** -/
theorem collect_mirrors (hrep : Rep σ s) (v : Value) :
    Mirrors (Script.collect al v σ.engine) (collect al mal v s)
      fun r r' => Rep ⟨r.2, σ.slaves⟩ r'.2 := by
  unfold Script.collect collect
  dsimp only
  rw [hrep.heap]
  have hnew : Rep ⟨{ σ.engine with heap := (al.next σ.engine.heap, .table (Script.wrapper v)) ::
      σ.engine.heap }, σ.slaves⟩ { s with heap := (al.next σ.engine.heap,
      .table (Script.wrapper v)) :: σ.engine.heap } := ⟨rfl, hrep.registry, hrep.ram⟩
  refine (registerCollector_mirrors hnew _).bind fun e s' hrep' => ?_
  exact .pure hrep'

/-- **`empty_collectors`** -/
theorem emptyCollectors_mirrors (hrep : Rep σ s) :
    Mirrors (Script.emptyCollectors σ.engine) (emptyCollectors s)
      fun e s' => Rep ⟨e, σ.slaves⟩ s' := by
  obtain ⟨hheap, hreg, _, places, ⟨hooks, head, lh, lc, hh, hc, rfl⟩, hσ, hs, hm⟩ := hrep
  have hall := collectors_subperm lh ⟨s.engine, .engine ⟨σ.engine.runMode, hooks, head⟩⟩ lc
    (places.flatMap (Place.all s.engine))
  unfold Script.emptyCollectors emptyCollectors
  rw [hreg, hheap]
  refine .read (hm.read List.mem_cons_self rfl) ((Linked.forEach (l := lc)
    (I := fun h r => r = (h, s.ram)) ?_ ?_ ?_ hc (List.Subset.refl lc) ?_ rfl).bind ?_)
  · rintro a next id l rfl
    exact ⟨_, List.mem_cons_self, rfl⟩
  · rintro h _ rfl
    exact ⟨_, hall.subset, hm⟩
  · rintro a next id l h _ rfl hl rfl
    unfold emptyCollector
    rw [← bind_pure (Script.emptyCollector σ.engine.registry h id)]
    refine .read (hm.read (hall.subset (hl List.mem_cons_self)) rfl) (Mirrors.lift.bind ?_)
    rintro h' _ rfl
    exact .pure rfl
  · exact hall.length_le.trans (List.Perm.length_eq hm).ge
  · rintro h _ rfl
    exact .pure ⟨rfl, rfl, _, places, ⟨hooks, head, lh, lc, hh, hc, rfl⟩, hσ, hs, hm⟩

/-! ## Slaves -/

/-- **`script_slave_create`** -/
theorem Rep.scriptSlaveCreate (hrep : Rep σ s) (h : Heap) :
    Returns (scriptSlaveCreate mal h s)
      (Rep ⟨σ.engine, σ.slaves ++ [Script.scriptSlaveCreate h]⟩) := by
  obtain ⟨hheap, hreg, le, places, hse, hσ, hs, hm⟩ := hrep
  obtain ⟨p, m₁, hp, hm₁⟩ := hm.exists_malloc mal (.slave ⟨0, 0, fun _ => none⟩)
  obtain ⟨cache, m₂, l, hnew, hcache, hm₂⟩ := exists_upvalueCacheNew mal hm₁ h []
  let pl : Place := ⟨Script.scriptSlaveCreate h, p, cache, l, hcache⟩
  have hflat : (places ++ [pl]).flatMap (Place.all s.engine) =
      places.flatMap (Place.all s.engine) ++ pl.all s.engine := by simp
  unfold System.scriptSlaveCreate
  simp only [hp, hnew]
  refine .of_access (hm₂.modify rfl _) fun m₃ hm₃ => ?_
  refine .of_access (hm₃.modify rfl _) fun m₄ hm₄ => .pure ?_
  have hm₅ : m₄.Holds (pl.all s.engine ++ (le ++ places.flatMap (Place.all s.engine))) :=
    hm₄.perm List.perm_middle
  refine ⟨hheap, hreg, le, places ++ [pl], hse, ?_, ?_, ?_⟩
  · rw [List.map_append, hσ]
    rfl
  · rw [List.map_append, hs]
    rfl
  · dsimp only
    rw [hflat, ← List.append_assoc]
    exact hm₅.perm List.perm_append_comm

end System

/-- A slave as a state that is loaded into. -/
theorem Place.rep (pl : Place) (hm : m.Holds (pl.all p ++ k)) :
    Load.Rep pl.cache (⟨pl.ptr, .slave ⟨p, pl.cache, pl.slave.hookKeys⟩⟩ :: k) pl.slave.target
      ⟨pl.slave.target.heap, pl.slave.target.objectTbl, m⟩ :=
  ⟨rfl, rfl, _, pl.cacheAt, hm.perm List.perm_middle.symm⟩

namespace System

/-- **`push_hook`** -/
theorem pushHook_mirrors (pl : Place) (hse : EngineAt se p le)
    (hm : m.Holds (pl.all p ++ (le ++ rest))) :
    Mirrors (Script.pushHook al se hid pl.slave) (pushHook al mal hid pl.state m) fun r r' =>
      r'.1 = r.1 ∧ ∃ pl' : Place, pl'.slave = r.2 ∧ pl'.state = r'.2.1 ∧
        r'.2.2.Holds (pl'.all p ++ (le ++ rest)) := by
  unfold Script.pushHook pushHook
  refine .read (hm.read List.mem_cons_self rfl) ?_
  dsimp only
  cases hkey : pl.slave.hookKeys hid with
  | some key => exact .pure ⟨rfl, pl, rfl, rfl, hm⟩
  | none =>
    obtain ⟨hooks, head, lh, lc, hh, hc, rfl⟩ := hse
    refine .read (hm.read (List.mem_append_right _ List.mem_cons_self) rfl) ?_
    have hhid := hh hid
    dsimp only
    cases hf : se.hooks hid with
    | none =>
      rw [hf] at hhid
      obtain ⟨hp, -⟩ := hhid
      rw [hp]
      exact .pure ⟨rfl, pl, rfl, rfl, hm⟩
    | some f =>
      rw [hf] at hhid
      obtain ⟨a, hp, hat⟩ := hhid
      rw [hp]
      refine (deserializeFunction_mirrors hat ((hook_subperm lh hid _ lc rest).trans
        (List.Sublist.subperm (List.sublist_cons_self _ _))) (pl.rep hm)).bind ?_
      rintro ⟨key, τ⟩ ⟨key', t⟩ ⟨rfl, hrep⟩
      have hfetch : t.fetchObject key' = τ.fetchObject key' := hrep.fetchObject
      obtain ⟨hheap, htbl, lcache, hcache, hm'⟩ := hrep
      refine .of_returns (hm'.modify rfl _).access fun m'' hm'' => .pure ?_
      refine ⟨congrArg some hfetch, ⟨⟨τ, fun i => if i = hid then some key' else
        pl.slave.hookKeys i⟩, pl.ptr, pl.cache, lcache, hcache⟩, rfl, ?_,
        hm''.perm List.perm_middle⟩
      exact congrArg₂ (Slave.mk pl.ptr) hheap.symm htbl.symm

/-! ## Pulling the collected values -/

/-- **`get_collected_value`** -/
theorem getCollectedValue_mirrors (pl : Place) (hm : m.Holds (pl.all p ++ k)) :
    Mirrors (Script.getCollectedValue al n pl.slave id) (getCollectedValue al mal n pl.state id m)
      (MadeSvalue (pl.all p ++ k)) := by
  unfold Script.getCollectedValue getCollectedValue
  refine .read (hm.read List.mem_cons_self rfl)
    ((pushCollectedValue_mirrors (pl.rep hm) id).bind ?_)
  rintro v _ rfl
  exact serializeValue_mirrors hm

section Pull

variable {τ : Target} {t : Load} {cache q : ℕ} {c : CValue} {sv : SValue} {lt : Cells}
variable {registry : List (Addr × Value)}

/-- **`add_collected_value`** -/
theorem addCollectedValue_mirrors (hq : ⟨q, .value c⟩ ∈ k) (hsv : ValueAt sv c lt)
    (hsub : lt.Subperm k) (hrep : Load.Rep cache k τ t) :
    Mirrors (Script.addCollectedValue al registry id sv τ)
      (addCollectedValue al mal cache registry id q t) (Load.Rep cache k) := by
  unfold Script.addCollectedValue addCollectedValue
  cases hlook : registry.lookup id with
  | none => exact .error
  | some v =>
    cases v with
    | table a =>
      dsimp only
      rw [hrep.heap]
      cases τ.heap.table? a with
      | none => exact .error
      | some tbl =>
        refine (deserializeValue_mirrors hq hsv hsub hrep).bind ?_
        rintro ⟨v, τ'⟩ ⟨v', t'⟩ ⟨rfl, hrep'⟩
        have hheap : t'.heap = τ'.heap := hrep'.heap
        dsimp only
        rw [hheap]
        refine Mirrors.lift.bind ?_
        rintro heap _ rfl
        exact .pure (hrep'.withHeap _)
    | _ => exact .error

/-- **`free_svalue`** frees what `serialize_value` allocates. -/
theorem freeSvalue_returns (hsv : ValueAt sv c lt) (hm : m.Holds (⟨q, .value c⟩ :: (lt ++ k))) :
    Returns (freeSvalue (some q) m) fun m' => m'.Holds k := by
  unfold freeSvalue
  refine .of_read (hm.read List.mem_cons_self rfl) ?_
  have hm' : m.Holds (lt ++ (⟨q, .value c⟩ :: k)) := hm.perm List.perm_middle.symm
  refine (freeValueData_returns sv hsv hm' hm'.length_le).bind fun m' hm' => ?_
  exact (Ram.Holds.free (l := []) hm').access

/-- **One collector** of a pull: the tree in between is freed. -/
theorem pullCollector_mirrors (pl : Place) {a : ℕ} {next : Option ℕ}
    (hcell : ⟨a, .collector next id⟩ ∈ pl.all p ++ rest)
    (hrep : Load.Rep cache (pl.all p ++ rest) τ t) :
    Mirrors (do
      let sv ← Script.getCollectedValue al n pl.slave id
      Script.addCollectedValue al registry id sv τ)
      (pullCollector al mal n pl.state cache registry a t)
      (Load.Rep cache (pl.all p ++ rest)) := by
  unfold pullCollector
  refine .read (hrep.read hcell rfl) ?_
  obtain ⟨hheap, htbl, lcache, hcache, hm⟩ := hrep
  have hm₁ : t.ram.Holds (pl.all p ++ (lcache ++ rest)) :=
    hm.perm (List.perm_append_comm_assoc _ _ _)
  refine (getCollectedValue_mirrors pl hm₁).bind ?_
  rintro sv ⟨q, m⟩ ⟨c, lt, hsv, hm₂⟩
  have hm₃ : m.Holds (lcache ++ ⟨q, .value c⟩ :: (lt ++ (pl.all p ++ rest))) := by
    refine hm₂.perm (List.Perm.trans (.cons _ ?_) List.perm_middle.symm)
    refine List.Perm.trans (List.Perm.append_left _ ?_) (List.perm_append_comm_assoc _ _ _)
    exact List.perm_append_comm_assoc _ _ _
  have hrep₁ : Load.Rep cache (⟨q, .value c⟩ :: (lt ++ (pl.all p ++ rest))) τ
      { t with ram := m } := ⟨hheap, htbl, lcache, hcache, hm₃⟩
  have hsub : lt.Subperm (⟨q, .value c⟩ :: (lt ++ (pl.all p ++ rest))) :=
    List.Sublist.subperm ((List.sublist_append_left _ _).cons _)
  rw [← bind_pure (Script.addCollectedValue al registry id sv τ)]
  refine (addCollectedValue_mirrors List.mem_cons_self hsv hsub hrep₁).bind ?_
  rintro τ' t' ⟨hheap', htbl', lcache', hcache', hm₄⟩
  have hm₅ : t'.ram.Holds (⟨q, .value c⟩ :: (lt ++ (lcache' ++ (pl.all p ++ rest)))) :=
    hm₄.perm (List.perm_middle.trans (.cons _ (List.perm_append_comm_assoc _ _ _)))
  refine .of_returns (freeSvalue_returns hsv hm₅) fun m₆ hm₆ => .pure ?_
  exact ⟨hheap', htbl', lcache', hcache', hm₆⟩

end Pull

/-- **`script_engine_pull_data`** frees what it allocates. -/
theorem scriptEnginePullData_mirrors (pl : Place) (hheap : s.heap = se.heap)
    (hreg : s.registry = se.registry) (hse : EngineAt se s.engine le)
    (hm : s.ram.Holds (pl.all s.engine ++ (le ++ rest))) :
    Mirrors (Script.scriptEnginePullData al n se pl.slave)
      (scriptEnginePullData al mal n pl.state s) fun e s' =>
        e = { se with heap := e.heap } ∧ s' = { s with heap := e.heap, ram := s'.ram } ∧
          s'.ram.Holds (pl.all s.engine ++ (le ++ rest)) := by
  obtain ⟨m, p, heap, registry, slaves⟩ := s
  dsimp only at hheap hreg hse hm
  subst hheap hreg
  obtain ⟨hooks, head, lh, lc, hh, hc, rfl⟩ := hse
  unfold Script.scriptEnginePullData scriptEnginePullData
  obtain ⟨cache, m₁, lcache, hnew, hcache, hm₁⟩ :=
    exists_upvalueCacheNew mal hm se.heap []
  simp only [hnew]
  refine .read (hm₁.read (List.mem_append_right _ (List.mem_append_right _
    List.mem_cons_self)) rfl) ?_
  have hrep : Load.Rep cache _ _ ⟨se.heap, [], m₁⟩ := ⟨rfl, rfl, lcache, hcache, hm₁⟩
  have hall := (collectors_subperm lh ⟨p, .engine ⟨se.runMode, hooks, head⟩⟩ lc rest).trans
    (List.Sublist.subperm (List.sublist_append_right (pl.all p) _))
  refine (Linked.forEach (l := lc) (I := Load.Rep cache _) ?_ ?_ ?_ hc (List.Subset.refl lc)
    (hrep.length_le hall) hrep).bind ?_
  · rintro a next id l rfl
    exact ⟨_, List.mem_cons_self, rfl⟩
  · rintro τ t ⟨-, -, l, -, hm⟩
    exact ⟨_, List.Subset.trans hall.subset (List.subset_append_right _ _), hm⟩
  · rintro a next id l τ t rfl hl hrep
    exact pullCollector_mirrors pl (hall.subset (hl List.mem_cons_self)) hrep
  · rintro τ t ⟨hheap', -, l, hcache', hm'⟩
    refine .of_returns (freeUpvalueCache_returns hcache' hm') fun m₂ hm₂ => .pure ?_
    exact ⟨rfl, congrArg (System.mk m₂ p · _ _) hheap', hm₂⟩

/-! ## The end -/

/-- **`script_slave_destroy`** -/
theorem scriptSlaveDestroy_returns (pl : Place) (hm : m.Holds (pl.all p ++ k)) :
    Returns (scriptSlaveDestroy m pl.state) fun m' => m'.Holds k := by
  unfold scriptSlaveDestroy
  refine .of_read (hm.read List.mem_cons_self rfl) ?_
  have hm' : m.Holds (pl.cells ++ (⟨pl.ptr, .slave ⟨p, pl.cache, pl.slave.hookKeys⟩⟩ :: k)) :=
    hm.perm List.perm_middle.symm
  refine (freeUpvalueCache_returns pl.cacheAt hm').bind fun m' hm' => ?_
  exact (Ram.Holds.free (l := []) hm').access

/-- All slaves, by induction on them. -/
theorem destroySlaves_returns {places : List Place}
    (hm : m.Holds (places.flatMap (Place.all p) ++ k)) :
    Returns ((places.map Place.state).foldlM scriptSlaveDestroy m) fun m' => m'.Holds k := by
  induction places generalizing m with
  | nil => exact .pure hm
  | cons pl places ih =>
    rw [List.flatMap_cons, List.append_assoc] at hm
    rw [List.map_cons, List.foldlM_cons]
    exact (scriptSlaveDestroy_returns pl hm).bind fun m' hm' => ih hm'

/-- **`free_sfunction`** of what a hook has, if it has one. -/
theorem freeSfunction_returns {f : Option SFunction} {q : Option ℕ} (hat : HookAt f q l)
    (hm : m.Holds (l ++ k)) : Returns (freeSfunction q m) fun m' => m'.Holds k := by
  cases f with
  | none =>
    obtain ⟨rfl, rfl⟩ := hat
    exact .pure hm
  | some f =>
    obtain ⟨a, rfl, hat⟩ := hat
    exact freeValueData_returns (n := m.size + 1) f.toSValue hat hm
      (hm.length_le.trans (Nat.le_succ _))

/-- The loop over the hooks, by induction on their ids. -/
theorem freeHooks_returns {ids : List HookId} {lh : HookId → Cells} {c : CEngine}
    (hh : ∀ hid, HookAt (se.hooks hid) (c.hooks hid) (lh hid))
    (hm : m.Holds (⟨p, .engine c⟩ :: (ids.flatMap lh ++ k))) :
    Returns (ids.foldlM (freeHook p) m) fun m' => m'.Holds (⟨p, .engine c⟩ :: k) := by
  induction ids generalizing m with
  | nil => exact .pure hm
  | cons hid ids ih =>
    rw [List.foldlM_cons]
    have hm' : m.Holds (lh hid ++ ⟨p, .engine c⟩ :: (ids.flatMap lh ++ k)) := by
      refine hm.perm (List.Perm.trans (.cons _ ?_) List.perm_middle.symm)
      rw [List.flatMap_cons, List.append_assoc]
    refine Returns.bind (P := fun m' => m'.Holds (⟨p, .engine c⟩ :: (ids.flatMap lh ++ k))) ?_
      fun m' hm' => ih hm'
    unfold freeHook
    exact .of_read (hm.read List.mem_cons_self rfl) (freeSfunction_returns (hh hid) hm')

/-- **`script_engine_destroy`** -/
theorem scriptEngineDestroy_returns (hse : EngineAt se p l) (hm : m.Holds (l ++ k)) :
    Returns (scriptEngineDestroy p m) fun m' => m'.Holds k := by
  obtain ⟨hooks, head, lh, lc, hh, hc, rfl⟩ := hse
  unfold scriptEngineDestroy
  rw [List.cons_append, List.append_assoc] at hm
  refine (freeHooks_returns hh hm).bind fun m₁ hm₁ => ?_
  refine .of_read (hm₁.read List.mem_cons_self rfl) ?_
  have hm₂ : m₁.Holds (lc ++ (⟨p, .engine ⟨se.runMode, hooks, head⟩⟩ :: k)) :=
    hm₁.perm List.perm_middle.symm
  refine (Linked.free_nodes ?_ hc hm₂ hm₂.length_le).bind fun m₃ hm₃ => ?_
  · rintro a next x l rfl
    exact ⟨_, rfl, rfl⟩
  · exact (Ram.Holds.free (l := []) hm₃).access

/-- **At the end nothing is left.** -/
theorem Rep.destroy (hrep : Rep σ s) : Returns s.destroy fun m => m.Holds [] := by
  obtain ⟨-, -, le, places, hse, -, hs, hm⟩ := hrep
  unfold System.destroy
  rw [← hs]
  refine (destroySlaves_returns (p := s.engine) (k := le)
    (hm.perm List.perm_append_comm)).bind fun m hm => ?_
  exact scriptEngineDestroy_returns hse (hm.perm (.of_eq (List.append_nil _).symm))

/-! ## Runs -/

theorem set_of_getElem? {α : Type} {l : List α} {a : α} (h : l[i]? = some a) : l.set i a = l := by
  obtain ⟨hi, rfl⟩ := List.getElem?_eq_some_iff.mp h
  exact List.set_getElem_self hi

/-- **One slave of several**: it is there or not, as on values, and it
changes alone. -/
theorem Rep.slave (hrep : Rep σ s) (i : ℕ) : σ.slaves[i]? = none ∧ s.slaves[i]? = none ∨
    ∃ (pl : Place) (le rest : Cells), σ.slaves[i]? = some pl.slave ∧
      s.slaves[i]? = some pl.state ∧ EngineAt σ.engine s.engine le ∧
      s.ram.Holds (pl.all s.engine ++ (le ++ rest)) ∧
      ∀ (pl' : Place) (m : Ram Cell), m.Holds (pl'.all s.engine ++ (le ++ rest)) →
        Rep ⟨σ.engine, σ.slaves.set i pl'.slave⟩
          { s with ram := m, slaves := s.slaves.set i pl'.state } := by
  obtain ⟨hheap, hreg, le, places, hse, hσ, hs, hm⟩ := hrep
  rw [← hσ, ← hs, List.getElem?_map, List.getElem?_map]
  cases hpl : places[i]? with
  | none => exact .inl ⟨rfl, rfl⟩
  | some pl =>
    obtain ⟨rest, hperm, hset⟩ := Ram.exists_perm_flatMap_set (Place.all s.engine) hpl
    refine .inr ⟨pl, le, rest, rfl, rfl, hse, ?_, fun pl' m hm' => ?_⟩
    · exact hm.perm ((hperm.append_left le).trans (List.perm_append_comm_assoc _ _ _))
    · refine ⟨hheap, hreg, le, places.set i pl', hse, List.map_set, List.map_set, ?_⟩
      exact hm'.perm ((List.perm_append_comm_assoc _ _ _).trans ((hset pl').symm.append_left le))

/-- **One step** does what it does on values. -/
theorem exec_mirrors (hrep : Rep σ s) (a : Script.Action) :
    Mirrors (Script.exec al n σ a) (exec al mal n s a) Rep := by
  cases a with
  | script h => exact .pure ⟨rfl, hrep.registry, hrep.ram⟩
  | collect v =>
    unfold Script.exec exec
    refine (collect_mirrors hrep v).bind ?_
    rintro ⟨w, e⟩ ⟨w', s'⟩ hrep'
    exact .pure hrep'
  | register runMode hid v =>
    exact Mirrors.then_pure (storeHook_mirrors hrep runMode hid v)
  | slave h => exact hrep.scriptSlaveCreate h
  | empty =>
    exact Mirrors.then_pure (emptyCollectors_mirrors hrep)
  | fire i hid =>
    simp only [Script.exec, exec]
    rcases hrep.slave i with ⟨hσ, hs⟩ | ⟨pl, le, rest, hσ, hs, hse, hm, hset⟩
    · rw [hσ, hs]
      exact .error
    · rw [hσ, hs]
      refine (pushHook_mirrors pl hse hm).bind ?_
      rintro ⟨v, ss⟩ ⟨v', ss', m⟩ ⟨-, pl', rfl, rfl, hm'⟩
      exact .pure (hset pl' m hm')
  | body i h =>
    simp only [Script.exec, exec]
    rcases hrep.slave i with ⟨hσ, hs⟩ | ⟨pl, le, rest, hσ, hs, -, hm, hset⟩
    · rw [hσ, hs]
      exact .error
    · rw [hσ, hs]
      let pl' : Place := { pl with slave := { pl.slave with target := pl.slave.target.withHeap h } }
      exact .pure (hset pl' s.ram hm)
  | pull i =>
    simp only [Script.exec, exec]
    rcases hrep.slave i with ⟨hσ, hs⟩ | ⟨pl, le, rest, hσ, hs, hse, hm, hset⟩
    · rw [hσ, hs]
      exact .error
    · rw [hσ, hs]
      refine Mirrors.then_pure ((scriptEnginePullData_mirrors pl hrep.heap hrep.registry hse
        hm).mono ?_)
      rintro e s' ⟨he, hs', hm'⟩
      have hsame := hset pl s'.ram hm'
      rw [set_of_getElem? hσ, set_of_getElem? hs] at hsame
      rw [he, hs']
      exact ⟨rfl, hsame.registry, hsame.ram⟩

/-- A step, with the fuel for serialising and the policy of `calloc`. -/
structure Label where
  fuel : ℕ
  mal : Malloc Cell
  action : Script.Action

/-- The Lua states are those of the run on values. -/
structure Shows (σ : Script.System) (s : System) : Prop where
  heap : s.heap = σ.engine.heap
  registry : s.registry = σ.engine.registry
  slaves : s.slaves.map (fun ss => (ss.heap, ss.objectTbl)) =
    σ.slaves.map fun ss => (ss.target.heap, ss.target.objectTbl)

theorem Rep.shows (hrep : Rep σ s) : Shows σ s := by
  obtain ⟨hheap, hreg, le, places, -, hσ, hs, -⟩ := hrep
  refine ⟨hheap, hreg, ?_⟩
  rw [← hσ, ← hs, List.map_map, List.map_map]
  rfl

/-- A run in memory, by induction on its steps. -/
theorem run_mirrors (al : Allocator) (hrep : Rep σ s) (labels : List Label) :
    Mirrors (labels.foldlM (fun σ a => Script.exec al a.fuel σ a.action) σ)
      (labels.foldlM (fun s a => exec al a.mal a.fuel s a.action) s) Rep :=
  Mirrors.foldlM (fun a _ _ _ hrep => exec_mirrors hrep a.action) hrep

/-- **A run in memory does what the run on values does**, whatever
addresses `calloc` hands out: it ends early where that does and for the
same reason, its Lua states are those of that run, and once the slaves
and the engine are destroyed nothing is left allocated. It never follows
a pointer that is null or was freed, and frees nothing twice. -/
theorem run_refines (al : Allocator) (mal : Malloc Cell) (h : Heap) (isClient : Bool)
    (labels : List Label) :
    Mirrors (labels.foldlM (fun σ a => Script.exec al a.fuel σ a.action) (.create h isClient))
      (labels.foldlM (fun s a => exec al a.mal a.fuel s a.action)
        (scriptEngineCreate mal h isClient))
      (fun σ s => Shows σ s ∧ Returns s.destroy fun m => m.Holds []) ∧
    ∀ f, labels.foldlM (fun s a => exec al a.mal a.fuel s a.action)
      (scriptEngineCreate mal h isClient) ≠ .error (.memory f) := by
  have hrun := run_mirrors al (Rep.create mal h isClient) labels
  exact ⟨hrun.mono fun σ s hrep => ⟨hrep.shows, hrep.destroy⟩, hrun.no_fault⟩

/-- `n = collect(0)`, and a function that returns `n`. -/
def shared : Heap :=
  [(3, .cell (.table 4)), (4, .table (Script.wrapper (.ofNat 0))), (2, .closure (.of [2] [3])),
    (3, .cell (.ofNat 0))]

/-- The function is a hook, which a slave loads, and the slave is pulled. -/
def sharedRun : List Label :=
  [.collect (.ofNat 0), .script shared, .register .client .socket (.function 2), .slave [],
    .fire 0 .socket, .empty, .pull 0].map fun a => ⟨1, .above Cell, a⟩

example : (sharedRun.foldlM (fun s a => exec .above a.mal a.fuel s a.action)
    (scriptEngineCreate (.above Cell) [(2, .closure (.of [2] [3])), (3, .cell (.ofNat 0))]
      true)).map (fun s => (s.ram.size, s.destroy.toOption.map Ram.size)) = .ok (10, some 0) := rfl

end System

end Trees

end Rushit
