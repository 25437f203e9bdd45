import Rushit.Common.Run
import Rushit.Script.Model
import Rushit.Serialize.Hooks
import Rushit.Serialize.Recordable
/-!
# Runs of the engine and its slaves

The steps a program with a script takes: the main script runs, registers
hooks and marks values, slaves are created, hooks are loaded when they
first fire, their bodies run, collectors are emptied and slaves are
pulled, in any order.

The main script and the hook bodies may do to their heaps what Lua code
can do (`Scripted`, `Mutated`): what the registry holds stays, with the
kind it has, and no closure changes.
-/

namespace Rushit

namespace Script

open Lua Serialize

structure System where
  engine : Engine
  slaves : List Slave

inductive Action
  /-- Lua code of the main script leaves the heap `h`. -/
  | script (h : Heap)
  /-- `collect(v)`. -/
  | collect (v : Value)
  /-- `client_socket(v)` and the other hook callbacks. -/
  | register (runMode : RunMode) (hid : HookId) (v : Value)
  /-- A slave is created over the heap `h`. -/
  | slave (h : Heap)
  /-- Slave `i` is about to run a hook. -/
  | fire (i : ℕ) (hid : HookId)
  /-- Lua code of slave `i` leaves the heap `h`. -/
  | body (i : ℕ) (h : Heap)
  /-- `run()` empties the collectors. -/
  | empty
  /-- The engine pulls from slave `i`. -/
  | pull (i : ℕ)

/-- A run begins with an engine and no slave. -/
def System.create (h : Heap) (isClient : Bool) : System := ⟨scriptEngineCreate h isClient, []⟩

/-- **One step**, with the fuel for serialising. -/
def exec (al : Allocator) (n : ℕ) (s : System) : Action → Except Fault System
  | .script h => pure { s with engine := { s.engine with heap := h } }
  | .collect v => do
    let (_, e) ← Script.collect al v s.engine
    pure { s with engine := e }
  | .register runMode hid v => do
    let e ← storeHook n runMode hid v s.engine
    pure { s with engine := e }
  | .slave h => pure { s with slaves := s.slaves ++ [scriptSlaveCreate h] }
  | .fire i hid =>
    match s.slaves[i]? with
    | some ss => do
      let (_, ss) ← pushHook al s.engine hid ss
      pure { s with slaves := s.slaves.set i ss }
    | none => .error .api
  | .body i h =>
    match s.slaves[i]? with
    | some ss => pure { s with slaves := s.slaves.set i { ss with target := ss.target.withHeap h } }
    | none => .error .api
  | .empty => do
    let e ← emptyCollectors s.engine
    pure { s with engine := e }
  | .pull i =>
    match s.slaves[i]? with
    | some ss => do
      let e ← scriptEnginePullData al n s.engine ss
      pure { s with engine := e }
    | none => .error .api

/-- What running Lua code leaves of a state with a cache. -/
structure Mutated (σ σ' : Target) : Prop where
  objectTbl : σ'.objectTbl = σ.objectTbl
  upvalueMap : σ'.upvalueMap = σ.upvalueMap
  objectMap : σ'.objectMap = σ.objectMap
  collectorMap : σ'.collectorMap = σ.collectorMap
  table : ∀ x t, σ.objectTbl.lookup x = some (.table x) → σ.heap.lookup x = some (.table t) →
    ∃ t', σ'.heap.lookup x = some (.table t')
  closure : ∀ x c, σ.objectTbl.lookup x = some (.function x) →
    σ.heap.lookup x = some (.closure c) → σ'.heap.lookup x = some (.closure c)
  cell : ∀ x c y w, σ.objectTbl.lookup x = some (.function x) →
    σ.heap.lookup x = some (.closure c) → y ∈ c.uvs → σ.heap.lookup y = some (.cell w) →
    ∃ w', σ'.heap.lookup y = some (.cell w')

/-- What Lua code leaves of the tables in the engine's registry. -/
structure Scripted (se : Engine) (h : Heap) : Prop where
  live : ∀ a, se.registry.lookup a = some (.table a) → se.heap.Live a → h.Live a
  table : ∀ a t, se.registry.lookup a = some (.table a) → se.heap.lookup a = some (.table t) →
    ∃ t', h.lookup a = some (.table t')

/-- What Lua guarantees about a step: what the registries hold stays,
and no closure changes. -/
def Allowed (s : System) : Action → Prop
  | .script h => Scripted s.engine h
  | .body i h => ∀ ss, s.slaves[i]? = some ss → Mutated ss.target (ss.target.withHeap h)
  | _ => True

/-- The step relation. -/
def step (al : Allocator) (s : System) (a : Action) (s' : System) : Prop :=
  Allowed s a ∧ ∃ n, exec al n s a = .ok s'

/-! ## What a step has done -/

section Inversion

variable {al : Allocator} {n i : ℕ} {s s' : System}

theorem exec_collect {v : Value} (h : exec al n s (.collect v) = .ok s') :
    ∃ w e, Script.collect al v s.engine = .ok (w, e) ∧ s' = { s with engine := e } := by
  obtain ⟨⟨w, e⟩, he, hret⟩ := bind_eq_ok.mp h
  exact ⟨w, e, he, by cases hret; rfl⟩

theorem exec_register {runMode : RunMode} {hid : HookId} {v : Value}
    (h : exec al n s (.register runMode hid v) = .ok s') :
    ∃ e, storeHook n runMode hid v s.engine = .ok e ∧ s' = { s with engine := e } := by
  obtain ⟨e, he, hret⟩ := bind_eq_ok.mp h
  exact ⟨e, he, by cases hret; rfl⟩

theorem exec_fire {hid : HookId} (h : exec al n s (.fire i hid) = .ok s') :
    ∃ ss v ss', s.slaves[i]? = some ss ∧ pushHook al s.engine hid ss = .ok (v, ss') ∧
      s' = { s with slaves := s.slaves.set i ss' } := by
  simp only [exec] at h
  split at h
  · rename_i ss hss
    obtain ⟨⟨v, ss'⟩, hpush, hret⟩ := bind_eq_ok.mp h
    exact ⟨ss, v, ss', hss, hpush, by cases hret; rfl⟩
  · cases h

theorem exec_body {h' : Heap} (h : exec al n s (.body i h') = .ok s') :
    ∃ ss, s.slaves[i]? = some ss ∧
      s' = { s with slaves := s.slaves.set i { ss with target := ss.target.withHeap h' } } := by
  simp only [exec] at h
  split at h
  · rename_i ss hss
    exact ⟨ss, hss, by cases h; rfl⟩
  · cases h

theorem exec_empty (h : exec al n s .empty = .ok s') :
    ∃ e, emptyCollectors s.engine = .ok e ∧ s' = { s with engine := e } := by
  obtain ⟨e, he, hret⟩ := bind_eq_ok.mp h
  exact ⟨e, he, by cases hret; rfl⟩

theorem exec_pull (h : exec al n s (.pull i) = .ok s') :
    ∃ ss e, s.slaves[i]? = some ss ∧ scriptEnginePullData al n s.engine ss = .ok e ∧
      s' = { s with engine := e } := by
  simp only [exec] at h
  split at h
  · rename_i ss hss
    obtain ⟨e, he, hret⟩ := bind_eq_ok.mp h
    exact ⟨ss, e, hss, he, by cases hret; rfl⟩
  · cases h

end Inversion

/-! ## What the hooks have captured -/

/-- A hook has the wrapper `w` at the site `st`. -/
def Engine.Captured (se : Engine) (st : Site) (w : Addr) : Prop :=
  ∃ hid f, se.hooks hid = some f ∧ f.toSValue.Wraps st w

variable {al : Allocator} {n : ℕ} {σ σ' : Target} {cap : Site → Addr → Prop}

theorem Valid.mutated (hv : Valid cap σ) (hm : Mutated σ σ') : Valid cap σ' where
  object a a' ha := by
    rw [hm.objectMap] at ha
    rcases hv.object a a' ha with ⟨t, ht, htb⟩ | ⟨c, hc, hcb⟩
    · obtain ⟨t', ht'⟩ := hm.table a' t htb ht
      exact .inl ⟨t', ht', by rw [hm.objectTbl, htb]⟩
    · exact .inr ⟨c, hm.closure a' c hcb hc, by rw [hm.objectTbl, hcb]⟩
  upvalue c f i hu := by
    rw [hm.upvalueMap] at hu
    obtain ⟨htb, x, w, hx, hw⟩ := hv.upvalue c f i hu
    obtain ⟨d, m, hd, rfl, hdm⟩ := Heap.upvalueid_eq_some.mp hx
    obtain ⟨w', hw'⟩ := hm.cell f d x w htb hd (List.mem_of_getElem? hdm) hw
    refine ⟨by rw [hm.objectTbl, htb], x, w', ?_, hw'⟩
    rw [Heap.upvalueid_succ (hm.closure f d htb hd), hdm]
  collector w o k hw := by
    rw [hm.collectorMap] at hw
    rcases hv.collector w o k hw with ⟨c, i, hcap, hc, hk⟩ | ⟨a, hcap, hs, ha, t, ht⟩
    · exact .inl ⟨c, i, hcap, by rw [hm.upvalueMap]; exact hc, hk⟩
    · refine .inr ⟨a, hcap, hs, by rw [hm.objectMap]; exact ha, ?_⟩
      rcases hv.object a o ha with ⟨u, hu, hub⟩ | ⟨c, hc, -⟩
      · exact hm.table o u hub hu
      · rw [ht] at hc; cases hc

theorem Unique.mutated (hu : Unique σ) (hv : Valid cap σ) (hm : Mutated σ σ') : Unique σ' := by
  refine hu.of_heap hm.upvalueMap hm.objectMap ?_
  rintro x t' ⟨a, ha⟩ ht'
  rcases hv.object a x ha with ⟨t, ht, -⟩ | ⟨c, hc, hcb⟩
  · exact ⟨t, ht⟩
  · rw [hm.closure x c hcb hc] at ht'; cases ht'

/-! ## The invariant of the slaves -/

/-- A slave whose cache is in order. -/
def Slave.Ok (se : Engine) (ss : Slave) : Prop := Valid se.Captured ss.target ∧ Unique ss.target

/-- Each collector has an entry of its own in the registry, and a table
of its own in the heap. -/
structure Engine.Registered (se : Engine) : Prop where
  nodup : se.collectors.Nodup
  registry : ∀ c ∈ se.collectors, se.registry.lookup c = some (.table c)
  live : ∀ c ∈ se.collectors, se.heap.Live c

/-- **The invariant**: the collectors are registered, every hook is what
the serialiser made of some heap, and every slave's cache is in order. -/
structure System.Inv (s : System) : Prop where
  registered : s.engine.Registered
  hooks : ∀ hid f, s.engine.hooks hid = some f → ∃ h n a, serializeFunction h n a = .ok f
  slaves : ∀ ss ∈ s.slaves, ss.Ok s.engine

theorem captured_keyable {h : Heap} : ∀ a es, h.captured a = some (.table es) →
    ∀ e ∈ es, e.1.keyable = true := fun _ _ ha => (captured_table_eq ha).1

/-- **A load that returns keeps the cache in order**, of whatever hook the
serialiser made. -/
theorem deserializeFunction_valid {f : SFunction} {key : Addr}
    (hf : ∃ h n a, serializeFunction h n a = .ok f)
    (hcap : ∀ st w, f.toSValue.Wraps st w → cap st w) (hv : Valid cap σ)
    (hload : deserializeFunction al f σ = .ok (key, σ')) :
    Valid cap σ' ∧ (Unique σ → Unique σ') := by
  obtain ⟨h, n, a, hser⟩ := hf
  obtain ⟨rfl, hexp⟩ := serializeFunction_expands hser
  -- what is left out cannot have been recorded, since the load returned
  have hsound : f.recordable.toSValue.Sound cap := hexp.sound_recordable captured_keyable hcap
  obtain ⟨key', σ'', heq, hv', -, -, -, hu, -⟩ :=
    deserializeFunction_grown al f.recordable hsound σ hv
  rw [deserializeFunction_recordable hload] at heq
  cases heq
  exact ⟨hv', hu⟩

/-- Loading a hook keeps the cache in order. -/
theorem Slave.Ok.pushHook {se : Engine} {ss ss' : Slave} {hid : HookId} {v : Option Value}
    (hok : ss.Ok se)
    (hhooks : ∀ hid f, se.hooks hid = some f → ∃ h n a, serializeFunction h n a = .ok f)
    (hpush : pushHook al se hid ss = .ok (v, ss')) : ss'.Ok se := by
  unfold Script.pushHook at hpush
  split at hpush
  · cases hpush; exact hok
  · split at hpush
    · cases hpush; exact hok
    · rename_i f hf
      obtain ⟨⟨key, σ⟩, hload, hret⟩ := bind_eq_ok.mp hpush
      cases hret
      obtain ⟨hv, hu⟩ := deserializeFunction_valid (hhooks hid f hf)
        (fun st w hw => ⟨hid, f, hf, hw⟩) hok.1 hload
      exact ⟨hv, hu hok.2⟩

/-- Registering a hook only adds to what the hooks have captured. -/
theorem storeHook_hooks {se se' : Engine} {runMode : RunMode} {hid : HookId} {v : Value}
    (h : storeHook n runMode hid v se = .ok se') :
    se' = se ∨ ∃ a f, serializeFunction se.heap n a = .ok f ∧ se.hooks hid = none ∧
      se' = { se with hooks := fun i => if i = hid then some f else se.hooks i } := by
  unfold storeHook at h
  split at h
  · rename_i a
    split at h
    · split at h
      · cases h
      · rename_i hnone
        obtain ⟨f, hf, hret⟩ := bind_eq_ok.mp h
        exact .inr ⟨a, f, hf, hnone, by cases hret; rfl⟩
    · cases h; exact .inl rfl
  · cases h

/-- A heap that keeps the registered tables in use. -/
theorem Engine.Registered.withHeap {se : Engine} (hr : se.Registered) {h : Heap}
    (hlive : ∀ c ∈ se.collectors, h.Live c) :
    Engine.Registered { se with heap := h } := ⟨hr.nodup, hr.registry, hlive⟩

/-- `collect` registers a new table. -/
theorem Engine.Registered.collect {se se' : Engine} {v w : Value} (hr : se.Registered)
    (h : Script.collect al v se = .ok (w, se')) : se'.Registered ∧ se'.hooks = se.hooks := by
  cases h
  have hnew : ∀ c ∈ se.collectors, c ≠ al.next se.heap :=
    fun c hc => Allocator.ne_next (hr.live c hc)
  refine ⟨⟨List.nodup_cons.mpr ⟨fun hc => hnew _ hc rfl, hr.nodup⟩, ?_, ?_⟩, rfl⟩
  · intro c hc
    rcases List.mem_cons.mp hc with rfl | hc
    · simp
    · rw [lookup_cons_ne (hnew c hc)]; exact hr.registry c hc
  · intro c hc
    rcases List.mem_cons.mp hc with rfl | hc
    · exact Heap.live_of_lookup (o := .table (wrapper v)) (by simp)
    · exact (hr.live c hc).of_suffix (List.suffix_cons _ _)

/-- `empty_collectors` only writes to the heap. -/
theorem emptyCollectors_suffix {se se' : Engine} (h : emptyCollectors se = .ok se') :
    ∃ h', se' = { se with heap := h' } ∧ se.heap <:+ h' := by
  obtain ⟨h', hrun, hret⟩ := bind_eq_ok.mp h
  refine ⟨h', by cases hret; rfl, ?_⟩
  refine (foldlM_invariant (I := fun h => se.heap <:+ h) (fun h₁ h₂ c _ hs hstep => ?_) hrun
    (List.suffix_refl _)).1
  unfold emptyCollector at hstep
  split at hstep
  · split at hstep
    · split at hstep
      · exact hs.trans (Heap.rawset_suffix (orFault_eq_ok.mp hstep))
      · cases hstep
    · cases hstep
  · cases hstep

theorem addCollectedValue_suffix {registry : List (Addr × Value)} {c : Addr} {sv : SValue}
    (h : addCollectedValue al registry c sv σ = .ok σ') : σ.heap <:+ σ'.heap := by
  unfold addCollectedValue at h
  split at h
  · split at h
    · obtain ⟨⟨v, σ₁⟩, hpush, h⟩ := bind_eq_ok.mp h
      obtain ⟨heap, hset, hret⟩ := bind_eq_ok.mp h
      cases hret
      exact (pushObject_suffix hpush).trans (Heap.rawset_suffix (orFault_eq_ok.mp hset))
    · cases h
  · cases h

/-- So does `script_engine_pull_data`. -/
theorem scriptEnginePullData_suffix {se se' : Engine} {ss : Slave}
    (h : scriptEnginePullData al n se ss = .ok se') :
    ∃ h', se' = { se with heap := h' } ∧ se.heap <:+ h' := by
  obtain ⟨σ, hrun, hret⟩ := bind_eq_ok.mp h
  refine ⟨σ.heap, by cases hret; rfl, ?_⟩
  refine (foldlM_invariant (I := fun σ => se.heap <:+ σ.heap) (fun σ₁ σ₂ c _ hs hstep => ?_) hrun
    (List.suffix_refl _)).1
  obtain ⟨sv, -, hadd⟩ := bind_eq_ok.mp hstep
  exact hs.trans (addCollectedValue_suffix hadd)

/-- The slaves do not depend on the engine's heap. -/
theorem System.Inv.of_hooks {s s' : System} (hi : s.Inv) (hreg : s'.engine.Registered)
    (hhooks : s'.engine.hooks = s.engine.hooks) (hslaves : s'.slaves = s.slaves) : s'.Inv := by
  have hcap : s'.engine.Captured = s.engine.Captured := by
    funext st w
    simp only [Engine.Captured, hhooks]
  refine ⟨hreg, by rw [hhooks]; exact hi.hooks, fun ss hss => ?_⟩
  rw [hslaves] at hss
  rw [Slave.Ok, hcap]
  exact hi.slaves ss hss

/-- A step of the engine that only writes to its heap. -/
theorem System.Inv.of_suffix {s : System} (hi : s.Inv) {h : Heap} (hs : s.engine.heap <:+ h) :
    System.Inv { s with engine := { s.engine with heap := h } } :=
  hi.of_hooks (hi.registered.withHeap fun c hc => (hi.registered.live c hc).of_suffix hs) rfl rfl

/-- One slave changes. -/
theorem System.Inv.set {s : System} (hi : s.Inv) (i : ℕ) {ss : Slave}
    (hok : ss.Ok s.engine) : System.Inv ⟨s.engine, s.slaves.set i ss⟩ := by
  refine ⟨hi.registered, hi.hooks, fun r hmem => ?_⟩
  rcases List.mem_or_eq_of_mem_set hmem with hold | rfl
  · exact hi.slaves r hold
  · exact hok

theorem System.Inv.create (h : Heap) (isClient : Bool) : (System.create h isClient).Inv where
  registered := ⟨List.nodup_nil, fun _ hc => (List.not_mem_nil hc).elim,
    fun _ hc => (List.not_mem_nil hc).elim⟩
  hooks _ _ hf := by cases hf
  slaves ss hss := by cases hss

/-- Registering a hook keeps the slaves in order. -/
theorem System.Inv.register {s : System} (hi : s.Inv) {runMode : RunMode} {hid : HookId}
    {v : Value} {e : Engine} (he : storeHook n runMode hid v s.engine = .ok e) :
    System.Inv { s with engine := e } := by
  rcases storeHook_hooks he with rfl | ⟨a, f, hf, hnone, rfl⟩
  · exact hi
  refine ⟨⟨hi.registered.nodup, hi.registered.registry, hi.registered.live⟩,
    fun hid' g hg => ?_, fun ss hss => ?_⟩
  · by_cases hid' = hid
    · exact ⟨s.engine.heap, n, a, by simp_all⟩
    · exact hi.hooks hid' g (by simp_all)
  · have hmono : ∀ st w, s.engine.Captured st w → Engine.Captured { s.engine with
        hooks := fun i => if i = hid then some f else s.engine.hooks i } st w := by
      rintro st w ⟨hid', g, hg, hw⟩
      have hne : hid' ≠ hid := by rintro rfl; rw [hnone] at hg; cases hg
      exact ⟨hid', g, by simp [hne, hg], hw⟩
    obtain ⟨hv, hu⟩ := hi.slaves ss hss
    exact ⟨hv.mono hmono, hu⟩

/-- **Every step keeps the invariant.** -/
theorem System.Inv.step {s s' : System} {a : Action} (hi : s.Inv) (hs : step al s a s') :
    s'.Inv := by
  obtain ⟨hallow, n, hexec⟩ := hs
  cases a with
  | script h =>
    cases hexec
    refine hi.of_hooks (hi.registered.withHeap fun c hc => ?_) rfl rfl
    exact hallow.live c (hi.registered.registry c hc) (hi.registered.live c hc)
  | collect v =>
    obtain ⟨w, e, he, rfl⟩ := exec_collect hexec
    obtain ⟨hreg, hhooks⟩ := hi.registered.collect he
    exact hi.of_hooks hreg hhooks rfl
  | register runMode hid v =>
    obtain ⟨e, he, rfl⟩ := exec_register hexec
    exact hi.register he
  | slave h =>
    cases hexec
    refine ⟨hi.registered, hi.hooks, fun ss hss => ?_⟩
    rcases List.mem_append.mp hss with hss | hss
    · exact hi.slaves ss hss
    · rw [List.mem_singleton.mp hss]
      exact ⟨Valid.start _ h,
        ⟨List.nodup_nil, by simp [scriptSlaveCreate], by simp [scriptSlaveCreate]⟩⟩
  | fire i hid =>
    obtain ⟨ss, v, ss', hss, hpush, rfl⟩ := exec_fire hexec
    exact hi.set i ((hi.slaves ss (List.mem_of_getElem? hss)).pushHook hi.hooks hpush)
  | body i h =>
    obtain ⟨ss, hss, rfl⟩ := exec_body hexec
    obtain ⟨hv, hu⟩ := hi.slaves ss (List.mem_of_getElem? hss)
    have hmut := hallow ss hss
    exact hi.set i ⟨Valid.mutated hv hmut, Unique.mutated hu hv hmut⟩
  | empty =>
    obtain ⟨e, he, rfl⟩ := exec_empty hexec
    obtain ⟨h, rfl, hsuf⟩ := emptyCollectors_suffix he
    exact hi.of_suffix hsuf
  | pull i =>
    obtain ⟨ss, e, -, he, rfl⟩ := exec_pull hexec
    obtain ⟨h, rfl, hsuf⟩ := scriptEnginePullData_suffix he
    exact hi.of_suffix hsuf

/-- **In every state a run reaches the invariant holds.** -/
theorem System.Inv.of_run {h : Heap} {isClient : Bool} {as : List Action} {s : System}
    (hrun : Run (Script.step al) (System.create h isClient) as s) : s.Inv :=
  hrun.preserves (fun _ _ _ hi hs => hi.step hs) (System.Inv.create h isClient)

end Script

end Rushit
