import Rushit.Common.Fold
import Rushit.Script.Loads
import Rushit.Script.Pull
import Rushit.Serialize.Termination
/-!
# What the collectors collect

A wrapper is captured in a variable or in a table entry, its site. All
the closures a slave loads share the variable, and the slave has one
table for a table id, so the site has one slot in a slave, whichever
hooks write it. A pull reads the slot if the slave recorded it when it
loaded the site for the first time. A copy of the site that was
serialised before the wrapper was put there records nothing, and the
later copy that has the wrapper finds the site already there.
-/

namespace Rushit

namespace Serialize

open Lua

/-! ## The slot of a site -/

/-- A serialised boolean, number or string, as a table key. -/
def SValue.key : SValue → Value
  | .boolean b => .boolean b
  | .number n => .number n
  | .string s => .string s
  | _ => .nil

/-- The table loaded for the id `a`. -/
def Target.tableOf (σ : Target) (a : Addr) : Option Table :=
  σ.objectMap.findSome? fun p => if p.1 = a then σ.heap.table? p.2 else none

/-- What the variable or the table entry at a site holds; nil where it
was not loaded. -/
def Target.slot (σ : Target) : Site → Value
  | .upvalue c => ((σ.lookupUpvalue c).bind fun m => σ.heap.getupvalue m.1 m.2).getD .nil
  | .entry a k => ((σ.tableOf a).map fun t => t.rawget k.key).getD .nil

variable {cap : Site → Addr → Prop} {al : Allocator} {σ : Target} {st : Site} {w : Addr}

theorem pushObject_scalar {k : SValue} (hk : k.Scalar) : pushObject al k σ = .ok (k.key, σ) := by
  cases k with
  | boolean b => rfl
  | number n => rfl
  | string s => rfl
  | function id code us => exact hk.elim
  | table id es => exact hk.elim

theorem mem_of_tableOf {a : Addr} {t : Table} (ht : σ.tableOf a = some t) :
    ∃ o, (a, o) ∈ σ.objectMap ∧ σ.heap.lookup o = some (.table t) := by
  obtain ⟨⟨b, o⟩, hb, ho⟩ := List.exists_of_findSome?_eq_some ht
  split at ho
  · rename_i hba
    obtain rfl : b = a := hba
    exact ⟨o, hb, Heap.table?_eq_some.mp ho⟩
  · cases ho

/-- A table id has one table. -/
theorem tableOf_eq (hu : Unique σ) {a o : Addr} {t : Table} (ha : (a, o) ∈ σ.objectMap)
    (ht : σ.heap.lookup o = some (.table t)) : σ.tableOf a = some t := by
  cases hfind : σ.tableOf a with
  | none =>
    have hnone := List.findSome?_eq_none_iff.mp hfind (a, o) ha
    rw [if_pos rfl, Heap.table?_eq_some.mpr ht] at hnone
    cases hnone
  | some u =>
    obtain ⟨o', ho', hu'⟩ := mem_of_tableOf hfind
    obtain rfl := hu.tables a o o' t u ha ho' ht hu'
    rw [ht] at hu'
    cases hu'
    rfl

theorem toNat_ofNat (i : ℕ) : (Number.ofNat i).toNat = i := by
  show ((i : ℚ).num.toNat / (i : ℚ).den) = i
  simp

/-! ## What was recorded -/

/-- The number an upvalue was recorded with. -/
def SValue.toNat : SValue → ℕ
  | .number n => n.toNat
  | _ => 0

/-- What the recorded variable or table entry of a wrapper holds; nil
where none was recorded. -/
def Target.recorded (σ : Target) (w : Addr) : Value :=
  match σ.collectorMap.lookup w with
  | some (o, k) =>
    match σ.heap.table? o with
    | some t => t.rawget k.key
    | none => (σ.heap.getupvalue o k.toNat).getD .nil
  | none => .nil

/-- **push_collected_value reads what was recorded.** -/
theorem pushCollectedValue_eq (hv : Valid cap σ) (w : Addr) :
    pushCollectedValue al σ w = .ok (σ.recorded w) := by
  unfold pushCollectedValue Target.recorded
  cases hr : σ.collectorMap.lookup w with
  | none => rfl
  | some r =>
    obtain ⟨o, k⟩ := r
    rcases hv.collector w o k (mem_of_lookup hr) with ⟨c, i, -, hm, rfl⟩ | ⟨a, -, hk, hm, t, ht⟩
    · obtain ⟨htb, x, v, hx, hcell⟩ := hv.upvalue c o i hm
      obtain ⟨d, m, hd, -, -⟩ := Heap.upvalueid_eq_some.mp hx
      have htable : σ.heap.table? o = none := by rw [Heap.table?, hd]
      have hget : σ.heap.getupvalue o i = some v := by
        rw [Heap.getupvalue, hx]; exact Heap.cell?_eq_some.mpr hcell
      simp [Target.fetchObject, htb, htable, SValue.toNat, toNat_ofNat, hget, orFault, pure,
        Except.pure]
    · have htb : σ.objectTbl.lookup o = some (.table o) := by
        rcases hv.object a o hm with ⟨u, -, hub⟩ | ⟨c, hc, -⟩
        · exact hub
        · rw [ht] at hc; cases hc
      simp [Target.fetchObject, htb, pushObject_scalar hk, Heap.table?_eq_some.mpr ht, bind,
        Except.bind, pure, Except.pure]

/-- A wrapper that was recorded with a variable. -/
theorem recorded_of_upvalue (hv : Valid cap σ) (hu : Unique σ) {o c : Addr} {i : ℕ}
    (hr : σ.collectorMap.lookup w = some (o, .number (.ofNat i))) (hm : (c, o, i) ∈ σ.upvalueMap) :
    σ.recorded w = σ.slot (.upvalue c) := by
  obtain ⟨-, x, v, hx, hcell⟩ := hv.upvalue c o i hm
  obtain ⟨d, m, hd, -, -⟩ := Heap.upvalueid_eq_some.mp hx
  have htable : σ.heap.table? o = none := by rw [Heap.table?, hd]
  have hlookup : σ.lookupUpvalue c = some (o, i) := lookup_of_mem_nodup hu.cells hm
  simp [Target.recorded, hr, htable, Target.slot, hlookup, SValue.toNat, toNat_ofNat]

/-- A wrapper that was recorded with a table entry. -/
theorem recorded_of_entry (hu : Unique σ) {o a : Addr} {k : SValue} {t : Table}
    (hr : σ.collectorMap.lookup w = some (o, k)) (hm : (a, o) ∈ σ.objectMap)
    (ht : σ.heap.lookup o = some (.table t)) : σ.recorded w = σ.slot (.entry a k) := by
  simp [Target.recorded, hr, Heap.table?_eq_some.mpr ht, Target.slot, tableOf_eq hu hm ht]

/-- **What was recorded is the slot** of a wrapper that stands at one
site. -/
theorem recorded_eq_slot (hv : Valid cap σ) (hu : Unique σ) {r : Addr × SValue}
    (hr : σ.collectorMap.lookup w = some r) (hsite : ∀ st', cap st' w → st' = st) :
    σ.recorded w = σ.slot st := by
  obtain ⟨o, k⟩ := r
  rcases hv.collector w o k (mem_of_lookup hr) with ⟨c, i, hc, hm, rfl⟩ | ⟨a, ha, -, hm, t, ht⟩
  · obtain rfl := hsite _ hc
    exact recorded_of_upvalue hv hu hr hm
  · obtain rfl := hsite _ ha
    exact recorded_of_entry hu hr hm ht

end Serialize

namespace Script

open Lua Serialize

variable {al : Allocator} {n : ℕ}

/-- The slave recorded the wrapper `c`. -/
def Recorded (ss : Slave) (c : Addr) : Prop := ss.target.collectorMap.lookup c ≠ none

/-- **The collectors collect**: with enough fuel, after
`empty_collectors` and a pull of each slave in order, each collector
table has one entry from each slave, in their order, a copy of what the
slave's slot held; a slave's values share tables exactly as they did in
the slave, and two slaves' values share nothing. -/
def Collects (al : Allocator) (s : System) (site : Addr → Site) : Prop :=
  ∃ N, ∀ n ≥ N, ∃ se se' pulls, emptyCollectors s.engine = .ok se ∧
    pullScriptData al n s.slaves se = .ok se' ∧ pulls.map Prod.fst = s.slaves ∧
    (∀ p ∈ pulls, Pulled p.1.target.heap se.heap se'.heap p.2) ∧
    pulls.Pairwise (fun p q => Disjoint p.2 q.2) ∧
    ∀ c ∈ s.engine.collectors, ∃ t ws, se'.heap.lookup c = some (.table t) ∧ t.Holds ws ∧
      List.Forall₂ (fun p w => p.2.Val (p.1.target.slot (site c)) w) pulls ws

/-! ## A wrapper that was not recorded -/

/-- `get_collected_value` does not return for it. -/
theorem recorded_of_getCollectedValue {ss : Slave} {c : Addr} {sv : SValue}
    (h : getCollectedValue al n ss c = .ok sv) : Recorded ss c := by
  intro hnone
  unfold getCollectedValue pushCollectedValue at h
  rw [hnone] at h
  obtain ⟨v, hv, hser⟩ := bind_eq_ok.mp h
  cases hv
  cases n with
  | zero => cases hser
  | succ n => cases hser

/-- A pull that returns has read every collector's slot in the slave. -/
theorem recorded_of_pull {se se' : Engine} {ss : Slave}
    (h : scriptEnginePullData al n se ss = .ok se') : ∀ c ∈ se.collectors, Recorded ss c := by
  obtain ⟨σ, hrun, -⟩ := bind_eq_ok.mp h
  obtain ⟨-, hall⟩ := foldlM_invariant (I := fun _ => True) (fun _ _ _ _ _ _ => trivial) hrun
    trivial
  intro c hc
  obtain ⟨σ₁, σ₂, -, hstep⟩ := hall c hc
  obtain ⟨sv, hget, -⟩ := bind_eq_ok.mp hstep
  exact recorded_of_getCollectedValue hget

/-- So has a pull of all the slaves. -/
theorem recorded_of_pulls {se se' : Engine} {slaves : List Slave}
    (h : pullScriptData al n slaves se = .ok se') :
    ∀ ss ∈ slaves, ∀ c ∈ se.collectors, Recorded ss c := by
  obtain ⟨-, hall⟩ := foldlM_invariant (I := fun e => e.collectors = se.collectors)
    (fun e e' ss _ he hstep => by
      obtain ⟨h', rfl, -⟩ := scriptEnginePullData_suffix hstep
      exact he) h rfl
  intro ss hss c hc
  obtain ⟨e, e', he, hstep⟩ := hall ss hss
  exact recorded_of_pull hstep c (he ▸ hc)

theorem Collects.recorded {s : System} {site : Addr → Site} (h : Collects al s site) :
    ∀ ss ∈ s.slaves, ∀ c ∈ s.engine.collectors, Recorded ss c := by
  obtain ⟨N, hN⟩ := h
  obtain ⟨se, se', -, hempty, hpull, -⟩ := hN N le_rfl
  obtain ⟨h', rfl, -⟩ := emptyCollectors_suffix hempty
  exact fun ss hss c hc => recorded_of_pulls hpull ss hss c hc

/-! ## Recorded wrappers -/

/-- What a slave holds dumps, from some amount of fuel on. -/
theorem Collectable.dumps {h : Heap} {v : Value} (hc : Collectable h v) : Dumps h v :=
  dumps_of_founded hc.supported fun _ ha => founded_of_acyclicFrom hc.acyclic ha

/-- `get_collected_value` returns what the slot expands to. -/
theorem getCollectedValue_returns {se : Engine} {ss : Slave} {c : Addr} {st : Site}
    (hok : ss.Ok se) (hrec : Recorded ss c) (hsite : ∀ st', se.Captured st' c → st' = st)
    (hslot : Collectable ss.target.heap (ss.target.slot st)) :
    ∃ N, ∀ n ≥ N, ∃ sv, getCollectedValue al n ss c = .ok sv ∧
      sv.Expands ss.target.heap.captured (ss.target.slot st) := by
  obtain ⟨r, hr⟩ := Option.ne_none_iff_exists'.mp hrec
  have hpush : pushCollectedValue al ss.target c = .ok (ss.target.slot st) := by
    rw [pushCollectedValue_eq hok.1, recorded_eq_slot hok.1 hok.2 hr hsite]
  obtain ⟨N, hN⟩ := hslot.dumps.returns
  refine ⟨N, fun n hn => ?_⟩
  obtain ⟨sv, hsv⟩ := hN n hn
  refine ⟨sv, ?_, serializeObject_expands hsv⟩
  unfold getCollectedValue
  rw [hpush]
  exact hsv

/-- **What is recorded is what was loaded first.** A slave has recorded a
wrapper that the hooks have at one site if and only if the copy of the
site that it loaded first holds the wrapper. -/
theorem recorded_iff_firstHolds {se : Engine} {ss : Slave} {fs : List SFunction} {c : Addr}
    {st : Site} (hl : ss.HasLoaded se fs) (hsite : ∀ st', se.Captured st' c → st' = st) :
    Recorded ss c ↔ FirstHolds fs st c := by
  rw [Recorded, hl.walked.recorded_iff]
  constructor
  · rintro ⟨st', hfirst⟩
    obtain ⟨f, hf, hw⟩ := FirstHolds.wraps hfirst
    obtain ⟨hid, hhid⟩ := hl.hooks f hf
    rw [← hsite st' ⟨hid, f, hhid, hw⟩]
    exact hfirst
  · exact fun hfirst => ⟨st, hfirst⟩

/-- Where every slave has recorded every wrapper, a pull collects the
slots. -/
theorem Collects.of_recorded {s : System} (hi : s.Inv)
    (hwrap : ∀ c ∈ s.engine.collectors, ∃ t v, s.engine.heap.lookup c = some (.table t) ∧
      t.Holds [v])
    {site : Addr → Site}
    (hsite : ∀ c ∈ s.engine.collectors, ∀ st, s.engine.Captured st c ↔ st = site c)
    (hslot : ∀ ss ∈ s.slaves, ∀ c ∈ s.engine.collectors,
      Collectable ss.target.heap (ss.target.slot (site c)))
    (hrec : ∀ ss ∈ s.slaves, ∀ c ∈ s.engine.collectors, Recorded ss c) :
    Collects al s site := by
  obtain ⟨h₁, hempty, hk, hheld⟩ :=
    emptyCollectors_eq hi.registered.nodup hi.registered.registry hwrap
  have hget : ∀ ss ∈ s.slaves, ∃ N, ∀ n ≥ N, ∀ c ∈ s.engine.collectors,
      ∃ sv, getCollectedValue al n ss c = .ok sv ∧
        sv.Expands ss.target.heap.captured (ss.target.slot (site c)) := fun ss hss =>
    eventually_forall_mem fun c hc => getCollectedValue_returns (hi.slaves ss hss)
      (hrec ss hss c hc) (fun st' hst => (hsite c hc st').mp hst) (hslot ss hss c hc)
  obtain ⟨N, hN⟩ := eventually_forall_mem hget
  refine ⟨N, fun n hn => ?_⟩
  -- the collectors are empty when the first slave is pulled
  obtain ⟨h₂, pulls, hpull, -, hfst, hpulled, hdisj, hws⟩ := pullScriptData_eq al n s.slaves
    { s.engine with heap := h₁ } (fun _ => []) (fun ss c => ss.target.slot (site c))
    hi.registered.nodup hi.registered.registry hheld
    fun ss hss c hc => ⟨hslot ss hss c hc, hN n hn ss hss c hc⟩
  exact ⟨_, _, pulls, hempty, hpull, hfst, hpulled, hdisj, hws⟩

/-- **The collectors collect exactly what was loaded first.** In whatever
state a run has led to, let each wrapper stand at one site of the hooks,
and let the slot of that site hold a value that can be copied in each
slave. Then a pull collects the slots if and only if, in every slave, the
first of the loaded copies of each site holds the wrapper. -/
theorem collects_iff_firstHolds {h : Heap} {isClient : Bool} {as : List Action} {s : System}
    {loads : List (List SFunction)}
    (hrun : Run (stepLoads al) (System.create h isClient, []) as (s, loads))
    (hwrap : ∀ c ∈ s.engine.collectors, ∃ t v, s.engine.heap.lookup c = some (.table t) ∧
      t.Holds [v])
    (site : Addr → Site)
    (hsite : ∀ c ∈ s.engine.collectors, ∀ st, s.engine.Captured st c ↔ st = site c)
    (hslot : ∀ ss ∈ s.slaves, ∀ c ∈ s.engine.collectors,
      Collectable ss.target.heap (ss.target.slot (site c))) :
    Collects al s site ↔ ∀ fs ∈ loads, ∀ c ∈ s.engine.collectors, FirstHolds fs (site c) c := by
  have hi := System.Inv.of_run (run_of_stepLoads hrun)
  have hl := System.Loaded.of_run hrun
  have hiff : ∀ ss fs, ss.HasLoaded s.engine fs → ∀ c ∈ s.engine.collectors,
      (Recorded ss c ↔ FirstHolds fs (site c) c) := fun ss fs hload c hc =>
    recorded_iff_firstHolds hload fun st' hst => (hsite c hc st').mp hst
  constructor
  · intro hcol fs hfs c hc
    obtain ⟨ss, hss, hload⟩ := forall₂_mem_right hl hfs
    exact (hiff ss fs hload c hc).mp (hcol.recorded ss hss c hc)
  · intro hfirst
    refine Collects.of_recorded hi hwrap hsite hslot fun ss hss c hc => ?_
    obtain ⟨fs, hfs, hload⟩ := forall₂_mem_left hl hss
    exact (hiff ss fs hload c hc).mpr (hfirst fs hfs c hc)

/-! ### A table that is marked twice -/

/-- `{ 7 }` -/
def items : Table := (Table.empty.rawset (.ofNat 1) (.ofNat 7)).getD Table.empty

/-- `a = collect(t)` and `b = collect(t)`, where `t` is the table at 1:
the wrappers are at 2 and 3, and the function 6 captures `a` and `b`. -/
def twiceHeap : Heap :=
  [(6, .closure (.of [6] [4, 5])), (5, .cell (.table 3)), (4, .cell (.table 2)),
    (3, .table (wrapper (.table 1))), (2, .table (wrapper (.table 1))), (1, .table items)]

/-- The table, serialised. -/
def itemsTree : SValue :=
  .table 1 (.cons (.number (.ofNat 1)) (.number (.ofNat 7)) none .nil)

/-- The function, serialised. -/
def twiceTree : SFunction :=
  ⟨6, ⟨[6], 2⟩, .cons 5 2 itemsTree (some 3) (.cons 4 1 itemsTree (some 2) .nil)⟩

/-- A slave that has loaded the function: the table is there once. -/
def twiceSlave : Slave where
  target := {
    heap := [(1, .cell (.table 4)), (2, .cell (.table 4)), (4, .table items),
      (4, .table Table.empty), (3, .closure (.of [6] [1, 2])), (2, .cell .nil), (1, .cell .nil)]
    objectTbl := [(4, .table 4), (3, .function 3)]
    upvalueMap := [(4, 3, 1), (5, 3, 2)]
    objectMap := [(1, 4), (6, 3)]
    collectorMap := [(2, 3, .number (.ofNat 1)), (3, 3, .number (.ofNat 2))] }
  hookKeys hid := if hid = .socket then some 3 else none

/-- Two slaves, in which the hook has fired. -/
def twiceSystem : System where
  engine := {
    heap := twiceHeap
    registry := [(3, .table 3), (2, .table 2)]
    runMode := .client
    hooks := fun hid => if hid = .socket then some twiceTree else none
    collectors := [3, 2] }
  slaves := [twiceSlave, twiceSlave]

/-- The assignment of the wrappers is a step of the main script. -/
theorem scripted_twice : Scripted
    ⟨[(3, .table (wrapper (.table 1))), (2, .table (wrapper (.table 1))), (1, .table items)],
      [(3, .table 3), (2, .table 2)], .client, fun _ => none, [3, 2]⟩ twiceHeap where
  live a _ hl := hl.of_suffix ⟨[_, _, _], rfl⟩
  table a t ha _ := by
    by_cases h3 : a = 3
    · subst h3; exact ⟨wrapper (.table 1), rfl⟩
    · by_cases h2 : a = 2
      · subst h2; exact ⟨wrapper (.table 1), rfl⟩
      · simp [lookup_cons_ne h3, lookup_cons_ne h2] at ha

/-- The main script marks the table twice, and registers the function. -/
theorem run_marked : Run (stepLoads .above) (System.create [(1, .table items)] true, [])
    [.collect (.table 1), .collect (.table 1), .script twiceHeap,
      .register .client .socket (.function 6)] (⟨twiceSystem.engine, []⟩, []) :=
  run_cons ⟨trivial, 0, rfl⟩ <| run_cons ⟨trivial, 0, rfl⟩ <|
    run_cons ⟨scripted_twice, 0, rfl⟩ <| run_cons ⟨trivial, 3, rfl⟩ (.refl _)

/-- The hook fires in two slaves. -/
theorem run_fired : Run (stepLoads .above) (⟨twiceSystem.engine, []⟩, [])
    [.slave [], .slave [], .fire 0 .socket, .fire 1 .socket]
    (twiceSystem, [[twiceTree], [twiceTree]]) :=
  run_cons ⟨trivial, 0, rfl⟩ <| run_cons ⟨trivial, 0, rfl⟩ <|
    run_cons ⟨trivial, 0, rfl⟩ <| run_cons ⟨trivial, 0, rfl⟩ (.refl _)

theorem run_twice : Run (stepLoads .above) (System.create [(1, .table items)] true, [])
    [.collect (.table 1), .collect (.table 1), .script twiceHeap,
      .register .client .socket (.function 6), .slave [], .slave [], .fire 0 .socket,
      .fire 1 .socket] (twiceSystem, [[twiceTree], [twiceTree]]) :=
  run_marked.append run_fired

/-- The local that holds the wrapper. -/
def twiceSite (w : Addr) : Site := if w = 2 then .upvalue 4 else .upvalue 5

theorem captured_twice {st : Site} {w : Addr} : twiceSystem.engine.Captured st w ↔
    st = .upvalue 5 ∧ w = 3 ∨ st = .upvalue 4 ∧ w = 2 := by
  have hwraps : twiceTree.toSValue.Wraps st w ↔
      st = .upvalue 5 ∧ w = 3 ∨ st = .upvalue 4 ∧ w = 2 := by
    simp [twiceTree, itemsTree, SFunction.toSValue, SValue.Wraps, SUpvalues.Wraps, SEntries.Wraps,
      eq_comm]
  rw [← hwraps]
  constructor
  · rintro ⟨hid, f, hf, hw⟩
    cases hid <;> cases hf
    exact hw
  · exact fun h => ⟨.socket, twiceTree, rfl, h⟩

/-- The table can be collected from a slave. -/
theorem collectable_twice : Collectable twiceSlave.target.heap (.table 4) where
  supported := ⟨⟨_, rfl⟩, Graph.allFrom_of_keys (by decide)⟩
  acyclic := by
    have hcopy : serializeObject twiceSlave.target.heap 2 (.table 4) = .ok _ := rfl
    exact acyclicFrom_of_expands (serializeObject_expands hcopy)
  nulFree := trivial
  allNulFree := Graph.allFrom_of_keys (by decide)
  unwrapped := Graph.allFrom_of_keys (by decide)

/-- Both wrappers hold the table. -/
theorem wrappers_twice : ∀ c ∈ twiceSystem.engine.collectors, ∃ t v,
    twiceSystem.engine.heap.lookup c = some (.table t) ∧ t.Holds [v] := by
  simp only [twiceSystem, List.forall_mem_cons]
  exact ⟨⟨_, _, rfl, rfl⟩, ⟨_, _, rfl, rfl⟩, nofun⟩

theorem collects_iff_firstHolds_twice : Collects .above twiceSystem twiceSite := by
  have hsite : ∀ c ∈ twiceSystem.engine.collectors, ∀ st,
      twiceSystem.engine.Captured st c ↔ st = twiceSite c := by
    simp only [twiceSystem, List.forall_mem_cons]
    exact ⟨fun st => captured_twice.trans (by simp [twiceSite]),
      fun st => captured_twice.trans (by simp [twiceSite]), nofun⟩
  have hslot : ∀ c ∈ twiceSystem.engine.collectors,
      Collectable twiceSlave.target.heap (twiceSlave.target.slot (twiceSite c)) := by
    simp only [twiceSystem, List.forall_mem_cons]
    exact ⟨collectable_twice, collectable_twice, nofun⟩
  have hfirst : ∀ c ∈ twiceSystem.engine.collectors, FirstHolds [twiceTree] (twiceSite c) c := by
    simp only [twiceSystem, List.forall_mem_cons]
    exact ⟨List.mem_cons_of_mem _ List.mem_cons_self, List.mem_cons_self, nofun⟩
  refine (collects_iff_firstHolds run_twice wrappers_twice twiceSite hsite fun ss hss => ?_).mpr
    fun fs hfs => ?_
  · obtain rfl := List.eq_of_mem_replicate (n := 2) hss
    exact hslot
  · obtain rfl := List.eq_of_mem_replicate (n := 2) hfs
    exact hfirst

/-! ### A local that is marked for collection -/

theorem Collectable.of_scalar {h : Heap} {v : Value} (hv : v.Scalar) (hnul : v.NulFree) :
    Collectable h v := by
  have hr : ∀ b, ¬ h.captured.ReachFrom v b := by
    rintro b ⟨a, ha, -⟩
    cases v with
    | table a => exact hv
    | function a => exact hv
    | _ => cases ha
  refine ⟨⟨?_, fun b _ hb => (hr b hb).elim⟩, fun b hb => (hr b hb).elim, hnul,
    fun b _ hb => (hr b hb).elim, fun b _ hb => (hr b hb).elim⟩
  cases v with
  | boolean b => trivial
  | number n => trivial
  | string s => trivial
  | _ => exact hv.elim

/-- `local n = 0`, and two functions that return `n`. -/
def counted : Heap :=
  [(1, .closure (.of [1] [3])), (2, .closure (.of [2] [3])), (3, .cell (.ofNat 0))]

/-- `n = collect(0)`: the wrapper is at address 4. -/
def marked : Heap := (3, .cell (.table 4)) :: (4, .table (wrapper (.ofNat 0))) :: counted

/-- The function 2, serialised when `n` held the wrapper. -/
def markedTree : SFunction := ⟨2, ⟨[2], 1⟩, .cons 3 1 (.number (.ofNat 0)) (some 4) .nil⟩

/-- The function 1, serialised before. -/
def countedTree : SFunction := ⟨1, ⟨[1], 1⟩, .cons 3 1 (.number (.ofNat 0)) none .nil⟩

/-- What the main script leaves, with the hooks `hooks`. -/
def markedEngine (hooks : HookId → Option SFunction) : Engine :=
  ⟨marked, [(4, .table 4)], .client, hooks, [4]⟩

/-- The assignment of the wrapper is a step of the main script. -/
theorem scripted_marked (hooks : HookId → Option SFunction) : Scripted
    ⟨(4, .table (wrapper (.ofNat 0))) :: counted, [(4, .table 4)], .client, hooks, [4]⟩
    marked where
  live a _ hl := hl.of_suffix (List.suffix_cons _ _)
  table a t ha _ := by
    by_cases hfour : a = 4
    · subst hfour; exact ⟨wrapper (.ofNat 0), rfl⟩
    · simp [lookup_cons_ne hfour] at ha

theorem markedTree_wraps {st : Site} {w : Addr} :
    markedTree.toSValue.Wraps st w ↔ st = .upvalue 3 ∧ w = 4 := by
  simp [markedTree, SFunction.toSValue, SValue.Wraps, SUpvalues.Wraps, eq_comm]

theorem countedTree_wraps {st : Site} {w : Addr} : ¬ countedTree.toSValue.Wraps st w := by
  simp [countedTree, SFunction.toSValue, SValue.Wraps, SUpvalues.Wraps]

/-- The second function alone is a hook, and a slave has loaded it. -/
def markedSystem : System :=
  ⟨markedEngine fun hid => if hid = .socket then some markedTree else none,
    [⟨⟨[(1, .cell (.ofNat 0)), (2, .closure (.of [2] [1])), (1, .cell .nil)],
      [(2, .function 2)], [(3, 2, 1)], [(2, 2)], [(4, 2, .number (.ofNat 1))]⟩,
      fun hid => if hid = .socket then some 2 else none⟩]⟩

theorem wrapper_holds : (wrapper (.ofNat 0)).Holds [.ofNat 0] := rfl

/-! ### A local that another hook had captured before -/

/-- Both functions are hooks, the first registered before `n` was
marked, and a slave has loaded them in the order of registration. -/
def lateSystem : System :=
  ⟨markedEngine fun hid => if hid = .socket then some markedTree else
      if hid = .close then some countedTree else none,
    [⟨⟨[(4, .closure (.of [2] [1])), (4, .closure (.of [2] [3])), (3, .cell .nil),
        (1, .cell (.ofNat 0)), (2, .closure (.of [1] [1])), (1, .cell .nil)],
      [(4, .function 4), (2, .function 2)], [(3, 2, 1)], [(2, 4), (1, 2)], []⟩,
      fun hid => if hid = .socket then some 4 else if hid = .close then some 2 else none⟩]⟩

theorem run_late : Run (step .above) (System.create counted true)
    [.register .client .close (.function 1), .collect (.ofNat 0), .script marked,
      .register .client .socket (.function 2), .slave [], .fire 0 .close, .fire 0 .socket]
    lateSystem :=
  .cons ⟨trivial, 1, rfl⟩ (.cons ⟨trivial, 0, rfl⟩ (.cons ⟨scripted_marked _, 0, rfl⟩
    (.cons ⟨trivial, 1, rfl⟩ (.cons ⟨trivial, 0, rfl⟩ (.cons ⟨trivial, 0, rfl⟩
      (.cons ⟨trivial, 0, rfl⟩ (.refl _)))))))

/-- **Loading the earlier copy first loses the wrapper**: `n` is marked,
captured by one hook that both the engine and the slave have, and holds a
number, but the pull does not return. -/
theorem late_not_collected : ∃ as s, Run (step .above) (System.create counted true) as s ∧
    (∀ c ∈ s.engine.collectors, ∃ t v, s.engine.heap.lookup c = some (.table t) ∧ t.Holds [v]) ∧
    (∀ c ∈ s.engine.collectors, ∀ st, s.engine.Captured st c ↔ st = .upvalue 3) ∧
    (∀ hid, s.engine.hooks hid ≠ none → ∀ ss ∈ s.slaves, ss.hookKeys hid ≠ none) ∧
    (∀ ss ∈ s.slaves, ∀ c ∈ s.engine.collectors,
      Collectable ss.target.heap (ss.target.slot (.upvalue 3))) ∧
    s.slaves ≠ [] ∧ s.engine.collectors ≠ [] ∧ ¬ Collects .above s fun _ => .upvalue 3 := by
  have hcaptured : ∀ st w, lateSystem.engine.Captured st w ↔ st = .upvalue 3 ∧ w = 4 := by
    intro st w
    constructor
    · rintro ⟨hid, f, hf, hw⟩
      cases hid <;> cases hf
      · exact markedTree_wraps.mp hw
      · exact (countedTree_wraps hw).elim
    · exact fun h => ⟨.socket, markedTree, rfl, markedTree_wraps.mpr h⟩
  refine ⟨_, lateSystem, run_late, fun c hc => ?_, fun c hc st => ?_,
    fun hid hne ss hss => ?_, fun ss hss c _ => ?_, List.cons_ne_nil _ _, List.cons_ne_nil _ _,
    fun h => ?_⟩
  · obtain rfl := List.mem_singleton.mp hc
    exact ⟨_, _, rfl, wrapper_holds⟩
  · obtain rfl := List.mem_singleton.mp hc
    simp [hcaptured]
  · obtain rfl := List.mem_singleton.mp hss
    cases hid <;> first | exact absurd rfl hne | exact Option.some_ne_none _
  · obtain rfl := List.mem_singleton.mp hss
    exact .of_scalar (v := .ofNat 0) trivial trivial
  · exact h.recorded _ (List.mem_singleton.mpr rfl) 4 (List.mem_singleton.mpr rfl) rfl

end Script

end Rushit
