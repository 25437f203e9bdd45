import Rushit.Script.Collect
/-!
# Where nil can reach the serialiser

`serialize_object` asserts that it is not given nil. Nil comes to it from
a captured variable that was not assigned, from a wrapper around nil, and
from a collector that a slave has not recorded or whose slot holds nil.
In a run that registers and pulls none of these the assertion is not
reached, and every pull returns.
-/

namespace Rushit

namespace Lua

/-- No variable and no table entry holds nil, or a wrapper around
nil. -/
def Node.NilFree : Node → Prop
  | .table es => ∀ e ∈ es, e.2.value ≠ .nil
  | .closure _ => True
  | .cell s => s.value ≠ .nil

instance : DecidablePred Node.NilFree
  | .table es => inferInstanceAs (Decidable (∀ e ∈ es, _))
  | .closure _ => isTrue trivial
  | .cell s => inferInstanceAs (Decidable (s.value ≠ .nil))

end Lua

namespace Serialize

open Lua

variable {h : Heap}

/-- A value that is not nil, and reaches none. -/
structure NilFreeFrom (G : Graph) (v : Value) : Prop where
  ne_nil : v ≠ .nil
  all : G.AllFrom v Node.NilFree

theorem NilFreeFrom.of_reach {G : Graph} {v w : Value} (hv : NilFreeFrom G v) (hw : w ≠ .nil)
    (hreach : ∀ b, G.ReachFrom w b → G.ReachFrom v b) : NilFreeFrom G w :=
  ⟨hw, fun b n hb hn => hv.all b n (hreach b hb) hn⟩

/-- **The serialiser does not reach nil** from a value that does not. -/
theorem visited_nilFree : Visited h (· ≠ .assertNil) (NilFreeFrom h.captured) where
  fuel := by decide
  nil hv := (hv.ne_nil rfl).elim
  other _ _ _ _ _ := by decide
  table a t hv ht e he := by
    have hmem : (e.1, h.unwrapCollectorMaybe e.2) ∈
        t.entries.map fun e => (e.1, h.unwrapCollectorMaybe e.2) := List.mem_map_of_mem he
    have hnode := hv.all a _ (Graph.reachFrom_table .refl) (captured_table ht)
    have hkey : e.1 ≠ .nil := by
      intro hnil
      have hk := t.keyable e he
      rw [hnil] at hk
      cases hk
    exact ⟨hv.of_reach hkey fun b hb =>
        Graph.reachFrom_table (Graph.reach_of_key (captured_table ht) hmem hb),
      hv.of_reach (hnode _ hmem) fun b hb =>
        Graph.reachFrom_table (Graph.reach_of_entry (captured_table ht) hmem hb)⟩
  noTable _ _ _ := by decide
  upvalue a c hv hc x hx v hcell := by
    have hcap := captured_cell (Heap.cell?_eq_some.mp hcell)
    have hax : h.captured.Reach a x := .single (Graph.edge_upvalue (captured_closure.mpr hc) hx)
    have hnode := hv.all x _ (Graph.reachFrom_function hax) hcap
    exact hv.of_reach hnode fun b hb =>
      Graph.reachFrom_function (hax.trans (Graph.reach_of_cell hcap hb))
  noCell _ _ _ _ _ _ _ := by decide
  noClosure _ _ _ := by decide

/-- A value that serialises, and whose tree loads. -/
structure Storable (h : Heap) (v : Value) : Prop where
  supported : h.captured.SupportedFrom v
  acyclic : h.captured.AcyclicFrom v
  scalarKeys : h.captured.AllFrom v Node.ScalarKeys

theorem Storable.dumps {v : Value} (hv : Storable h v) : Dumps h v :=
  dumps_of_founded hv.supported fun _ ha => founded_of_acyclicFrom hv.acyclic ha

/-! ## What a load can end in -/

/-- Loading fails an assertion or breaks the API, and nothing else. -/
def LoadFault (e : Fault) : Prop := e = .api ∨ e = .assertion

theorem orFault_endsIn {α : Type} {P : Fault → Prop} {fault : Fault} (hf : P fault)
    (x : Option α) : EndsIn P (orFault fault x) := by
  cases x with
  | none => intro e he; cases he; exact hf
  | some a => exact EndsIn.ok a

/-- `map_collector` returns, or fails its assertion. -/
theorem mapCollectorMaybe_endsIn (σ : Target) (key : Option Addr) (o : Addr) (k : SValue) :
    EndsIn (· = .assertion) (mapCollectorMaybe σ key o k) := by
  cases key with
  | none => exact EndsIn.ok σ
  | some w =>
    have hcopy : EndsIn (· = .assertion) (copyValue k) := by
      cases k with
      | boolean b => exact EndsIn.ok _
      | number n => exact EndsIn.ok _
      | string s => exact EndsIn.ok _
      | function id code us => intro e he; cases he; rfl
      | table id es => intro e he; cases he; rfl
    exact hcopy.bind fun _ => EndsIn.ok _

variable {al : Allocator}

mutual

theorem pushObject_endsIn (t : SValue) (σ : Target) : EndsIn LoadFault (pushObject al t σ) := by
  cases t with
  | boolean b => exact EndsIn.ok _
  | number n => exact EndsIn.ok _
  | string s => exact EndsIn.ok _
  | function id code us =>
    rw [pushObject]
    split
    · exact EndsIn.ok _
    · exact (setSharedUpvalues_endsIn us _ _).bind fun _ => EndsIn.ok _
  | table id es =>
    rw [pushObject]
    split
    · exact EndsIn.ok _
    · exact (pushEntries_endsIn es _ _).bind fun _ => EndsIn.ok _

theorem setSharedUpvalues_endsIn (us : SUpvalues) (fid : Addr) (σ : Target) :
    EndsIn LoadFault (setSharedUpvalues al fid us σ) := by
  cases us with
  | nil => exact EndsIn.ok σ
  | cons id number value collectorId next =>
    rw [setSharedUpvalues]
    refine EndsIn.bind ?_ fun σ' => setSharedUpvalues_endsIn next fid σ'
    unfold setSharedUpvalue
    split
    · split
      · exact (orFault_endsIn (.inl rfl) _).bind fun _ => EndsIn.ok _
      · intro e he; cases he; exact .inl rfl
    · refine (pushObject_endsIn value σ).bind fun r => ?_
      refine (orFault_endsIn (.inr rfl) _).bind fun heap => ?_
      exact (mapCollectorMaybe_endsIn _ _ _ _).mono fun _ he => .inr he

theorem pushEntries_endsIn (es : SEntries) (tid : Addr) (σ : Target) :
    EndsIn LoadFault (pushEntries al tid es σ) := by
  cases es with
  | nil => exact EndsIn.ok σ
  | cons key value collectorId next =>
    rw [pushEntries]
    refine (pushObject_endsIn key σ).bind fun r => (pushObject_endsIn value r.2).bind fun r' => ?_
    refine (orFault_endsIn (.inl rfl) _).bind fun heap => ?_
    have hmap := (mapCollectorMaybe_endsIn (r'.2.withHeap heap) collectorId tid key).mono
      fun e he => (.inr he : LoadFault e)
    exact hmap.bind fun σ' => pushEntries_endsIn next tid σ'

end

end Serialize

namespace Script

open Lua Serialize

variable {al : Allocator} {n : ℕ}

theorem Storable.sound {h : Heap} {v : Value} {t : SValue} (hv : Storable h v)
    (ht : t.Expands h.captured v) : t.Sound fun _ _ => True := by
  have hexp := expands_reachable ht (List.mem_singleton.mpr rfl)
  refine ht.sound_of_wraps captured_keyable fun s w hw => ⟨trivial, ?_⟩
  refine capture_scalar (fun a m ha => ?_) (hexp.wraps hw)
  obtain ⟨u, hu, hr, hm⟩ := reachable_eq_some ha
  obtain rfl := List.mem_singleton.mp hu
  exact hv.scalarKeys a m hr hm

/-- **What keeps nil out of a step**: a registration for the engine's own
run mode captures none, and a pull finds every wrapper recorded, with a
value that can be copied in its slot. -/
def NilKeptOut (s : System) : Action → Prop
  | .register runMode _ v => s.engine.runMode = runMode → ∀ f, v = .function f →
      s.engine.heap.captured.AllFrom (.function f) Node.NilFree
  | .pull i => ∀ ss, s.slaves[i]? = some ss → ∀ c ∈ s.engine.collectors,
      Recorded ss c ∧ Storable ss.target.heap (ss.target.recorded c)
  | _ => True

/-- The collectors are tables. -/
def Engine.Tables (cs : List Addr) (h : Heap) : Prop :=
  ∀ c ∈ cs, ∃ t, h.lookup c = some (.table t)

/-! ## One pull -/

section Pull

variable {se : Engine} {ss : Slave} {P : Fault → Prop}

/-- The pull of one value returns, or ends as the serialiser does. -/
theorem pull_one {c : Addr} {σ : Target} (hr : se.Registered) (hok : ss.Ok se)
    (hc : c ∈ se.collectors) (hv : Storable ss.target.heap (ss.target.recorded c))
    (hP : EndsIn P (serializeObject ss.target.heap n (ss.target.recorded c)))
    (hσ : Valid (fun _ _ => True) σ) (ht : Engine.Tables se.collectors σ.heap) :
    (∃ σ', (do
        let sv ← getCollectedValue al n ss c
        addCollectedValue al se.registry c sv σ) = .ok σ' ∧
      Valid (fun _ _ => True) σ' ∧ Engine.Tables se.collectors σ'.heap) ∨
    ∃ e, (do
        let sv ← getCollectedValue al n ss c
        addCollectedValue al se.registry c sv σ) = .error e ∧ P e := by
  have hget : getCollectedValue al n ss c =
      serializeObject ss.target.heap n (ss.target.recorded c) := by
    unfold getCollectedValue
    rw [pushCollectedValue_eq hok.1]; rfl
  rw [hget]
  cases hser : serializeObject ss.target.heap n (ss.target.recorded c) with
  | error e => exact .inr ⟨e, rfl, hP e hser⟩
  | ok sv =>
    obtain ⟨t, htc⟩ := ht c hc
    obtain ⟨v, σ₁, t', -, hg, ht₁, heq, -⟩ := addCollectedValue_eq al hσ
      (Storable.sound hv (serializeObject_expands hser)) (hr.registry c hc) htc
    refine .inl ⟨_, heq, (setTable_grown t' hg.valid ht₁ fun _ => True).valid, fun d hd => ?_⟩
    -- only the table of this collector is written to
    by_cases hdc : d = c
    · exact ⟨t', by simp [hdc, Target.setTable, Target.withHeap]⟩
    · obtain ⟨u, hu⟩ := ht d hd
      have hother : (σ₁.setTable c t').heap.lookup d = σ₁.heap.lookup d := lookup_cons_ne hdc
      exact ⟨u, by rw [hother, hg.ext.lookup hu]⟩

/-- **A pull returns, or ends as the serialiser does.** -/
theorem pull_ok_or (al : Allocator) (hr : se.Registered) (hok : ss.Ok se)
    (ht : Engine.Tables se.collectors se.heap)
    (hv : ∀ c ∈ se.collectors, Storable ss.target.heap (ss.target.recorded c))
    (hP : ∀ c ∈ se.collectors,
      EndsIn P (serializeObject ss.target.heap n (ss.target.recorded c))) :
    (∃ h', scriptEnginePullData al n se ss = .ok { se with heap := h' } ∧
      Engine.Tables se.collectors h') ∨
    ∃ e, scriptEnginePullData al n se ss = .error e ∧ P e := by
  have hloop := foldlM_ok_or (l := se.collectors) (b := Target.start se.heap)
    (f := fun σ c => do
      let sv ← getCollectedValue al n ss c
      addCollectedValue al se.registry c sv σ)
    (I := fun σ => Valid (fun _ _ => True) σ ∧ Engine.Tables se.collectors σ.heap) (P := P)
    (fun σ c hc hσ => pull_one hr hok hc (hv c hc) (hP c hc) hσ.1 hσ.2) ⟨Valid.start _ _, ht⟩
  unfold scriptEnginePullData
  rcases hloop with ⟨σ, hrun, -, hσ⟩ | ⟨e, hrun, he⟩
  · exact .inl ⟨σ.heap, bind_eq_ok.mpr ⟨σ, hrun, rfl⟩, hσ⟩
  · refine .inr ⟨e, ?_, he⟩
    simp only [Target.start] at hrun
    simp only [bind, Except.bind] at hrun ⊢
    rw [hrun]

/-- **With enough fuel a pull returns.** -/
theorem pull_returns (al : Allocator) (hr : se.Registered) (hok : ss.Ok se)
    (ht : Engine.Tables se.collectors se.heap)
    (hv : ∀ c ∈ se.collectors, Storable ss.target.heap (ss.target.recorded c)) :
    Returns fun n => scriptEnginePullData al n se ss := by
  obtain ⟨N, hN⟩ := eventually_forall_mem fun c hc => (hv c hc).dumps
  refine ⟨N, fun n hn => ?_⟩
  rcases pull_ok_or al hr hok ht hv (hN n hn) with ⟨h', hok, -⟩ | ⟨e, -, he⟩
  · exact ⟨_, hok⟩
  · exact he.elim

end Pull

/-! ## Runs -/

/-- The invariant, with the collectors' tables in place. -/
structure NilInv (s : System) : Prop where
  inv : s.Inv
  tables : Engine.Tables s.engine.collectors s.engine.heap

theorem emptyCollectors_tables {se se' : Engine} {cs : List Addr}
    (h : emptyCollectors se = .ok se') (ht : Engine.Tables cs se.heap) :
    Engine.Tables cs se'.heap := by
  obtain ⟨h', hrun, hret⟩ := bind_eq_ok.mp h
  cases hret
  refine (foldlM_invariant (I := Engine.Tables cs) (fun h₁ h₂ c _ hs hstep => ?_) hrun ht).1
  unfold emptyCollector at hstep
  split at hstep
  · rename_i a ha
    split at hstep
    · rename_i t hta
      split at hstep
      · have hset : t.rawset (.ofNat 1) .nil = some (t.erase (.ofNat 1)) := rfl
        rw [Heap.rawset_eq (Heap.table?_eq_some.mp hta) hset] at hstep
        cases hstep
        intro d hd
        by_cases hda : d = a
        · exact ⟨t.erase (.ofNat 1), by simp [hda]⟩
        · obtain ⟨u, hu⟩ := hs d hd
          exact ⟨u, by rw [lookup_cons_ne hda, hu]⟩
      · cases hstep
    · cases hstep
  · cases hstep

/-- **Every step that keeps nil out keeps the invariant.** -/
theorem NilInv.step {s s' : System} {a : Action} (hi : NilInv s) (ha : NilKeptOut s a)
    (hs : Script.step al s a s') : NilInv s' := by
  refine ⟨hi.inv.step hs, ?_⟩
  obtain ⟨hallow, n, hexec⟩ := hs
  cases a with
  | script h =>
    cases hexec
    intro c hc
    obtain ⟨t, ht⟩ := hi.tables c hc
    exact hallow.table c t (hi.inv.registered.registry c hc) ht
  | collect v =>
    cases hexec
    intro c hc
    rcases List.mem_cons.mp hc with rfl | hc
    · exact ⟨wrapper v, by simp⟩
    · obtain ⟨t, ht⟩ := hi.tables c hc
      -- the new wrapper is at an address of its own
      have hne : c ≠ al.next s.engine.heap := Allocator.ne_next (Heap.live_of_lookup ht)
      exact ⟨t, (lookup_cons_ne hne).trans ht⟩
  | register runMode hid v =>
    obtain ⟨e, he, rfl⟩ := exec_register hexec
    rcases storeHook_hooks he with rfl | ⟨f, g, -, -, rfl⟩
    · exact hi.tables
    · exact hi.tables
  | slave h => cases hexec; exact hi.tables
  | fire i hid =>
    obtain ⟨ss, v, ss', -, -, rfl⟩ := exec_fire hexec
    exact hi.tables
  | body i h =>
    obtain ⟨ss, -, rfl⟩ := exec_body hexec
    exact hi.tables
  | empty =>
    obtain ⟨e, he, rfl⟩ := exec_empty hexec
    obtain ⟨h, rfl, -⟩ := emptyCollectors_suffix he
    exact emptyCollectors_tables he hi.tables
  | pull i =>
    obtain ⟨ss, e, hss, he, rfl⟩ := exec_pull hexec
    have hv := fun c hc => (ha ss hss c hc).2
    rcases pull_ok_or al hi.inv.registered
      (hi.inv.slaves ss (List.mem_of_getElem? hss)) hi.tables hv
      (fun c hc => serializeObject_supported n (hv c hc).supported)
      with ⟨h', hok, ht⟩ | ⟨e', herr, -⟩
    · rw [he] at hok; cases hok; exact ht
    · rw [he] at herr; cases herr

/-- A registration that captures no nil does not end in the
assertion. -/
theorem register_endsIn {se : Engine} {runMode : RunMode} {hid : HookId} {v : Value}
    (hv : se.runMode = runMode → ∀ f, v = .function f →
      se.heap.captured.AllFrom (.function f) Node.NilFree) :
    EndsIn (· ≠ .assertNil) (storeHook n runMode hid v se) := by
  unfold storeHook
  split
  · rename_i f
    split
    · rename_i hmode
      split
      · intro e he; cases he; decide
      · have hf : NilFreeFrom se.heap.captured (.function f) := ⟨by simp, hv hmode f rfl⟩
        exact (serializeFunctionWith_visited visited_nilFree
          (fun v hv => serializeObject_visited visited_nilFree n hv) hf).bind fun g => EndsIn.ok _
    · exact EndsIn.ok _
  · intro e he; cases he; decide

/-- Loading a hook does not end in the assertion. -/
theorem fire_endsIn {se : Engine} {hid : HookId} {ss : Slave} :
    EndsIn LoadFault (pushHook al se hid ss) := by
  unfold pushHook
  split
  · exact EndsIn.ok _
  · split
    · exact EndsIn.ok _
    · refine EndsIn.bind ?_ fun r => EndsIn.ok _
      exact (setSharedUpvalues_endsIn _ _ _).bind fun _ => EndsIn.ok _

/-- Nor does emptying the collectors. -/
theorem empty_endsIn {se : Engine} : EndsIn LoadFault (emptyCollectors se) := by
  refine EndsIn.bind ?_ fun h => EndsIn.ok _
  intro e he
  have hloop := foldlM_ok_or (l := se.collectors) (b := se.heap) (f := emptyCollector se.registry)
    (I := fun _ => True) (P := LoadFault) fun h c _ _ => by
      cases hstep : emptyCollector se.registry h c with
      | ok h' => exact .inl ⟨h', rfl, trivial⟩
      | error e =>
        refine .inr ⟨e, rfl, ?_⟩
        unfold emptyCollector at hstep
        split at hstep
        · split at hstep
          · split at hstep
            · exact orFault_endsIn (.inl rfl) _ e hstep
            · cases hstep; exact .inr rfl
          · cases hstep; exact .inl rfl
        · cases hstep; exact .inr rfl
  rcases hloop trivial with ⟨h', hok, -⟩ | ⟨e', herr, he'⟩
  · rw [hok] at he; cases he
  · rw [herr] at he; cases he; exact he'

theorem LoadFault.ne_assertNil {e : Fault} (he : LoadFault e) : e ≠ .assertNil := by
  rcases he with rfl | rfl <;> decide

/-- A step that keeps nil out does not end in the assertion. -/
theorem NilInv.exec_endsIn {s : System} {a : Action} (hi : NilInv s) (ha : NilKeptOut s a) :
    EndsIn (· ≠ .assertNil) (exec al n s a) := by
  have hne : ∀ {α : Type} {r : Except Fault α}, EndsIn LoadFault r → EndsIn (· ≠ .assertNil) r :=
    fun hr e he => LoadFault.ne_assertNil (hr e he)
  cases a with
  | script h => exact EndsIn.ok _
  | collect v => exact EndsIn.ok _
  | register runMode hid v => exact (register_endsIn ha).bind fun e => EndsIn.ok _
  | slave h => exact EndsIn.ok _
  | fire i hid =>
    simp only [exec]
    split
    · exact (hne fire_endsIn).bind fun r => EndsIn.ok _
    · intro e he; cases he; decide
  | body i h =>
    simp only [exec]
    split
    · exact EndsIn.ok _
    · intro e he; cases he; decide
  | empty => exact (hne empty_endsIn).bind fun e => EndsIn.ok _
  | pull i =>
    simp only [exec]
    split
    · rename_i ss hss
      refine EndsIn.bind (fun e he => ?_) fun e => EndsIn.ok _
      have hv := fun c hc => (ha ss hss c hc).2
      -- the values are supported, so only the fuel can be too little
      rcases pull_ok_or al hi.inv.registered
        (hi.inv.slaves ss (List.mem_of_getElem? hss)) hi.tables hv
        (fun c hc => serializeObject_supported n (hv c hc).supported) with h | ⟨e', herr, rfl⟩
      · obtain ⟨h', hok, -⟩ := h
        rw [hok] at he; cases he
      · rw [herr] at he; cases he; decide
    · intro e he; cases he; decide

/-- And a pull returns. -/
theorem NilInv.pull_returns {s : System} {i : ℕ} (hi : NilInv s) (ha : NilKeptOut s (.pull i))
    (hlt : i < s.slaves.length) : Returns fun n => exec al n s (.pull i) := by
  have hss := List.getElem?_eq_getElem hlt
  obtain ⟨N, hN⟩ := Script.pull_returns al hi.inv.registered
    (hi.inv.slaves _ (List.mem_of_getElem? hss)) hi.tables fun c hc => (ha _ hss c hc).2
  refine ⟨N, fun n hn => ?_⟩
  obtain ⟨e, he⟩ := hN n hn
  exact ⟨⟨e, s.slaves⟩, by simp [exec, hss, he, bind, Except.bind, pure, Except.pure]⟩

/-- **Nil does not reach the serialiser.** In every state of a run whose
steps keep nil out, no further such step ends in the assertion, and a
pull of any slave returns. -/
theorem nil_not_reached {h : Heap} {isClient : Bool} {as : List Action} {s : System}
    (hrun : Run (Guarded (step al) NilKeptOut) (System.create h isClient) as s) (a : Action)
    (ha : NilKeptOut s a) :
    (∀ n, exec al n s a ≠ .error .assertNil) ∧
      ∀ i, a = .pull i → i < s.slaves.length → Returns fun n => exec al n s a := by
  have hi : NilInv s := hrun.preserves_of_guarded (fun _ _ _ hi hok hs => hi.step hok hs)
    ⟨System.Inv.create h isClient, fun c hc => (List.not_mem_nil hc).elim⟩
  refine ⟨fun n herr => hi.exec_endsIn ha _ herr rfl, ?_⟩
  rintro i rfl hlt
  exact hi.pull_returns ha hlt

/-- The pull of `n = collect(0)` from a slave that has loaded its
hook. -/
theorem nil_not_reached_marked : (∀ n, exec .above n markedSystem (.pull 0) ≠ .error .assertNil) ∧
    Returns fun n => exec .above n markedSystem (.pull 0) := by
  have hreg : marked.captured.AllFrom (.function 2) Node.NilFree :=
    Graph.allFrom_of_keys (by decide)
  have hrun : Run (Guarded (step .above) NilKeptOut) (System.create counted true)
      [.collect (.ofNat 0), .script marked, .register .client .socket (.function 2), .slave [],
        .fire 0 .socket] markedSystem :=
    .cons ⟨trivial, trivial, 0, rfl⟩ (.cons ⟨trivial, scripted_marked _, 0, rfl⟩
      (.cons ⟨fun _ f hf => by cases hf; exact hreg, trivial, 1, rfl⟩
        (.cons ⟨trivial, trivial, 0, rfl⟩ (.cons ⟨trivial, trivial, 0, rfl⟩ (.refl _)))))
  have hr : ∀ h : Heap, ∀ b, ¬ h.captured.ReachFrom (.ofNat 0) b := by
    rintro h b ⟨a, ha, -⟩; cases ha
  have hpull : NilKeptOut markedSystem (.pull 0) := by
    intro ss hss c hc
    cases hss
    obtain rfl := List.mem_singleton.mp hc
    refine ⟨by simp [Recorded], ⟨⟨trivial, ?_⟩, ?_, ?_⟩⟩
    · exact fun b _ hb => (hr _ b hb).elim
    · exact fun b hb => (hr _ b hb).elim
    · exact fun b _ hb => (hr _ b hb).elim
  obtain ⟨hne, hret⟩ := nil_not_reached hrun (.pull 0) hpull
  exact ⟨hne, hret 0 rfl (by decide)⟩

/-! ### A local that is not assigned, and a hook that has not fired -/

/-- `local x`, and a function that returns `x`. -/
def unassigned : Heap := [(1, .closure (.of [1] [2])), (2, .cell .nil)]

/-- **Nil reaches the serialiser**: when the function that returns an
unassigned local is registered, and when a slave is pulled that has not
loaded the hook with the wrapper. -/
theorem nil_reached :
    exec .above 1 (System.create unassigned true) (.register .client .socket (.function 1)) =
      .error .assertNil ∧
    ∃ s, Run (step .above) (System.create counted true)
      [.collect (.ofNat 0), .script marked, .register .client .socket (.function 2), .slave []] s ∧
      exec .above 1 s (.pull 0) = .error .assertNil := by
  refine ⟨rfl, _, .cons ⟨trivial, 0, rfl⟩ (.cons ⟨scripted_marked _, 0, rfl⟩
    (.cons ⟨trivial, 1, rfl⟩ (.cons ⟨trivial, 0, rfl⟩ (.refl _)))), rfl⟩

end Script

end Rushit
