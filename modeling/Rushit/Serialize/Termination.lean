import Rushit.Serialize.Expand
/-!
# When serialisation terminates

`serialize_object` follows every reference it meets and never asks
whether it has met the object before: the ids are looked up when the
tree is loaded, not when it is made. So it returns on supported values
exactly when no cycle is reached from the value.
-/

namespace Rushit

namespace Serialize

open Lua

variable {h : Heap} {α β : Type} {P : Fault → Prop}

/-- The call returns, whatever the fuel from some amount on. -/
def Returns (r : ℕ → Except Fault α) : Prop := ∃ N, ∀ n ≥ N, ∃ a, r n = .ok a

/-- The call returns or ends in one of the faults `P`. -/
def EndsIn (P : Fault → Prop) (r : Except Fault α) : Prop := ∀ e, r = .error e → P e

theorem EndsIn.ok (a : α) : EndsIn P (Except.ok a : Except Fault α) := by
  intro e he; cases he

theorem EndsIn.bind_of_ok {x : Except Fault α} {f : α → Except Fault β} (hx : EndsIn P x)
    (hf : ∀ a, x = .ok a → EndsIn P (f a)) : EndsIn P (x >>= f) := by
  cases x with
  | error e' =>
    intro e he
    exact hx e (by simpa [Bind.bind, Except.bind] using he)
  | ok a => exact hf a rfl

theorem EndsIn.bind {x : Except Fault α} {f : α → Except Fault β} (hx : EndsIn P x)
    (hf : ∀ a, EndsIn P (f a)) : EndsIn P (x >>= f) := hx.bind_of_ok fun a _ => hf a

theorem EndsIn.mono {Q : Fault → Prop} {x : Except Fault α} (hx : EndsIn P x)
    (hPQ : ∀ e, P e → Q e) : EndsIn Q x := fun e he => hPQ e (hx e he)

/-- No fault is left: the call returned. -/
theorem EndsIn.exists_ok {r : Except Fault α} (hr : EndsIn (fun _ => False) r) :
    ∃ a, r = .ok a := by
  cases r with
  | error e => exact (hr e rfl).elim
  | ok a => exact ⟨a, rfl⟩

section Calls

variable {rec : Value → Except Fault SValue}

theorem dumpTableEntries_endsIn {entries : List (Value × Value)}
    (hrec : ∀ e ∈ entries, EndsIn P (rec e.1) ∧ EndsIn P (rec (h.unwrapCollectorMaybe e.2).value)) :
    EndsIn P (dumpTableEntries h rec entries) := by
  unfold dumpTableEntries
  generalize SEntries.nil = head
  induction entries generalizing head with
  | nil => exact EndsIn.ok head
  | cons e entries ih =>
    obtain ⟨hkey, hvalue⟩ := hrec e (by simp)
    rw [List.foldlM_cons]
    refine EndsIn.bind (hvalue.bind fun value => hkey.bind fun key => EndsIn.ok _) fun head' => ?_
    exact ih (fun e' he' => hrec e' (List.mem_cons_of_mem _ he')) head'

theorem serializeUpvalues_endsIn {xs : List Addr}
    (hrec : ∀ x ∈ xs, ∀ v, h.cell? x = some v → EndsIn P (rec (h.unwrapCollectorMaybe v).value))
    (hcell : ∀ x ∈ xs, h.cell? x = none → P .api) (i : ℕ) (list : SUpvalues) :
    EndsIn P (serializeUpvalues h rec xs i list) := by
  induction xs generalizing i list with
  | nil => exact EndsIn.ok list
  | cons x xs ih =>
    unfold serializeUpvalues
    cases hv : h.cell? x with
    | some v =>
      exact (hrec x (by simp) v hv).bind fun value =>
        ih (fun y hy => hrec y (List.mem_cons_of_mem _ hy))
          (fun y hy => hcell y (List.mem_cons_of_mem _ hy)) _ _
    | none =>
      intro e he
      cases he
      exact hcell x (by simp) hv

theorem serializeFunctionWith_endsIn {a : Addr} {c : Closure} (hc : h.lookup a = some (.closure c))
    (hrec : ∀ x ∈ c.uvs, ∀ v, h.cell? x = some v →
      EndsIn P (rec (h.unwrapCollectorMaybe v).value))
    (hcell : ∀ x ∈ c.uvs, h.cell? x = none → P .api) :
    EndsIn P (serializeFunctionWith h rec a) := by
  unfold serializeFunctionWith
  rw [hc]
  exact (serializeUpvalues_endsIn hrec hcell 1 .nil).bind fun us => EndsIn.ok _

theorem serializeTable_endsIn {a : Addr} {t : Table} (ht : h.lookup a = some (.table t))
    (hrec : ∀ e ∈ t.entries,
      EndsIn P (rec e.1) ∧ EndsIn P (rec (h.unwrapCollectorMaybe e.2).value)) :
    EndsIn P (serializeTable h rec a) := by
  unfold serializeTable
  rw [Heap.table?_eq_some.mpr ht]
  exact (dumpTableEntries_endsIn hrec).bind fun es => EndsIn.ok _

end Calls

/-! ## Reading the captured graph back -/

theorem lookup_of_captured_table {a : Addr} {es : List (Value × Slot)}
    (ha : h.captured a = some (.table es)) : ∃ t, h.lookup a = some (.table t) ∧
      es = t.entries.map fun e => (e.1, h.unwrapCollectorMaybe e.2) := by
  unfold Heap.captured at ha
  split at ha
  · rename_i t ht
    exact ⟨t, ht, by simpa using ha.symm⟩
  all_goals simp at ha

theorem lookup_of_captured_cell {a : Addr} {s : Slot} (ha : h.captured a = some (.cell s)) :
    ∃ v, h.lookup a = some (.cell v) ∧ s = h.unwrapCollectorMaybe v := by
  unfold Heap.captured at ha
  split at ha
  any_goals simp at ha
  rename_i v hv
  exact ⟨v, hv, ha.symm⟩

/-- What `serialize_function` reads of a supported closure: a value in
each of its cells. -/
theorem cells_of_supported {c : Closure} (hs : h.captured.SupportsNode (.closure c)) {x : Addr}
    (hx : x ∈ c.uvs) : ∃ v, h.cell? x = some v ∧
      h.captured x = some (.cell (h.unwrapCollectorMaybe v)) := by
  obtain ⟨s, hs⟩ := hs x hx
  obtain ⟨v, hv, rfl⟩ := lookup_of_captured_cell hs
  exact ⟨v, Heap.cell?_eq_some.mpr hv, hs⟩

/-! ## Supported values -/

/-- `v` is supported and so is what it reaches, in a form that descends
along references. -/
theorem supportedFrom_of_reach {G : Graph} {v w : Value} (hv : G.SupportedFrom v)
    (hw : G.Supports w) (hreach : ∀ b, G.ReachFrom w b → G.ReachFrom v b) : G.SupportedFrom w :=
  ⟨hw, fun b n hb hn => hv.2 b n (hreach b hb) hn⟩

theorem SupportedFrom.key {G : Graph} {a : Addr} {es : List (Value × Slot)} {e : Value × Slot}
    (hv : G.SupportedFrom (.table a)) (ha : G a = some (.table es)) (he : e ∈ es) :
    G.SupportedFrom e.1 :=
  supportedFrom_of_reach hv (hv.2 a _ (Graph.reachFrom_table .refl) ha e he).1 fun _ hb =>
    Graph.reachFrom_table (Graph.reach_of_key ha he hb)

theorem SupportedFrom.entry {G : Graph} {a : Addr} {es : List (Value × Slot)} {e : Value × Slot}
    (hv : G.SupportedFrom (.table a)) (ha : G a = some (.table es)) (he : e ∈ es) :
    G.SupportedFrom e.2.value :=
  supportedFrom_of_reach hv (hv.2 a _ (Graph.reachFrom_table .refl) ha e he).2 fun _ hb =>
    Graph.reachFrom_table (Graph.reach_of_entry ha he hb)

theorem SupportedFrom.upvalue {G : Graph} {a x : Addr} {c : Closure} {s : Slot}
    (hv : G.SupportedFrom (.function a)) (ha : G a = some (.closure c)) (hx : x ∈ c.uvs)
    (hs : G x = some (.cell s)) : G.SupportedFrom s.value := by
  have hax : G.Reach a x := .single (Graph.edge_upvalue ha hx)
  exact supportedFrom_of_reach hv (hv.2 x _ (Graph.reachFrom_function hax) hs) fun _ hb =>
    Graph.reachFrom_function (hax.trans (Graph.reach_of_cell hs hb))

/-- A set of values that `serialize_object` does not leave, and the
faults it can meet inside. -/
structure Visited (h : Heap) (P : Fault → Prop) (Q : Value → Prop) : Prop where
  fuel : P .outOfFuel
  nil : Q .nil → P .assertNil
  other : ∀ v, Q v → ¬ v.Scalar → v.ref? = none → v ≠ .nil → P .assertion
  table : ∀ a t, Q (.table a) → h.lookup a = some (.table t) →
    ∀ e ∈ t.entries, Q e.1 ∧ Q (h.unwrapCollectorMaybe e.2).value
  noTable : ∀ a, Q (.table a) → h.table? a = none → P .api
  upvalue : ∀ a c, Q (.function a) → h.lookup a = some (.closure c) →
    ∀ x ∈ c.uvs, ∀ v, h.cell? x = some v → Q (h.unwrapCollectorMaybe v).value
  noCell : ∀ a c, Q (.function a) → h.lookup a = some (.closure c) →
    ∀ x ∈ c.uvs, h.cell? x = none → P .api
  noClosure : ∀ a, Q (.function a) → h.closure? a = none → P .api ∧ P .fatal

theorem serializeFunctionWith_visited {Q : Value → Prop} {rec : Value → Except Fault SValue}
    (hQ : Visited h P Q) (hrec : ∀ v, Q v → EndsIn P (rec v)) {a : Addr} (ha : Q (.function a)) :
    EndsIn P (serializeFunctionWith h rec a) := by
  cases hc : h.closure? a with
  | some c =>
    have hc' := Heap.closure?_eq_some.mp hc
    exact serializeFunctionWith_endsIn hc'
      (fun x hx v hv => hrec _ (hQ.upvalue a c ha hc' x hx v hv)) (hQ.noCell a c ha hc')
  | none =>
    obtain ⟨hapi, hfatal⟩ := hQ.noClosure a ha hc
    unfold serializeFunctionWith
    split
    · rename_i c hc'
      rw [Heap.closure?_eq_some.mpr hc'] at hc; cases hc
    · intro e he; cases he; exact hfatal
    · intro e he; cases he; exact hapi

/-- **What can stop `serialize_object`** is what can stop it on a value
it visits. -/
theorem serializeObject_visited {Q : Value → Prop} (hQ : Visited h P Q) (n : ℕ) {v : Value}
    (hv : Q v) : EndsIn P (serializeObject h n v) := by
  induction n generalizing v with
  | zero => intro e he; cases he; exact hQ.fuel
  | succ n ih =>
    have hrec : ∀ v, Q v → EndsIn P (serializeObject h n v) := fun v hv => ih hv
    unfold serializeObject
    cases v with
    | boolean b => exact EndsIn.ok _
    | number x => exact EndsIn.ok _
    | string s => exact EndsIn.ok _
    | table a =>
      cases ht : h.table? a with
      | some t =>
        have ht' := Heap.table?_eq_some.mp ht
        exact serializeTable_endsIn ht' fun e he =>
          ⟨hrec _ (hQ.table a t hv ht' e he).1, hrec _ (hQ.table a t hv ht' e he).2⟩
      | none =>
        simp only [serializeTable, ht]
        intro e he; cases he; exact hQ.noTable a hv ht
    | function a => exact (serializeFunctionWith_visited hQ hrec hv).bind fun f => EndsIn.ok _
    | nil => intro e he; cases he; exact hQ.nil hv
    | userdata a => intro e he; cases he; exact hQ.other _ hv id rfl (by simp)
    | thread a => intro e he; cases he; exact hQ.other _ hv id rfl (by simp)
    | lightuserdata a => intro e he; cases he; exact hQ.other _ hv id rfl (by simp)
    | cdata a => intro e he; cases he; exact hQ.other _ hv id rfl (by simp)

/-- The supported values are not left, and only the fuel can run out on
them. -/
theorem visited_supported : Visited h (· = .outOfFuel) h.captured.SupportedFrom where
  fuel := rfl
  nil hv := hv.1.elim
  other v hv hs hr hn := by
    cases v with
    | table a => cases hr
    | function a => cases hr
    | nil => exact (hn rfl).elim
    | boolean b => exact (hs trivial).elim
    | number n => exact (hs trivial).elim
    | string s => exact (hs trivial).elim
    | userdata a => exact hv.1.elim
    | thread a => exact hv.1.elim
    | lightuserdata a => exact hv.1.elim
    | cdata a => exact hv.1.elim
  table a t hv ht e he := by
    have hmem : (e.1, h.unwrapCollectorMaybe e.2) ∈
        t.entries.map fun e => (e.1, h.unwrapCollectorMaybe e.2) := List.mem_map_of_mem he
    exact ⟨SupportedFrom.key hv (captured_table ht) hmem,
      SupportedFrom.entry hv (captured_table ht) hmem⟩
  noTable a hv hn := by
    obtain ⟨es, hes⟩ := hv.1
    obtain ⟨t, ht, -⟩ := lookup_of_captured_table hes
    rw [Heap.table?_eq_some.mpr ht] at hn; cases hn
  upvalue a c hv hc x hx v hcell :=
    SupportedFrom.upvalue hv (captured_closure.mpr hc) hx
      (captured_cell (Heap.cell?_eq_some.mp hcell))
  noCell a c hv hc x hx hn := by
    obtain ⟨v, hcell, -⟩ := cells_of_supported
      (hv.2 a _ (Graph.reachFrom_function .refl) (captured_closure.mpr hc)) hx
    rw [hcell] at hn; cases hn
  noClosure a hv hn := by
    obtain ⟨c, hc⟩ := hv.1
    rw [Heap.closure?_eq_some.mpr (captured_closure.mp hc)] at hn; cases hn

/-- The fuel is all that can stop the serialiser on supported values. -/
theorem serializeObject_supported (n : ℕ) {v : Value} (hv : h.captured.SupportedFrom v) :
    EndsIn (· = .outOfFuel) (serializeObject h n v) :=
  serializeObject_visited visited_supported n hv

/-! ## Termination -/

/-- An amount of fuel that serves each member of a list serves them
all. -/
theorem eventually_forall_mem {ι : Type} {Q : ℕ → ι → Prop} {l : List ι}
    (hl : ∀ i ∈ l, ∃ N, ∀ n ≥ N, Q n i) : ∃ N, ∀ n ≥ N, ∀ i ∈ l, Q n i := by
  induction l with
  | nil => exact ⟨0, by simp⟩
  | cons i l ih =>
    obtain ⟨N₁, h₁⟩ := hl i (by simp)
    obtain ⟨N₂, h₂⟩ := ih fun j hj => hl j (List.mem_cons_of_mem _ hj)
    refine ⟨max N₁ N₂, fun n hn j hj => ?_⟩
    rcases List.mem_cons.mp hj with rfl | hj
    · exact h₁ n (by omega)
    · exact h₂ n (by omega) j hj

/-- `serialize_object` returns on `v` with any fuel from some amount
on. -/
abbrev Dumps (h : Heap) (v : Value) : Prop :=
  ∃ N, ∀ n ≥ N, EndsIn (fun _ => False) (serializeObject h n v)

theorem dumps_scalar {v : Value} (hv : h.captured.Supports v) (hr : v.ref? = none) :
    Dumps h v := by
  refine ⟨1, fun n hn => ?_⟩
  obtain ⟨m, rfl⟩ := Nat.exists_eq_add_of_le' hn
  cases v with
  | boolean b => exact EndsIn.ok _
  | number x => exact EndsIn.ok _
  | string s => exact EndsIn.ok _
  | table a => cases hr
  | function a => cases hr
  | nil => exact hv.elim
  | userdata a => exact hv.elim
  | thread a => exact hv.elim
  | lightuserdata a => exact hv.elim
  | cdata a => exact hv.elim

theorem dumps_table {a : Addr} {t : Table} (ht : h.lookup a = some (.table t))
    (hes : ∀ e ∈ t.entries, Dumps h e.1 ∧ Dumps h (h.unwrapCollectorMaybe e.2).value) :
    Dumps h (.table a) := by
  obtain ⟨N₁, h₁⟩ := eventually_forall_mem fun e he => (hes e he).1
  obtain ⟨N₂, h₂⟩ := eventually_forall_mem fun e he => (hes e he).2
  -- one more call than the deepest of the entries takes
  refine ⟨max N₁ N₂ + 1, fun n hn => ?_⟩
  obtain ⟨m, rfl⟩ : ∃ m, n = m + 1 := ⟨n - 1, by omega⟩
  exact serializeTable_endsIn ht fun e he => ⟨h₁ m (by omega) e he, h₂ m (by omega) e he⟩

/-- `serialize_function` returns where each captured value dumps. -/
theorem returns_serializeFunction {a : Addr} {c : Closure} (hc : h.lookup a = some (.closure c))
    (hxs : ∀ x ∈ c.uvs, ∃ v, h.cell? x = some v ∧ Dumps h (h.unwrapCollectorMaybe v).value) :
    ∃ N, ∀ n ≥ N, EndsIn (fun _ => False) (serializeFunction h n a) := by
  have hall : ∀ x ∈ c.uvs, ∃ N, ∀ n ≥ N, ∀ v, h.cell? x = some v →
      EndsIn (fun _ => False) (serializeObject h n (h.unwrapCollectorMaybe v).value) := by
    intro x hx
    obtain ⟨v, hv, N, hN⟩ := hxs x hx
    refine ⟨N, fun n hn u hu => ?_⟩
    obtain rfl := Option.some.inj (hv.symm.trans hu)
    exact hN n hn
  obtain ⟨N, hN⟩ := eventually_forall_mem hall
  refine ⟨N, fun n hn => serializeFunctionWith_endsIn hc (hN n hn) fun x hx hnone => ?_⟩
  obtain ⟨v, hv, -⟩ := hxs x hx
  rw [hv] at hnone; cases hnone

theorem dumps_function {a : Addr} (ha : ∃ N, ∀ n ≥ N,
    EndsIn (fun _ => False) (serializeFunction h n a)) : Dumps h (.function a) := by
  obtain ⟨N, hN⟩ := ha
  refine ⟨N + 1, fun n hn => ?_⟩
  obtain ⟨m, rfl⟩ : ∃ m, n = m + 1 := ⟨n - 1, by omega⟩
  exact (hN m (by omega)).bind fun f => EndsIn.ok _

/-- The cells of a supported closure, with what dumps of their
content. -/
theorem cells_dump {a : Addr} {c : Closure} (hc : h.captured a = some (.closure c))
    (hv : h.captured.SupportedFrom (.function a))
    (hdump : ∀ x s, x ∈ c.uvs → h.captured x = some (.cell s) →
      h.captured.SupportedFrom s.value → Dumps h s.value) :
    ∀ x ∈ c.uvs, ∃ v, h.cell? x = some v ∧ Dumps h (h.unwrapCollectorMaybe v).value := by
  intro x hx
  obtain ⟨v, hcell, hx'⟩ := cells_of_supported (hv.2 a _ (Graph.reachFrom_function .refl) hc) hx
  exact ⟨v, hcell, hdump x _ hx hx' (SupportedFrom.upvalue hv hc hx hx')⟩

/-- **Supported and well-founded is enough.** The induction is along the
references, from a closure through its cells to their content. -/
theorem dumps_of_founded {v : Value} (hv : h.captured.SupportedFrom v)
    (hf : ∀ a, v.ref? = some a → h.captured.Founded a) : Dumps h v := by
  -- along the edges of the graph; a cell is reached through a closure only
  suffices H : ∀ a, h.captured.Founded a →
      (∀ v, v.ref? = some a → h.captured.SupportedFrom v → Dumps h v) ∧
      ∀ s, h.captured a = some (.cell s) → h.captured.SupportedFrom s.value → Dumps h s.value by
    cases hr : v.ref? with
    | none => exact dumps_scalar hv.1 hr
    | some a => exact (H a (hf a hr)).1 v hr hv
  intro a ha
  induction ha with
  | intro a _ ih =>
    -- what a node points to dumps, by the induction hypothesis
    have child : ∀ u, h.captured.SupportedFrom u → (∀ b, u.ref? = some b → h.captured.Edge a b) →
        Dumps h u := by
      intro u hu hedge
      cases hr : u.ref? with
      | none => exact dumps_scalar hu.1 hr
      | some b => exact (ih b (hedge b hr)).1 u hr hu
    refine ⟨fun v hr hv => ?_, fun s hs hv => child _ hv fun b hb => ⟨_, hs, by
      simp [Node.children, hb]⟩⟩
    cases v with
    | table a' =>
      obtain rfl : a' = a := by simpa [Value.ref?] using hr
      obtain ⟨es, hes⟩ := hv.1
      obtain ⟨t, ht, rfl⟩ := lookup_of_captured_table hes
      refine dumps_table ht fun e he => ?_
      have hmem : (e.1, h.unwrapCollectorMaybe e.2) ∈
          t.entries.map fun e => (e.1, h.unwrapCollectorMaybe e.2) := List.mem_map_of_mem he
      refine ⟨child _ (SupportedFrom.key hv hes hmem) fun b hb => ⟨_, hes, ?_⟩,
        child _ (SupportedFrom.entry hv hes hmem) fun b hb => ⟨_, hes, ?_⟩⟩
      · exact List.mem_flatMap.mpr ⟨_, hmem, by simp [hb]⟩
      · exact List.mem_flatMap.mpr ⟨_, hmem, by simp [hb]⟩
    | function a' =>
      obtain rfl : a' = a := by simpa [Value.ref?] using hr
      obtain ⟨c, hc⟩ := hv.1
      refine dumps_function (returns_serializeFunction (captured_closure.mp hc)
        (cells_dump hc hv fun x s hx hs hsup => ?_))
      exact (ih x (Graph.edge_upvalue hc hx)).2 s hs hsup
    | _ => cases hr

/-- A heap is finite, so where no cycle is reached every path ends. -/
theorem founded_of_acyclicFrom {v : Value} (hv : h.captured.AcyclicFrom v) {a : Addr}
    (ha : v.ref? = some a) : h.captured.Founded a := by
  refine acc_of_acyclic ?_ fun b hb => hv b ⟨a, ha, hb⟩
  -- only what is in the heap has successors
  refine (List.finite_toSet (h.map Prod.fst)).subset ?_
  rintro b ⟨-, c, n, hn, -⟩
  exact mem_keys_of_captured hn

/-- No cycle is reached from what a finite tree expands. -/
theorem acyclicFrom_of_expands {G : Graph} {v : Value} {t : SValue} (ht : t.Expands G v) :
    G.AcyclicFrom v := by
  rintro b ⟨a, ha, hab⟩
  exact not_transGen_of_acc (acc_of_reach (ht.founded ha) hab)

theorem Dumps.returns {v : Value} (hd : Dumps h v) : Returns fun n => serializeValue h n v := by
  obtain ⟨N, hN⟩ := hd
  exact ⟨N, fun n hn => (hN n hn).exists_ok⟩

/-- `serialize_function` and `serialize_object` agree on when they
return. -/
theorem returns_of_acyclicFrom {f : Addr} (hv : h.captured.SupportedFrom (.function f))
    (hac : h.captured.AcyclicFrom (.function f)) : Returns fun n => serializeFunction h n f := by
  obtain ⟨c, hc⟩ := hv.1
  have hcells := cells_dump hc hv fun x s hx hs hsup =>
    dumps_of_founded hsup fun b hb => founded_of_acyclicFrom hac rfl |>.inv
      (Graph.edge_upvalue hc hx) |>.inv ⟨_, hs, by simp [Node.children, hb]⟩
  obtain ⟨N, hN⟩ := returns_serializeFunction (captured_closure.mp hc) hcells
  exact ⟨N, fun n hn => (hN n hn).exists_ok⟩

/-- **Serialisation terminates exactly where no cycle is reached.** The
stacks of Lua and of C are not bounded here: where the model recurses
for ever the program crashes, or Lua raises "stack overflow". -/
theorem serialize_returns_iff (h : Heap) (v : Value) (hv : h.captured.SupportedFrom v) :
    ((Returns fun n => serializeValue h n v) ↔ h.captured.AcyclicFrom v) ∧
      ∀ f, v = .function f →
        ((Returns fun n => serializeFunction h n f) ↔ h.captured.AcyclicFrom v) := by
  refine ⟨⟨fun hr => ?_, fun hac => ?_⟩, ?_⟩
  · obtain ⟨N, hN⟩ := hr
    obtain ⟨t, ht⟩ := hN N le_rfl
    exact acyclicFrom_of_expands (serializeObject_expands ht)
  · exact (dumps_of_founded hv fun a ha => founded_of_acyclicFrom hac ha).returns
  · rintro f rfl
    refine ⟨fun hr => ?_, returns_of_acyclicFrom hv⟩
    obtain ⟨N, hN⟩ := hr
    obtain ⟨t, ht⟩ := hN N le_rfl
    exact acyclicFrom_of_expands (serializeFunction_expands ht).2

/-- `local n = 7; function() return n end`: what the theorem says of
it. -/
def counter : Heap := [(1, .closure (.of [] [2])), (2, .cell (.ofNat 7))]

theorem serialize_returns_iff_counter :
    (Returns fun n => serializeFunction counter n 1) ↔
      counter.captured.AcyclicFrom (.function 1) :=
  (serialize_returns_iff counter (.function 1)
    ⟨by decide, Graph.allFrom_of_keys (by decide)⟩).2 1 rfl

/-- `local function f() return f() end`: the closure's upvalue holds the
closure. -/
def recursive : Heap := [(1, .closure (.of [] [2])), (2, .cell (.function 1))]

theorem serializeObject_recursive (n : ℕ) :
    serializeObject recursive n (.function 1) = .error .outOfFuel := by
  induction n with
  | zero => rfl
  | succ n ih =>
    show (serializeFunctionWith recursive (serializeObject recursive n) 1 >>= _) = _
    have : serializeFunctionWith recursive (serializeObject recursive n) 1 = .error .outOfFuel := by
      show ((serializeObject recursive n (.function 1) >>= _) >>= _) = _
      rw [ih]
      rfl
    rw [this]
    rfl

/-- **A recursive local function is never serialised.** -/
theorem recursive_never_returns :
    recursive.captured.SupportedFrom (.function 1) ∧
      (∀ n, serializeFunction recursive n 1 = .error .outOfFuel) ∧
      ¬ Returns fun n => serializeFunction recursive n 1 := by
  have hall : ∀ n, serializeFunction recursive n 1 = .error .outOfFuel := by
    intro n
    show ((serializeObject recursive n (.function 1) >>= _) >>= _) = _
    rw [serializeObject_recursive]
    rfl
  refine ⟨⟨by decide, Graph.allFrom_of_keys (by decide)⟩, hall, ?_⟩
  rintro ⟨N, hN⟩
  obtain ⟨f, hf⟩ := hN N le_rfl
  cases (hall N).symm.trans hf

end Serialize

end Rushit
