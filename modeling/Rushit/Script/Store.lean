import Rushit.Script.Nil
import Rushit.Serialize.RoundTrip
/-!
# The store and the maps, at every moment of a load

Loading extends three maps and a store of objects at different moments:
an object is stored and mapped before it has content, an upvalue is
mapped after it has its value, a collector last. The states that a load
passes through, one for each of these updates, are listed beside the
load itself (`passedObject` and the two loops); in every one of them the
maps name only what the store holds (`InStore`), also in those before an
assertion that fails.

The trees are what the serialiser returned, from any heaps at all.
-/

namespace Rushit

namespace Serialize

open Lua

/-! ## The states that a load passes through -/

/-- The states after a call, where it returns. -/
def thenPassed {α : Type} (r : Except Fault α) (f : α → List Target) : List Target :=
  match r with
  | .ok a => f a
  | .error _ => []

section Passed

variable (al : Allocator)

/-- `push_function` before its loop: the function is loaded, then cached,
then mapped. -/
def passedNewFunction (id : Addr) (code : Proto) (σ : Target) : List Target :=
  let f := loadbuffer al code σ.heap
  [σ.withHeap f.2, (σ.withHeap f.2).cacheObject (.function f.1) f.1, (newFunction al id code σ).2]

/-- `push_table` before its loop. -/
def passedNewTable (id : Addr) (σ : Target) : List Target :=
  let t := newtable al σ.heap
  [σ.withHeap t.2, (σ.withHeap t.2).cacheObject (.table t.1) t.1, (newTable al id σ).2]

mutual

/-- The states `push_object` passes through, from the one it is called
in. -/
def passedObject : SValue → Target → List Target
  | .boolean _, σ => [σ]
  | .number _, σ => [σ]
  | .string _, σ => [σ]
  | .function id code upvalues, σ =>
    match σ.lookupAndFetchObject id with
    | some _ => [σ]
    | none =>
      let f := newFunction al id code σ
      σ :: passedNewFunction al id code σ ++ passedUpvalues f.1 upvalues f.2
  | .table id entries, σ =>
    match σ.lookupAndFetchObject id with
    | some _ => [σ]
    | none =>
      let t := newTable al id σ
      σ :: passedNewTable al id σ ++ passedEntries t.1 entries t.2

/-- Those of the loop of `push_function`: an upvalue that is set has its
value first, is mapped then, and its collector after that. -/
def passedUpvalues (funcId : Addr) : SUpvalues → Target → List Target
  | .nil, σ => [σ]
  | .cons id number value collectorId next, σ =>
    (match σ.lookupUpvalue id with
      | some _ => [σ]
      | none => passedObject value σ ++ thenPassed (pushObject al value σ) fun (v, σ) =>
          thenPassed (orFault .assertion (σ.heap.setupvalue funcId number v)) fun heap =>
            [σ.withHeap heap, (σ.withHeap heap).mapUpvalue id funcId number]) ++
      thenPassed
        (setSharedUpvalue funcId id number collectorId (fun σ => pushObject al value σ) σ)
        (fun σ => passedUpvalues funcId next σ)

/-- Those of the loop of `push_table`: the key, the value, the entry, and
its collector. -/
def passedEntries (tid : Addr) : SEntries → Target → List Target
  | .nil, σ => [σ]
  | .cons key value collectorId next, σ =>
    passedObject key σ ++ thenPassed (pushObject al key σ) fun (k, σ) =>
      passedObject value σ ++ thenPassed (pushObject al value σ) fun (v, σ) =>
        thenPassed (orFault .api (σ.heap.rawset tid k v)) fun heap =>
          σ.withHeap heap :: thenPassed (mapCollectorMaybe (σ.withHeap heap) collectorId tid key)
            (fun σ => passedEntries tid next σ)

end

/-- A call that uses the cache. -/
inductive Call
  /-- `deserialize_function`. -/
  | function (f : SFunction)
  /-- `deserialize_value`. -/
  | value (t : SValue)

/-- The serialiser returned the tree, from some heap. -/
def Call.Serialized : Call → Prop
  | .function f => ∃ h n a, serializeFunction h n a = .ok f
  | .value t => ∃ h n v, serializeValue h n v = .ok t

/-- The state a call leaves. -/
def Call.run : Call → Target → Except Fault Target
  | .function f, σ => do
    let (_, σ) ← deserializeFunction al f σ
    pure σ
  | .value t, σ => do
    let (_, σ) ← deserializeValue al t σ
    pure σ

/-- The states a call passes through. -/
def Call.passed : Call → Target → List Target
  | .function f, σ =>
    let g := newFunction al f.id f.code σ
    σ :: passedNewFunction al f.id f.code σ ++ passedUpvalues al g.1 f.upvalues g.2
  | .value t, σ => passedObject al t σ

/-- Calls one after the other. -/
def runCalls (calls : List Call) (σ : Target) : Except Fault Target :=
  calls.foldlM (fun σ c => c.run al σ) σ

/-- The states the calls pass through. -/
def passedCalls : List Call → Target → List Target
  | [], σ => [σ]
  | c :: calls, σ => c.passed al σ ++ thenPassed (c.run al σ) (passedCalls calls)

end Passed

variable {cap : Site → Addr → Prop} {al : Allocator} {σ σ' : Target}

theorem mem_thenPassed {α : Type} {r : Except Fault α} {f : α → List Target} {τ : Target} :
    τ ∈ thenPassed r f ↔ ∃ a, r = .ok a ∧ τ ∈ f a := by
  cases r with
  | ok a => simp [thenPassed]
  | error e => simp [thenPassed]

/-! ## They end where the load ends -/

mutual

/-- **The state a load leaves is the last it passes through.** -/
theorem passedObject_last (t : SValue) {σ σ' : Target} {v : Value}
    (h : pushObject al t σ = .ok (v, σ')) : σ' ∈ passedObject al t σ := by
  cases t with
  | boolean b => cases h; exact List.mem_singleton.mpr rfl
  | number n => cases h; exact List.mem_singleton.mpr rfl
  | string s => cases h; exact List.mem_singleton.mpr rfl
  | function id code us =>
    rw [pushObject] at h
    rw [passedObject]
    cases hl : σ.lookupAndFetchObject id with
    | some u => rw [hl] at h; cases h; exact List.mem_singleton.mpr rfl
    | none =>
      rw [hl] at h
      obtain ⟨σ₂, hloop, hret⟩ := bind_eq_ok.mp h
      cases hret
      exact List.mem_append_right _ (passedUpvalues_last us hloop)
  | table id es =>
    rw [pushObject] at h
    rw [passedObject]
    cases hl : σ.lookupAndFetchObject id with
    | some u => rw [hl] at h; cases h; exact List.mem_singleton.mpr rfl
    | none =>
      rw [hl] at h
      obtain ⟨σ₂, hloop, hret⟩ := bind_eq_ok.mp h
      cases hret
      exact List.mem_append_right _ (passedEntries_last es hloop)

theorem passedUpvalues_last (us : SUpvalues) {fid : Addr} {σ σ' : Target}
    (h : setSharedUpvalues al fid us σ = .ok σ') : σ' ∈ passedUpvalues al fid us σ := by
  cases us with
  | nil => cases h; exact List.mem_singleton.mpr rfl
  | cons id number value collectorId next =>
    obtain ⟨σ₁, hstep, hloop⟩ := bind_eq_ok.mp h
    rw [passedUpvalues]
    exact List.mem_append_right _ (mem_thenPassed.mpr ⟨σ₁, hstep, passedUpvalues_last next hloop⟩)

theorem passedEntries_last (es : SEntries) {tid : Addr} {σ σ' : Target}
    (h : pushEntries al tid es σ = .ok σ') : σ' ∈ passedEntries al tid es σ := by
  cases es with
  | nil => cases h; exact List.mem_singleton.mpr rfl
  | cons key value collectorId next =>
    obtain ⟨⟨k, σ₁⟩, hkey, h⟩ := bind_eq_ok.mp h
    obtain ⟨⟨v, σ₂⟩, hvalue, h⟩ := bind_eq_ok.mp h
    obtain ⟨heap, hset, h⟩ := bind_eq_ok.mp h
    obtain ⟨σ₃, hmap, hloop⟩ := bind_eq_ok.mp h
    have hlast := passedEntries_last next hloop
    rw [passedEntries]
    refine List.mem_append_right _ (mem_thenPassed.mpr ⟨_, hkey, ?_⟩)
    refine List.mem_append_right _ (mem_thenPassed.mpr ⟨_, hvalue, ?_⟩)
    refine mem_thenPassed.mpr ⟨_, hset, ?_⟩
    exact List.mem_cons_of_mem _ (mem_thenPassed.mpr ⟨_, hmap, hlast⟩)

end

theorem Call.passed_last {c : Call} (h : c.run al σ = .ok σ') : σ' ∈ c.passed al σ := by
  cases c with
  | function f =>
    obtain ⟨⟨key, σ₁⟩, hload, hret⟩ := bind_eq_ok.mp h
    cases hret
    obtain ⟨σ₂, hloop, hret⟩ := bind_eq_ok.mp hload
    cases hret
    exact List.mem_append_right _ (passedUpvalues_last f.upvalues hloop)
  | value t =>
    obtain ⟨⟨v, σ₁⟩, hload, hret⟩ := bind_eq_ok.mp h
    cases hret
    exact passedObject_last t hload

/-! ## The maps are valid in all of them -/

/-- New objects in the heap and in the store, none of them mapped. -/
theorem Valid.kept (hv : Valid cap σ) {h : Heap} {tbl : List (Addr × Value)}
    (hkeep : ∀ x, σ.heap.Live x → h.lookup x = σ.heap.lookup x)
    (htbl : ∀ x, σ.heap.Live x → tbl.lookup x = σ.objectTbl.lookup x) :
    Valid cap { σ with heap := h, objectTbl := tbl } := by
  refine hv.of_heap _ (fun x t ht => ⟨t, (hkeep x (Heap.live_of_lookup ht)).trans ht⟩)
    (fun x c hc => ⟨c, (hkeep x (Heap.live_of_lookup hc)).trans hc⟩) (fun f i hfi => ?_) htbl
    rfl rfl rfl
  have hlive := hfi.live
  obtain ⟨htb, x, w, hx, hw⟩ := hfi
  exact ⟨(htbl f hlive).trans htb, x, w, (Heap.upvalueid_congr (hkeep f hlive)).trans hx,
    (hkeep x (Heap.live_of_lookup hw)).trans hw⟩

/-- A new object in the store. -/
theorem lookup_new {a : Addr} {u : Value} (ha : ¬ σ.heap.Live a) :
    ∀ x, σ.heap.Live x → ((a, u) :: σ.objectTbl).lookup x = σ.objectTbl.lookup x := by
  intro x hx
  refine lookup_cons_ne ?_
  rintro rfl
  exact ha hx

theorem passedNewFunction_valid (al : Allocator) (hv : Valid cap σ) (id : Addr) (code : Proto) :
    (∀ τ ∈ passedNewFunction al id code σ, Valid cap τ) ∧ ∃ c,
      Valid cap (newFunction al id code σ).2 ∧
      Building (newFunction al id code σ).2 (newFunction al id code σ).1 c code.sizeuv := by
  obtain ⟨-, -, -, -, hnl, -, -, hkeep⟩ := loadbuffer_spec al code σ.heap
  obtain ⟨hcr, c, hc, hproto, -, -, hcells⟩ := newFunction_spec al id code σ
  have hv₁ : Valid cap (newFunction al id code σ).2 := hcr.valid hv (.inr ⟨c, hc, hcr.fetch⟩)
  have hb := Building.of_created hv hcr hc fun x hx => ⟨.nil, (hcells x hx).2⟩
  have hlen : c.uvs.length = code.sizeuv := by rw [c.size_eq, hproto]
  refine ⟨fun τ hτ => ?_, c, hv₁, hlen ▸ hb⟩
  rcases List.mem_cons.mp hτ with rfl | hτ
  · exact hv.kept hkeep fun _ _ => rfl
  · rcases List.mem_cons.mp hτ with rfl | hτ
    · exact hv.kept hkeep (lookup_new hnl)
    · rw [List.mem_singleton.mp hτ]
      exact hv₁

theorem passedNewTable_valid (al : Allocator) (hv : Valid cap σ) (id : Addr) :
    (∀ τ ∈ passedNewTable al id σ, Valid cap τ) ∧ Valid cap (newTable al id σ).2 ∧
      (newTable al id σ).2.heap.lookup (newTable al id σ).1 = some (.table Table.empty) ∧
      (id, (newTable al id σ).1) ∈ (newTable al id σ).2.objectMap := by
  obtain ⟨hcr, ht⟩ := newTable_spec al id σ
  have hv₁ : Valid cap (newTable al id σ).2 := hcr.valid hv (.inl ⟨_, ht, hcr.fetch⟩)
  have hkeep : ∀ x, σ.heap.Live x →
      (newtable al σ.heap).2.lookup x = σ.heap.lookup x := fun x hx =>
    lookup_cons_ne (Allocator.ne_next hx)
  refine ⟨fun τ hτ => ?_, hv₁, ht, by rw [hcr.objectMap]; exact List.mem_cons_self⟩
  rcases List.mem_cons.mp hτ with rfl | hτ
  · exact hv.kept hkeep fun _ _ => rfl
  · rcases List.mem_cons.mp hτ with rfl | hτ
    · exact hv.kept hkeep (lookup_new (al.not_live σ.heap))
    · rw [List.mem_singleton.mp hτ]
      exact hv₁

/-- A load that returned was that of the tree without the wrappers that
cannot be recorded. -/
theorem pushObject_grown_of_ok {t : SValue} (ht : t.recordable.Sound cap) (hv : Valid cap σ)
    {v : Value} (h : pushObject al t σ = .ok (v, σ')) :
    Grown cap noOne (t.recordable.Mentions ·) σ σ' ∧ σ'.Pushed t.recordable v := by
  obtain ⟨v', σ'', hok, hg, hp⟩ := pushObject_grown al t.recordable ht σ hv
  rw [pushObject_recordable h] at hok
  cases hok
  exact ⟨hg, hp⟩

section Upvalue

variable {fid id : Addr} {c : Closure} {m : ℕ} {collectorId : Option Addr} {value : SValue}

/-- **One upvalue.** Where its value was loaded it is joined or set, and
the function is built down to the next one. -/
theorem setSharedUpvalue_valid (hv : Valid cap σ) (hb : Building σ fid c (m + 1))
    (hvalue : value.recordable.Sound cap) (hcap : Captures cap (.upvalue id) collectorId)
    (hends : EndsIn (· = .assertion) (pushObject al value σ)) :
    EndsIn (· = .assertion) (setSharedUpvalue fid id (m + 1) collectorId
        (fun σ => pushObject al value σ) σ) ∧
      ∀ σ₁, setSharedUpvalue fid id (m + 1) collectorId (fun σ => pushObject al value σ) σ =
        .ok σ₁ → Valid cap σ₁ ∧ ∃ c', Building σ₁ fid c' m := by
  rcases hm : σ.lookupUpvalue id with _ | ⟨g, i⟩
  · cases hpush : pushObject al value σ with
    | error e =>
      have heq : setSharedUpvalue fid id (m + 1) collectorId (fun σ => pushObject al value σ) σ =
          .error e := by
        unfold setSharedUpvalue
        rw [hm]
        simp only [bind, Except.bind]
        rw [hpush]
      rw [heq]
      refine ⟨fun e' he => ?_, fun σ₁ h => by cases h⟩
      cases he
      exact hends e hpush
    | ok r =>
      obtain ⟨v, σ₀⟩ := r
      obtain ⟨hg, -⟩ := pushObject_grown_of_ok hvalue hv hpush
      have hb₁ := hb.of_ext hg.ext
      obtain ⟨x, hx, hslot⟩ := hb₁.upvalueid
      rw [setSharedUpvalue_new hm hpush hslot]
      refine ⟨EndsIn.ok _, fun σ₁ h => ?_⟩
      cases h
      exact ⟨setSlot_valid hg.valid hb₁ hx hcap, c, hb₁.setSlot hx⟩
  · obtain ⟨x, w, -, hw, heq⟩ := setSharedUpvalue_seen hv hb hm
    rw [heq]
    refine ⟨EndsIn.ok _, fun σ₁ h => ?_⟩
    cases h
    exact ⟨(joined_grown hv hb hw fun _ => True).valid, _, hb.joined⟩

/-- The states between its value and its collector. -/
theorem passedSet_valid (hv : Valid cap σ) (hb : Building σ fid c (m + 1)) {v : Value} {τ : Target}
    (hτ : τ ∈ thenPassed (orFault .assertion (σ.heap.setupvalue fid (m + 1) v)) fun heap =>
      [σ.withHeap heap, (σ.withHeap heap).mapUpvalue id fid (m + 1)]) : Valid cap τ := by
  obtain ⟨heap, hset, hτ⟩ := mem_thenPassed.mp hτ
  obtain ⟨x, hx, hslot⟩ := hb.upvalueid
  obtain ⟨w, hw⟩ := hb.cells x (List.mem_of_getElem? (i := m) (by simp [hx]))
  rw [orFault_eq_ok, Heap.setupvalue_eq hslot] at hset
  obtain rfl := Option.some.inj hset
  rcases List.mem_cons.mp hτ with rfl | hτ
  · exact setCell_valid hv hw
  · rw [List.mem_singleton.mp hτ]
    -- as after setting it without a collector
    have hnone : Captures cap (.upvalue id) none := fun w hw => nomatch hw
    exact setSlot_valid hv hb hx hnone

end Upvalue

section Entry

variable {tid id : Addr} {t : Table} {key value : SValue} {k v : Value} {collectorId : Option Addr}
variable {σ₁ : Target}

/-- The table is still there once the key is. -/
theorem pushKey_valid (hv : Valid cap σ) (ht : σ.heap.lookup tid = some (.table t))
    (hid : (id, tid) ∈ σ.objectMap) (hkey : key.recordable.Sound cap)
    (hkk : key.recordable.keyable = true) (hpush : pushObject al key σ = .ok (k, σ₁)) :
    Valid cap σ₁ ∧ σ₁.heap.lookup tid = some (.table t) ∧ (id, tid) ∈ σ₁.objectMap ∧
      k.keyable = true := by
  obtain ⟨hg, hk⟩ := pushObject_grown_of_ok hkey hv hpush
  exact ⟨hg.valid, hg.ext.lookup ht, hg.ext.mem_objectMap hid, hk.keyable hkk⟩

/-- **One entry**: once the value is there it can be stored. -/
theorem pushValue_valid (hv : Valid cap σ) (ht : σ.heap.lookup tid = some (.table t))
    (hid : (id, tid) ∈ σ.objectMap) (hk : k.keyable = true) (hvalue : value.recordable.Sound cap)
    (hsc : (if key.copies then collectorId else none) ≠ none → key.recordable.Scalar)
    (hcap : Captures cap (.entry id key.recordable) (if key.copies then collectorId else none))
    (hpush : pushObject al value σ = .ok (v, σ₁)) : ∃ t',
      σ₁.heap.rawset tid k v = some ((tid, .table t') :: σ₁.heap) ∧
        Valid cap (σ₁.setTable tid t') ∧ ∀ σ',
          mapCollectorMaybe (σ₁.setTable tid t') collectorId tid key = .ok σ' →
            Valid cap σ' ∧ σ'.heap.lookup tid = some (.table t') ∧ (id, tid) ∈ σ'.objectMap := by
  obtain ⟨hg, hval⟩ := pushObject_grown_of_ok hvalue hv hpush
  have ht₁ := hg.ext.lookup ht
  have hid₁ := hg.ext.mem_objectMap hid
  have hset := Table.rawset_of_keyable (t := t) hk hval.ne_nil
  refine ⟨_, Heap.rawset_eq ht₁ hset, (setTable_grown _ hg.valid ht₁ fun _ => True).valid,
    fun σ' hmap => ?_⟩
  have hmap' := mapCollectorMaybe_recordable hmap
  rw [mapCollectorMaybe_eq hsc] at hmap'
  cases hmap'
  exact ⟨(setEntry_grown _ hg.valid ht₁ hid₁ hsc hcap fun _ => True).valid,
    by simp [Target.setTable, Target.withHeap], hid₁⟩

end Entry

mutual

/-- **Every state that push_object passes through is valid**, and where
it does not return it fails the assertion of `copy_value`. -/
theorem passedObject_valid (t : SValue) (ht : t.recordable.Sound cap) {σ : Target}
    (hv : Valid cap σ) :
    (∀ τ ∈ passedObject al t σ, Valid cap τ) ∧ EndsIn (· = .assertion) (pushObject al t σ) := by
  have hself : ∀ τ ∈ [σ], Valid cap τ := fun τ hτ => List.mem_singleton.mp hτ ▸ hv
  cases t with
  | boolean b => exact ⟨hself, EndsIn.ok _⟩
  | number n => exact ⟨hself, EndsIn.ok _⟩
  | string s => exact ⟨hself, EndsIn.ok _⟩
  | function id code us =>
    rw [passedObject, pushObject]
    cases hl : σ.lookupAndFetchObject id with
    | some u => exact ⟨hself, EndsIn.ok _⟩
    | none =>
      obtain ⟨hnew, c, hv₁, hb⟩ := passedNewFunction_valid al hv id code
      obtain ⟨hloop, hends⟩ := passedUpvalues_valid us ht hv₁ hb
      refine ⟨?_, hends.bind fun _ => EndsIn.ok _⟩
      exact List.forall_mem_append.mpr ⟨List.forall_mem_cons.mpr ⟨hv, hnew⟩, hloop⟩
  | table id es =>
    rw [passedObject, pushObject]
    cases hl : σ.lookupAndFetchObject id with
    | some u => exact ⟨hself, EndsIn.ok _⟩
    | none =>
      obtain ⟨hnew, hv₁, ht₁, hid⟩ := passedNewTable_valid al hv id
      obtain ⟨hloop, hends⟩ := passedEntries_valid es ht hv₁ ht₁ hid
      refine ⟨?_, hends.bind fun _ => EndsIn.ok _⟩
      exact List.forall_mem_append.mpr ⟨List.forall_mem_cons.mpr ⟨hv, hnew⟩, hloop⟩

theorem passedUpvalues_valid (us : SUpvalues) {fid : Addr} {c : Closure} {n : ℕ}
    (hus : us.recordable.Sound cap n) {σ : Target} (hv : Valid cap σ) (hb : Building σ fid c n) :
    (∀ τ ∈ passedUpvalues al fid us σ, Valid cap τ) ∧
      EndsIn (· = .assertion) (setSharedUpvalues al fid us σ) := by
  cases us with
  | nil => exact ⟨fun τ hτ => List.mem_singleton.mp hτ ▸ hv, EndsIn.ok _⟩
  | cons id number value collectorId next =>
    obtain ⟨m, rfl, rfl, hvalue, -, hcap, hnext⟩ := hus
    obtain ⟨hpassed, hends⟩ := passedObject_valid value hvalue hv
    obtain ⟨hstep, hvalid⟩ := setSharedUpvalue_valid hv hb hvalue hcap hends
    rw [passedUpvalues, setSharedUpvalues]
    refine ⟨fun τ hτ => ?_, hstep.bind_of_ok fun σ₁ hσ₁ => ?_⟩
    · rcases List.mem_append.mp hτ with hτ | hτ
      · cases hm : σ.lookupUpvalue id with
        | some r =>
          rw [hm] at hτ
          exact List.mem_singleton.mp hτ ▸ hv
        | none =>
          rw [hm] at hτ
          rcases List.mem_append.mp hτ with hτ | hτ
          · exact hpassed τ hτ
          · obtain ⟨⟨v, σ₀⟩, hpush, hτ⟩ := mem_thenPassed.mp hτ
            obtain ⟨hg, -⟩ := pushObject_grown_of_ok hvalue hv hpush
            exact passedSet_valid hg.valid (hb.of_ext hg.ext) hτ
      · obtain ⟨σ₁, hσ₁, hτ⟩ := mem_thenPassed.mp hτ
        obtain ⟨hv₁, c', hb₁⟩ := hvalid σ₁ hσ₁
        exact (passedUpvalues_valid next hnext hv₁ hb₁).1 τ hτ
    · obtain ⟨hv₁, c', hb₁⟩ := hvalid σ₁ hσ₁
      exact (passedUpvalues_valid next hnext hv₁ hb₁).2

theorem passedEntries_valid (es : SEntries) {tid id : Addr} {t : Table}
    (hes : es.recordable.Sound cap id) {σ : Target} (hv : Valid cap σ)
    (ht : σ.heap.lookup tid = some (.table t)) (hid : (id, tid) ∈ σ.objectMap) :
    (∀ τ ∈ passedEntries al tid es σ, Valid cap τ) ∧
      EndsIn (· = .assertion) (pushEntries al tid es σ) := by
  cases es with
  | nil => exact ⟨fun τ hτ => List.mem_singleton.mp hτ ▸ hv, EndsIn.ok _⟩
  | cons key value collectorId next =>
    obtain ⟨hkey, hkk, hvalue, hsc, hcap, hnext⟩ := hes
    obtain ⟨hpassed₁, hends₁⟩ := passedObject_valid key hkey hv
    rw [passedEntries, pushEntries]
    have hafter₁ : ∀ k σ₁, pushObject al key σ = .ok (k, σ₁) → Valid cap σ₁ ∧
        σ₁.heap.lookup tid = some (.table t) ∧ (id, tid) ∈ σ₁.objectMap ∧ k.keyable = true :=
      fun k σ₁ hpush₁ => pushKey_valid hv ht hid hkey hkk hpush₁
    have hafter₂ : ∀ k σ₁ v σ₂, pushObject al key σ = .ok (k, σ₁) →
        pushObject al value σ₁ = .ok (v, σ₂) → ∃ t',
          σ₂.heap.rawset tid k v = some ((tid, .table t') :: σ₂.heap) ∧
            Valid cap (σ₂.setTable tid t') ∧ ∀ σ₃,
              mapCollectorMaybe (σ₂.setTable tid t') collectorId tid key = .ok σ₃ →
                Valid cap σ₃ ∧ σ₃.heap.lookup tid = some (.table t') ∧
                  (id, tid) ∈ σ₃.objectMap := by
      intro k σ₁ v σ₂ hpush₁ hpush₂
      obtain ⟨hv₁, ht₁, hid₁, hk⟩ := hafter₁ k σ₁ hpush₁
      exact pushValue_valid hv₁ ht₁ hid₁ hk hvalue hsc hcap hpush₂
    refine ⟨fun τ hτ => ?_, hends₁.bind_of_ok fun r₁ hpush₁ => ?_⟩
    · rcases List.mem_append.mp hτ with hτ | hτ
      · exact hpassed₁ τ hτ
      obtain ⟨⟨k, σ₁⟩, hpush₁, hτ⟩ := mem_thenPassed.mp hτ
      rcases List.mem_append.mp hτ with hτ | hτ
      · exact (passedObject_valid value hvalue (hafter₁ k σ₁ hpush₁).1).1 τ hτ
      obtain ⟨⟨v, σ₂⟩, hpush₂, hτ⟩ := mem_thenPassed.mp hτ
      obtain ⟨heap, hset, hτ⟩ := mem_thenPassed.mp hτ
      obtain ⟨t', hset', hv₂, hnext'⟩ := hafter₂ k σ₁ v σ₂ hpush₁ hpush₂
      rw [orFault_eq_ok] at hset
      obtain rfl := Option.some.inj (hset'.symm.trans hset)
      rcases List.mem_cons.mp hτ with rfl | hτ
      · exact hv₂
      · obtain ⟨σ₃, hmap, hτ⟩ := mem_thenPassed.mp hτ
        obtain ⟨hv₃, ht₃, hid₃⟩ := hnext' σ₃ hmap
        exact (passedEntries_valid next hnext hv₃ ht₃ hid₃).1 τ hτ
    · obtain ⟨k, σ₁⟩ := r₁
      have hends₂ := (passedObject_valid value hvalue (hafter₁ k σ₁ hpush₁).1).2
      refine hends₂.bind_of_ok fun r₂ hpush₂ => ?_
      obtain ⟨v, σ₂⟩ := r₂
      obtain ⟨t', hset', -, hnext'⟩ := hafter₂ k σ₁ v σ₂ hpush₁ hpush₂
      simp only
      rw [hset']
      refine (mapCollectorMaybe_endsIn _ _ _ _).bind_of_ok fun σ₃ hmap => ?_
      obtain ⟨hv₃, ht₃, hid₃⟩ := hnext' σ₃ hmap
      exact (passedEntries_valid next hnext hv₃ ht₃ hid₃).2

end

end Serialize

namespace Script

open Lua Serialize

variable {al : Allocator} {σ σ' : Target} {cap : Site → Addr → Prop}

/-! ## What the maps name -/

/-- **The maps name only what the store holds**: objects, upvalues that
stored functions have, and for a collector such an upvalue or a table. -/
structure InStore (σ : Target) : Prop where
  object : ∀ a a', (a, a') ∈ σ.objectMap → σ.IsObject a'
  upvalue : ∀ c f i, (c, f, i) ∈ σ.upvalueMap → σ.HasUpvalue f i
  collector : ∀ w o k, (w, o, k) ∈ σ.collectorMap →
    (∃ i, k = .number (.ofNat i) ∧ σ.HasUpvalue o i) ∨
      σ.objectTbl.lookup o = some (.table o) ∧ ∃ t, σ.heap.lookup o = some (.table t)

/-- **What is read through the maps is there**: no fetched object is nil,
the upvalue to join with exists, and `push_collected_value` returns. -/
structure ReadsStore (al : Allocator) (σ : Target) : Prop where
  object : ∀ id v, σ.lookupAndFetchObject id = some v → v ≠ .nil
  upvalue : ∀ id f i, σ.lookupUpvalue id = some (f, i) →
    σ.fetchObject f = .function f ∧ ∃ v, σ.heap.getupvalue f i = some v
  collector : ∀ w, ∃ v, pushCollectedValue al σ w = .ok v

theorem InStore.of_valid (hv : Valid cap σ) : InStore σ where
  object := hv.object
  upvalue := hv.upvalue
  collector w o k hm := by
    rcases hv.collector w o k hm with ⟨c, i, -, hc, rfl⟩ | ⟨a, -, -, ha, t, ht⟩
    · exact .inl ⟨i, rfl, hv.upvalue c o i hc⟩
    · refine .inr ⟨?_, t, ht⟩
      rcases hv.object a o ha with ⟨u, -, hub⟩ | ⟨c, hc, -⟩
      · exact hub
      · rw [ht] at hc; cases hc

theorem ReadsStore.of_valid (hv : Valid cap σ) : ReadsStore al σ where
  object id v hl := by
    obtain ⟨a, -, ⟨rfl, -⟩ | ⟨rfl, -⟩⟩ := lookupAndFetchObject_some hv hl
    · exact Value.noConfusion
    · exact Value.noConfusion
  upvalue id f i hl := by
    obtain ⟨htb, x, v, hx, hcell⟩ := hv.upvalue id f i (mem_of_lookup hl)
    refine ⟨by simp [Target.fetchObject, htb], v, ?_⟩
    rw [Heap.getupvalue, hx]
    exact Heap.cell?_eq_some.mpr hcell
  collector w := ⟨_, pushCollectedValue_eq hv w⟩

/-! ## Every sequence of calls -/

/-- A call with a tree that was serialised passes through valid states
only. -/
theorem passed_valid (al : Allocator) {c : Call} (hc : c.Serialized)
    (hv : Valid (fun _ _ => True) σ) :
    (∀ τ ∈ c.passed al σ, Valid (fun _ _ => True) τ) ∧
      EndsIn (· = .assertion) (c.run al σ) := by
  cases c with
  | function f =>
    obtain ⟨h, n, a, hok⟩ := hc
    obtain ⟨-, hexp⟩ := serializeFunction_expands hok
    have hsound : f.toSValue.recordable.Sound fun _ _ => True :=
      hexp.sound_recordable captured_keyable fun _ _ _ => trivial
    obtain ⟨hnew, c, hv₁, hb⟩ := passedNewFunction_valid al hv f.id f.code
    obtain ⟨hloop, hends⟩ := passedUpvalues_valid f.upvalues hsound hv₁ hb
    refine ⟨?_, (hends.bind fun _ => EndsIn.ok _).bind fun _ => EndsIn.ok _⟩
    exact List.forall_mem_append.mpr ⟨List.forall_mem_cons.mpr ⟨hv, hnew⟩, hloop⟩
  | value t =>
    obtain ⟨h, n, v, hok⟩ := hc
    have hsound := (serializeObject_expands hok).sound_recordable captured_keyable
      (fun _ _ _ => trivial : ∀ s w, t.Wraps s w → True)
    obtain ⟨hpassed, hends⟩ := passedObject_valid t hsound hv
    exact ⟨hpassed, hends.bind fun _ => EndsIn.ok _⟩

/-- So does a sequence of calls. -/
theorem passedCalls_valid (al : Allocator) {calls : List Call} (hc : ∀ c ∈ calls, c.Serialized)
    (hv : Valid (fun _ _ => True) σ) :
    (∀ τ ∈ passedCalls al calls σ, Valid (fun _ _ => True) τ) ∧
      EndsIn (· = .assertion) (runCalls al calls σ) := by
  induction calls generalizing σ with
  | nil => exact ⟨fun τ hτ => List.mem_singleton.mp hτ ▸ hv, EndsIn.ok _⟩
  | cons c calls ih =>
    obtain ⟨hpassed, hends⟩ := passed_valid al (hc c (by simp)) hv
    have hrest : ∀ σ₁, c.run al σ = .ok σ₁ → (∀ τ ∈ passedCalls al calls σ₁,
        Valid (fun _ _ => True) τ) ∧ EndsIn (· = .assertion) (runCalls al calls σ₁) :=
      fun σ₁ hσ₁ => ih (fun d hd => hc d (List.mem_cons_of_mem _ hd))
        (hpassed σ₁ (Call.passed_last hσ₁))
    refine ⟨fun τ hτ => ?_, ?_⟩
    · rcases List.mem_append.mp hτ with hτ | hτ
      · exact hpassed τ hτ
      · obtain ⟨σ₁, hσ₁, hτ⟩ := mem_thenPassed.mp hτ
        exact (hrest σ₁ hσ₁).1 τ hτ
    · rw [runCalls, List.foldlM_cons]
      exact hends.bind_of_ok fun σ₁ hσ₁ => (hrest σ₁ hσ₁).2

/-- **In every state that a sequence of loads passes through the maps
name only what the store holds**, so that everything read through them is
there. The calls share one cache and one store; the trees are whatever
the serialiser returned. No call breaks the API or meets an object of
another kind: one that does not return has failed an assertion. -/
theorem maps_in_store (al : Allocator) (h₀ : Heap) (calls : List Call)
    (hc : ∀ c ∈ calls, c.Serialized) :
    (∀ σ ∈ passedCalls al calls (Target.start h₀), InStore σ ∧ ReadsStore al σ) ∧
      EndsIn (· = .assertion) (runCalls al calls (Target.start h₀)) := by
  obtain ⟨hpassed, hends⟩ := passedCalls_valid al hc (Valid.start _ h₀)
  exact ⟨fun σ hσ => ⟨.of_valid (hpassed σ hσ), .of_valid (hpassed σ hσ)⟩, hends⟩

/-- Two hooks that share a local, loaded one after the other. -/
theorem maps_in_store_shared :
    (∀ σ ∈ passedCalls .above [.function (sharedTree 1 1), .function (sharedTree 2 2)]
        (Target.start []), InStore σ ∧ ReadsStore .above σ) ∧
      EndsIn (· = .assertion) (runCalls .above
        [.function (sharedTree 1 1), .function (sharedTree 2 2)] (Target.start [])) :=
  maps_in_store .above [] _ fun c hc => by
    rcases List.mem_cons.mp hc with rfl | hc
    · exact ⟨shared, 3, 1, rfl⟩
    · obtain rfl := List.mem_singleton.mp hc
      exact ⟨shared, 3, 2, rfl⟩

end Script

end Rushit
