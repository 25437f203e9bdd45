import Rushit.Common.Fold
import Rushit.Serialize.Extend
/-!
# Loading a tree

Every sound tree loads: `push_object`, `push_function` and `push_table`
return, keep the maps valid and only add to the state. One lemma per C
function; the three loops are one mutual induction over the tree.
-/

namespace Rushit

namespace Serialize

open Lua

variable {cap : Site → Addr → Prop} {al : Allocator} {σ σ₁ σ₂ : Target}

/-- Each serialised object id has one object. -/
def Target.KeysNodup (σ : Target) : Prop := (σ.objectMap.map Prod.fst).Nodup

/-- Each serialised upvalue id has one upvalue, and each table id one
table; no object has two ids. -/
structure Unique (σ : Target) : Prop where
  cells : (σ.upvalueMap.map Prod.fst).Nodup
  objects : ∀ a b o, (a, o) ∈ σ.objectMap → (b, o) ∈ σ.objectMap → a = b
  tables : ∀ a o o' t t', (a, o) ∈ σ.objectMap → (a, o') ∈ σ.objectMap →
    σ.heap.lookup o = some (.table t) → σ.heap.lookup o' = some (.table t') → o = o'

/-- **What a step of loading guarantees**: valid maps, a state that only
grew, and no second object for an id. -/
structure Grown (cap : Site → Addr → Prop) (own new : Addr → Prop) (σ σ' : Target) : Prop where
  valid : Valid cap σ'
  ext : Ext own new σ σ'
  nodup : σ.KeysNodup → σ'.KeysNodup
  unique : Unique σ → Unique σ'

/-- The empty set of exemptions. -/
abbrev noOne : Addr → Prop := fun _ => False

/-- What only adds leaves every object as it is. -/
theorem Ext.lookup {new : Addr → Prop} (h : Ext noOne new σ σ₁) {a : Addr} {o : Obj}
    (ho : σ.heap.lookup a = some o) : σ₁.heap.lookup a = some o := by
  rw [h.heap a (Heap.live_of_lookup ho) id, ho]

namespace Grown

variable {own own' new new' : Addr → Prop}

protected theorem refl (h : Valid cap σ) : Grown cap own new σ σ :=
  ⟨h, Ext.refl own new σ, id, id⟩

theorem mono (h : Grown cap own new σ σ₁) (hown : ∀ x, own x → own' x ∨ ¬ σ.heap.Live x)
    (hnew : ∀ c, new c → new' c) : Grown cap own' new' σ σ₁ :=
  ⟨h.valid, h.ext.mono hown hnew, h.nodup, h.unique⟩

theorem trans (h₁ : Grown cap own new σ σ₁) (h₂ : Grown cap own' new σ₁ σ₂)
    (hown : ∀ x, own' x → own x ∨ ¬ σ.heap.Live x) : Grown cap own new σ σ₂ :=
  ⟨h₂.valid, h₁.ext.trans h₂.ext hown, fun h => h₂.nodup (h₁.nodup h),
    fun h => h₂.unique (h₁.unique h)⟩

end Grown

/-! ## The invariant under a change of heap -/

/-- A heap that keeps the kind of every object, and the upvalues the
maps name, keeps the maps valid. -/
theorem Valid.of_heap (h : Valid cap σ) (σ' : Target)
    (htables : ∀ x t, σ.heap.lookup x = some (.table t) → ∃ t', σ'.heap.lookup x = some (.table t'))
    (hclosures : ∀ x c, σ.heap.lookup x = some (.closure c) →
      ∃ c', σ'.heap.lookup x = some (.closure c'))
    (hslots : ∀ f i, σ.HasUpvalue f i → σ'.HasUpvalue f i)
    (htbl : ∀ x, σ.heap.Live x → σ'.objectTbl.lookup x = σ.objectTbl.lookup x)
    (hup : σ'.upvalueMap = σ.upvalueMap) (hobj : σ'.objectMap = σ.objectMap)
    (hcol : σ'.collectorMap = σ.collectorMap) : Valid cap σ' where
  object a a' hm := by
    rcases h.object a a' (hobj ▸ hm) with ⟨t, ht, htb⟩ | ⟨c, hc, hcb⟩
    · obtain ⟨t', ht'⟩ := htables a' t ht
      exact .inl ⟨t', ht', by rw [htbl a' (Heap.live_of_lookup ht), htb]⟩
    · obtain ⟨c', hc'⟩ := hclosures a' c hc
      exact .inr ⟨c', hc', by rw [htbl a' (Heap.live_of_lookup hc), hcb]⟩
  upvalue c f i hm := hslots f i (h.upvalue c f i (hup ▸ hm))
  collector w o k hm := by
    rcases h.collector w o k (hcol ▸ hm) with ⟨c, i, hcap, hc, hk⟩ | ⟨a, hcap, hs, ha, t, ht⟩
    · exact .inl ⟨c, i, hcap, hup ▸ hc, hk⟩
    · exact .inr ⟨a, hcap, hs, hobj ▸ ha, htables o t ht⟩

/-- What the object table has as a table is one. -/
theorem Valid.table_of_cached (hv : Valid cap σ) {a o : Addr} (hm : (a, o) ∈ σ.objectMap)
    (ho : σ.objectTbl.lookup o = some (.table o)) : ∃ t, σ.heap.lookup o = some (.table t) := by
  rcases hv.object a o hm with ⟨t, ht, -⟩ | ⟨c, -, hcb⟩
  · exact ⟨t, ht⟩
  · rw [ho] at hcb
    cases hcb

/-- More sites may have wrappers. -/
theorem Valid.mono {cap' : Site → Addr → Prop} (h : Valid cap σ)
    (hcap : ∀ s w, cap s w → cap' s w) : Valid cap' σ where
  object := h.object
  upvalue := h.upvalue
  collector w o k hm := by
    rcases h.collector w o k hm with ⟨c, i, hc, hrest⟩ | ⟨d, hd, hrest⟩
    · exact .inl ⟨c, i, hcap _ _ hc, hrest⟩
    · exact .inr ⟨d, hcap _ _ hd, hrest⟩

/-- A step that keeps the maps, and turns nothing mapped into a table,
keeps them unique. -/
theorem Unique.of_heap (h : Unique σ) {σ' : Target} (hup : σ'.upvalueMap = σ.upvalueMap)
    (hobj : σ'.objectMap = σ.objectMap)
    (htables : ∀ x t', (∃ a, (a, x) ∈ σ.objectMap) → σ'.heap.lookup x = some (.table t') →
      ∃ t, σ.heap.lookup x = some (.table t)) : Unique σ' where
  cells := by rw [hup]; exact h.cells
  objects := by rw [hobj]; exact h.objects
  tables a o o' t t' hm hm' ht ht' := by
    rw [hobj] at hm hm'
    obtain ⟨u, hu⟩ := htables o t ⟨a, hm⟩ ht
    obtain ⟨u', hu'⟩ := htables o' t' ⟨a, hm'⟩ ht'
    exact h.tables a o o' u u' hm hm' hu hu'

/-- A closure whose upvalue is there is in the heap. -/
theorem Target.HasUpvalue.live {f : Addr} {i : ℕ} (h : σ.HasUpvalue f i) : σ.heap.Live f := by
  obtain ⟨-, x, w, hx, -⟩ := h
  exact Heap.live_of_upvalueid hx

theorem Target.IsObject.live {a : Addr} (h : σ.IsObject a) : σ.heap.Live a := by
  rcases h with ⟨t, ht, -⟩ | ⟨c, hc, -⟩
  · exact Heap.live_of_lookup ht
  · exact Heap.live_of_lookup hc

/-! ## New objects -/

/-- `σ'` is `σ` with a new object `a`, cached as `v` and mapped from
`id`. -/
structure Created (σ : Target) (id a : Addr) (v : Value) (σ' : Target) : Prop where
  not_live : ¬ σ.heap.Live a
  heap : ∀ x, σ.heap.Live x → σ'.heap.lookup x = σ.heap.lookup x
  fetch : σ'.objectTbl.lookup a = some v
  objectTbl : ∀ x, σ.heap.Live x → σ'.objectTbl.lookup x = σ.objectTbl.lookup x
  objectMap : σ'.objectMap = (id, a) :: σ.objectMap
  upvalueMap : σ'.upvalueMap = σ.upvalueMap
  collectorMap : σ'.collectorMap = σ.collectorMap

namespace Created

variable {id a : Addr} {v : Value} {σ' : Target}

theorem hasUpvalue (h : Created σ id a v σ') {f : Addr} {i : ℕ} (hf : σ.HasUpvalue f i) :
    σ'.HasUpvalue f i := by
  have hlive := hf.live
  obtain ⟨htb, x, w, hx, hw⟩ := hf
  refine ⟨by rw [h.objectTbl f hlive, htb], x, w, ?_, ?_⟩
  · rw [Heap.upvalueid_congr (h.heap f hlive), hx]
  · rw [h.heap x (Heap.live_of_lookup hw), hw]

theorem valid (h : Created σ id a v σ') (hv : Valid cap σ) (ha : σ'.IsObject a) : Valid cap σ' := by
  have hold : Valid cap { σ' with objectMap := σ.objectMap } :=
    hv.of_heap _
      (fun x t ht => ⟨t, by rw [h.heap x (Heap.live_of_lookup ht), ht]⟩)
      (fun x c hc => ⟨c, by rw [h.heap x (Heap.live_of_lookup hc), hc]⟩)
      (fun f i hf => h.hasUpvalue hf) h.objectTbl h.upvalueMap rfl h.collectorMap
  refine ⟨fun b b' hm => ?_, hold.upvalue, fun w o k hm => ?_⟩
  · rw [h.objectMap, List.mem_cons] at hm
    rcases hm with heq | hm
    · obtain ⟨-, rfl⟩ := Prod.mk.inj heq; exact ha
    · exact hold.object b b' hm
  · rcases hold.collector w o k hm with hl | ⟨b, hcap, hs, hb, ht⟩
    · exact .inl hl
    · exact .inr ⟨b, hcap, hs, by rw [h.objectMap]; exact List.mem_cons_of_mem _ hb, ht⟩

theorem ext (h : Created σ id a v σ') (hv : Valid cap σ) (new : Addr → Prop) :
    Ext noOne new σ σ' where
  heap x hx _ := h.heap x hx
  live x hx := by rw [Heap.Live, h.heap x hx]; exact hx
  objectTbl := h.objectTbl
  slots c f i hm := Heap.upvalueid_congr (h.heap f (hv.upvalue c f i hm).live)
  objectMap := ⟨[(id, a)], by simpa using h.objectMap, by simpa using h.not_live⟩
  upvalueMap := ⟨[], by simpa using h.upvalueMap, by simp⟩
  collectorMap := by simp [h.collectorMap]

/-- A new object leaves the maps unique if it is the first of its id, or
no table. -/
theorem unique (h : Created σ id a v σ') (hv : Valid cap σ)
    (hnew : id ∉ σ.objectMap.map Prod.fst ∨ ∀ t, σ'.heap.lookup a ≠ some (.table t))
    (hu : Unique σ) : Unique σ' where
  cells := by rw [h.upvalueMap]; exact hu.cells
  objects b c o hm hm' := by
    rw [h.objectMap, List.mem_cons, Prod.mk.injEq] at hm hm'
    -- what was mapped before is older than the new object
    rcases hm with ⟨rfl, rfl⟩ | hm
    · rcases hm' with ⟨rfl, -⟩ | hm'
      · rfl
      · exact absurd (hv.object c o hm').live h.not_live
    · rcases hm' with ⟨rfl, rfl⟩ | hm'
      · exact absurd (hv.object b o hm).live h.not_live
      · exact hu.objects b c o hm hm'
  tables b o o' t t' hm hm' ht ht' := by
    have hold : ∀ o t, (b, o) ∈ σ'.objectMap → σ'.heap.lookup o = some (.table t) →
        (b = id ∧ o = a) ∨ ((b, o) ∈ σ.objectMap ∧ σ.heap.lookup o = some (.table t)) := by
      intro o t hm ht
      rw [h.objectMap, List.mem_cons, Prod.mk.injEq] at hm
      refine hm.imp_right fun hm => ⟨hm, ?_⟩
      rw [← h.heap o (hv.object b o hm).live, ht]
    have hfirst : ∀ o t, b = id → σ'.heap.lookup a = some (.table t) → (b, o) ∉ σ.objectMap := by
      rintro o t rfl hat hm
      rcases hnew with hnew | hnew
      · exact hnew (List.mem_map.mpr ⟨_, hm, rfl⟩)
      · exact hnew t hat
    rcases hold o t hm ht with ⟨hb, ho⟩ | ⟨hm, hto⟩
    · rcases hold o' t' hm' ht' with ⟨-, ho'⟩ | ⟨hm', -⟩
      · rw [ho, ho']
      · exact absurd hm' (hfirst o' t hb (ho ▸ ht))
    · rcases hold o' t' hm' ht' with ⟨hb, ho'⟩ | ⟨hm', hto'⟩
      · exact absurd hm (hfirst o t' hb (ho' ▸ ht'))
      · exact hu.tables b o o' t t' hm hm' hto hto'

/-- Creating the object of an id that had none. -/
theorem grown (h : Created σ id a v σ') (hv : Valid cap σ) (hv' : Valid cap σ')
    (hid : id ∉ σ.objectMap.map Prod.fst) {new : Addr → Prop} : Grown cap noOne new σ σ' := by
  refine ⟨hv', h.ext hv new, fun hn => ?_, h.unique hv (.inl hid)⟩
  rw [Target.KeysNodup, h.objectMap, List.map_cons, List.nodup_cons]
  exact ⟨hid, hn⟩

end Created

/-- `push_function` before its loop: a closure of the serialised code
over distinct fresh cells. -/
theorem newFunction_spec (al : Allocator) (id : Addr) (code : Proto) (σ : Target) :
    Created σ id (newFunction al id code σ).1 (.function (newFunction al id code σ).1)
      (newFunction al id code σ).2 ∧
    ∃ c : Closure,
      (newFunction al id code σ).2.heap.lookup (newFunction al id code σ).1 = some (.closure c) ∧
      c.proto = code ∧ c.uvs.Nodup ∧ (newFunction al id code σ).1 ∉ c.uvs ∧
      ∀ x ∈ c.uvs, ¬ σ.heap.Live x ∧
        (newFunction al id code σ).2.heap.lookup x = some (.cell .nil) := by
  obtain ⟨c, hc, hproto, hnd, hnl, hnot, hcells, hkeep⟩ := loadbuffer_spec al code σ.heap
  refine ⟨⟨hnl, hkeep, by simp [newFunction, Target.mapObject, Target.cacheObject], ?_, rfl, rfl,
    rfl⟩, c, hc, hproto, hnd, hnot, hcells⟩
  intro x hx
  have hne : x ≠ (loadbuffer al code σ.heap).1 := by rintro rfl; exact hnl hx
  simp only [newFunction, Target.mapObject, Target.cacheObject, Target.withHeap]
  exact lookup_cons_ne hne

/-- `push_table` before its loop: an empty table. -/
theorem newTable_spec (al : Allocator) (id : Addr) (σ : Target) :
    Created σ id (newTable al id σ).1 (.table (newTable al id σ).1) (newTable al id σ).2 ∧
      (newTable al id σ).2.heap.lookup (newTable al id σ).1 = some (.table Table.empty) := by
  refine ⟨⟨al.not_live σ.heap, fun x hx => ?_, ?_, fun x hx => ?_, rfl, rfl, rfl⟩, ?_⟩
  · exact lookup_cons_ne (Allocator.ne_next hx)
  · simp [newTable, Target.mapObject, Target.cacheObject]
  · simp only [newTable, Target.mapObject, Target.cacheObject, Target.withHeap]
    exact lookup_cons_ne (Allocator.ne_next hx)
  · simp [newTable, newtable, Target.mapObject, Target.cacheObject, Target.withHeap]

/-! ## The loop of push_function -/

/-- The function under construction, with upvalues `1` to `n` still to
be set: their cells are its own, and no mapping names them yet. -/
structure Building (σ : Target) (fid : Addr) (c : Closure) (n : ℕ) : Prop where
  closure : σ.heap.lookup fid = some (.closure c)
  fetch : σ.objectTbl.lookup fid = some (.function fid)
  le : n ≤ c.uvs.length
  cells : ∀ x ∈ c.uvs.take n, ∃ w, σ.heap.lookup x = some (.cell w)
  unmapped : ∀ e i, (e, fid, i) ∈ σ.upvalueMap → n < i

/-- What the loop may write to: the function and the cells of the
upvalues still to be set. -/
def Owned (fid : Addr) (cells : List Addr) (x : Addr) : Prop := x = fid ∨ x ∈ cells

/-- What `map_collector` adds for a collector id that may be absent. -/
def record (collectorId : Option Addr) (o : Addr) (k : SValue) : List (Addr × Addr × SValue) :=
  collectorId.toList.map fun w => (w, o, k)

theorem mem_record {w' o o' : Addr} {k k' : SValue} {collectorId : Option Addr} :
    (w', o', k') ∈ record collectorId o k ↔ collectorId = some w' ∧ o' = o ∧ k' = k := by
  simp only [record, List.mem_map, Option.mem_toList, Prod.mk.injEq]
  constructor
  · rintro ⟨u, hu, rfl, rfl, rfl⟩; exact ⟨hu, rfl, rfl⟩
  · rintro ⟨hu, rfl, rfl⟩; exact ⟨w', hu, rfl, rfl, rfl⟩

/-- `map_collector` succeeds under a scalar key. -/
theorem mapCollectorMaybe_eq {collectorId : Option Addr} {o : Addr} {k : SValue}
    (hk : collectorId ≠ none → k.Scalar) :
    mapCollectorMaybe σ collectorId o k =
      .ok { σ with collectorMap := record collectorId o k ++ σ.collectorMap } := by
  cases collectorId with
  | none => rfl
  | some w =>
    have hcopy : copyValue k = .ok k := by
      have hs := hk (by simp)
      cases k with
      | string s => simp only [copyValue]; rw [show strdup s = s from hs]; rfl
      | boolean b => rfl
      | number n => rfl
      | function id code us => exact hs.elim
      | table id es => exact hs.elim
    simp [mapCollectorMaybe, mapCollector, hcopy, record, bind, Except.bind, pure, Except.pure]

/-- The state after a join with an upvalue already seen. -/
def Target.joined (σ : Target) (fid : Addr) (c : Closure) (m : ℕ) (x : Addr) : Target :=
  σ.withHeap ((fid, .closure (c.join m x)) :: σ.heap)

/-- The state after upvalue `m + 1`, whose cell is `x`, was set and
mapped. -/
def Target.setSlot (σ : Target) (fid id : Addr) (m : ℕ) (collectorId : Option Addr) (x : Addr)
    (v : Value) : Target :=
  { σ with
    heap := (x, .cell v) :: σ.heap
    upvalueMap := (id, fid, m + 1) :: σ.upvalueMap
    collectorMap := record collectorId fid (.number (.ofNat (m + 1))) ++ σ.collectorMap }

section Upvalue

variable {fid id : Addr} {c : Closure} {m : ℕ} {collectorId : Option Addr} {x : Addr} {v : Value}
variable {push : Target → Except Fault (Value × Target)}

theorem Building.upvalueid (hb : Building σ fid c (m + 1)) :
    ∃ x, c.uvs[m]? = some x ∧ σ.heap.upvalueid fid (m + 1) = some x := by
  have hlt : m < c.uvs.length := hb.le
  refine ⟨c.uvs[m], List.getElem?_eq_getElem hlt, ?_⟩
  rw [Heap.upvalueid_succ hb.closure, List.getElem?_eq_getElem hlt]

/-- **An upvalue seen before is joined with its first occurrence.** -/
theorem setSharedUpvalue_seen (hv : Valid cap σ) (hb : Building σ fid c (m + 1)) {g : Addr} {i : ℕ}
    (hm : σ.lookupUpvalue id = some (g, i)) :
    ∃ x w, σ.heap.upvalueid g i = some x ∧ σ.heap.lookup x = some (.cell w) ∧
      setSharedUpvalue fid id (m + 1) collectorId push σ = .ok (σ.joined fid c m x) := by
  obtain ⟨htb, x, w, hx, hw⟩ := hv.upvalue id g i (mem_of_lookup hm)
  refine ⟨x, w, hx, hw, ?_⟩
  have hjoin := Heap.upvaluejoin_eq (n := m) hb.closure (by have := hb.le; omega) hx
  simp [setSharedUpvalue, hm, Target.fetchObject, htb, hjoin, orFault, Target.joined, bind,
    Except.bind, pure, Except.pure]

/-- **An upvalue seen for the first time is set and mapped.** -/
theorem setSharedUpvalue_new (hm : σ.lookupUpvalue id = none) (hpush : push σ = .ok (v, σ₁))
    (hx : σ₁.heap.upvalueid fid (m + 1) = some x) :
    setSharedUpvalue fid id (m + 1) collectorId push σ =
      .ok (σ₁.setSlot fid id m collectorId x v) := by
  have hset := Heap.setupvalue_eq (v := v) hx
  have hmap : ∀ τ : Target, mapCollectorMaybe τ collectorId fid (.number (.ofNat (m + 1))) =
      .ok { τ with collectorMap := record collectorId fid (.number (.ofNat (m + 1))) ++
        τ.collectorMap } := fun τ => mapCollectorMaybe_eq fun _ => trivial
  simp [setSharedUpvalue, hm, hpush, hset, orFault, hmap, Target.setSlot, Target.withHeap,
    Target.mapUpvalue, bind, Except.bind, pure, Except.pure]

/-! ### What the two cases preserve -/

theorem Closure_join_take (c : Closure) (m : ℕ) (x : Addr) :
    (c.join m x).uvs.take m = c.uvs.take m := by
  simp [Closure.join, List.take_set_of_le]

/-- A join changes one upvalue of one closure. -/
theorem upvalueid_joined (hb : Building σ fid c (m + 1)) {f : Addr} {i : ℕ}
    (h : f ≠ fid ∨ i ≠ m + 1) :
    (σ.joined fid c m x).heap.upvalueid f i = σ.heap.upvalueid f i := by
  by_cases hf : f = fid
  · subst hf
    have hi : i ≠ m + 1 := h.resolve_left (fun hne => hne rfl)
    cases i with
    | zero => simp
    | succ j =>
      have hc' : (σ.joined f c m x).heap.lookup f = some (.closure (c.join m x)) := by
        simp [Target.joined, Target.withHeap]
      rw [Heap.upvalueid_succ hc', Heap.upvalueid_succ hb.closure, Closure.join,
        List.getElem?_set_ne (by omega)]
  · exact Heap.upvalueid_congr (lookup_cons_ne hf)

/-- A cell under construction is not the function itself. -/
theorem Building.ne_fid {n : ℕ} {w : Value} (hb : Building σ fid c n)
    (hx : σ.heap.lookup x = some (.cell w)) : x ≠ fid := by
  rintro rfl
  have := hb.closure
  rw [hx] at this
  simp at this

/-- Construction survives whatever only adds. -/
theorem Building.of_ext {n : ℕ} {new : Addr → Prop} (hb : Building σ fid c n)
    (hext : Ext noOne new σ σ₁) : Building σ₁ fid c n where
  closure := hext.lookup hb.closure
  fetch := by rw [hext.objectTbl fid (Heap.live_of_lookup hb.closure), hb.fetch]
  le := hb.le
  cells y hy := by
    obtain ⟨w, hw⟩ := hb.cells y hy
    exact ⟨w, hext.lookup hw⟩
  unmapped e i hm := by
    obtain ⟨l, hl, hp⟩ := hext.upvalueMap
    rw [hl] at hm
    rcases List.mem_append.mp hm with hm | hm
    · have hf := (hp _ hm).2.1
      exact absurd (Heap.live_of_lookup hb.closure) (hf.resolve_right id)
    · exact hb.unmapped e i hm

/-- A function just created has all its upvalues still to be set. -/
theorem Building.of_created {σ' : Target} (hv : Valid cap σ)
    (hcr : Created σ id fid (.function fid) σ')
    (hc : σ'.heap.lookup fid = some (.closure c))
    (hcells : ∀ x ∈ c.uvs, ∃ w, σ'.heap.lookup x = some (.cell w)) :
    Building σ' fid c c.uvs.length where
  closure := hc
  fetch := hcr.fetch
  le := le_rfl
  cells x hx := hcells x (List.mem_of_mem_take hx)
  unmapped e i hm := by
    rw [hcr.upvalueMap] at hm
    exact absurd (hv.upvalue e fid i hm).live hcr.not_live

theorem Building.joined (hb : Building σ fid c (m + 1)) :
    Building (σ.joined fid c m x) fid (c.join m x) m where
  closure := by simp [Target.joined, Target.withHeap]
  fetch := hb.fetch
  le := by have := hb.le; simp [Closure.join]; omega
  cells y hy := by
    rw [Closure_join_take] at hy
    obtain ⟨w, hw⟩ := hb.cells y (List.take_subset_take_left _ (Nat.le_succ m) hy)
    exact ⟨w, by rw [Target.joined, Target.withHeap, lookup_cons_ne (hb.ne_fid hw), hw]⟩
  unmapped e i hm := by have := hb.unmapped e i hm; omega

theorem Building.setSlot (hb : Building σ fid c (m + 1)) (hx : c.uvs[m]? = some x) :
    Building (σ.setSlot fid id m collectorId x v) fid c m where
  closure := by
    obtain ⟨w, hw⟩ := hb.cells x (List.mem_of_getElem? (i := m) (by simp [hx]))
    simp only [Target.setSlot]
    rw [lookup_cons_ne (hb.ne_fid hw).symm, hb.closure]
  fetch := hb.fetch
  le := by have := hb.le; omega
  cells y hy := by
    by_cases hyx : y = x
    · exact ⟨v, by simp [Target.setSlot, hyx]⟩
    · obtain ⟨w, hw⟩ := hb.cells y (List.take_subset_take_left _ (Nat.le_succ m) hy)
      exact ⟨w, by simp only [Target.setSlot]; rw [lookup_cons_ne hyx, hw]⟩
  unmapped e i hm := by
    simp only [Target.setSlot, List.mem_cons, Prod.mk.injEq] at hm
    rcases hm with ⟨-, -, rfl⟩ | hm
    · omega
    · have := hb.unmapped e i hm; omega

theorem joined_grown (hv : Valid cap σ) (hb : Building σ fid c (m + 1)) {w : Value}
    (hw : σ.heap.lookup x = some (.cell w)) (new : Addr → Prop) :
    Grown cap (Owned fid []) new σ (σ.joined fid c m x) := by
  have hself : (σ.joined fid c m x).heap.lookup fid = some (.closure (c.join m x)) := by
    simp [Target.joined, Target.withHeap]
  have hother : ∀ y, y ≠ fid → (σ.joined fid c m x).heap.lookup y = σ.heap.lookup y :=
    fun y hy => lookup_cons_ne hy
  have hkind : ∀ y t, (σ.joined fid c m x).heap.lookup y = some (.table t) →
      σ.heap.lookup y = some (.table t) := by
    intro y t ht
    by_cases hy : y = fid
    · rw [hy, hself] at ht; cases ht
    · rw [← hother y hy, ht]
  refine ⟨hv.of_heap _ ?_ ?_ ?_ (fun _ _ => rfl) rfl rfl rfl, ?_, fun hn => hn,
    fun hu => hu.of_heap rfl rfl fun y t _ ht => ⟨t, hkind y t ht⟩⟩
  · intro y t ht
    refine ⟨t, ?_⟩
    rw [hother y ?_, ht]
    rintro rfl
    rw [hb.closure] at ht; simp at ht
  · intro y d hd
    by_cases hy : y = fid
    · exact ⟨c.join m x, by rw [hy, hself]⟩
    · exact ⟨d, by rw [hother y hy, hd]⟩
  · rintro f i ⟨htb, y, u, hy, hu⟩
    refine ⟨htb, ?_⟩
    -- only the upvalue that is joined has another cell
    by_cases hfi : f = fid ∧ i = m + 1
    · obtain ⟨rfl, rfl⟩ := hfi
      refine ⟨x, w, ?_, by rw [hother x (hb.ne_fid hw), hw]⟩
      rw [Heap.upvalueid_succ hself]
      have hlt : m < c.uvs.length := hb.le
      simp [Closure.join, hlt]
    · refine ⟨y, u, ?_, by rw [hother y (hb.ne_fid hu), hu]⟩
      rw [upvalueid_joined hb (by tauto), hy]
  · refine ⟨fun y _ hoy => hother y fun h => hoy (.inl h), fun y hy => ?_, fun _ _ => rfl,
      fun e f i hm => upvalueid_joined hb ?_, ⟨[], rfl, by simp⟩, ⟨[], rfl, by simp⟩,
      List.suffix_refl _⟩
    · by_cases hyf : y = fid
      · rw [hyf]; exact Heap.live_of_lookup hself
      · rw [Heap.Live, hother y hyf]; exact hy
    · by_cases hf : f = fid
      · subst hf
        have := hb.unmapped e i hm
        exact .inr (by omega)
      · exact .inl hf

/-- Setting a slot writes one cell. -/
theorem lookup_setSlot :
    (σ.setSlot fid id m collectorId x v).heap.lookup x = some (.cell v) := by
  simp [Target.setSlot]

theorem lookup_setSlot_of_ne {y : Addr} (hy : y ≠ x) :
    (σ.setSlot fid id m collectorId x v).heap.lookup y = σ.heap.lookup y :=
  lookup_cons_ne hy

/-- No function gets another cell by it. -/
theorem upvalueid_setSlot {w : Value} (hw : σ.heap.lookup x = some (.cell w)) (f : Addr) (i : ℕ) :
    (σ.setSlot fid id m collectorId x v).heap.upvalueid f i = σ.heap.upvalueid f i := by
  by_cases hf : f = x
  · have hne : ∀ τ : Heap, ∀ u, τ.lookup x = some (.cell u) → τ.upvalueid x i = none := by
      intro τ u hu
      simp [Heap.upvalueid, Heap.closure?, hu]
    rw [hf, hne _ v lookup_setSlot, hne _ w hw]
  · exact Heap.upvalueid_congr (lookup_setSlot_of_ne hf)

theorem hasUpvalue_setSlot {w : Value} (hw : σ.heap.lookup x = some (.cell w)) {f : Addr} {i : ℕ}
    (h : σ.HasUpvalue f i) : (σ.setSlot fid id m collectorId x v).HasUpvalue f i := by
  obtain ⟨htb, y, u, hy, hu⟩ := h
  by_cases hyx : y = x
  · exact ⟨htb, x, v, by rw [upvalueid_setSlot hw, hy, hyx], lookup_setSlot⟩
  · exact ⟨htb, y, u, by rw [upvalueid_setSlot hw, hy], by rw [lookup_setSlot_of_ne hyx, hu]⟩

/-- Writing to a cell keeps the maps valid. -/
theorem setCell_valid (hv : Valid cap σ) {w : Value} (hw : σ.heap.lookup x = some (.cell w)) :
    Valid cap (σ.withHeap ((x, .cell v) :: σ.heap)) := by
  have hne : ∀ y, y ≠ x → (σ.withHeap ((x, .cell v) :: σ.heap)).heap.lookup y = σ.heap.lookup y :=
    fun y hy => lookup_cons_ne hy
  refine hv.of_heap _ (fun y t ht => ⟨t, ?_⟩) (fun y d hd => ⟨d, ?_⟩) (fun f i hfi => ?_)
    (fun _ _ => rfl) rfl rfl rfl
  · refine (hne y ?_).trans ht
    rintro rfl
    rw [hw] at ht
    simp at ht
  · refine (hne y ?_).trans hd
    rintro rfl
    rw [hw] at hd
    simp at hd
  · exact (hasUpvalue_setSlot hw hfi : (σ.setSlot 0 0 0 none x v).HasUpvalue f i)

theorem setSlot_valid (hv : Valid cap σ) (hb : Building σ fid c (m + 1))
    (hx : c.uvs[m]? = some x) (hcap : Captures cap (.upvalue id) collectorId) :
    Valid cap (σ.setSlot fid id m collectorId x v) := by
  obtain ⟨w, hw⟩ := hb.cells x (List.mem_of_getElem? (i := m) (by simp [hx]))
  have hbase : Valid cap (σ.withHeap ((x, .cell v) :: σ.heap)) := setCell_valid hv hw
  -- besides what there was: the new mapping, and its collector
  refine ⟨hbase.object, ?_, ?_⟩
  · intro e f i hm
    simp only [Target.setSlot, List.mem_cons, Prod.mk.injEq] at hm
    rcases hm with ⟨rfl, rfl, rfl⟩ | hm
    · refine ⟨hb.fetch, x, v, ?_, lookup_setSlot⟩
      rw [upvalueid_setSlot hw, Heap.upvalueid_succ hb.closure, hx]
    · exact hbase.upvalue e f i hm
  · intro w' o k hm
    simp only [Target.setSlot] at hm
    rcases List.mem_append.mp hm with hm | hm
    · obtain ⟨hc, rfl, rfl⟩ := mem_record.mp hm
      exact .inl ⟨id, m + 1, hcap w' hc, by simp [Target.setSlot], rfl⟩
    · rcases hbase.collector w' o k hm with ⟨d, i, h₁, h₂, h₃⟩ | h
      · exact .inl ⟨d, i, h₁, List.mem_cons_of_mem _ h₂, h₃⟩
      · exact .inr h

theorem setSlot_ext (hb : Building σ fid c (m + 1)) (hx : c.uvs[m]? = some x)
    {new : Addr → Prop} (hnew : new id) :
    Ext (Owned fid (c.uvs.take (m + 1))) new σ (σ.setSlot fid id m collectorId x v) := by
  have hmem : x ∈ c.uvs.take (m + 1) := List.mem_of_getElem? (i := m) (by simp [hx])
  obtain ⟨w, hw⟩ := hb.cells x hmem
  refine ⟨fun y _ hoy => lookup_setSlot_of_ne ?_, fun y hy => ?_, fun _ _ => rfl,
    fun _ f i _ => upvalueid_setSlot hw f i, ⟨[], rfl, by simp⟩, ⟨[(id, fid, m + 1)], rfl, ?_⟩, ?_⟩
  · rintro rfl
    exact hoy (.inr hmem)
  · by_cases hyx : y = x
    · rw [hyx]
      exact Heap.live_of_lookup lookup_setSlot
    · rw [Heap.Live, lookup_setSlot_of_ne hyx]
      exact hy
  · intro p hp
    rw [List.mem_singleton.mp hp]
    refine ⟨hnew, .inr (.inl rfl), x, ?_, .inr (.inr hmem)⟩
    rw [upvalueid_setSlot hw, Heap.upvalueid_succ hb.closure, hx]
  · exact List.suffix_append _ _

theorem setSlot_grown (hv : Valid cap σ) (hb : Building σ fid c (m + 1))
    (hx : c.uvs[m]? = some x) (hcap : Captures cap (.upvalue id) collectorId) {new : Addr → Prop}
    (hnew : new id) (hid : id ∉ σ.upvalueMap.map Prod.fst) :
    Grown cap (Owned fid (c.uvs.take (m + 1))) new σ (σ.setSlot fid id m collectorId x v) := by
  have hkind : ∀ y t, (σ.setSlot fid id m collectorId x v).heap.lookup y = some (.table t) →
      σ.heap.lookup y = some (.table t) := by
    intro y t ht
    by_cases hy : y = x
    · rw [hy, lookup_setSlot] at ht
      cases ht
    · rw [← lookup_setSlot_of_ne hy, ht]
  exact ⟨setSlot_valid hv hb hx hcap, setSlot_ext hb hx hnew, fun hn => hn,
    fun hu => ⟨List.nodup_cons.mpr ⟨hid, hu.cells⟩, hu.objects, fun a o o' t t' hm hm' ht ht' =>
      hu.tables a o o' t t' hm hm' (hkind o t ht) (hkind o' t' ht')⟩⟩

/-- An id that is not looked up before a step, and not new in it, is not
mapped after it. -/
theorem Ext.not_mem_upvalueMap {own new : Addr → Prop} (h : Ext own new σ σ₁) (hid : ¬ new id)
    (hm : σ.lookupUpvalue id = none) : id ∉ σ₁.upvalueMap.map Prod.fst := by
  obtain ⟨l, hl, hp⟩ := h.upvalueMap
  rw [hl, List.map_append, List.mem_append]
  rintro (hin | hin)
  · obtain ⟨p, hpl, rfl⟩ := List.mem_map.mp hin
    exact hid (hp p hpl).1
  · exact not_mem_keys_of_lookup hm hin

/-- **One upvalue.** Whether it is joined or set, the function is built
down to the next one. -/
theorem setSharedUpvalue_step {new : Addr → Prop} (hv : Valid cap σ)
    (hb : Building σ fid c (m + 1)) (hcap : Captures cap (.upvalue id) collectorId)
    (hself : ¬ new id) (hpush : ∃ v σ', push σ = .ok (v, σ') ∧ Grown cap noOne new σ σ') :
    ∃ σ' c', setSharedUpvalue fid id (m + 1) collectorId push σ = .ok σ' ∧
      Grown cap (Owned fid (c.uvs.take (m + 1))) (fun e => e = id ∨ new e) σ σ' ∧
      Building σ' fid c' m ∧ c'.proto = c.proto ∧ c'.uvs.take m = c.uvs.take m := by
  rcases hm : σ.lookupUpvalue id with _ | ⟨g, i⟩
  · obtain ⟨v, σ₁, hpush, hg⟩ := hpush
    have hb₁ := hb.of_ext hg.ext
    obtain ⟨x, hx, hslot⟩ := hb₁.upvalueid
    refine ⟨_, c, setSharedUpvalue_new hm hpush hslot, ?_, hb₁.setSlot hx, rfl, rfl⟩
    exact (hg.mono (fun _ h => h.elim) fun e he => Or.inr he).trans
      (setSlot_grown hg.valid hb₁ hx hcap (Or.inl rfl) (hg.ext.not_mem_upvalueMap hself hm))
      fun y hy => .inl hy
  · obtain ⟨x, w, -, hw, heq⟩ := setSharedUpvalue_seen hv hb hm
    refine ⟨_, _, heq, ?_, hb.joined, rfl, Closure_join_take c m x⟩
    exact (joined_grown hv hb hw _).mono (fun y hy => .inl (hy.imp_right fun h => by simp at h))
      fun _ h => h

end Upvalue

/-! ## The loop of push_table -/

/-- The state after an entry was stored in the table `tid`. -/
def Target.setEntry (σ : Target) (tid : Addr) (t : Table) (collectorId : Option Addr)
    (key : SValue) : Target :=
  { σ with
    heap := (tid, .table t) :: σ.heap
    collectorMap := record collectorId tid key ++ σ.collectorMap }

/-- What `push_object` leaves on the stack for a tree: the scalar, or the
object its id maps to. -/
def Target.Pushed (σ : Target) : SValue → Value → Prop
  | .boolean b, v => v = .boolean b
  | .number n, v => v = .number n
  | .string s, v => v = .string s
  | .function id _ _, v => ∃ a, (id, a) ∈ σ.objectMap ∧ (v = .table a ∨ v = .function a)
  | .table id _, v => ∃ a, (id, a) ∈ σ.objectMap ∧ (v = .table a ∨ v = .function a)

theorem Target.Pushed.keyable {t : SValue} {v : Value} (h : σ.Pushed t v)
    (hk : t.keyable = true) : v.keyable = true := by
  cases t with
  | boolean b => obtain rfl : v = _ := h; rfl
  | number n => obtain rfl : v = _ := h; cases n <;> simp_all [SValue.keyable, Value.keyable]
  | string s => obtain rfl : v = _ := h; rfl
  | function id c us => obtain ⟨a, -, rfl | rfl⟩ := h <;> rfl
  | table id es => obtain ⟨a, -, rfl | rfl⟩ := h <;> rfl

theorem Target.Pushed.ne_nil {t : SValue} {v : Value} (h : σ.Pushed t v) : v ≠ .nil := by
  cases t with
  | boolean b => obtain rfl : v = _ := h; simp
  | number n => obtain rfl : v = _ := h; simp
  | string s => obtain rfl : v = _ := h; simp
  | function id c us => obtain ⟨a, -, rfl | rfl⟩ := h <;> simp
  | table id es => obtain ⟨a, -, rfl | rfl⟩ := h <;> simp

/-- What a mapped id is looked up as. -/
theorem lookupAndFetchObject_some {id : Addr} {v : Value} (hv : Valid cap σ)
    (h : σ.lookupAndFetchObject id = some v) :
    ∃ a, (id, a) ∈ σ.objectMap ∧
      ((v = .table a ∧ ∃ t, σ.heap.lookup a = some (.table t)) ∨
        v = .function a ∧ ∃ c, σ.heap.lookup a = some (.closure c)) := by
  simp only [Target.lookupAndFetchObject, Option.map_eq_some_iff] at h
  obtain ⟨a, ha, rfl⟩ := h
  have hmem := mem_of_lookup ha
  refine ⟨a, hmem, ?_⟩
  rcases hv.object id a hmem with ⟨t, ht, htb⟩ | ⟨c, hc, hcb⟩
  · exact .inl ⟨by simp [Target.fetchObject, htb], t, ht⟩
  · exact .inr ⟨by simp [Target.fetchObject, hcb], c, hc⟩

theorem lookupAndFetchObject_none {id : Addr} (h : σ.lookupAndFetchObject id = none) :
    id ∉ σ.objectMap.map Prod.fst := by
  simp only [Target.lookupAndFetchObject, Option.map_eq_none_iff] at h
  exact not_mem_keys_of_lookup h

/-- The state after a table was written to. -/
def Target.setTable (σ : Target) (tid : Addr) (t : Table) : Target :=
  σ.withHeap ((tid, .table t) :: σ.heap)

/-- **Writing to a table** changes that table only. -/
theorem setTable_grown {tid : Addr} {t : Table} (t' : Table) (hv : Valid cap σ)
    (ht : σ.heap.lookup tid = some (.table t)) (new : Addr → Prop) :
    Grown cap (Owned tid []) new σ (σ.setTable tid t') := by
  have hother : ∀ y, y ≠ tid → (σ.setTable tid t').heap.lookup y = σ.heap.lookup y :=
    fun y hy => lookup_cons_ne hy
  have hself : (σ.setTable tid t').heap.lookup tid = some (.table t') := by
    simp [Target.setTable, Target.withHeap]
  -- no closure and no cell is written to
  have hne : ∀ y c, σ.heap.lookup y = some (.closure c) → y ≠ tid := by
    rintro y c hc rfl; rw [ht] at hc; simp at hc
  have hne' : ∀ y w, σ.heap.lookup y = some (.cell w) → y ≠ tid := by
    rintro y w hw rfl; rw [ht] at hw; simp at hw
  have hup : ∀ f i x, σ.heap.upvalueid f i = some x →
      (σ.setTable tid t').heap.upvalueid f i = some x := by
    intro f i x hx
    obtain ⟨c, m, hc, -, -⟩ := Heap.upvalueid_eq_some.mp hx
    rw [Heap.upvalueid_congr (hother f (hne f c hc)), hx]
  have hkind : ∀ y u, (σ.setTable tid t').heap.lookup y = some (.table u) →
      ∃ u', σ.heap.lookup y = some (.table u') := by
    intro y u hu
    by_cases hy : y = tid
    · exact ⟨t, by rw [hy, ht]⟩
    · exact ⟨u, by rw [← hother y hy, hu]⟩
  refine ⟨?_, ?_, fun hn => hn, fun hu => hu.of_heap rfl rfl fun y u _ h => hkind y u h⟩
  · refine hv.of_heap _ (fun y u hu => ?_) (fun y d hd => ⟨d, ?_⟩) ?_ (fun _ _ => rfl) rfl rfl rfl
    · by_cases hy : y = tid
      · exact ⟨t', by rw [hy]; exact hself⟩
      · exact ⟨u, (hother y hy).trans hu⟩
    · exact (hother y (hne y d hd)).trans hd
    · rintro f i ⟨htb, x, w, hx, hw⟩
      exact ⟨htb, x, w, hup f i x hx, (hother x (hne' x w hw)).trans hw⟩
  · refine ⟨fun y _ hoy => hother y fun h => hoy (.inl h), fun y hy => ?_, fun _ _ => rfl,
      fun e f i hm => ?_, ⟨[], rfl, by simp⟩, ⟨[], rfl, by simp⟩, List.suffix_refl _⟩
    · by_cases hy' : y = tid
      · rw [hy']; exact Heap.live_of_lookup hself
      · rw [Heap.Live, hother y hy']; exact hy
    · obtain ⟨-, x, w, hx, -⟩ := hv.upvalue e f i hm
      rw [hup f i x hx, hx]

theorem setEntry_grown {tid id : Addr} {t : Table} (t' : Table) {collectorId : Option Addr}
    {key : SValue} (hv : Valid cap σ) (ht : σ.heap.lookup tid = some (.table t))
    (hid : (id, tid) ∈ σ.objectMap) (hs : collectorId ≠ none → key.Scalar)
    (hcap : Captures cap (.entry id key) collectorId) (new : Addr → Prop) :
    Grown cap (Owned tid []) new σ (σ.setEntry tid t' collectorId key) := by
  have hbase := setTable_grown t' hv ht new
  have hself : (σ.setTable tid t').heap.lookup tid = some (.table t') := by
    simp [Target.setTable, Target.withHeap]
  refine ⟨⟨hbase.valid.object, hbase.valid.upvalue, fun w o k hm => ?_⟩,
    ⟨hbase.ext.heap, hbase.ext.live, hbase.ext.objectTbl, hbase.ext.slots, hbase.ext.objectMap,
      hbase.ext.upvalueMap, List.suffix_append _ _⟩,
    hbase.nodup, fun hu => ⟨(hbase.unique hu).cells, (hbase.unique hu).objects,
      (hbase.unique hu).tables⟩⟩
  rcases List.mem_append.mp hm with hm | hm
  · obtain ⟨hc, rfl, rfl⟩ := mem_record.mp hm
    exact .inr ⟨id, hcap w hc, hs (by simp [hc]), hid, t', hself⟩
  · exact hbase.valid.collector w o k hm

/-! ## Every sound tree loads -/

mutual

/-- **push_object returns**, for the object of the tree's id where there
is one and a new one otherwise. -/
theorem pushObject_grown (al : Allocator) (t : SValue) (ht : t.Sound cap) (σ : Target)
    (hv : Valid cap σ) :
    ∃ v σ', pushObject al t σ = .ok (v, σ') ∧ Grown cap noOne (t.Mentions ·) σ σ' ∧
      σ'.Pushed t v := by
  cases t with
  | boolean b => exact ⟨_, _, rfl, Grown.refl hv, rfl⟩
  | number n => exact ⟨_, _, rfl, Grown.refl hv, rfl⟩
  | string s => exact ⟨_, _, rfl, Grown.refl hv, rfl⟩
  | function id code us =>
    simp only [pushObject]
    rcases hl : σ.lookupAndFetchObject id with _ | v
    · -- not in the cache: a new closure, with new cells
      obtain ⟨hcr, c, hc, hproto, -, -, hcells⟩ := newFunction_spec al id code σ
      have hv₁ : Valid cap (newFunction al id code σ).2 :=
        hcr.valid hv (.inr ⟨c, hc, hcr.fetch⟩)
      have hb := Building.of_created hv hcr hc fun x hx => ⟨.nil, (hcells x hx).2⟩
      have hlen : c.uvs.length = code.sizeuv := by rw [c.size_eq, hproto]
      obtain ⟨σ', c', heq, hg, -, -⟩ :=
        setSharedUpvalues_grown al us (hlen ▸ ht) _ hv₁ hb
      refine ⟨_, σ', by rw [heq]; rfl, ?_, ⟨_, hg.ext.mem_objectMap ?_, .inr rfl⟩⟩
      · refine (hcr.grown hv hv₁ (lookupAndFetchObject_none hl)).trans hg ?_
        rintro y (rfl | hy)
        · exact .inr hcr.not_live
        · exact .inr (hcells y (List.mem_of_mem_take hy)).1
      · rw [hcr.objectMap]; exact List.mem_cons_self
    · obtain ⟨a, ha, h⟩ := lookupAndFetchObject_some hv hl
      exact ⟨v, σ, rfl, Grown.refl hv, a, ha, h.imp (·.1) (·.1)⟩
  | table id es =>
    simp only [pushObject]
    rcases hl : σ.lookupAndFetchObject id with _ | v
    · -- not in the cache: a new table
      obtain ⟨hcr, ht₁⟩ := newTable_spec al id σ
      have hv₁ : Valid cap (newTable al id σ).2 := hcr.valid hv (.inl ⟨_, ht₁, hcr.fetch⟩)
      have hid : (id, (newTable al id σ).1) ∈ (newTable al id σ).2.objectMap := by
        rw [hcr.objectMap]; exact List.mem_cons_self
      obtain ⟨σ', t', heq, hg, -⟩ := pushEntries_grown al es ht _ hv₁ ht₁ hid
      refine ⟨_, σ', by rw [heq]; rfl, ?_, ⟨_, hg.ext.mem_objectMap hid, .inl rfl⟩⟩
      refine (hcr.grown hv hv₁ (lookupAndFetchObject_none hl)).trans hg ?_
      rintro y (rfl | hy)
      · exact .inr hcr.not_live
      · simp at hy
    · obtain ⟨a, ha, h⟩ := lookupAndFetchObject_some hv hl
      exact ⟨v, σ, rfl, Grown.refl hv, a, ha, h.imp (·.1) (·.1)⟩

/-- The loop of `push_function` returns. -/
theorem setSharedUpvalues_grown (al : Allocator) (us : SUpvalues) {fid : Addr} {c : Closure}
    {n : ℕ} (hus : us.Sound cap n) (σ : Target) (hv : Valid cap σ) (hb : Building σ fid c n) :
    ∃ σ' c', setSharedUpvalues al fid us σ = .ok σ' ∧
      Grown cap (Owned fid (c.uvs.take n)) (us.Mentions ·) σ σ' ∧
      σ'.heap.lookup fid = some (.closure c') ∧ c'.proto = c.proto := by
  cases us with
  | nil => exact ⟨σ, c, rfl, Grown.refl hv, hb.closure, rfl⟩
  | cons id number value collectorId next =>
    obtain ⟨m, rfl, rfl, hvalue, hself, hcap, hnext⟩ := hus
    obtain ⟨v, σ₀, hpush, hg₀, -⟩ := pushObject_grown al value hvalue σ hv
    obtain ⟨σ₁, c₁, heq₁, hg₁, hb₁, hp₁, htake⟩ :=
      setSharedUpvalue_step hv hb hcap hself ⟨v, σ₀, hpush, hg₀⟩
    obtain ⟨σ₂, c₂, heq₂, hg₂, hc₂, hp₂⟩ :=
      setSharedUpvalues_grown al next hnext σ₁ hg₁.valid hb₁
    refine ⟨σ₂, c₂, ?_, ?_, hc₂, hp₂.trans hp₁⟩
    · simp only [setSharedUpvalues]
      rw [heq₁]; exact heq₂
    · refine (hg₁.mono (fun _ h => .inl h) fun e he => ?_).trans
        (hg₂.mono (fun _ h => .inl h) fun e he => ?_) ?_
      · exact he.imp_right Or.inl
      · exact Or.inr (Or.inr he)
      · rw [htake]
        exact fun y hy => .inl (hy.imp_right fun h =>
          List.take_subset_take_left _ (Nat.le_succ m) h)

/-- The loop of `push_table` returns. -/
theorem pushEntries_grown (al : Allocator) (es : SEntries) {tid id : Addr} {t : Table}
    (hes : es.Sound cap id) (σ : Target) (hv : Valid cap σ)
    (ht : σ.heap.lookup tid = some (.table t)) (hid : (id, tid) ∈ σ.objectMap) :
    ∃ σ' t', pushEntries al tid es σ = .ok σ' ∧
      Grown cap (Owned tid []) (es.Mentions ·) σ σ' ∧
      σ'.heap.lookup tid = some (.table t') := by
  cases es with
  | nil => exact ⟨σ, t, rfl, Grown.refl hv, ht⟩
  | cons key value collectorId next =>
    obtain ⟨hkey, hkk, hvalue, hs, hcap, hnext⟩ := hes
    obtain ⟨k, σ₁, heq₁, hg₁, hk⟩ := pushObject_grown al key hkey σ hv
    obtain ⟨v, σ₂, heq₂, hg₂, hval⟩ := pushObject_grown al value hvalue σ₁ hg₁.valid
    -- loading the key and the value leaves the table alone
    have ht₂ : σ₂.heap.lookup tid = some (.table t) := hg₂.ext.lookup (hg₁.ext.lookup ht)
    have hset := Table.rawset_of_keyable (t := t) (hk.keyable hkk) hval.ne_nil
    have hid₂ := hg₂.ext.mem_objectMap (hg₁.ext.mem_objectMap hid)
    have hg₃ := setEntry_grown (t.insert k v (hk.keyable hkk) hval.ne_nil) hg₂.valid ht₂ hid₂ hs
      hcap ((SEntries.cons key value collectorId next).Mentions ·)
    obtain ⟨σ₄, t₄, heq₄, hg₄, ht₄⟩ := pushEntries_grown al next hnext _ hg₃.valid
      (t := t.insert k v (hk.keyable hkk) hval.ne_nil) (by simp [Target.setEntry]) hid₂
    refine ⟨σ₄, t₄, ?_, ?_, ht₄⟩
    · simp only [pushEntries]
      rw [heq₁]; simp only [bind, Except.bind]
      rw [heq₂]; simp only
      rw [Heap.rawset_eq ht₂ hset]; simp only [orFault, pure, Except.pure]
      rw [mapCollectorMaybe_eq hs]; exact heq₄
    · have h₁ : Grown cap (Owned tid []) ((SEntries.cons key value collectorId next).Mentions ·)
          σ σ₁ := hg₁.mono (fun _ h => h.elim) fun _ he => Or.inl he
      have h₂ : Grown cap (Owned tid []) ((SEntries.cons key value collectorId next).Mentions ·)
          σ₁ σ₂ := hg₂.mono (fun _ h => h.elim) fun _ he => Or.inr (Or.inl he)
      have h₄ : Grown cap (Owned tid []) ((SEntries.cons key value collectorId next).Mentions ·)
          _ σ₄ := hg₄.mono (fun _ h => .inl h) fun _ he => Or.inr (Or.inr he)
      exact ((h₁.trans h₂ fun _ h => .inl h).trans hg₃ fun _ h => .inl h).trans h₄
        fun _ h => .inl h

end

/-! ## A hook -/

/-- **deserialize_function returns**, always with a new function. -/
theorem deserializeFunction_grown (al : Allocator) (f : SFunction) (hf : f.toSValue.Sound cap)
    (σ : Target) (hv : Valid cap σ) :
    ∃ key σ', deserializeFunction al f σ = .ok (key, σ') ∧ Valid cap σ' ∧
      Ext noOne (f.upvalues.Mentions ·) σ σ' ∧ (f.id, key) ∈ σ'.objectMap ∧
      ¬ σ.heap.Live key ∧ (Unique σ → Unique σ') ∧
      (f.id ∉ σ.objectMap.map Prod.fst → σ.KeysNodup → σ'.KeysNodup) := by
  obtain ⟨hcr, c, hc, hproto, -, -, hcells⟩ := newFunction_spec al f.id f.code σ
  have hv₁ : Valid cap (newFunction al f.id f.code σ).2 := hcr.valid hv (.inr ⟨c, hc, hcr.fetch⟩)
  have hb := Building.of_created hv hcr hc fun x hx => ⟨.nil, (hcells x hx).2⟩
  have hlen : c.uvs.length = f.code.sizeuv := by rw [c.size_eq, hproto]
  obtain ⟨σ', c', heq, hg, -, -⟩ := setSharedUpvalues_grown al f.upvalues (hlen ▸ hf) _ hv₁ hb
  refine ⟨_, σ', ?_, hg.valid, (hcr.ext hv _).trans hg.ext ?_, hg.ext.mem_objectMap ?_,
    hcr.not_live, fun hu => hg.unique (hcr.unique hv (.inr fun t ht => ?_) hu),
    fun hid hn => hg.nodup ?_⟩
  · simp only [deserializeFunction, pushFunction]
    rw [heq]; rfl
  · rintro y (rfl | hy)
    · exact .inr hcr.not_live
    · exact .inr (hcells y (List.mem_of_mem_take hy)).1
  · rw [hcr.objectMap]; exact List.mem_cons_self
  · rw [hc] at ht; cases ht
  · rw [Target.KeysNodup, hcr.objectMap, List.map_cons, List.nodup_cons]
    exact ⟨hid, hn⟩

/-! ## Any tree -/

theorem mapCollectorMaybe_heap {collectorId : Option Addr} {o : Addr} {k : SValue}
    (h : mapCollectorMaybe σ collectorId o k = .ok σ₁) : σ₁.heap = σ.heap := by
  cases collectorId with
  | none => cases h; rfl
  | some w =>
    obtain ⟨k', -, hret⟩ := bind_eq_ok.mp h
    cases hret; rfl

mutual

/-- A load that returns, of whatever tree, takes nothing out of the
heap. -/
theorem pushObject_suffix {σ σ₁ : Target} {t : SValue} {v : Value}
    (h : pushObject al t σ = .ok (v, σ₁)) : σ.heap <:+ σ₁.heap := by
  cases t with
  | boolean b => cases h; exact List.suffix_refl _
  | number n => cases h; exact List.suffix_refl _
  | string s => cases h; exact List.suffix_refl _
  | function id code us =>
    rw [pushObject] at h
    split at h
    · cases h; exact List.suffix_refl _
    · obtain ⟨σ', hus, hret⟩ := bind_eq_ok.mp h
      cases hret
      exact (loadbuffer_suffix al code σ.heap).trans (setSharedUpvalues_suffix hus)
  | table id es =>
    rw [pushObject] at h
    split at h
    · cases h; exact List.suffix_refl _
    · obtain ⟨σ', hes, hret⟩ := bind_eq_ok.mp h
      cases hret
      exact (List.suffix_cons _ _).trans (pushEntries_suffix hes)

theorem setSharedUpvalues_suffix {σ σ₁ : Target} {us : SUpvalues} {fid : Addr}
    (h : setSharedUpvalues al fid us σ = .ok σ₁) : σ.heap <:+ σ₁.heap := by
  cases us with
  | nil => rw [setSharedUpvalues] at h; cases h; exact List.suffix_refl _
  | cons id number value collectorId next =>
    rw [setSharedUpvalues] at h
    obtain ⟨σ', hu, hnext⟩ := bind_eq_ok.mp h
    refine List.IsSuffix.trans ?_ (setSharedUpvalues_suffix hnext)
    unfold setSharedUpvalue at hu
    split at hu
    · split at hu
      · obtain ⟨heap, hjoin, hret⟩ := bind_eq_ok.mp hu
        cases hret
        exact Heap.upvaluejoin_suffix (orFault_eq_ok.mp hjoin)
      · cases hu
    · obtain ⟨⟨v, σ''⟩, hpush, hu⟩ := bind_eq_ok.mp hu
      obtain ⟨heap, hset, hmap⟩ := bind_eq_ok.mp hu
      rw [mapCollectorMaybe_heap hmap]
      exact (pushObject_suffix hpush).trans (Heap.setupvalue_suffix (orFault_eq_ok.mp hset))

theorem pushEntries_suffix {σ σ₁ : Target} {es : SEntries} {tid : Addr}
    (h : pushEntries al tid es σ = .ok σ₁) : σ.heap <:+ σ₁.heap := by
  cases es with
  | nil => rw [pushEntries] at h; cases h; exact List.suffix_refl _
  | cons key value collectorId next =>
    rw [pushEntries] at h
    obtain ⟨⟨k, σ'⟩, hkey, h⟩ := bind_eq_ok.mp h
    obtain ⟨⟨v, σ''⟩, hvalue, h⟩ := bind_eq_ok.mp h
    obtain ⟨heap, hset, h⟩ := bind_eq_ok.mp h
    obtain ⟨σ₃, hmap, hnext⟩ := bind_eq_ok.mp h
    have hheap : σ₃.heap = heap := mapCollectorMaybe_heap hmap
    refine List.IsSuffix.trans ?_ (pushEntries_suffix hnext)
    rw [hheap]
    exact ((pushObject_suffix hkey).trans (pushObject_suffix hvalue)).trans
      (Heap.rawset_suffix (orFault_eq_ok.mp hset))

end

end Serialize

end Rushit
