import Rushit.Serialize.Loading
/-!
# What every load keeps

A load touches the heap through five calls of the API only: it makes
tables and closures, stores under keys, sets upvalues and joins them. So
a property of heaps that these five keep is kept by every load that
returns, of whatever tree (`KeptByLoads`). One such property is that no
table is marked as a collector wrapper: then the serialiser sees what
the Lua code sees.
-/

namespace Rushit

namespace Serialize

open Lua

/-- The calls that a load makes keep the property. -/
structure KeptByLoads (al : Allocator) (I : Heap → Prop) : Prop where
  newtable : ∀ h, I h → I (newtable al h).2
  loadbuffer : ∀ p h, I h → I (loadbuffer al p h).2
  setupvalue : ∀ h h' f n v, h.setupvalue f n v = some h' → I h → I h'
  upvaluejoin : ∀ h h' f n g m, h.upvaluejoin f n g m = some h' → I h → I h'
  rawset : ∀ h h' a k v, h.rawset a k v = some h' → I h → I h'

variable {al : Allocator} {I : Heap → Prop}

mutual

/-- **A load keeps what its calls keep.** -/
theorem KeptByLoads.pushObject (hI : KeptByLoads al I) {σ σ₁ : Target} {t : SValue} {v : Value}
    (h : Serialize.pushObject al t σ = .ok (v, σ₁)) (hσ : I σ.heap) : I σ₁.heap := by
  cases t with
  | boolean b =>
    cases h
    exact hσ
  | number n =>
    cases h
    exact hσ
  | string s =>
    cases h
    exact hσ
  | function id code us =>
    rw [Serialize.pushObject] at h
    split at h
    · cases h
      exact hσ
    · obtain ⟨σ', hus, hret⟩ := bind_eq_ok.mp h
      cases hret
      exact hI.setSharedUpvalues hus (hI.loadbuffer code σ.heap hσ)
  | table id es =>
    rw [Serialize.pushObject] at h
    split at h
    · cases h
      exact hσ
    · obtain ⟨σ', hes, hret⟩ := bind_eq_ok.mp h
      cases hret
      exact hI.pushEntries hes (hI.newtable σ.heap hσ)

theorem KeptByLoads.setSharedUpvalues (hI : KeptByLoads al I) {σ σ₁ : Target}
    {us : SUpvalues} {fid : Addr} (h : Serialize.setSharedUpvalues al fid us σ = .ok σ₁)
    (hσ : I σ.heap) : I σ₁.heap := by
  cases us with
  | nil =>
    rw [Serialize.setSharedUpvalues] at h
    cases h
    exact hσ
  | cons id number value collectorId next =>
    rw [Serialize.setSharedUpvalues] at h
    obtain ⟨σ', hu, hnext⟩ := bind_eq_ok.mp h
    refine hI.setSharedUpvalues hnext ?_
    unfold setSharedUpvalue at hu
    split at hu
    · split at hu
      · obtain ⟨heap, hjoin, hret⟩ := bind_eq_ok.mp hu
        cases hret
        exact hI.upvaluejoin _ _ _ _ _ _ (orFault_eq_ok.mp hjoin) hσ
      · cases hu
    · obtain ⟨⟨v, σ''⟩, hpush, hu⟩ := bind_eq_ok.mp hu
      obtain ⟨heap, hset, hmap⟩ := bind_eq_ok.mp hu
      rw [mapCollectorMaybe_heap hmap]
      exact hI.setupvalue _ _ _ _ _ (orFault_eq_ok.mp hset) (hI.pushObject hpush hσ)

theorem KeptByLoads.pushEntries (hI : KeptByLoads al I) {σ σ₁ : Target} {es : SEntries}
    {tid : Addr} (h : Serialize.pushEntries al tid es σ = .ok σ₁)
    (hσ : I σ.heap) : I σ₁.heap := by
  cases es with
  | nil =>
    rw [Serialize.pushEntries] at h
    cases h
    exact hσ
  | cons key value collectorId next =>
    rw [Serialize.pushEntries] at h
    obtain ⟨⟨k, σ'⟩, hkey, h⟩ := bind_eq_ok.mp h
    obtain ⟨⟨v, σ''⟩, hvalue, h⟩ := bind_eq_ok.mp h
    obtain ⟨heap, hset, h⟩ := bind_eq_ok.mp h
    obtain ⟨σ₃, hmap, hnext⟩ := bind_eq_ok.mp h
    have hheap : σ₃.heap = heap := mapCollectorMaybe_heap hmap
    refine hI.pushEntries hnext ?_
    rw [hheap]
    exact hI.rawset _ _ _ _ _ (orFault_eq_ok.mp hset)
      (hI.pushObject hvalue (hI.pushObject hkey hσ))

end

/-- So does loading a hook. -/
theorem KeptByLoads.deserializeFunction (hI : KeptByLoads al I) {σ σ₁ : Target}
    {f : SFunction} {key : Addr} (h : Serialize.deserializeFunction al f σ = .ok (key, σ₁))
    (hσ : I σ.heap) : I σ₁.heap := by
  obtain ⟨σ', hus, hret⟩ := bind_eq_ok.mp h
  cases hret
  exact hI.setSharedUpvalues hus (hI.loadbuffer f.code σ.heap hσ)

end Serialize

/-! ## Heaps without wrappers -/

namespace Lua

/-- No table is marked as a collector wrapper. -/
def Heap.Unmarked (h : Heap) : Prop :=
  ∀ a t, h.lookup a = some (.table t) → t.collector = false

variable {h h' : Heap} {a : Addr} {t : Table} {k v : Value}

/-- One more object, which is no wrapper. -/
theorem Heap.Unmarked.cons (hu : h.Unmarked) {o : Obj}
    (ho : ∀ t, o = .table t → t.collector = false) : Heap.Unmarked ((a, o) :: h) := by
  intro b t hb
  by_cases hba : b = a
  · subst hba
    rw [List.lookup_cons_self] at hb
    exact ho t (Option.some.inj hb)
  · rw [lookup_cons_ne hba] at hb
    exact hu b t hb

theorem Table.collector_of_rawset {t' : Table} (h : t.rawset k v = some t') :
    t'.collector = t.collector := by
  unfold Table.rawset at h
  split_ifs at h
  · obtain rfl := Option.some.inj h
    rfl
  · obtain rfl := Option.some.inj h
    rfl

/-- Without wrappers the serialiser sees what the Lua code sees. -/
theorem Heap.Unmarked.captured (hu : h.Unmarked) : h.captured = h.plain := by
  have hslot : ∀ v, h.unwrapCollectorMaybe v = ⟨v, none⟩ := by
    intro v
    cases v with
    | table a =>
      cases ht : h.table? a with
      | none => simp [Heap.unwrapCollectorMaybe, ht]
      | some t =>
        have hfalse := hu a t (Heap.table?_eq_some.mp ht)
        simp [Heap.unwrapCollectorMaybe, ht, hfalse]
    | _ => rfl
  funext a
  simp only [Heap.captured, Heap.plain, hslot]

end Lua

namespace Serialize

open Lua

theorem unmarked_newCells (al : Allocator) (n : ℕ) {h : Heap} (hu : h.Unmarked) :
    (newCells al n h).2.Unmarked := by
  induction n generalizing h with
  | zero => exact hu
  | succ n ih => exact ih (hu.cons nofun)

/-- **Loading makes no wrappers.** -/
theorem keptByLoads_unmarked (al : Allocator) : KeptByLoads al Heap.Unmarked where
  newtable h hu := hu.cons fun t ht => by
    obtain rfl := Obj.table.inj ht
    rfl
  loadbuffer p h hu := (unmarked_newCells al p.sizeuv hu).cons nofun
  setupvalue h h' f n v hset hu := by
    obtain ⟨x, -, rfl⟩ := Option.map_eq_some_iff.mp hset
    exact hu.cons nofun
  upvaluejoin h h' f n g m hjoin hu := by
    unfold Heap.upvaluejoin at hjoin
    split at hjoin
    · obtain rfl := Option.some.inj hjoin
      exact hu.cons nofun
    · cases hjoin
  rawset h h' a k v hset hu := by
    unfold Heap.rawset at hset
    split at hset
    · rename_i t ht
      obtain ⟨t', ht', rfl⟩ := Option.map_eq_some_iff.mp hset
      refine hu.cons fun u hu' => ?_
      obtain rfl := Obj.table.inj hu'
      rw [Table.collector_of_rawset ht']
      exact hu a t (Heap.table?_eq_some.mp ht)
    · cases hset

end Serialize

end Rushit
