import Rushit.Serialize.Expand
import Rushit.Serialize.Loading
/-!
# Wrappers that cannot be recorded

`copy_value` takes booleans, numbers and strings only, so a load that
returns has not recorded a wrapper under any other key. What it did is
what it does to the tree without those wrappers, and that tree is sound
whenever the tree is an expansion.
-/

namespace Rushit

namespace Serialize

open Lua

/-- Whether `copy_value` takes it. -/
def SValue.copies : SValue → Bool
  | .boolean _ => true
  | .number _ => true
  | .string _ => true
  | _ => false

mutual

/-- The tree without the wrappers under keys that `copy_value` does not
take. -/
def SValue.recordable : SValue → SValue
  | .boolean b => .boolean b
  | .number n => .number n
  | .string s => .string s
  | .function id code upvalues => .function id code upvalues.recordable
  | .table id entries => .table id entries.recordable

def SUpvalues.recordable : SUpvalues → SUpvalues
  | .nil => .nil
  | .cons id number value collectorId next =>
    .cons id number value.recordable collectorId next.recordable

def SEntries.recordable : SEntries → SEntries
  | .nil => .nil
  | .cons key value collectorId next =>
    .cons key.recordable value.recordable (if key.copies then collectorId else none)
      next.recordable

end

/-- A function without those wrappers. -/
def SFunction.recordable (f : SFunction) : SFunction := ⟨f.id, f.code, f.upvalues.recordable⟩

variable {al : Allocator} {G : Graph} {cap : Site → Addr → Prop}

theorem recordable_of_copies {k : SValue} (hk : k.copies = true) : k.recordable = k := by
  cases k with
  | boolean b => rfl
  | number n => rfl
  | string s => rfl
  | function id code us => cases hk
  | table id es => cases hk

mutual

/-- Its wrappers stand where they stood. -/
theorem SValue.wraps_recordable {st : Site} {w : Addr} (t : SValue)
    (h : t.recordable.Wraps st w) : t.Wraps st w := by
  cases t with
  | boolean b => exact h
  | number n => exact h
  | string s => exact h
  | function id code us => exact us.wraps_recordable h
  | table id es => exact es.wraps_recordable h

theorem SUpvalues.wraps_recordable {st : Site} {w : Addr} (us : SUpvalues)
    (h : us.recordable.Wraps st w) : us.Wraps st w := by
  cases us with
  | nil => exact h
  | cons id number value collectorId next =>
    exact h.imp_right (Or.imp value.wraps_recordable next.wraps_recordable)

theorem SEntries.wraps_recordable {st : Site} {w id : Addr} (es : SEntries)
    (h : es.recordable.Wraps st w id) : es.Wraps st w id := by
  cases es with
  | nil => exact h
  | cons key value collectorId next =>
    rcases h with ⟨rfl, hw⟩ | h | h | h
    · cases hc : key.copies with
      | true =>
        rw [hc] at hw
        exact .inl ⟨by rw [recordable_of_copies hc], hw⟩
      | false =>
        rw [hc] at hw
        cases hw
    · exact .inr (.inl (key.wraps_recordable h))
    · exact .inr (.inr (.inl (value.wraps_recordable h)))
    · exact .inr (.inr (.inr (next.wraps_recordable h)))

end

/-! ## It loads alike -/

/-- A wrapper that was recorded stands under a key that `copy_value`
takes. -/
theorem mapCollectorMaybe_recordable {σ σ' : Target} {collectorId : Option Addr} {o : Addr}
    {k : SValue} (h : mapCollectorMaybe σ collectorId o k = .ok σ') :
    mapCollectorMaybe σ (if k.copies then collectorId else none) o k.recordable = .ok σ' := by
  cases hc : k.copies with
  | true => rw [recordable_of_copies hc]; simpa using h
  | false =>
    cases collectorId with
    | none => exact h
    | some w =>
      obtain ⟨k', hk', -⟩ := bind_eq_ok.mp h
      cases k with
      | boolean b => cases hc
      | number n => cases hc
      | string s => cases hc
      | function id code us => cases hk'
      | table id es => cases hk'

mutual

theorem pushObject_recordable {t : SValue} {σ : Target} {r : Value × Target}
    (h : pushObject al t σ = .ok r) : pushObject al t.recordable σ = .ok r := by
  cases t with
  | boolean b => exact h
  | number n => exact h
  | string s => exact h
  | function id code us =>
    rw [SValue.recordable]
    rw [pushObject] at h ⊢
    cases hl : σ.lookupAndFetchObject id with
    | some v => rw [hl] at h; exact h
    | none =>
      rw [hl] at h
      obtain ⟨σ', hus, hret⟩ := bind_eq_ok.mp h
      exact bind_eq_ok.mpr ⟨σ', setSharedUpvalues_recordable hus, hret⟩
  | table id es =>
    rw [SValue.recordable]
    rw [pushObject] at h ⊢
    cases hl : σ.lookupAndFetchObject id with
    | some v => rw [hl] at h; exact h
    | none =>
      rw [hl] at h
      obtain ⟨σ', hes, hret⟩ := bind_eq_ok.mp h
      exact bind_eq_ok.mpr ⟨σ', pushEntries_recordable hes, hret⟩

theorem setSharedUpvalues_recordable {us : SUpvalues} {fid : Addr} {σ σ' : Target}
    (h : setSharedUpvalues al fid us σ = .ok σ') :
    setSharedUpvalues al fid us.recordable σ = .ok σ' := by
  cases us with
  | nil => exact h
  | cons id number value collectorId next =>
    rw [SUpvalues.recordable]
    rw [setSharedUpvalues] at h ⊢
    obtain ⟨σ₁, hu, hnext⟩ := bind_eq_ok.mp h
    refine bind_eq_ok.mpr ⟨σ₁, ?_, setSharedUpvalues_recordable hnext⟩
    unfold setSharedUpvalue at hu ⊢
    cases hm : σ.lookupUpvalue id with
    | some m => rw [hm] at hu; exact hu
    | none =>
      rw [hm] at hu
      obtain ⟨r, hpush, hset⟩ := bind_eq_ok.mp hu
      exact bind_eq_ok.mpr ⟨r, pushObject_recordable hpush, hset⟩

theorem pushEntries_recordable {es : SEntries} {tid : Addr} {σ σ' : Target}
    (h : pushEntries al tid es σ = .ok σ') : pushEntries al tid es.recordable σ = .ok σ' := by
  cases es with
  | nil => exact h
  | cons key value collectorId next =>
    rw [SEntries.recordable]
    rw [pushEntries] at h ⊢
    obtain ⟨r₁, hkey, h⟩ := bind_eq_ok.mp h
    obtain ⟨r₂, hvalue, h⟩ := bind_eq_ok.mp h
    obtain ⟨heap, hset, h⟩ := bind_eq_ok.mp h
    obtain ⟨σ₃, hmap, hnext⟩ := bind_eq_ok.mp h
    refine bind_eq_ok.mpr ⟨r₁, pushObject_recordable hkey,
      bind_eq_ok.mpr ⟨r₂, pushObject_recordable hvalue, bind_eq_ok.mpr ⟨heap, hset, ?_⟩⟩⟩
    exact bind_eq_ok.mpr
      ⟨σ₃, mapCollectorMaybe_recordable hmap, pushEntries_recordable hnext⟩

end

/-- **A load that returns did what it does without those wrappers.** -/
theorem deserializeFunction_recordable {f : SFunction} {σ : Target} {r : Addr × Target}
    (h : deserializeFunction al f σ = .ok r) :
    deserializeFunction al f.recordable σ = .ok r := by
  obtain ⟨σ', hus, hret⟩ := bind_eq_ok.mp h
  exact bind_eq_ok.mpr ⟨σ', setSharedUpvalues_recordable hus, hret⟩

/-- A node without the wrappers under keys that `copy_value` does not
take. -/
def recordableNode : Node → Node
  | .table es =>
    .table (es.map fun e => (e.1, ⟨e.2.value, if e.1.Scalar then e.2.collector else none⟩))
  | .closure c => .closure c
  | .cell s => .cell s

/-- A graph without them. -/
def recordableGraph (G : Graph) : Graph := fun a => (G a).map recordableNode

/-- The expansion of a key is copied where the key is a scalar. -/
theorem copies_eq {k : SValue} {v : Value} (hk : k.Expands G v) : k.copies = decide v.Scalar := by
  cases k with
  | boolean b => obtain rfl : v = _ := hk; rfl
  | number n => obtain rfl : v = _ := hk; rfl
  | string s => obtain ⟨s', rfl, -⟩ := hk; rfl
  | function id code us => obtain ⟨rfl, -⟩ := hk; rfl
  | table id es => obtain ⟨rfl, -⟩ := hk; rfl

mutual

theorem SValue.Expands.recordable {t : SValue} {v : Value} (ht : t.Expands G v) :
    t.recordable.Expands (recordableGraph G) v := by
  cases t with
  | boolean b => exact ht
  | number n => exact ht
  | string s => exact ht
  | function id code us =>
    obtain ⟨rfl, c, hc, hcode, hus⟩ := ht
    exact ⟨rfl, c, by simp [recordableGraph, hc, recordableNode], hcode, hus.recordable⟩
  | table id es =>
    obtain ⟨rfl, ents, hents, hes⟩ := ht
    exact ⟨rfl, _, by simp [recordableGraph, hents, recordableNode], hes.recordable⟩

theorem SUpvalues.Expands.recordable {us : SUpvalues} {xs : List Addr} (hus : us.Expands G xs) :
    us.recordable.Expands (recordableGraph G) xs := by
  cases us with
  | nil => exact hus
  | cons id number value collectorId next =>
    obtain ⟨ys, s, rfl, hn, hid, hvalue, hcol, hnext⟩ := hus
    exact ⟨ys, s, rfl, hn, by simp [recordableGraph, hid, recordableNode], hvalue.recordable, hcol,
      hnext.recordable⟩

theorem SEntries.Expands.recordable {es : SEntries} {ents : List (Value × Slot)}
    (hes : es.Expands G ents) : es.recordable.Expands (recordableGraph G)
      (ents.map fun e => (e.1, ⟨e.2.value, if e.1.Scalar then e.2.collector else none⟩)) := by
  cases es with
  | nil =>
    obtain rfl : ents = _ := hes
    rfl
  | cons key value collectorId next =>
    obtain ⟨ds, k, s, rfl, hkey, hvalue, rfl, hnext⟩ := hes
    refine ⟨_, k, ⟨s.value, if k.Scalar then s.collector else none⟩, by simp, hkey.recordable,
      hvalue.recordable, ?_, hnext.recordable⟩
    rw [copies_eq hkey]
    simp only [decide_eq_true_eq]

end

/-- A table of it has the keys of a table of the graph. -/
theorem recordableGraph_table {a : Addr} {es : List (Value × Slot)}
    (ha : recordableGraph G a = some (.table es)) :
    ∃ ds, G a = some (.table ds) ∧ es.map Prod.fst = ds.map Prod.fst := by
  obtain ⟨m, hm, hes⟩ := Option.map_eq_some_iff.mp ha
  cases m with
  | table ds =>
    cases hes
    exact ⟨ds, hm, List.map_map⟩
  | closure c => cases hes
  | cell s => cases hes

theorem keyable_recordable (hk : ∀ a es, G a = some (.table es) → ∀ e ∈ es, e.1.keyable = true)
    (a : Addr) (es : List (Value × Slot)) (ha : recordableGraph G a = some (.table es)) :
    ∀ e ∈ es, e.1.keyable = true := by
  obtain ⟨ds, hds, heq⟩ := recordableGraph_table ha
  intro e he
  obtain ⟨d, hd, hfst⟩ := List.mem_map.mp (heq ▸ List.mem_map_of_mem he)
  rw [← hfst]
  exact hk a ds hds d hd

/-- Its wrappers stand under scalar keys only. -/
theorem scalarKeys_recordable {a : Addr} {n : Node} (ha : recordableGraph G a = some n) :
    n.ScalarKeys := by
  obtain ⟨m, -, rfl⟩ := Option.map_eq_some_iff.mp ha
  cases m with
  | table ds =>
    intro e he hne
    obtain ⟨d, -, rfl⟩ := List.mem_map.mp he
    by_contra hs
    exact hne (if_neg hs)
  | closure c => trivial
  | cell s => trivial

/-- **Every expansion is sound** once the wrappers that cannot be
recorded are left out. -/
theorem SValue.Expands.sound_recordable
    (hk : ∀ a es, G a = some (.table es) → ∀ e ∈ es, e.1.keyable = true)
    {t : SValue} {v : Value} (ht : t.Expands G v) (hcap : ∀ s w, t.Wraps s w → cap s w) :
    t.recordable.Sound cap :=
  ht.recordable.sound_of_wraps (keyable_recordable hk) fun s w hw =>
    ⟨hcap s w (t.wraps_recordable hw),
      capture_scalar (fun _ _ => scalarKeys_recordable) (ht.recordable.wraps hw)⟩

end Serialize

end Rushit
