import Rushit.Script.Collect
/-!
# Wrappers in tables

A wrapper under a boolean, a number or a string is recorded when its
table is loaded, and read again with the key it was recorded with. Under
a table or a function `copy_value` asserts, although such keys are
serialised, loaded, read back and freed like any other. A string key ends
at its first NUL byte. And the cache keeps one place for a wrapper, the
last that was recorded, and none in a table that was there already. So
`push_collected_value` finds an entry exactly where none of this happens
to it (`wrappers_recorded_iff`).
-/

namespace Rushit

namespace Serialize

open Lua

/-- The hook reaches the table `a`, which has the wrapper `w` under
`k`. -/
def Registration.WrapsAt (p : Registration) (a : Addr) (k : Value) (w : Addr) : Prop :=
  ∃ es s, p.Reaches a ∧ p.heap.captured a = some (.table es) ∧ (k, s) ∈ es ∧ s.collector = some w

/-- Of the places where the wrapper `w` stands in the copies that are
loaded first, the last is the entry under `k` of the table `a`. -/
def LastPlace (fs : List SFunction) (a : Addr) (k : Value) (w : Addr) : Prop :=
  ∃ key : SValue, key.key = k ∧ (walk fs).places.lookup w = some (.entry a key)

variable {al : Allocator} {G : Graph} {σ σ' : Target} {key key' : SValue} {k k' v : Value}
variable {a o w : Addr} {t : Table} {fs : List SFunction} {cap : Site → Addr → Prop}

/-! ## Keys that are copied -/

/-- A scalar without NUL bytes is copied as it is. -/
theorem copyValue_of_nulFree (hs : key.key.Scalar) (hn : key.key.NulFree) :
    copyValue key = .ok key := by
  cases key with
  | boolean b => rfl
  | number n => rfl
  | string s =>
    have hcut : strdup s = s := Value.string.inj (cut_eq_self hn)
    rw [copyValue, hcut]
    rfl
  | function id code us => exact hs.elim
  | table id es => exact hs.elim

/-- What was copied is a scalar without NUL bytes. -/
theorem copyValue_ok (h : copyValue key = .ok key') :
    key.copies = true ∧ key'.key.Scalar ∧ key'.key.NulFree ∧ key'.key = cut key.key := by
  cases key with
  | boolean b =>
    cases h
    exact ⟨rfl, trivial, trivial, rfl⟩
  | number n =>
    cases h
    exact ⟨rfl, trivial, trivial, rfl⟩
  | string s =>
    cases h
    exact ⟨rfl, trivial, nulFree_cut (.string s), rfl⟩
  | function id code us => cases h
  | table id es => cases h

/-- The key of an entry of an expansion ends before its first NUL byte. -/
theorem SValue.Expands.nulFree_key (h : key.Expands G v) : key.key.NulFree := by
  cases key with
  | string s =>
    obtain ⟨s', -, rfl⟩ := h
    exact nulFree_cut (.string s')
  | _ => trivial

/-- The state where `v` is stored under `k` in the table at `o`. -/
def Target.store (σ : Target) (o : Addr) (t : Table) (k v : Value) (hk : k.keyable = true)
    (hv : v ≠ .nil) : Target :=
  σ.withHeap ((o, .table (t.insert k v hk hv)) :: σ.heap)

end Serialize

namespace Script

open Lua Serialize

variable {al : Allocator} {σ σ' : Target} {k k' v : Value} {a o w : Addr} {t : Table}
variable {fs : List SFunction} {cap : Site → Addr → Prop} {rs : List Registration}
variable {trees : List SFunction}

theorem Mutated.refl (σ : Target) : Mutated σ σ where
  objectTbl := rfl
  upvalueMap := rfl
  objectMap := rfl
  collectorMap := rfl
  table _ t _ ht := ⟨t, ht⟩
  closure _ _ _ hc := hc
  cell _ _ _ w _ _ _ hw := ⟨w, hw⟩

/-- **The wrapper `w` of the entry under `k` of the table `a` is found**:
whatever Lua code does to the heap, `push_collected_value` reads what the
slave's copy of the table then has under its copy of the key. -/
def Found (al : Allocator) (σ : Target) (a : Addr) (k : Value) (w : Addr) : Prop :=
  ∃ k', σ.corr.Val k k' ∧ ∀ σ', Mutated σ σ' →
    ∃ t, σ'.tableOf a = some t ∧ pushCollectedValue al σ' w = .ok (t.rawget k')

/-- **The hooks load, and every wrapper in a table they reach is found.** -/
def FindsWrappers (al : Allocator) (rs : List Registration) (trees : List SFunction) (h₀ : Heap) :
    Prop :=
  ∃ keys σ, deserializeFunctions al trees (Target.start h₀) = .ok (keys, σ) ∧
    ∀ p ∈ rs, ∀ a k w, p.WrapsAt a k w → Found al σ a k w

/-! ## Where the last place is the entry -/

theorem found_of_lastPlace (hv : Valid cap σ) (hu : Unique σ) (hw : Walked σ (walk fs))
    (hs : k.Scalar) (hn : k.NulFree) (hlast : LastPlace fs a k w) : Found al σ a k w := by
  obtain ⟨key, rfl, hl⟩ := hlast
  rcases hw.lookup w with ⟨-, hnone⟩ | ⟨⟨o, key'⟩, st, hr, hst, -, hat⟩
  · rw [hl] at hnone
    cases hnone
  · obtain rfl : Site.entry a key = st := Option.some.inj (hl.symm.trans hst)
    obtain ⟨⟨hmapped, -, hcached⟩, hcopy⟩ := hat
    obtain rfl : key = key' :=
      Except.ok.inj ((copyValue_of_nulFree hs hn).symm.trans hcopy)
    refine ⟨key.key, Corr.val_scalar hs, fun σ' hm => ?_⟩
    obtain ⟨t, ht⟩ := hv.table_of_cached hmapped hcached
    obtain ⟨t', ht'⟩ := hm.table o t hcached ht
    have hm' : (a, o) ∈ σ'.objectMap := by rw [hm.objectMap]; exact hmapped
    refine ⟨t', tableOf_eq (Unique.mutated hu hv hm) hm' ht', ?_⟩
    rw [pushCollectedValue_eq (Valid.mutated hv hm), Target.recorded, hm.collectorMap, hr]
    simp [Heap.table?_eq_some.mpr ht']

/-! ## Where it is not -/

theorem mutated_store (ht : σ.heap.lookup o = some (.table t)) (hk : k.keyable = true)
    (hne : v ≠ .nil) : Mutated σ (σ.store o t k v hk hne) where
  objectTbl := rfl
  upvalueMap := rfl
  objectMap := rfl
  collectorMap := rfl
  table x u _ hx := by
    by_cases hxo : x = o
    · subst hxo
      exact ⟨_, List.lookup_cons_self⟩
    · exact ⟨u, by rw [Target.store, Target.withHeap, lookup_cons_ne hxo, hx]⟩
  closure x c _ hx := by
    have hxo : x ≠ o := by
      rintro rfl
      rw [ht] at hx
      cases hx
    rw [Target.store, Target.withHeap, lookup_cons_ne hxo, hx]
  cell x c y u _ _ _ hy := by
    have hyo : y ≠ o := by
      rintro rfl
      rw [ht] at hy
      cases hy
    exact ⟨u, by rw [Target.store, Target.withHeap, lookup_cons_ne hyo, hy]⟩

/-- A read that is recorded elsewhere does not see what was stored. -/
theorem recorded_store (ht : σ.heap.lookup o = some (.table t)) (hk : k.keyable = true)
    (hne : v ≠ .nil) (helse : ∀ key, σ.collectorMap.lookup w = some (o, key) → key.key ≠ k) :
    (σ.store o t k v hk hne).recorded w = σ.recorded w := by
  have htable : ∀ x, x ≠ o → (σ.store o t k v hk hne).heap.table? x = σ.heap.table? x := by
    intro x hx
    rw [Heap.table?, Heap.table?, Target.store, Target.withHeap, lookup_cons_ne hx]
  have hcell : ∀ x, (σ.store o t k v hk hne).heap.cell? x = σ.heap.cell? x := by
    intro x
    by_cases hx : x = o
    · subst hx
      simp [Heap.cell?, Target.store, Target.withHeap, ht]
    · rw [Heap.cell?, Heap.cell?, Target.store, Target.withHeap, lookup_cons_ne hx]
  have hmap : (σ.store o t k v hk hne).collectorMap = σ.collectorMap := rfl
  cases hr : σ.collectorMap.lookup w with
  | none => simp only [Target.recorded, hmap, hr]
  | some r =>
    obtain ⟨x, key⟩ := r
    simp only [Target.recorded, hmap, hr]
    by_cases hx : x = o
    · subst hx
      have htb : (σ.store x t k v hk hne).heap.table? x = some (t.insert k v hk hne) :=
        Heap.table?_eq_some.mpr List.lookup_cons_self
      simp only [htb, Heap.table?_eq_some.mpr ht]
      exact Table.rawget_insert_of_ne t hk hne (helse key hr)
    · have hup : (σ.store o t k v hk hne).heap.upvalueid x key.toNat =
          σ.heap.upvalueid x key.toNat := Heap.upvalueid_congr (lookup_cons_ne hx)
      simp only [htable x hx, Heap.getupvalue, hup, funext hcell]

/-- **What is found was recorded for the entry.** Whatever is stored there
is read, and what is recorded elsewhere is not. -/
theorem recorded_of_found (hv : Valid cap σ) (hu : Unique σ) (hk : k.keyable = true)
    (hf : Found al σ a k w) :
    ∃ o key, (a, o) ∈ σ.objectMap ∧ (∃ t, σ.heap.lookup o = some (.table t)) ∧
      σ.collectorMap.lookup w = some (o, key) ∧ σ.corr.Val k key.key := by
  obtain ⟨k', hval, hread⟩ := hf
  have hk' : k'.keyable = true := Corr.Val.keyable hval hk
  obtain ⟨t, htable, -⟩ := hread σ (.refl σ)
  obtain ⟨o, hm, ht⟩ := mem_of_tableOf htable
  have hne : ∀ b, Value.boolean b ≠ .nil := by
    intro b hb
    cases hb
  -- both of two values that are stored are read
  have hstored : ∀ b : Bool, (σ.store o t k' (.boolean b) hk' (hne b)).recorded w =
      .boolean b := by
    intro b
    have hmut := mutated_store ht hk' (hne b)
    obtain ⟨t', ht', hpush⟩ := hread _ hmut
    have htb : (σ.store o t k' (.boolean b) hk' (hne b)).tableOf a =
        some (t.insert k' (.boolean b) hk' (hne b)) :=
      tableOf_eq (Unique.mutated hu hv hmut) hm List.lookup_cons_self
    obtain rfl := Option.some.inj (htb.symm.trans ht')
    rw [pushCollectedValue_eq (Valid.mutated hv hmut), Table.rawget_insert_self] at hpush
    exact Except.ok.inj hpush
  by_cases hrec : ∃ key, σ.collectorMap.lookup w = some (o, key) ∧ key.key = k'
  · obtain ⟨key, hr, rfl⟩ := hrec
    exact ⟨o, key, hm, ⟨t, ht⟩, hr, hval⟩
  · have helse : ∀ key, σ.collectorMap.lookup w = some (o, key) → key.key ≠ k' :=
      fun key hr heq => hrec ⟨key, hr, heq⟩
    have htrue := hstored true
    have hfalse := hstored false
    rw [recorded_store ht hk' (hne _) helse] at htrue hfalse
    rw [htrue] at hfalse
    cases hfalse

/-- **Then the last place is the entry**, under a scalar without NUL
bytes. -/
theorem lastPlace_of_found (hv : Valid cap σ) (hu : Unique σ) (hw : Walked σ (walk fs))
    (hfs : ∀ f ∈ fs, ∃ G, f.toSValue.Expands G (.function f.id)) (hk : k.keyable = true)
    (hf : Found al σ a k w) : k.Scalar ∧ k.NulFree ∧ LastPlace fs a k w := by
  obtain ⟨o, key', hm, ⟨t, ht⟩, hr, hval⟩ := recorded_of_found hv hu hk hf
  rcases hw.lookup w with ⟨hnone, -⟩ | ⟨r, st, hr', hst, -, hat⟩
  · rw [hr] at hnone
    cases hnone
  obtain rfl : (o, key') = r := Option.some.inj (hr.symm.trans hr')
  cases st with
  | upvalue c =>
    -- a function is no table
    obtain ⟨i, hup, -⟩ := hat
    obtain ⟨-, x, v, hx, -⟩ := hv.upvalue c o i hup
    obtain ⟨d, m, hd, -, -⟩ := Heap.upvalueid_eq_some.mp hx
    rw [ht] at hd
    cases hd
  | entry d key =>
    obtain ⟨hd, hcopy⟩ := hat
    obtain ⟨-, hs, hn, hcut⟩ := copyValue_ok hcopy
    obtain rfl : k = key'.key := Corr.Val.eq_of_scalar hval hs
    obtain rfl : d = a := hu.objects d a o hd.mapped hm
    -- the key of the place ends before its first NUL byte as well
    obtain ⟨f, hf, hwraps⟩ := FirstHolds.wraps (mem_of_lookup hst)
    obtain ⟨G, hexp⟩ := hfs f hf
    obtain ⟨es, e, -, -, hkey, -⟩ := hexp.wraps hwraps
    exact ⟨hs, hn, key, by rw [hcut, cut_eq_self hkey.nulFree_key], hst⟩

/-! ## The load -/

/-- A load that returns keeps the cache in order. -/
theorem deserializeFunctions_valid {keys : List Addr}
    (hfs : ∀ f ∈ fs, ∃ h n a, serializeFunction h n a = .ok f)
    (hcap : ∀ f ∈ fs, ∀ st w, f.toSValue.Wraps st w → cap st w) (hv : Valid cap σ) (hu : Unique σ)
    (hload : deserializeFunctions al fs σ = .ok (keys, σ')) : Valid cap σ' ∧ Unique σ' := by
  induction fs generalizing σ keys with
  | nil =>
    cases hload
    exact ⟨hv, hu⟩
  | cons f fs ih =>
    obtain ⟨⟨key, σ₁⟩, heq, -⟩ := bind_eq_ok.mp hload
    obtain ⟨keys', hrest, -⟩ := (deserializeFunctions_cons heq).mp hload
    obtain ⟨hv₁, hu₁⟩ := deserializeFunction_valid (hfs f List.mem_cons_self)
      (hcap f List.mem_cons_self) hv heq
    exact ih (fun g hg => hfs g (List.mem_cons_of_mem _ hg))
      (fun g hg => hcap g (List.mem_cons_of_mem _ hg)) hv₁ (hu₁ hu) hrest

/-- Sound hooks load. -/
theorem deserializeFunctions_returns (al : Allocator) (hv : Valid cap σ)
    (hfs : ∀ f ∈ fs, f.toSValue.Sound cap) :
    ∃ keys σ', deserializeFunctions al fs σ = .ok (keys, σ') := by
  induction fs generalizing σ with
  | nil => exact ⟨[], σ, rfl⟩
  | cons f fs ih =>
    obtain ⟨key, σ₁, heq, hv₁, -⟩ :=
      deserializeFunction_grown al f (hfs f List.mem_cons_self) σ hv
    obtain ⟨keys, σ', hrest⟩ := ih hv₁ fun g hg => hfs g (List.mem_cons_of_mem _ hg)
    exact ⟨key :: keys, σ', (deserializeFunctions_cons heq).mpr ⟨keys, hrest, rfl⟩⟩

/-- A hook with wrappers under scalar keys only has a sound tree. -/
theorem sound_of_serializes {p : Registration} {f : SFunction} (hf : p.Serializes f)
    (hs : ∀ a k w, p.WrapsAt a k w → k.Scalar)
    (hcap : ∀ st w, f.toSValue.Wraps st w → cap st w) : f.toSValue.Sound cap := by
  have hc : Consistent [p] := by
    intro q hq r hr a _ _
    rw [List.mem_singleton.mp hq, List.mem_singleton.mp hr]
  have hexp := (expands_merged hc List.mem_cons_self hf).2
  refine hexp.sound_of_wraps (fun a es ha => (merged_table_eq ha).1) fun st w hw =>
    ⟨hcap st w hw, ?_⟩
  cases st with
  | upvalue c => trivial
  | entry a key =>
    obtain ⟨es, e, hes, he, hkey, hcol⟩ := hexp.wraps hw
    obtain ⟨q, hq, hr, hqa⟩ := merged_eq_some hes
    obtain rfl := List.mem_singleton.mp hq
    exact hkey.scalar (hs a e.1 w ⟨es, e.2, hr, hqa, he, hcol⟩)

/-- **Every wrapper is found exactly where each entry is the last place of
its wrapper**, under a boolean, a number or a string without NUL bytes.
The hooks were serialised when they were registered, and they load through
one cache, into any Lua state. -/
theorem wrappers_recorded_iff (al : Allocator) (rs : List Registration) (trees : List SFunction)
    (hst : List.Forall₂ Registration.Serializes rs trees) (h₀ : Heap) :
    FindsWrappers al rs trees h₀ ↔
      ∀ p ∈ rs, ∀ a k w, p.WrapsAt a k w → k.Scalar ∧ k.NulFree ∧ LastPlace trees a k w := by
  have hser : ∀ f ∈ trees, ∃ h n a, serializeFunction h n a = .ok f := by
    intro f hf
    obtain ⟨p, -, n, hn⟩ := forall₂_mem_right hst hf
    exact ⟨p.heap, n, p.hook, hn⟩
  have hexp : ∀ f ∈ trees, ∃ G, f.toSValue.Expands G (.function f.id) := by
    intro f hf
    obtain ⟨h, n, a, hok⟩ := hser f hf
    obtain ⟨hid, hexp⟩ := serializeFunction_expands hok
    exact ⟨h.captured, hid ▸ hexp⟩
  let cap : Site → Addr → Prop := fun st w => ∃ f ∈ trees, f.toSValue.Wraps st w
  have hcap : ∀ f ∈ trees, ∀ st w, f.toSValue.Wraps st w → cap st w :=
    fun f hf st w hw => ⟨f, hf, hw⟩
  have hinv : ∀ {keys σ}, deserializeFunctions al trees (Target.start h₀) = .ok (keys, σ) →
      Valid cap σ ∧ Unique σ ∧ Walked σ (walk trees) := by
    intro keys σ hload
    obtain ⟨hv, hu⟩ := deserializeFunctions_valid hser hcap (Valid.start cap h₀)
      (Unique.start h₀) hload
    exact ⟨hv, hu, deserializeFunctions_walked (Walked.start h₀) hload⟩
  constructor
  · rintro ⟨keys, σ, hload, hfound⟩ p hp a k w hwraps
    obtain ⟨hv, hu, hw⟩ := hinv hload
    obtain ⟨es, s, -, hes, hmem, -⟩ := id hwraps
    exact lastPlace_of_found hv hu hw hexp (captured_keyable a es hes _ hmem)
      (hfound p hp a k w hwraps)
  · intro hall
    have hsound : ∀ f ∈ trees, f.toSValue.Sound cap := by
      intro f hf
      obtain ⟨p, hp, hpf⟩ := forall₂_mem_right hst hf
      exact sound_of_serializes hpf (fun a k w hw => (hall p hp a k w hw).1) (hcap f hf)
    obtain ⟨keys, σ, hload⟩ := deserializeFunctions_returns al (Valid.start cap h₀) hsound
    obtain ⟨hv, hu, hw⟩ := hinv hload
    refine ⟨keys, σ, hload, fun p hp a k w hwraps => ?_⟩
    obtain ⟨hs, hn, hlast⟩ := hall p hp a k w hwraps
    exact found_of_lastPlace hv hu hw hs hn hlast

/-! ### One wrapper in a table -/

/-- `local t = {[key] = collect(0)}`, and a function that returns `t`; the
table at 4 is empty, the wrapper is at 5. -/
def keyed (key : Value) (hk : key.keyable = true) : Heap :=
  [(1, .closure (.of [1] [2])), (2, .cell (.table 3)),
    (3, .table (Table.empty.insert key (.table 5) hk Value.noConfusion)), (4, .table Table.empty),
    (5, .table (wrapper (.ofNat 0)))]

/-- The serialised function. -/
def keyedTree (key : SValue) : SFunction :=
  ⟨1, ⟨[1], 1⟩, .cons 2 1 (.table 3 (.cons key (.number (.ofNat 0)) (some 5) .nil)) none .nil⟩

/-- Its one wrapper. -/
theorem wrapsAt_keyed {key : Value} {hk : key.keyable = true} {a w : Addr} {k : Value}
    (h : Registration.WrapsAt ⟨keyed key hk, 1⟩ a k w) : a = 3 ∧ k = key ∧ w = 5 := by
  obtain ⟨es, s, -, hes, hmem, hw⟩ := h
  have ha : a ∈ [1, 2, 3, 4, 5] := mem_keys_of_captured hes
  simp only [List.mem_cons, List.not_mem_nil, or_false] at ha
  rcases ha with rfl | rfl | rfl | rfl | rfl
  · cases hes
  · cases hes
  · cases hes
    obtain ⟨rfl, rfl⟩ := Prod.mk.inj (List.mem_singleton.mp hmem)
    exact ⟨rfl, rfl, (Option.some.inj hw).symm⟩
  · cases hes
    cases hmem
  · cases hes
    obtain ⟨rfl, rfl⟩ := Prod.mk.inj (List.mem_singleton.mp hmem)
    cases hw

/-- Under a string it is found. -/
theorem wrappers_recorded_iff_string :
    FindsWrappers .above [⟨keyed (.string [97]) rfl, 1⟩] [keyedTree (.string [97])] [] :=
  (wrappers_recorded_iff .above [⟨keyed (.string [97]) rfl, 1⟩] [keyedTree (.string [97])]
    (.cons ⟨3, rfl⟩ .nil) []).mpr (by
      intro p hp a k w hw
      obtain rfl := List.mem_singleton.mp hp
      obtain ⟨rfl, rfl, rfl⟩ := wrapsAt_keyed hw
      exact ⟨trivial, by decide, .string [97], rfl, rfl⟩)

/-- **Under a table the load fails an assertion.** -/
theorem wrapper_under_table :
    ¬ ∀ (al : Allocator) (rs : List Registration) (trees : List SFunction),
    List.Forall₂ Registration.Serializes rs trees → ∀ h₀, FindsWrappers al rs trees h₀ := by
  intro hall
  obtain ⟨keys, σ, hok, -⟩ := hall .above [⟨keyed (.table 4) rfl, 1⟩] [keyedTree (.table 4 .nil)]
    (.cons ⟨3, rfl⟩ .nil) []
  have hfail : deserializeFunctions .above [keyedTree (.table 4 .nil)] (Target.start []) =
      .error .assertion := rfl
  rw [hfail] at hok
  cases hok

end Script

end Rushit
