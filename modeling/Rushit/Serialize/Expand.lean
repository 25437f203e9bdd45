import Rushit.Common.Acyclic
import Rushit.Common.Fold
import Rushit.Serialize.Extend
import Mathlib.Data.List.TakeWhile
/-!
# What the serialiser makes of a graph

A tree returned by `serialize_object` is the expansion of the captured
graph from the value given (`Expands`): every path from the value is
spelt out, and each object and cell met on the way is tagged with its
address. The converse needs the graph to be well-founded from the value,
since nothing stops the recursion on the way round a cycle.
-/

namespace Rushit

namespace Serialize

open Lua

/-! ## Expansions -/

mutual

/-- The tree is the expansion of `G` from a value. -/
def SValue.Expands (G : Graph) : SValue → Value → Prop
  | .boolean b, v => v = .boolean b
  | .number n, v => v = .number n
  | .string s, v => ∃ s', v = .string s' ∧ s = strdup s'
  | .function id code upvalues, v =>
    v = .function id ∧ ∃ c, G id = some (.closure c) ∧ code = c.proto ∧ upvalues.Expands G c.uvs
  | .table id entries, v =>
    v = .table id ∧ ∃ es, G id = some (.table es) ∧ entries.Expands G es

/-- The upvalue list of the given cells, last cell first. -/
def SUpvalues.Expands (G : Graph) : SUpvalues → List Addr → Prop
  | .nil, xs => xs = []
  | .cons id number value collectorId next, xs =>
    ∃ ys s, xs = ys ++ [id] ∧ number = ys.length + 1 ∧ G id = some (.cell s) ∧
      value.Expands G s.value ∧ collectorId = s.collector ∧ next.Expands G ys

/-- The entry list of the given entries, last entry first. -/
def SEntries.Expands (G : Graph) : SEntries → List (Value × Slot) → Prop
  | .nil, es => es = []
  | .cons key value collectorId next, es =>
    ∃ ds k s, es = ds ++ [(k, s)] ∧ key.Expands G k ∧ value.Expands G s.value ∧
      collectorId = s.collector ∧ next.Expands G ds

end

variable {h : Heap} {G : Graph} {rec rec' : Value → Except Fault SValue}

/-! ## What the calls return -/

theorem captured_table {a : Addr} {t : Table} (ht : h.lookup a = some (.table t)) :
    h.captured a = some (.table (t.entries.map fun e => (e.1, h.unwrapCollectorMaybe e.2))) := by
  simp [Heap.captured, ht]

theorem captured_closure {a : Addr} {c : Closure} :
    h.captured a = some (.closure c) ↔ h.lookup a = some (.closure c) := by
  unfold Heap.captured
  split <;> simp_all

theorem captured_cell {a : Addr} {v : Value} (hv : h.lookup a = some (.cell v)) :
    h.captured a = some (.cell (h.unwrapCollectorMaybe v)) := by
  simp [Heap.captured, hv]

/-- Every entry list the loop returns continues the one it was given. -/
theorem dumpTableEntries_expands (hrec : ∀ v t, rec v = .ok t → t.Expands G v)
    {entries : List (Value × Value)} {es : SEntries}
    (hok : dumpTableEntries h rec entries = .ok es) :
    es.Expands G (entries.map fun e => (e.1, h.unwrapCollectorMaybe e.2)) := by
  -- the list grows at its head, so what is already on it is carried along
  suffices H : ∀ (entries : List (Value × Value)) (head es : SEntries) (ds : List (Value × Slot)),
      head.Expands G ds →
      entries.foldlM (fun head e => do
        let slot := h.unwrapCollectorMaybe e.2
        let value ← rec slot.value
        let key ← rec e.1
        pure (SEntries.cons key value slot.collector head)) head = .ok es →
      es.Expands G (ds ++ entries.map fun e => (e.1, h.unwrapCollectorMaybe e.2)) from
    H entries .nil es [] rfl hok
  intro entries
  induction entries with
  | nil =>
    intro head es ds hhead hok
    obtain rfl : head = es := by simpa [pure, Except.pure] using hok
    simpa using hhead
  | cons e entries ih =>
    intro head es ds hhead hok
    rw [List.foldlM_cons, bind_eq_ok] at hok
    obtain ⟨head', hstep, hok⟩ := hok
    simp only [bind_eq_ok] at hstep
    obtain ⟨value, hvalue, key, hkey, hcons⟩ := hstep
    obtain rfl : SEntries.cons key value _ head = head' := by
      simpa [pure, Except.pure] using hcons
    have hcons : (SEntries.cons key value (h.unwrapCollectorMaybe e.2).collector head).Expands G
        (ds ++ [(e.1, h.unwrapCollectorMaybe e.2)]) :=
      ⟨ds, _, _, rfl, hrec _ _ hkey, hrec _ _ hvalue, rfl, hhead⟩
    simpa using ih _ es _ hcons hok

theorem serializeUpvalues_expands (hrec : ∀ v t, rec v = .ok t → t.Expands h.captured v)
    {xs ys : List Addr} {i : ℕ} {list us : SUpvalues} (hlist : list.Expands h.captured ys)
    (hi : i = ys.length + 1) (hok : serializeUpvalues h rec xs i list = .ok us) :
    us.Expands h.captured (ys ++ xs) := by
  induction xs generalizing ys i list with
  | nil =>
    obtain rfl : list = us := by simpa [serializeUpvalues, pure, Except.pure] using hok
    simpa using hlist
  | cons x xs ih =>
    unfold serializeUpvalues at hok
    split at hok
    · rename_i v hv
      rw [bind_eq_ok] at hok
      obtain ⟨value, hvalue, hok⟩ := hok
      have hcell := captured_cell (Heap.cell?_eq_some.mp hv)
      have hcons : (SUpvalues.cons x i value (h.unwrapCollectorMaybe v).collector list).Expands
          h.captured (ys ++ [x]) := ⟨ys, _, rfl, hi, hcell, hrec _ _ hvalue, rfl, hlist⟩
      simpa using ih hcons (by simp [hi]) hok
    · cases hok

theorem serializeFunctionWith_expands (hrec : ∀ v t, rec v = .ok t → t.Expands h.captured v)
    {a : Addr} {f : SFunction} (hok : serializeFunctionWith h rec a = .ok f) :
    f.id = a ∧ f.toSValue.Expands h.captured (.function a) := by
  unfold serializeFunctionWith at hok
  split at hok
  · rename_i c hc
    rw [bind_eq_ok] at hok
    obtain ⟨us, hus, hok⟩ := hok
    obtain rfl : SFunction.mk a c.proto us = f := by simpa [pure, Except.pure] using hok
    have hnil : SUpvalues.nil.Expands h.captured [] := rfl
    have hexp := serializeUpvalues_expands hrec hnil rfl hus
    exact ⟨rfl, rfl, c, captured_closure.mpr hc, rfl, hexp⟩
  · cases hok
  · cases hok

/-- **What `serialize_object` returns is the expansion of the captured
graph.** -/
theorem serializeObject_expands {n : ℕ} {v : Value} {t : SValue}
    (hok : serializeObject h n v = .ok t) : t.Expands h.captured v := by
  induction n generalizing v t with
  | zero => cases hok
  | succ n ih =>
    have hrec : ∀ u t, serializeObject h n u = .ok t → t.Expands h.captured u := fun _ _ => ih
    unfold serializeObject at hok
    -- what has no tree ends in an assertion
    cases v with
    | nil => cases hok
    | boolean b =>
      obtain rfl : SValue.boolean b = t := by simpa [pure, Except.pure] using hok
      rfl
    | number x =>
      obtain rfl : SValue.number x = t := by simpa [pure, Except.pure] using hok
      rfl
    | string s =>
      obtain rfl : SValue.string (strdup s) = t := by simpa [pure, Except.pure] using hok
      exact ⟨s, rfl, rfl⟩
    | table a =>
      simp only [serializeTable] at hok
      split at hok
      · rename_i u hu
        rw [bind_eq_ok] at hok
        obtain ⟨es, hes, hok⟩ := hok
        obtain rfl : SValue.table a es = t := by simpa [pure, Except.pure] using hok
        exact ⟨rfl, _, captured_table (Heap.table?_eq_some.mp hu),
          dumpTableEntries_expands hrec hes⟩
      · cases hok
    | function a =>
      rw [bind_eq_ok] at hok
      obtain ⟨f, hf, hok⟩ := hok
      obtain rfl : f.toSValue = t := by simpa [pure, Except.pure] using hok
      exact (serializeFunctionWith_expands hrec hf).2
    | userdata a => cases hok
    | thread a => cases hok
    | lightuserdata a => cases hok
    | cdata a => cases hok

theorem serializeFunction_expands {n : ℕ} {a : Addr} {f : SFunction}
    (hok : serializeFunction h n a = .ok f) :
    f.id = a ∧ f.toSValue.Expands h.captured (.function a) :=
  serializeFunctionWith_expands (fun _ _ hu => serializeObject_expands hu) hok

/-! ## Expansions and reachability -/

mutual

/-- **A finite expansion has no infinite path under it.** -/
theorem SValue.Expands.founded {t : SValue} {v : Value} (ht : t.Expands G v) {a : Addr}
    (ha : v.ref? = some a) : G.Founded a := by
  cases t with
  | boolean b => obtain rfl : v = _ := ht; cases ha
  | number n => obtain rfl : v = _ := ht; cases ha
  | string s => obtain ⟨s', rfl, -⟩ := ht; cases ha
  | function id code us =>
    obtain ⟨rfl, c, hc, -, hus⟩ := ht
    obtain rfl : id = a := by simpa [Value.ref?] using ha
    refine ⟨_, fun x hx => ?_⟩
    obtain ⟨n, hn, hmem⟩ := hx
    obtain rfl : Node.closure c = n := by simpa [hc] using hn
    exact hus.founded x hmem
  | table id es =>
    obtain ⟨rfl, ents, hents, hes⟩ := ht
    obtain rfl : id = a := by simpa [Value.ref?] using ha
    refine ⟨_, fun x hx => ?_⟩
    obtain ⟨n, hn, hmem⟩ := hx
    obtain rfl : Node.table ents = n := by simpa [hents] using hn
    obtain ⟨e, he, hx⟩ := List.mem_flatMap.mp hmem
    rcases List.mem_append.mp hx with hx | hx
    · exact (hes.founded e he).1 x (Option.mem_toList.mp hx)
    · exact (hes.founded e he).2 x (Option.mem_toList.mp hx)

theorem SUpvalues.Expands.founded {us : SUpvalues} {xs : List Addr} (hus : us.Expands G xs) :
    ∀ x ∈ xs, G.Founded x := by
  cases us with
  | nil => obtain rfl : xs = _ := hus; simp
  | cons id number value collectorId next =>
    obtain ⟨ys, s, rfl, -, hid, hvalue, -, hnext⟩ := hus
    intro x hx
    rcases List.mem_append.mp hx with hx | hx
    · exact hnext.founded x hx
    · rw [List.mem_singleton.mp hx]
      refine ⟨_, fun y hy => ?_⟩
      obtain ⟨n, hn, hmem⟩ := hy
      obtain rfl : Node.cell s = n := by simpa [hid] using hn
      exact hvalue.founded (Option.mem_toList.mp hmem)

theorem SEntries.Expands.founded {es : SEntries} {ents : List (Value × Slot)}
    (hes : es.Expands G ents) : ∀ e ∈ ents,
      (∀ b, e.1.ref? = some b → G.Founded b) ∧ ∀ b, e.2.value.ref? = some b → G.Founded b := by
  cases es with
  | nil => obtain rfl : ents = _ := hes; simp
  | cons key value collectorId next =>
    obtain ⟨ds, k, s, rfl, hkey, hvalue, -, hnext⟩ := hes
    intro e he
    rcases List.mem_append.mp he with he | he
    · exact hnext.founded e he
    · rw [List.mem_singleton.mp he]
      exact ⟨fun b hb => hkey.founded hb, fun b hb => hvalue.founded hb⟩

end

mutual

/-- A cell named in the expansion of a value is reached from the value. -/
theorem SValue.Expands.reach_of_mentions {t : SValue} {v : Value} (ht : t.Expands G v) {c : Addr}
    (hc : t.Mentions c) : G.ReachFrom v c := by
  cases t with
  | boolean b => exact hc.elim
  | number n => exact hc.elim
  | string s => exact hc.elim
  | function id code us =>
    obtain ⟨rfl, d, hd, -, hus⟩ := ht
    obtain ⟨x, hx, hxc⟩ := hus.reach_of_mentions hc
    exact Graph.reachFrom_function (.head (Graph.edge_upvalue hd hx) hxc)
  | table id es =>
    obtain ⟨rfl, ents, hents, hes⟩ := ht
    obtain ⟨e, he, hec⟩ := hes.reach_of_mentions hc
    exact Graph.reachFrom_table
      (hec.elim (Graph.reach_of_key hents he) (Graph.reach_of_entry hents he))

theorem SUpvalues.Expands.reach_of_mentions {us : SUpvalues} {xs : List Addr}
    (hus : us.Expands G xs) {c : Addr} (hc : us.Mentions c) : ∃ x ∈ xs, G.Reach x c := by
  cases us with
  | nil => exact hc.elim
  | cons id number value collectorId next =>
    obtain ⟨ys, s, rfl, -, hid, hvalue, -, hnext⟩ := hus
    rcases hc with rfl | hc | hc
    · exact ⟨c, by simp, .refl⟩
    · exact ⟨id, by simp, Graph.reach_of_cell hid (hvalue.reach_of_mentions hc)⟩
    · obtain ⟨x, hx, hxc⟩ := hnext.reach_of_mentions hc
      exact ⟨x, List.mem_append_left _ hx, hxc⟩

theorem SEntries.Expands.reach_of_mentions {es : SEntries} {ents : List (Value × Slot)}
    (hes : es.Expands G ents) {c : Addr} (hc : es.Mentions c) :
    ∃ e ∈ ents, G.ReachFrom e.1 c ∨ G.ReachFrom e.2.value c := by
  cases es with
  | nil => exact hc.elim
  | cons key value collectorId next =>
    obtain ⟨ds, k, s, rfl, hkey, hvalue, -, hnext⟩ := hes
    rcases hc with hc | hc | hc
    · exact ⟨(k, s), by simp, .inl (hkey.reach_of_mentions hc)⟩
    · exact ⟨(k, s), by simp, .inr (hvalue.reach_of_mentions hc)⟩
    · obtain ⟨e, he, hec⟩ := hnext.reach_of_mentions hc
      exact ⟨e, List.mem_append_left _ he, hec⟩

end

mutual

/-- **The expansion depends on what is reached only**, and what is
reached may be added to. -/
theorem SValue.Expands.mono {G' : Graph} {t : SValue} {v : Value} (ht : t.Expands G v)
    (hG : ∀ b n, G.ReachFrom v b → G b = some n → G' b = some n) : t.Expands G' v := by
  cases t with
  | boolean b => exact ht
  | number n => exact ht
  | string s => exact ht
  | function id code us =>
    obtain ⟨rfl, c, hc, hcode, hus⟩ := ht
    refine ⟨rfl, c, hG id _ (Graph.reachFrom_function .refl) hc, hcode, ?_⟩
    refine hus.mono fun x hx b n hb => hG b n (Graph.reachFrom_function ?_)
    exact .head (Graph.edge_upvalue hc hx) hb
  | table id es =>
    obtain ⟨rfl, ents, hents, hes⟩ := ht
    refine ⟨rfl, ents, hG id _ (Graph.reachFrom_table .refl) hents, ?_⟩
    exact hes.mono fun e he b n hb => hG b n (Graph.reachFrom_table
      (hb.elim (Graph.reach_of_key hents he) (Graph.reach_of_entry hents he)))

theorem SUpvalues.Expands.mono {G' : Graph} {us : SUpvalues} {xs : List Addr}
    (hus : us.Expands G xs)
    (hG : ∀ x ∈ xs, ∀ b n, G.Reach x b → G b = some n → G' b = some n) :
    us.Expands G' xs := by
  cases us with
  | nil => exact hus
  | cons id number value collectorId next =>
    obtain ⟨ys, s, rfl, hn, hid, hvalue, hcol, hnext⟩ := hus
    refine ⟨ys, s, rfl, hn, hG id (by simp) id _ .refl hid, ?_, hcol, ?_⟩
    · exact hvalue.mono fun b n hb => hG id (by simp) b n (Graph.reach_of_cell hid hb)
    · exact hnext.mono fun x hx => hG x (List.mem_append_left _ hx)

theorem SEntries.Expands.mono {G' : Graph} {es : SEntries} {ents : List (Value × Slot)}
    (hes : es.Expands G ents)
    (hG : ∀ e ∈ ents, ∀ b n, G.ReachFrom e.1 b ∨ G.ReachFrom e.2.value b → G b = some n →
      G' b = some n) : es.Expands G' ents := by
  cases es with
  | nil => exact hes
  | cons key value collectorId next =>
    obtain ⟨ds, k, s, rfl, hkey, hvalue, hcol, hnext⟩ := hes
    refine ⟨ds, k, s, rfl, ?_, ?_, hcol, ?_⟩
    · exact hkey.mono fun b n hb => hG (k, s) (by simp) b n (.inl hb)
    · exact hvalue.mono fun b n hb => hG (k, s) (by simp) b n (.inr hb)
    · exact hnext.mono fun e he => hG e (List.mem_append_left _ he)

end

/-! ## Expansions load -/

/-- What loading asks of a graph: keys that can be keys, each in one
entry, and wrappers under scalar keys only. -/
structure Regular (G : Graph) : Prop where
  keyable : ∀ a es, G a = some (.table es) → ∀ e ∈ es, e.1.keyable = true
  nodup : ∀ a es, G a = some (.table es) → (es.map Prod.fst).Nodup
  scalarKeys : ∀ a n, G a = some n → n.ScalarKeys

/-- The sites of a graph that hold wrappers. -/
def capture (G : Graph) : Site → Addr → Prop
  | .upvalue c, w => ∃ s, G c = some (.cell s) ∧ s.collector = some w
  | .entry a key, w => ∃ es e, G a = some (.table es) ∧ e ∈ es ∧ key.Expands G e.1 ∧
      e.2.collector = some w

theorem strdup_strdup (s : LuaString) : strdup (strdup s) = strdup s :=
  List.takeWhile_idem

/-- The expansion of a scalar key is copied as it is. -/
theorem SValue.Expands.scalar {t : SValue} {v : Value} (ht : t.Expands G v) (hv : v.Scalar) :
    t.Scalar := by
  cases t with
  | boolean b => trivial
  | number n => trivial
  | string s => obtain ⟨s', rfl, rfl⟩ := ht; exact strdup_strdup s'
  | function id code us => obtain ⟨rfl, -⟩ := ht; exact hv.elim
  | table id es => obtain ⟨rfl, -⟩ := ht; exact hv.elim

theorem SValue.Expands.keyable {t : SValue} {v : Value} (ht : t.Expands G v)
    (hv : v.keyable = true) : t.keyable = true := by
  cases t with
  | number n => obtain rfl : v = _ := ht; cases n <;> simp_all [SValue.keyable, Value.keyable]
  | boolean b => rfl
  | string s => rfl
  | function id code us => rfl
  | table id es => rfl

/-- No cell is named in the expansion of its own content. -/
theorem not_mentions_self {t : SValue} {x : Addr} {s : Slot} (ht : t.Expands G s.value)
    (hx : G x = some (.cell s)) : ¬ t.Mentions x := by
  intro hm
  obtain ⟨a, ha, hax⟩ := ht.reach_of_mentions hm
  have hedge : G.Edge x a := ⟨_, hx, by simp [Node.children, ha]⟩
  exact not_transGen_of_acc (acc_of_reach (ht.founded ha) hax) (Relation.TransGen.head' hedge hax)

mutual

/-- The wrappers of an expansion are those of the graph. -/
theorem SValue.Expands.wraps {t : SValue} {v : Value} (ht : t.Expands G v) {s : Site} {w : Addr}
    (hw : t.Wraps s w) : capture G s w := by
  cases t with
  | boolean b => exact hw.elim
  | number n => exact hw.elim
  | string s => exact hw.elim
  | function id code us =>
    obtain ⟨-, c, -, -, hus⟩ := ht
    exact hus.wraps hw
  | table id es =>
    obtain ⟨-, ents, hents, hes⟩ := ht
    exact hes.wraps hents (fun e he => he) hw

theorem SUpvalues.Expands.wraps {us : SUpvalues} {xs : List Addr} (hus : us.Expands G xs)
    {s : Site} {w : Addr} (hw : us.Wraps s w) : capture G s w := by
  cases us with
  | nil => exact hw.elim
  | cons id number value collectorId next =>
    obtain ⟨ys, u, rfl, -, hid, hvalue, rfl, hnext⟩ := hus
    rcases hw with ⟨rfl, hw⟩ | hw | hw
    · exact ⟨u, hid, hw⟩
    · exact hvalue.wraps hw
    · exact hnext.wraps hw

theorem SEntries.Expands.wraps {es : SEntries} {ents all : List (Value × Slot)} {id : Addr}
    (hes : es.Expands G ents) (hall : G id = some (.table all)) (hsub : ∀ e ∈ ents, e ∈ all)
    {s : Site} {w : Addr} (hw : es.Wraps s w id) : capture G s w := by
  cases es with
  | nil => exact hw.elim
  | cons key value collectorId next =>
    obtain ⟨ds, k, u, rfl, hkey, hvalue, rfl, hnext⟩ := hes
    rcases hw with ⟨rfl, hw⟩ | hw | hw | hw
    · exact ⟨all, (k, u), hall, hsub _ (by simp), hkey, hw⟩
    · exact hkey.wraps hw
    · exact hvalue.wraps hw
    · exact hnext.wraps hall (fun e he => hsub e (List.mem_append_left _ he)) hw

end

section Sound

variable {cap : Site → Addr → Prop}

mutual

/-- **An expansion is sound** if its wrappers stand where `cap` allows
them, and can be recorded. -/
theorem SValue.Expands.sound_of_wraps
    (hk : ∀ a es, G a = some (.table es) → ∀ e ∈ es, e.1.keyable = true)
    {t : SValue} {v : Value} (ht : t.Expands G v)
    (hcap : ∀ s w, t.Wraps s w → cap s w ∧ s.Scalar) : t.Sound cap := by
  cases t with
  | boolean b => trivial
  | number n => trivial
  | string s => trivial
  | function id code us =>
    obtain ⟨-, c, -, rfl, hus⟩ := ht
    have hsound := hus.sound_of_wraps hk hcap
    rw [c.size_eq] at hsound
    exact hsound
  | table id es =>
    obtain ⟨-, ents, hents, hes⟩ := ht
    exact hes.sound_of_wraps hk hents (fun e he => he) hcap

theorem SUpvalues.Expands.sound_of_wraps
    (hk : ∀ a es, G a = some (.table es) → ∀ e ∈ es, e.1.keyable = true)
    {us : SUpvalues} {xs : List Addr}
    (hus : us.Expands G xs) (hcap : ∀ s w, us.Wraps s w → cap s w ∧ s.Scalar) :
    us.Sound cap xs.length := by
  cases us with
  | nil => obtain rfl : xs = _ := hus; rfl
  | cons id number value collectorId next =>
    obtain ⟨ys, s, rfl, rfl, hid, hvalue, rfl, hnext⟩ := hus
    exact ⟨ys.length, by simp, by simp,
      hvalue.sound_of_wraps hk fun u w hw => hcap u w (.inr (.inl hw)),
      not_mentions_self hvalue hid, fun w hw => (hcap _ w (.inl ⟨rfl, hw⟩)).1,
      hnext.sound_of_wraps hk fun u w hw => hcap u w (.inr (.inr hw))⟩

theorem SEntries.Expands.sound_of_wraps
    (hk : ∀ a es, G a = some (.table es) → ∀ e ∈ es, e.1.keyable = true)
    {es : SEntries} {ents all : List (Value × Slot)}
    {id : Addr} (hes : es.Expands G ents) (hall : G id = some (.table all))
    (hsub : ∀ e ∈ ents, e ∈ all) (hcap : ∀ s w, es.Wraps s w id → cap s w ∧ s.Scalar) :
    es.Sound cap id := by
  cases es with
  | nil => trivial
  | cons key value collectorId next =>
    obtain ⟨ds, k, s, rfl, hkey, hvalue, rfl, hnext⟩ := hes
    have hmem : (k, s) ∈ all := hsub _ (by simp)
    refine ⟨hkey.sound_of_wraps hk fun u w hw => hcap u w (.inr (.inl hw)),
      hkey.keyable (hk id all hall _ hmem),
      hvalue.sound_of_wraps hk fun u w hw => hcap u w (.inr (.inr (.inl hw))), fun hs => ?_,
      fun w hw => (hcap _ w (.inl ⟨rfl, hw⟩)).1,
      hnext.sound_of_wraps hk hall (fun e he => hsub e (List.mem_append_left _ he))
        fun u w hw => hcap u w (.inr (.inr (.inr hw)))⟩
    obtain ⟨w, hw⟩ := Option.ne_none_iff_exists'.mp hs
    exact (hcap _ w (.inl ⟨rfl, hw⟩)).2

end

end Sound

/-- A wrapper under a scalar key can be recorded. -/
theorem capture_scalar (hG : ∀ a n, G a = some n → n.ScalarKeys) {s : Site} {w : Addr}
    (h : capture G s w) : s.Scalar := by
  cases s with
  | upvalue c => trivial
  | entry a k =>
    obtain ⟨es, e, hes, he, hk, hw⟩ := h
    exact hk.scalar (hG a _ hes e he (by rw [hw]; simp))

theorem SValue.Expands.sound (hG : Regular G) {t : SValue} {v : Value} (ht : t.Expands G v) :
    t.Sound (capture G) :=
  ht.sound_of_wraps hG.keyable fun _ _ hw =>
    ⟨ht.wraps hw, capture_scalar hG.scalarKeys (ht.wraps hw)⟩

theorem SUpvalues.Expands.sound (hG : Regular G) {us : SUpvalues} {xs : List Addr}
    (hus : us.Expands G xs) : us.Sound (capture G) xs.length :=
  hus.sound_of_wraps hG.keyable fun _ _ hw =>
    ⟨hus.wraps hw, capture_scalar hG.scalarKeys (hus.wraps hw)⟩

theorem SEntries.Expands.sound (hG : Regular G) {es : SEntries} {ents all : List (Value × Slot)}
    {id : Addr} (hes : es.Expands G ents) (hall : G id = some (.table all))
    (hsub : ∀ e ∈ ents, e ∈ all) : es.Sound (capture G) id :=
  hes.sound_of_wraps hG.keyable hall hsub fun _ _ hw =>
    ⟨hes.wraps hall hsub hw, capture_scalar hG.scalarKeys (hes.wraps hall hsub hw)⟩

end Serialize

end Rushit
