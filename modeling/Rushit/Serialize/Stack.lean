import Rushit.Serialize.Machine
/-!
# What serialisation leaves on the stack

The functions of `serialize.c` call by call are those of
`Serialize.Model`: `pushObject_eq`, `setSharedUpvalue_eq` and
`serializeObject_eq` say so for every value, every cache and every
stack, faults included. So `push_object` leaves one value on top of what
was there, and `set_shared_upvalue` and `serialize_value` leave what was
there.
-/

namespace Rushit

namespace Serialize

open Lua

variable {al : Allocator} {σ : Target} {s : Stack} {v : Value} {a f : Addr}

namespace Machine

/-- The machine with what a call returned on top of its stack. -/
def pushed (s : Stack) (r : Value × Target) : Machine := ⟨r.2, r.1 :: s⟩

/-- The machine with its stack as it was. -/
def kept (s : Stack) (σ : Target) : Machine := ⟨σ, s⟩

/-! ## Loading -/

theorem cacheObject_eq (ha : v.ref? = some a) :
    cacheObject ⟨σ, v :: s⟩ = pure (a, ⟨σ.cacheObject v a, v :: s⟩) := by
  have hid : topointer ⟨σ, v :: s⟩ 1 = pure a := by
    change orFault .api v.ref? = pure a
    rw [ha]; rfl
  rw [cacheObject, hid]
  rfl

theorem lookupAndFetchObject_none {key : Addr} (h : σ.lookupAndFetchObject key = none) :
    lookupAndFetchObject ⟨σ, s⟩ key = pure (false, ⟨σ, s⟩) := by
  unfold lookupAndFetchObject
  rw [Option.map_eq_none_iff.mp h]

theorem lookupAndFetchObject_some {key : Addr} (h : σ.lookupAndFetchObject key = some v) :
    lookupAndFetchObject ⟨σ, s⟩ key = pure (true, ⟨σ, v :: s⟩) := by
  obtain ⟨objectId, hkey, rfl⟩ := Option.map_eq_some_iff.mp h
  unfold lookupAndFetchObject
  rw [hkey]
  rfl

theorem newFunction_eq (id : Addr) (code : Proto) :
    newFunction al ⟨σ, s⟩ id code =
      pure ((Serialize.newFunction al id code σ).1,
        ⟨(Serialize.newFunction al id code σ).2,
          .function (Serialize.newFunction al id code σ).1 :: s⟩) := by
  rw [newFunction, loadFunctionBytecode, cacheObject_eq rfl]
  rfl

theorem newTable_eq (id : Addr) :
    newTable al ⟨σ, s⟩ id =
      pure ((Serialize.newTable al id σ).1,
        ⟨(Serialize.newTable al id σ).2, .table (Serialize.newTable al id σ).1 :: s⟩) := by
  rw [newTable, newtable, cacheObject_eq rfl]
  rfl

theorem rawset_eq {t : Addr} {k : Value} :
    rawset ⟨σ, v :: k :: .table t :: s⟩ =
      (fun h => kept (.table t :: s) (σ.withHeap h)) <$> orFault .api (σ.heap.rawset t k v) := by
  rw [← bind_pure_comp]
  rfl

theorem setupvalue_eq (number : ℕ) :
    setupvalue ⟨σ, v :: .function f :: s⟩ number =
      (fun h => kept (.function f :: s) (σ.withHeap h)) <$>
        orFault .assertion (σ.heap.setupvalue f number v) := by
  rw [← bind_pure_comp]
  rfl

theorem upvaluejoin_eq {g : Addr} (n m : ℕ) :
    upvaluejoin ⟨σ, .function g :: .function f :: s⟩ n m =
      (fun h => kept (.function g :: .function f :: s) (σ.withHeap h)) <$>
        orFault .api (σ.heap.upvaluejoin f n g m) := by
  rw [← bind_pure_comp]
  rfl

theorem mapCollectorMaybe_eq (key : Option Addr) (objectId : Addr) (valueKey : SValue) :
    mapCollectorMaybe ⟨σ, s⟩ key objectId valueKey =
      kept s <$> Serialize.mapCollectorMaybe σ key objectId valueKey := bind_pure_comp _ _

/-- **One upvalue**: joined with the function that is fetched for it, or
given a value of its own. -/
theorem setSharedUpvalue_of_push {push : Target → Except Fault (Value × Target)}
    {push' : Machine → Except Fault Machine}
    (hpush : ∀ σ s, push' ⟨σ, s⟩ = pushed s <$> push σ) (id : Addr) (number : ℕ)
    (collectorId : Option Addr) (σ : Target) (s : Stack) :
    Machine.setSharedUpvalue ⟨σ, .function f :: s⟩ f id number collectorId push' =
      kept (.function f :: s) <$> Serialize.setSharedUpvalue f id number collectorId push σ := by
  unfold Machine.setSharedUpvalue Serialize.setSharedUpvalue
  cases σ.lookupUpvalue id with
  | some m =>
    dsimp only
    change (upvaluejoin ⟨σ, σ.fetchObject m.1 :: .function f :: s⟩ number m.2 >>= fun M =>
      M.pop 1) = _
    cases σ.fetchObject m.1 with
    | function g =>
      rw [upvaluejoin_eq, bind_map_left, map_bind]
      rfl
    | _ => rfl
  | none =>
    simp only [setUpvalue, hpush, map_bind, bind_map_left, bind_assoc, pushed, setupvalue_eq]
    refine bind_congr fun r => bind_congr fun h => ?_
    exact mapCollectorMaybe_eq collectorId f _

mutual

/-- `push_object`. -/
theorem pushObject_pushed : ∀ (v : SValue) (σ : Target) (s : Stack),
    Machine.pushObject al v ⟨σ, s⟩ = pushed s <$> Serialize.pushObject al v σ
  | .boolean b, σ, s => rfl
  | .number n, σ, s => rfl
  | .string t, σ, s => rfl
  | .function id code upvalues, σ, s => by
    rw [Machine.pushObject, Serialize.pushObject]
    cases h : σ.lookupAndFetchObject id with
    | some v => rw [lookupAndFetchObject_some h]; rfl
    | none =>
      simp only [lookupAndFetchObject_none h, pure_bind, Bool.false_eq_true, if_false,
        newFunction_eq]
      rw [setSharedUpvalues_kept, map_bind, map_eq_pure_bind]
      rfl
  | .table id entries, σ, s => by
    rw [Machine.pushObject, Serialize.pushObject]
    cases h : σ.lookupAndFetchObject id with
    | some v => rw [lookupAndFetchObject_some h]; rfl
    | none =>
      simp only [lookupAndFetchObject_none h, pure_bind, Bool.false_eq_true, if_false, newTable_eq]
      rw [pushEntries_kept, map_bind, map_eq_pure_bind]
      rfl

/-- The loop of `push_function`. -/
theorem setSharedUpvalues_kept : ∀ (us : SUpvalues) (f : Addr) (σ : Target) (s : Stack),
    Machine.setSharedUpvalues al f us ⟨σ, .function f :: s⟩ =
      kept (.function f :: s) <$> Serialize.setSharedUpvalues al f us σ
  | .nil, f, σ, s => rfl
  | .cons id number value collectorId next, f, σ, s => by
    rw [Machine.setSharedUpvalues, Serialize.setSharedUpvalues,
      setSharedUpvalue_of_push (pushObject_pushed value), bind_map_left, map_bind]
    exact bind_congr fun σ' => setSharedUpvalues_kept next f σ' s

/-- The loop of `push_table`: key and value come on top of the table,
and are taken to be stored. -/
theorem pushEntries_kept : ∀ (es : SEntries) (t : Addr) (σ : Target) (s : Stack),
    Machine.pushEntries al t es ⟨σ, .table t :: s⟩ =
      kept (.table t :: s) <$> Serialize.pushEntries al t es σ
  | .nil, t, σ, s => rfl
  | .cons key value collectorId next, t, σ, s => by
    rw [Machine.pushEntries, Serialize.pushEntries, pushObject_pushed key, bind_map_left, map_bind]
    refine bind_congr fun k => ?_
    rw [map_bind]
    change (Machine.pushObject al value ⟨k.2, k.1 :: .table t :: s⟩ >>= _) = _
    rw [pushObject_pushed value, bind_map_left]
    refine bind_congr fun v => ?_
    rw [map_bind]
    change (rawset ⟨v.2, v.1 :: k.1 :: .table t :: s⟩ >>= _) = _
    rw [rawset_eq, bind_map_left]
    refine bind_congr fun h => ?_
    rw [map_bind]
    change (mapCollectorMaybe ⟨v.2.withHeap h, .table t :: s⟩ collectorId t key >>= _) = _
    rw [mapCollectorMaybe_eq, bind_map_left]
    exact bind_congr fun σ' => pushEntries_kept next t σ' s

end

/-- `push_function` leaves the function. -/
theorem pushFunction_pushed (g : SFunction) :
    Machine.pushFunction al ⟨σ, s⟩ g =
      (fun r => (r.1, ⟨r.2, .function r.1 :: s⟩)) <$> Serialize.pushFunction al g σ := by
  simp only [Machine.pushFunction, newFunction_eq, pure_bind]
  rw [setSharedUpvalues_kept, bind_map_left, Serialize.pushFunction, map_bind]
  rfl

/-! ## Dumping -/

/-- **A wrapper is replaced by the value it wraps**, and anything else
is left. -/
theorem unwrapCollectorMaybe_eq :
    unwrapCollectorMaybe ⟨σ, v :: s⟩ = pure
      ((σ.heap.unwrapCollectorMaybe v).collector,
        ⟨σ, (σ.heap.unwrapCollectorMaybe v).value :: s⟩) := by
  cases v with
  | table w =>
    cases ht : σ.heap.table? w with
    | none => simp [unwrapCollectorMaybe, getmetafield, index, Stack.index, orFault,
        Heap.unwrapCollectorMaybe, ht]
    | some t =>
      cases hcol : t.collector with
      | false => simp [unwrapCollectorMaybe, getmetafield, index, Stack.index, orFault,
          Heap.unwrapCollectorMaybe, ht, hcol]
      | true =>
        have hfield : getmetafield ⟨σ, .table w :: s⟩ =
            pure (true, ⟨σ, .boolean true :: .table w :: s⟩) := by
          simp [getmetafield, index, Stack.index, orFault, push, ht, hcol]
        have hget : rawgeti ⟨σ, .table w :: s⟩ 1 = pure ⟨σ, t.rawgeti 1 :: .table w :: s⟩ := by
          simp [rawgeti, tableAt, index, Stack.index, orFault, push, ht]
        have hslot : σ.heap.unwrapCollectorMaybe (.table w) = ⟨t.rawgeti 1, some w⟩ := by
          simp [Heap.unwrapCollectorMaybe, ht, hcol]
        rw [unwrapCollectorMaybe, hfield, hslot]
        change (rawgeti ⟨σ, .table w :: s⟩ 1 >>= _) = _
        rw [hget]
        rfl
  | _ => rfl

section Traversal

variable {t : Table} {k : Value}

theorem next_of_none (ht : σ.heap.table? a = some t) (hk : t.next k = some none) :
    next ⟨σ, k :: .table a :: s⟩ = pure (false, ⟨σ, .table a :: s⟩) := by
  simp [next, tableAt, index, Stack.index, pop, Stack.pop, orFault, ht, hk]

theorem next_of_some {e : Value × Value} (ht : σ.heap.table? a = some t)
    (hk : t.next k = some (some e)) :
    next ⟨σ, k :: .table a :: s⟩ = pure (true, ⟨σ, e.2 :: e.1 :: .table a :: s⟩) := by
  simp [next, tableAt, index, Stack.index, pop, Stack.pop, push, orFault, ht, hk]

theorem turns_table (ht : σ.heap.table? a = some t) :
    turns ⟨σ, .table a :: s⟩ = t.entries.length + 1 := by
  simp [turns, Stack.index, ht]

end Traversal

section Upvalues

variable {c : Closure}

theorem getupvalue_of_none {i : ℕ} (h : σ.heap.upvalueid f i = none) :
    getupvalue ⟨σ, .function f :: s⟩ i = pure (false, ⟨σ, .function f :: s⟩) := by
  simp [getupvalue, functionAt, index, Stack.index, orFault, h]

theorem getupvalue_of_some {i : ℕ} {x : Addr} (h : σ.heap.upvalueid f i = some x) :
    getupvalue ⟨σ, .function f :: s⟩ i =
      (fun v => (true, ⟨σ, v :: .function f :: s⟩)) <$> orFault .api (σ.heap.cell? x) := by
  simp [getupvalue, functionAt, index, Stack.index, orFault, push, h]

theorem upvalueid_of_some {i : ℕ} {x : Addr} (h : σ.heap.upvalueid f i = some x) :
    upvalueid ⟨σ, v :: .function f :: s⟩ i = pure x := by
  simp [upvalueid, functionAt, index, Stack.index, orFault, h]

theorem turns_function (hc : σ.heap.lookup f = some (.closure c)) :
    turns ⟨σ, .function f :: s⟩ = c.uvs.length + 1 := by
  simp [turns, Stack.index, Heap.closure?_eq_some.mpr hc]

theorem dumpFunctionBytecode_closure (hc : σ.heap.lookup f = some (.closure c)) :
    dumpFunctionBytecode ⟨σ, .function f :: s⟩ = pure (c.proto, ⟨σ, .function f :: s⟩) := by
  simp [dumpFunctionBytecode, functionAt, index, Stack.index, push, pop, Stack.pop, orFault, hc]

end Upvalues

/-- A call on the value on top that leaves the stack as it was. -/
def Keeps (σ : Target) (rec : Value → Except Fault SValue)
    (rec' : Machine → Except Fault (SValue × Machine)) : Prop :=
  ∀ v s, rec' ⟨σ, v :: s⟩ = (·, ⟨σ, v :: s⟩) <$> rec v

variable {rec : Value → Except Fault SValue} {rec' : Machine → Except Fault (SValue × Machine)}

/-- The loop of `dump_table_entries`, from an entry on: the key stays
on top of the table, and the value is taken off again. -/
theorem dumpTableLoop_eq (hrec : Keeps σ rec rec') {t : Table} (ht : σ.heap.table? a = some t)
    {es ds : List (Value × Value)} (hes : t.entries = ds ++ es) {k : Value}
    (hk : t.next k = some es.head?) (head : SEntries) :
    dumpTableLoop rec' (es.length + 1) head ⟨σ, k :: .table a :: s⟩ =
      (·, kept (.table a :: s) σ) <$> es.foldlM (fun head e => do
        let slot := σ.heap.unwrapCollectorMaybe e.2
        let value ← rec slot.value
        let key ← rec e.1
        pure (.cons key value slot.collector head)) head := by
  induction es generalizing ds k head with
  | nil =>
    rw [dumpTableLoop, next_of_none ht hk]
    rfl
  | cons e es ih =>
    have hes' : t.entries = (ds ++ [e]) ++ es := by simp [hes]
    rw [dumpTableLoop, next_of_some ht hk, List.foldlM_cons]
    change (unwrapCollectorMaybe ⟨σ, e.2 :: e.1 :: .table a :: s⟩ >>= _) = _
    rw [unwrapCollectorMaybe_eq]
    change (rec' ⟨σ, _ :: e.1 :: .table a :: s⟩ >>= _) = _
    rw [hrec, bind_map_left, bind_assoc, map_bind]
    refine bind_congr fun value => ?_
    change (rec' ⟨σ, e.1 :: .table a :: s⟩ >>= _) = _
    rw [hrec, bind_map_left, bind_assoc, map_bind]
    exact bind_congr fun key => ih hes' (Table.next_append hes) _

theorem serializeTable_eq (hrec : Keeps σ rec rec') :
    serializeTable ⟨σ, .table a :: s⟩ rec' =
      (·, ⟨σ, .table a :: s⟩) <$> Serialize.serializeTable σ.heap rec a := by
  have hstart : serializeTable ⟨σ, .table a :: s⟩ rec' =
      dumpTableLoop rec' (turns ⟨σ, .table a :: s⟩) .nil ⟨σ, .nil :: .table a :: s⟩ >>=
        fun r => pure (.table a r.1, r.2) := rfl
  unfold Serialize.serializeTable
  cases ht : σ.heap.table? a with
  | none =>
    have hturns : turns ⟨σ, .table a :: s⟩ = 1 := by simp [turns, Stack.index, ht]
    have hnext : next ⟨σ, .nil :: .table a :: s⟩ = .error .api := by
      change (orFault .api (σ.heap.table? a) >>= _) = _
      rw [ht]
      rfl
    rw [hstart, hturns, dumpTableLoop, hnext]
    rfl
  | some t =>
    have hloop := dumpTableLoop_eq (s := s) hrec ht (List.nil_append _).symm t.next_nil .nil
    rw [hstart, turns_table ht, hloop, bind_map_left, map_bind]
    rfl

/-- The loop of `serialize_upvalues`, from an upvalue on. -/
theorem serializeUpvaluesLoop_eq (hrec : Keeps σ rec rec') {c : Closure}
    (hc : σ.heap.lookup f = some (.closure c)) {xs ys : List Addr} (hxs : c.uvs = ys ++ xs)
    (list : SUpvalues) :
    serializeUpvaluesLoop rec' (xs.length + 1) (ys.length + 1) list ⟨σ, .function f :: s⟩ =
      (·, kept (.function f :: s) σ) <$>
        Serialize.serializeUpvalues σ.heap rec xs (ys.length + 1) list := by
  induction xs generalizing ys list with
  | nil =>
    have hid : σ.heap.upvalueid f (ys.length + 1) = none := Heap.upvalueid_append hc hxs
    rw [serializeUpvaluesLoop, getupvalue_of_none hid]
    rfl
  | cons x xs ih =>
    have hid : σ.heap.upvalueid f (ys.length + 1) = some x := Heap.upvalueid_append hc hxs
    have hxs' : c.uvs = (ys ++ [x]) ++ xs := by simp [hxs]
    rw [serializeUpvaluesLoop, getupvalue_of_some hid, Serialize.serializeUpvalues]
    cases hv : σ.heap.cell? x with
    | none => rfl
    | some v =>
      change (upvalueid ⟨σ, v :: .function f :: s⟩ (ys.length + 1) >>= _) = _
      rw [upvalueid_of_some hid]
      change ((unwrapCollectorMaybe ⟨σ, v :: .function f :: s⟩ >>= _) >>= _) = _
      rw [unwrapCollectorMaybe_eq]
      change ((rec' ⟨σ, _ :: .function f :: s⟩ >>= _) >>= _) = _
      rw [hrec, bind_map_left, bind_assoc, map_bind]
      refine bind_congr fun value => ?_
      have hrest := ih hxs'
        (.cons x (ys.length + 1) value (σ.heap.unwrapCollectorMaybe v).collector list)
      rw [List.length_append] at hrest
      exact hrest

theorem serializeFunctionWith_eq (hrec : Keeps σ rec rec') :
    serializeFunctionWith ⟨σ, .function f :: s⟩ rec' =
      (·, ⟨σ, .function f :: s⟩) <$> Serialize.serializeFunctionWith σ.heap rec f := by
  have hstart : serializeFunctionWith ⟨σ, .function f :: s⟩ rec' =
      dumpFunctionBytecode ⟨σ, .function f :: s⟩ >>= fun r =>
        r.2.serializeUpvalues rec' >>= fun us => pure (⟨f, r.1, us.1⟩, us.2) := rfl
  have hapi : σ.heap.lookup f = none ∨ (∃ t, σ.heap.lookup f = some (.table t)) ∨
      (∃ v, σ.heap.lookup f = some (.cell v)) →
      dumpFunctionBytecode ⟨σ, .function f :: s⟩ = .error .api := by
    rintro (h | ⟨t, h⟩ | ⟨v, h⟩) <;>
      simp [dumpFunctionBytecode, functionAt, index, Stack.index, orFault, h]
  unfold Serialize.serializeFunctionWith
  rw [hstart]
  cases hf : σ.heap.lookup f with
  | none => rw [hapi (.inl hf)]; rfl
  | some o =>
    cases o with
    | closure c =>
      have hloop := serializeUpvaluesLoop_eq (s := s) hrec hf (List.nil_append _).symm .nil
      rw [List.length_nil, Nat.zero_add] at hloop
      rw [dumpFunctionBytecode_closure hf]
      change ((serializeUpvaluesLoop rec' (turns ⟨σ, .function f :: s⟩) 1 .nil
        ⟨σ, .function f :: s⟩) >>= _) = _
      rw [turns_function hf, hloop, bind_map_left, map_bind]
      rfl
    | cfunction =>
      have hdump : dumpFunctionBytecode ⟨σ, .function f :: s⟩ = .error .fatal := by
        simp [dumpFunctionBytecode, functionAt, index, Stack.index, orFault, hf]
      rw [hdump]
      rfl
    | table t => rw [hapi (.inr (.inl ⟨t, hf⟩))]; rfl
    | cell v => rw [hapi (.inr (.inr ⟨v, hf⟩))]; rfl

/-- **`serialize_object` leaves the stack as it was.** -/
theorem serializeObject_keeps (σ : Target) (n : ℕ) :
    Keeps σ (Serialize.serializeObject σ.heap n) (serializeObject n) := by
  induction n with
  | zero => intro v s; rfl
  | succ n ih =>
    intro v s
    cases v with
    | table a => exact serializeTable_eq ih
    | function f =>
      change (serializeFunctionWith ⟨σ, .function f :: s⟩ (fun M => serializeObject n M) >>= _) = _
      rw [serializeFunctionWith_eq ih, bind_map_left, Serialize.serializeObject, map_bind]
      rfl
    | _ => rfl

end Machine

end Serialize

end Rushit
