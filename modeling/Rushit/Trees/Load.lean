import Rushit.Trees.Shape
/-!
# Loading from memory

`push_object` reads a tree through its pointers and adds to the lists of
an `upvalue_cache`, whose mappings have no pointers into the tree
(`copy_value`). It does what it does on values, and leaves the tree and
everything else in memory as it is.
-/

namespace Rushit

namespace Trees

open Lua
open Ram (Malloc Stop access forEach Returns Mirrors Linked)
open Serialize (SValue SUpvalues SEntries SFunction Target)

/-! ## The cache in memory -/

def upvalueItem (a : ℕ) (next : Option ℕ) (x : Addr × Addr × ℕ) (l : Cells) : Prop :=
  l = [⟨a, .upvalueMapping next x.1 x.2.1 x.2.2⟩]

def objectItem (a : ℕ) (next : Option ℕ) (x : Addr × Addr) (l : Cells) : Prop :=
  l = [⟨a, .objectMapping next x.1 x.2⟩]

/-- A mapping of a collector has a key of its own, which is a copy. -/
def collectorItem (a : ℕ) (next : Option ℕ) (x : Addr × Addr × SValue) (l : Cells) : Prop :=
  ∃ c lk, ValueAt x.2.2 c lk ∧ (∃ sv, Serialize.copyValue sv = .ok x.2.2) ∧
    l = ⟨a, .collectorMapping next x.1 x.2.1 c⟩ :: lk

/-- The cells of a cache. -/
def CacheAt (σ : Target) (cache : ℕ) (l : Cells) : Prop :=
  ∃ u o c lu lo lc, Linked upvalueItem σ.upvalueMap u lu ∧ Linked objectItem σ.objectMap o lo ∧
    Linked collectorItem σ.collectorMap c lc ∧
    l = ⟨cache, .cache ⟨u, o, c⟩⟩ :: (lu ++ (lo ++ lc))

/-- **A state that is loaded into, in memory**, beside `k`. -/
structure Load.Rep (cache : ℕ) (k : Cells) (σ : Target) (s : Load) : Prop where
  heap : s.heap = σ.heap
  objectTbl : s.objectTbl = σ.objectTbl
  ram : ∃ l, CacheAt σ cache l ∧ s.ram.Holds (l ++ k)

/-- A value that was pushed. -/
def Pushed (cache : ℕ) (k : Cells) (r : Value × Target) (r' : Value × Load) : Prop :=
  r'.1 = r.1 ∧ Load.Rep cache k r.2 r'.2

variable {mal : Malloc Cell} {al : Allocator} {cache : ℕ} {k l : Cells} {σ : Target} {s : Load}
variable {key id : Addr} {n : ℕ} {c : CValue} {sv : SValue}

namespace Load

/-- The Lua code of the state has changed the heap. -/
theorem Rep.withHeap (hrep : Rep cache k σ s) (h : Heap) :
    Rep cache k (σ.withHeap h) (s.withHeap h) := ⟨rfl, hrep.objectTbl, hrep.ram⟩

theorem Rep.cacheObject (hrep : Rep cache k σ s) (v : Value) (id : Addr) :
    Rep cache k (σ.cacheObject v id) (s.cacheObject v id) :=
  ⟨hrep.heap, congrArg ((id, v) :: ·) hrep.objectTbl, hrep.ram⟩

theorem Rep.fetchObject (hrep : Rep cache k σ s) : s.fetchObject id = σ.fetchObject id := by
  unfold Load.fetchObject Target.fetchObject
  rw [hrep.objectTbl]

/-- What is read besides the cache. -/
theorem Rep.read {β : Type} {kind : Cell → Option β} {a : ℕ} {cell : Cell} {b : β}
    (hrep : Rep cache k σ s) (hc : ⟨a, cell⟩ ∈ k) (hb : kind cell = some b) :
    s.ram.read kind a = .ok b := by
  obtain ⟨l, -, hm⟩ := hrep.ram
  exact hm.read (List.mem_append_right _ hc) hb

/-- There is room for what is besides the cache. -/
theorem Rep.length_le (hrep : Rep cache k σ s) (hl : l.Subperm k) : l.length ≤ s.ram.size := by
  obtain ⟨lc, -, hm⟩ := hrep.ram
  exact hl.length_le.trans (Ram.Holds.length_le (hm.perm List.perm_append_comm))

/-- **`map_object`** -/
theorem Rep.mapObject (hrep : Rep cache k σ s) (key id : Addr) :
    Returns (s.mapObject mal cache key id) (Rep cache k (σ.mapObject key id)) := by
  obtain ⟨heap, tbl, _, ⟨u, o, c, lu, lo, lc, hu, ho, hc, rfl⟩, hm⟩ := hrep
  unfold Load.mapObject
  refine .of_read (hm.read List.mem_cons_self rfl) ?_
  obtain ⟨p, m₁, hp, hm₁⟩ := hm.exists_malloc mal (.objectMapping o key id)
  simp only [hp]
  refine .of_access (Ram.Holds.modify (l := [_]) hm₁ rfl _) fun m₂ hm₂ => .pure ?_
  refine ⟨heap, tbl, _, ⟨u, some p, c, lu, _, lc, hu, ho.cons (a := p) (x := (key, id)) rfl, hc,
    rfl⟩, hm₂.perm ?_⟩
  refine (List.Perm.swap _ _ _).trans (.cons _ ?_)
  simp only [List.append_eq, List.append_assoc, List.cons_append, List.nil_append]
  exact List.perm_middle.symm

/-- **`map_upvalue`** -/
theorem Rep.mapUpvalue (hrep : Rep cache k σ s) (key id : Addr) (number : ℕ) :
    Returns (s.mapUpvalue mal cache key id number) (Rep cache k (σ.mapUpvalue key id number)) := by
  obtain ⟨heap, tbl, _, ⟨u, o, c, lu, lo, lc, hu, ho, hc, rfl⟩, hm⟩ := hrep
  unfold Load.mapUpvalue
  refine .of_read (hm.read List.mem_cons_self rfl) ?_
  obtain ⟨p, m₁, hp, hm₁⟩ := hm.exists_malloc mal (.upvalueMapping u key id number)
  simp only [hp]
  refine .of_access (Ram.Holds.modify (l := [_]) hm₁ rfl _) fun m₂ hm₂ => .pure ?_
  exact ⟨heap, tbl, _, ⟨some p, o, c, _, lo, lc, hu.cons (a := p) (x := (key, id, number)) rfl, ho,
    hc, rfl⟩, hm₂.perm (List.Perm.swap _ _ _)⟩

/-- **`copy_value`**, of a key beside the cache. -/
theorem copyValue_mirrors {m : Ram Cell} {all lk : Cells} (hsv : ValueAt sv c lk)
    (hsub : lk ⊆ all) (hm : m.Holds all) :
    Mirrors (Serialize.copyValue sv) (copyValue mal c m) fun sv' r =>
      (∃ sv, Serialize.copyValue sv = .ok sv') ∧ ∃ l, ValueAt sv' r.1 l ∧ r.2.Holds (l ++ all) := by
  cases sv with
  | boolean b =>
    obtain ⟨rfl, rfl⟩ := hsv
    exact .pure ⟨⟨.boolean b, rfl⟩, [], ⟨rfl, rfl⟩, hm⟩
  | number x =>
    obtain ⟨rfl, rfl⟩ := hsv
    exact .pure ⟨⟨.number x, rfl⟩, [], ⟨rfl, rfl⟩, hm⟩
  | string str =>
    obtain ⟨p, rfl, rfl⟩ := hsv
    refine .read (hm.read (hsub List.mem_cons_self) rfl) ?_
    exact .pure ⟨⟨.string str, rfl⟩, _, ⟨_, rfl, rfl⟩, hm.malloc mal _⟩
  | function id code upvalues =>
    obtain ⟨p, q, u, lu, rfl, -⟩ := hsv
    exact .error
  | table id entries =>
    obtain ⟨p, e, le, rfl, -⟩ := hsv
    exact .error

/-- **`map_collector`** -/
theorem mapCollector_mirrors {lk : Cells} (hrep : Rep cache k σ s) (key id : Addr)
    (hsv : ValueAt sv c lk) (hsub : lk ⊆ k) :
    Mirrors (Serialize.mapCollector σ key id sv) (s.mapCollector mal cache key id c)
      (Rep cache k) := by
  obtain ⟨heap, tbl, _, ⟨u, o, q, lu, lo, lc, hu, ho, hc, rfl⟩, hm⟩ := hrep
  unfold Serialize.mapCollector Load.mapCollector
  obtain ⟨p, m₁, hp, hm₁⟩ := hm.exists_malloc mal (.collectorMapping none key id .nil)
  simp only [hp]
  refine (copyValue_mirrors hsv (fun x hx => List.mem_cons_of_mem _
    (List.mem_append_right _ (hsub hx))) hm₁).bind ?_
  rintro sv' ⟨c', m₂⟩ ⟨hcopy, l', hsv', hm₂⟩
  refine .read (hm₂.read (List.mem_append_right l' (List.mem_cons_of_mem _
    List.mem_cons_self)) rfl) ?_
  refine .of_returns (hm₂.write (.collectorMapping q key id c')).access fun m₃ hm₃ => ?_
  have hm₄ := hm₃.perm List.perm_middle
  refine .of_returns (Ram.Holds.modify (l := _ :: l') hm₄ rfl _).access fun m₅ hm₅ => .pure ?_
  refine ⟨heap, tbl, _, ⟨u, o, some p, lu, lo, _, hu, ho,
    hc.cons (a := p) (x := (key, id, sv')) ⟨c', l', hsv', hcopy, rfl⟩, rfl⟩, hm₅.perm ?_⟩
  refine List.perm_middle.trans (.cons _ ?_)
  simpa using List.perm_append_comm_assoc (_ :: l') (lu ++ lo) (lc ++ k)

theorem mapCollectorMaybe_mirrors {key : Option Addr} {lk : Cells} (hrep : Rep cache k σ s)
    (id : Addr) (hsv : ValueAt sv c lk) (hsub : lk ⊆ k) :
    Mirrors (Serialize.mapCollectorMaybe σ key id sv) (s.mapCollectorMaybe mal cache key id c)
      (Rep cache k) := by
  cases key with
  | none => exact .pure hrep
  | some w => exact mapCollector_mirrors hrep w id hsv hsub

/-- **`lookup_object`** -/
theorem Rep.lookupObject (hrep : Rep cache k σ s) (key : Addr) :
    Returns (s.lookupObject cache key) (· = σ.lookupObject key) := by
  obtain ⟨heap, tbl, _, ⟨u, o, q, lu, lo, lc, hu, ho, hc, rfl⟩, hm⟩ := hrep
  unfold Load.lookupObject
  refine .of_read (hm.read List.mem_cons_self rfl) (Returns.access ?_)
  have hm' : s.ram.Holds (lo ++ (⟨cache, .cache ⟨u, o, q⟩⟩ :: (lu ++ (lc ++ k)))) := by
    refine hm.perm ?_
    simpa using List.perm_append_comm_assoc (_ :: lu) lo (lc ++ k)
  refine (Linked.lookup (R := fun y b _ => b = y) ?_ ho hm' hm'.length_le).mono ?_
  · rintro a next x l rfl
    exact ⟨_, _, List.mem_cons_self, rfl, rfl⟩
  · rintro r (⟨hnone, rfl⟩ | ⟨y, b, l, hy, rfl, rfl, -⟩)
    · exact hnone.symm
    · exact hy.symm

/-- **`lookup_upvalue`** -/
theorem Rep.lookupUpvalue (hrep : Rep cache k σ s) (key : Addr) :
    Returns (s.lookupUpvalue cache key) (· = σ.lookupUpvalue key) := by
  obtain ⟨heap, tbl, _, ⟨u, o, q, lu, lo, lc, hu, ho, hc, rfl⟩, hm⟩ := hrep
  unfold Load.lookupUpvalue
  refine .of_read (hm.read List.mem_cons_self rfl) (Returns.access ?_)
  have hm' : s.ram.Holds (lu ++ (⟨cache, .cache ⟨u, o, q⟩⟩ :: (lo ++ (lc ++ k)))) := by
    refine hm.perm ?_
    simpa using List.perm_append_comm_assoc [_] lu (lo ++ (lc ++ k))
  refine (Linked.lookup (R := fun y b _ => b = y) ?_ hu hm' hm'.length_le).mono ?_
  · rintro a next x l rfl
    exact ⟨_, _, List.mem_cons_self, rfl, rfl⟩
  · rintro r (⟨hnone, rfl⟩ | ⟨y, b, l, hy, rfl, rfl, -⟩)
    · exact hnone.symm
    · exact hy.symm

theorem Rep.lookupAndFetchObject (hrep : Rep cache k σ s) (key : Addr) :
    Returns (s.lookupAndFetchObject cache key) (· = σ.lookupAndFetchObject key) := by
  unfold Load.lookupAndFetchObject Target.lookupAndFetchObject
  refine (hrep.lookupObject key).bind ?_
  rintro _ rfl
  refine .pure (congrArg (Option.map · _) ?_)
  exact funext fun id => hrep.fetchObject

/-- **The search for a collector**: its key is in memory, as a copy. -/
theorem Rep.lookupCollector (hrep : Rep cache k σ s) (key : Addr) :
    Returns (do
      let c ← access (s.ram.read Cell.cache? cache)
      access (Ram.lookup Cell.collectorMapping? key s.ram s.ram.size c.collectorMap) :
        Except Ends (Option (Addr × CValue))) fun r =>
      (σ.collectorMap.lookup key = none ∧ r = none) ∨
        ∃ id sv c lk, σ.collectorMap.lookup key = some (id, sv) ∧ r = some (id, c) ∧
          ValueAt sv c lk ∧ (∃ sv', Serialize.copyValue sv' = .ok sv) ∧
          ∃ all, lk ⊆ all ∧ s.ram.Holds all := by
  obtain ⟨heap, tbl, _, ⟨u, o, q, lu, lo, lc, hu, ho, hc, rfl⟩, hm⟩ := hrep
  refine .of_read (hm.read List.mem_cons_self rfl) (Returns.access ?_)
  have hm' : s.ram.Holds (lc ++ (⟨cache, .cache ⟨u, o, q⟩⟩ :: (lu ++ (lo ++ k)))) := by
    refine hm.perm ?_
    simpa using List.perm_append_comm_assoc (_ :: (lu ++ lo)) lc k
  refine (Linked.lookup (R := fun y b l => ∃ c lk, b = (y.1, c) ∧ ValueAt y.2 c lk ∧
    (∃ sv', Serialize.copyValue sv' = .ok y.2) ∧ lk ⊆ l) ?_ hc hm' hm'.length_le).mono ?_
  · rintro a next x l ⟨c, lk, hsv, hcopy, rfl⟩
    exact ⟨_, _, List.mem_cons_self, rfl, c, lk, rfl, hsv, hcopy, List.subset_cons_self _ _⟩
  · rintro r (hnone | ⟨y, b, l, hy, rfl, ⟨c, lk, rfl, hsv, hcopy, hlk⟩, hl⟩)
    · exact .inl hnone
    · exact .inr ⟨y.1, y.2, c, lk, hy, rfl, hsv, hcopy, _,
        fun x hx => List.mem_append_left _ (hl (hlk hx)), hm'⟩

end Load

/-! ## `push_object` -/

open Load

section Rec

variable {funcId : Addr} {rec : CValue → Load → Except Ends (Value × Load)} {value : SValue}

/-- **`set_shared_upvalue`** -/
theorem setSharedUpvalue_mirrors {p : ℕ} {next : Option ℕ} {number : ℕ}
    {collectorId : Option Addr} (hmem : ⟨p, .upvalue ⟨next, id, number, c, collectorId⟩⟩ ∈ k)
    (hrec : ∀ σ s, Rep cache k σ s →
      Mirrors (Serialize.pushObject al value σ) (rec c s) (Pushed cache k))
    (hrep : Rep cache k σ s) :
    Mirrors (Serialize.setSharedUpvalue funcId id number collectorId
        (fun σ => Serialize.pushObject al value σ) σ)
      (setSharedUpvalue mal cache rec funcId p s) (Rep cache k) := by
  unfold Serialize.setSharedUpvalue Load.setSharedUpvalue
  refine .read (hrep.read hmem rfl) (.of_returns (hrep.lookupUpvalue id) ?_)
  rintro _ rfl
  cases hseen : σ.lookupUpvalue id with
  | some m =>
    simp only [hrep.fetchObject]
    cases σ.fetchObject m.1 with
    | function g =>
      rw [hrep.heap]
      refine Mirrors.lift.bind ?_
      rintro heap _ rfl
      exact .pure (hrep.withHeap _)
    | _ => exact .error
  | none =>
    refine (hrec σ s hrep).bind ?_
    rintro ⟨v, σ'⟩ ⟨v', s'⟩ ⟨rfl, hrep'⟩
    have hheap : s'.heap = σ'.heap := hrep'.heap
    dsimp only
    rw [hheap]
    refine Mirrors.lift.bind ?_
    rintro heap _ rfl
    refine .of_returns ((hrep'.withHeap _).mapUpvalue id funcId number) fun s'' hrep'' => ?_
    exact mapCollectorMaybe_mirrors hrep'' funcId ⟨rfl, rfl⟩ (List.nil_subset _)

/-- **The loop body of `push_table`**, and what follows. -/
theorem pushEntry_mirrors {p : ℕ} {next : Option ℕ} {tid : Addr} {collectorId : Option Addr}
    {ck cv : CValue} {sk : SValue} {lk : Cells}
    (hmem : ⟨p, .entry ⟨next, ck, cv, collectorId⟩⟩ ∈ k) (hkey : ValueAt sk ck lk) (hsub : lk ⊆ k)
    (hk : ∀ σ s, Rep cache k σ s →
      Mirrors (Serialize.pushObject al sk σ) (rec ck s) (Pushed cache k))
    (hv : ∀ σ s, Rep cache k σ s →
      Mirrors (Serialize.pushObject al value σ) (rec cv s) (Pushed cache k))
    {f : Target → Except Serialize.Fault Target} {g : Load → Except Ends Load}
    (hfg : ∀ σ s, Rep cache k σ s → Mirrors (f σ) (g s) (Rep cache k)) (hrep : Rep cache k σ s) :
    Mirrors (do
      let (k, σ) ← Serialize.pushObject al sk σ
      let (v, σ) ← Serialize.pushObject al value σ
      let heap ← Serialize.orFault .api (σ.heap.rawset tid k v)
      let σ ← Serialize.mapCollectorMaybe (σ.withHeap heap) collectorId tid sk
      f σ)
      (pushEntry mal cache rec tid p s >>= g) (Rep cache k) := by
  unfold pushEntry
  simp only [bind_assoc]
  refine .read (hrep.read hmem rfl) ((hk σ s hrep).bind ?_)
  rintro ⟨vk, σ₁⟩ ⟨vk', s₁⟩ ⟨rfl, hrep₁⟩
  refine (hv σ₁ s₁ hrep₁).bind ?_
  rintro ⟨v, σ₂⟩ ⟨v', s₂⟩ ⟨rfl, hrep₂⟩
  have hheap : s₂.heap = σ₂.heap := hrep₂.heap
  dsimp only
  rw [hheap]
  refine Mirrors.lift.bind ?_
  rintro heap _ rfl
  exact (mapCollectorMaybe_mirrors (hrep₂.withHeap _) tid hkey hsub).bind hfg

/-- A function that was pushed. -/
def PushedFunction (cache : ℕ) (k : Cells) (r : Addr × Target) (r' : Addr × Load) : Prop :=
  r'.1 = r.1 ∧ Rep cache k r.2 r'.2

/-- **`push_function`**, where its loop does what it should. -/
theorem pushFunctionWith_mirrors {p q : ℕ} {code : Proto} {u : Option ℕ} {upvalues : SUpvalues}
    (hp : ⟨p, .function ⟨id, some q, u⟩⟩ ∈ k) (hq : ⟨q, .code code⟩ ∈ k)
    (hloop : ∀ funcId σ s, Rep cache k σ s →
      Mirrors (Serialize.setSharedUpvalues al funcId upvalues σ)
        (forEach Cell.next? Load.ram (setSharedUpvalue mal cache rec funcId) s.ram.size u s)
        (Rep cache k))
    (hrep : Rep cache k σ s) :
    Mirrors (Serialize.pushFunction al ⟨id, code, upvalues⟩ σ)
      (pushFunctionWith al mal cache rec p s) (PushedFunction cache k) := by
  unfold Serialize.pushFunction Load.pushFunctionWith Serialize.newFunction
  refine .read (hrep.read hp rfl) (.read (b := q) rfl (.read (hrep.read hq rfl) ?_))
  rw [hrep.heap]
  refine .of_returns (((hrep.withHeap _).cacheObject _ _).mapObject id _) fun s' hrep' => ?_
  refine (hloop _ _ s' hrep').bind ?_
  intro σ'' s'' hrep''
  exact .pure ⟨rfl, hrep''⟩

/-- **`push_table`**, where its loop does what it should. -/
theorem pushTable_mirrors {p : ℕ} {e : Option ℕ} {entries : SEntries}
    (hp : ⟨p, .table ⟨id, e⟩⟩ ∈ k)
    (hloop : ∀ tid σ s, Rep cache k σ s →
      Mirrors (Serialize.pushEntries al tid entries σ)
        (forEach Cell.next? Load.ram (pushEntry mal cache rec tid) s.ram.size e s)
        (Rep cache k))
    (hrep : Rep cache k σ s) :
    Mirrors (do
      let t := Serialize.newTable al id σ
      let σ ← Serialize.pushEntries al t.1 entries t.2
      pure (Value.table t.1, σ))
      (do
        let (tid, s) ← pushTable al mal cache rec p s
        pure (Value.table tid, s)) (Pushed cache k) := by
  unfold Load.pushTable Serialize.newTable
  simp only [bind_assoc]
  refine .read (hrep.read hp rfl) ?_
  rw [hrep.heap]
  refine .of_returns (((hrep.withHeap _).cacheObject _ _).mapObject id _) fun s' hrep' => ?_
  refine (hloop _ _ s' hrep').bind ?_
  intro σ'' s'' hrep''
  exact .pure ⟨rfl, hrep''⟩

end Rec

mutual

/-- **`push_object`** does on a tree in memory what it does on values. -/
theorem pushObject_mirrors (sv : SValue) {c : CValue} {l : Cells} {n : ℕ} {σ : Target} {s : Load}
    (hsv : ValueAt sv c l) (hsub : l.Subperm k) (hn : l.length ≤ n) (hrep : Rep cache k σ s) :
    Mirrors (Serialize.pushObject al sv σ) (Load.pushObject al mal cache n c s)
      (Pushed cache k) :=
  match sv with
  | .boolean b => by
    obtain ⟨rfl, rfl⟩ := hsv
    cases n <;> exact .pure ⟨rfl, hrep⟩
  | .number x => by
    obtain ⟨rfl, rfl⟩ := hsv
    cases n <;> exact .pure ⟨rfl, hrep⟩
  | .string str => by
    obtain ⟨p, rfl, rfl⟩ := hsv
    have hread : s.ram.read Cell.string? p = .ok str :=
      hrep.read (hsub.subset List.mem_cons_self) rfl
    cases n <;> exact .read hread (.pure ⟨rfl, hrep⟩)
  | .function id code upvalues => by
    obtain ⟨p, q, u, lu, rfl, hu, rfl⟩ := hsv
    rw [List.length_cons, List.length_cons] at hn
    obtain ⟨n, rfl⟩ := Nat.exists_eq_succ_of_ne_zero (n := n) (by omega)
    have hp := hsub.subset List.mem_cons_self
    have hq := hsub.subset (List.mem_cons_of_mem _ List.mem_cons_self)
    have hlu : lu.Subperm k := by
      refine (List.Sublist.subperm ?_).trans hsub
      exact ((List.Sublist.refl lu).cons _).cons _
    unfold Serialize.pushObject Load.pushObject
    refine .read (hrep.read hp rfl) (.of_returns (hrep.lookupAndFetchObject id) ?_)
    rintro _ rfl
    cases σ.lookupAndFetchObject id with
    | some v => exact .pure ⟨rfl, hrep⟩
    | none =>
      have hpush : Mirrors (Serialize.pushFunction al ⟨id, code, upvalues⟩ σ)
          (pushFunctionWith al mal cache (Load.pushObject al mal cache n) p s)
          (PushedFunction cache k) :=
        pushFunctionWith_mirrors hp hq (fun funcId σ s hrep => setSharedUpvalues_mirrors upvalues
          hu hlu (hrep.length_le hlu) (by omega) hrep) hrep
      have hvalue : Mirrors (Serialize.pushFunction al ⟨id, code, upvalues⟩ σ >>= fun r =>
          pure (Value.function r.1, r.2)) _ (Pushed cache k) :=
        hpush.bind (g := fun r => pure (Value.function r.1, r.2)) fun r r' hr => .pure
          ⟨congrArg Value.function hr.1, hr.2⟩
      unfold Serialize.pushFunction at hvalue
      simp only [bind_assoc] at hvalue
      exact hvalue
  | .table id entries => by
    obtain ⟨p, e, le, rfl, he, rfl⟩ := hsv
    rw [List.length_cons] at hn
    obtain ⟨n, rfl⟩ := Nat.exists_eq_succ_of_ne_zero (n := n) (by omega)
    have hp := hsub.subset List.mem_cons_self
    have hle : le.Subperm k := (List.Sublist.subperm (List.sublist_cons_self _ _)).trans hsub
    unfold Serialize.pushObject Load.pushObject
    refine .read (hrep.read hp rfl) (.of_returns (hrep.lookupAndFetchObject id) ?_)
    rintro _ rfl
    cases σ.lookupAndFetchObject id with
    | some v => exact .pure ⟨rfl, hrep⟩
    | none =>
      exact pushTable_mirrors hp (fun tid σ s hrep => pushEntries_mirrors entries he hle
        (hrep.length_le hle) (by omega) hrep) hrep

/-- **The loop of `push_function`** -/
theorem setSharedUpvalues_mirrors (us : SUpvalues) {p : Option ℕ} {l : Cells} {n fuel : ℕ}
    {funcId : Addr} {σ : Target} {s : Load} (hus : UpvaluesAt us p l) (hsub : l.Subperm k)
    (hfuel : l.length ≤ fuel) (hn : l.length ≤ n) (hrep : Rep cache k σ s) :
    Mirrors (Serialize.setSharedUpvalues al funcId us σ)
      (forEach Cell.next? Load.ram
        (setSharedUpvalue mal cache (Load.pushObject al mal cache n) funcId) fuel p s)
      (Rep cache k) :=
  match us with
  | .nil => by
    obtain ⟨rfl, rfl⟩ := hus
    cases fuel <;> exact .pure hrep
  | .cons id number value collectorId next => by
    obtain ⟨a, q, c, lv, ln, rfl, hv, hnext, rfl⟩ := hus
    rw [List.length_cons, List.length_append] at hfuel hn
    obtain ⟨fuel, rfl⟩ := Nat.exists_eq_succ_of_ne_zero (n := fuel) (by omega)
    have hmem := hsub.subset List.mem_cons_self
    have hrest : (lv ++ ln).Subperm k :=
      (List.Sublist.subperm (List.sublist_cons_self _ _)).trans hsub
    have hlv := (List.Sublist.subperm (List.sublist_append_left lv ln)).trans hrest
    have hln := (List.Sublist.subperm (List.sublist_append_right lv ln)).trans hrest
    unfold Serialize.setSharedUpvalues forEach
    refine .read (hrep.read hmem rfl) (.bind (setSharedUpvalue_mirrors hmem
      (fun σ s hrep => pushObject_mirrors value hv hlv (by omega) hrep) hrep) ?_)
    intro σ' s' hrep'
    exact setSharedUpvalues_mirrors next hnext hln (by omega) (by omega) hrep'

/-- **The loop of `push_table`** -/
theorem pushEntries_mirrors (es : SEntries) {p : Option ℕ} {l : Cells} {n fuel : ℕ} {tid : Addr}
    {σ : Target} {s : Load} (hes : EntriesAt es p l) (hsub : l.Subperm k)
    (hfuel : l.length ≤ fuel) (hn : l.length ≤ n) (hrep : Rep cache k σ s) :
    Mirrors (Serialize.pushEntries al tid es σ)
      (forEach Cell.next? Load.ram
        (pushEntry mal cache (Load.pushObject al mal cache n) tid) fuel p s)
      (Rep cache k) :=
  match es with
  | .nil => by
    obtain ⟨rfl, rfl⟩ := hes
    cases fuel <;> exact .pure hrep
  | .cons key value collectorId next => by
    obtain ⟨a, q, ck, cv, lk, lv, ln, rfl, hk, hv, hnext, rfl⟩ := hes
    rw [List.length_cons, List.length_append, List.length_append] at hfuel hn
    obtain ⟨fuel, rfl⟩ := Nat.exists_eq_succ_of_ne_zero (n := fuel) (by omega)
    have hmem := hsub.subset List.mem_cons_self
    have hrest : (lk ++ (lv ++ ln)).Subperm k :=
      (List.Sublist.subperm (List.sublist_cons_self _ _)).trans hsub
    have hlk := (List.Sublist.subperm (List.sublist_append_left lk (lv ++ ln))).trans hrest
    have hrest' := (List.Sublist.subperm (List.sublist_append_right lk (lv ++ ln))).trans hrest
    have hlv := (List.Sublist.subperm (List.sublist_append_left lv ln)).trans hrest'
    have hln := (List.Sublist.subperm (List.sublist_append_right lv ln)).trans hrest'
    unfold Serialize.pushEntries forEach
    refine .read (hrep.read hmem rfl) (pushEntry_mirrors hmem hk hlk.subset
      (fun σ s hrep => pushObject_mirrors key hk hlk (by omega) hrep)
      (fun σ s hrep => pushObject_mirrors value hv hlv (by omega) hrep) (fun σ s hrep => ?_) hrep)
    exact pushEntries_mirrors next hnext hln (by omega) (by omega) hrep

end

/-- **`deserialize_function`** -/
theorem deserializeFunction_mirrors {f : SFunction} {p : ℕ}
    (hf : ValueAt f.toSValue (.function p) l) (hsub : l.Subperm k) (hrep : Rep cache k σ s) :
    Mirrors (Serialize.deserializeFunction al f σ) (Load.deserializeFunction al mal cache p s)
      (PushedFunction cache k) := by
  have hn := hrep.length_le hsub
  obtain ⟨p', q, u, lu, hp, hu, rfl⟩ := hf
  obtain rfl := CValue.function.inj hp
  rw [List.length_cons, List.length_cons] at hn
  have hlu : lu.Subperm k := by
    refine (List.Sublist.subperm ?_).trans hsub
    exact ((List.Sublist.refl lu).cons _).cons _
  refine pushFunctionWith_mirrors (hsub.subset List.mem_cons_self)
    (hsub.subset (List.mem_cons_of_mem _ List.mem_cons_self)) (fun funcId σ s hrep => ?_) hrep
  exact setSharedUpvalues_mirrors f.upvalues hu hlu (hrep.length_le hlu) (by omega) hrep

/-- **`deserialize_value`** -/
theorem deserializeValue_mirrors {p : ℕ} (hp : ⟨p, .value c⟩ ∈ k) (hsv : ValueAt sv c l)
    (hsub : l.Subperm k) (hrep : Rep cache k σ s) :
    Mirrors (Serialize.deserializeValue al sv σ) (Load.deserializeValue al mal cache p s)
      (Pushed cache k) :=
  .read (hrep.read hp rfl) (pushObject_mirrors sv hsv hsub (hrep.length_le hsub) hrep)

/-- A key that was copied is pushed as it is. -/
theorem pushObject_copy (al : Allocator) (mal : Malloc Cell) (cache n : ℕ) {lk all : Cells}
    (hsv : ValueAt sv c lk)
    (hcopy : ∃ sv', Serialize.copyValue sv' = .ok sv) (hsub : lk ⊆ all) (hm : s.ram.Holds all) :
    ∃ v, (∀ σ, Serialize.pushObject al sv σ = .ok (v, σ)) ∧
      Load.pushObject al mal cache n c s = .ok (v, s) := by
  obtain ⟨sv', hcopy⟩ := hcopy
  cases sv' with
  | boolean b =>
    cases hcopy
    obtain ⟨rfl, rfl⟩ := hsv
    exact ⟨_, fun σ => rfl, by cases n <;> rfl⟩
  | number x =>
    cases hcopy
    obtain ⟨rfl, rfl⟩ := hsv
    exact ⟨_, fun σ => rfl, by cases n <;> rfl⟩
  | string str =>
    cases hcopy
    obtain ⟨p, rfl, rfl⟩ := hsv
    have hread : s.ram.read Cell.string? p = .ok (Serialize.strdup str) :=
      hm.read (hsub List.mem_cons_self) rfl
    refine ⟨.string (Serialize.strdup str), fun σ => rfl, ?_⟩
    cases n <;>
    · unfold Load.pushObject
      rw [hread]
      rfl
  | function id code upvalues => cases hcopy
  | table id entries => cases hcopy

/-- **`push_collected_value`** leaves the state as it is. -/
theorem pushCollectedValue_mirrors (hrep : Rep cache k σ s) (key : Addr) :
    Mirrors (Serialize.pushCollectedValue al σ key) (Load.pushCollectedValue al mal cache key s)
      fun v r => r = (v, s) := by
  have hlookup := hrep.lookupCollector key
  unfold Serialize.pushCollectedValue Load.pushCollectedValue
  rw [← bind_assoc]
  refine .of_returns hlookup ?_
  rintro r (⟨hnone, rfl⟩ | ⟨id, sv, c, lk, hsome, rfl, hsv, hcopy, all, hsub, hm⟩)
  · rw [hnone]
    exact .pure rfl
  · obtain ⟨v, hpush, hpush'⟩ := pushObject_copy al mal cache s.ram.size
      hsv hcopy hsub hm
    rw [hsome]
    simp only [hrep.fetchObject]
    cases σ.fetchObject id with
    | function f =>
      cases sv with
      | number x =>
        obtain ⟨rfl, rfl⟩ := hsv
        dsimp only
        rw [← bind_pure (Serialize.orFault _ _), hrep.heap]
        refine Mirrors.lift.bind ?_
        rintro v _ rfl
        exact .pure rfl
      | boolean b =>
        obtain ⟨rfl, -⟩ := hsv
        exact .error
      | string str =>
        obtain ⟨p, rfl, -⟩ := hsv
        exact .error
      | function id code upvalues =>
        obtain ⟨p, q, u, lu, rfl, -⟩ := hsv
        exact .error
      | table id entries =>
        obtain ⟨p, e, le, rfl, -⟩ := hsv
        exact .error
    | table a =>
      dsimp only
      rw [hpush σ, hpush']
      refine Mirrors.bind (P := fun r r' => r = (v, σ) ∧ r' = (v, s)) (.pure ⟨rfl, rfl⟩) ?_
      rintro _ _ ⟨rfl, rfl⟩
      dsimp only
      rw [hrep.heap]
      cases σ.heap.table? a with
      | none => exact .error
      | some t => exact .pure rfl
    | _ => exact .error

/-! ## The cache -/

/-- **`upvalue_cache_new`** -/
theorem exists_upvalueCacheNew (mal : Malloc Cell) {m : Ram Cell} (hm : m.Holds k) (h : Heap)
    (tbl : List (Addr × Value)) : ∃ cache m' l, upvalueCacheNew mal m = (cache, m') ∧
      CacheAt ⟨h, tbl, [], [], []⟩ cache l ∧ m'.Holds (l ++ k) := by
  obtain ⟨p, m', hp, hm'⟩ := hm.exists_malloc mal (.cache ⟨none, none, none⟩)
  exact ⟨p, m', _, hp, ⟨none, none, none, [], [], [], .nil, .nil, .nil, rfl⟩, hm'⟩

/-- **`free_upvalue_cache`** frees the cells of the cache. -/
theorem freeUpvalueCache_returns {m : Ram Cell} (hc : CacheAt σ cache l) (hm : m.Holds (l ++ k)) :
    Returns (freeUpvalueCache (some cache) m) fun m' => m'.Holds k := by
  obtain ⟨u, o, c, lu, lo, lc, hu, ho, hc, rfl⟩ := hc
  unfold freeUpvalueCache
  refine .of_read (hm.read List.mem_cons_self rfl) ?_
  have hm₁ : m.Holds (lo ++ (⟨cache, .cache ⟨u, o, c⟩⟩ :: (lu ++ (lc ++ k)))) := by
    refine hm.perm ?_
    simpa using List.perm_append_comm_assoc (_ :: lu) lo (lc ++ k)
  refine (Linked.free_nodes ?_ ho hm₁ hm₁.length_le).bind fun m₂ hm₂ => ?_
  · rintro a next x l rfl
    exact ⟨_, rfl, rfl⟩
  refine .of_read (hm₂.read List.mem_cons_self rfl) ?_
  have hm₃ : m₂.Holds (lu ++ (⟨cache, .cache ⟨u, o, c⟩⟩ :: (lc ++ k))) :=
    hm₂.perm List.perm_middle.symm
  refine (Linked.free_nodes ?_ hu hm₃ hm₃.length_le).bind fun m₄ hm₄ => ?_
  · rintro a next x l rfl
    exact ⟨_, rfl, rfl⟩
  refine .of_read (hm₄.read List.mem_cons_self rfl) ?_
  have hm₅ : m₄.Holds (lc ++ (⟨cache, .cache ⟨u, o, c⟩⟩ :: k)) := hm₄.perm List.perm_middle.symm
  refine (Linked.free ?_ ?_ hc hm₅ hm₅.length_le).bind fun m₆ hm₆ => ?_
  · rintro a next x l ⟨c, lk, -, -, rfl⟩
    exact ⟨_, List.mem_cons_self, rfl⟩
  · rintro a next x l k m ⟨c, lk, hsv, -, rfl⟩ hm
    refine .of_read (hm.read List.mem_cons_self rfl) ?_
    have hm' : m.Holds (lk ++ (⟨a, .collectorMapping next x.1 x.2.1 c⟩ :: k)) :=
      hm.perm List.perm_middle.symm
    refine (freeValueData_returns x.2.2 hsv hm' hm'.length_le).bind fun m' hm' => ?_
    exact (Ram.Holds.free (l := []) hm').access
  exact (Ram.Holds.free (l := []) hm₆).access

end Trees

end Rushit
