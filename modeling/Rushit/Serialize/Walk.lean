import Rushit.Serialize.Hooks
/-!
# What is loaded first

Hooks that share a variable, a table or a function each carry a copy of
it, and a slave builds it from the copy it comes to first. The later
copies are skipped, with everything that stands in them. `walk` goes
through the trees of the hooks in the order of loading and notes what it
comes to first, and the wrappers that stand there.

Loading goes the same way (`Walked`): the maps of the cache have the ids
that the walk has noted, in the same order, and a wrapper is recorded
where a copy that was loaded first holds it.
-/

namespace Rushit

namespace Serialize

open Lua

/-- What was come to so far, the last first. -/
structure Copies where
  /-- The tables and functions. -/
  objects : List Addr
  /-- The variables. -/
  cells : List Addr
  /-- The wrappers that stand in the copies, each with its place. -/
  places : List (Addr × Site)

def Copies.none : Copies := ⟨[], [], []⟩

/-- The wrapper that stands at a site, if one does. -/
def placed (collectorId : Option Addr) (st : Site) : List (Addr × Site) :=
  collectorId.toList.map fun w => (w, st)

mutual

/-- An object that was come to before is skipped. -/
def SValue.walk : SValue → Copies → Copies
  | .boolean _, s => s
  | .number _, s => s
  | .string _, s => s
  | .function id _ upvalues, s =>
    if id ∈ s.objects then s else upvalues.walk { s with objects := id :: s.objects }
  | .table id entries, s =>
    if id ∈ s.objects then s else entries.walk id { s with objects := id :: s.objects }

/-- So is a variable. -/
def SUpvalues.walk : SUpvalues → Copies → Copies
  | .nil, s => s
  | .cons id _ value collectorId next, s =>
    if id ∈ s.cells then next.walk s
    else
      let s := value.walk s
      next.walk { s with
        cells := id :: s.cells, places := placed collectorId (.upvalue id) ++ s.places }

def SEntries.walk : SEntries → (table : Addr) → Copies → Copies
  | .nil, _, s => s
  | .cons key value collectorId next, id, s =>
    let s := value.walk (key.walk s)
    next.walk id { s with places := placed collectorId (.entry id key) ++ s.places }

end

/-- A hook's own function is not skipped. -/
def SFunction.walk (s : Copies) (f : SFunction) : Copies :=
  f.upvalues.walk { s with objects := f.id :: s.objects }

/-- The walk through the hooks, in the order of loading. -/
def walk (fs : List SFunction) : Copies := fs.foldl SFunction.walk Copies.none

/-- **The copy that is loaded first holds the wrapper**: where the
variable or the table of the site is come to for the first time, the
wrapper stands at the site. -/
def FirstHolds (fs : List SFunction) (st : Site) (w : Addr) : Prop := (w, st) ∈ (walk fs).places

variable {al : Allocator} {σ σ₁ σ' : Target} {s : Copies} {fs : List SFunction} {v : Value}
variable {a w : Addr} {st : Site}

/-! ## What the walk comes to -/

/-- An id that was not come to before. -/
theorem count_cons_le {id : Addr} {l : List Addr} (hid : id ∉ l) (h : l.count a ≤ 1) :
    (id :: l).count a ≤ 1 := by
  by_cases ha : id = a
  · subst ha
    rw [List.count_cons_self, List.count_eq_zero_of_not_mem hid]
  · rw [List.count_cons_of_ne ha]
    exact h

theorem mem_placed {collectorId : Option Addr} {st' : Site} :
    (w, st) ∈ placed collectorId st' ↔ st = st' ∧ collectorId = some w := by
  simp only [placed, List.mem_map, Option.mem_toList, Prod.mk.injEq]
  constructor
  · rintro ⟨u, hu, rfl, rfl⟩
    exact ⟨rfl, hu⟩
  · rintro ⟨rfl, hw⟩
    exact ⟨w, hw, rfl, rfl⟩

mutual

theorem SValue.mem_walk (t : SValue) {s : Copies} (h : (w, st) ∈ (t.walk s).places) :
    t.Wraps st w ∨ (w, st) ∈ s.places := by
  cases t with
  | boolean b => exact .inr h
  | number n => exact .inr h
  | string s => exact .inr h
  | function id code us =>
    rw [SValue.walk] at h
    split at h
    · exact .inr h
    · have hmem := us.mem_walk h
      exact hmem
  | table id es =>
    rw [SValue.walk] at h
    split at h
    · exact .inr h
    · have hmem := es.mem_walk h
      exact hmem

theorem SUpvalues.mem_walk (us : SUpvalues) {s : Copies} (h : (w, st) ∈ (us.walk s).places) :
    us.Wraps st w ∨ (w, st) ∈ s.places := by
  cases us with
  | nil => exact .inr h
  | cons id number value collectorId next =>
    rw [SUpvalues.walk] at h
    split at h
    · exact (next.mem_walk h).imp_left fun h => .inr (.inr h)
    · rcases next.mem_walk h with h | h
      · exact .inl (.inr (.inr h))
      · rcases List.mem_append.mp h with h | h
        · exact .inl (.inl (mem_placed.mp h))
        · exact (value.mem_walk h).imp_left fun h => .inr (.inl h)

theorem SEntries.mem_walk (es : SEntries) {s : Copies} {id : Addr}
    (h : (w, st) ∈ (es.walk id s).places) : es.Wraps st w id ∨ (w, st) ∈ s.places := by
  cases es with
  | nil => exact .inr h
  | cons key value collectorId next =>
    rw [SEntries.walk] at h
    rcases next.mem_walk h with h | h
    · exact .inl (.inr (.inr (.inr h)))
    · rcases List.mem_append.mp h with h | h
      · exact .inl (.inl (mem_placed.mp h))
      · rcases value.mem_walk h with h | h
        · exact .inl (.inr (.inr (.inl h)))
        · exact (key.mem_walk h).imp_left fun h => .inr (.inl h)

end

/-- The walk through one more hook. -/
theorem walk_append (fs : List SFunction) (f : SFunction) :
    walk (fs ++ [f]) = SFunction.walk (walk fs) f := by
  rw [walk, List.foldl_append]
  rfl

/-- **A wrapper stands where a hook has it.** -/
theorem FirstHolds.wraps (h : FirstHolds fs st w) : ∃ f ∈ fs, f.toSValue.Wraps st w := by
  suffices key : ∀ s, (w, st) ∈ (fs.foldl SFunction.walk s).places →
      (∃ f ∈ fs, f.toSValue.Wraps st w) ∨ (w, st) ∈ s.places from
    (key _ h).resolve_right (List.not_mem_nil)
  clear h
  induction fs with
  | nil => exact fun s h => .inr h
  | cons f fs ih =>
    intro s h
    rcases ih _ h with ⟨g, hg, hw⟩ | h
    · exact .inl ⟨g, List.mem_cons_of_mem _ hg, hw⟩
    · exact (f.upvalues.mem_walk h).imp_left fun h => ⟨f, List.mem_cons_self, h⟩

/-! ## What is come to once -/

mutual

theorem SValue.count_walk (t : SValue) {s : Copies} (h : s.objects.count a ≤ 1) :
    (t.walk s).objects.count a ≤ 1 := by
  cases t with
  | boolean b => exact h
  | number n => exact h
  | string s => exact h
  | function id code us =>
    rw [SValue.walk]
    split
    · exact h
    · rename_i hid
      exact us.count_walk (count_cons_le hid h)
  | table id es =>
    rw [SValue.walk]
    split
    · exact h
    · rename_i hid
      exact es.count_walk (count_cons_le hid h)

theorem SUpvalues.count_walk (us : SUpvalues) {s : Copies} (h : s.objects.count a ≤ 1) :
    (us.walk s).objects.count a ≤ 1 := by
  cases us with
  | nil => exact h
  | cons id number value collectorId next =>
    rw [SUpvalues.walk]
    split
    · exact next.count_walk h
    · exact next.count_walk (value.count_walk h)

theorem SEntries.count_walk (es : SEntries) {s : Copies} {id : Addr}
    (h : s.objects.count a ≤ 1) : (es.walk id s).objects.count a ≤ 1 := by
  cases es with
  | nil => exact h
  | cons key value collectorId next =>
    rw [SEntries.walk]
    exact next.count_walk (value.count_walk (key.count_walk h))

end

/-- **Only a hook's own function is come to twice.** -/
theorem count_walk (hfs : ∀ f ∈ fs, f.id ≠ a) : (walk fs).objects.count a ≤ 1 := by
  suffices key : ∀ s : Copies, s.objects.count a ≤ 1 →
      (fs.foldl SFunction.walk s).objects.count a ≤ 1 from key _ (Nat.zero_le 1)
  induction fs with
  | nil => exact fun s h => h
  | cons f fs ih =>
    intro s h
    refine ih (fun g hg => hfs g (List.mem_cons_of_mem _ hg)) _ (f.upvalues.count_walk ?_)
    rw [List.count_cons_of_ne (hfs f List.mem_cons_self)]
    exact h

/-! ## Loading goes the same way -/

/-- The table `o` was loaded for the id `a`. -/
structure Target.HasTable (σ : Target) (a o : Addr) : Prop where
  mapped : (a, o) ∈ σ.objectMap
  live : σ.heap.Live o
  cached : σ.objectTbl.lookup o = some (.table o)

/-- A record of the collector map is the wrapper's place. -/
def Target.RecordedAt (σ : Target) (r : Addr × Addr × SValue) (p : Addr × Site) : Prop :=
  r.1 = p.1 ∧
    match p.2 with
    | .upvalue c => ∃ i, (c, r.2.1, i) ∈ σ.upvalueMap ∧ r.2.2 = .number (.ofNat i)
    | .entry a k => σ.HasTable a r.2.1 ∧ copyValue k = .ok r.2.2

/-- **The maps hold what the walk has noted.** -/
structure Walked (σ : Target) (s : Copies) : Prop where
  objects : σ.objectMap.map Prod.fst = s.objects
  cells : σ.upvalueMap.map Prod.fst = s.cells
  places : List.Forall₂ σ.RecordedAt σ.collectorMap s.places

/-- What was mapped, what was there and what was cached for it stay. -/
structure Target.Stays (σ σ' : Target) : Prop where
  objectMap : σ.objectMap ⊆ σ'.objectMap
  live : ∀ x, σ.heap.Live x → σ'.heap.Live x
  objectTbl : ∀ x, σ.heap.Live x → σ'.objectTbl.lookup x = σ.objectTbl.lookup x

namespace Target.Stays

theorem refl (σ : Target) : σ.Stays σ := ⟨List.Subset.refl _, fun _ h => h, fun _ _ => rfl⟩

theorem trans (h : σ.Stays σ₁) (h' : σ₁.Stays σ') : σ.Stays σ' where
  objectMap _ hp := h'.objectMap (h.objectMap hp)
  live x hx := h'.live x (h.live x hx)
  objectTbl x hx := by rw [h'.objectTbl x (h.live x hx), h.objectTbl x hx]

/-- Only the heap grows. -/
theorem withHeap {heap : Heap} (h : σ.heap <:+ heap) : σ.Stays (σ.withHeap heap) where
  objectMap := List.Subset.refl _
  live _ hx := hx.of_suffix h
  objectTbl _ _ := rfl

theorem created {id : Addr} {u : Value} (h : Created σ id a u σ') : σ.Stays σ' where
  objectMap := by rw [h.objectMap]; exact List.subset_cons_self _ _
  live x hx := by rw [Heap.Live, h.heap x hx]; exact hx
  objectTbl := h.objectTbl

/-- Only the other maps grow. -/
theorem of_eq (hheap : σ'.heap = σ.heap) (htbl : σ'.objectTbl = σ.objectTbl)
    (hobj : σ'.objectMap = σ.objectMap) : σ.Stays σ' where
  objectMap := by rw [hobj]; exact List.Subset.refl _
  live := by rw [hheap]; exact fun _ hx => hx
  objectTbl _ _ := by rw [htbl]

/-- `map_collector` writes to its own map. -/
theorem mapCollectorMaybe {collectorId : Option Addr} {o : Addr} {k : SValue}
    (h : mapCollectorMaybe σ collectorId o k = .ok σ') : σ.Stays σ' := by
  cases collectorId with
  | none =>
    cases h
    exact refl σ
  | some w =>
    obtain ⟨k', -, hret⟩ := bind_eq_ok.mp h
    cases hret
    exact of_eq rfl rfl rfl

end Target.Stays

theorem Target.HasTable.stays {o : Addr} (h : σ.HasTable a o) (hle : σ.Stays σ') :
    σ'.HasTable a o :=
  ⟨hle.objectMap h.mapped, hle.live o h.live, by rw [hle.objectTbl o h.live, h.cached]⟩

theorem Target.RecordedAt.stays {r : Addr × Addr × SValue} {p : Addr × Site}
    (h : σ.RecordedAt r p) (hle : σ.Stays σ') (hup : σ.upvalueMap ⊆ σ'.upvalueMap) :
    σ'.RecordedAt r p := by
  obtain ⟨w, st⟩ := p
  obtain ⟨hw, hat⟩ := h
  cases st with
  | upvalue c =>
    obtain ⟨i, hm, hk⟩ := hat
    exact ⟨hw, i, hup hm, hk⟩
  | entry a k => exact ⟨hw, hat.1.stays hle, hat.2⟩

namespace Walked

theorem start (h : Heap) : Walked (Target.start h) Copies.none := ⟨rfl, rfl, .nil⟩

/-- A step that maps nothing. -/
theorem of_maps (h : Walked σ s) (hle : σ.Stays σ') (hobj : σ'.objectMap = σ.objectMap)
    (hup : σ'.upvalueMap = σ.upvalueMap) (hcol : σ'.collectorMap = σ.collectorMap) :
    Walked σ' s where
  objects := by rw [hobj, h.objects]
  cells := by rw [hup, h.cells]
  places := by
    rw [hcol]
    exact h.places.imp fun _ _ hr => hr.stays hle (by rw [hup]; exact List.Subset.refl _)

/-- A larger heap. -/
theorem withHeap {heap : Heap} (h : Walked σ s) (hsuf : σ.heap <:+ heap) :
    Walked (σ.withHeap heap) s :=
  h.of_maps (.withHeap hsuf) rfl rfl rfl

/-- A new object. -/
theorem created {id : Addr} {u : Value} (h : Walked σ s) (hcr : Created σ id a u σ') :
    Walked σ' { s with objects := id :: s.objects } where
  objects := by rw [hcr.objectMap, List.map_cons, h.objects]
  cells := by rw [hcr.upvalueMap, h.cells]
  places := by
    rw [hcr.collectorMap]
    exact h.places.imp fun _ _ hr => hr.stays (.created hcr)
      (by rw [hcr.upvalueMap]; exact List.Subset.refl _)

/-- `map_collector`, where it returns. -/
theorem mapCollectorMaybe {collectorId : Option Addr} {o : Addr} {k : SValue} (h : Walked σ s)
    (hst : ∀ k', copyValue k = .ok k' → ∀ w, σ.RecordedAt (w, o, k') (w, st))
    (hok : mapCollectorMaybe σ collectorId o k = .ok σ') :
    Walked σ' { s with places := placed collectorId st ++ s.places } := by
  cases collectorId with
  | none =>
    cases hok
    exact h
  | some w =>
    have hle := Target.Stays.mapCollectorMaybe hok
    obtain ⟨k', hk', hret⟩ := bind_eq_ok.mp hok
    cases hret
    refine ⟨h.objects, h.cells, .cons ((hst k' hk' w).stays hle (List.Subset.refl _)) ?_⟩
    exact h.places.imp fun _ _ hr => hr.stays hle (List.Subset.refl _)

/-- An upvalue that was not seen before. -/
theorem mapUpvalue (h : Walked σ s) (c f : Addr) (i : ℕ) :
    Walked (σ.mapUpvalue c f i) { s with cells := c :: s.cells } where
  objects := h.objects
  cells := by rw [← h.cells]; rfl
  places := h.places.imp fun _ _ hr => hr.stays (.of_eq rfl rfl rfl)
    (List.subset_cons_self _ _)

theorem lookupObject_none (h : Walked σ s) (hl : σ.lookupAndFetchObject a = none) :
    a ∉ s.objects := by
  rw [← h.objects]
  exact not_mem_keys_of_lookup (Option.map_eq_none_iff.mp hl)

theorem lookupObject_some (h : Walked σ s) (hl : σ.lookupAndFetchObject a = some v) :
    a ∈ s.objects := by
  obtain ⟨o, ho, -⟩ := Option.map_eq_some_iff.mp hl
  rw [← h.objects]
  exact List.mem_map_of_mem (f := Prod.fst) (mem_of_lookup ho)

end Walked

mutual

/-- **`push_object` goes the way of the walk.** -/
theorem pushObject_walked {t : SValue} {σ σ' : Target} {s : Copies} {v : Value} (h : Walked σ s)
    (hok : pushObject al t σ = .ok (v, σ')) : Walked σ' (t.walk s) ∧ σ.Stays σ' := by
  cases t with
  | boolean b => cases hok; exact ⟨h, .refl σ⟩
  | number n => cases hok; exact ⟨h, .refl σ⟩
  | string s => cases hok; exact ⟨h, .refl σ⟩
  | function id code us =>
    rw [pushObject] at hok
    rw [SValue.walk]
    cases hl : σ.lookupAndFetchObject id with
    | some u =>
      rw [hl] at hok
      cases hok
      rw [if_pos (h.lookupObject_some hl)]
      exact ⟨h, .refl σ⟩
    | none =>
      rw [hl] at hok
      rw [if_neg (h.lookupObject_none hl)]
      obtain ⟨σ₂, hloop, hret⟩ := bind_eq_ok.mp hok
      cases hret
      have hcr := (newFunction_spec al id code σ).1
      obtain ⟨h₂, hle⟩ := setSharedUpvalues_walked (h.created hcr) hloop
      exact ⟨h₂, (Target.Stays.created hcr).trans hle⟩
  | table id es =>
    rw [pushObject] at hok
    rw [SValue.walk]
    cases hl : σ.lookupAndFetchObject id with
    | some u =>
      rw [hl] at hok
      cases hok
      rw [if_pos (h.lookupObject_some hl)]
      exact ⟨h, .refl σ⟩
    | none =>
      rw [hl] at hok
      rw [if_neg (h.lookupObject_none hl)]
      obtain ⟨σ₂, hloop, hret⟩ := bind_eq_ok.mp hok
      cases hret
      obtain ⟨hcr, ht⟩ := newTable_spec al id σ
      have hid : Target.HasTable (newTable al id σ).2 id (newTable al id σ).1 :=
        ⟨by rw [hcr.objectMap]; exact List.mem_cons_self, Heap.live_of_lookup ht, hcr.fetch⟩
      obtain ⟨h₂, hle⟩ := pushEntries_walked (h.created hcr) hid hloop
      exact ⟨h₂, (Target.Stays.created hcr).trans hle⟩

/-- The loop of `push_function`. -/
theorem setSharedUpvalues_walked {us : SUpvalues} {fid : Addr} {σ σ' : Target} {s : Copies}
    (h : Walked σ s) (hok : setSharedUpvalues al fid us σ = .ok σ') :
    Walked σ' (us.walk s) ∧ σ.Stays σ' := by
  cases us with
  | nil => cases hok; exact ⟨h, .refl σ⟩
  | cons id number value collectorId next =>
    rw [setSharedUpvalues] at hok
    rw [SUpvalues.walk]
    obtain ⟨σ₁, hstep, hloop⟩ := bind_eq_ok.mp hok
    unfold setSharedUpvalue at hstep
    cases hm : σ.lookupUpvalue id with
    | some m =>
      -- the variable has been come to before
      have hmem : id ∈ s.cells := by
        rw [← h.cells]
        exact List.mem_map_of_mem (f := Prod.fst) (mem_of_lookup hm)
      rw [hm] at hstep
      rw [if_pos hmem]
      simp only at hstep
      split at hstep
      · obtain ⟨heap, hjoin, hret⟩ := bind_eq_ok.mp hstep
        cases hret
        have hsuf := Heap.upvaluejoin_suffix (orFault_eq_ok.mp hjoin)
        obtain ⟨h₂, hle⟩ := setSharedUpvalues_walked (h.withHeap hsuf) hloop
        exact ⟨h₂, (Target.Stays.withHeap hsuf).trans hle⟩
      · cases hstep
    | none =>
      have hnew : id ∉ s.cells := by
        rw [← h.cells]
        exact not_mem_keys_of_lookup hm
      rw [hm] at hstep
      rw [if_neg hnew]
      obtain ⟨⟨u, τ⟩, hpush, hstep⟩ := bind_eq_ok.mp hstep
      obtain ⟨heap, hset, hstep⟩ := bind_eq_ok.mp hstep
      have hsuf := Heap.setupvalue_suffix (orFault_eq_ok.mp hset)
      obtain ⟨hτ, hle⟩ := pushObject_walked h hpush
      have hmap := (hτ.withHeap hsuf).mapUpvalue id fid number
      have hplace : ∀ k', copyValue (.number (.ofNat number)) = .ok k' → ∀ w,
          Target.RecordedAt ((τ.withHeap heap).mapUpvalue id fid number) (w, fid, k')
            (w, .upvalue id) := by
        rintro k' hk' w
        cases hk'
        exact ⟨rfl, number, List.mem_cons_self, rfl⟩
      obtain ⟨h₂, hle₂⟩ := setSharedUpvalues_walked (hmap.mapCollectorMaybe hplace hstep) hloop
      have hle₁ : Target.Stays ((τ.withHeap heap).mapUpvalue id fid number) σ₁ :=
        .mapCollectorMaybe hstep
      have hmapped : Target.Stays (τ.withHeap heap) ((τ.withHeap heap).mapUpvalue id fid number) :=
        .of_eq rfl rfl rfl
      exact ⟨h₂, hle.trans ((Target.Stays.withHeap hsuf).trans
        (hmapped.trans (hle₁.trans hle₂)))⟩

/-- The loop of `push_table`. -/
theorem pushEntries_walked {es : SEntries} {tid id : Addr} {σ σ' : Target} {s : Copies}
    (h : Walked σ s) (hid : σ.HasTable id tid) (hok : pushEntries al tid es σ = .ok σ') :
    Walked σ' (es.walk id s) ∧ σ.Stays σ' := by
  cases es with
  | nil => cases hok; exact ⟨h, .refl σ⟩
  | cons key value collectorId next =>
    rw [pushEntries] at hok
    rw [SEntries.walk]
    obtain ⟨⟨k, σ₁⟩, hpush₁, hok⟩ := bind_eq_ok.mp hok
    obtain ⟨⟨u, σ₂⟩, hpush₂, hok⟩ := bind_eq_ok.mp hok
    obtain ⟨heap, hset, hok⟩ := bind_eq_ok.mp hok
    obtain ⟨σ₃, hmap, hloop⟩ := bind_eq_ok.mp hok
    obtain ⟨h₁, hle₁⟩ := pushObject_walked h hpush₁
    obtain ⟨h₂, hle₂⟩ := pushObject_walked h₁ hpush₂
    have hsuf := Heap.rawset_suffix (orFault_eq_ok.mp hset)
    have hle : σ.Stays (σ₂.withHeap heap) := hle₁.trans (hle₂.trans (.withHeap hsuf))
    have hplace : ∀ k', copyValue key = .ok k' → ∀ w,
        Target.RecordedAt (σ₂.withHeap heap) (w, tid, k') (w, .entry id key) :=
      fun k' hk' w => ⟨rfl, hid.stays hle, hk'⟩
    have hle₃ : Target.Stays (σ₂.withHeap heap) σ₃ := .mapCollectorMaybe hmap
    obtain ⟨h₄, hle₄⟩ := pushEntries_walked ((h₂.withHeap hsuf).mapCollectorMaybe hplace hmap)
      (hid.stays (hle.trans hle₃)) hloop
    exact ⟨h₄, hle.trans (hle₃.trans hle₄)⟩

end

/-- **So does `deserialize_function`.** -/
theorem deserializeFunction_walked {f : SFunction} {key : Addr} (h : Walked σ s)
    (hok : deserializeFunction al f σ = .ok (key, σ')) : Walked σ' (SFunction.walk s f) := by
  obtain ⟨σ₂, hloop, hret⟩ := bind_eq_ok.mp hok
  cases hret
  exact (setSharedUpvalues_walked (h.created (newFunction_spec al f.id f.code σ).1) hloop).1

/-- **A load of the hooks goes the way of the walk.** -/
theorem deserializeFunctions_walked {keys : List Addr} (h : Walked σ s)
    (hok : deserializeFunctions al fs σ = .ok (keys, σ')) :
    Walked σ' (fs.foldl SFunction.walk s) := by
  induction fs generalizing σ s keys with
  | nil =>
    cases hok
    exact h
  | cons f fs ih =>
    obtain ⟨⟨key, σ₁⟩, heq, -⟩ := bind_eq_ok.mp hok
    obtain ⟨keys', hrest, -⟩ := (deserializeFunctions_cons heq).mp hok
    exact ih (deserializeFunction_walked h heq) hrest

/-- **A wrapper is recorded where a copy that was loaded first holds it.** -/
theorem Walked.recorded_iff (h : Walked σ s) :
    σ.collectorMap.lookup w ≠ none ↔ ∃ st, (w, st) ∈ s.places := by
  have hkeys : σ.collectorMap.map Prod.fst = s.places.map Prod.fst := by
    rw [← List.forall₂_eq_eq_eq, List.forall₂_map_left_iff, List.forall₂_map_right_iff]
    exact h.places.imp fun _ _ hr => hr.1
  constructor
  · intro hne
    obtain ⟨r, hr⟩ := Option.ne_none_iff_exists'.mp hne
    have hmem : w ∈ s.places.map Prod.fst := by
      rw [← hkeys]
      exact List.mem_map_of_mem (f := Prod.fst) (mem_of_lookup hr)
    obtain ⟨⟨_, st⟩, hst, rfl⟩ := List.mem_map.mp hmem
    exact ⟨st, hst⟩
  · rintro ⟨st, hst⟩ hnone
    refine not_mem_keys_of_lookup hnone ?_
    rw [hkeys]
    exact List.mem_map_of_mem (f := Prod.fst) hst

/-- **The record that is found is the wrapper's last place.** -/
theorem Walked.lookup (h : Walked σ s) (w : Addr) :
    σ.collectorMap.lookup w = none ∧ s.places.lookup w = none ∨
      ∃ r st, σ.collectorMap.lookup w = some r ∧ s.places.lookup w = some st ∧
        σ.RecordedAt (w, r) (w, st) := by
  have hplaces := h.places
  generalize σ.collectorMap = l at hplaces
  generalize s.places = ps at hplaces
  induction hplaces with
  | nil => exact .inl ⟨rfl, rfl⟩
  | @cons r p l ps hr _ ih =>
    obtain ⟨u, r⟩ := r
    obtain ⟨u', st'⟩ := p
    obtain rfl : u = u' := hr.1
    by_cases hu : w = u
    · subst hu
      exact .inr ⟨r, st', List.lookup_cons_self, List.lookup_cons_self, hr⟩
    · rw [lookup_cons_ne hu, lookup_cons_ne hu]
      exact ih

end Serialize

end Rushit
