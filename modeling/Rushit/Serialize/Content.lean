import Rushit.Lua.Agree
import Rushit.Serialize.Expand
import Rushit.Serialize.Loading
/-!
# What loading rebuilds

Loading the expansions of a graph, through one cache and in any order,
rebuilds the graph: the maps of the cache are a correspondence between
the graph and the heap loaded into, along which contents agree (`Inv`).

`Graph.loaded` is the graph a load can rebuild: strings end at their
first NUL byte, and of two keys that become equal the one stored last
stays.
-/

namespace Rushit

namespace Serialize

open Lua

/-! ## The graph a load rebuilds -/

/-- A value as `strdup` leaves it. -/
def cut : Value → Value
  | .string s => .string (strdup s)
  | v => v

/-- A slot as `strdup` leaves it. -/
def cutSlot (s : Slot) : Slot := ⟨cut s.value, s.collector⟩

/-- Stores a slot under a key. -/
def put (es : List (Value × Slot)) (k : Value) (s : Slot) : List (Value × Slot) :=
  es.filter (·.1 ≠ k) ++ [(k, s)]

/-- What the loop of `push_table` stores of a table's entries, last
first. -/
def stored : List (Value × Slot) → List (Value × Slot)
  | [] => []
  | e :: es => put (stored es) (cut e.1) (cutSlot e.2)

/-- What is rebuilt of a node. -/
def loadedNode : Node → Node
  | .table es => .table (stored es)
  | .closure c => .closure c
  | .cell s => .cell (cutSlot s)

/-- What is rebuilt of a graph. -/
def loaded (G : Graph) : Graph := fun a => (G a).map loadedNode

@[simp] theorem cut_ref (v : Value) : (cut v).ref? = v.ref? := by
  cases v <;> rfl

/-- The entries stored are entries given, cut. -/
theorem mem_stored {es : List (Value × Slot)} {e : Value × Slot} (he : e ∈ stored es) :
    ∃ d ∈ es, e = (cut d.1, cutSlot d.2) := by
  induction es with
  | nil => cases he
  | cons d es ih =>
    rcases List.mem_append.mp he with he | he
    · obtain ⟨d', hd', heq⟩ := ih (List.mem_of_mem_filter he)
      exact ⟨d', List.mem_cons_of_mem _ hd', heq⟩
    · exact ⟨d, by simp, List.mem_singleton.mp he⟩

/-! ## The correspondence of a cache -/

/-- The correspondence the maps of a cache make. -/
def Target.corr (σ : Target) : Corr where
  obj a a' := (a, a') ∈ σ.objectMap
  cell c x := ∃ f i, (c, f, i) ∈ σ.upvalueMap ∧ σ.heap.upvalueid f i = some x

/-- A stored entry and its image. -/
def StoredAs (R : Corr) (e : Value × Slot) (e' : Value × Value) : Prop :=
  R.Val e.1 e'.1 ∧ R.Val e.2.value e'.2

variable {cap : Site → Addr → Prop} {al : Allocator} {σ σ₁ σ₂ σ' : Target} {G : Graph}
variable {P : Addr → Prop} {R R' : Corr}

theorem StoredAs.mono (hle : R ≤ R') {e : Value × Slot} {e' : Value × Value}
    (h : StoredAs R e e') : StoredAs R' e e' := ⟨h.1.mono hle, h.2.mono hle⟩

theorem Ext.corr_le {own new : Addr → Prop} (h : Ext own new σ σ') : σ.corr ≤ σ'.corr := by
  refine ⟨fun a a' ha => h.mem_objectMap ha, ?_⟩
  rintro c x ⟨f, i, hm, hx⟩
  exact ⟨f, i, h.mem_upvalueMap hm, by rw [h.slots c f i hm, hx]⟩

/-- **The state loaded so far.** Every mapped object is of the kind of
its original, and so is its content unless the object is one of the
pending `P`; every mapped cell has its content; no two originals have
one image, and no table or cell has two. -/
structure Inv (G : Graph) (P : Addr → Prop) (σ : Target) : Prop where
  object : ∀ a a', (a, a') ∈ σ.objectMap →
    (∃ es t, G a = some (.table es) ∧ σ.heap.lookup a' = some (.table t) ∧
      (¬ P a' → List.Forall₂ (StoredAs σ.corr) (stored es) t.entries)) ∨
    ∃ c c', G a = some (.closure c) ∧ σ.heap.lookup a' = some (.closure c') ∧
      c'.proto = c.proto ∧ (¬ P a' → List.Forall₂ σ.corr.cell c.uvs c'.uvs)
  cell : ∀ c x, σ.corr.cell c x → ∃ s w, G c = some (.cell s) ∧
    σ.heap.lookup x = some (.cell w) ∧ σ.corr.Val (cut s.value) w
  object_inj : ∀ a b a', (a, a') ∈ σ.objectMap → (b, a') ∈ σ.objectMap → a = b
  table_fun : ∀ a a' b' es, G a = some (.table es) → (a, a') ∈ σ.objectMap →
    (a, b') ∈ σ.objectMap → a' = b'
  cell_inj : ∀ c d x, σ.corr.cell c x → σ.corr.cell d x → c = d
  cells_nodup : (σ.upvalueMap.map Prod.fst).Nodup

namespace Inv

/-- An empty cache over any heap. -/
theorem empty (G : Graph) (P : Addr → Prop) (h : Heap) (tbl : List (Addr × Value))
    (col : List (Addr × Addr × SValue)) : Inv G P ⟨h, tbl, [], [], col⟩ where
  object := by simp
  cell := by rintro c x ⟨f, i, hm, -⟩; cases hm
  object_inj := by simp
  table_fun := by simp
  cell_inj := by rintro c d x ⟨f, i, hm, -⟩; cases hm
  cells_nodup := by simp

/-- A cell has one image. -/
theorem cell_fun (h : Inv G P σ) {c x y : Addr} (hx : σ.corr.cell c x) (hy : σ.corr.cell c y) :
    x = y := by
  obtain ⟨f, i, hm, hx⟩ := hx
  obtain ⟨g, j, hm', hy⟩ := hy
  have heq : (c, f, i) = (c, g, j) := List.inj_on_of_nodup_map h.cells_nodup hm hm' rfl
  simp only [Prod.mk.injEq, true_and] at heq
  obtain ⟨rfl, rfl⟩ := heq
  rw [hx] at hy
  exact Option.some.inj hy

/-- More objects may be called pending. -/
theorem weaken {P' : Addr → Prop} (h : Inv G P σ) (hP : ∀ a, P a → P' a) : Inv G P' σ := by
  refine ⟨fun a a' hm => ?_, h.cell, h.object_inj, h.table_fun, h.cell_inj, h.cells_nodup⟩
  rcases h.object a a' hm with ⟨es, t, hG, ht, hc⟩ | ⟨c, c', hG, hc', hp, hc⟩
  · exact .inl ⟨es, t, hG, ht, fun hn => hc fun hP' => hn (hP _ hP')⟩
  · exact .inr ⟨c, c', hG, hc', hp, fun hn => hc fun hP' => hn (hP _ hP')⟩

/-- A larger graph. -/
theorem of_le {G' : Graph} (h : Inv G P σ) (hG : ∀ a n, G a = some n → G' a = some n) :
    Inv G' P σ := by
  refine ⟨fun a a' hm => ?_, fun c x hx => ?_, h.object_inj, fun a a' b' es ha hm hm' => ?_,
    h.cell_inj, h.cells_nodup⟩
  · rcases h.object a a' hm with ⟨es, t, ha, ht, hc⟩ | ⟨c, c', ha, hc', hp, hc⟩
    · exact .inl ⟨es, t, hG _ _ ha, ht, hc⟩
    · exact .inr ⟨c, c', hG _ _ ha, hc', hp, hc⟩
  · obtain ⟨s, w, hc, hrest⟩ := h.cell c x hx
    exact ⟨s, w, hG _ _ hc, hrest⟩
  · rcases h.object a a' hm with ⟨es', t, ha', -⟩ | ⟨c, c', ha', -⟩
    · exact h.table_fun a a' b' es' ha' hm hm'
    · rw [hG _ _ ha'] at ha; cases ha

/-- An object is no longer pending once its content is there. -/
theorem close {p : Addr} (h : Inv G (fun a => P a ∨ a = p) σ)
    (htable : ∀ a es t, (a, p) ∈ σ.objectMap → G a = some (.table es) →
      σ.heap.lookup p = some (.table t) → List.Forall₂ (StoredAs σ.corr) (stored es) t.entries)
    (hclosure : ∀ a c c', (a, p) ∈ σ.objectMap → G a = some (.closure c) →
      σ.heap.lookup p = some (.closure c') → List.Forall₂ σ.corr.cell c.uvs c'.uvs) :
    Inv G P σ := by
  refine ⟨fun a a' hm => ?_, h.cell, h.object_inj, h.table_fun, h.cell_inj, h.cells_nodup⟩
  rcases h.object a a' hm with ⟨es, t, hG, ht, hc⟩ | ⟨c, c', hG, hc', hp, hc⟩
  · refine .inl ⟨es, t, hG, ht, fun hn => ?_⟩
    by_cases ha : a' = p
    · subst ha; exact htable a es t hm hG ht
    · exact hc fun hor => hor.elim hn ha
  · refine .inr ⟨c, c', hG, hc', hp, fun hn => ?_⟩
    by_cases ha : a' = p
    · subst ha; exact hclosure a c c' hm hG hc'
    · exact hc fun hor => hor.elim hn ha

/-- **The frame rule.** A step that keeps the object and upvalue maps,
and the heap but for a pending object whose kind it keeps, keeps the
invariant. -/
theorem frame {p : Addr} (h : Inv G P σ) (hp : P p) (hobj : σ'.objectMap = σ.objectMap)
    (hup : σ'.upvalueMap = σ.upvalueMap)
    (hslot : ∀ c f i, (c, f, i) ∈ σ.upvalueMap → σ'.heap.upvalueid f i = σ.heap.upvalueid f i)
    (hheap : ∀ x, x ≠ p → σ'.heap.lookup x = σ.heap.lookup x)
    (htable : ∀ t, σ.heap.lookup p = some (.table t) → ∃ t', σ'.heap.lookup p = some (.table t'))
    (hclosure : ∀ c, σ.heap.lookup p = some (.closure c) →
      ∃ c', σ'.heap.lookup p = some (.closure c') ∧ c'.proto = c.proto)
    (hcell : ∀ v, σ.heap.lookup p ≠ some (.cell v)) : Inv G P σ' := by
  have hcorr : σ'.corr = σ.corr := by
    have hc : σ'.corr.cell = σ.corr.cell := by
      funext c x
      refine propext ⟨?_, ?_⟩
      · rintro ⟨f, i, hm, hx⟩
        rw [hup] at hm
        exact ⟨f, i, hm, by rw [← hslot c f i hm, hx]⟩
      · rintro ⟨f, i, hm, hx⟩
        exact ⟨f, i, by rw [hup]; exact hm, by rw [hslot c f i hm, hx]⟩
    have ho : σ'.corr.obj = σ.corr.obj := by funext a a'; simp [Target.corr, hobj]
    cases hσ : σ'.corr; cases hσ' : σ.corr
    simp_all
  refine ⟨fun a a' hm => ?_, fun c x hx => ?_, ?_, ?_, ?_, by rw [hup]; exact h.cells_nodup⟩
  · rw [hobj] at hm
    rw [hcorr]
    -- what is said of `p` is left open
    by_cases ha : a' = p
    · subst ha
      rcases h.object a a' hm with ⟨es, t, hG, ht, -⟩ | ⟨c, c', hG, hc', hpr, -⟩
      · obtain ⟨t', ht'⟩ := htable t ht
        exact .inl ⟨es, t', hG, ht', fun hn => absurd hp hn⟩
      · obtain ⟨d, hd, hdp⟩ := hclosure c' hc'
        exact .inr ⟨c, d, hG, hd, hdp.trans hpr, fun hn => absurd hp hn⟩
    · rw [hheap a' ha]; exact h.object a a' hm
  · rw [hcorr] at hx ⊢
    obtain ⟨s, w, hG, hw, hv⟩ := h.cell c x hx
    have hne : x ≠ p := by rintro rfl; exact hcell w hw
    exact ⟨s, w, hG, by rw [hheap x hne, hw], hv⟩
  · rw [hobj]; exact h.object_inj
  · rw [hobj]; exact h.table_fun
  · rw [hcorr]; exact h.cell_inj

end Inv

/-! ## New objects -/

theorem corr_created {id a : Addr} {v : Value} (hv : Valid cap σ) (hcr : Created σ id a v σ')
    {e y : Addr} : σ'.corr.cell e y ↔ σ.corr.cell e y := by
  constructor
  · rintro ⟨f, i, hm, hy⟩
    rw [hcr.upvalueMap] at hm
    exact ⟨f, i, hm, by rw [← (hcr.ext hv fun _ => True).slots e f i hm, hy]⟩
  · exact (hcr.ext hv fun _ => True).corr_le.2 e y

/-- A new object is pending. -/
theorem Inv.created {id a : Addr} {v : Value} (h : Inv G P σ) (hv : Valid cap σ)
    (hcr : Created σ id a v σ')
    (hobj : (∃ es t, G id = some (.table es) ∧ σ'.heap.lookup a = some (.table t) ∧
        id ∉ σ.objectMap.map Prod.fst) ∨
      ∃ c c', G id = some (.closure c) ∧ σ'.heap.lookup a = some (.closure c') ∧
        c'.proto = c.proto) : Inv G (fun x => P x ∨ x = a) σ' := by
  have hext := hcr.ext hv fun _ => True
  have hle : σ.corr ≤ σ'.corr := hext.corr_le
  -- the new address is the image of nothing yet
  have hold : ∀ b, (b, a) ∉ σ.objectMap := fun b hm => hcr.not_live (hv.object b a hm).live
  have hmem : ∀ b b', (b, b') ∈ σ'.objectMap ↔ (b = id ∧ b' = a) ∨ (b, b') ∈ σ.objectMap := by
    intro b b'
    rw [hcr.objectMap, List.mem_cons, Prod.mk.injEq]
  refine ⟨fun b b' hm => ?_, fun c x hx => ?_, fun b d b' hm hm' => ?_,
    fun b b' d' es hG hm hm' => ?_, fun c d x hx hx' => ?_, ?_⟩
  · rcases (hmem b b').mp hm with ⟨rfl, rfl⟩ | hm
    · rcases hobj with ⟨es, t, hG, ht, -⟩ | ⟨c, c', hG, hc', hp⟩
      · exact .inl ⟨es, t, hG, ht, fun hn => absurd (.inr rfl) hn⟩
      · exact .inr ⟨c, c', hG, hc', hp, fun hn => absurd (.inr rfl) hn⟩
    · have hkeep := hcr.heap b' (hv.object b b' hm).live
      rw [hkeep]
      rcases h.object b b' hm with ⟨es, t, hG, ht, hc⟩ | ⟨c, c', hG, hc', hp, hc⟩
      · exact .inl ⟨es, t, hG, ht, fun hn =>
          (hc fun hP => hn (.inl hP)).imp fun _ _ hst => hst.mono hle⟩
      · exact .inr ⟨c, c', hG, hc', hp, fun hn =>
          (hc fun hP => hn (.inl hP)).imp fun _ _ hcell => hle.2 _ _ hcell⟩
  · obtain ⟨s, w, hG, hw, hval⟩ := h.cell c x ((corr_created hv hcr).mp hx)
    exact ⟨s, w, hG, by rw [hcr.heap x (Heap.live_of_lookup hw), hw], hval.mono hle⟩
  · rcases (hmem b b').mp hm with ⟨rfl, rfl⟩ | hm
    · rcases (hmem d b').mp hm' with ⟨rfl, -⟩ | hm'
      · rfl
      · exact absurd hm' (hold d)
    · rcases (hmem d b').mp hm' with ⟨rfl, rfl⟩ | hm'
      · exact absurd hm (hold b)
      · exact h.object_inj b d b' hm hm'
  · -- a table that was not found is mapped for the first time
    have hkey : ∀ y, (id, y) ∈ σ.objectMap → b ≠ id := by
      rintro y hy rfl
      rcases hobj with ⟨-, -, -, -, hnew⟩ | ⟨c, -, hG', -⟩
      · exact hnew (List.mem_map.mpr ⟨_, hy, rfl⟩)
      · rw [hG] at hG'; cases hG'
    rcases (hmem b b').mp hm with ⟨rfl, rfl⟩ | hm
    · rcases (hmem b d').mp hm' with ⟨-, rfl⟩ | hm'
      · rfl
      · exact absurd rfl (hkey d' hm')
    · rcases (hmem b d').mp hm' with ⟨rfl, rfl⟩ | hm'
      · exact absurd rfl (hkey b' hm)
      · exact h.table_fun b b' d' es hG hm hm'
  · exact h.cell_inj c d x ((corr_created hv hcr).mp hx) ((corr_created hv hcr).mp hx')
  · rw [hcr.upvalueMap]; exact h.cells_nodup

/-! ## The loop of push_function -/

/-- The function under construction: the cells of its upvalues `1` to
`n` are nobody's image yet, those above are the images of `done`. -/
structure Filling (σ : Target) (c : Closure) (n : ℕ) (done : List Addr) : Prop where
  fresh : ∀ x ∈ c.uvs.take n, ∀ e, ¬ σ.corr.cell e x
  nodup : (c.uvs.take n).Nodup
  done : List.Forall₂ σ.corr.cell done (c.uvs.drop n)

section Upvalue

variable {fid id : Addr} {c : Closure} {m n : ℕ} {collectorId : Option Addr} {x : Addr}
variable {v : Value} {done : List Addr}

/-- Filling survives whatever only adds: new images are new cells. -/
theorem Filling.of_ext {new : Addr → Prop} (hf : Filling σ c n done) (hb : Building σ fid c n)
    (hext : Ext noOne new σ σ₁) : Filling σ₁ c n done where
  fresh x hx e := by
    rintro ⟨f, i, hm, hx'⟩
    obtain ⟨w, hw⟩ := hb.cells x hx
    obtain ⟨l, hl, hp⟩ := hext.upvalueMap
    rw [hl] at hm
    rcases List.mem_append.mp hm with hm | hm
    · obtain ⟨-, -, y, hy, hnl⟩ := hp _ hm
      rw [hx'] at hy
      obtain rfl := Option.some.inj hy
      exact hnl.elim (fun h => h (Heap.live_of_lookup hw)) id
    · exact hf.fresh x hx e ⟨f, i, hm, by rw [← hext.slots e f i hm, hx']⟩
  nodup := hf.nodup
  done := hf.done.imp fun _ _ hc => hext.corr_le.2 _ _ hc

theorem corr_joined (hb : Building σ fid c (m + 1)) {e y : Addr} :
    (σ.joined fid c m x).corr.cell e y ↔ σ.corr.cell e y := by
  have hslot : ∀ f i, (e, f, i) ∈ σ.upvalueMap →
      (σ.joined fid c m x).heap.upvalueid f i = σ.heap.upvalueid f i := by
    intro f i hm
    refine upvalueid_joined hb ?_
    by_cases hf : f = fid
    · subst hf
      have := hb.unmapped e i hm
      exact .inr (by omega)
    · exact .inl hf
  constructor
  · rintro ⟨f, i, hm, hy⟩
    exact ⟨f, i, hm, by rw [← hslot f i hm, hy]⟩
  · rintro ⟨f, i, hm, hy⟩
    exact ⟨f, i, hm, by rw [hslot f i hm, hy]⟩

theorem drop_eq_cons (hx : c.uvs[m]? = some x) : c.uvs.drop m = x :: c.uvs.drop (m + 1) := by
  obtain ⟨hlt, rfl⟩ := List.getElem?_eq_some_iff.mp hx
  exact List.drop_eq_getElem_cons hlt

theorem take_eq_append (hx : c.uvs[m]? = some x) :
    c.uvs.take (m + 1) = c.uvs.take m ++ [x] := by
  rw [List.take_add_one, hx]; rfl

theorem Filling.joined (hf : Filling σ c (m + 1) done) (hb : Building σ fid c (m + 1))
    (hx : σ.corr.cell id x) :
    Filling (σ.joined fid c m x) (c.join m x) m (id :: done) where
  fresh y hy e he := by
    rw [Closure_join_take] at hy
    exact hf.fresh y (List.take_subset_take_left _ (Nat.le_succ m) hy) e ((corr_joined hb).mp he)
  nodup := by
    rw [Closure_join_take]
    exact hf.nodup.sublist (List.take_sublist_take_left (Nat.le_succ m))
  done := by
    have hlt : m < c.uvs.length := by have := hb.le; omega
    have hself : (c.join m x).uvs[m]? = some x := by simp [Closure.join, hlt]
    rw [drop_eq_cons hself]
    have hdrop : (c.join m x).uvs.drop (m + 1) = c.uvs.drop (m + 1) := by
      simp [Closure.join, List.drop_set_of_lt]
    rw [hdrop]
    exact .cons ((corr_joined hb).mpr hx) (hf.done.imp fun _ _ hc => (corr_joined hb).mpr hc)

/-- Setting an upvalue makes its cell the image of `id`. -/
theorem corr_setSlot (hv : Valid cap σ) (hb : Building σ fid c (m + 1))
    (hx : c.uvs[m]? = some x) {e y : Addr} :
    (σ.setSlot fid id m collectorId x v).corr.cell e y ↔
      σ.corr.cell e y ∨ (e = id ∧ y = x) := by
  have hmem : x ∈ c.uvs.take (m + 1) := List.mem_of_getElem? (i := m) (by simp [hx])
  obtain ⟨w, hw⟩ := hb.cells x hmem
  have hne : ∀ f i, σ.HasUpvalue f i → f ≠ x := by
    rintro f i ⟨-, y, -, hy, -⟩ rfl
    obtain ⟨d, -, hd, -⟩ := Heap.upvalueid_eq_some.mp hy
    rw [hw] at hd; cases hd
  have hslot : ∀ f i, (e, f, i) ∈ σ.upvalueMap →
      (σ.setSlot fid id m collectorId x v).heap.upvalueid f i = σ.heap.upvalueid f i :=
    fun f i hm => Heap.upvalueid_congr (lookup_cons_ne (hne f i (hv.upvalue e f i hm)))
  have hself : (σ.setSlot fid id m collectorId x v).heap.upvalueid fid (m + 1) = some x := by
    rw [Heap.upvalueid_congr (show (σ.setSlot fid id m collectorId x v).heap.lookup fid = _ from
      lookup_cons_ne (hb.ne_fid hw).symm), Heap.upvalueid_succ hb.closure, hx]
  constructor
  · rintro ⟨f, i, hm, hy⟩
    rcases List.mem_cons.mp hm with heq | hm
    · simp only [Prod.mk.injEq] at heq
      obtain ⟨rfl, rfl, rfl⟩ := heq
      rw [hself] at hy
      exact .inr ⟨rfl, (Option.some.inj hy).symm⟩
    · exact .inl ⟨f, i, hm, by rw [← hslot f i hm, hy]⟩
  · rintro (⟨f, i, hm, hy⟩ | ⟨rfl, rfl⟩)
    · exact ⟨f, i, List.mem_cons_of_mem _ hm, by rw [hslot f i hm, hy]⟩
    · exact ⟨fid, m + 1, List.mem_cons_self, hself⟩

theorem Filling.setSlot (hf : Filling σ c (m + 1) done) (hv : Valid cap σ)
    (hb : Building σ fid c (m + 1)) (hx : c.uvs[m]? = some x) :
    Filling (σ.setSlot fid id m collectorId x v) c m (id :: done) where
  fresh y hy e he := by
    rcases (corr_setSlot hv hb hx).mp he with he | ⟨-, rfl⟩
    · exact hf.fresh y (List.take_subset_take_left _ (Nat.le_succ m) hy) e he
    · have hnd := hf.nodup
      rw [take_eq_append hx, List.nodup_append] at hnd
      exact hnd.2.2 y hy y (by simp) rfl
  nodup := hf.nodup.sublist (List.take_sublist_take_left (Nat.le_succ m))
  done := by
    rw [drop_eq_cons hx]
    exact .cons ((corr_setSlot hv hb hx).mpr (.inr ⟨rfl, rfl⟩))
      (hf.done.imp fun _ _ hc => (corr_setSlot hv hb hx).mpr (.inl hc))

/-- **A join keeps the invariant**: it changes a pending function. -/
theorem Inv.joined (h : Inv G P σ) (hP : P fid) (hb : Building σ fid c (m + 1)) :
    Inv G P (σ.joined fid c m x) := by
  refine h.frame hP rfl rfl (fun e f i hm => upvalueid_joined hb ?_)
    (fun y hy => lookup_cons_ne hy) (fun t ht => ?_) (fun d hd => ?_) fun w hw => ?_
  · by_cases hf : f = fid
    · subst hf
      have := hb.unmapped e i hm
      exact .inr (by omega)
    · exact .inl hf
  · rw [hb.closure] at ht; cases ht
  · rw [hb.closure] at hd; cases hd
    exact ⟨c.join m x, by simp [Target.joined, Target.withHeap], rfl⟩
  · rw [hb.closure] at hw; cases hw

/-- **Setting an upvalue keeps the invariant**: the cell it writes was
nobody's image, and becomes the image of a cell of that content. -/
theorem Inv.setSlot (h : Inv G P σ) (hv : Valid cap σ) (hb : Building σ fid c (m + 1))
    (hx : c.uvs[m]? = some x) (hfresh : ∀ e, ¬ σ.corr.cell e x) {s : Slot}
    (hG : G id = some (.cell s)) (hnew : id ∉ σ.upvalueMap.map Prod.fst)
    (hval : σ.corr.Val (cut s.value) v) :
    Inv G P (σ.setSlot fid id m collectorId x v) := by
  have hmem : x ∈ c.uvs.take (m + 1) := List.mem_of_getElem? (i := m) (by simp [hx])
  obtain ⟨w₀, hw₀⟩ := hb.cells x hmem
  have hother : ∀ y, y ≠ x → (σ.setSlot fid id m collectorId x v).heap.lookup y =
      σ.heap.lookup y := fun y hy => lookup_cons_ne hy
  have hle : σ.corr ≤ (σ.setSlot fid id m collectorId x v).corr :=
    ⟨fun _ _ ha => ha, fun _ _ hc => (corr_setSlot hv hb hx).mpr (.inl hc)⟩
  refine ⟨fun a a' hm => ?_, fun e y hy => ?_, h.object_inj, h.table_fun, fun d e y hd he => ?_, ?_⟩
  · rcases h.object a a' hm with ⟨es, t, ha, ht, hc⟩ | ⟨d, d', ha, hd, hp, hc⟩
    · have hne : a' ≠ x := by rintro rfl; rw [hw₀] at ht; cases ht
      exact .inl ⟨es, t, ha, by rw [hother a' hne, ht],
        fun hn => (hc hn).imp fun _ _ hst => hst.mono hle⟩
    · have hne : a' ≠ x := by rintro rfl; rw [hw₀] at hd; cases hd
      exact .inr ⟨d, d', ha, by rw [hother a' hne, hd], hp,
        fun hn => (hc hn).imp fun _ _ hcell => hle.2 _ _ hcell⟩
  · rcases (corr_setSlot hv hb hx).mp hy with hold | ⟨rfl, rfl⟩
    · obtain ⟨s', w, hs', hw, hval'⟩ := h.cell e y hold
      have hne : y ≠ x := by rintro rfl; exact hfresh e hold
      exact ⟨s', w, hs', by rw [hother y hne, hw], hval'.mono hle⟩
    · exact ⟨s, v, hG, by simp [Target.setSlot], hval.mono hle⟩
  · rcases (corr_setSlot hv hb hx).mp hd with hold | ⟨rfl, rfl⟩
    · rcases (corr_setSlot hv hb hx).mp he with hold' | ⟨rfl, rfl⟩
      · exact h.cell_inj d e y hold hold'
      · exact absurd hold (hfresh d)
    · rcases (corr_setSlot hv hb hx).mp he with hold' | ⟨rfl, -⟩
      · exact absurd hold' (hfresh e)
      · rfl
  · simpa [Target.setSlot] using ⟨by simpa using hnew, h.cells_nodup⟩

end Upvalue

/-! ## The loop of push_table -/

/-- **Storing an entry.** The new key replaces the key it becomes equal
to, in the table as in the graph: two references used as keys of one
table were different keys. -/
theorem stored_insert {done : List (Value × Slot)} {t : Table} {k k' v : Value} {s : Slot}
    (hinj : ∀ a b a', R.obj a a' → R.obj b a' → a = b)
    (hdone : List.Forall₂ (StoredAs R) (stored done) t.entries) (hk : R.Val (cut k) k')
    (hs : R.Val (cut s.value) v) (hnew : k ∉ done.map Prod.fst) (hkey : k'.keyable = true)
    (hv : v ≠ .nil) :
    List.Forall₂ (StoredAs R) (stored ((k, s) :: done)) (t.insert k' v hkey hv).entries := by
  refine List.rel_append (forall₂_filter hdone fun e he e' hee => ?_) (.cons ⟨hk, hs⟩ .nil)
  rw [decide_eq_decide, not_iff_not]
  refine ⟨fun heq => ?_, fun heq => hee.1.inj hinj (heq ▸ hk)⟩
  cases hr : k.ref? with
  | none =>
    have hc : (cut k).ref? = none := by rw [cut_ref, hr]
    have h₁ := (Corr.val_of_ref_none (heq ▸ hc)).mp hee.1
    rw [h₁, heq, (Corr.val_of_ref_none hc).mp hk]
  | some a =>
    obtain ⟨d, hd, heq'⟩ := mem_stored he
    have hcut : e.1 = cut d.1 := by rw [heq']
    have hkd : k = d.1 := by
      have hck : cut k = k := by cases k <;> first | rfl | cases hr
      have hcd : cut d.1 = d.1 := by
        have : d.1.ref? = some a := by rw [← cut_ref, ← hcut, heq, cut_ref, hr]
        revert this
        cases d.1 <;> simp [cut, Value.ref?]
      rw [← hck, ← heq, hcut, hcd]
    exact absurd (List.mem_map.mpr ⟨d, hd, hkd.symm⟩) hnew

/-- **Storing an entry keeps the invariant**: it changes a pending
table. -/
theorem Inv.setEntry {tid : Addr} {t t' : Table} {collectorId : Option Addr} {key : SValue}
    (h : Inv G P σ) (hv : Valid cap σ) (hP : P tid) (ht : σ.heap.lookup tid = some (.table t)) :
    Inv G P (σ.setEntry tid t' collectorId key) := by
  refine h.frame hP rfl rfl (fun e f i hm => ?_) (fun y hy => lookup_cons_ne hy)
    (fun u _ => ⟨t', by simp [Target.setEntry]⟩) (fun d hd => ?_) fun w hw => ?_
  · obtain ⟨-, x, -, hx, -⟩ := hv.upvalue e f i hm
    obtain ⟨d, -, hd, -⟩ := Heap.upvalueid_eq_some.mp hx
    refine Heap.upvalueid_congr (lookup_cons_ne ?_)
    rintro rfl
    rw [ht] at hd; cases hd
  · rw [ht] at hd; cases hd
  · rw [ht] at hw; cases hw

/-! ## The trees -/

/-- The object an id is mapped to, as a value, is the image of the
reference. -/
theorem Inv.lookup (h : Inv G P σ) (hv : Valid cap σ) {id : Addr} {u v : Value}
    (hu : u = .table id ∧ (∃ es, G id = some (.table es)) ∨
      u = .function id ∧ ∃ c, G id = some (.closure c))
    (hl : σ.lookupAndFetchObject id = some v) : σ.corr.Val u v := by
  obtain ⟨a, hm, hkind⟩ := lookupAndFetchObject_some hv hl
  rcases h.object id a hm with ⟨es, t, hG, ht, -⟩ | ⟨c, c', hG, hc, -, -⟩
  · rcases hu with ⟨rfl, -⟩ | ⟨-, d, hd⟩
    · rcases hkind with ⟨rfl, -⟩ | ⟨-, d, hd⟩
      · exact ⟨a, rfl, hm⟩
      · rw [ht] at hd; cases hd
    · rw [hG] at hd; cases hd
  · rcases hu with ⟨-, es, hes⟩ | ⟨rfl, -⟩
    · rw [hG] at hes; cases hes
    · rcases hkind with ⟨-, t, ht⟩ | ⟨rfl, -⟩
      · rw [hc] at ht; cases ht
      · exact ⟨a, rfl, hm⟩

section Trees

variable {fid : Addr} {c : Closure} {m : ℕ} {done : List Addr}

/-- **One upvalue.** Whether it is joined or set, its cell is the image
of the serialised one from then on. -/
theorem setSharedUpvalue_inv {id : Addr} {value : SValue} {collectorId : Option Addr} {s : Slot}
    {push : Target → Except Fault (Value × Target)} {v : Value}
    (h : Inv G P σ) (hv : Valid cap σ) (hP : P fid) (hb : Building σ fid c (m + 1))
    (hf : Filling σ c (m + 1) done) (hid : G id = some (.cell s))
    (hvalue : value.Expands G s.value) (hcap : Captures cap (.upvalue id) collectorId)
    (hpush : push σ = .ok (v, σ₁)) (hg : Grown cap noOne (value.Mentions ·) σ σ₁)
    (h₁ : Inv G P σ₁) (hval : σ₁.corr.Val (cut s.value) v) :
    ∃ σ' c', setSharedUpvalue fid id (m + 1) collectorId push σ = .ok σ' ∧ Inv G P σ' ∧
      Valid cap σ' ∧ Building σ' fid c' m ∧ Filling σ' c' m (id :: done) ∧
      ∀ p ∈ σ.objectMap, p ∈ σ'.objectMap := by
  rcases hm : σ.lookupUpvalue id with _ | ⟨g, i⟩
  · -- the first function with this upvalue sets the value
    have hb₁ := hb.of_ext hg.ext
    have hf₁ := hf.of_ext hb hg.ext
    obtain ⟨x, hx, hslot⟩ := hb₁.upvalueid
    have hmem : x ∈ c.uvs.take (m + 1) := List.mem_of_getElem? (i := m) (by simp [hx])
    have hnew : id ∉ σ₁.upvalueMap.map Prod.fst :=
      hg.ext.not_mem_upvalueMap (not_mentions_self hvalue hid) hm
    have hgrown : Grown cap _ (fun _ => True) σ₁ (σ₁.setSlot fid id m collectorId x v) :=
      setSlot_grown hg.valid hb₁ hx hcap trivial hnew
    exact ⟨_, c, setSharedUpvalue_new hm hpush hslot,
      h₁.setSlot hg.valid hb₁ hx (hf₁.fresh x hmem) hid hnew hval, hgrown.valid,
      hb₁.setSlot hx, hf₁.setSlot hg.valid hb₁ hx, fun p hp => hg.ext.mem_objectMap hp⟩
  · -- any later one joins its upvalue to the cell there is
    obtain ⟨x, w, hx, hw, heq⟩ := setSharedUpvalue_seen hv hb hm
    have hcell : σ.corr.cell id x := ⟨g, i, mem_of_lookup hm, hx⟩
    exact ⟨_, _, heq, h.joined hP hb, (joined_grown hv hb hw fun _ => True).valid, hb.joined,
      hf.joined hb hcell, fun p hp => hp⟩

/-- `push_function` before its loop: the new function is pending, and
all its upvalues are to be filled. -/
theorem newFunction_inv (al : Allocator) {id : Addr} {d : Closure} (hd : G id = some (.closure d))
    (hv : Valid cap σ) (h : Inv G P σ) :
    ∃ c, Valid cap (newFunction al id d.proto σ).2 ∧
      Inv G (fun x => P x ∨ x = (newFunction al id d.proto σ).1) (newFunction al id d.proto σ).2 ∧
      Building (newFunction al id d.proto σ).2 (newFunction al id d.proto σ).1 c d.uvs.length ∧
      Filling (newFunction al id d.proto σ).2 c d.uvs.length [] ∧
      (id, (newFunction al id d.proto σ).1) ∈ (newFunction al id d.proto σ).2.objectMap := by
  obtain ⟨hcr, c, hc, hproto, hnd, -, hcells⟩ := newFunction_spec al id d.proto σ
  have hlen : c.uvs.length = d.uvs.length := by rw [c.size_eq, hproto, d.size_eq]
  have hb := Building.of_created hv hcr hc fun x hx => ⟨.nil, (hcells x hx).2⟩
  rw [hlen] at hb
  refine ⟨c, hcr.valid hv (.inr ⟨c, hc, hcr.fetch⟩),
    h.created hv hcr (.inr ⟨d, c, hd, hc, hproto⟩), hb, ⟨fun x hx e he => ?_, ?_, ?_⟩, ?_⟩
  · obtain ⟨s, w, -, hw, -⟩ := h.cell e x ((corr_created hv hcr).mp he)
    exact (hcells x (List.mem_of_mem_take hx)).1 (Heap.live_of_lookup hw)
  · exact hnd.sublist (List.take_sublist _ _)
  · rw [← hlen, List.drop_length]; exact .nil
  · rw [hcr.objectMap]; exact List.mem_cons_self

/-- A function whose upvalues are all filled is no longer pending. -/
theorem Inv.closeFunction {id : Addr} {d : Closure} (hd : G id = some (.closure d))
    (h : Inv G (fun x => P x ∨ x = fid) σ) (hm : (id, fid) ∈ σ.objectMap)
    (hc : σ.heap.lookup fid = some (.closure c)) (hfill : List.Forall₂ σ.corr.cell d.uvs c.uvs) :
    Inv G P σ := by
  refine h.close (fun a es t _ _ ht => ?_) fun a e e' hm' hG' he' => ?_
  · rw [hc] at ht; cases ht
  · obtain rfl := h.object_inj a id _ hm' hm
    rw [hd] at hG'; cases hG'
    rw [hc] at he'; cases he'
    exact hfill

/-- `push_table` before its loop: the new table is pending, and empty. -/
theorem newTable_inv (al : Allocator) {id : Addr} {ents : List (Value × Slot)}
    (hents : G id = some (.table ents)) (hv : Valid cap σ) (h : Inv G P σ)
    (hl : σ.lookupAndFetchObject id = none) :
    Valid cap (newTable al id σ).2 ∧
      Inv G (fun x => P x ∨ x = (newTable al id σ).1) (newTable al id σ).2 ∧
      (newTable al id σ).2.heap.lookup (newTable al id σ).1 = some (.table Table.empty) ∧
      (id, (newTable al id σ).1) ∈ (newTable al id σ).2.objectMap := by
  obtain ⟨hcr, ht⟩ := newTable_spec al id σ
  have hid : (id, (newTable al id σ).1) ∈ (newTable al id σ).2.objectMap := by
    rw [hcr.objectMap]; exact List.mem_cons_self
  exact ⟨hcr.valid hv (.inl ⟨_, ht, hcr.fetch⟩),
    h.created hv hcr (.inl ⟨ents, _, hents, ht, lookupAndFetchObject_none hl⟩), ht, hid⟩

/-- A table whose entries are all there is no longer pending. -/
theorem Inv.closeTable {id tid : Addr} {t : Table} {ents : List (Value × Slot)}
    (hents : G id = some (.table ents)) (h : Inv G (fun x => P x ∨ x = tid) σ)
    (hm : (id, tid) ∈ σ.objectMap) (ht : σ.heap.lookup tid = some (.table t))
    (hstored : List.Forall₂ (StoredAs σ.corr) (stored ents) t.entries) : Inv G P σ := by
  refine h.close (fun a es t' hm' hG' ht' => ?_) fun a d d' _ _ hd' => ?_
  · obtain rfl := h.object_inj a id _ hm' hm
    rw [hents] at hG'; cases hG'
    rw [ht] at ht'; cases ht'
    exact hstored
  · rw [ht] at hd'; cases hd'

mutual

/-- **push_object rebuilds the value.** -/
theorem pushObject_inv (hG : Regular G) (al : Allocator) (t : SValue) {P : Addr → Prop}
    {v v' : Value} (ht : t.Expands G v) (σ : Target) {σ' : Target} (hv : Valid (capture G) σ)
    (h : Inv G P σ) (hok : pushObject al t σ = .ok (v', σ')) :
    Inv G P σ' ∧ σ'.corr.Val (cut v) v' := by
  cases t with
  | boolean b =>
    obtain rfl : v = _ := ht
    obtain ⟨rfl, rfl⟩ : .boolean b = v' ∧ σ = σ' := by
      simpa [pushObject, pure, Except.pure] using hok
    exact ⟨h, rfl⟩
  | number n =>
    obtain rfl : v = _ := ht
    obtain ⟨rfl, rfl⟩ : .number n = v' ∧ σ = σ' := by
      simpa [pushObject, pure, Except.pure] using hok
    exact ⟨h, rfl⟩
  | string s =>
    obtain ⟨s', rfl, rfl⟩ := ht
    obtain ⟨rfl, rfl⟩ : .string (strdup s') = v' ∧ σ = σ' := by
      simpa [pushObject, pure, Except.pure] using hok
    exact ⟨h, rfl⟩
  | function id code us =>
    have hsound := ht.sound hG
    obtain ⟨rfl, d, hd, rfl, hus⟩ := ht
    simp only [pushObject] at hok
    rcases hl : σ.lookupAndFetchObject id with _ | u
    · rw [hl] at hok
      obtain ⟨σ₂, hloop, hret⟩ := bind_eq_ok.mp hok
      obtain ⟨rfl, rfl⟩ : Value.function _ = v' ∧ σ₂ = σ' := by
        simpa [pure, Except.pure] using hret
      -- the function is cached before its upvalues are set
      obtain ⟨c, hv₁, h₁, hb, hf, hid⟩ := newFunction_inv al hd hv h
      obtain ⟨h₂, c₂, hc₂, hfill, hid₂⟩ :=
        setSharedUpvalues_inv hG al us [] hus _ hv₁ h₁ (.inr rfl) hb hf hid hloop
      rw [List.append_nil] at hfill
      exact ⟨h₂.closeFunction hd hid₂ hc₂ hfill, _, rfl, hid₂⟩
    · rw [hl] at hok
      obtain ⟨rfl, rfl⟩ : u = v' ∧ σ = σ' := by simpa [pure, Except.pure] using hok
      exact ⟨h, h.lookup hv (.inr ⟨rfl, d, hd⟩) hl⟩
  | table id es =>
    obtain ⟨rfl, ents, hents, hes⟩ := ht
    simp only [pushObject] at hok
    rcases hl : σ.lookupAndFetchObject id with _ | u
    · rw [hl] at hok
      obtain ⟨σ₂, hloop, hret⟩ := bind_eq_ok.mp hok
      obtain ⟨rfl, rfl⟩ : Value.table _ = v' ∧ σ₂ = σ' := by
        simpa [pure, Except.pure] using hret
      -- the table is cached before its entries are set
      obtain ⟨hv₁, h₁, ht₁, hid⟩ := newTable_inv al hents hv h hl
      obtain ⟨h₂, t₂, ht₂, hstored, hid₂⟩ := pushEntries_inv hG al es [] hes
        (by simpa using hents) _ hv₁ h₁ (.inr rfl) ht₁ hid .nil hloop
      rw [List.append_nil] at hstored
      exact ⟨h₂.closeTable hents hid₂ ht₂ hstored, _, rfl, hid₂⟩
    · rw [hl] at hok
      obtain ⟨rfl, rfl⟩ : u = v' ∧ σ = σ' := by simpa [pure, Except.pure] using hok
      exact ⟨h, h.lookup hv (.inl ⟨rfl, ents, hents⟩) hl⟩

/-- The loop of `push_function` fills the upvalues `ys`, last first. -/
theorem setSharedUpvalues_inv (hG : Regular G) (al : Allocator) (us : SUpvalues)
    {P : Addr → Prop} {fid id : Addr} {c : Closure} {ys : List Addr} (done : List Addr)
    (hus : us.Expands G ys) (σ : Target) {σ' : Target} (hv : Valid (capture G) σ)
    (h : Inv G P σ) (hP : P fid) (hb : Building σ fid c ys.length)
    (hf : Filling σ c ys.length done) (hid : (id, fid) ∈ σ.objectMap)
    (hok : setSharedUpvalues al fid us σ = .ok σ') :
    Inv G P σ' ∧ ∃ c', σ'.heap.lookup fid = some (.closure c') ∧
      List.Forall₂ σ'.corr.cell (ys ++ done) c'.uvs ∧ (id, fid) ∈ σ'.objectMap := by
  cases us with
  | nil =>
    obtain rfl : ys = _ := hus
    obtain rfl : σ = σ' := by simpa [setSharedUpvalues, pure, Except.pure] using hok
    exact ⟨h, c, hb.closure, by simpa using hf.done, hid⟩
  | cons x number value collectorId next =>
    have hsound := hus.sound hG
    obtain ⟨zs, s, rfl, rfl, hx, hvalue, rfl, hnext⟩ := hus
    obtain ⟨_, -, -, hvs, -, hcap, -⟩ := hsound
    rw [List.length_append, List.length_singleton] at hb hf
    obtain ⟨v, σ₁, hpush, hg, -⟩ := pushObject_grown al value hvs σ hv
    obtain ⟨h₁, hval⟩ := pushObject_inv hG al value hvalue σ hv h hpush
    obtain ⟨σ₂, c₂, hstep, h₂, hv₂, hb₂, hf₂, hobj⟩ :=
      setSharedUpvalue_inv h hv hP hb hf hx hvalue hcap hpush hg h₁ hval
    simp only [setSharedUpvalues] at hok
    rw [hstep] at hok
    have hrest := setSharedUpvalues_inv hG al next (x :: done) hnext σ₂ hv₂ h₂ hP hb₂ hf₂
      (hobj _ hid) hok
    simpa using hrest

theorem pushEntries_inv (hG : Regular G) (al : Allocator) (es : SEntries) {P : Addr → Prop}
    {tid id : Addr} {t : Table} {ds : List (Value × Slot)} (done : List (Value × Slot))
    (hes : es.Expands G ds) (hid : G id = some (.table (ds ++ done))) (σ : Target) {σ' : Target}
    (hv : Valid (capture G) σ) (h : Inv G P σ) (hP : P tid)
    (ht : σ.heap.lookup tid = some (.table t)) (hm : (id, tid) ∈ σ.objectMap)
    (hdone : List.Forall₂ (StoredAs σ.corr) (stored done) t.entries)
    (hok : pushEntries al tid es σ = .ok σ') :
    Inv G P σ' ∧ ∃ t', σ'.heap.lookup tid = some (.table t') ∧
      List.Forall₂ (StoredAs σ'.corr) (stored (ds ++ done)) t'.entries ∧
      (id, tid) ∈ σ'.objectMap := by
  cases es with
  | nil =>
    obtain rfl : ds = _ := hes
    obtain rfl : σ = σ' := by simpa [pushEntries, pure, Except.pure] using hok
    exact ⟨h, t, ht, by simpa using hdone, hm⟩
  | cons key value collectorId next =>
    have hsound := hes.sound hG hid fun e he => List.mem_append_left _ he
    obtain ⟨as, k, s, rfl, hkey, hvalue, rfl, hnext⟩ := hes
    obtain ⟨hks, hkk, hvs, hsc, hcap, -⟩ := hsound
    obtain ⟨k', σ₁, heq₁, hg₁, hk'⟩ := pushObject_grown al key hks σ hv
    obtain ⟨h₁, hkval⟩ := pushObject_inv hG al key hkey σ hv h heq₁
    obtain ⟨v, σ₂, heq₂, hg₂, hv'⟩ := pushObject_grown al value hvs σ₁ hg₁.valid
    obtain ⟨h₂, hval⟩ := pushObject_inv hG al value hvalue σ₁ hg₁.valid h₁ heq₂
    -- loading the key and the value leaves the table alone
    have ht₂ : σ₂.heap.lookup tid = some (.table t) := hg₂.ext.lookup (hg₁.ext.lookup ht)
    have hm₂ := hg₂.ext.mem_objectMap (hg₁.ext.mem_objectMap hm)
    have hset := Table.rawset_of_keyable (t := t) (hk'.keyable hkk) hv'.ne_nil
    simp only [pushEntries] at hok
    rw [heq₁] at hok; simp only [bind, Except.bind] at hok
    rw [heq₂] at hok; simp only at hok
    rw [Heap.rawset_eq ht₂ hset] at hok; simp only [orFault, pure, Except.pure] at hok
    rw [mapCollectorMaybe_eq hsc] at hok
    have hg₃ := setEntry_grown (t.insert k' v (hk'.keyable hkk) hv'.ne_nil) hg₂.valid ht₂ hm₂ hsc
      hcap fun _ => True
    have hle : σ.corr ≤ σ₂.corr :=
      ⟨fun a a' ha => hg₂.ext.corr_le.1 _ _ (hg₁.ext.corr_le.1 _ _ ha),
        fun x y hx => hg₂.ext.corr_le.2 _ _ (hg₁.ext.corr_le.2 _ _ hx)⟩
    -- a table has no key twice, so the entry overwrites none
    have hfresh : k ∉ done.map Prod.fst := by
      have hnd := hG.nodup id _ hid
      simp only [List.append_assoc, List.map_append, List.map_cons,
        List.singleton_append, List.nodup_append, List.nodup_cons] at hnd
      exact hnd.2.1.1
    have hstored := stored_insert h₂.object_inj (hdone.imp fun _ _ hst => hst.mono hle)
      (hkval.mono hg₂.ext.corr_le) hval hfresh (hk'.keyable hkk) hv'.ne_nil
    have hrest := pushEntries_inv hG al next ((k, s) :: done) hnext (by simpa using hid) _ hg₃.valid
      (h₂.setEntry hg₂.valid hP ht₂) hP (by simp [Target.setEntry]) (hg₃.ext.mem_objectMap hm₂)
      (hstored.imp fun _ _ hst => hst.mono hg₃.ext.corr_le) hok
    simpa using hrest

end

end Trees

end Serialize

end Rushit
