import Rushit.Serialize.Content
import Rushit.Serialize.Termination
/-!
# Loading the hooks of a script

Each hook is serialised from the heap as it is when the hook is
registered, and the hooks are loaded through one cache. Where the
snapshots agree on what they share, they are snapshots of one graph
(`merged`), and every load rebuilds what it reaches of that graph.
-/

namespace Rushit

namespace Serialize

open Lua

/-- A registered hook: the function, and the heap at that moment. -/
structure Registration where
  heap : Heap
  hook : Addr

namespace Registration

variable (r : Registration)

/-- An object the hook reaches when it is registered. -/
def Reaches (a : Addr) : Prop := r.heap.captured.Reach r.hook a

/-- `f` is what `serialize_function` returns. -/
def Serializes (f : SFunction) : Prop := ∃ n, serializeFunction r.heap n r.hook = .ok f

/-- Wrappers under scalar keys only. -/
def ScalarKeys : Prop := r.heap.captured.AllFrom (.function r.hook) Node.ScalarKeys

end Registration

/-- What two hooks both reach was the same when either was
registered. -/
def Consistent (rs : List Registration) : Prop :=
  ∀ p ∈ rs, ∀ q ∈ rs, ∀ a, p.Reaches a → q.Reaches a → p.heap.captured a = q.heap.captured a

open Classical in
/-- The graph the hooks reach. -/
noncomputable def merged (rs : List Registration) : Graph := fun a =>
  if hx : ∃ p ∈ rs, p.Reaches a then hx.choose.heap.captured a else none

variable {rs rs' : List Registration} {p : Registration} {a : Addr} {n : Node}

theorem merged_eq (hc : Consistent rs) (hp : p ∈ rs) (ha : p.Reaches a) :
    merged rs a = p.heap.captured a := by
  have hx : ∃ p ∈ rs, p.Reaches a := ⟨p, hp, ha⟩
  rw [merged, dif_pos hx]
  exact hc _ hx.choose_spec.1 p hp a hx.choose_spec.2 ha

theorem merged_eq_some (ha : merged rs a = some n) :
    ∃ p ∈ rs, p.Reaches a ∧ p.heap.captured a = some n := by
  unfold merged at ha
  split at ha
  · rename_i hx
    exact ⟨_, hx.choose_spec.1, hx.choose_spec.2, ha⟩
  · cases ha

/-- What a hook reaches it reaches in that graph. -/
theorem Registration.Reaches.merged (hc : Consistent rs) (hp : p ∈ rs) (ha : p.Reaches a) :
    (merged rs).Reach p.hook a := by
  induction ha with
  | refl => exact .refl
  | @tail d e hd hde ih =>
    obtain ⟨n, hn, hmem⟩ := hde
    exact ih.tail ⟨n, by rw [merged_eq hc hp hd]; exact hn, hmem⟩

theorem captured_table_eq {h : Heap} {es : List (Value × Slot)}
    (ha : h.captured a = some (.table es)) :
    (∀ e ∈ es, e.1.keyable = true) ∧ (es.map Prod.fst).Nodup := by
  obtain ⟨t, -, rfl⟩ := lookup_of_captured_table ha
  refine ⟨fun e he => ?_, ?_⟩
  · obtain ⟨d, hd, rfl⟩ := List.mem_map.mp he
    exact t.keyable d hd
  · have : (t.entries.map fun e => (e.1, h.unwrapCollectorMaybe e.2)).map Prod.fst =
        t.entries.map Prod.fst := by simp
    rw [this]
    exact t.nodup

theorem merged_table_eq {es : List (Value × Slot)} (ha : merged rs a = some (.table es)) :
    (∀ e ∈ es, e.1.keyable = true) ∧ (es.map Prod.fst).Nodup := by
  obtain ⟨p, -, -, hpa⟩ := merged_eq_some ha
  exact captured_table_eq hpa

/-- The graph the hooks reach can be loaded. -/
theorem regular_merged (hs : ∀ p ∈ rs, p.ScalarKeys) : Regular (merged rs) where
  keyable a es ha := (merged_table_eq ha).1
  nodup a es ha := (merged_table_eq ha).2
  scalarKeys a n ha := by
    obtain ⟨p, hp, hr, hpa⟩ := merged_eq_some ha
    exact hs p hp a n (Graph.reachFrom_function hr) hpa

/-- A serialised hook is the expansion of what the hooks reach. -/
theorem expands_merged (hc : Consistent rs) (hp : p ∈ rs) {f : SFunction} (hf : p.Serializes f) :
    f.id = p.hook ∧ f.toSValue.Expands (merged rs) (.function f.id) := by
  obtain ⟨n, hok⟩ := hf
  obtain ⟨hid, hexp⟩ := serializeFunction_expands hok
  refine ⟨hid, ?_⟩
  rw [hid]
  refine hexp.mono fun b n hb hn => ?_
  obtain ⟨d, hd, hdb⟩ := hb
  obtain rfl : p.hook = d := by simpa [Value.ref?] using hd
  rw [merged_eq hc hp hdb, hn]

/-! ## Loading through one cache -/

/-- A cache with nothing in it, over any state. -/
def Target.start (h : Heap) : Target := ⟨h, [], [], [], []⟩

variable {cap cap' : Site → Addr → Prop} {al : Allocator} {σ σ' : Target} {G G' : Graph}
variable {P : Addr → Prop} {R : Corr}

theorem Valid.start (cap : Site → Addr → Prop) (h : Heap) : Valid cap (Target.start h) where
  object _ _ hm := by cases hm
  upvalue _ _ _ hm := by cases hm
  collector _ _ _ hm := by cases hm

theorem Unique.start (h : Heap) : Unique (Target.start h) where
  cells := List.nodup_nil
  objects _ _ _ hm := by cases hm
  tables _ _ _ _ _ hm := by cases hm

theorem Inv.start (G : Graph) (P : Addr → Prop) (h : Heap) : Inv G P (Target.start h) :=
  Inv.empty G P h [] []

/-- **A hook is rebuilt**, as a new function. -/
theorem deserializeFunction_inv (hG : Regular G) (al : Allocator) (f : SFunction)
    (hf : f.toSValue.Expands G (.function f.id)) (σ : Target) (hv : Valid (capture G) σ)
    (h : Inv G P σ) :
    ∃ key σ', deserializeFunction al f σ = .ok (key, σ') ∧ Valid (capture G) σ' ∧ Inv G P σ' ∧
      Ext noOne (f.upvalues.Mentions ·) σ σ' ∧ (f.id, key) ∈ σ'.objectMap ∧
      ¬ σ.heap.Live key ∧ (f.id ∉ σ.objectMap.map Prod.fst → σ.KeysNodup → σ'.KeysNodup) := by
  obtain ⟨key, σ', heq, hv', hext, hm, hnl, -, hnd⟩ :=
    deserializeFunction_grown al f (hf.sound hG) σ hv
  refine ⟨key, σ', heq, hv', ?_, hext, hm, hnl, hnd⟩
  obtain ⟨-, d, hd, hcode, hus⟩ := hf
  obtain ⟨c, hv₁, h₁, hb, hfill, hid⟩ := newFunction_inv al hd hv h
  simp only [deserializeFunction, pushFunction, hcode] at heq
  obtain ⟨σ₂, hloop, hret⟩ := bind_eq_ok.mp heq
  obtain ⟨-, rfl⟩ : _ ∧ σ₂ = σ' := by simpa [pure, Except.pure] using hret
  obtain ⟨h₂, c₂, hc₂, hdone, hid₂⟩ :=
    setSharedUpvalues_inv hG al f.upvalues [] hus _ hv₁ h₁ (.inr rfl) hb hfill hid hloop
  rw [List.append_nil] at hdone
  exact h₂.closeFunction hd hid₂ hc₂ hdone

/-- Loading a list of hooks, one step. -/
theorem deserializeFunctions_cons {f : SFunction} {fs : List SFunction} {key : Addr}
    {keys : List Addr} {σ₁ : Target} (heq : deserializeFunction al f σ = .ok (key, σ₁)) :
    deserializeFunctions al (f :: fs) σ = .ok (keys, σ') ↔
      ∃ keys', deserializeFunctions al fs σ₁ = .ok (keys', σ') ∧ keys = key :: keys' := by
  simp only [deserializeFunctions]
  rw [heq]
  simp only [bind, Except.bind]
  cases deserializeFunctions al fs σ₁ with
  | error e => simp
  | ok p =>
    obtain ⟨keys', σ₂⟩ := p
    simp only [pure, Except.pure, Except.ok.injEq, Prod.mk.injEq]
    constructor
    · rintro ⟨rfl, rfl⟩; exact ⟨keys', ⟨rfl, rfl⟩, rfl⟩
    · rintro ⟨l, ⟨rfl, rfl⟩, rfl⟩; exact ⟨rfl, rfl⟩

/-- **All the hooks are rebuilt**, whatever their order. -/
theorem deserializeFunctions_inv (hG : Regular G) (al : Allocator) (fs : List SFunction)
    (hfs : ∀ f ∈ fs, f.toSValue.Expands G (.function f.id)) (σ : Target)
    (hv : Valid (capture G) σ) (h : Inv G P σ) :
    ∃ keys σ', deserializeFunctions al fs σ = .ok (keys, σ') ∧ Valid (capture G) σ' ∧
      Inv G P σ' ∧ Ext noOne (fun _ => True) σ σ' ∧
      List.Forall₂ (fun f key => (f.id, key) ∈ σ'.objectMap) fs keys := by
  induction fs generalizing σ with
  | nil => exact ⟨[], σ, rfl, hv, h, Ext.refl _ _ σ, .nil⟩
  | cons f fs ih =>
    obtain ⟨key, σ₁, heq, hv₁, h₁, hext, hm, -, -⟩ :=
      deserializeFunction_inv hG al f (hfs f (by simp)) σ hv h
    obtain ⟨keys, σ₂, heqs, hv₂, h₂, hext₂, hms⟩ :=
      ih (fun g hg => hfs g (List.mem_cons_of_mem _ hg)) σ₁ hv₁ h₁
    refine ⟨key :: keys, σ₂, (deserializeFunctions_cons heq).mpr ⟨keys, heqs, rfl⟩, hv₂, h₂, ?_,
      .cons (hext₂.mem_objectMap hm) hms⟩
    exact (hext.mono (fun _ ho => ho.elim) fun _ _ => trivial).trans hext₂ fun _ ho => ho.elim

/-! ## What the maps say when nothing is pending -/

theorem storedAs_plain {es : List (Value × Slot)} {t : Table}
    (h : List.Forall₂ (StoredAs R) es t.entries) :
    List.Forall₂ R.Entry es (t.entries.map fun e => (e.1, ⟨e.2, none⟩)) := by
  rw [List.forall₂_map_right_iff]
  exact h

/-- **The loaded state agrees with the graph.** -/
theorem Inv.agree (h : Inv G noOne σ) : Agree (loaded G) σ.heap.plain σ.corr where
  obj a a' hm := by
    rcases h.object a a' hm with ⟨es, t, hG, ht, hc⟩ | ⟨c, c', hG, hc', hp, hc⟩
    · refine ⟨.table (stored es), .table (t.entries.map fun e => (e.1, ⟨e.2, none⟩)),
        by simp [loaded, hG, loadedNode], by simp [Heap.plain, ht], ?_⟩
      exact ⟨_, .refl _, storedAs_plain (hc id)⟩
    · exact ⟨.closure c, .closure c', by simp [loaded, hG, loadedNode],
        by simp [Heap.plain, hc'], hp.symm, hc id⟩
  cell c x hx := by
    obtain ⟨s, w, hG, hw, hval⟩ := h.cell c x hx
    exact ⟨cutSlot s, ⟨w, none⟩, by simp [loaded, hG, loadedNode], by simp [Heap.plain, hw], hval⟩

theorem Inv.cellsOneToOne (h : Inv G P σ) : σ.corr.CellsOneToOne := by
  intro c x d y hx hy
  refine ⟨?_, ?_⟩
  · rintro rfl; exact h.cell_inj c d x hx hy
  · rintro rfl; exact h.cell_fun hx hy

theorem Inv.tablesOneToOne (h : Inv G P σ)
    (hG' : ∀ a es n, G' a = some (.table es) → G a = some n → ∃ es', n = .table es') :
    σ.corr.TablesOneToOne G' := by
  intro a a' b b' es hes ha hb
  refine ⟨?_, ?_⟩
  · rintro rfl; exact h.object_inj a b a' ha hb
  · rintro rfl
    rcases h.object a a' ha with ⟨es', t, hG, -⟩ | ⟨c, c', hG, -⟩
    · exact h.table_fun a a' b' es' hG ha hb
    · obtain ⟨es', hes'⟩ := hG' a es _ hes hG
      cases hes'

/-! ## Graphs without NUL bytes -/

theorem cut_eq_self {v : Value} (hv : v.NulFree) : cut v = v := by
  cases v with
  | string s =>
    have hall : ∀ b ∈ s, (decide (b ≠ 0)) = true := by
      intro b hb
      have : b ≠ 0 := by rintro rfl; exact hv hb
      simpa using this
    rw [cut, strdup, List.takeWhile_eq_self_iff.mpr hall]
  | _ => rfl

theorem nulFree_cut (v : Value) : (cut v).NulFree := by
  cases v with
  | string s =>
    intro h0
    simpa using List.mem_takeWhile_imp h0
  | _ => trivial

/-- **No string that was loaded has a NUL byte.** -/
theorem nulFree_loadedNode (n : Node) : (loadedNode n).NulFree := by
  cases n with
  | table es =>
    intro e he
    obtain ⟨d, -, rfl⟩ := mem_stored he
    exact ⟨nulFree_cut _, nulFree_cut _⟩
  | closure c => trivial
  | cell s => exact nulFree_cut _

theorem nulFree_loaded {G : Graph} {a : Addr} {n : Node} (ha : loaded G a = some n) :
    n.NulFree := by
  obtain ⟨m, -, rfl⟩ := Option.map_eq_some_iff.mp ha
  exact nulFree_loadedNode m

/-- Entries under different keys without NUL bytes are all stored, in
reverse. -/
theorem stored_eq_reverse {es : List (Value × Slot)} (hnul : (Node.table es).NulFree)
    (hnd : (es.map Prod.fst).Nodup) : stored es = es.reverse := by
  induction es with
  | nil => rfl
  | cons e es ih =>
    rw [List.map_cons, List.nodup_cons] at hnd
    have hrest := ih (fun d hd => hnul d (List.mem_cons_of_mem _ hd)) hnd.2
    obtain ⟨hk, hv⟩ := hnul e (by simp)
    have hslot : cutSlot e.2 = e.2 := by rw [cutSlot, cut_eq_self hv]
    rw [stored, hrest, cut_eq_self hk, hslot, put, List.reverse_cons]
    congr 1
    refine List.filter_eq_self.mpr fun d hd => ?_
    have : d.1 ≠ e.1 := fun heq =>
      hnd.1 (List.mem_map.mpr ⟨d, List.mem_reverse.mp hd, heq⟩)
    simpa using this

/-- **Without NUL bytes the graph itself is rebuilt.** -/
theorem agree_of_nulFree (hG : Regular G) (hnul : ∀ a n, G a = some n → n.NulFree)
    (h : Agree (loaded G) G' R) : Agree G G' R where
  obj a a' ha := by
    obtain ⟨n, n', hn, hn', hnode⟩ := h.obj a a' ha
    obtain ⟨m, hm, rfl⟩ := Option.map_eq_some_iff.mp hn
    refine ⟨m, n', hm, hn', ?_⟩
    cases m with
    | closure c => exact hnode
    | table es =>
      cases n' with
      | table es' =>
        obtain ⟨l, hperm, hl⟩ := hnode
        rw [stored_eq_reverse (hnul a _ hm) (hG.nodup a es hm)] at hl
        exact ⟨l.reverse, (List.reverse_perm l).trans hperm, by
          rw [← List.forall₂_reverse_iff, List.reverse_reverse]; exact hl⟩
      | closure c => exact hnode.elim
      | cell s => exact hnode.elim
    | cell s =>
      have hs : cutSlot s = s := by rw [cutSlot, cut_eq_self (hnul a _ hm)]
      simp only [loadedNode, hs] at hnode
      exact hnode
  cell c x hx := by
    obtain ⟨s, s', hs, hs', hval⟩ := h.cell c x hx
    obtain ⟨m, hm, hms⟩ := Option.map_eq_some_iff.mp hs
    cases m with
    | closure d => cases hms
    | table es => cases hms
    | cell u =>
      obtain rfl : cutSlot u = s := by simpa [loadedNode] using hms
      have hu : cutSlot u = u := by rw [cutSlot, cut_eq_self (hnul c _ hm)]
      rw [hu] at hval
      exact ⟨u, s', hm, hs', hval⟩

end Serialize

end Rushit
