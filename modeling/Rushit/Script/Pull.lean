import Rushit.Lua.Sequence
import Rushit.Script.Model
import Rushit.Serialize.Hooks
/-!
# Pulling values from a slave

One pull serialises the slave's collected values one by one, loads them
through one cache into the engine's heap, and appends each to its
collector table. What it adds is new: the collector tables apart,
nothing that was in the engine's heap changes.
-/

namespace Rushit

namespace Script

open Lua Serialize

variable {al : Allocator} {n : ℕ} {G : Graph} {σ σ' : Target} {cap : Site → Addr → Prop}
variable {P : Addr → Prop} {c : Addr} {t : Table} {registry : List (Addr × Value)}

/-- Writing to a table that is nobody's image keeps the invariant. -/
theorem Inv.setTable_other (h : Inv G P σ) (hv : Valid cap σ)
    (ht : σ.heap.lookup c = some (.table t)) (hc : ∀ a, (a, c) ∉ σ.objectMap) (t' : Table) :
    Inv G P (σ.setTable c t') := by
  have hframe : Inv G (fun x => P x ∨ x = c) (σ.setTable c t') := by
    refine (h.weaken fun _ hP => .inl hP).frame (.inr rfl) rfl rfl (fun e f i hm => ?_)
      (fun y hy => lookup_cons_ne hy)
      (fun u _ => ⟨t', by simp [Target.setTable, Target.withHeap]⟩) (fun d hd => ?_) fun w hw => ?_
    · exact (setTable_grown t' hv ht fun _ => True).ext.slots e f i hm
    · rw [ht] at hd; cases hd
    · rw [ht] at hw; cases hw
  exact hframe.close (fun a _ _ hm => absurd hm (hc a)) fun a _ _ hm => absurd hm (hc a)

/-! ## One value -/

/-- **add_collected_value appends** what the tree loads to. -/
theorem addCollectedValue_eq (al : Allocator) {sv : SValue} (hv : Valid cap σ) (hsv : sv.Sound cap)
    (hreg : registry.lookup c = some (.table c)) (ht : σ.heap.lookup c = some (.table t)) :
    ∃ v σ₁ t', pushObject al sv σ = .ok (v, σ₁) ∧ Grown cap noOne (sv.Mentions ·) σ σ₁ ∧
      σ₁.heap.lookup c = some (.table t) ∧
      addCollectedValue al registry c sv σ = .ok (σ₁.setTable c t') ∧
      ∀ vs, t.Holds vs → t'.Holds (vs ++ [v]) := by
  obtain ⟨v, σ₁, hpush, hg, hpv⟩ := pushObject_grown al sv hsv σ hv
  have ht₁ : σ₁.heap.lookup c = some (.table t) := hg.ext.lookup ht
  have hk : (Value.ofNat (t.objlen + 1)).keyable = true := rfl
  have hset := Table.rawset_of_keyable (t := t) hk hpv.ne_nil
  refine ⟨v, σ₁, t.insert _ v hk hpv.ne_nil, hpush, hg, ht₁, ?_, fun vs hvs => ?_⟩
  · simp only [addCollectedValue]
    rw [hreg]; simp only
    rw [Heap.table?_eq_some.mpr ht]; simp only [deserializeValue]
    rw [hpush]; simp only [bind, Except.bind]
    rw [Heap.rawset_eq ht₁ hset]; rfl
  · have hlen := hvs.objlen_eq
    have hnext := hvs.insert_next (v := v) rfl hpv.ne_nil
    simp only [hlen]
    exact hnext

/-! ## One slave -/

/-- **The engine's heap during a pull** that began with the heap `h₀`:
the cache corresponds to what was pulled, all of it is new, and of what
there was only the collector tables `cs` changed. -/
structure Pulling (G : Graph) (h₀ : Heap) (cs : List Addr) (σ : Target) : Prop where
  valid : Valid (capture G) σ
  inv : Inv G noOne σ
  object_new : ∀ a a', (a, a') ∈ σ.objectMap → ¬ h₀.Live a'
  cell_new : ∀ e x, σ.corr.cell e x → ¬ h₀.Live x
  frame : ∀ x, h₀.Live x → x ∉ cs → σ.heap.lookup x = h₀.lookup x
  live : ∀ x, h₀.Live x → σ.heap.Live x

theorem Pulling.start (G : Graph) (h₀ : Heap) (cs : List Addr) :
    Pulling G h₀ cs (Target.start h₀) where
  valid := Valid.start _ h₀
  inv := Inv.start G noOne h₀
  object_new := by simp [Target.start]
  cell_new := by rintro e x ⟨f, i, hm, -⟩; cases hm
  frame _ _ _ := rfl
  live _ h := h

/-- The pull of one value. -/
theorem Pulling.add (al : Allocator) {h₀ : Heap} {cs : List Addr} (hp : Pulling G h₀ cs σ)
    (hG : Regular G)
    (hc : c ∈ cs) (hlive : h₀.Live c) (hreg : registry.lookup c = some (.table c))
    (ht : σ.heap.lookup c = some (.table t)) {vs : List Value} (hvs : t.Holds vs) {sv : SValue}
    {v : Value} (hsv : sv.Expands G v) :
    ∃ σ' v' t', addCollectedValue al registry c sv σ = .ok σ' ∧ Pulling G h₀ cs σ' ∧
      σ.corr ≤ σ'.corr ∧ σ'.corr.Val (cut v) v' ∧ σ'.heap.lookup c = some (.table t') ∧
      t'.Holds (vs ++ [v']) ∧
      ∀ x, σ.heap.Live x → x ≠ c → σ'.heap.lookup x = σ.heap.lookup x := by
  obtain ⟨v', σ₁, t', hpush, hg, ht₁, heq, happ⟩ :=
    addCollectedValue_eq al hp.valid (hsv.sound hG) hreg ht
  obtain ⟨h₁, hval⟩ := pushObject_inv hG al sv hsv σ hp.valid hp.inv hpush
  have hset := setTable_grown t' hg.valid ht₁ fun _ => True
  -- what this pull has loaded is new to the heap it began with
  have hobj₁ : ∀ a a', (a, a') ∈ σ₁.objectMap → ¬ h₀.Live a' := by
    intro a a' hm
    obtain ⟨l, hl, hnew⟩ := hg.ext.objectMap
    rw [hl] at hm
    rcases List.mem_append.mp hm with hm | hm
    · exact fun h => hnew _ hm (hp.live a' h)
    · exact hp.object_new a a' hm
  have hcell₁ : ∀ e x, σ₁.corr.cell e x → ¬ h₀.Live x := by
    rintro e x ⟨f, i, hm, hx⟩
    obtain ⟨l, hl, hnew⟩ := hg.ext.upvalueMap
    rw [hl] at hm
    rcases List.mem_append.mp hm with hm | hm
    · obtain ⟨-, -, y, hy, hyl⟩ := hnew _ hm
      obtain rfl := Option.some.inj (hx.symm.trans hy)
      exact fun h => hyl.elim (fun hn => hn (hp.live x h)) id
    · exact hp.cell_new e x ⟨f, i, hm, by rw [← hg.ext.slots e f i hm, hx]⟩
  have hother : ∀ x, x ≠ c → (σ₁.setTable c t').heap.lookup x = σ₁.heap.lookup x :=
    fun x hx => lookup_cons_ne hx
  have hkeep : ∀ x, σ.heap.Live x → x ≠ c →
      (σ₁.setTable c t').heap.lookup x = σ.heap.lookup x := by
    intro x hx hxc
    rw [hother x hxc, hg.ext.heap x hx fun h => h]
  refine ⟨_, v', t', heq, ⟨hset.valid, ?_, hobj₁, ?_, ?_, ?_⟩, ?_, hval.mono hset.ext.corr_le, ?_,
    happ vs hvs, hkeep⟩
  · exact Inv.setTable_other h₁ hg.valid ht₁ (fun a hm => hobj₁ a c hm hlive) t'
  · rintro e x ⟨f, i, hm, hx⟩
    exact hcell₁ e x ⟨f, i, hm, by rw [← hset.ext.slots e f i hm, hx]⟩
  · intro x hx hxc
    rw [hkeep x (hp.live x hx) (by rintro rfl; exact hxc hc), hp.frame x hx hxc]
  · exact fun x hx => hset.ext.live x (hg.ext.live x (hp.live x hx))
  · exact ⟨fun a a' ha => hset.ext.corr_le.1 _ _ (hg.ext.corr_le.1 _ _ ha),
      fun e x he => hset.ext.corr_le.2 _ _ (hg.ext.corr_le.2 _ _ he)⟩
  · simp [Target.setTable, Target.withHeap]

/-- What a pull puts into the collector table `c`: the image of `v`, at
the end. -/
def Appended (R : Corr) (h : Heap) (c : Addr) (vs : List Value) (v : Value) : Prop :=
  ∃ t v', h.lookup c = some (.table t) ∧ t.Holds (vs ++ [v']) ∧ R.Val v v'

/-- **The loop of script_engine_pull_data.** -/
theorem pull_loop (al : Allocator) (n : ℕ) {h₀ : Heap} {cs : List Addr} (hG : Regular G)
    {ss : Slave} {val : Addr → Value}
    {vs : Addr → List Value} (rest : List Addr) (hnd : rest.Nodup) (hsub : ∀ c ∈ rest, c ∈ cs)
    (hreg : ∀ c ∈ cs, registry.lookup c = some (.table c)) (hlive : ∀ c ∈ cs, h₀.Live c)
    (htree : ∀ c ∈ rest, ∃ sv, getCollectedValue al n ss c = .ok sv ∧ sv.Expands G (val c))
    (σ : Target) (hp : Pulling G h₀ cs σ)
    (ht : ∀ c ∈ rest, ∃ t, σ.heap.lookup c = some (.table t) ∧ t.Holds (vs c)) :
    ∃ σ', rest.foldlM (fun σ c => do
        let sv ← getCollectedValue al n ss c
        addCollectedValue al registry c sv σ) σ = .ok σ' ∧
      Pulling G h₀ cs σ' ∧ σ.corr ≤ σ'.corr ∧
      (∀ c ∈ rest, Appended σ'.corr σ'.heap c (vs c) (cut (val c))) ∧
      ∀ x ∈ cs, x ∉ rest → σ'.heap.lookup x = σ.heap.lookup x := by
  induction rest generalizing σ with
  | nil => exact ⟨σ, rfl, hp, ⟨fun _ _ h => h, fun _ _ h => h⟩, by simp, fun _ _ _ => rfl⟩
  | cons c rest ih =>
    rw [List.nodup_cons] at hnd
    have hc := hsub c (by simp)
    obtain ⟨sv, hsv, hexp⟩ := htree c (by simp)
    obtain ⟨t, htc, hvs⟩ := ht c (by simp)
    obtain ⟨σ₁, v', t', heq, hp₁, hle, hval, ht', hvs', hkeep⟩ :=
      hp.add al hG hc (hlive c hc) (hreg c hc) htc hvs hexp
    -- the other collector tables are as they were
    have ht₁ : ∀ d ∈ rest, ∃ t, σ₁.heap.lookup d = some (.table t) ∧ t.Holds (vs d) := by
      intro d hd
      obtain ⟨u, hu, hvd⟩ := ht d (List.mem_cons_of_mem _ hd)
      have hne : d ≠ c := by rintro rfl; exact hnd.1 hd
      exact ⟨u, by rw [hkeep d (Heap.live_of_lookup hu) hne, hu], hvd⟩
    obtain ⟨σ₂, hrun, hp₂, hle₂, happ, hrest⟩ := ih hnd.2
      (fun d hd => hsub d (List.mem_cons_of_mem _ hd))
      (fun d hd => htree d (List.mem_cons_of_mem _ hd)) σ₁ hp₁ ht₁
    refine ⟨σ₂, ?_, hp₂, ⟨fun a a' ha => hle₂.1 _ _ (hle.1 _ _ ha),
      fun e x he => hle₂.2 _ _ (hle.2 _ _ he)⟩, fun d hd => ?_, fun x hx hxr => ?_⟩
    · rw [List.foldlM_cons]
      simp only [bind, Except.bind]
      rw [hsv]; simp only
      rw [heq]; exact hrun
    · rcases List.mem_cons.mp hd with rfl | hd
      · exact ⟨t', v', by rw [hrest d hc hnd.1, ht'], hvs', hval.mono hle₂⟩
      · exact happ d hd
    · rw [List.mem_cons, not_or] at hxr
      rw [hrest x hx hxr.2, hkeep x (hp.live x (hlive x hx)) hxr.1]

/-! ## What a slave's values reach -/

/-- A value the pull copies exactly: supported, acyclic, without NUL
bytes and without wrappers. -/
structure Collectable (h : Heap) (v : Value) : Prop where
  supported : h.captured.SupportedFrom v
  acyclic : h.captured.AcyclicFrom v
  nulFree : v.NulFree
  allNulFree : h.captured.AllFrom v Node.NulFree
  unwrapped : h.captured.AllFrom v Node.Unwrapped

open Classical in
/-- The part of the heap's graph that the values reach. -/
noncomputable def reachable (h : Heap) (vals : List Value) : Graph := fun a =>
  if ∃ v ∈ vals, h.captured.ReachFrom v a then h.captured a else none

section Reachable

variable {h : Heap} {vals : List Value} {v : Value} {a : Addr} {node : Node}

theorem reachable_eq_some (ha : reachable h vals a = some node) :
    ∃ v ∈ vals, h.captured.ReachFrom v a ∧ h.captured a = some node := by
  unfold reachable at ha
  split at ha
  · rename_i hv
    obtain ⟨v, hv, hr⟩ := hv
    exact ⟨v, hv, hr, ha⟩
  · cases ha

theorem expands_reachable {t : SValue} (ht : t.Expands h.captured v) (hv : v ∈ vals) :
    t.Expands (reachable h vals) v := by
  refine ht.mono fun b m hb hm => ?_
  rw [reachable, if_pos ⟨v, hv, hb⟩, hm]

theorem plain_of_reachable (hc : ∀ v ∈ vals, Collectable h v)
    (ha : reachable h vals a = some node) :
    h.plain a = some node ∧ node.NulFree := by
  obtain ⟨v, hv, hr, hn⟩ := reachable_eq_some ha
  exact ⟨plain_of_captured hn ((hc v hv).unwrapped a node hr hn),
    (hc v hv).allNulFree a node hr hn⟩

theorem regular_reachable (hs : ∀ v ∈ vals, h.captured.AllFrom v Node.ScalarKeys) :
    Regular (reachable h vals) where
  keyable a es ha := by
    obtain ⟨-, -, -, hn⟩ := reachable_eq_some ha
    exact (captured_table_eq hn).1
  nodup a es ha := by
    obtain ⟨-, -, -, hn⟩ := reachable_eq_some ha
    exact (captured_table_eq hn).2
  scalarKeys a n ha := by
    obtain ⟨v, hv, hr, hn⟩ := reachable_eq_some ha
    exact hs v hv a n hr hn

end Reachable

/-- Nothing changed but the collector tables `cs`. -/
structure Kept (cs : List Addr) (h h' : Heap) : Prop where
  frame : ∀ x, h.Live x → x ∉ cs → h'.lookup x = h.lookup x
  live : ∀ x, h.Live x → h'.Live x

theorem Kept.trans {cs : List Addr} {h h₁ h₂ : Heap} (hk : Kept cs h h₁) (hk' : Kept cs h₁ h₂) :
    Kept cs h h₂ where
  frame x hx hxc := by rw [hk'.frame x (hk.live x hx) hxc, hk.frame x hx hxc]
  live x hx := hk'.live x (hk.live x hx)

/-- **What the pull of a slave leaves in the engine's heap**: images of
the slave's values, none of them there before. -/
structure Pulled (h h₀ h' : Heap) (R : Corr) : Prop where
  agree : Agree h.plain h'.plain R
  tables : R.TablesOneToOne h.plain
  cells : R.CellsOneToOne
  new : ∀ a a', R.Rel a a' → ¬ h₀.Live a'

/-- Everything that is an image is in the heap. -/
theorem Pulled.live {h h₀ h' : Heap} {R : Corr} (hp : Pulled h h₀ h' R) {a a' : Addr}
    (ha : R.Rel a a') : h'.Live a' := by
  obtain ⟨n, n', -, hn', -⟩ := hp.agree.node ha
  intro hnone
  simp [Heap.plain, hnone] at hn'

/-- Later pulls leave the images of an earlier one alone. -/
theorem Pulled.of_kept {h h₀ h₁ h₂ : Heap} {cs : List Addr} {R : Corr} (hp : Pulled h h₀ h₁ R)
    (hk : Kept cs h₁ h₂) (hcs : ∀ c ∈ cs, h₀.Live c) : Pulled h h₀ h₂ R := by
  have hkeep : ∀ a a', R.Rel a a' → h₂.plain a' = h₁.plain a' := by
    intro a a' ha
    have hsame := hk.frame a' (hp.live ha) fun hc => hp.new a a' ha (hcs a' hc)
    rw [Heap.plain, Heap.plain, hsame]
  exact ⟨hp.agree.of_images (fun a a' ha => hkeep a a' (.inl ha))
    fun c x hx => hkeep c x (.inr hx), hp.tables, hp.cells, hp.new⟩

/-- What is new to a later heap is new to an earlier one. -/
theorem Pulled.of_live {h h₀ h₁ h' : Heap} {R : Corr} (hp : Pulled h h₁ h' R)
    (hl : ∀ x, h₀.Live x → h₁.Live x) : Pulled h h₀ h' R :=
  ⟨hp.agree, hp.tables, hp.cells, fun a a' ha hx => hp.new a a' ha (hl a' hx)⟩

/-- **One slave is pulled.** -/
theorem scriptEnginePullData_eq {se : Engine} {ss : Slave} {vs : Addr → List Value}
    {val : Addr → Value} (hnd : se.collectors.Nodup)
    (hreg : ∀ c ∈ se.collectors, se.registry.lookup c = some (.table c))
    (ht : ∀ c ∈ se.collectors, ∃ t, se.heap.lookup c = some (.table t) ∧ t.Holds (vs c))
    (hval : ∀ c ∈ se.collectors, Collectable ss.target.heap (val c) ∧
      ∃ sv, getCollectedValue al n ss c = .ok sv ∧
        sv.Expands ss.target.heap.captured (val c)) :
    ∃ h' R, scriptEnginePullData al n se ss = .ok { se with heap := h' } ∧
      Kept se.collectors se.heap h' ∧ Pulled ss.target.heap se.heap h' R ∧
      ∀ c ∈ se.collectors, Appended R h' c (vs c) (val c) := by
  -- the graph of all values, so that one cache serves them
  let vals := se.collectors.map val
  have hc : ∀ v ∈ vals, Collectable ss.target.heap v := by
    intro v hv
    obtain ⟨c, hc, rfl⟩ := List.mem_map.mp hv
    exact (hval c hc).1
  have hG : Regular (reachable ss.target.heap vals) := regular_reachable fun v hv b m hb hm =>
    ((hc v hv).unwrapped b m hb hm).scalarKeys
  obtain ⟨σ, hrun, hp, -, happ, -⟩ := pull_loop al n hG se.collectors hnd (fun c hc => hc) hreg
    (fun c hc => by obtain ⟨t, ht, -⟩ := ht c hc; exact Heap.live_of_lookup ht)
    (fun c hc => by
      obtain ⟨-, sv, hsv, hexp⟩ := hval c hc
      exact ⟨sv, hsv, expands_reachable hexp (List.mem_map_of_mem hc)⟩)
    (Target.start se.heap) (Pulling.start _ _ _) ht
  refine ⟨σ.heap, σ.corr, ?_, ⟨hp.frame, hp.live⟩,
    ⟨?_, ?_, hp.inv.cellsOneToOne, fun a a' ha => ha.elim (hp.object_new a a') (hp.cell_new a a')⟩,
    fun c hc => ?_⟩
  · unfold scriptEnginePullData
    simp only [bind, Except.bind]
    have hrun' := hrun
    simp only [bind, Except.bind, Target.start] at hrun'
    rw [hrun']; rfl
  · exact (agree_of_nulFree hG (fun a m ha => (plain_of_reachable hc ha).2) hp.inv.agree).of_le
      fun a m ha => (plain_of_reachable hc ha).1
  · refine hp.inv.tablesOneToOne fun a es m ha hm => ?_
    rw [(plain_of_reachable hc hm).1] at ha
    exact ⟨es, Option.some.inj ha⟩
  · have hcut : cut (val c) = val c := cut_eq_self (hval c hc).1.nulFree
    rw [← hcut]
    exact happ c hc

/-! ## All the slaves -/

/-- No object or cell is an image of both. -/
def Disjoint (R R' : Corr) : Prop := ∀ a b a', R.Rel a a' → ¬ R'.Rel b a'

/-- **All the slaves are pulled**, one after the other: each collector
table gets one entry from each, in their order, and slaves share
nothing. -/
theorem pullScriptData_eq (al : Allocator) (n : ℕ) (slaves : List Slave) (se : Engine)
    (vs : Addr → List Value) (val : Slave → Addr → Value) (hnd : se.collectors.Nodup)
    (hreg : ∀ c ∈ se.collectors, se.registry.lookup c = some (.table c))
    (ht : ∀ c ∈ se.collectors, ∃ t, se.heap.lookup c = some (.table t) ∧ t.Holds (vs c))
    (hval : ∀ ss ∈ slaves, ∀ c ∈ se.collectors, Collectable ss.target.heap (val ss c) ∧
      ∃ sv, getCollectedValue al n ss c = .ok sv ∧
        sv.Expands ss.target.heap.captured (val ss c)) :
    ∃ h' pulls, pullScriptData al n slaves se = .ok { se with heap := h' } ∧
      Kept se.collectors se.heap h' ∧ pulls.map Prod.fst = slaves ∧
      (∀ p ∈ pulls, Pulled p.1.target.heap se.heap h' p.2) ∧
      pulls.Pairwise (fun p q => Disjoint p.2 q.2) ∧
      ∀ c ∈ se.collectors, ∃ t ws, h'.lookup c = some (.table t) ∧ t.Holds (vs c ++ ws) ∧
        List.Forall₂ (fun p w => p.2.Val (val p.1 c) w) pulls ws := by
  induction slaves generalizing se vs with
  | nil =>
    refine ⟨se.heap, [], rfl, ⟨fun _ _ _ => rfl, fun _ h => h⟩, rfl, by simp, .nil,
      fun c hc => ?_⟩
    obtain ⟨t, hct, hvs⟩ := ht c hc
    exact ⟨t, [], hct, by rw [List.append_nil]; exact hvs, .nil⟩
  | cons ss slaves ih =>
    obtain ⟨h₁, R, heq, hk, hp, happ⟩ := scriptEnginePullData_eq hnd hreg ht (hval ss (by simp))
    have hcs : ∀ c ∈ se.collectors, se.heap.Live c := by
      intro c hc
      obtain ⟨t, hct, -⟩ := ht c hc
      exact Heap.live_of_lookup hct
    have : Nonempty Value := ⟨.nil⟩
    have : Nonempty Table := ⟨Table.empty⟩
    choose! t' v' ht' hvs' hv' using happ
    -- the other slaves, from what the first one has left
    obtain ⟨h₂, pulls, hrun, hk₂, hfst, hps, hdisj, hws⟩ := ih { se with heap := h₁ }
      (fun c => vs c ++ [v' c]) hnd hreg (fun c hc => ⟨t' c, ht' c hc, hvs' c hc⟩)
      (fun s hs => hval s (List.mem_cons_of_mem _ hs))
    refine ⟨h₂, (ss, R) :: pulls, ?_, hk.trans hk₂, by rw [List.map_cons, hfst], ?_,
      .cons (fun q hq a b a' ha hb => ?_) hdisj, fun c hc => ?_⟩
    · rw [pullScriptData, List.foldlM_cons]
      simp only [bind, Except.bind]
      rw [heq]; exact hrun
    · intro q hq
      rcases List.mem_cons.mp hq with rfl | hq
      · exact hp.of_kept hk₂ hcs
      · exact (hps q hq).of_live hk.live
    · -- what a later pull brings is new to the earlier ones
      exact (hps q hq).new b a' hb (hp.live ha)
    · obtain ⟨t, ws, htc, hws', hvals⟩ := hws c hc
      refine ⟨t, v' c :: ws, htc, by simpa using hws', .cons (hv' c hc) hvals⟩

/-! ## Emptying the collectors -/

/-- The loop body of `empty_collectors`, for a collector with one value. -/
theorem emptyCollector_eq {h : Heap} {v : Value} (hreg : registry.lookup c = some (.table c))
    (ht : h.lookup c = some (.table t)) (hv : t.Holds [v]) :
    emptyCollector registry h c = .ok ((c, .table (t.erase (.ofNat 1))) :: h) := by
  have hset : t.rawset (.ofNat 1) .nil = some (t.erase (.ofNat 1)) := rfl
  unfold emptyCollector
  rw [hreg]; simp only
  rw [Heap.table?_eq_some.mpr ht]; simp only
  rw [if_pos (by rw [hv.objlen_eq]; rfl), Heap.rawset_eq ht hset]; rfl

/-- The loop of `empty_collectors`. -/
theorem emptyCollector_loop (rest : List Addr) (h : Heap) (hnd : rest.Nodup)
    (hreg : ∀ c ∈ rest, registry.lookup c = some (.table c))
    (ht : ∀ c ∈ rest, ∃ t v, h.lookup c = some (.table t) ∧ t.Holds [v]) :
    ∃ h', rest.foldlM (emptyCollector registry) h = .ok h' ∧ Kept rest h h' ∧
      ∀ c ∈ rest, ∃ t, h'.lookup c = some (.table t) ∧ t.Holds [] := by
  induction rest generalizing h with
  | nil => exact ⟨h, rfl, ⟨fun _ _ _ => rfl, fun _ hx => hx⟩, by simp⟩
  | cons c rest ih =>
    rw [List.nodup_cons] at hnd
    obtain ⟨t, v, htc, hv⟩ := ht c (by simp)
    have hother : ∀ x, x ≠ c → ((c, Obj.table (t.erase (.ofNat 1))) :: h).lookup x = h.lookup x :=
      fun x hx => lookup_cons_ne hx
    -- the other collectors still hold their values
    obtain ⟨h', hrun, hk, hall⟩ := ih ((c, .table (t.erase (.ofNat 1))) :: h) hnd.2
      (fun d hd => hreg d (List.mem_cons_of_mem _ hd)) fun d hd => by
        obtain ⟨u, w, hu, hw⟩ := ht d (List.mem_cons_of_mem _ hd)
        have hne : d ≠ c := by rintro rfl; exact hnd.1 hd
        exact ⟨u, w, by rw [hother d hne, hu], hw⟩
    have hlive : ∀ x, h.Live x → Heap.Live ((c, .table (t.erase (.ofNat 1))) :: h) x := by
      intro x hx
      by_cases hxc : x = c
      · rw [hxc, Heap.Live]; simp
      · rw [Heap.Live, hother x hxc]; exact hx
    refine ⟨h', ?_, ⟨fun x hx hxc => ?_, fun x hx => hk.live x (hlive x hx)⟩, fun d hd => ?_⟩
    · rw [List.foldlM_cons, emptyCollector_eq (hreg c (by simp)) htc hv]
      exact hrun
    · rw [List.mem_cons, not_or] at hxc
      rw [hk.frame x (hlive x hx) hxc.2, hother x hxc.1]
    · rcases List.mem_cons.mp hd with rfl | hd
      · refine ⟨t.erase (.ofNat 1), ?_, hv.erase_single⟩
        rw [hk.frame d (hlive d (Heap.live_of_lookup htc)) hnd.1]; simp
      · exact hall d hd

/-- `empty_collectors` leaves nothing in the collector tables. -/
theorem emptyCollectors_eq {se : Engine} (hnd : se.collectors.Nodup)
    (hreg : ∀ c ∈ se.collectors, se.registry.lookup c = some (.table c))
    (ht : ∀ c ∈ se.collectors, ∃ t v, se.heap.lookup c = some (.table t) ∧ t.Holds [v]) :
    ∃ h', emptyCollectors se = .ok { se with heap := h' } ∧ Kept se.collectors se.heap h' ∧
      ∀ c ∈ se.collectors, ∃ t, h'.lookup c = some (.table t) ∧ t.Holds [] := by
  obtain ⟨h', hrun, hk, hall⟩ := emptyCollector_loop se.collectors se.heap hnd hreg ht
  refine ⟨h', ?_, hk, hall⟩
  simp only [emptyCollectors, bind, Except.bind]
  rw [hrun]; rfl

end Script

end Rushit
