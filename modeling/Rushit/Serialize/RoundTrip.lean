import Rushit.Serialize.Hooks
/-!
# The round trip

The hooks of one snapshot, serialised one by one and loaded through one
cache in any order, come back with their content and with exactly their
sharing of tables and of upvalues.
-/

namespace Rushit

namespace Serialize

open Lua

/-- What a hook may reach for the round trip to be exact. -/
structure Capturable (h : Heap) (f : Addr) : Prop where
  supported : h.captured.SupportedFrom (.function f)
  acyclic : h.captured.AcyclicFrom (.function f)
  nulFree : h.captured.AllFrom (.function f) Node.NulFree
  unwrapped : h.captured.AllFrom (.function f) Node.Unwrapped

/-- The hooks of one heap. -/
def snapshot (h : Heap) (hooks : List Addr) : List Registration := hooks.map (⟨h, ·⟩)

variable {al : Allocator} {h h₀ : Heap} {hooks : List Addr} {trees : List SFunction}

theorem consistent_snapshot : Consistent (snapshot h hooks) := by
  intro p hp q hq a _ _
  obtain ⟨f, -, rfl⟩ := List.mem_map.mp hp
  obtain ⟨g, -, rfl⟩ := List.mem_map.mp hq
  rfl

theorem merged_snapshot {a : Addr} {n : Node} (ha : merged (snapshot h hooks) a = some n) :
    ∃ f ∈ hooks, h.captured.Reach f a ∧ h.captured a = some n := by
  obtain ⟨p, hp, hr, hpa⟩ := merged_eq_some ha
  obtain ⟨f, hf, rfl⟩ := List.mem_map.mp hp
  exact ⟨f, hf, hr, hpa⟩

/-- What the hooks reach, as the Lua code sees it. -/
theorem plain_of_merged (hc : ∀ f ∈ hooks, Capturable h f) {a : Addr} {n : Node}
    (ha : merged (snapshot h hooks) a = some n) : h.plain a = some n ∧ n.NulFree := by
  obtain ⟨f, hf, hr, hfa⟩ := merged_snapshot ha
  have hreach := Graph.reachFrom_function hr
  exact ⟨plain_of_captured hfa ((hc f hf).unwrapped a n hreach hfa),
    (hc f hf).nulFree a n hreach hfa⟩

theorem regular_snapshot (hc : ∀ f ∈ hooks, Capturable h f) :
    Regular (merged (snapshot h hooks)) := by
  refine regular_merged fun p hp => ?_
  obtain ⟨f, hf, rfl⟩ := List.mem_map.mp hp
  exact fun b n hb hn => ((hc f hf).unwrapped b n hb hn).scalarKeys

/-- **A loaded snapshot corresponds to its source.** -/
theorem Inv.snapshot {σ : Target} (hc : ∀ f ∈ hooks, Capturable h f)
    (hinv : Inv (merged (snapshot h hooks)) noOne σ) :
    Agree h.plain σ.heap.plain σ.corr ∧ σ.corr.TablesOneToOne h.plain ∧ σ.corr.CellsOneToOne := by
  refine ⟨?_, hinv.tablesOneToOne fun a es n ha hn => ?_, hinv.cellsOneToOne⟩
  · exact (agree_of_nulFree (regular_snapshot hc) (fun a n ha => (plain_of_merged hc ha).2)
      hinv.agree).of_le fun a n ha => (plain_of_merged hc ha).1
  · rw [(plain_of_merged hc hn).1] at ha
    exact ⟨es, Option.some.inj ha⟩

/-- Each tree of a snapshot, with its hook. -/
theorem expands_snapshot (hst : List.Forall₂ (fun f t => (⟨h, f⟩ : Registration).Serializes t)
    hooks trees) {f : Addr} {t : SFunction} (hm : (f, t) ∈ hooks.zip trees) :
    t.id = f ∧ t.toSValue.Expands (merged (snapshot h hooks)) (.function t.id) :=
  expands_merged (p := ⟨h, f⟩) consistent_snapshot
    (List.mem_map.mpr ⟨f, (List.of_mem_zip hm).1, rfl⟩) (List.forall₂_zip hst hm)

/-- **The round trip.** Serialising returns on every hook, and whatever
order the hooks are loaded in, there is one correspondence between the
source heap and the state loaded into, along which contents agree, that
relates each hook to its key, tells tables apart exactly as the source
does, and upvalue cells too. -/
theorem hooks_round_trip (al : Allocator) (h : Heap) (hooks : List Addr)
    (hc : ∀ f ∈ hooks, Capturable h f) :
    (∀ f ∈ hooks, Returns fun n => serializeFunction h n f) ∧
      ∀ trees : List SFunction,
      List.Forall₂ (fun f t => ∃ n, serializeFunction h n f = .ok t) hooks trees →
      ∀ order : List (Addr × SFunction), order.Perm (hooks.zip trees) →
      ∀ h₀ : Heap, ∃ keys σ,
        deserializeFunctions al (order.map Prod.snd) (Target.start h₀) = .ok (keys, σ) ∧
        ∃ R : Corr, Agree h.plain σ.heap.plain R ∧
          List.Forall₂ R.obj (order.map Prod.fst) keys ∧
          R.TablesOneToOne h.plain ∧ R.CellsOneToOne := by
  refine ⟨fun f hf => returns_of_acyclicFrom (hc f hf).supported (hc f hf).acyclic,
    fun trees hst order hperm h₀ => ?_⟩
  have hexp : ∀ p ∈ order, p.2.id = p.1 ∧
      p.2.toSValue.Expands (merged (snapshot h hooks)) (.function p.2.id) :=
    fun p hp => expands_snapshot hst (hperm.subset hp)
  obtain ⟨keys, σ, heq, -, hinv, -, hkeys⟩ := deserializeFunctions_inv (regular_snapshot hc) al
    (order.map Prod.snd) (fun t ht => by
      obtain ⟨p, hp, rfl⟩ := List.mem_map.mp ht
      exact (hexp p hp).2) (Target.start h₀) (Valid.start _ h₀) (Inv.start _ noOne h₀)
  obtain ⟨hagree, htables, hcells⟩ := hinv.snapshot hc
  refine ⟨keys, σ, heq, σ.corr, hagree, ?_, htables, hcells⟩
  rw [List.forall₂_map_left_iff] at hkeys ⊢
  clear heq hperm
  induction hkeys with
  | nil => exact .nil
  | @cons p key order keys hp _ ih =>
    refine .cons ?_ (ih fun q hq => hexp q (List.mem_cons_of_mem _ hq))
    rw [← (hexp p (by simp)).1]
    exact hp

/-! ### Two hooks that share a local -/

/-- `local t = {a = true}`, and two functions that return `t`. -/
def shared : Heap :=
  [(1, .closure (.of [1] [3])), (2, .closure (.of [2] [3])), (3, .cell (.table 4)),
    (4, .table ⟨[(.string [97], .boolean true)], false, by decide, by decide, by decide⟩)]

/-- The serialised functions, the first of `code` 1, the second of 2. -/
def sharedTree (code : UInt8) (f : Addr) : SFunction :=
  ⟨f, ⟨[code], 1⟩, .cons 3 1
    (.table 4 (.cons (.string [97]) (.boolean true) none .nil)) none .nil⟩

theorem capturable_shared {f : Addr} {t : SFunction} (ht : serializeFunction shared 3 f = .ok t)
    (hf : shared.captured.Supports (.function f)) : Capturable shared f where
  supported := ⟨hf, Graph.allFrom_of_keys (by decide)⟩
  acyclic := acyclicFrom_of_expands (serializeFunction_expands ht).2
  nulFree := Graph.allFrom_of_keys (by decide)
  unwrapped := Graph.allFrom_of_keys (by decide)

theorem hooks_round_trip_shared : ∃ keys σ,
    deserializeFunctions .above [sharedTree 2 2, sharedTree 1 1] (Target.start []) =
      .ok (keys, σ) ∧
    ∃ R : Corr, Agree shared.plain σ.heap.plain R ∧ List.Forall₂ R.obj [2, 1] keys ∧
      R.TablesOneToOne shared.plain ∧ R.CellsOneToOne :=
  (hooks_round_trip .above shared [1, 2] (by
    intro f hf
    rcases List.mem_cons.mp hf with rfl | hf
    · exact capturable_shared (t := sharedTree 1 1) rfl (by decide)
    · obtain rfl := List.mem_singleton.mp hf
      exact capturable_shared (t := sharedTree 2 2) rfl (by decide))).2
    [sharedTree 1 1, sharedTree 2 2] (.cons ⟨3, rfl⟩ (.cons ⟨3, rfl⟩ .nil))
    [(2, sharedTree 2 2), (1, sharedTree 1 1)] (List.Perm.swap _ _ _) []

end Serialize

end Rushit
