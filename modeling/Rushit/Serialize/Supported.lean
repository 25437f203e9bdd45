import Rushit.Serialize.Hooks
/-!
# What an expansion says of its graph

A value has a tree only if the serialiser could take all of it: it is
supported, and so is everything it reaches. That holds of every part as
well, and in particular of what a collector wrapper holds (`Marked`).
-/

namespace Rushit

namespace Lua

/-- The slots of a node. -/
def Node.slots : Node → List Slot
  | .table es => es.map Prod.snd
  | .closure _ => []
  | .cell s => [s]

/-- Somewhere in the graph the wrapper `c` holds the value `v`. -/
def Marked (G : Graph) (c : Addr) (v : Value) : Prop :=
  ∃ a n, G a = some n ∧ ⟨v, some c⟩ ∈ n.slots

end Lua

namespace Serialize

open Lua

variable {G : Graph} {v : Value} {t : SValue} {a : Addr} {n : Node}

/-- What has a tree is supported. -/
theorem SValue.Expands.supports (ht : t.Expands G v) : G.Supports v := by
  cases t with
  | boolean b =>
    obtain rfl : v = _ := ht
    trivial
  | number n =>
    obtain rfl : v = _ := ht
    trivial
  | string s =>
    obtain ⟨s', rfl, -⟩ := ht
    trivial
  | function id code us =>
    obtain ⟨rfl, c, hc, -⟩ := ht
    exact ⟨c, hc⟩
  | table id es =>
    obtain ⟨rfl, ents, hents, -⟩ := ht
    exact ⟨ents, hents⟩

/-- Every value of the node has a tree. -/
def Expanded (G : Graph) : Node → Prop
  | .table es => ∀ e ∈ es, (∃ t : SValue, t.Expands G e.1) ∧ ∃ t : SValue, t.Expands G e.2.value
  | .closure c => ∀ x ∈ c.uvs, ∃ s, G x = some (.cell s) ∧ ∃ t : SValue, t.Expands G s.value
  | .cell s => ∃ t : SValue, t.Expands G s.value

theorem SUpvalues.Expands.cells {us : SUpvalues} {xs : List Addr} (hus : us.Expands G xs) :
    ∀ x ∈ xs, ∃ s, G x = some (.cell s) ∧ ∃ t : SValue, t.Expands G s.value := by
  cases us with
  | nil =>
    obtain rfl : xs = _ := hus
    simp
  | cons id number value collectorId next =>
    obtain ⟨ys, s, rfl, -, hid, hvalue, -, hnext⟩ := hus
    intro x hx
    rcases List.mem_append.mp hx with hx | hx
    · exact hnext.cells x hx
    · rw [List.mem_singleton.mp hx]
      exact ⟨s, hid, value, hvalue⟩

theorem SEntries.Expands.entries {es : SEntries} {ents : List (Value × Slot)}
    (hes : es.Expands G ents) : ∀ e ∈ ents,
      (∃ t : SValue, t.Expands G e.1) ∧ ∃ t : SValue, t.Expands G e.2.value := by
  cases es with
  | nil =>
    obtain rfl : ents = _ := hes
    simp
  | cons key value collectorId next =>
    obtain ⟨ds, k, s, rfl, hkey, hvalue, -, hnext⟩ := hes
    intro e he
    rcases List.mem_append.mp he with he | he
    · exact hnext.entries e he
    · rw [List.mem_singleton.mp he]
      exact ⟨⟨key, hkey⟩, value, hvalue⟩

/-- The object that an expanded value refers to. -/
theorem SValue.Expands.expanded (ht : t.Expands G v) (ha : v.ref? = some a) (hn : G a = some n) :
    Expanded G n := by
  cases t with
  | boolean b =>
    obtain rfl : v = _ := ht
    cases ha
  | number n =>
    obtain rfl : v = _ := ht
    cases ha
  | string s =>
    obtain ⟨s', rfl, -⟩ := ht
    cases ha
  | function id code us =>
    obtain ⟨rfl, c, hc, -, hus⟩ := ht
    obtain rfl := Option.some.inj ha
    obtain rfl := Option.some.inj (hc.symm.trans hn)
    exact hus.cells
  | table id es =>
    obtain ⟨rfl, ents, hents, hes⟩ := ht
    obtain rfl := Option.some.inj ha
    obtain rfl := Option.some.inj (hents.symm.trans hn)
    exact hes.entries

/-- **Every part of an expanded value is expanded.** -/
theorem SValue.Expands.allFrom (ht : t.Expands G v) : G.AllFrom v (Expanded G) := by
  rintro b n ⟨a, ha, hab⟩ hn
  induction hab generalizing n with
  | refl => exact ht.expanded ha hn
  | @tail d e _ hde ih =>
    obtain ⟨m, hm, hmem⟩ := hde
    have hd := ih m hm
    cases m with
    | table es =>
      obtain ⟨p, hp, href⟩ := mem_children_table.mp hmem
      obtain ⟨⟨tk, htk⟩, tv, htv⟩ := hd p hp
      rcases href with href | href
      · exact htk.expanded href hn
      · exact htv.expanded href hn
    | closure c =>
      obtain ⟨s, hs, hvalue⟩ := hd e hmem
      obtain rfl := Option.some.inj (hs.symm.trans hn)
      exact hvalue
    | cell s =>
      obtain ⟨tv, htv⟩ := hd
      exact htv.expanded (Option.mem_toList.mp hmem) hn

theorem Expanded.supportsNode (h : Expanded G n) : G.SupportsNode n := by
  cases n with
  | table es =>
    intro e he
    obtain ⟨⟨tk, htk⟩, tv, htv⟩ := h e he
    exact ⟨htk.supports, htv.supports⟩
  | closure c =>
    intro x hx
    obtain ⟨s, hs, -⟩ := h x hx
    exact ⟨s, hs⟩
  | cell s =>
    obtain ⟨tv, htv⟩ := h
    exact htv.supports

/-- **What the serialiser returned a tree for it could take.** -/
theorem SValue.Expands.supportedFrom (ht : t.Expands G v) : G.SupportedFrom v :=
  ⟨ht.supports, fun b n hb hn => (ht.allFrom b n hb hn).supportsNode⟩

/-- A slot of an expanded node has a tree. -/
theorem Expanded.slot (h : Expanded G n) {s : Slot} (hs : s ∈ n.slots) :
    ∃ t : SValue, t.Expands G s.value := by
  cases n with
  | table es =>
    obtain ⟨e, he, rfl⟩ := List.mem_map.mp hs
    exact (h e he).2
  | closure c => cases hs
  | cell u =>
    obtain rfl := List.mem_singleton.mp hs
    exact h

/-! ## The hooks of a script -/

/-- Hooks that a slave can load exactly: what two of them share is the
same for both, the serialiser has taken each, wrappers are under scalar
keys, and no string has a NUL byte. -/
structure Exact (rs : List Registration) : Prop where
  consistent : Consistent rs
  serialized : ∀ p ∈ rs, ∃ f, p.Serializes f
  scalarKeys : ∀ p ∈ rs, p.ScalarKeys
  nulFree : ∀ p ∈ rs, p.heap.captured.AllFrom (.function p.hook) Node.NulFree

namespace Exact

variable {rs : List Registration} {c : Addr}

theorem regular (h : Exact rs) : Regular (merged rs) := regular_merged h.scalarKeys

theorem nulFree_merged (h : Exact rs) (ha : merged rs a = some n) : n.NulFree := by
  obtain ⟨p, hp, hr, hpa⟩ := merged_eq_some ha
  exact h.nulFree p hp a n (Graph.reachFrom_function hr) hpa

theorem expanded (h : Exact rs) (ha : merged rs a = some n) : Expanded (merged rs) n := by
  obtain ⟨p, hp, hr, -⟩ := merged_eq_some ha
  obtain ⟨f, hf⟩ := h.serialized p hp
  obtain ⟨hid, hexp⟩ := expands_merged h.consistent hp hf
  rw [hid] at hexp
  exact hexp.allFrom a n (Graph.reachFrom_function (hr.merged h.consistent hp)) ha

/-- **A marked value has a tree**, and no NUL byte. -/
theorem marked (h : Exact rs) (hm : Marked (merged rs) c v) :
    v.NulFree ∧ ∃ t : SValue, t.Expands (merged rs) v := by
  obtain ⟨a, n, ha, hs⟩ := hm
  refine ⟨?_, (h.expanded ha).slot hs⟩
  have hfree := h.nulFree_merged ha
  cases n with
  | table es =>
    obtain ⟨e, he, hes⟩ := List.mem_map.mp hs
    have hvalue := (hfree e he).2
    rwa [hes] at hvalue
  | closure c => cases hs
  | cell s =>
    obtain rfl := List.mem_singleton.mp hs
    exact hfree

end Exact

end Serialize

end Rushit
