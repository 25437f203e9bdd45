import Rushit.Serialize.Walk
/-!
# The order of loading

A hook carries the values its variables had when it was registered, and
a variable shared by several hooks is populated by the hook loaded
first. So the order matters where a shared variable or table changed
between two registrations. It matters too where the function of a hook is
captured by others: it has one image when its own hook is loaded first,
and two when a hook that captures it is. Where neither happens it does
not matter.
-/

namespace Rushit

namespace Serialize

open Lua

variable {rs : List Registration} {trees : List SFunction}
variable {order : List (Registration × SFunction)} {G : Graph} {σ : Target}

/-- An object that the hook reaches through its upvalues. -/
def Registration.Captures (p : Registration) (a : Addr) : Prop := p.heap.captured.Below p.hook a

/-- An object that is seen through the upvalues of the functions
`keys`. -/
def SeenThrough (h : Heap) (keys : List Addr) (a : Addr) : Prop := ∃ k ∈ keys, h.plain.Below k a

theorem edge_of_loaded {a b : Addr} (h : (loaded G).Edge a b) : G.Edge a b := by
  obtain ⟨n, hn, hb⟩ := h
  obtain ⟨m, hm, rfl⟩ := Option.map_eq_some_iff.mp hn
  refine ⟨m, hm, ?_⟩
  cases m with
  | table es =>
    obtain ⟨e, he, hb⟩ := mem_children_table.mp hb
    obtain ⟨d, hd, rfl⟩ := mem_stored he
    exact mem_children_table.mpr ⟨d, hd, by simpa [cutSlot] using hb⟩
  | closure c => exact hb
  | cell s => simpa [loadedNode, cutSlot, Node.children] using hb

/-- What a hook reaches of the graph, it reaches in its own heap. -/
theorem captures_of_below (hc : Consistent rs) {p : Registration} (hp : p ∈ rs) {a : Addr}
    (h : (loaded (merged rs)).Below p.hook a) : p.Captures a := by
  have hedge : ∀ {d e}, p.Reaches d → (loaded (merged rs)).Edge d e → p.heap.captured.Edge d e := by
    intro d e hd hde
    obtain ⟨n, hn, he⟩ := edge_of_loaded hde
    exact ⟨n, by rw [← merged_eq hc hp hd, hn], he⟩
  induction h with
  | single h => exact .single (hedge .refl h)
  | tail _ h ih => exact ih.tail (hedge ih.to_reflTransGen h)

/-- An image is an object or a cell, not both. -/
theorem Inv.obj_ne_cell {P : Addr → Prop} (h : Inv G P σ) {a c x : Addr} (ha : σ.corr.obj a x)
    (hx : σ.corr.cell c x) : False := by
  obtain ⟨s, w, -, hw, -⟩ := h.cell c x hx
  rcases h.object a x ha with ⟨es, t, -, ht, -⟩ | ⟨d, d', -, hd, -⟩
  · rw [ht] at hw
    cases hw
  · rw [hd] at hw
    cases hw

/-- What a load of all the hooks, in whatever order, leaves: the graph
they reach, with the hooks at their keys, and one image for whatever is
no hook. -/
structure LoadsMerged (rs : List Registration) (order : List (Registration × SFunction))
    (keys : List Addr) (σ : Target) : Prop where
  inv : Inv (merged rs) noOne σ
  mem : ∀ p ∈ order, p.1 ∈ rs
  keys : List.Forall₂ (fun p key => σ.corr.obj p.1.hook key) order keys
  image : ∀ a o o', (∀ p ∈ rs, p.hook ≠ a) → σ.corr.obj a o → σ.corr.obj a o' → o = o'

/-- **What is seen through the upvalues** is the image of one object,
which is no hook where no hook is captured. -/
theorem LoadsMerged.seen {keys : List Addr} (h : LoadsMerged rs order keys σ) (hc : Consistent rs)
    (hk : ∀ p ∈ rs, ∀ q ∈ rs, ¬ p.Captures q.hook) {a x : Addr}
    (hx : SeenThrough σ.heap keys x) (ha : σ.corr.obj a x) : ∀ p ∈ rs, p.hook ≠ a := by
  obtain ⟨key, hkey, hbelow⟩ := hx
  obtain ⟨p, hp, hobj⟩ := forall₂_mem_right h.keys hkey
  obtain ⟨b, hb, hrel⟩ := h.inv.agree.below' (.inl hobj) hbelow
  have hcap := captures_of_below hc (h.mem p hp) hb
  rcases hrel with hbx | hbx
  · obtain rfl := h.inv.object_inj a b x ha hbx
    rintro q hq rfl
    exact hk p.1 (h.mem p hp) q hq hcap
  · exact (h.inv.obj_ne_cell ha hbx).elim

end Serialize

end Rushit
