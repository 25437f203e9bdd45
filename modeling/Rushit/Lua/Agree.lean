import Rushit.Common.Related
import Rushit.Lua.Graph
import Rushit.Lua.Heap
import Mathlib.Data.List.Perm.Basic
/-!
# Correspondences between graphs

How `Corr` and `Agree` behave: a correspondence may grow, one that tells
objects apart tells values apart, and two graphs that agree have
corresponding paths.
-/

namespace Rushit

namespace Lua

variable {G G' : Graph} {R R' : Corr} {a b a' b' : Addr} {v v' w : Value}

namespace Corr

/-- `R'` has every pair of `R`. -/
instance : LE Corr :=
  ⟨fun R R' => (∀ a a', R.obj a a' → R'.obj a a') ∧ ∀ c x, R.cell c x → R'.cell c x⟩

theorem val_of_ref_none (hv : v.ref? = none) : R.Val v v' ↔ v' = v := by
  cases v with
  | table a => cases hv
  | function a => cases hv
  | _ => exact Iff.rfl

/-- A reference corresponds to references of its own kind only. -/
theorem Val.ref (h : R.Val v v') (ha : v.ref? = some a) :
    ∃ a', v'.ref? = some a' ∧ R.obj a a' := by
  cases v with
  | table d =>
    obtain ⟨d', rfl, hd⟩ := h
    obtain rfl : d = a := by simpa [Value.ref?] using ha
    exact ⟨d', rfl, hd⟩
  | function d =>
    obtain ⟨d', rfl, hd⟩ := h
    obtain rfl : d = a := by simpa [Value.ref?] using ha
    exact ⟨d', rfl, hd⟩
  | _ => cases ha

theorem Val.ref' (h : R.Val v v') (ha : v'.ref? = some a') :
    ∃ a, v.ref? = some a ∧ R.obj a a' := by
  cases hv : v.ref? with
  | none =>
    obtain rfl := (val_of_ref_none hv).mp h
    rw [hv] at ha; cases ha
  | some a =>
    obtain ⟨b', hb', hobj⟩ := h.ref hv
    obtain rfl : b' = a' := by simpa [hb'] using ha
    exact ⟨a, rfl, hobj⟩

theorem Val.mono (hle : R ≤ R') (h : R.Val v v') : R'.Val v v' := by
  cases v with
  | table a => obtain ⟨a', rfl, ha⟩ := h; exact ⟨a', rfl, hle.1 a a' ha⟩
  | function a => obtain ⟨a', rfl, ha⟩ := h; exact ⟨a', rfl, hle.1 a a' ha⟩
  | _ => exact h

/-- A scalar is its own image. -/
theorem val_scalar (hs : v.Scalar) : R.Val v v := by
  cases v with
  | boolean b => rfl
  | number n => rfl
  | string s => rfl
  | _ => exact hs.elim

theorem Val.eq_of_scalar (h : R.Val v v') (hs : v'.Scalar) : v = v' := by
  cases v with
  | table d =>
    obtain ⟨d', rfl, -⟩ := h
    exact hs.elim
  | function d =>
    obtain ⟨d', rfl, -⟩ := h
    exact hs.elim
  | _ => exact (show v' = _ from h).symm

/-- The image of a key is a key. -/
theorem Val.keyable (h : R.Val v v') (hv : v.keyable = true) : v'.keyable = true := by
  cases v with
  | table d =>
    obtain ⟨d', rfl, -⟩ := h
    rfl
  | function d =>
    obtain ⟨d', rfl, -⟩ := h
    rfl
  | _ => rw [show v' = _ from h]; exact hv

/-- Where no two objects have one image, no two values have. -/
theorem Val.inj (hR : ∀ a b a', R.obj a a' → R.obj b a' → a = b) (h : R.Val v w)
    (h' : R.Val v' w) : v = v' := by
  cases hw : w.ref? with
  | none =>
    have hnone : ∀ u, R.Val u w → u = w := by
      intro u hu
      cases hu' : u.ref? with
      | none => exact ((val_of_ref_none hu').mp hu).symm
      | some a =>
        obtain ⟨a', ha', -⟩ := hu.ref hu'
        rw [hw] at ha'; cases ha'
    rw [hnone v h, hnone v' h']
  | some d =>
    cases v with
    | table a =>
      obtain ⟨a', rfl, ha⟩ := h
      cases v' with
      | table b => obtain ⟨b', hb, hb'⟩ := h'; cases hb; rw [hR a b a' ha hb']
      | function b => obtain ⟨b', hb, -⟩ := h'; cases hb
      | _ => cases h'
    | function a =>
      obtain ⟨a', rfl, ha⟩ := h
      cases v' with
      | table b => obtain ⟨b', hb, -⟩ := h'; cases hb
      | function b => obtain ⟨b', hb, hb'⟩ := h'; cases hb; rw [hR a b a' ha hb']
      | _ => cases h'
    | _ => rw [show w = _ from h] at hw; cases hw

end Corr

/-! ## Paths -/

/-- Corresponding addresses, of objects or of cells. -/
def Corr.Rel (R : Corr) (a a' : Addr) : Prop := R.obj a a' ∨ R.cell a a'

theorem mem_children_table {es : List (Value × Slot)} :
    b ∈ (Lua.Node.table es).children ↔
      ∃ e ∈ es, e.1.ref? = some b ∨ e.2.value.ref? = some b := by
  simp [Node.children, List.mem_flatMap]

/-- What one of two corresponding nodes refers to corresponds to
something the other refers to. -/
theorem Corr.children {n n' : Lua.Node} (h : R.Node n n') :
    (∀ b ∈ n.children, ∃ b' ∈ n'.children, R.Rel b b') ∧
      ∀ b' ∈ n'.children, ∃ b ∈ n.children, R.Rel b b' := by
  cases n with
  | table es =>
    cases n' with
    | table es' =>
      obtain ⟨l, hperm, hl⟩ := h
      constructor
      · intro b hb
        obtain ⟨e, he, hb⟩ := mem_children_table.mp hb
        obtain ⟨e', he', hk, hv⟩ := forall₂_mem_left hl he
        rcases hb with hb | hb
        · obtain ⟨b', hb', hobj⟩ := hk.ref hb
          exact ⟨b', mem_children_table.mpr ⟨e', hperm.subset he', .inl hb'⟩, .inl hobj⟩
        · obtain ⟨b', hb', hobj⟩ := hv.ref hb
          exact ⟨b', mem_children_table.mpr ⟨e', hperm.subset he', .inr hb'⟩, .inl hobj⟩
      · intro b' hb'
        obtain ⟨e', he', hb'⟩ := mem_children_table.mp hb'
        obtain ⟨e, he, hk, hv⟩ := forall₂_mem_right hl (hperm.symm.subset he')
        rcases hb' with hb' | hb'
        · obtain ⟨b, hb, hobj⟩ := hk.ref' hb'
          exact ⟨b, mem_children_table.mpr ⟨e, he, .inl hb⟩, .inl hobj⟩
        · obtain ⟨b, hb, hobj⟩ := hv.ref' hb'
          exact ⟨b, mem_children_table.mpr ⟨e, he, .inr hb⟩, .inl hobj⟩
    | closure c' => exact h.elim
    | cell s' => exact h.elim
  | closure c =>
    cases n' with
    | closure c' =>
      refine ⟨fun b hb => ?_, fun b' hb' => ?_⟩
      · obtain ⟨b', hb', hcell⟩ := forall₂_mem_left h.2 hb
        exact ⟨b', hb', .inr hcell⟩
      · obtain ⟨b, hb, hcell⟩ := forall₂_mem_right h.2 hb'
        exact ⟨b, hb, .inr hcell⟩
    | table es' => exact h.elim
    | cell s' => exact h.elim
  | cell s =>
    cases n' with
    | cell s' =>
      refine ⟨fun b hb => ?_, fun b' hb' => ?_⟩
      · obtain ⟨b', hb', hobj⟩ := Corr.Val.ref h (Option.mem_toList.mp hb)
        exact ⟨b', Option.mem_toList.mpr hb', .inl hobj⟩
      · obtain ⟨b, hb, hobj⟩ := Corr.Val.ref' h (Option.mem_toList.mp hb')
        exact ⟨b, Option.mem_toList.mpr hb, .inl hobj⟩
    | table es' => exact h.elim
    | closure c' => exact h.elim

/-- Corresponding values are the same string, or no strings. -/
theorem Corr.Val.nulFree (h : R.Val v v') : v.NulFree ↔ v'.NulFree := by
  cases v with
  | table d =>
    obtain ⟨d', rfl, -⟩ := h
    exact Iff.rfl
  | function d =>
    obtain ⟨d', rfl, -⟩ := h
    exact Iff.rfl
  | _ => rw [show v' = _ from h]

/-- Corresponding nodes hold the same strings. -/
theorem Corr.nulFree {n n' : Lua.Node} (h : R.Node n n') : n.NulFree ↔ n'.NulFree := by
  cases n with
  | table es =>
    cases n' with
    | table es' =>
      obtain ⟨l, hperm, hl⟩ := h
      constructor
      · intro hn e' he'
        obtain ⟨e, he, hk, hv⟩ := forall₂_mem_right hl (hperm.symm.subset he')
        exact (hn e he).imp hk.nulFree.mp hv.nulFree.mp
      · intro hn e he
        obtain ⟨e', he', hk, hv⟩ := forall₂_mem_left hl he
        exact (hn e' (hperm.subset he')).imp hk.nulFree.mpr hv.nulFree.mpr
    | closure c' => exact h.elim
    | cell s' => exact h.elim
  | closure c =>
    cases n' with
    | closure c' => exact Iff.rfl
    | table es' => exact h.elim
    | cell s' => exact h.elim
  | cell s =>
    cases n' with
    | cell s' => exact Corr.Val.nulFree h
    | table es' => exact h.elim
    | closure c' => exact h.elim

/-- Agreement with a part of a graph is agreement with the graph. -/
theorem Agree.of_le {H : Graph} (h : Agree G G' R) (hle : ∀ a n, G a = some n → H a = some n) :
    Agree H G' R where
  obj a a' ha := by
    obtain ⟨n, n', hn, hn', hnode⟩ := h.obj a a' ha
    exact ⟨n, n', hle a n hn, hn', hnode⟩
  cell c x hx := by
    obtain ⟨s, s', hs, hs', hval⟩ := h.cell c x hx
    exact ⟨s, s', hle c _ hs, hs', hval⟩

/-- Agreement depends on the images only. -/
theorem Agree.of_images {H : Graph} (h : Agree G G' R) (hobj : ∀ a a', R.obj a a' → H a' = G' a')
    (hcell : ∀ c x, R.cell c x → H x = G' x) : Agree G H R where
  obj a a' ha := by
    obtain ⟨n, n', hn, hn', hnode⟩ := h.obj a a' ha
    exact ⟨n, n', hn, by rw [hobj a a' ha, hn'], hnode⟩
  cell c x hx := by
    obtain ⟨s, s', hs, hs', hval⟩ := h.cell c x hx
    exact ⟨s, s', hs, by rw [hcell c x hx, hs'], hval⟩

theorem Agree.node (h : Agree G G' R) (hab : R.Rel a a') :
    ∃ n n', G a = some n ∧ G' a' = some n' ∧ R.Node n n' := by
  rcases hab with ho | hc
  · exact h.obj a a' ho
  · obtain ⟨s, s', hs, hs', hv⟩ := h.cell a a' hc
    exact ⟨_, _, hs, hs', hv⟩

/-- **Every path has a corresponding path.** -/
theorem Agree.reach (h : Agree G G' R) (hab : R.Rel a a') (hb : G.Reach a b) :
    ∃ b', G'.Reach a' b' ∧ R.Rel b b' := by
  induction hb with
  | refl => exact ⟨a', .refl, hab⟩
  | @tail d e _ hde ih =>
    obtain ⟨d', hd', hrel⟩ := ih
    obtain ⟨n, n', hn, hn', hnode⟩ := h.node hrel
    obtain ⟨m, hm, hmem⟩ := hde
    obtain rfl : n = m := by simpa [hn] using hm
    obtain ⟨e', he', hrel'⟩ := (Corr.children hnode).1 e hmem
    exact ⟨e', hd'.tail ⟨n', hn', he'⟩, hrel'⟩

/-- In the other graph too: what an image refers to is an image. -/
theorem Agree.edge' (h : Agree G G' R) (hab : R.Rel a a') (hb : G'.Edge a' b') :
    ∃ b, G.Edge a b ∧ R.Rel b b' := by
  obtain ⟨n, n', hn, hn', hnode⟩ := h.node hab
  obtain ⟨m, hm, hmem⟩ := hb
  obtain rfl : n' = m := by simpa [hn'] using hm
  obtain ⟨b, hb, hrel⟩ := (Corr.children hnode).2 b' hmem
  exact ⟨b, ⟨n, hn, hb⟩, hrel⟩

/-- What is reached from an image is an image. -/
theorem Agree.reach' (h : Agree G G' R) (hab : R.Rel a a') (hb : G'.Reach a' b') :
    ∃ b, G.Reach a b ∧ R.Rel b b' := by
  induction hb with
  | refl => exact ⟨a, .refl, hab⟩
  | tail _ hde ih =>
    obtain ⟨d, hd, hrel⟩ := ih
    obtain ⟨e, hde', hrel'⟩ := h.edge' hrel hde
    exact ⟨e, hd.tail hde', hrel'⟩

/-- So is what is reached in one step or more. -/
theorem Agree.below' (h : Agree G G' R) (hab : R.Rel a a') (hb : G'.Below a' b') :
    ∃ b, G.Below a b ∧ R.Rel b b' := by
  obtain ⟨d', hd', hde⟩ := Relation.TransGen.tail'_iff.mp hb
  obtain ⟨d, hd, hrel⟩ := h.reach' hab hd'
  obtain ⟨b, hdb, hrel'⟩ := h.edge' hrel hde
  exact ⟨b, .tail' hd hdb, hrel'⟩

/-- **Two values with one image have NUL bytes in the same places**: none
if the other has none. -/
theorem Agree.nulFree {H : Graph} (h : Agree G H R) (h' : Agree G' H R') (hv : R.Val v w)
    (hv' : R'.Val v' w) (hfree : v'.NulFree) (hall : ∀ a n, G' a = some n → n.NulFree) :
    v.NulFree ∧ G.AllFrom v Node.NulFree := by
  refine ⟨hv.nulFree.mpr (hv'.nulFree.mp hfree), ?_⟩
  rintro b n ⟨a, ha, hab⟩ hn
  obtain ⟨c, hc, hac⟩ := hv.ref ha
  obtain ⟨d, hd, hdc⟩ := hv'.ref' hc
  -- from the value to its image, and from there to the other value
  obtain ⟨b', hb', hbb⟩ := h.reach (.inl hac) hab
  obtain ⟨e, -, heb⟩ := h'.reach' (.inl hdc) hb'
  obtain ⟨m, n', hm, hn', hnode⟩ := h.node hbb
  obtain ⟨k, k', hk, hk', hnode'⟩ := h'.node heb
  obtain rfl : m = n := Option.some.inj (hm.symm.trans hn)
  obtain rfl : n' = k' := Option.some.inj (hn'.symm.trans hk')
  exact (Corr.nulFree hnode).mpr ((Corr.nulFree hnode').mp (hall e k hk))

/-- Without wrappers, what the serialiser reaches the Lua code reaches. -/
theorem reach_plain {h : Heap} (hu : h.captured.AllFrom v Node.Unwrapped) (ha : v.ref? = some a)
    (hab : h.captured.Reach a b) : h.plain.Reach a b := by
  induction hab with
  | refl => exact .refl
  | @tail c d hac hcd ih =>
    obtain ⟨n, hn, hd⟩ := hcd
    exact ih.tail ⟨n, plain_of_captured hn (hu c n ⟨a, ha, hac⟩ hn), hd⟩

theorem reachFrom_plain {h : Heap} (hu : h.captured.AllFrom v Node.Unwrapped)
    (hb : h.captured.ReachFrom v b) : h.plain.ReachFrom v b := by
  obtain ⟨a, ha, hab⟩ := hb
  exact ⟨a, ha, reach_plain hu ha hab⟩

/-- **Corresponding functions hold corresponding values.** -/
theorem Agree.getupvalue {h h' : Heap} {f f' : Addr} {i : ℕ} (hR : Agree h.plain h'.plain R)
    (hf : R.obj f f') (hv : h.getupvalue f i = some v) :
    ∃ v', h'.getupvalue f' i = some v' ∧ R.Val v v' := by
  obtain ⟨x, hx, hxv⟩ := Option.bind_eq_some_iff.mp hv
  obtain ⟨c, m, hc, rfl, hm⟩ := Heap.upvalueid_eq_some.mp hx
  have hplain : h.plain f = some (.closure c) := by simp [Heap.plain, hc]
  obtain ⟨n, n', hn, hn', hnode⟩ := hR.obj f f' hf
  rw [hplain] at hn
  obtain rfl := Option.some.inj hn
  cases n' with
  | closure c' =>
    obtain ⟨y, hy, hxy⟩ := forall₂_getElem? hnode.2 hm
    obtain ⟨s, s', hs, hs', hval⟩ := hR.cell x y hxy
    have hsv : s = ⟨v, none⟩ := by
      simpa [Heap.plain, Heap.cell?_eq_some.mp hxv] using hs.symm
    have hc' : h'.lookup f' = some (.closure c') := by
      unfold Heap.plain at hn'
      split at hn' <;> simp_all
    have hy' : h'.lookup y = some (.cell s'.value) := by
      unfold Heap.plain at hs'
      split at hs'
      any_goals simp at hs'
      rename_i w hw
      rw [hw, ← hs']
    refine ⟨s'.value, ?_, by rw [hsv] at hval; exact hval⟩
    rw [Heap.getupvalue, Heap.upvalueid_succ hc', hy]
    exact Heap.cell?_eq_some.mpr hy'
  | table es => exact hnode.elim
  | cell s => exact hnode.elim

/-! ## Two images of one graph -/

/-- The correspondence of two images of one graph. -/
def Corr.through (R R' : Corr) : Corr where
  obj a' b' := ∃ a, R.obj a a' ∧ R'.obj a b'
  cell x y := ∃ c, R.cell c x ∧ R'.cell c y

theorem Corr.Val.through {v v₁ v₂ : Value} (h₁ : R.Val v v₁) (h₂ : R'.Val v v₂) :
    (R.through R').Val v₁ v₂ := by
  cases v with
  | table a =>
    obtain ⟨a₁, rfl, ha₁⟩ := h₁
    obtain ⟨a₂, rfl, ha₂⟩ := h₂
    exact ⟨a₂, rfl, a, ha₁, ha₂⟩
  | function a =>
    obtain ⟨a₁, rfl, ha₁⟩ := h₁
    obtain ⟨a₂, rfl, ha₂⟩ := h₂
    exact ⟨a₂, rfl, a, ha₁, ha₂⟩
  | _ =>
    rw [show v₁ = _ from h₁, show v₂ = _ from h₂]
    rfl

theorem Corr.node_through {n n₁ n₂ : Lua.Node} (h₁ : R.Node n n₁) (h₂ : R'.Node n n₂) :
    (R.through R').Node n₁ n₂ := by
  cases n with
  | table es =>
    cases n₁ with
    | table es₁ =>
      cases n₂ with
      | table es₂ =>
        obtain ⟨l₁, hp₁, hl₁⟩ := h₁
        obtain ⟨l₂, hp₂, hl₂⟩ := h₂
        have hl : List.Forall₂ (R.through R').Entry l₁ l₂ :=
          forall₂_trans hl₁.flip hl₂ fun _ _ _ h h' => ⟨h.1.through h'.1, h.2.through h'.2⟩
        obtain ⟨l, hl, hp⟩ := List.perm_comp_forall₂ hp₁.symm hl
        exact ⟨l, hp.trans hp₂, hl⟩
      | closure c => exact h₂.elim
      | cell s => exact h₂.elim
    | closure c => exact h₁.elim
    | cell s => exact h₁.elim
  | closure c =>
    cases n₁ with
    | closure c₁ =>
      cases n₂ with
      | closure c₂ =>
        exact ⟨h₁.1.symm.trans h₂.1, forall₂_trans h₁.2.flip h₂.2 fun _ y _ h h' => ⟨y, h, h'⟩⟩
      | table es => exact h₂.elim
      | cell s => exact h₂.elim
    | table es => exact h₁.elim
    | cell s => exact h₁.elim
  | cell s =>
    cases n₁ with
    | cell s₁ =>
      cases n₂ with
      | cell s₂ => exact Corr.Val.through h₁ h₂
      | table es => exact h₂.elim
      | closure c => exact h₂.elim
    | table es => exact h₁.elim
    | closure c => exact h₁.elim

/-- **Two images of one graph agree with each other.** -/
theorem Agree.through {H : Graph} (h : Agree G G' R) (h' : Agree G H R') :
    Agree G' H (R.through R') where
  obj a' b' := by
    rintro ⟨a, ha', hb'⟩
    obtain ⟨n, n₁, hn, hn₁, hnode⟩ := h.obj a a' ha'
    obtain ⟨m, n₂, hm, hn₂, hnode'⟩ := h'.obj a b' hb'
    obtain rfl : n = m := by simpa [hn] using hm
    exact ⟨n₁, n₂, hn₁, hn₂, Corr.node_through hnode hnode'⟩
  cell x y := by
    rintro ⟨c, hx, hy⟩
    obtain ⟨s, s₁, hs, hs₁, hval⟩ := h.cell c x hx
    obtain ⟨u, s₂, hu, hs₂, hval'⟩ := h'.cell c y hy
    obtain rfl : s = u := by simpa [hs] using hu
    exact ⟨s₁, s₂, hs₁, hs₂, hval.through hval'⟩

theorem Corr.CellsOneToOne.through (h : R.CellsOneToOne) (h' : R'.CellsOneToOne) :
    (R.through R').CellsOneToOne := by
  rintro x y x' y' ⟨c, hx, hy⟩ ⟨d, hx', hy'⟩
  rw [h' c y d y' hy hy', h c x d x' hx hx']

theorem Corr.TablesOneToOne.through (hG : Agree G G' R) (h : R.TablesOneToOne G)
    (h' : R'.TablesOneToOne G) : (R.through R').TablesOneToOne G' := by
  rintro a a' b b' es hes ⟨d, hda, hda'⟩ ⟨e, heb, heb'⟩
  obtain ⟨n, n', hn, hn', hnode⟩ := hG.obj d a hda
  rw [hes] at hn'
  obtain rfl := Option.some.inj hn'
  cases n with
  | table ds => rw [h' d a' e b' ds hn hda' heb', h d a e b ds hn hda heb]
  | closure c => exact hnode.elim
  | cell s => exact hnode.elim

end Lua

end Rushit
