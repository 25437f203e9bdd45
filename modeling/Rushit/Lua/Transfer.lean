import Rushit.Common.Acyclic
import Rushit.Lua.Agree
/-!
# What agreement carries over

Two graphs that agree along a correspondence are alike in everything
the nodes say of themselves: what is supported, founded or acyclic from
a value is so from its image. Agreement is symmetric, and so it composes:
an image of an image is an image.
-/

namespace Rushit

namespace Lua

variable {G G' H : Graph} {R R' : Corr} {a a' : Addr} {v v' w : Value} {n n' : Lua.Node}

/-! ## Along a correspondence -/

/-- **What holds of all that is reached holds of all images.** -/
theorem Agree.allFrom {P P' : Lua.Node → Prop} (h : Agree G G' R) (hv : R.Val v v')
    (hP : ∀ n n', R.Node n n' → P n → P' n') (hall : G.AllFrom v P) : G'.AllFrom v' P' := by
  rintro b' n' ⟨a', ha', hab'⟩ hb'
  obtain ⟨a, ha, hrel⟩ := hv.ref' ha'
  obtain ⟨b, hab, hbb⟩ := h.reach' (.inl hrel) hab'
  obtain ⟨n, m, hn, hm, hnode⟩ := h.node hbb
  obtain rfl : m = n' := Option.some.inj (hm.symm.trans hb')
  exact hP n m hnode (hall b n ⟨a, ha, hab⟩ hn)

/-- The image of a supported value is supported. -/
theorem Agree.supports (h : Agree G G' R) (hv : R.Val v v') (hs : G.Supports v) :
    G'.Supports v' := by
  cases v with
  | table a =>
    obtain ⟨a', rfl, ha⟩ := hv
    obtain ⟨es, hes⟩ := hs
    obtain ⟨n, n', hn, hn', hnode⟩ := h.obj a a' ha
    obtain rfl := Option.some.inj (hes.symm.trans hn)
    cases n' with
    | table es' => exact ⟨es', hn'⟩
    | closure c => exact hnode.elim
    | cell s => exact hnode.elim
  | function a =>
    obtain ⟨a', rfl, ha⟩ := hv
    obtain ⟨c, hc⟩ := hs
    obtain ⟨n, n', hn, hn', hnode⟩ := h.obj a a' ha
    obtain rfl := Option.some.inj (hc.symm.trans hn)
    cases n' with
    | closure c' => exact ⟨c', hn'⟩
    | table es => exact hnode.elim
    | cell s => exact hnode.elim
  | boolean b =>
    rw [show v' = _ from hv]
    trivial
  | number x =>
    rw [show v' = _ from hv]
    trivial
  | string s =>
    rw [show v' = _ from hv]
    trivial
  | _ => exact hs.elim

/-- So is the image of a supported node. -/
theorem Agree.supportsNode (h : Agree G G' R) (hnode : R.Node n n') (hs : G.SupportsNode n) :
    G'.SupportsNode n' := by
  cases n with
  | table es =>
    cases n' with
    | table es' =>
      obtain ⟨l, hperm, hl⟩ := hnode
      intro e' he'
      obtain ⟨e, he, hk, hv⟩ := forall₂_mem_right hl (hperm.symm.subset he')
      exact ⟨h.supports hk (hs e he).1, h.supports hv (hs e he).2⟩
    | closure c => exact hnode.elim
    | cell s => exact hnode.elim
  | closure c =>
    cases n' with
    | closure c' =>
      intro x' hx'
      obtain ⟨x, -, hcell⟩ := forall₂_mem_right hnode.2 hx'
      obtain ⟨s, s', -, hs', -⟩ := h.cell x x' hcell
      exact ⟨s', hs'⟩
    | table es => exact hnode.elim
    | cell s => exact hnode.elim
  | cell s =>
    cases n' with
    | cell s' => exact h.supports hnode hs
    | table es => exact hnode.elim
    | closure c => exact hnode.elim

theorem Agree.supportedFrom (h : Agree G G' R) (hv : R.Val v v') (hs : G.SupportedFrom v) :
    G'.SupportedFrom v' :=
  ⟨h.supports hv hs.1, h.allFrom hv (fun _ _ hnode => h.supportsNode hnode) hs.2⟩

/-- **No infinite path where the original has none.** -/
theorem Agree.founded (h : Agree G G' R) (hrel : R.Rel a a') (ha : G.Founded a) :
    G'.Founded a' := by
  induction ha generalizing a' with
  | intro a _ ih =>
    refine ⟨_, fun b' hb' => ?_⟩
    obtain ⟨n', hn', hmem⟩ := hb'
    obtain ⟨n, m, hn, hm, hnode⟩ := h.node hrel
    obtain rfl : m = n' := Option.some.inj (hm.symm.trans hn')
    obtain ⟨b, hb, hbb⟩ := (Corr.children hnode).2 b' hmem
    exact ih b ⟨n, hn, hb⟩ hbb

theorem Agree.acyclicFrom (h : Agree G G' R) (hv : R.Val v v')
    (hf : ∀ a, v.ref? = some a → G.Founded a) : G'.AcyclicFrom v' := by
  rintro b' ⟨a', ha', hab'⟩
  obtain ⟨a, ha, hrel⟩ := hv.ref' ha'
  exact not_transGen_of_acc (acc_of_reach (h.founded (.inl hrel) (hf a ha)) hab')

/-! ## Backwards, and one after the other -/

/-- The correspondence read backwards. -/
def Corr.flip (R : Corr) : Corr where
  obj a' a := R.obj a a'
  cell x c := R.cell c x

theorem Corr.Val.flip (h : R.Val v v') : R.flip.Val v' v := by
  cases v with
  | table a =>
    obtain ⟨a', rfl, ha⟩ := h
    exact ⟨a, rfl, ha⟩
  | function a =>
    obtain ⟨a', rfl, ha⟩ := h
    exact ⟨a, rfl, ha⟩
  | _ =>
    rw [show v' = _ from h]
    rfl

theorem Corr.node_flip (h : R.Node n n') : R.flip.Node n' n := by
  cases n with
  | table es =>
    cases n' with
    | table es' =>
      obtain ⟨l, hperm, hl⟩ := h
      have hflip : List.Forall₂ R.flip.Entry l es :=
        hl.flip.imp fun _ _ he => ⟨he.1.flip, he.2.flip⟩
      obtain ⟨l', hl', hperm'⟩ := List.perm_comp_forall₂ hperm.symm hflip
      exact ⟨l', hperm', hl'⟩
    | closure c => exact h.elim
    | cell s => exact h.elim
  | closure c =>
    cases n' with
    | closure c' => exact ⟨h.1.symm, h.2.flip⟩
    | table es => exact h.elim
    | cell s => exact h.elim
  | cell s =>
    cases n' with
    | cell s' => exact Corr.Val.flip h
    | table es => exact h.elim
    | closure c => exact h.elim

/-- **Agreement is symmetric.** -/
theorem Agree.flip (h : Agree G G' R) : Agree G' G R.flip where
  obj a' a ha := by
    obtain ⟨n, n', hn, hn', hnode⟩ := h.obj a a' ha
    exact ⟨n', n, hn', hn, Corr.node_flip hnode⟩
  cell x c hx := by
    obtain ⟨s, s', hs, hs', hval⟩ := h.cell c x hx
    exact ⟨s', s, hs', hs, Corr.Val.flip hval⟩

theorem Corr.CellsOneToOne.flip (h : R.CellsOneToOne) : R.flip.CellsOneToOne :=
  fun x c y d hx hy => (h c x d y hx hy).symm

theorem Corr.TablesOneToOne.flip (hG : Agree G G' R) (h : R.TablesOneToOne G) :
    R.flip.TablesOneToOne G' := by
  intro a' a b' b es' hes' ha hb
  obtain ⟨n, n', hn, hn', hnode⟩ := hG.obj a a' ha
  obtain rfl := Option.some.inj (hes'.symm.trans hn')
  cases n with
  | table es => exact (h a a' b b' es hn ha hb).symm
  | closure c => exact hnode.elim
  | cell s => exact hnode.elim

/-- An image of an image. -/
def Corr.comp (R R' : Corr) : Corr := R.flip.through R'

theorem Corr.Val.comp (h : R.Val v v') (h' : R'.Val v' w) : (R.comp R').Val v w :=
  h.flip.through h'

/-- **Agreement composes.** -/
theorem Agree.comp (h : Agree G G' R) (h' : Agree G' H R') : Agree G H (R.comp R') :=
  h.flip.through h'

theorem Corr.CellsOneToOne.comp (h : R.CellsOneToOne) (h' : R'.CellsOneToOne) :
    (R.comp R').CellsOneToOne :=
  h.flip.through h'

theorem Corr.TablesOneToOne.comp (hG : Agree G G' R) (h : R.TablesOneToOne G)
    (h' : R'.TablesOneToOne G') : (R.comp R').TablesOneToOne G :=
  (h.flip hG).through hG.flip h'

end Lua

end Rushit
