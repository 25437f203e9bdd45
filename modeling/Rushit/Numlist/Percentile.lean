import Rushit.Numlist.Pool
/-!
# Percentiles

`numlist_percentile` takes the number of rank `(size - 1) * percentile /
100`, so that at least that share of the numbers is at or below it, and
at least the rest at or above. It grows with the percentile, from
`numlist_min` to `numlist_max`, and is the same for any two lists with
the same numbers.
-/

namespace Rushit

namespace Memory

variable {α : Type} [LinearOrder α] [BoundedOrder α]

/-- **What a percentile is** of the numbers `s` of a list. -/
structure Ranked (m : Memory α) (lst : ℕ) (s : Multiset α) (p : ℤ) (v : α) : Prop where
  index_lt : percentileIndex s.card p < s.card
  percentile : m.percentile lst p = .ok (some v)
  mem : v ∈ s
  below : (s.card - 1) * p.toNat / 100 + 1 ≤ (s.filter (· ≤ v)).card
  above : s.card - (s.card - 1) * p.toNat / 100 ≤ (s.filter (v ≤ ·)).card

variable {m m' : Memory α} {ops ops' : List (Op α)} {lst n : ℕ} {s : Multiset α} {p q : ℤ}
variable {v v' : α}

/-- The index does not wrap around while the numbers are few enough. -/
theorem percentileIndex_eq (hn : n * 100 < 2 ^ 64) (hp : 0 ≤ p) (hp' : p ≤ 100) :
    percentileIndex n p = (n - 1) * p.toNat / 100 := by
  have hmod : (p % 2 ^ 64).toNat = p.toNat := by omega
  have hle : (n - 1) * p.toNat ≤ (n - 1) * 100 := Nat.mul_le_mul_left _ (by omega)
  have hwrap : (n - 1) * p.toNat < 2 ^ 64 := by omega
  rw [percentileIndex, hmod, Nat.mod_eq_of_lt hwrap]

/-- A percentile is the number of its rank. -/
theorem Agrees.ranked (h : Agrees m lst s) (hpos : 0 < s.card) (hbound : s.card * 100 < 2 ^ 64)
    (hp : 0 ≤ p) (hp' : p ≤ 100) : ∃ v, Ranked m lst s p v := by
  have hlt := percentileIndex_lt hpos hp hp'
  obtain ⟨v, hv⟩ := atRank_isSome hlt
  have hindex := percentileIndex_eq hbound hp hp'
  refine ⟨v, hlt, by rw [h.percentile p hp hp', hv], atRank_mem hv, ?_, ?_⟩
  · rw [← hindex]
    exact card_le_atRank hv
  · rw [← hindex]
    exact card_ge_atRank hv

/-- The rank of a percentile. -/
theorem Agrees.atRank_of_ranked (h : Agrees m lst s) (hp : 0 ≤ p) (hp' : p ≤ 100)
    (hv : Ranked m lst s p v) : atRank s (percentileIndex s.card p) = some v :=
  Except.ok.inj ((h.percentile p hp hp').symm.trans hv.percentile)

/-- **Percentiles grow.** -/
theorem Agrees.mono (h : Agrees m lst s) (hbound : s.card * 100 < 2 ^ 64) (hp : 0 ≤ p)
    (hpq : p ≤ q) (hq : q ≤ 100) (hv : Ranked m lst s p v) (hv' : Ranked m lst s q v') :
    v ≤ v' := by
  refine atRank_mono ?_ (h.atRank_of_ranked hp (hpq.trans hq) hv)
    (h.atRank_of_ranked (hp.trans hpq) hq hv')
  rw [percentileIndex_eq hbound hp (hpq.trans hq), percentileIndex_eq hbound (hp.trans hpq) hq]
  exact Nat.div_le_div_right (Nat.mul_le_mul_left _ (Int.toNat_le_toNat hpq))

/-- **The percentile 0** is the minimum. -/
theorem Agrees.percentile_zero (h : Agrees m lst s) (hv : Ranked m lst s 0 v) :
    m.min lst = .ok v := by
  have hrank : atRank s 0 = some v := by
    have hv := h.atRank_of_ranked le_rfl (by omega) hv
    rwa [percentileIndex, Int.zero_emod, Int.toNat_zero, Nat.mul_zero, Nat.zero_mod,
      Nat.zero_div] at hv
  have hinf : s.inf = v :=
    le_antisymm (Multiset.inf_le hv.mem) (Multiset.le_inf.mpr fun y hy => atRank_zero_le hrank hy)
  rw [h.min, hinf]

/-- **The percentile 100** is the maximum. -/
theorem Agrees.percentile_hundred (h : Agrees m lst s) (hbound : s.card * 100 < 2 ^ 64)
    (hv : Ranked m lst s 100 v) : m.max lst = .ok v := by
  have hrank : atRank s (s.card - 1) = some v := by
    have hv := h.atRank_of_ranked (by omega) le_rfl hv
    have hlast : (s.card - 1) * (100 : ℤ).toNat / 100 = s.card - 1 :=
      Nat.mul_div_cancel _ (Nat.zero_lt_succ 99)
    rwa [percentileIndex_eq hbound (by omega) le_rfl, hlast] at hv
  have hsup : s.sup = v :=
    le_antisymm (Multiset.sup_le.mpr fun y hy => le_atRank_last hrank hy) (Multiset.le_sup hv.mem)
  rw [h.max, hsup]

/-- **The percentiles of any list** that operations lead to: there are
numbers of the list at the two ranks, in order, the outermost are the
minimum and the maximum, and another list with the same numbers has the
same percentiles. -/
theorem percentile_ranks (hnamed : Named 0 ops) (hok : (empty : Memory α).execAll ops = .ok m)
    (hlst : lst < m.lists.length) (hsize : m.size lst = .ok n) (hpos : 1 ≤ n)
    (hbound : n * 100 < 2 ^ 64) (hp : 0 ≤ p) (hpq : p ≤ q) (hq : q ≤ 100) :
    ∃ v v', (poolAfter (fun _ => 0) ops lst).card = n ∧
      Ranked m lst (poolAfter (fun _ => 0) ops lst) p v ∧
      Ranked m lst (poolAfter (fun _ => 0) ops lst) q v' ∧ v ≤ v' ∧
      m.percentile lst 0 = (m.min lst).map some ∧ m.percentile lst 100 = (m.max lst).map some ∧
      ∀ (ops' : List (Op α)) (m' : Memory α) (lst' : ℕ), Named 0 ops' →
        (empty : Memory α).execAll ops' = .ok m' → lst' < m'.lists.length →
        poolAfter (fun _ => 0) ops' lst' = poolAfter (fun _ => 0) ops lst →
        m'.percentile lst' p = m.percentile lst p := by
  have h := (holds_of_execAll hnamed hok).agrees hlst
  have hcard : (poolAfter (fun _ => 0) ops lst).card = n :=
    Except.ok.inj (h.size.symm.trans hsize)
  rw [← hcard] at hpos hbound
  obtain ⟨v, hv⟩ := h.ranked hpos hbound hp (hpq.trans hq)
  obtain ⟨v', hv'⟩ := h.ranked hpos hbound (hp.trans hpq) hq
  obtain ⟨v₀, hv₀⟩ := h.ranked hpos hbound (p := 0) le_rfl (by omega)
  obtain ⟨v₁, hv₁⟩ := h.ranked hpos hbound (p := 100) (by omega) le_rfl
  refine ⟨v, v', hcard, hv, hv', h.mono hbound hp hpq hq hv hv', ?_, ?_, ?_⟩
  · rw [hv₀.percentile, h.percentile_zero hv₀]
    rfl
  · rw [hv₁.percentile, h.percentile_hundred hbound hv₁]
    rfl
  · intro ops' m' lst' hnamed' hok' hlst' hsame
    have h' := (holds_of_execAll hnamed' hok').agrees hlst'
    rw [h.percentile p hp (hpq.trans hq), h'.percentile p hp (hpq.trans hq), hsame]

/-- One list of two numbers. -/
theorem percentile_ranks_pair : ∃ m : Memory Bool,
    empty.execAll [.create, .add 0 true, .add 0 false] = .ok m ∧
    ∃ v v', (poolAfter (fun _ => 0) [.create, .add 0 true, .add 0 false] 0).card = 2 ∧
      Ranked m 0 (poolAfter (fun _ => 0) [.create, .add 0 true, .add 0 false] 0) 0 v ∧
      Ranked m 0 (poolAfter (fun _ => 0) [.create, .add 0 true, .add 0 false] 0) 50 v' ∧ v ≤ v' ∧
      m.percentile 0 0 = (m.min 0).map some ∧ m.percentile 0 100 = (m.max 0).map some ∧
      ∀ (ops' : List (Op Bool)) (m' : Memory Bool) (lst' : ℕ), Named 0 ops' →
        (empty : Memory Bool).execAll ops' = .ok m' → lst' < m'.lists.length →
        poolAfter (fun _ => 0) ops' lst' =
          poolAfter (fun _ => 0) [.create, .add 0 true, .add 0 false] 0 →
        m'.percentile lst' 0 = m.percentile 0 0 :=
  ⟨_, rfl, percentile_ranks (by simp [Named]) rfl (by decide) (n := 2) rfl (by decide) (by decide)
    (by decide) (by decide) (by decide)⟩

end Memory

end Rushit
