/-
  Loads that are spread evenly.

  Items are put one by one into bins, each into a bin whose load is least.  The
  loads then differ by one at most, so that each bin has its share of the items,
  rounded down or up.

  * `Spread`: `k` items are spread over the bins of `s`, and no load exceeds
    another by more than one;
  * `Spread.put`: an item goes to a bin of least load;
  * `Spread.share`: the load of each bin;
  * `Spread.room`: a bin of least load has room as long as there is any.
-/
import Mathlib.Tactic

namespace TaskSch

universe u

variable {ι : Type u} {s : Finset ι} {load load' : ι → ℕ} {k cap : ℕ} {p : ι}

/-- The bins of `s` have `k` items, and no load exceeds another by more than one. -/
structure Spread (s : Finset ι) (load : ι → ℕ) (k : ℕ) : Prop where
  sum : ∑ i ∈ s, load i = k
  near : ∀ i ∈ s, ∀ j ∈ s, load i ≤ load j + 1

namespace Spread

theorem empty (h : ∀ i ∈ s, load i = 0) : Spread s load 0 := by
  constructor
  · exact Finset.sum_eq_zero h
  · intro i hi j _
    rw [h i hi]
    omega

/-- As long as there is room at all, a bin of least load has room. -/
theorem room (h : Spread s load k) (hmin : ∀ q ∈ s, load p ≤ load q) (hk : k < s.card * cap) :
    load p < cap := by
  by_contra hge
  have hle : s.card * cap ≤ ∑ q ∈ s, load q := by
    rw [← smul_eq_mul]
    exact Finset.card_nsmul_le_sum _ _ _ fun q hq => (not_lt.1 hge).trans (hmin q hq)
  rw [h.sum] at hle
  omega

variable [DecidableEq ι]

/-- An item goes to a bin of least load. -/
theorem put (h : Spread s load k) (hp : p ∈ s) (hmin : ∀ q ∈ s, load p ≤ load q)
    (hput : load' p = load p + 1) (hrest : ∀ q ∈ s, q ≠ p → load' q = load q) :
    Spread s load' (k + 1) := by
  constructor
  · have hsum := Finset.add_sum_erase s load hp
    have hsum' := Finset.add_sum_erase s load' hp
    have herase : ∑ q ∈ s.erase p, load' q = ∑ q ∈ s.erase p, load q := by
      refine Finset.sum_congr rfl fun q hq => ?_
      exact hrest q (Finset.mem_of_mem_erase hq) (Finset.ne_of_mem_erase hq)
    rw [h.sum] at hsum
    omega
  · intro i hi j hj
    have hij := h.near i hi j hj
    by_cases hip : i = p
    · subst hip
      have hj' := hmin j hj
      by_cases hjp : j = i
      · subst hjp; omega
      · rw [hput, hrest j hj hjp]; omega
    · rw [hrest i hi hip]
      by_cases hjp : j = p
      · subst hjp; omega
      · rw [hrest j hj hjp]; exact hij

theorem le_mul (h : Spread s load k) {i : ι} (hi : i ∈ s) : k ≤ s.card * load i + (s.card - 1) := by
  have hsum := Finset.add_sum_erase s load hi
  have hle : ∑ q ∈ s.erase i, load q ≤ (s.erase i).card * (load i + 1) := by
    rw [← smul_eq_mul]
    exact Finset.sum_le_card_nsmul _ _ _ fun q hq => h.near q (Finset.mem_of_mem_erase hq) i hi
  rw [h.sum] at hsum
  rw [Finset.card_erase_of_mem hi] at hle
  obtain ⟨c, hc⟩ : ∃ c, s.card = c + 1 :=
    ⟨s.card - 1, by have := Finset.card_pos.2 ⟨i, hi⟩; omega⟩
  rw [hc, Nat.add_sub_cancel] at hle ⊢
  nlinarith

theorem mul_le (h : Spread s load k) {i : ι} (hi : i ∈ s) : s.card * load i ≤ k + (s.card - 1) := by
  have hsum := Finset.add_sum_erase s load hi
  have hle : ∑ q ∈ s.erase i, load i ≤ ∑ q ∈ s.erase i, (load q + 1) :=
    Finset.sum_le_sum fun q hq => h.near i hi q (Finset.mem_of_mem_erase hq)
  rw [Finset.sum_add_distrib, Finset.sum_const, Finset.sum_const, smul_eq_mul, smul_eq_mul,
    mul_one, Finset.card_erase_of_mem hi] at hle
  rw [h.sum] at hsum
  obtain ⟨c, hc⟩ : ∃ c, s.card = c + 1 :=
    ⟨s.card - 1, by have := Finset.card_pos.2 ⟨i, hi⟩; omega⟩
  rw [hc, Nat.add_sub_cancel] at hle ⊢
  nlinarith

theorem div_le (h : Spread s load k) {i : ι} (hi : i ∈ s) : k / s.card ≤ load i := by
  have hpos : 0 < s.card := Finset.card_pos.2 ⟨i, hi⟩
  have hle := h.le_mul hi
  rw [← Nat.lt_succ_iff, Nat.div_lt_iff_lt_mul hpos, Nat.succ_mul, Nat.mul_comm]
  omega

/-- **Each bin has its share** of the items, rounded down or up. -/
theorem share (h : Spread s load k) {i : ι} (hi : i ∈ s) :
    load i = k / s.card ∨ load i = (k + (s.card - 1)) / s.card := by
  have hpos : 0 < s.card := Finset.card_pos.2 ⟨i, hi⟩
  have hlow := h.div_le hi
  have hhigh : load i ≤ (k + (s.card - 1)) / s.card := by
    rw [Nat.le_div_iff_mul_le hpos, Nat.mul_comm]
    exact h.mul_le hi
  have hgap : (k + (s.card - 1)) / s.card ≤ k / s.card + 1 := by
    rw [← Nat.add_div_right k hpos]
    exact Nat.div_le_div_right (by omega)
  omega

/-- When there is no room left, all bins are full. -/
theorem full (h : Spread s load (s.card * cap)) {i : ι} (hi : i ∈ s) : cap ≤ load i := by
  have hle := h.div_le hi
  rwa [Nat.mul_div_cancel_left cap (Finset.card_pos.2 ⟨i, hi⟩)] at hle

end Spread

end TaskSch
