/-
  Heaps in arrays.

  The children of the position `p` in a `k`-ary heap are the positions
  `k * p + 1 .. k * p + k`.  A heap is given by the key at each position, and by
  the number of positions.

  * `HeapFrom`: no key is greater than those of its children, for all positions
    from `lo` on;
  * `HoleFrom`: the same with the exception of one position, at which a
    sift-down has arrived;
  * `HoleFrom.swap`, `HoleFrom.keep`, `HoleFrom.finish`: the rounds of a
    sift-down;
  * `HeapFrom.root_le`: the first key is the least one;
  * `OrderBelow`: the proper descendants of a position are in order among
    themselves.
-/
import Mathlib.Tactic

namespace TaskSch

universe u

/-- The position `c` is a child of `p` in a `k`-ary heap. -/
def IsChild (k p c : ℕ) : Prop := k * p < c ∧ c ≤ k * p + k

namespace IsChild
variable {k p q c : ℕ}

theorem lt (h : IsChild k p c) : p < c := by
  obtain ⟨h1, h2⟩ := h
  rcases Nat.eq_zero_or_pos k with rfl | hk
  · omega
  · exact (Nat.le_mul_of_pos_left p hk).trans_lt h1

theorem unique (hp : IsChild k p c) (hq : IsChild k q c) : p = q := by
  have hpq : k * p < k * (q + 1) := hp.1.trans_le (by rw [Nat.mul_succ]; exact hq.2)
  have hqp : k * q < k * (p + 1) := hq.1.trans_le (by rw [Nat.mul_succ]; exact hp.2)
  have h1 := Nat.lt_of_mul_lt_mul_left hpq
  have h2 := Nat.lt_of_mul_lt_mul_left hqp
  omega

/-- Every position but the first one is a child. -/
theorem parent (hk : 0 < k) (hc : 0 < c) : IsChild k ((c - 1) / k) c := by
  have h1 := Nat.div_add_mod (c - 1) k
  have h2 := Nat.mod_lt (c - 1) hk
  constructor <;> omega

/-- Descendants come later. -/
theorem below_lt (h : Relation.TransGen (IsChild k) p q) : p < q := by
  induction h with
  | single h => exact h.lt
  | tail _ h ih => exact ih.trans h.lt

end IsChild

section Order

variable {α : Type u} [Preorder α] {k n lo i m : ℕ} {key : ℕ → α}

/-- No key at a position from `lo` on is greater than those of its children. -/
def HeapFrom (k n : ℕ) (key : ℕ → α) (lo : ℕ) : Prop :=
  ∀ p c, lo ≤ p → IsChild k p c → c < n → key p ≤ key c

/-- The order depends on the keys below `n` only. -/
theorem HeapFrom.congr {key' : ℕ → α} (h : HeapFrom k n key lo) (he : ∀ j < n, key' j = key j) :
    HeapFrom k n key' lo := by
  intro p c hp hc hcn
  rw [he p (hc.lt.trans hcn), he c hcn]
  exact h p c hp hc hcn

/-- From the first position on: no key is less than that of its parent. -/
theorem heapFrom_zero_iff (hk : 0 < k) :
    HeapFrom k n key 0 ↔ ∀ c < n, 1 ≤ c → key ((c - 1) / k) ≤ key c := by
  constructor
  · intro h c hcn hc
    exact h _ c (Nat.zero_le _) (.parent hk hc) hcn
  · intro h p c _ hc hcn
    have hpos : 0 < c := (Nat.zero_le p).trans_lt hc.lt
    have hp : (c - 1) / k = p := (IsChild.parent hk hpos).unique hc
    exact hp ▸ h c hcn hpos

/-- The same with the exception of the position `i`, whose children are not less
    than its parent. -/
structure HoleFrom (k n : ℕ) (key : ℕ → α) (lo i : ℕ) : Prop where
  off : ∀ p c, lo ≤ p → p ≠ i → IsChild k p c → c < n → key p ≤ key c
  above : ∀ p c, lo ≤ p → IsChild k p i → IsChild k i c → c < n → key p ≤ key c

/-- A sift-down starts above a heap. -/
theorem HeapFrom.hole (h : HeapFrom k n key (i + 1)) : HoleFrom k n key i i := by
  constructor
  · intro p c hp hne hc hn
    exact h p c (by omega) hc hn
  · intro p c hp hi
    exact absurd hi.lt (by omega)

/-- The key at the hole is greater than the least one below it: they are
    exchanged. -/
theorem HoleFrom.swap (h : HoleFrom k n key lo i) (hlo : lo ≤ i) (hm : IsChild k i m) (hn : m < n)
    (hmin : ∀ c, IsChild k i c → c < n → key m ≤ key c) (hlt : key m < key i) :
    HoleFrom k n (fun j => key (Equiv.swap i m j)) lo m := by
  have him := hm.lt
  constructor
  · intro p c hp hpm hc hcn
    have hpc := hc.lt
    by_cases hpi : p = i
    · subst hpi
      rw [Equiv.swap_apply_left]
      by_cases hcm : c = m
      · rw [hcm, Equiv.swap_apply_right]; exact hlt.le
      · rw [Equiv.swap_apply_of_ne_of_ne (by omega) hcm]; exact hmin c hc hcn
    · have hcm : c ≠ m := by
        rintro rfl
        exact hpi (hc.unique hm)
      rw [Equiv.swap_apply_of_ne_of_ne hpi hpm]
      by_cases hci : c = i
      · subst hci
        rw [Equiv.swap_apply_left]; exact h.above p m hp hc hm hn
      · rw [Equiv.swap_apply_of_ne_of_ne hci hcm]; exact h.off p c hp hpi hc hcn
  · intro p c hp hpm hc hcn
    have hpi := hpm.unique hm
    subst hpi
    have hmc := hc.lt
    rw [Equiv.swap_apply_left, Equiv.swap_apply_of_ne_of_ne (by omega) (by omega)]
    exact h.off m c (by omega) (by omega) hc hcn

/-- The key at the hole is not greater than those below it: the hole moves. -/
theorem HoleFrom.keep (h : HoleFrom k n key lo i) (hlo : lo ≤ i) (hm : IsChild k i m)
    (hmin : ∀ c, IsChild k i c → c < n → key m ≤ key c) (hle : key i ≤ key m) :
    HoleFrom k n key lo m := by
  have him := hm.lt
  constructor
  · intro p c hp _ hc hcn
    by_cases hpi : p = i
    · subst hpi; exact hle.trans (hmin c hc hcn)
    · exact h.off p c hp hpi hc hcn
  · intro p c hp hpm hc hcn
    have hpi := hpm.unique hm
    subst hpi
    exact hle.trans (h.off m c (by omega) (by omega) hc hcn)

/-- A sift-down ends at a position that is in order. -/
theorem HoleFrom.finish (h : HoleFrom k n key lo i)
    (hi : ∀ c, IsChild k i c → c < n → key i ≤ key c) : HeapFrom k n key lo := by
  intro p c hp hc hcn
  by_cases hpi : p = i
  · subst hpi; exact hi c hc hcn
  · exact h.off p c hp hpi hc hcn

/-- The first key is the least one. -/
theorem HeapFrom.root_le (h : HeapFrom k n key 0) (hk : 0 < k) {j : ℕ} (hj : j < n) :
    key 0 ≤ key j := by
  induction j using Nat.strong_induction_on with
  | h j ih =>
    rcases Nat.eq_zero_or_pos j with rfl | hpos
    · exact le_rfl
    · have hc := IsChild.parent hk hpos
      exact (ih _ hc.lt (hc.lt.trans hj)).trans (h _ j (Nat.zero_le _) hc hj)

/-- The proper descendants of `i` are in order among themselves. -/
def OrderBelow (k n : ℕ) (key : ℕ → α) (i : ℕ) : Prop :=
  ∀ p c, Relation.TransGen (IsChild k) i p → IsChild k p c → c < n → key p ≤ key c

theorem HeapFrom.orderBelow (h : HeapFrom k n key (i + 1)) : OrderBelow k n key i :=
  fun p c hp => h p c (IsChild.below_lt hp)

theorem OrderBelow.child (h : OrderBelow k n key i) (hm : IsChild k i m) : OrderBelow k n key m :=
  fun p c hp => h p c (.head hm hp)

/-- An exchange with a child does not touch what is below the child. -/
theorem OrderBelow.swap (h : OrderBelow k n key i) (hm : IsChild k i m) :
    OrderBelow k n (fun j => key (Equiv.swap i m j)) m := by
  intro p c hp hc hcn
  have him := hm.lt
  have hmp := IsChild.below_lt hp
  have hpc := hc.lt
  simp only
  rw [Equiv.swap_apply_of_ne_of_ne (by omega) (by omega),
    Equiv.swap_apply_of_ne_of_ne (by omega) (by omega)]
  exact h.child hm p c hp hc hcn

end Order

end TaskSch
