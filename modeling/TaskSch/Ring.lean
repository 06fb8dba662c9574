/-
  Circular buffers.

  A circular buffer of capacity `cap` holds the elements at the `size`
  positions that follow `head` cyclically; `ringList` reads them off in order.

  * `ring_inj`: within one revolution, distinct offsets are distinct positions;
  * `ringList_push`: writing behind the last element appends it;
  * `ringList_pop`: moving the head over the first element removes it.
-/
import Mathlib.Tactic

namespace TaskSch

universe u
variable {α : Type u}

/-- The elements of a circular buffer, oldest first. -/
def ringList (slot : ℕ → α) (cap head size : ℕ) : List α :=
  (List.range size).map fun i => slot ((head + i) % cap)

@[simp] theorem ringList_length (slot : ℕ → α) (cap head size : ℕ) :
    (ringList slot cap head size).length = size := by simp [ringList]

/-- Within one revolution, distinct offsets are distinct positions. -/
theorem ring_inj {cap head i j : ℕ} (hi : i < cap) (hj : j < cap)
    (h : (head + i) % cap = (head + j) % cap) : i = j := by
  have h' : head + i ≡ head + j [MOD cap] := h
  exact (Nat.ModEq.add_left_cancel' head h').eq_of_lt_of_lt hi hj

theorem ringList_congr {slot slot' : ℕ → α} {cap head size : ℕ}
    (h : ∀ i < size, slot ((head + i) % cap) = slot' ((head + i) % cap)) :
    ringList slot cap head size = ringList slot' cap head size :=
  List.map_congr_left fun i hi => h i (List.mem_range.1 hi)

theorem ringList_succ (slot : ℕ → α) (cap head size : ℕ) :
    ringList slot cap head (size + 1) =
      ringList slot cap head size ++ [slot ((head + size) % cap)] := by
  simp [ringList, List.range_succ]

/-- Writing behind the last element appends it. -/
theorem ringList_push (slot : ℕ → α) {cap head size : ℕ} (x : α) (h : size < cap) :
    ringList (Function.update slot ((head + size) % cap) x) cap head (size + 1) =
      ringList slot cap head size ++ [x] := by
  have hold : ringList (Function.update slot ((head + size) % cap) x) cap head size =
      ringList slot cap head size := by
    refine ringList_congr fun i hi => Function.update_of_ne ?_ _ _
    intro he
    have := ring_inj (by omega) h he
    omega
  rw [ringList_succ, hold, Function.update_self]

/-- Moving the head over the first element removes it. -/
theorem ringList_pop (slot : ℕ → α) (cap head size : ℕ) :
    ringList slot cap head (size + 1) =
      slot (head % cap) :: ringList slot cap ((head + 1) % cap) size := by
  have hmod : ∀ i, (head + (i + 1)) % cap = ((head + 1) % cap + i) % cap := by
    intro i; rw [Nat.mod_add_mod]; congr 1; omega
  rw [ringList, List.range_succ_eq_map, List.map_cons, List.map_map, Nat.add_zero]
  exact congrArg _ (List.map_congr_left fun i _ => congrArg slot (hmod i))

end TaskSch
