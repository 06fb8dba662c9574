/-
  Task scheduler formalization — the accounts of a pool.

  Every package accepted for a pool is queued, in the hands of its worker, or
  done (`Books`); this holds in every run of a lane, whatever the flag says.

  The worker runs a callback on the slot that it dequeued, which already counts
  as free.  A submission overwrites it exactly if it fills the ring, so the
  slot keeps its package as long as every submission made in the meantime
  leaves a slot free (`SlotSpared`, `Kept`).
-/
import TaskSch.Executor

namespace TaskSch

/-- The worker has a package in its hands. -/
def Pc.holds : Pc → Option ℕ
  | .fetch slot | .callback slot => some slot
  | _ => none

/-- How many packages the worker has in its hands. -/
def Pc.inHand (pc : Pc) : ℕ := if pc.holds.isSome then 1 else 0

namespace Lane

/-- The accounts of a pool. -/
structure Books (l : Lane) : Prop where
  ring : l.pool.RingWf
  /-- accepted packages are dequeued or queued -/
  queued : l.pool.queue = l.log.accepted.drop l.log.taken
  taken_le : l.log.taken ≤ l.log.accepted.length
  /-- dequeued packages are done or in the hands of the worker -/
  taken : l.log.taken = l.log.finished + l.pc.inHand
  /-- the worker dequeues from a non-empty queue -/
  nonempty : l.pc = .dequeue → 0 < l.pool.size
  indexed : ∀ p ∈ l.log.accepted, p.index = l.pool.index
  /-- the slot in the hands of the worker is the one before the head -/
  slot : ∀ s, l.pc.holds = some s → s < l.pool.reserved ∧ (s + 1) % l.pool.reserved = l.pool.head

variable {l l' : Lane}

theorem Books.accepted_eq (h : l.Books) :
    l.log.accepted.length = l.log.finished + l.pc.inHand + l.pool.size := by
  have hq := congrArg List.length h.queued
  have := h.taken_le
  have := h.taken
  simp only [SchTaskPool.queue, ringList_length, List.length_drop] at hq
  omega

/-- A queued package already carries the index that the worker writes. -/
theorem Books.queue_fetch (h : l.Books) (s : ℕ) :
    ringList (Function.update l.pool.slot s { l.pool.slot s with index := l.pool.index })
      l.pool.reserved l.pool.head l.pool.size = l.pool.queue := by
  refine ringList_congr ?_
  intro i hi
  by_cases hs : (l.pool.head + i) % l.pool.reserved = s
  · subst hs
    have hmem : l.pool.slot ((l.pool.head + i) % l.pool.reserved) ∈ l.pool.queue :=
      List.mem_map.2 ⟨i, List.mem_range.2 hi, rfl⟩
    rw [h.queued] at hmem
    have hidx := h.indexed _ (List.mem_of_mem_drop hmem)
    rw [Function.update_self, ← hidx]
  · exact Function.update_of_ne hs _ _

/-- What a dequeue does to the accounts. -/
theorem Books.dequeue (h : l.Books) (hpc : l.pc = .dequeue) {pool : SchTaskPool} {s : ℕ}
    (hq : schQueueMutexEnDeQueue l.pool .dequeue = some (pool, some s)) :
    pool = l.pool.popped ∧ s = l.pool.head ∧ l.log.taken < l.log.accepted.length ∧
      l.log.accepted[l.log.taken]? = some (l.pool.slot s) ∧
      l.pool.popped.queue = l.log.accepted.drop (l.log.taken + 1) := by
  have hs := h.nonempty hpc
  rw [SchTaskPool.dequeue_eq h.ring hs] at hq
  cases hq
  have hqueue := SchTaskPool.queue_popped h.ring hs
  rw [h.queued] at hqueue
  have hlt : l.log.taken < l.log.accepted.length := by
    have := congrArg List.length hqueue
    simp only [List.length_drop, List.length_cons] at this
    omega
  rw [List.drop_eq_getElem_cons hlt] at hqueue
  injection hqueue with hhead htail
  exact ⟨rfl, rfl, hlt, by rw [List.getElem?_eq_getElem hlt, hhead], htail.symm⟩

theorem Work.books (hw : l.Work l') (h : l.Books) : l'.Books := by
  obtain ⟨hring, hq, hle, htk, hne, hidx, hslot⟩ := id h
  cases hw with
  | some hpc hs =>
    rw [hpc] at htk
    exact ⟨hring, hq, hle, htk, fun _ => hs, hidx, by simp [Pc.holds]⟩
  | dequeue hpc hq' =>
    obtain ⟨rfl, rfl, hlt, -, hqueue⟩ := h.dequeue hpc hq'
    have hres : l.pool.head < l.pool.reserved := by
      have := hne hpc
      have := hring.size_le
      rcases hring.head_lt with h | h <;> omega
    rw [hpc] at htk
    refine ⟨hring.popped (hne hpc), hqueue, hlt, ?_, by simp, hidx, ?_⟩
    · simp [htk, Pc.inHand, Pc.holds]
    · intro s hs
      simp only [Pc.holds, Option.some.injEq] at hs
      subst hs
      exact ⟨hres, rfl⟩
  | fetch hpc =>
    rw [hpc] at htk
    refine ⟨⟨hring.reserved_lt, hring.size_le, hring.head_lt, hring.tail_eq⟩, ?_, hle, htk, by simp,
      hidx, ?_⟩
    · exact (h.queue_fetch _).trans hq
    · rw [hpc] at hslot; exact hslot
  | ret hpc =>
    rw [hpc] at htk
    exact ⟨⟨hring.reserved_lt, hring.size_le, hring.head_lt, hring.tail_eq⟩, hq, hle, htk, by simp,
      hidx, by simp [Pc.holds]⟩
  | idle hpc | idleAgain hpc | wake hpc | finish hpc =>
    rw [hpc] at htk
    exact ⟨⟨hring.reserved_lt, hring.size_le, hring.head_lt, hring.tail_eq⟩, hq, hle, htk, by simp,
      hidx, by simp [Pc.holds]⟩
  | mask hpc | maskFailed hpc | sync hpc | synced hpc | init hpc | empty hpc | unlock hpc | done hpc
  | again hpc | cont hpc | term hpc =>
    rw [hpc] at htk
    exact ⟨hring, hq, hle, htk, by simp, hidx, by simp [Pc.holds]⟩

/-- An empty queue stays empty, and a worker without a package gets none. -/
theorem Work.drained (hw : l.Work l') (h : l.Books) (hs : l.pool.size = 0) :
    l'.pool.size = 0 ∧ (l.pc.holds = none → l'.pc.holds = none) := by
  cases hw with
  | dequeue hpc => exact absurd (h.nonempty hpc) (by omega)
  | fetch hpc => exact ⟨hs, fun hh => by rw [hpc] at hh; cases hh⟩
  | _ => exact ⟨hs, fun _ => rfl⟩

theorem Books.submitted (h : l.Books) (hs : l.pool.size < l.pool.reserved)
    (package : SchTaskPackage) : (l.submitted package).Books := by
  obtain ⟨hring, hq, hle, htk, hne, hidx, hslot⟩ := id h
  refine ⟨hring.submitted hs package, ?_, ?_, htk, ?_, ?_, hslot⟩
  · simp only [Lane.submitted]
    rw [SchTaskPool.queue_submitted hring hs, hq, List.drop_append_of_le_length hle]
  · simp only [Lane.submitted, List.length_append]; omega
  · intro hpc
    simp only [Lane.submitted, SchTaskPool.submitted, SchTaskPool.pushed]; omega
  · intro p hp
    rcases List.mem_append.1 hp with hp | hp
    · exact hidx p hp
    · rw [List.mem_singleton.1 hp]; rfl

/-- **The accounts balance** after every event. -/
theorem step_books {e : Event} (h : l.step e = some l') (hb : l.Books) : l'.Books := by
  cases e with
  | work a => exact (work_cases h).books hb
  | submit package =>
    obtain ⟨hs, rfl⟩ := step_submit hb.ring h
    exact hb.submitted hs package
  | raise signal => cases h; exact ⟨hb.1, hb.2, hb.3, hb.4, hb.5, hb.6, hb.7⟩
  | unlink | clear =>
    cases h
    exact ⟨⟨hb.1.1, hb.1.2, hb.1.3, hb.1.4⟩, hb.2, hb.3, hb.4, hb.5, hb.6, hb.7⟩

theorem start_books (self i : ℕ) (maxPackagesPool : UInt32) (package : Ptr)
    (slot : ℕ → SchTaskPackage) (t : ℕ) (m set : Ptr) :
    (start (.create self i maxPackagesPool package slot) t m set).Books := by
  obtain ⟨h1, h2, h3, h4⟩ := SchTaskPool.create_ringWf self i maxPackagesPool package slot
  exact ⟨⟨h1, h2, h3, h4⟩, rfl, le_rfl, rfl, by simp [start], by simp [start, Log.empty],
    by simp [start, Pc.holds]⟩

/-! ## The slot in the hands of the worker -/

section Kept

/-- A choice of phases in which the contents of the slot are still needed:
    from the dequeue at least until the callback is read. -/
structure Needs (K : Pc → Option ℕ) : Prop where
  holds : ∀ {pc s}, K pc = some s → pc.holds = some s
  fetch : ∀ s, K (.fetch s) = some s

variable {K : Pc → Option ℕ}

/-- The callback of the package in the hands of the worker was called. -/
def called : Pc → ℕ
  | .callback _ => 1
  | _ => 0

/-- A submission that comes while the slot is needed leaves a slot free. -/
def SlotSpared (K : Pc → Option ℕ) (l : Lane) (e : Event) : Prop :=
  ∀ package, e = .submit package → (K l.pc).isSome → l.pool.size + 1 < l.pool.reserved

/-- The slot in the hands of the worker holds the package last dequeued, and
    the worker has called the accepted packages in order. -/
structure Kept (K : Pc → Option ℕ) (l : Lane) : Prop where
  slot : ∀ s, K l.pc = some s → l.log.accepted[l.log.taken - 1]? = some (l.pool.slot s)
  ran : l.log.ran = l.log.accepted.take (l.log.finished + called l.pc)

theorem Books.called_le (h : l.Books) :
    l.log.finished + called l.pc ≤ l.log.accepted.length := by
  have h1 := h.taken
  have h2 := h.taken_le
  have h3 : called l.pc ≤ l.pc.inHand := by cases l.pc <;> simp [called, Pc.inHand, Pc.holds]
  omega

/-- A submission that leaves a slot free does not write to the slot in the
    hands of the worker. -/
theorem Books.tail_ne (h : l.Books) {s : ℕ} (hs : l.pc.holds = some s)
    (hsize : l.pool.size + 1 < l.pool.reserved) : s ≠ l.pool.tail := by
  obtain ⟨hlt, hhead⟩ := h.slot s hs
  rw [h.ring.tail_eq, ← hhead, Nat.mod_add_mod]
  intro he
  have he' : (s + (l.pool.size + 1)) % l.pool.reserved = (s + 0) % l.pool.reserved := by
    rw [show s + (l.pool.size + 1) = s + 1 + l.pool.size by omega, ← he]
    exact (Nat.mod_eq_of_lt hlt).symm
  have := ring_inj hsize (by omega) he'
  omega

theorem Work.kept (hK : Needs K) (hw : l.Work l') (hb : l.Books) (h : Kept K l) : Kept K l' := by
  obtain ⟨hslot, hran⟩ := h
  cases hw with
  | dequeue hpc hq =>
    obtain ⟨rfl, rfl, -, hget, -⟩ := hb.dequeue hpc hq
    rw [hpc] at hran
    refine ⟨?_, hran⟩
    intro s hs
    have hs := hK.holds hs
    simp only [Pc.holds, Option.some.injEq] at hs
    subst hs
    exact hget
  | @fetch s hpc =>
    have htk := hb.taken
    rw [hpc] at htk hran
    have hget := hslot s (hpc ▸ hK.fetch s)
    have hidx : (l.pool.slot s).index = l.pool.index := hb.indexed _ (List.mem_of_getElem? hget)
    have hsame : { l.pool.slot s with index := l.pool.index } = l.pool.slot s := by rw [← hidx]
    rw [hsame]
    simp only [Pc.inHand, Pc.holds, Option.isSome_some, if_true] at htk
    constructor
    · intro s' hs'
      have hs' := hK.holds hs'
      simp only [Pc.holds, Option.some.injEq] at hs'
      subst hs'
      simp only [Function.update_self]; exact hget
    · rw [htk, Nat.add_sub_cancel] at hget
      simp only [called, Nat.add_zero] at hran
      simp only [called, hran]
      rw [List.take_add_one, hget]; rfl
  | ret hpc =>
    rw [hpc] at hran
    exact ⟨fun s hs => (by cases hK.holds hs), hran⟩
  | mask hpc | maskFailed hpc | sync hpc | synced hpc | init hpc | some hpc | empty hpc | idle hpc
  | unlock hpc | idleAgain hpc | done hpc | again hpc | cont hpc | term hpc | wake hpc
  | finish hpc =>
    rw [hpc] at hran
    exact ⟨fun s hs => (by cases hK.holds hs), hran⟩

theorem Kept.submitted (hK : Needs K) (hb : l.Books) (h : Kept K l) {package : SchTaskPackage}
    (hspare : SlotSpared K l (.submit package)) : Kept K (l.submitted package) := by
  constructor
  · intro s hs
    have hhold := hK.holds hs
    have htk := hb.taken
    have hle := hb.taken_le
    rw [show l.pc.inHand = 1 by simp [Pc.inHand, show l.pc.holds = some s from hhold]] at htk
    have hne := hb.tail_ne hhold (hspare package rfl (by rw [show K l.pc = some s from hs]; rfl))
    simp only [Lane.submitted, SchTaskPool.submitted, SchTaskPool.pushed]
    rw [Function.update_of_ne hne, List.getElem?_append_left (by omega)]
    exact h.slot s hs
  · simp only [Lane.submitted]
    rw [List.take_append_of_le_length hb.called_le]
    exact h.ran

/-- **The slot keeps its package** along every event that spares it. -/
theorem step_kept (hK : Needs K) {e : Event} (h : l.step e = some l') (hb : l.Books)
    (hk : Kept K l) (hspare : SlotSpared K l e) : Kept K l' := by
  cases e with
  | work a => exact (work_cases h).kept hK hb hk
  | submit package =>
    obtain ⟨-, rfl⟩ := step_submit hb.ring h
    exact hk.submitted hK hb hspare
  | raise signal | unlink | clear => cases h; exact ⟨hk.1, hk.2⟩

theorem start_kept (hK : Needs K) (pool : SchTaskPool) (t : ℕ) (m set : Ptr) :
    Kept K (start pool t m set) :=
  ⟨fun s hs => (by cases hK.holds hs), rfl⟩

end Kept

end Lane

end TaskSch
