/-
  Task scheduler formalization — several threads submitting to one pool.

  `schSubmitTask` tests for a full queue before it takes the spinlock, so the
  test of one submitter and the enqueue of another can come between the test
  and the enqueue of a third.  The machine `raceMachine` interleaves the tests,
  the locked enqueues and the worker's locked dequeues in any order.

  * `two_submitters_overfill`: two submitters overfill a queue of capacity one;
  * `no_overfill`: the queue is never overfilled if each test that passes
    leaves room for all submitters that have passed theirs already (`Room`);
  * `room_needed`: a state without that room leads to an overwritten package.
-/
import TaskSch.Queue

namespace TaskSch

variable {ι : Type}

/-- A pool and the submitters between their full test and their enqueue
    (`passed`).  `held` are the slots of the accepted packages that have not
    been dequeued, oldest first; `overwrote` records that an enqueue wrote to
    one of them. -/
structure Race (ι : Type) where
  pool : SchTaskPool
  passed : Finset ι
  held : List ℕ
  overwrote : Bool

inductive RaceAct (ι : Type) where
  /-- submitter `i` reads `pool->size >= pool->reserved` -/
  | test (i : ι)
  /-- submitter `i` enqueues its package under the spinlock -/
  | enqueue (i : ι) (package : SchTaskPackage)
  /-- the worker, having read `size > 0`, dequeues under the spinlock -/
  | dequeue

/-- One atomic step. -/
def Race.step [DecidableEq ι] (s : Race ι) : RaceAct ι → Option (Race ι)
  | .test i =>
    if i ∈ s.passed then none
    else if s.pool.size ≥ s.pool.reserved then some s
    else some { s with passed := insert i s.passed }
  | .enqueue i package =>
    if i ∈ s.passed then
      (schQueueMutexEnDeQueue s.pool (.enqueue { package with index := s.pool.index })).map fun r =>
        { pool := r.1
          passed := s.passed.erase i
          held := s.held ++ [s.pool.tail]
          overwrote := s.overwrote || decide (s.pool.tail ∈ s.held) }
    else none
  | .dequeue =>
    if s.pool.size > 0 then
      (schQueueMutexEnDeQueue s.pool .dequeue).map fun r =>
        { s with pool := r.1, held := s.held.tail }
    else none

def raceMachine (ι : Type) [DecidableEq ι] : Machine (Race ι) (RaceAct ι) := ⟨Race.step⟩

namespace Race

/-- The pool of `schCreateTaskPool`, with no submitter under way. -/
def start (self i : ℕ) (maxPackagesPool : UInt32) (package : Ptr) (slot : ℕ → SchTaskPackage) :
    Race ι :=
  ⟨SchTaskPool.create self i maxPackagesPool package slot, ∅, [], false⟩

/-- A test that passes finds more free slots than there are submitters between
    their test and their enqueue. -/
def Room (s : Race ι) : RaceAct ι → Prop
  | .test _ => s.pool.size < s.pool.reserved → s.pool.size + s.passed.card < s.pool.reserved
  | _ => True

/-- The counters are those of a circular buffer whose slots are the `held`
    ones, and a submitter is under way only if the buffer has slots at all. -/
structure Inv (s : Race ι) : Prop where
  ring : s.pool.RingWf
  held : s.held = ringList id s.pool.reserved s.pool.head s.pool.size
  passed : s.passed.Nonempty → 0 < s.pool.reserved

/-- An enqueue into a queue that is not full writes to a free slot. -/
theorem Inv.tail_free {s : Race ι} (h : s.Inv) (hs : s.pool.size < s.pool.reserved) :
    s.pool.tail ∉ s.held := by
  rw [h.held, h.ring.tail_eq]
  intro hm
  obtain ⟨k, hk, he⟩ := List.mem_map.1 hm
  have hk := List.mem_range.1 hk
  have := ring_inj (by omega) hs he
  omega

variable [DecidableEq ι]

theorem Inv.enqueue {s : Race ι} (h : s.Inv) (hs : s.pool.size < s.pool.reserved) {i : ι}
    (hi : i ∈ s.passed) (package : SchTaskPackage) :
    ∃ s', s.step (.enqueue i package) = some s' ∧ s'.Inv ∧ s'.overwrote = s.overwrote ∧
      s'.pool.size = s.pool.size + 1 ∧ s'.pool.reserved = s.pool.reserved ∧
      s'.passed = s.passed.erase i := by
  have hstep : s.step (.enqueue i package) =
      some ⟨s.pool.pushed { package with index := s.pool.index }, s.passed.erase i,
        s.held ++ [s.pool.tail], s.overwrote || decide (s.pool.tail ∈ s.held)⟩ := by
    rw [step, if_pos hi, SchTaskPool.enqueue_eq h.ring hs]; rfl
  refine ⟨_, hstep, ?_, ?_, rfl, rfl, rfl⟩
  · refine ⟨h.ring.pushed hs _, ?_, fun _ => by simp only [SchTaskPool.pushed]; omega⟩
    simp only [SchTaskPool.pushed]
    rw [ringList_succ, h.held, h.ring.tail_eq]
    rfl
  · simp [h.tail_free hs]

theorem Inv.dequeue {s : Race ι} (h : s.Inv) (hs : 0 < s.pool.size) :
    ∃ s', s.step .dequeue = some s' ∧ s'.Inv ∧ s'.overwrote = s.overwrote ∧
      s'.pool.size = s.pool.size - 1 ∧ s'.pool.reserved = s.pool.reserved ∧
      s'.passed = s.passed := by
  have hstep : s.step .dequeue = some { s with pool := s.pool.popped, held := s.held.tail } := by
    rw [step, if_pos hs, SchTaskPool.dequeue_eq h.ring hs]; rfl
  refine ⟨_, hstep, ?_, rfl, rfl, rfl, rfl⟩
  refine ⟨h.ring.popped hs, ?_, h.passed⟩
  obtain ⟨n, hn⟩ : ∃ n, s.pool.size = n + 1 := ⟨s.pool.size - 1, by omega⟩
  simp only [SchTaskPool.popped, h.held, hn, Nat.add_sub_cancel]
  rw [ringList_pop]
  rfl

/-- The run so far left room for every submitter under way. -/
structure Safe (cap : ℕ) (s : Race ι) : Prop where
  inv : s.Inv
  reserved : s.pool.reserved = cap
  room : s.pool.size + s.passed.card ≤ s.pool.reserved
  intact : s.overwrote = false

theorem step_safe {cap : ℕ} {s : Race ι} {a : RaceAct ι} {s' : Race ι} (h : s.Safe cap)
    (hroom : s.Room a) (hstep : s.step a = some s') : s'.Safe cap := by
  obtain ⟨hinv, hcap, hr, how⟩ := h
  cases a with
  | test i =>
    simp only [step] at hstep
    split_ifs at hstep with hi hfull
    · cases hstep; exact ⟨hinv, hcap, hr, how⟩
    · cases hstep
      have := hroom (by omega)
      refine ⟨⟨hinv.ring, hinv.held, fun _ => by simp only; omega⟩, hcap, ?_, how⟩
      simp only [Finset.card_insert_of_notMem hi]; omega
  | enqueue i package =>
    have hi : i ∈ s.passed := by
      by_contra hi
      simp [step, hi] at hstep
    have hpos := Finset.card_pos.2 ⟨i, hi⟩
    obtain ⟨t, ht, hinv', how', hsize, hres, hpass⟩ :=
      hinv.enqueue (by omega) hi package
    rw [ht] at hstep; cases hstep
    refine ⟨hinv', hres.trans hcap, ?_, how'.trans how⟩
    rw [hsize, hres, hpass, Finset.card_erase_of_mem hi]; omega
  | dequeue =>
    have hs : 0 < s.pool.size := by
      by_contra hs
      simp [step, hs] at hstep
    obtain ⟨t, ht, hinv', how', hsize, hres, hpass⟩ := hinv.dequeue hs
    rw [ht] at hstep; cases hstep
    exact ⟨hinv', hres.trans hcap, by rw [hsize, hres, hpass]; omega, how'.trans how⟩

omit [DecidableEq ι] in
theorem start_safe (self i : ℕ) (maxPackagesPool : UInt32) (package : Ptr)
    (slot : ℕ → SchTaskPackage) :
    (start self i maxPackagesPool package slot : Race ι).Safe maxPackagesPool.toNat where
  inv := ⟨SchTaskPool.create_ringWf self i maxPackagesPool package slot, rfl, by simp [start]⟩
  reserved := rfl
  room := by simp [start, SchTaskPool.create]
  intact := rfl

/-- **Without room for the submitters under way, a package is overwritten** in
    some continuation: they only have to enqueue. -/
theorem room_needed {s : Race ι} (h : s.Inv) (hfull : s.pool.reserved < s.pool.size + s.passed.card)
    (package : SchTaskPackage) :
    ∃ as t, (raceMachine ι).run s as = some t ∧ t.overwrote = true := by
  obtain ⟨n, hn⟩ : ∃ n, s.pool.reserved - s.pool.size = n := ⟨_, rfl⟩
  induction n generalizing s with
  | zero =>
    -- the queue is full: the next enqueue writes to the oldest slot
    have hsize := h.ring.size_le
    have hcard : s.passed.Nonempty := Finset.card_pos.1 (by omega)
    obtain ⟨i, hi⟩ := hcard
    have hres := h.passed ⟨i, hi⟩
    have htail : s.pool.tail ∈ s.held := by
      rw [h.held, h.ring.tail_eq]
      refine List.mem_map.2 ⟨0, List.mem_range.2 (by omega), ?_⟩
      rw [show s.pool.size = s.pool.reserved by omega, Nat.add_mod_right]; rfl
    obtain ⟨r, hr⟩ : ∃ r, schQueueMutexEnDeQueue s.pool
        (.enqueue { package with index := s.pool.index }) = some r := by
      simp only [schQueueMutexEnDeQueue, umod_of_pos hres]
      exact ⟨_, rfl⟩
    refine ⟨[.enqueue i package], ⟨r.1, s.passed.erase i, s.held ++ [s.pool.tail], true⟩, ?_, rfl⟩
    refine Machine.run_cons.2 ⟨_, ?_, rfl⟩
    simp only [raceMachine, step, if_pos hi, hr, Option.map_some, decide_eq_true htail,
      Bool.or_true]
  | succ n ih =>
    obtain ⟨i, hi⟩ : s.passed.Nonempty := Finset.card_pos.1 (by omega)
    obtain ⟨s', hs', hinv, -, hsize, hres, hpass⟩ := h.enqueue (by omega) hi package
    have hpos := Finset.card_pos.2 ⟨i, hi⟩
    have hcard : s'.passed.card = s.passed.card - 1 := by
      rw [hpass, Finset.card_erase_of_mem hi]
    obtain ⟨as, t, hrun, ht⟩ := ih hinv (by omega) (by omega)
    exact ⟨.enqueue i package :: as, t, Machine.run_cons.2 ⟨s', hs', hrun⟩, ht⟩

end Race

/-- **Concurrent submitters do not overfill a queue** in any run in which each
    full test that passes finds room for the submitters under way: `size` never
    exceeds `reserved` and no enqueue writes to a slot whose package has not
    been dequeued. -/
theorem no_overfill [DecidableEq ι] (self i : ℕ) (maxPackagesPool : UInt32) (package : Ptr)
    (slot : ℕ → SchTaskPackage) (as : List (RaceAct ι)) (s : Race ι)
    (hroom : (raceMachine ι).Along Race.Room (Race.start self i maxPackagesPool package slot) as)
    (hrun : (raceMachine ι).run (Race.start self i maxPackagesPool package slot) as = some s) :
    s.pool.size ≤ s.pool.reserved ∧ s.overwrote = false := by
  have h := Machine.run_along_inv (P := Race.Safe maxPackagesPool.toNat)
    (fun s a s' hs ha hstep => Race.step_safe hs ha hstep) hroom hrun
    (Race.start_safe self i maxPackagesPool package slot)
  exact ⟨h.inv.ring.size_le, h.intact⟩

/-- Two submitters are under way at a time, and the queue has room for both. -/
theorem no_overfill_two : ∃ s : Race ℕ,
    (raceMachine ℕ).run (Race.start 0 0 2 (some 0) fun _ => .ofCallback 0)
      [.test 0, .test 1, .enqueue 1 (.ofCallback 1), .enqueue 0 (.ofCallback 2), .dequeue] =
        some s ∧
    s.pool.size ≤ s.pool.reserved ∧ s.overwrote = false := by
  refine ⟨_, rfl, no_overfill 0 0 2 (some 0) (fun _ => .ofCallback 0)
    [.test 0, .test 1, .enqueue 1 (.ofCallback 1), .enqueue 0 (.ofCallback 2), .dequeue] _ ?_ rfl⟩
  refine Machine.along_cons ?_ rfl (Machine.along_cons ?_ rfl (Machine.along_cons ?_ rfl
    (Machine.along_cons ?_ rfl (Machine.along_cons ?_ rfl trivial))))
  · exact fun _ => by decide
  · exact fun _ => by decide
  · trivial
  · trivial
  · trivial

/-- Two submitters that both pass the full test overfill a queue of capacity
    one. -/
theorem two_submitters_overfill :
    ¬ ∀ (as : List (RaceAct ℕ)) (s : Race ℕ),
      (raceMachine ℕ).run (Race.start 0 0 1 (some 0) fun _ => .ofCallback 0) as = some s →
        s.pool.size ≤ s.pool.reserved ∧ s.overwrote = false := by
  intro h
  have h2 := h [.test 0, .test 1, .enqueue 0 (.ofCallback 1), .enqueue 1 (.ofCallback 2)] _ rfl
  exact absurd h2.1 (by decide)

end TaskSch
