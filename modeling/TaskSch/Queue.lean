/-
  Task scheduler formalization — the package queue of a pool
  (`schQueueMutexEnDeQueue` and the queue part of `schSubmitTask`,
  src/taskSch.c).

  The queue is a circular buffer with the counters `head`, `tail` and `size`;
  full and empty (`head = tail` in both) are told apart by `size` only.

  * `RingWf`: the counters describe a circular buffer;
  * `queue`: the packages in the buffer, oldest first;
  * `enqueue_eq`, `dequeue_eq`: under the guards of their callers, both
    branches of `schQueueMutexEnDeQueue` are defined and do not wrap around;
  * `queueMachine`: whole `schSubmitTask` calls on one pool, dequeues by its
    worker and writes of the callers to their own packages, in any order;
  * `ring_refines_fifo`: every run of it is a run of the bounded FIFO queue
    `fifoStep`.
-/
import TaskSch.Machine
import TaskSch.Ring
import TaskSch.Types

namespace TaskSch

/-! ## `schQueueMutexEnDeQueue` -/

/-- The two uses of `schQueueMutexEnDeQueue`. -/
inductive QueueOp where
  | dequeue
  | enqueue (package : SchTaskPackage)

/-- `schQueueMutexEnDeQueue`, run under the spinlock.  A dequeue returns the
    position of the slot that the returned pointer points to; an enqueue
    returns the caller's own pointer, which no caller uses. -/
def schQueueMutexEnDeQueue (taskPool : SchTaskPool) : QueueOp → Option (SchTaskPool × Option ℕ)
  | .dequeue =>
    (umod (u32 (taskPool.head + 1)) taskPool.reserved).map fun head =>
      ({ taskPool with size := u32Pred taskPool.size, head := head },
        some taskPool.head)
  | .enqueue package =>
    (umod (u32 (taskPool.tail + 1)) taskPool.reserved).map fun tail =>
      ({ taskPool with
          slot := Function.update taskPool.slot taskPool.tail package
          tail := tail
          size := u32 (taskPool.size + 1) }, none)

namespace SchTaskPool
variable {pool : SchTaskPool}

/-- The queue operations leave the flag and the wiring of the pool alone. -/
theorem queue_frame {op : QueueOp} {r : SchTaskPool × Option ℕ}
    (h : schQueueMutexEnDeQueue pool op = some r) :
    r.1.flag = pool.flag ∧ r.1.thread = pool.thread ∧ r.1.schRefThread = pool.schRefThread ∧
      r.1.mutex = pool.mutex ∧ r.1.set = pool.set := by
  cases op <;>
  · simp only [schQueueMutexEnDeQueue, Option.map_eq_some_iff] at h
    obtain ⟨_, -, rfl⟩ := h
    exact ⟨rfl, rfl, rfl, rfl, rfl⟩

/-- ... and so do they with its key. -/
theorem queue_priority {op : QueueOp} {r : SchTaskPool × Option ℕ}
    (h : schQueueMutexEnDeQueue pool op = some r) : r.1.dheapPriority = pool.dheapPriority := by
  cases op <;>
  · simp only [schQueueMutexEnDeQueue, Option.map_eq_some_iff] at h
    obtain ⟨_, -, rfl⟩ := h
    rfl

/-- The packages in the buffer, oldest first. -/
def queue (pool : SchTaskPool) : List SchTaskPackage :=
  ringList pool.slot pool.reserved pool.head pool.size

/-- The counters of the pool describe a circular buffer. -/
structure RingWf (pool : SchTaskPool) : Prop where
  reserved_lt : pool.reserved < 2 ^ 32
  size_le : pool.size ≤ pool.reserved
  head_lt : pool.reserved = 0 ∧ pool.head = 0 ∨ pool.head < pool.reserved
  tail_eq : pool.tail = (pool.head + pool.size) % pool.reserved

/-- The pool after `package` was stored behind the last one. -/
def pushed (pool : SchTaskPool) (package : SchTaskPackage) : SchTaskPool :=
  { pool with
    slot := Function.update pool.slot pool.tail package
    tail := (pool.tail + 1) % pool.reserved
    size := pool.size + 1 }

/-- The pool after its first package was released. -/
def popped (pool : SchTaskPool) : SchTaskPool :=
  { pool with size := pool.size - 1, head := (pool.head + 1) % pool.reserved }

theorem RingWf.tail_lt (h : pool.RingWf) (hr : 0 < pool.reserved) : pool.tail < pool.reserved := by
  rw [h.tail_eq]; exact Nat.mod_lt _ hr

theorem create_ringWf (self i : ℕ) (maxPackagesPool : UInt32) (package : Ptr)
    (slot : ℕ → SchTaskPackage) : (create self i maxPackagesPool package slot).RingWf where
  reserved_lt := maxPackagesPool.toNat_lt
  size_le := Nat.zero_le _
  head_lt := (Nat.eq_zero_or_pos maxPackagesPool.toNat).imp (fun h => ⟨h, rfl⟩) id
  tail_eq := by simp [create]

/-- Under the full test, the enqueue is defined and does not wrap around. -/
theorem enqueue_eq (h : pool.RingWf) (hs : pool.size < pool.reserved) (package : SchTaskPackage) :
    schQueueMutexEnDeQueue pool (.enqueue package) = some (pool.pushed package, none) := by
  have hr := h.reserved_lt
  have ht := h.tail_lt (by omega)
  simp only [schQueueMutexEnDeQueue, pushed]
  rw [u32_of_lt (n := pool.tail + 1) (by omega), u32_of_lt (n := pool.size + 1) (by omega),
    umod_of_pos (by omega)]
  rfl

/-- On a non-empty queue, the dequeue is defined and does not wrap around. -/
theorem dequeue_eq (h : pool.RingWf) (hs : 0 < pool.size) :
    schQueueMutexEnDeQueue pool .dequeue = some (pool.popped, some pool.head) := by
  have hr := h.reserved_lt
  have hsz := h.size_le
  have hh : pool.head < pool.reserved := by rcases h.head_lt with h | h <;> omega
  have hdec : u32Pred pool.size = pool.size - 1 := if_neg (by omega)
  simp only [schQueueMutexEnDeQueue, popped]
  rw [u32_of_lt (n := pool.head + 1) (by omega), hdec, umod_of_pos (by omega)]
  rfl

theorem RingWf.pushed (h : pool.RingWf) (hs : pool.size < pool.reserved)
    (package : SchTaskPackage) : (pool.pushed package).RingWf where
  reserved_lt := h.reserved_lt
  size_le := hs
  head_lt := h.head_lt
  tail_eq := by
    simp only [SchTaskPool.pushed]
    rw [h.tail_eq, Nat.mod_add_mod, Nat.add_assoc]

theorem RingWf.popped (h : pool.RingWf) (hs : 0 < pool.size) : pool.popped.RingWf where
  reserved_lt := h.reserved_lt
  size_le := (Nat.sub_le _ _).trans h.size_le
  head_lt := Or.inr (Nat.mod_lt _ (hs.trans_le h.size_le))
  tail_eq := by
    simp only [SchTaskPool.popped]
    rw [h.tail_eq, Nat.mod_add_mod]; congr 1; omega

theorem queue_pushed (h : pool.RingWf) (hs : pool.size < pool.reserved) (package : SchTaskPackage) :
    (pool.pushed package).queue = pool.queue ++ [package] := by
  simp only [queue, pushed, h.tail_eq]
  exact ringList_push pool.slot package hs

theorem queue_popped (h : pool.RingWf) (hs : 0 < pool.size) :
    pool.queue = pool.slot pool.head :: pool.popped.queue := by
  have hh : pool.head < pool.reserved := by
    have := h.size_le
    rcases h.head_lt with h | h <;> omega
  obtain ⟨n, hn⟩ : ∃ n, pool.size = n + 1 := ⟨pool.size - 1, by omega⟩
  simp only [queue, popped, hn, Nat.add_sub_cancel]
  rw [ringList_pop, Nat.mod_eq_of_lt hh]

/-! ## The queue part of `schSubmitTask` -/

/-- `schSubmitTask` from the full test of the chosen pool to the update of its
    priority: the pool and the caller's package, or `SCH_ERROR_POOL_FULL`. -/
def submit (pool : SchTaskPool) (package : SchTaskPackage) :
    Option (Except SchErrCode (SchTaskPool × SchTaskPackage)) :=
  if pool.size ≥ pool.reserved then some (.error .poolFull)
  else
    let package := { package with index := pool.index }
    (schQueueMutexEnDeQueue pool (.enqueue package)).map fun r =>
      .ok ({ r.1 with dheapPriority := r.1.dheapPriority + 1000 }, package)

/-- The pool after `submit` accepted `package`. -/
def submitted (pool : SchTaskPool) (package : SchTaskPackage) : SchTaskPool :=
  { pool.pushed { package with index := pool.index } with
    dheapPriority := pool.dheapPriority + 1000 }

theorem submit_full (h : pool.reserved ≤ pool.size) (package : SchTaskPackage) :
    pool.submit package = some (.error .poolFull) := if_pos h

/-- Only a full pool refuses a package. -/
theorem submit_error {package : SchTaskPackage} {e : SchErrCode}
    (h : pool.submit package = some (.error e)) : e = .poolFull ∧ pool.reserved ≤ pool.size := by
  simp only [submit] at h
  split_ifs at h with hfull
  · cases h
    exact ⟨rfl, hfull⟩
  · simp only [Option.map_eq_some_iff] at h
    obtain ⟨r, -, hr⟩ := h
    cases hr

theorem submit_eq (h : pool.RingWf) (hs : pool.size < pool.reserved) (package : SchTaskPackage) :
    pool.submit package =
      some (.ok (pool.submitted package, { package with index := pool.index })) := by
  rw [submit, if_neg (by omega)]
  simp only [enqueue_eq h hs]
  rfl

theorem RingWf.submitted (h : pool.RingWf) (hs : pool.size < pool.reserved)
    (package : SchTaskPackage) : (pool.submitted package).RingWf :=
  let h' := h.pushed hs { package with index := pool.index }
  ⟨h'.reserved_lt, h'.size_le, h'.head_lt, h'.tail_eq⟩

theorem queue_submitted (h : pool.RingWf) (hs : pool.size < pool.reserved)
    (package : SchTaskPackage) :
    (pool.submitted package).queue = pool.queue ++ [{ package with index := pool.index }] :=
  queue_pushed h hs _

end SchTaskPool

/-! ## One pool as a queue -/

/-- A pool with the callers' own packages (`caller`), the packages accepted so
    far and the contents found in the slots at the dequeues so far. -/
structure QueueSys where
  pool : SchTaskPool
  caller : ℕ → SchTaskPackage
  accepted : List SchTaskPackage
  found : List SchTaskPackage

inductive QueueAct where
  /-- `schSubmitTask` on the caller's package at address `a` -/
  | submit (a : ℕ)
  /-- the caller writes to its package at address `a` -/
  | write (a : ℕ) (package : SchTaskPackage)
  /-- the worker's test of `size` and, on a non-empty queue, its dequeue -/
  | dequeue

/-- One atomic step; `none` is undefined behaviour. -/
def QueueSys.step (s : QueueSys) : QueueAct → Option QueueSys
  | .submit a =>
    (s.pool.submit (s.caller a)).map fun
      | .error _ => s
      | .ok (pool, package) =>
        { s with
          pool := pool
          caller := Function.update s.caller a package
          accepted := s.accepted ++ [package] }
  | .write a package => some { s with caller := Function.update s.caller a package }
  | .dequeue =>
    if s.pool.size > 0 then
      (schQueueMutexEnDeQueue s.pool .dequeue).map fun r =>
        { s with pool := r.1, found := s.found ++ (r.2.map r.1.slot).toList }
    else some s

def queueMachine : Machine QueueSys QueueAct := ⟨QueueSys.step⟩

/-- A bounded FIFO queue of packages, with the same callers and the same
    record of what went in and what came out. -/
structure FifoSys where
  queue : List SchTaskPackage
  caller : ℕ → SchTaskPackage
  accepted : List SchTaskPackage
  found : List SchTaskPackage

/-- The abstract step: append below the capacity `cap`, remove at the front.
    The stored packages carry the pool's index `i`. -/
def fifoStep (cap i : ℕ) (f : FifoSys) : QueueAct → FifoSys
  | .submit a =>
    if f.queue.length < cap then
      let package := { f.caller a with index := i }
      { f with
        queue := f.queue ++ [package]
        caller := Function.update f.caller a package
        accepted := f.accepted ++ [package] }
    else f
  | .write a package => { f with caller := Function.update f.caller a package }
  | .dequeue =>
    match f.queue with
    | [] => f
    | package :: queue => { f with queue := queue, found := f.found ++ [package] }

namespace QueueSys

/-- The pool of `schCreateTaskPool`, before any submission. -/
def start (self i : ℕ) (maxPackagesPool : UInt32) (package : Ptr) (slot : ℕ → SchTaskPackage)
    (caller : ℕ → SchTaskPackage) : QueueSys :=
  ⟨SchTaskPool.create self i maxPackagesPool package slot, caller, [], []⟩

/-- The abstract queue that the pool represents. -/
def abs (s : QueueSys) : FifoSys := ⟨s.pool.queue, s.caller, s.accepted, s.found⟩

/-- The run so far: well-formed counters, fixed capacity and index, and what
    was accepted is what came out followed by what is queued. -/
structure Inv (cap i : ℕ) (s : QueueSys) : Prop where
  ring : s.pool.RingWf
  reserved : s.pool.reserved = cap
  index : s.pool.index = i
  fifo : s.accepted = s.found ++ s.pool.queue
  indexed : ∀ p ∈ s.accepted, p.index = i

theorem start_inv (self i : ℕ) (maxPackagesPool : UInt32) (package : Ptr)
    (slot caller : ℕ → SchTaskPackage) :
    (start self i maxPackagesPool package slot caller).Inv maxPackagesPool.toNat i where
  ring := SchTaskPool.create_ringWf self i maxPackagesPool package slot
  reserved := rfl
  index := rfl
  fifo := rfl
  indexed := by simp [start]

/-- **One step**: it is defined, keeps the invariant and is the abstract step. -/
theorem step_spec {cap i : ℕ} {s : QueueSys} (h : s.Inv cap i) (a : QueueAct) :
    ∃ s', s.step a = some s' ∧ s'.Inv cap i ∧ s'.abs = fifoStep cap i s.abs a := by
  obtain ⟨hring, rfl, rfl, hfifo, hidx⟩ := h
  have hlen : s.pool.queue.length = s.pool.size := by simp [SchTaskPool.queue]
  cases a with
  | submit a =>
    by_cases hs : s.pool.size < s.pool.reserved
    · have hq := SchTaskPool.queue_submitted hring hs (s.caller a)
      refine ⟨_, by rw [step, SchTaskPool.submit_eq hring hs]; rfl, ?_, ?_⟩
      · refine ⟨hring.submitted hs _, rfl, rfl, ?_, ?_⟩
        · simp only [hq, hfifo, List.append_assoc]
        · intro p hp
          rcases List.mem_append.1 hp with hp | hp
          · exact hidx p hp
          · rw [List.mem_singleton.1 hp]
      · simp only [abs, fifoStep, hq, hlen, if_pos hs]
    · refine ⟨s, by rw [step, SchTaskPool.submit_full (by omega)]; rfl,
        ⟨hring, rfl, rfl, hfifo, hidx⟩, ?_⟩
      simp only [abs, fifoStep, hlen, if_neg hs]
  | write a package => exact ⟨_, rfl, ⟨hring, rfl, rfl, hfifo, hidx⟩, rfl⟩
  | dequeue =>
    by_cases hs : 0 < s.pool.size
    · have hq := SchTaskPool.queue_popped hring hs
      refine ⟨_, by rw [step, if_pos hs, SchTaskPool.dequeue_eq hring hs]; rfl, ?_, ?_⟩
      · refine ⟨hring.popped hs, rfl, rfl, ?_, hidx⟩
        simp only [hfifo, hq, Option.map_some, Option.toList_some, List.append_assoc]
        rfl
      · simp only [abs, fifoStep, hq]
        rfl
    · have hnil : s.pool.queue = [] := List.eq_nil_of_length_eq_zero (by omega)
      refine ⟨s, by rw [step, if_neg hs], ⟨hring, rfl, rfl, hfifo, hidx⟩, ?_⟩
      simp only [abs, fifoStep, hnil]

theorem run_spec {cap i : ℕ} {s : QueueSys} (h : s.Inv cap i) (as : List QueueAct) :
    ∃ t, queueMachine.run s as = some t ∧ t.Inv cap i ∧
      t.abs = as.foldl (fifoStep cap i) s.abs := by
  induction as generalizing s with
  | nil => exact ⟨s, rfl, h, rfl⟩
  | cons a as ih =>
    obtain ⟨s', hs', hinv, habs⟩ := step_spec h a
    obtain ⟨t, ht, hinv', habs'⟩ := ih hinv
    exact ⟨t, Machine.run_cons.2 ⟨s', hs', ht⟩, hinv', by rw [habs', habs]; rfl⟩

end QueueSys

/-- **The ring of a pool refines a bounded FIFO queue**: from the state of
    `schCreateTaskPool`, every sequence of submissions, dequeues and writes of
    the callers is defined (no modulo by zero) and runs as the abstract queue
    of capacity `maxPackagesPool` does; the counters stay in range without
    wrapping around, and the contents found at the dequeues are the accepted
    packages in order, as they were when they were submitted. -/
theorem ring_refines_fifo (self i : ℕ) (maxPackagesPool : UInt32) (package : Ptr)
    (slot caller : ℕ → SchTaskPackage) (as : List QueueAct) :
    ∃ s, queueMachine.run (QueueSys.start self i maxPackagesPool package slot caller) as = some s ∧
      s.abs = as.foldl (fifoStep maxPackagesPool.toNat i) ⟨[], caller, [], []⟩ ∧
      s.pool.reserved = maxPackagesPool.toNat ∧
      (0 < s.pool.reserved → s.pool.head < s.pool.reserved ∧ s.pool.tail < s.pool.reserved) ∧
      s.pool.tail = (s.pool.head + s.pool.size) % s.pool.reserved ∧
      s.pool.size + s.found.length = s.accepted.length ∧
      s.pool.size ≤ s.pool.reserved ∧
      (s.pool.size < s.pool.reserved → s.pool.size + 1 < 2 ^ 32) ∧
      s.pool.head + 1 < 2 ^ 32 ∧ s.pool.tail + 1 < 2 ^ 32 ∧
      s.found <+: s.accepted ∧ (∀ p ∈ s.accepted, p.index = i) := by
  obtain ⟨s, hrun, ⟨hring, hres, -, hfifo, hidx⟩, habs⟩ :=
    QueueSys.run_spec (QueueSys.start_inv self i maxPackagesPool package slot caller) as
  have hlt := hring.reserved_lt
  have hhead : s.pool.head + 1 < 2 ^ 32 := by rcases hring.head_lt with h | h <;> omega
  have htail : s.pool.tail + 1 < 2 ^ 32 := by
    rcases hring.head_lt with ⟨hr, hh⟩ | h
    · have := hring.size_le
      rw [hring.tail_eq, hr, hh, Nat.mod_zero]; omega
    · have := hring.tail_lt (by omega)
      omega
  refine ⟨s, hrun, habs, hres, fun hr => ⟨?_, hring.tail_lt hr⟩, hring.tail_eq, ?_, hring.size_le,
    fun h => by omega, hhead, htail, ⟨_, hfifo.symm⟩, hidx⟩
  · rcases hring.head_lt with h | h <;> omega
  · rw [hfifo, List.length_append, Nat.add_comm]
    simp [SchTaskPool.queue]

end TaskSch
