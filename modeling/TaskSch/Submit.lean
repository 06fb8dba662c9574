/-
  Task scheduler formalization — what one call of `schSubmitTask` does
  (src/taskSch.c).

  The pool that gets the package is the one that the caller names, else the root
  of the rebuilt heap.  The package is stored before the worker is woken, and
  the result of the signal is tested as a truth value although `SCH_OK` is `1`
  and all errors but one are negative.

  * `schSubmitTask_spec`: a call whose checks pass is defined, and what it does
    follows from the pool `target` alone;
  * `schSubmitTask_effect`: what a call changes, and what it leaves alone;
  * `truthful_iff`: when the status that is returned is the truth.
-/
import TaskSch.Slots

namespace TaskSch

/-! ## The pool that stores a package -/

namespace SchTaskPool
variable {pool : SchTaskPool}

/-- The pool after the enqueue branch of `schQueueMutexEnDeQueue` and the update
    of the priority. -/
def stored (pool : SchTaskPool) (package : SchTaskPackage) : SchTaskPool :=
  { pool with
    slot := Function.update pool.slot pool.tail package
    tail := u32 (pool.tail + 1) % pool.reserved
    size := pool.size + 1
    dheapPriority := pool.dheapPriority + 1000 }

/-- Below the capacity, the package is stored with the index of the pool. -/
theorem submit_room (hr : pool.reserved < 2 ^ 32) (hs : pool.size < pool.reserved)
    (package : SchTaskPackage) :
    pool.submit package = some (.ok (pool.stored { package with index := pool.index },
      { package with index := pool.index })) := by
  rw [submit, if_neg (by omega)]
  simp only [schQueueMutexEnDeQueue, stored]
  rw [u32_of_lt (n := pool.size + 1) (by omega), umod_of_pos (by omega)]
  rfl

/-- On a circular buffer, the package goes behind the last one. -/
theorem RingWf.stored (h : pool.RingWf) (hs : pool.size < pool.reserved)
    (package : SchTaskPackage) :
    (pool.stored package).RingWf ∧ (pool.stored package).queue = pool.queue ++ [package] := by
  have hr := h.reserved_lt
  have ht := h.tail_lt (by omega)
  have heq : pool.stored package =
      { pool.pushed package with dheapPriority := pool.dheapPriority + 1000 } := by
    simp only [SchTaskPool.stored, SchTaskPool.pushed]
    rw [u32_of_lt (by omega)]
  have hp := h.pushed hs package
  rw [heq]
  exact ⟨⟨hp.reserved_lt, hp.size_le, hp.head_lt, hp.tail_eq⟩, queue_pushed h hs package⟩

end SchTaskPool

namespace World

/-! ## The choice of the pool -/

/-- The array `dheap` is a permutation of the pools, and the priorities and the
    capacities fit their types (`long int` and `unsigned int`). -/
structure Arranged (w : World) : Prop where
  num : 1 ≤ w.sch.num
  order : w.sch.order.Perm (List.range w.sch.num)
  prio : ∀ p < w.sch.num, (w.sch.pools p).dheapPriority ≤ longMax
  reserved : ∀ p < w.sch.num, (w.sch.pools p).reserved < 2 ^ 32

instance (w : World) : Decidable w.Arranged :=
  decidable_of_iff (1 ≤ w.sch.num ∧ w.sch.order.Perm (List.range w.sch.num) ∧
      (∀ p < w.sch.num, (w.sch.pools p).dheapPriority ≤ longMax) ∧
      ∀ p < w.sch.num, (w.sch.pools p).reserved < 2 ^ 32)
    ⟨fun h => ⟨h.1, h.2.1, h.2.2.1, h.2.2.2⟩, fun h => ⟨h.num, h.order, h.prio, h.reserved⟩⟩

/-- The array after the rebuild at the start of `schSubmitTask`. -/
def rebuilt (w : World) : Option (List ℕ) :=
  schHeapify (fun _ p => (w.sch.pools p).dheapPriority) w.sch.num w.sch.order

/-- The pool that `schSubmitTask` chooses. -/
def target (w : World) : Option ℕ → Option ℕ
  | none => w.rebuilt.bind fun order => order[0]?
  | some p => if p < w.sch.num then some p else none

/-- The pool is the one that the caller names, else it has the least priority. -/
def Chosen (w : World) (pPool : Option ℕ) (p : ℕ) : Prop :=
  match pPool with
  | none => ∀ q < w.sch.num, (w.sch.pools p).dheapPriority ≤ (w.sch.pools q).dheapPriority
  | some q => p = q

variable {w w' : World} {pPool : Option ℕ}

theorem Arranged.mem (h : w.Arranged) {p : ℕ} : p ∈ w.sch.order ↔ p < w.sch.num := by
  rw [h.order.mem_iff, List.mem_range]

theorem Arranged.length (h : w.Arranged) : w.sch.order.length = w.sch.num := by
  rw [h.order.length_eq, List.length_range]

/-- The rebuild leaves a pool of least priority in front. -/
theorem Arranged.rebuilt (h : w.Arranged) :
    ∃ order, w.rebuilt = some order ∧ order.Perm (List.range w.sch.num) ∧
      ∃ root, order[0]? = some root ∧ root < w.sch.num ∧ w.Chosen none root := by
  have hlen := h.length
  obtain ⟨order, hrun, hheap⟩ := schHeapify_heapFrom (fun p => (w.sch.pools p).dheapPriority)
    hlen fun p hp => h.prio p (h.mem.1 hp)
  have hperm := schHeapify_perm _ _ hrun
  obtain ⟨root, hroot, hle⟩ := heap_root h.num (hperm.length_eq.trans hlen) hheap
  refine ⟨order, hrun, hperm.trans h.order, root, hroot, ?_, ?_⟩
  · exact h.mem.1 (hperm.mem_iff.1 (List.mem_of_getElem? hroot))
  · intro q hq
    exact hle q (hperm.mem_iff.2 (h.mem.2 hq))

theorem Arranged.target (h : w.Arranged) (hp : ∀ p ∈ pPool, p < w.sch.num) :
    ∃ p, w.target pPool = some p ∧ p < w.sch.num ∧ w.Chosen pPool p := by
  cases pPool with
  | none =>
    obtain ⟨order, ho, -, root, hroot, hlt, hle⟩ := h.rebuilt
    exact ⟨root, by rw [World.target, ho, Option.bind_some, hroot], hlt, hle⟩
  | some q => exact ⟨q, if_pos (hp q rfl), hp q rfl, rfl⟩

/-! ## A call whose checks pass -/

/-- The state and argument checks of `schSubmitTask` pass. -/
structure Admits (w : World) (package : Option SchTaskPackage) : Prop where
  running : hasBit w.sch.flag schFlagRunning
  init : hasBit w.sch.flag schFlagInit
  callback : ∃ pkg, package = some pkg ∧ pkg.callback ≠ none

theorem Admits.guard {package : Option SchTaskPackage} (h : w.Admits package) :
    ¬ (¬ hasBit w.sch.flag schFlagRunning ∨ ¬ hasBit w.sch.flag schFlagInit) := by
  simp [h.running, h.init]

/-- The world after the package was stored in the pool `p`. -/
def stores (w : World) (order : List ℕ) (p : ℕ) (package : SchTaskPackage) : World :=
  ((w.setOrder order).setPool p ((w.sch.pools p).stored package)).setLog p
    { w.log p with accepted := (w.log p).accepted ++ [package] }

/-- The status that `schSubmitTask` returns after `pthread_kill` returned `kill`. -/
def wakeStatus (kill : Errno) : SchErrCode :=
  if (pthreadErrorCode2SchErrorCode kill).toInt = 0 then .signal else .ok

/-- A pool that has stored a package has to be woken if it was empty and asleep. -/
theorem needsWake_stored (pool : SchTaskPool) (package : SchTaskPackage) :
    needsWake (pool.stored package) ↔ pool.size = 0 ∧ hasBit pool.flag schPoolSleep := by
  simp [needsWake, SchTaskPool.stored]

/-- The enqueue of a call whose checks pass. -/
theorem submitEnqueue_eq {pkg : SchTaskPackage} (hadm : w.Admits (some pkg)) {order : List ℕ}
    (ho : w.rebuilt = some order) (pPool : Option ℕ) :
    w.submitEnqueue (some pkg) pPool =
      (w.target pPool).bind fun p => ((w.sch.pools p).submit pkg).map fun
        | .error e => (w.setOrder order, some pkg, .error e)
        | .ok (pool, pkg) => (((w.setOrder order).setPool p pool).setLog p
            { w.log p with accepted := (w.log p).accepted ++ [pkg] }, some pkg, .ok p) := by
  obtain ⟨_, hpkg, hcb⟩ := hadm.callback
  cases hpkg
  have hrebuild : schHeapify (fun _ p => (w.sch.pools p).dheapPriority) w.sch.num w.sch.order =
      some order := ho
  rw [submitEnqueue, if_neg hadm.guard]
  simp only [if_neg hcb, hrebuild, Option.bind_some]
  cases pPool with
  | none => rw [target, ho, Option.bind_some]; rfl
  | some q => rfl

/-- **A call whose checks pass** is defined: it rebuilds the heap, and then the
    pool `target` is full, or stores the package and is woken if need be. -/
theorem schSubmitTask_spec (h : w.Arranged) (hp : ∀ p ∈ pPool, p < w.sch.num)
    {pkg : SchTaskPackage} (hadm : w.Admits (some pkg)) (kill : Errno) :
    ∃ order p, w.rebuilt = some order ∧ w.target pPool = some p ∧
      ((w.sch.pools p).reserved ≤ (w.sch.pools p).size ∧
          w.schSubmitTask (some pkg) pPool kill =
            some (w.setOrder order, some pkg, .poolFull) ∨
        (w.sch.pools p).size < (w.sch.pools p).reserved ∧
          ∃ pkg', pkg' = { pkg with index := (w.sch.pools p).index } ∧
            w.schSubmitTask (some pkg) pPool kill =
              some (if needsWake ((w.sch.pools p).stored pkg') then
                (((w.stores order p pkg').schRaiseThreadSignal (w.sch.pools p).thread
                  schSignalContinue kill).1, some pkg', wakeStatus kill)
              else (w.stores order p pkg', some pkg', .ok))) := by
  obtain ⟨order, ho, -⟩ := h.rebuilt
  obtain ⟨p, hpt, hlt, -⟩ := h.target hp
  have hcall := submitEnqueue_eq hadm ho pPool
  rw [hpt, Option.bind_some] at hcall
  refine ⟨order, p, ho, hpt, ?_⟩
  by_cases hfull : (w.sch.pools p).reserved ≤ (w.sch.pools p).size
  · left
    refine ⟨hfull, ?_⟩
    rw [schSubmitTask, hcall, SchTaskPool.submit_full hfull]
    rfl
  · right
    have hs : (w.sch.pools p).size < (w.sch.pools p).reserved := by omega
    refine ⟨hs, _, rfl, ?_⟩
    have hpool : (w.stores order p { pkg with index := (w.sch.pools p).index }).sch.pools p =
        (w.sch.pools p).stored { pkg with index := (w.sch.pools p).index } := by
      simp [stores, setPool, setLog]
    simp only [stores] at hpool
    rw [schSubmitTask, hcall, SchTaskPool.submit_room (h.reserved p hlt) hs]
    simp only [Option.map_some, hpool]
    by_cases hwake : needsWake ((w.sch.pools p).stored { pkg with index := (w.sch.pools p).index })
    · simp only [if_pos hwake]; rfl
    · simp only [if_neg hwake]; rfl

/-! ## What a call changes -/

/-- A call that fails its checks changes nothing. -/
theorem schSubmitTask_refused {package : Option SchTaskPackage} (h : ¬ w.Admits package)
    (pPool : Option ℕ) (kill : Errno) :
    ∃ status, (status = .invalidState ∨ status = .invalidArg) ∧
      w.schSubmitTask package pPool kill = some (w, package, status) := by
  by_cases hrun : ¬ hasBit w.sch.flag schFlagRunning ∨ ¬ hasBit w.sch.flag schFlagInit
  · refine ⟨_, .inl rfl, ?_⟩
    simp only [schSubmitTask, submitEnqueue, if_pos hrun, Option.map_some]
  · refine ⟨_, .inr rfl, ?_⟩
    simp only [schSubmitTask, submitEnqueue, if_neg hrun]
    cases package with
    | none => rfl
    | some pkg =>
      have hcb : pkg.callback = none := by
        by_contra hne
        simp only [not_or, not_not] at hrun
        exact h ⟨hrun.1, hrun.2, pkg, rfl, hne⟩
      simp only [if_pos hcb]
      rfl

/-- One copy of `package` has been appended to the pool `p`, and its priority
    has grown.  Nothing else is changed but the order of `dheap` and the signals
    that are pending for the workers (and the log of the pool). -/
structure Appended (w w' : World) (p : ℕ) (package : SchTaskPackage) : Prop where
  pool : w'.sch.pools p = (w.sch.pools p).stored package
  queue : (w.sch.pools p).RingWf → (w'.sch.pools p).RingWf ∧
    (w'.sch.pools p).queue = (w.sch.pools p).queue ++ [package]
  others : ∀ q, q ≠ p → w'.sch.pools q = w.sch.pools q
  sch : w'.sch = { w.sch with pools := w'.sch.pools, order := w'.sch.order }
  thread : ∀ t, (w'.threads t).index = (w.threads t).index ∧ (w'.threads t).pc = (w.threads t).pc
  mem : w'.mem = w.mem
  nthread : w'.nthread = w.nthread
  inbox : w'.inbox = w.inbox

theorem Appended.stores (order : List ℕ) (p : ℕ) (package : SchTaskPackage)
    (hs : (w.sch.pools p).size < (w.sch.pools p).reserved) :
    Appended w (w.stores order p package) p package where
  pool := by simp [World.stores, setPool, setLog]
  queue := by
    intro hring
    simp only [World.stores, setPool, setLog, Function.update_self]
    exact hring.stored hs package
  others := by
    intro q hq
    simp [World.stores, setPool, setLog, setOrder, hq]
  sch := rfl
  thread := fun _ => ⟨rfl, rfl⟩
  mem := rfl
  nthread := rfl
  inbox := rfl

/-- The signal comes on top. -/
theorem Appended.raise {p : ℕ} {package : SchTaskPackage} (h : Appended w w' p package)
    (thread : Option ℕ) (signal : ℤ) (kill : Errno) :
    Appended w (w'.schRaiseThreadSignal thread signal kill).1 p package := by
  have hthread := raise_thread w' thread signal kill
  obtain ⟨threads, he, -⟩ := raise_eq w' thread signal kill
  rw [he] at hthread ⊢
  refine ⟨h.pool, h.queue, h.others, h.sch, ?_, h.mem, h.nthread, h.inbox⟩
  intro t
  exact ⟨(hthread t).1.trans (h.thread t).1, (hthread t).2.trans (h.thread t).2⟩

/-- A call whose checks pass finds the pool full and only reorders `dheap`, or
    appends the package to it. -/
theorem schSubmitTask_outcome (h : w.Arranged) (hp : ∀ p ∈ pPool, p < w.sch.num)
    {pkg : SchTaskPackage} (hadm : w.Admits (some pkg)) (kill : Errno) :
    ∃ p w' package' status, w.target pPool = some p ∧ p < w.sch.num ∧ w.Chosen pPool p ∧
      w.schSubmitTask (some pkg) pPool kill = some (w', package', status) ∧
      w'.sch.order.Perm (List.range w.sch.num) ∧
      ((w.sch.pools p).reserved ≤ (w.sch.pools p).size ∧ w' = w.setOrder w'.sch.order ∧
          package' = some pkg ∧ status = .poolFull ∨
        (w.sch.pools p).size < (w.sch.pools p).reserved ∧
          ∃ pkg', pkg' = { pkg with index := (w.sch.pools p).index } ∧ package' = some pkg' ∧
            Appended w w' p pkg' ∧
            status = if needsWake ((w.sch.pools p).stored pkg') then wakeStatus kill else .ok) := by
  obtain ⟨p, hpt, hlt, hch⟩ := h.target hp
  obtain ⟨order, ho, hperm, -⟩ := h.rebuilt
  obtain ⟨order', p', ho', hpt', hspec⟩ := schSubmitTask_spec h hp hadm kill
  rw [ho] at ho'
  rw [hpt] at hpt'
  cases ho'
  cases hpt'
  rcases hspec with ⟨hfull, hcall⟩ | ⟨hs, pkg', hpkg, hcall⟩
  · exact ⟨p, _, _, _, hpt, hlt, hch, hcall, hperm, .inl ⟨hfull, rfl, rfl, rfl⟩⟩
  · have happ := Appended.stores order p pkg' hs
    by_cases hwake : needsWake ((w.sch.pools p).stored pkg')
    · rw [if_pos hwake] at hcall
      have hsch := congrArg SchTaskSch.order (raise_sch (w.stores order p pkg')
        (w.sch.pools p).thread schSignalContinue kill)
      refine ⟨p, _, _, _, hpt, hlt, hch, hcall, hsch ▸ hperm, .inr ⟨hs, pkg', hpkg, rfl, ?_, ?_⟩⟩
      · exact happ.raise _ _ _
      · rw [if_pos hwake]
    · rw [if_neg hwake] at hcall
      refine ⟨p, _, _, _, hpt, hlt, hch, hcall, hperm, .inr ⟨hs, pkg', hpkg, rfl, happ, ?_⟩⟩
      rw [if_neg hwake]

/-- **Effect and frame of `schSubmitTask`.**  A call returns an error and changes
    nothing but the order of `dheap`, or appends one copy of the package, with
    the index of the pool, to the pool that the caller names or else to one of
    least priority.  It returns `SCH_ERROR_POOL_FULL` iff its checks pass and the
    pool is full, and refuses the state or the argument iff its checks fail. -/
theorem schSubmitTask_effect (w : World) (package : Option SchTaskPackage) (pPool : Option ℕ)
    (kill : Errno) (h : w.Arranged) (hp : ∀ p ∈ pPool, p < w.sch.num) :
    ∃ p w' package' status, w.target pPool = some p ∧ p < w.sch.num ∧ w.Chosen pPool p ∧
      w.schSubmitTask package pPool kill = some (w', package', status) ∧
      w'.sch.order.Perm (List.range w.sch.num) ∧
      ((status = .invalidState ∨ status = .invalidArg ∨ status = .poolFull) ∧
          w' = w.setOrder w'.sch.order ∧ package' = package ∨
        (status = .ok ∨ status = .signal) ∧ ∃ pkg pkg', package = some pkg ∧
          pkg' = { pkg with index := (w.sch.pools p).index } ∧ package' = some pkg' ∧
          Appended w w' p pkg') ∧
      (status = .poolFull ↔
        w.Admits package ∧ (w.sch.pools p).reserved ≤ (w.sch.pools p).size) ∧
      (status = .invalidState ∨ status = .invalidArg ↔ ¬ w.Admits package) := by
  by_cases hadm : w.Admits package
  · obtain ⟨pkg, rfl, -⟩ := hadm.callback
    obtain ⟨p, w', package', status, hpt, hlt, hch, hcall, hperm, hout⟩ :=
      schSubmitTask_outcome h hp hadm kill
    refine ⟨p, w', package', status, hpt, hlt, hch, hcall, hperm, ?_⟩
    rcases hout with ⟨hfull, hw, hpkg, rfl⟩ | ⟨hs, pkg', hpkg', rfl, happ, hst⟩
    · exact ⟨.inl ⟨.inr (.inr rfl), hw, hpkg⟩, by simp [hadm, hfull], by simp [hadm]⟩
    · have hok : status = .ok ∨ status = .signal := by
        rw [hst, wakeStatus]
        split_ifs <;> simp
      refine ⟨.inr ⟨hok, pkg, pkg', rfl, hpkg', rfl, happ⟩, ?_, ?_⟩
      · constructor
        · rintro rfl
          rcases hok with hok | hok <;> cases hok
        · rintro ⟨-, hfull⟩
          omega
      · rcases hok with rfl | rfl <;> simp [hadm]
  · obtain ⟨p, hpt, hlt, hch⟩ := h.target hp
    obtain ⟨status, hst, hcall⟩ := schSubmitTask_refused hadm pPool kill
    refine ⟨p, w, package, status, hpt, hlt, hch, hcall, h.order, .inl ⟨?_, rfl, rfl⟩, ?_,
      iff_of_true hst hadm⟩
    · rcases hst with rfl | rfl <;> simp
    · constructor
      · rintro rfl
        rcases hst with hst | hst <;> cases hst
      · rintro ⟨hadm', -⟩
        exact absurd hadm' hadm

/-- The second package, for which no pool is named, goes to the pool 1. -/
theorem schSubmitTask_effect_second : ∃ w w' package' status,
    slotMachine.run (fresh 0 2 0 1 fun _ _ => .ofCallback 0)
      [.submit (some (.ofCallback 1)) none .zero] = some w ∧
    w.schSubmitTask (some (.ofCallback 2)) none .zero = some (w', package', status) ∧
    Appended w w' 1 { SchTaskPackage.ofCallback 2 with index := 1 } := by
  have hrun : (slotMachine.run (fresh 0 2 0 1 fun _ _ => .ofCallback 0)
      [.submit (some (.ofCallback 1)) none .zero]).map (fun w =>
        (decide w.Arranged, w.target none, (w.sch.pools 1).index,
          hasBit w.sch.flag schFlagInit && hasBit w.sch.flag schFlagRunning &&
            decide ((w.sch.pools 1).size < (w.sch.pools 1).reserved))) =
      some (true, some 1, 1, true) := by decide +kernel
  obtain ⟨w, hw, he⟩ := Option.map_eq_some_iff.1 hrun
  simp only [Prod.mk.injEq, Bool.and_eq_true, decide_eq_true_eq] at he
  obtain ⟨harr, htarget, hindex, ⟨hinit, hrunning⟩, hroom⟩ := he
  obtain ⟨p, w', package', status, hpt, -, -, hcall, -, hout, hfull, hrefused⟩ :=
    schSubmitTask_effect w (some (.ofCallback 2)) none .zero harr (by simp)
  obtain rfl : p = 1 := Option.some.inj (hpt.symm.trans htarget)
  rcases hout with ⟨hst, -⟩ | ⟨-, pkg, pkg', hpkg, rfl, -, happ⟩
  · have hadm : w.Admits (some (.ofCallback 2)) := ⟨hrunning, hinit, _, rfl, by decide⟩
    rcases hst with hst | hst | hst
    · exact absurd hadm (hrefused.1 (.inl hst))
    · exact absurd hadm (hrefused.1 (.inr hst))
    · exact absurd (hfull.1 hst).2 (not_le.2 hroom)
  · cases hpkg
    rw [hindex] at happ
    exact ⟨w, w', package', status, hw, hcall, happ⟩

/-! ## The truth of the status -/

/-- The status of a call that was to submit `package` to the pool `p`: `SCH_OK`
    iff the package is enqueued and its worker got the signal that it needs;
    else the call can be made again. -/
structure Truthful (w w' : World) (p : ℕ) (kill : Errno) (package : SchTaskPackage)
    (package' : Option SchTaskPackage) (status : SchErrCode) : Prop where
  ok : status = .ok ↔ Appended w w' p { package with index := (w.sch.pools p).index } ∧
    (needsWake (w'.sch.pools p) → kill = .zero)
  retry : status ≠ .ok → package' = some package ∧ ∀ q < w.sch.num,
    (w'.sch.pools q).queue = (w.sch.pools q).queue ∧
      (w'.sch.pools q).size = (w.sch.pools q).size ∧
      (w'.sch.pools q).dheapPriority = (w.sch.pools q).dheapPriority

/-- **When the status is the truth**: exactly if `pthread_kill` returns `0`
    whenever a package goes to an empty pool that is asleep. -/
theorem truthful_iff (w : World) (package : SchTaskPackage) (pPool : Option ℕ) (kill : Errno)
    (h : w.Arranged) (hp : ∀ p ∈ pPool, p < w.sch.num) (hinit : hasBit w.sch.flag schFlagInit)
    (hrun : hasBit w.sch.flag schFlagRunning) (hcb : package.callback ≠ none) :
    ∃ p w' package' status, w.target pPool = some p ∧
      w.schSubmitTask (some package) pPool kill = some (w', package', status) ∧
      (Truthful w w' p kill package package' status ↔
        ((w.sch.pools p).size < (w.sch.pools p).reserved → (w.sch.pools p).size = 0 →
          hasBit (w.sch.pools p).flag schPoolSleep → kill = .zero)) := by
  obtain ⟨p, w', package', status, hpt, hlt, -, hcall, -, hout⟩ :=
    schSubmitTask_outcome h hp ⟨hrun, hinit, package, rfl, hcb⟩ kill
  refine ⟨p, w', package', status, hpt, hcall, ?_⟩
  rcases hout with ⟨hfull, hw, rfl, rfl⟩ | ⟨hs, pkg', rfl, rfl, happ, hst⟩
  · -- the pool is full: nothing is changed, and the caller is told so
    refine iff_of_true ⟨?_, ?_⟩ (fun hs => absurd hs (by omega))
    · refine iff_of_false (by decide) ?_
      rintro ⟨happ, -⟩
      have hsize := congrArg SchTaskPool.size happ.pool
      rw [hw] at hsize
      exact absurd hsize (Nat.ne_of_lt (Nat.lt_succ_self _))
    · intro _
      rw [hw]
      exact ⟨rfl, fun q _ => ⟨rfl, rfl, rfl⟩⟩
  · have hwake := needsWake_stored (w.sch.pools p) { package with index := (w.sch.pools p).index }
    constructor
    · intro ht _ hsize hsleep
      rw [if_pos (hwake.2 ⟨hsize, hsleep⟩)] at hst
      by_cases hok : status = .ok
      · exact (ht.ok.1 hok).2 (happ.pool ▸ hwake.2 ⟨hsize, hsleep⟩)
      · -- the package is there although the call has failed
        have hgrown := ((ht.retry hok).2 p hlt).2.1
        rw [happ.pool] at hgrown
        exact absurd hgrown (Nat.ne_of_gt (Nat.lt_succ_self _))
    · intro hkill
      have hok : status = .ok := by
        rw [hst]
        split_ifs with hneeds
        · obtain ⟨hsize, hsleep⟩ := hwake.1 hneeds
          rw [hkill hs hsize hsleep]
          rfl
        · rfl
      refine ⟨iff_of_true hok ⟨happ, ?_⟩, fun hne => absurd hok hne⟩
      intro hneeds
      rw [happ.pool] at hneeds
      obtain ⟨hsize, hsleep⟩ := hwake.1 hneeds
      exact hkill hs hsize hsleep

/-- The worker of the only pool has found no task and set `SCH_POOL_SLEEP`, and
    the signal for the first package is delivered. -/
theorem truthful_asleep : ∃ w w' package' status,
    slotMachine.run (fresh 0 1 0 1 fun _ _ => .ofCallback 0)
      [.work 0 (.mask .ok), .work 0 .go, .work 0 .go, .work 0 .go, .work 0 .go] = some w ∧
    hasBit (w.sch.pools 0).flag schPoolSleep ∧
    w.schSubmitTask (some (.ofCallback 1)) none .zero = some (w', package', status) ∧
    Truthful w w' 0 .zero (.ofCallback 1) package' status := by
  have hrun : (slotMachine.run (fresh 0 1 0 1 fun _ _ => .ofCallback 0)
      [.work 0 (.mask .ok), .work 0 .go, .work 0 .go, .work 0 .go, .work 0 .go]).map (fun w =>
        (decide w.Arranged, w.target none, hasBit (w.sch.pools 0).flag schPoolSleep,
          hasBit w.sch.flag schFlagInit && hasBit w.sch.flag schFlagRunning)) =
      some (true, some 0, true, true) := by decide +kernel
  obtain ⟨w, hw, he⟩ := Option.map_eq_some_iff.1 hrun
  simp only [Prod.mk.injEq, Bool.and_eq_true, decide_eq_true_eq] at he
  obtain ⟨harr, htarget, hsleep, hinit, hrunning⟩ := he
  obtain ⟨p, w', package', status, hpt, hcall, hiff⟩ := truthful_iff w (.ofCallback 1) none .zero
    harr (by simp) hinit hrunning (by decide)
  obtain rfl : p = 0 := Option.some.inj (hpt.symm.trans htarget)
  exact ⟨w, w', package', status, hw, hsleep, hcall, hiff.2 fun _ _ _ => rfl⟩

/-- The worker of the only pool has found no task and set `SCH_POOL_SLEEP`.  The
    signal for the first package is not delivered (`ESRCH`), and the call
    returns `SCH_OK`. -/
theorem undelivered_ok :
    ¬ ∀ (w w' : World) (package : SchTaskPackage) (package' : Option SchTaskPackage)
      (pPool : Option ℕ) (kill : Errno) (p : ℕ) (status : SchErrCode), w.Arranged →
      (∀ p ∈ pPool, p < w.sch.num) → hasBit w.sch.flag schFlagInit →
      hasBit w.sch.flag schFlagRunning → package.callback ≠ none → w.target pPool = some p →
      w.schSubmitTask (some package) pPool kill = some (w', package', status) →
      Truthful w w' p kill package package' status := by
  intro h
  have hrun : (slotMachine.run (fresh 0 1 0 1 fun _ _ => .ofCallback 0)
      [.work 0 (.mask .ok), .work 0 .go, .work 0 .go, .work 0 .go, .work 0 .go]).bind (fun w =>
        (w.schSubmitTask (some (.ofCallback 1)) none .esrch).map fun r =>
          (decide w.Arranged && hasBit w.sch.flag schFlagInit && hasBit w.sch.flag schFlagRunning,
            w.target none, r.2.2, needsWake (r.1.sch.pools 0))) =
      some (true, some 0, .ok, true) := by decide +kernel
  obtain ⟨w, -, hw⟩ := Option.bind_eq_some_iff.1 hrun
  obtain ⟨⟨w', package', status⟩, hcall, he⟩ := Option.map_eq_some_iff.1 hw
  simp only [Prod.mk.injEq, Bool.and_eq_true, decide_eq_true_eq] at he
  obtain ⟨⟨⟨harr, hinit⟩, hrunning⟩, htarget, rfl, hneeds⟩ := he
  have ht := h w w' (.ofCallback 1) package' none .esrch 0 .ok harr (by simp) hinit hrunning
    (by decide) htarget hcall
  exact absurd ((ht.ok.1 rfl).2 hneeds) (by decide)

end World

end TaskSch
