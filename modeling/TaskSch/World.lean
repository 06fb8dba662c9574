/-
  Task scheduler formalization — the scheduler with its threads, and the calls
  of the library that do not block (src/taskSch.c).

  A `World` is a scheduler object, the memory it allocates, all threads that
  were ever created to run `schPoolExecutor`, and the log of each pool.  A pool
  can have several such threads at a time: nothing in the data prevents it.

  The results of OS calls are arguments (`Errno`, `RunOs`).  The names of the
  threads and the cores they run on (`SCH_FLAG_NO_AFM`) are left out.  The calls
  that wait for other threads (`schWaitTask`, `schTerminateTaskSch`) are
  modelled step by step in `System`.
-/
import TaskSch.Heapify
import TaskSch.Ledger

namespace TaskSch

/-! ## Memory and threads -/

/-- The addresses in use, and the next fresh one. -/
structure Mem where
  live : Finset ℕ
  next : ℕ

/-- A `malloc` that succeeds. -/
def Mem.malloc (m : Mem) : Mem := ⟨insert m.next m.live, m.next + 1⟩

def Mem.free (m : Mem) : Ptr → Mem
  | none => m
  | some a => { m with live := m.live.erase a }

/-- A thread that runs `schPoolExecutor` on the pool `index`. -/
structure Thread where
  index : ℕ
  pc : Pc
  pending : Finset ℤ

structure World where
  sch : SchTaskSch
  mem : Mem
  /-- the threads created so far are those below `nthread`; the others count as exited -/
  threads : ℕ → Thread
  nthread : ℕ
  log : ℕ → Log
  /-- the signals pending for the thread that created the scheduler -/
  inbox : Finset ℤ

namespace World

/-- The thread `t` exists and has not exited. -/
def Live (w : World) (t : ℕ) : Prop := (w.threads t).pc ≠ .exited

instance (w : World) (t : ℕ) : Decidable (w.Live t) := inferInstanceAs (Decidable (_ ≠ _))

def setPool (w : World) (i : ℕ) (pool : SchTaskPool) : World :=
  { w with sch := { w.sch with pools := Function.update w.sch.pools i pool } }

def setFlag (w : World) (flag : Flag) : World := { w with sch := { w.sch with flag := flag } }

def setOrder (w : World) (order : List ℕ) : World := { w with sch := { w.sch with order := order } }

def setThread (w : World) (t : ℕ) (th : Thread) : World :=
  { w with threads := Function.update w.threads t th }

def setLog (w : World) (i : ℕ) (log : Log) : World :=
  { w with log := Function.update w.log i log }

/-- The thread `t` with the pool it works on. -/
def lane (w : World) (t : ℕ) : Lane :=
  ⟨w.sch.pools (w.threads t).index, (w.threads t).pc, (w.threads t).pending,
    w.log (w.threads t).index⟩

/-- A step of the thread `t`.  The signal `DONE` goes to the thread that created
    the scheduler. -/
def work (w : World) (t : ℕ) (a : WorkerAct) : Option World :=
  ((w.lane t).work a).map fun l =>
    let i := (w.threads t).index
    let w' := ((w.setPool i l.pool).setThread t ⟨i, l.pc, l.pending⟩).setLog i l.log
    if (w.threads t).pc = .done then
      { w' with inbox := insert schSignalDone w'.inbox }
    else w'

/-- `schRaiseThreadSignal`, where `pthread_kill` returns `r`: the signal gets
    pending unless it is pending already.  For the null pointer, to which
    `pthread_kill` is not to be applied, nothing happens here, so that the model
    has more runs than the program has. -/
def schRaiseThreadSignal (w : World) (thread : Option ℕ) (signal : ℤ) (r : Errno) :
    World × SchErrCode :=
  (match thread, r with
    | some t, .zero =>
      w.setThread t { w.threads t with pending := insert signal (w.threads t).pending }
    | _, _ => w,
   pthreadErrorCode2SchErrorCode r)

/-- **A signal** gets pending for one thread at most, and nothing else happens. -/
theorem raise_eq (w : World) (thread : Option ℕ) (signal : ℤ) (r : Errno) :
    ∃ threads, (w.schRaiseThreadSignal thread signal r).1 = { w with threads := threads } ∧
      ∀ t, threads t = w.threads t ∨
        threads t = { w.threads t with pending := insert signal (w.threads t).pending } := by
  unfold schRaiseThreadSignal
  split
  next t =>
    refine ⟨_, rfl, ?_⟩
    intro t'
    by_cases htt : t' = t
    · subst htt
      exact .inr (Function.update_self ..)
    · exact .inl (Function.update_of_ne htt ..)
  next => exact ⟨_, rfl, fun _ => .inl rfl⟩

theorem raise_sch (w : World) (thread : Option ℕ) (signal : ℤ) (r : Errno) :
    (w.schRaiseThreadSignal thread signal r).1.sch = w.sch := by
  obtain ⟨threads, he, -⟩ := raise_eq w thread signal r
  rw [he]

theorem raise_mem (w : World) (thread : Option ℕ) (signal : ℤ) (r : Errno) :
    (w.schRaiseThreadSignal thread signal r).1.mem = w.mem := by
  obtain ⟨threads, he, -⟩ := raise_eq w thread signal r
  rw [he]

/-- A signal does not move a thread. -/
theorem raise_thread (w : World) (thread : Option ℕ) (signal : ℤ) (r : Errno) (t : ℕ) :
    ((w.schRaiseThreadSignal thread signal r).1.threads t).index = (w.threads t).index ∧
      ((w.schRaiseThreadSignal thread signal r).1.threads t).pc = (w.threads t).pc := by
  obtain ⟨threads, he, hthread⟩ := raise_eq w thread signal r
  rw [he]
  rcases hthread t with ht | ht
  · exact ⟨congrArg Thread.index ht, congrArg Thread.pc ht⟩
  · simp only [ht, and_self]

/-- The loop that raises `SCH_SIGNAL_CONTINUE` for the pools `i .. i + k - 1`;
    `false` if a call failed. -/
def raiseContinue (r : ℕ → Errno) : ℕ → ℕ → World → World × Bool
  | 0, _, w => (w, true)
  | k + 1, i, w =>
    match w.schRaiseThreadSignal (w.sch.pools i).thread schSignalContinue (r i) with
    | (w, .ok) => raiseContinue r k (i + 1) w
    | (w, _) => (w, false)

/-! ## `schSubmitTask` -/

/-- `schSubmitTask` up to the update of the priority: the state and argument
    checks, the choice of the pool and the enqueue.  Returns the caller's
    package and the pool that took it, or the error. -/
def submitEnqueue (w : World) (package : Option SchTaskPackage) (pPool : Option ℕ) :
    Option (World × Option SchTaskPackage × Except SchErrCode ℕ) :=
  if ¬ hasBit w.sch.flag schFlagRunning ∨ ¬ hasBit w.sch.flag schFlagInit then
    some (w, package, .error .invalidState)
  else
    match package with
    | none => some (w, package, .error .invalidArg)
    | some pkg =>
      if pkg.callback = none then some (w, package, .error .invalidArg)
      else
        (schHeapify (fun _ p => (w.sch.pools p).dheapPriority) w.sch.num w.sch.order).bind
          fun order =>
            let w := w.setOrder order
            let pool := match pPool with
              | none => order[0]?
              | some p => if p < w.sch.num then some p else none
            pool.bind fun p => ((w.sch.pools p).submit pkg).map fun
              | .error e => (w, package, .error e)
              | .ok (pool, pkg) =>
                ((w.setPool p pool).setLog p
                  { w.log p with accepted := (w.log p).accepted ++ [pkg] }, some pkg, .ok p)

/-- The pool that accepts the package in a call of `schSubmitTask`. -/
def acceptedBy (w : World) (package : Option SchTaskPackage) (pPool : Option ℕ) : Option ℕ :=
  match w.submitEnqueue package pPool with
  | some (_, _, .ok p) => some p
  | _ => none

/-- The test of `schSubmitTask` whether the pool has to be woken. -/
def needsWake (pool : SchTaskPool) : Bool :=
  decide (pool.size ≤ 1) && hasBit pool.flag schPoolSleep

/-- `schSubmitTask` without steps of other threads in between, where
    `pthread_kill` returns `kill`. -/
def schSubmitTask (w : World) (package : Option SchTaskPackage) (pPool : Option ℕ) (kill : Errno) :
    Option (World × Option SchTaskPackage × SchErrCode) :=
  (w.submitEnqueue package pPool).map fun
    | (w, package, .error e) => (w, package, e)
    | (w, package, .ok p) =>
      if needsWake (w.sch.pools p) then
        match w.schRaiseThreadSignal (w.sch.pools p).thread schSignalContinue kill with
        | (w, status) => (w, package, if status.toInt = 0 then .signal else .ok)
      else (w, package, .ok)

/-! ## `schRunTaskSch` and `schStopTaskSch` -/

/-- The results of the OS calls made by `schRunTaskSch`: the signal mask, and
    for each pool its mutex, its thread and the first signal. -/
structure RunOs where
  mask : SchErrCode
  mutex : ℕ → Errno
  thread : ℕ → Bool
  raise : ℕ → Errno

/-- How `schRunTaskSch` is left: by `return`, or by `goto failed`. -/
inductive RunExit where
  | ret (status : SchErrCode)
  | failed (status : SchErrCode)
  deriving DecidableEq

/-- One round of the first loop of `schRunTaskSch`; an exit ends the loop.
    `schCreateMutex` is taken to have failed only if it returns `0`. -/
def startPool (os : RunOs) (i : ℕ) (w : World) : World × Option RunExit :=
  let w := { w.setPool i { w.sch.pools i with mutex := some w.mem.next } with mem := w.mem.malloc }
  if (pthreadErrorCode2SchErrorCode (os.mutex i)).toInt = 0 then (w, some (.ret .internal))
  else
    let w := { w.setPool i { w.sch.pools i with set := some w.mem.next } with mem := w.mem.malloc }
    if os.thread i then
      ({ (w.setPool i { w.sch.pools i with thread := some w.nthread }).setThread w.nthread
          ⟨i, .mask, ∅⟩ with nthread := w.nthread + 1 }, none)
    else (w.setPool i { w.sch.pools i with thread := none }, some (.failed .invalidSch))

/-- The first loop of `schRunTaskSch`, for the pools `i .. i + k - 1`. -/
def startPools (os : RunOs) : ℕ → ℕ → World → World × Option RunExit
  | 0, _, w => (w, none)
  | k + 1, i, w =>
    match startPool os i w with
    | (w, none) => startPools os k (i + 1) w
    | (w, some e) => (w, some e)

/-- `schRunTaskSch`, up to its label `failed`. -/
def schRunTaskSch (os : RunOs) (w : World) : World × RunExit :=
  if ¬ hasBit w.sch.flag schFlagInit then (w, .ret .invalidState)
  else if os.mask ≠ .ok then (w, .ret .internal)
  else
    match startPools os w.sch.num 0 w with
    | (w, some e) => (w, e)
    | (w, none) =>
      match raiseContinue os.raise w.sch.num 0 w with
      | (w, false) => (w, .ret .internal)
      | (w, true) => (w.setFlag (w.sch.flag ||| schFlagRunning), .ret .ok)

/-- `schStopTaskSch`, where `pthread_kill` for pool `i` returns `r i`. -/
def schStopTaskSch (r : ℕ → Errno) (w : World) : World × SchErrCode :=
  if ¬ hasBit w.sch.flag schFlagInit then (w, .invalidState)
  else if ¬ hasBit w.sch.flag schFlagRunning then (w, .invalidState)
  else
    match raiseContinue r w.sch.num 0 w with
    | (w, false) => (w, .internal)
    | (w, true) => (w, .ok)

/-! ## `schTerminateTaskSch` and `schReleaseTaskSch` -/

/-- The checks at the start of `schTerminateTaskSch`: what it returns at once,
    if it does not go on to stop the workers. -/
def terminateGuard (w : World) : Option SchErrCode :=
  if ¬ hasBit w.sch.flag schFlagInit then some .ok
  else if ¬ hasBit w.sch.flag schFlagRunning then some .ok
  else none

/-- `sch_release_scheduler_resources`. -/
def schReleaseSchedulerResources (w : World) : World :=
  { w with mem := (((w.mem.free w.sch.pool).free w.sch.dheap).free w.sch.set).free w.sch.spinlock }

/-- The loop of `schReleaseTaskSch` over the pools `i .. i + k - 1`. -/
def releasePools : ℕ → ℕ → World → World
  | 0, _, w => w
  | k + 1, i, w =>
    releasePools k (i + 1) { w.setPool i { w.sch.pools i with package := none, flag := 0 } with
      mem := w.mem.free (w.sch.pools i).package }

/-- `schReleaseTaskSch` after `schTerminateTaskSch` returned without an error. -/
def release (w : World) : World := (releasePools w.sch.num 0 w).schReleaseSchedulerResources

/-! ## The first states -/

/-- The world after `schCreateTaskPool` succeeded with `num` pools, called by
    the thread `self`.  The seven objects of the scheduler come first in
    memory, then the package buffers, with the contents `slot`. -/
def created (self num : ℕ) (flag : Flag) (maxPackagesPool : UInt32)
    (slot : ℕ → ℕ → SchTaskPackage) : World where
  sch :=
    { num := num
      pool := some 0
      flag := flag &&& ~~~(schFlagInit ||| schFlagRunning) ||| schFlagInit
      dheap := some 1
      set := some 2
      spinlock := some 3
      mutex := some 4
      conditional := some 5
      barrier := some 6
      pools := fun i => .create self i maxPackagesPool (some (7 + i)) (slot i)
      order := List.range num }
  mem := ⟨Finset.range (7 + num), 7 + num⟩
  threads := fun t => ⟨t, .exited, ∅⟩
  nthread := 0
  log := fun _ => .empty
  inbox := ∅

/-- A scheduler that has been created is initialized and not running. -/
theorem created_flag (self num : ℕ) (flag : Flag) (maxPackagesPool : UInt32)
    (slot : ℕ → ℕ → SchTaskPackage) :
    hasBit (created self num flag maxPackagesPool slot).sch.flag schFlagInit ∧
      ¬ hasBit (created self num flag maxPackagesPool slot).sch.flag schFlagRunning := by
  constructor
  · rw [hasBit_init]; simp [created, schFlagInit]
  · rw [hasBit_running]; simp [created, schFlagInit, schFlagRunning]

/-- All OS calls succeed. -/
def RunOs.allOk : RunOs := ⟨.ok, fun _ => .zero, fun _ => true, fun _ => .zero⟩

/-- The world right after the first `schRunTaskSch`, before the workers take a
    step. -/
def fresh (self num : ℕ) (flag : Flag) (maxPackagesPool : UInt32)
    (slot : ℕ → ℕ → SchTaskPackage) : World :=
  (schRunTaskSch .allOk (created self num flag maxPackagesPool slot)).1

end World

end TaskSch
