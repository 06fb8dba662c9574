/-
  Task scheduler formalization — the worker of a pool (`schPoolExecutor`,
  src/sch.c).

  A `Lane` is a pool together with the thread that runs `schPoolExecutor` on
  it: where the thread is (`Pc`), the signals pending for it, and a log of what
  went through the pool.  `Lane.work` is one atomic step of the thread; the
  other events of a lane are what other threads do to it (submit a package,
  raise a signal, and the bookkeeping of `schTerminateTaskSch` after the join).

  * `Work`, `work_cases`: everything a step of the worker can do;
  * `phaseFlag`, `run_flag`: the pool flag in each phase.  It is updated by
    xor, so it depends on the parity of the number of wake-ups;
  * `phaseFlag_iff`: the flag tells the phase of the worker exactly as long as
    the worker neither waits for a signal nor exits.
-/
import TaskSch.Queue

namespace TaskSch

/-! ## State functions of the pool (src/sch.c) -/

def setPoolRunning (pool : SchTaskPool) : SchTaskPool :=
  { pool with flag := pool.flag ^^^ (schPoolSleep ||| schFlagRunning) }

def setPoolIdle (pool : SchTaskPool) : SchTaskPool :=
  { pool with flag := pool.flag ^^^ (schPoolRunning ||| schPoolSleep) }

def setPoolTerminated (pool : SchTaskPool) : SchTaskPool :=
  { pool with flag := pool.flag ^^^ (schPoolRunning ||| schPoolSleep ||| schPoolTerminate) }

def isRunning (pool : SchTaskPool) : Bool := hasBit pool.flag schPoolRunning

/-! ## The worker -/

/-- Where the thread is in `schPoolExecutor`. -/
inductive Pc where
  /-- before `schSetSignalThreadMask` -/
  | mask
  /-- in `while (isRunning(pool)) schConditionalWait(...)` -/
  | sync
  /-- before the init callback -/
  | init
  /-- before the test `pool->size > 0` -/
  | check
  /-- before `schQueueMutexEnDeQueue(pool, 1, NULL)` -/
  | dequeue
  /-- `package` points to the slot; before `package->callback` is read -/
  | fetch (slot : ℕ)
  /-- inside `callback(package)` -/
  | callback (slot : ℕ)
  /-- the queue was empty; before the first `setPoolIdle` -/
  | idle
  /-- before `schMutexUnLock(sch->mutex)` and `schConditionalSignal` -/
  | unlock
  /-- before the second `setPoolIdle` -/
  | idleAgain
  /-- before `schRaiseThreadSignal(pool->schRefThread, SCH_SIGNAL_DONE)` -/
  | done
  /-- blocked in `schSignalWait` -/
  | wait
  /-- before `setPoolRunning` -/
  | wake
  /-- at the labels `error` and `done`, before `setPoolTerminated` -/
  | finish
  | exited
  deriving DecidableEq, Repr

/-- One step of the worker, with what it gets from outside. -/
inductive WorkerAct where
  /-- `schSetSignalThreadMask` returns `status` -/
  | mask (status : SchErrCode)
  /-- the next step, where it needs nothing from outside -/
  | go
  /-- the callback returns after `taskInvoke` nanoseconds -/
  | ret (taskInvoke : ℤ)
  /-- `schSignalWait` returns `signal` -/
  | sig (signal : ℤ)

/-- The signals that the worker blocks and waits for. -/
def workerMask : List ℤ :=
  [schSignalContinue, schSignalDone, schSignalRunning, schSignalQuit, sigTerm]

/-- The body of the inner wait loop: where the worker goes on `signal`.  The
    `continue` of the default case goes to the test of the loop. -/
def onSignal (signal : ℤ) : Pc :=
  if signal = sigQuit then .finish
  else if signal = sigInt then
    if signal = schSignalQuit then .finish
    else if signal ≠ schSignalContinue then .wait else .wake
  else if signal = sigTerm then .finish
  else if signal ≠ schSignalContinue then .wait else .wake

/-- What went through a pool: the packages accepted, how many of them were
    dequeued, the packages as the worker found them when it called their
    callbacks, how many callbacks returned, and how often the worker woke up. -/
structure Log where
  accepted : List SchTaskPackage
  taken : ℕ
  ran : List SchTaskPackage
  finished : ℕ
  wakes : ℕ

def Log.empty : Log := ⟨[], 0, [], 0, 0⟩

/-- A pool with the thread that runs `schPoolExecutor` on it. -/
structure Lane where
  pool : SchTaskPool
  pc : Pc
  pending : Finset ℤ
  log : Log

/-- One atomic step of the worker.  To raise `DONE` for a thread that is `NULL`
    is undefined, and no step. -/
def Lane.work (l : Lane) : WorkerAct → Option Lane
  | .mask status =>
    if l.pc = .mask then some { l with pc := if status.toInt ≤ 0 then .finish else .sync } else none
  | .go =>
    match l.pc with
    | .sync => some { l with pc := if isRunning l.pool then .sync else .init }
    | .init => some { l with pc := .check }
    | .check => some { l with pc := if l.pool.size > 0 then .dequeue else .idle }
    | .dequeue =>
      (schQueueMutexEnDeQueue l.pool .dequeue).bind fun r => r.2.map fun slot =>
        { l with pool := r.1, pc := .fetch slot, log := { l.log with taken := l.log.taken + 1 } }
    | .fetch slot =>
      let package := { l.pool.slot slot with index := l.pool.index }
      some { l with
        pool := { l.pool with slot := Function.update l.pool.slot slot package }
        pc := .callback slot
        log := { l.log with ran := l.log.ran ++ [package] } }
    | .idle =>
      some { l with pool := setPoolIdle { l.pool with dheapPriority := 0 }, pc := .unlock }
    | .unlock => some { l with pc := .idleAgain }
    | .idleAgain => some { l with pool := setPoolIdle l.pool, pc := .done }
    | .done => if l.pool.schRefThread.isSome then some { l with pc := .wait } else none
    | .wake =>
      some { l with
        pool := setPoolRunning l.pool
        pc := .check
        log := { l.log with wakes := l.log.wakes + 1 } }
    | .finish => some { l with pool := setPoolTerminated l.pool, pc := .exited }
    | .mask | .callback _ | .wait | .exited => none
  | .ret taskInvoke =>
    match l.pc with
    | .callback _ =>
      some { l with
        pool := { l.pool with avergeDeque := 0, dheapPriority := taskInvoke }
        pc := .check
        log := { l.log with finished := l.log.finished + 1 } }
    | _ => none
  | .sig signal =>
    -- `-1` is a failed `sigwait`, which takes no signal
    if l.pc = .wait ∧ (signal = -1 ∨ signal ∈ workerMask ∧ signal ∈ l.pending) then
      some { l with pc := onSignal signal, pending := l.pending.erase signal }
    else none

/-- Everything that a step of the worker can do. -/
inductive Lane.Work (l : Lane) : Lane → Prop
  | mask (h : l.pc = .mask) : Work l { l with pc := .sync }
  | maskFailed (h : l.pc = .mask) : Work l { l with pc := .finish }
  | sync (h : l.pc = .sync) (hr : isRunning l.pool) : Work l { l with pc := .sync }
  | synced (h : l.pc = .sync) (hr : ¬ isRunning l.pool) : Work l { l with pc := .init }
  | init (h : l.pc = .init) : Work l { l with pc := .check }
  | some (h : l.pc = .check) (hs : 0 < l.pool.size) : Work l { l with pc := .dequeue }
  | empty (h : l.pc = .check) (hs : l.pool.size = 0) : Work l { l with pc := .idle }
  | dequeue (h : l.pc = .dequeue) {pool : SchTaskPool} {slot : ℕ}
      (hq : schQueueMutexEnDeQueue l.pool .dequeue = .some (pool, .some slot)) :
      Work l { l with
        pool := pool, pc := .fetch slot, log := { l.log with taken := l.log.taken + 1 } }
  | fetch {slot : ℕ} (h : l.pc = .fetch slot) :
      Work l { l with
        pool := { l.pool with
          slot := Function.update l.pool.slot slot { l.pool.slot slot with index := l.pool.index } }
        pc := .callback slot
        log := { l.log with
          ran := l.log.ran ++ [{ l.pool.slot slot with index := l.pool.index }] } }
  | ret {slot : ℕ} (h : l.pc = .callback slot) (taskInvoke : ℤ) :
      Work l { l with
        pool := { l.pool with avergeDeque := 0, dheapPriority := taskInvoke }
        pc := .check
        log := { l.log with finished := l.log.finished + 1 } }
  | idle (h : l.pc = .idle) :
      Work l { l with pool := setPoolIdle { l.pool with dheapPriority := 0 }, pc := .unlock }
  | unlock (h : l.pc = .unlock) : Work l { l with pc := .idleAgain }
  | idleAgain (h : l.pc = .idleAgain) : Work l { l with pool := setPoolIdle l.pool, pc := .done }
  | done (h : l.pc = .done) (hr : l.pool.schRefThread.isSome) : Work l { l with pc := .wait }
  | again (h : l.pc = .wait) (signal : ℤ) (hc : signal ≠ schSignalContinue) :
      Work l { l with pc := .wait, pending := l.pending.erase signal }
  | cont (h : l.pc = .wait) (hc : schSignalContinue ∈ l.pending) :
      Work l { l with pc := .wake, pending := l.pending.erase schSignalContinue }
  | term (h : l.pc = .wait) (hc : sigTerm ∈ l.pending) :
      Work l { l with pc := .finish, pending := l.pending.erase sigTerm }
  | wake (h : l.pc = .wake) :
      Work l { l with
        pool := setPoolRunning l.pool
        pc := .check
        log := { l.log with wakes := l.log.wakes + 1 } }
  | finish (h : l.pc = .finish) : Work l { l with pool := setPoolTerminated l.pool, pc := .exited }

theorem Lane.work_cases {l l' : Lane} {a : WorkerAct} (h : l.work a = some l') : l.Work l' := by
  cases a with
  | mask status =>
    simp only [work] at h
    split_ifs at h with hpc hst <;> cases h
    · exact .maskFailed hpc
    · exact .mask hpc
  | go =>
    simp only [work] at h
    split at h
    next hpc =>
      cases h
      split_ifs with hr
      · exact .sync hpc hr
      · exact .synced hpc hr
    next hpc => cases h; exact .init hpc
    next hpc =>
      cases h
      split_ifs with hs
      · exact .some hpc hs
      · exact .empty hpc (by omega)
    next hpc =>
      simp only [Option.bind_eq_some_iff, Option.map_eq_some_iff] at h
      obtain ⟨⟨pool, slot⟩, hq, slot', hslot, rfl⟩ := h
      simp only at hslot; subst hslot
      exact .dequeue hpc hq
    next slot hpc => cases h; exact .fetch hpc
    next hpc => cases h; exact .idle hpc
    next hpc => cases h; exact .unlock hpc
    next hpc => cases h; exact .idleAgain hpc
    next hpc =>
      split_ifs at h with hr
      cases h
      exact .done hpc hr
    next hpc => cases h; exact .wake hpc
    next hpc => cases h; exact .finish hpc
    all_goals cases h
  | ret taskInvoke =>
    simp only [work] at h
    split at h
    next slot hpc => cases h; exact .ret hpc taskInvoke
    next => cases h
  | sig signal =>
    simp only [work] at h
    split_ifs at h with hpc
    cases h
    obtain ⟨hpc, rfl | ⟨hm, hp⟩⟩ := hpc
    · exact .again hpc (-1) (by decide)
    · simp only [workerMask, List.mem_cons, List.not_mem_nil, or_false] at hm
      obtain rfl | rfl | rfl | rfl | rfl := hm
      · exact .cont hpc hp
      · exact .again hpc _ (by decide)
      · exact .again hpc _ (by decide)
      · exact .again hpc _ (by decide)
      · exact .term hpc hp

/-! ## Lanes -/

/-- What happens to a lane. -/
inductive Event where
  /-- a step of the worker -/
  | work (a : WorkerAct)
  /-- `schSubmitTask` accepts `package` for the pool -/
  | submit (package : SchTaskPackage)
  /-- a signal is raised for the worker -/
  | raise (signal : ℤ)
  /-- `schTerminateTaskSch` forgets the joined thread -/
  | unlink
  /-- `schTerminateTaskSch` deletes the mutex and the signal set of the pool -/
  | clear

/-- Whether the event is a step of the worker. -/
def Event.isWork : Event → Bool
  | .work _ => true
  | _ => false

/-- The lane after `schSubmitTask` accepted `package`. -/
def Lane.submitted (l : Lane) (package : SchTaskPackage) : Lane :=
  { l with
    pool := l.pool.submitted package
    log := { l.log with
      accepted := l.log.accepted ++ [{ package with index := l.pool.index }] } }

/-- One event. -/
def Lane.step (l : Lane) : Event → Option Lane
  | .work a => l.work a
  | .submit package =>
    (l.pool.submit package).bind fun
      | .error _ => none
      | .ok (pool, package) =>
        some { l with
          pool := pool, log := { l.log with accepted := l.log.accepted ++ [package] } }
  | .raise signal => some { l with pending := insert signal l.pending }
  | .unlink => some { l with pool := { l.pool with thread := none, schRefThread := none } }
  | .clear => some { l with pool := { l.pool with mutex := none, set := none } }

def laneMachine : Machine Lane Event := ⟨Lane.step⟩

/-- A submission that is accepted stores the package in a free slot. -/
theorem Lane.step_submit {l l' : Lane} {package : SchTaskPackage} (hr : l.pool.RingWf)
    (h : l.step (.submit package) = some l') :
    l.pool.size < l.pool.reserved ∧ l' = l.submitted package := by
  by_cases hs : l.pool.size < l.pool.reserved
  · simp only [step, SchTaskPool.submit_eq hr hs, Option.bind_some, Option.some.injEq] at h
    exact ⟨hs, h.symm⟩
  · simp [step, SchTaskPool.submit_full (Nat.le_of_not_lt hs)] at h

/-! ## The flag in each phase -/

/-- Both bits of a pool that is awake, or none of them, by the parity of the
    number of wake-ups. -/
def parityFlag (wakes : ℕ) : Flag :=
  if wakes % 2 = 0 then 0 else schPoolRunning ||| schPoolSleep

/-- The flag of a pool whose worker is at `pc` after `wakes` wake-ups. -/
def phaseFlag (wakes : ℕ) : Pc → Flag
  | .unlock | .idleAgain => parityFlag (wakes + 1)
  | .exited => parityFlag wakes ^^^ (schPoolRunning ||| schPoolSleep ||| schPoolTerminate)
  | _ => parityFlag wakes

theorem parityFlag_succ (wakes : ℕ) :
    parityFlag wakes ^^^ (schPoolRunning ||| schPoolSleep) = parityFlag (wakes + 1) := by
  unfold parityFlag
  rcases Nat.mod_two_eq_zero_or_one wakes with h | h
  · rw [if_pos h, if_neg (by omega)]; decide
  · rw [if_neg (by omega), if_pos (by omega)]; decide

theorem parityFlag_succ_succ (wakes : ℕ) : parityFlag (wakes + 1 + 1) = parityFlag wakes := by
  unfold parityFlag
  rw [show (wakes + 1 + 1) % 2 = wakes % 2 by omega]

theorem Lane.submit_flag {l l' : Lane} {package : SchTaskPackage}
    (h : l.step (.submit package) = some l') :
    l'.pool.flag = l.pool.flag ∧ l'.pc = l.pc ∧ l'.log.wakes = l.log.wakes := by
  simp only [step, SchTaskPool.submit] at h
  split_ifs at h
  · cases h
  · simp only [Option.bind_map, Option.bind_eq_some_iff] at h
    obtain ⟨r, hr, h⟩ := h
    cases h
    exact ⟨(SchTaskPool.queue_frame hr).1, rfl, rfl⟩

/-- The flag is that of the phase. -/
def Lane.FlagOk (l : Lane) : Prop := l.pool.flag = phaseFlag l.log.wakes l.pc

theorem Lane.Work.flagOk {l l' : Lane} (h : l.Work l') (hf : l.FlagOk) : l'.FlagOk := by
  unfold FlagOk at hf ⊢
  cases h with
  | dequeue hpc hq =>
    rw [hpc] at hf
    exact (SchTaskPool.queue_frame hq).1.trans hf
  | idle hpc =>
    rw [hpc] at hf
    simp only [setPoolIdle, hf]
    exact parityFlag_succ _
  | idleAgain hpc =>
    rw [hpc] at hf
    simp only [setPoolIdle, hf]
    exact (parityFlag_succ _).trans (parityFlag_succ_succ _)
  | wake hpc =>
    rw [hpc] at hf
    simp only [setPoolRunning, hf]
    exact parityFlag_succ _
  | finish hpc =>
    rw [hpc] at hf
    simp only [setPoolTerminated, hf]
    rfl
  | mask hpc | maskFailed hpc | sync hpc | synced hpc | init hpc | some hpc | empty hpc | fetch hpc
  | ret hpc | unlock hpc | done hpc | again hpc | cont hpc | term hpc => rw [hpc] at hf; exact hf

theorem Lane.step_flagOk {l l' : Lane} {e : Event} (h : l.step e = some l') (hf : l.FlagOk) :
    l'.FlagOk := by
  cases e with
  | work a => exact (work_cases h).flagOk hf
  | submit package =>
    obtain ⟨h1, h2, h3⟩ := submit_flag h
    unfold FlagOk; rw [h1, h2, h3]; exact hf
  | raise signal => cases h; exact hf
  | unlink => cases h; exact hf
  | clear => cases h; exact hf

/-- The lane right after `schRunTaskSch` created the thread `t` with the mutex
    `m` and the signal set `set` for the pool. -/
def Lane.start (pool : SchTaskPool) (t : ℕ) (m set : Ptr) : Lane :=
  ⟨{ pool with thread := some t, mutex := m, set := set }, .mask, ∅, .empty⟩

/-- **The flag in every run**: from flag `0`, the flag is that of the phase of
    the worker, up to the parity of its wake-ups. -/
theorem run_flag {pool : SchTaskPool} (hflag : pool.flag = 0) (t : ℕ) (m set : Ptr)
    {es : List Event} {l : Lane} (hrun : laneMachine.run (.start pool t m set) es = some l) :
    l.pool.flag = phaseFlag l.log.wakes l.pc :=
  Machine.run_inv (P := Lane.FlagOk) (fun _ _ _ hf h => Lane.step_flagOk h hf) hrun hflag

/-! ## The flag as a report of the phase -/

/-- What the status flags say: a worker that waits for a signal is asleep, one
    that runs a callback after it was woken is running, one that has exited is
    terminated. -/
structure Lane.PhaseFlag (l : Lane) : Prop where
  asleep : l.pc = .wait → hasBit l.pool.flag schPoolSleep ∧ ¬ hasBit l.pool.flag schPoolRunning
  awake : ∀ slot, l.pc = .callback slot → 0 < l.log.wakes →
    hasBit l.pool.flag schPoolRunning ∧ ¬ hasBit l.pool.flag schPoolSleep
  gone : l.pc = .exited → hasBit l.pool.flag schPoolTerminate ∧
    ¬ hasBit l.pool.flag schPoolRunning ∧ ¬ hasBit l.pool.flag schPoolSleep

/-- The step is neither the one into `schSignalWait` nor the one out of
    `schPoolExecutor`. -/
def Lane.StaysBusy (l : Lane) (e : Event) : Prop :=
  ∀ a, e = .work a → l.pc ≠ .done ∧ l.pc ≠ .finish

/-- A worker that has never waited for a signal. -/
structure Lane.Fresh (l : Lane) : Prop where
  flag : l.FlagOk
  wakes : l.log.wakes = 0
  wait : l.pc ≠ .wait
  wake : l.pc ≠ .wake
  exited : l.pc ≠ .exited

theorem Lane.Fresh.phaseFlag {l : Lane} (h : l.Fresh) : l.PhaseFlag :=
  ⟨fun hpc => absurd hpc h.wait, fun _ _ hw => absurd hw (by rw [h.wakes]; simp),
    fun hpc => absurd hpc h.exited⟩

theorem Lane.Fresh.step {l l' : Lane} {e : Event} (hl : l.Fresh) (hb : l.StaysBusy e)
    (h : l.step e = some l') : l'.Fresh := by
  have hf := step_flagOk h hl.flag
  cases e with
  | work a =>
    obtain ⟨hd, hfin⟩ := hb a rfl
    cases work_cases h with
    | done hpc => exact absurd hpc hd
    | finish hpc => exact absurd hpc hfin
    | again hpc | cont hpc | term hpc => exact absurd hpc hl.wait
    | wake hpc => exact absurd hpc hl.wake
    | _ => exact ⟨hf, hl.wakes, by simp, by simp, by simp⟩
  | submit package =>
    obtain ⟨-, h2, h3⟩ := submit_flag h
    exact ⟨hf, h3.trans hl.wakes, h2 ▸ hl.wait, h2 ▸ hl.wake, h2 ▸ hl.exited⟩
  | raise signal => cases h; exact ⟨hf, hl.wakes, hl.wait, hl.wake, hl.exited⟩
  | unlink => cases h; exact ⟨hf, hl.wakes, hl.wait, hl.wake, hl.exited⟩
  | clear => cases h; exact ⟨hf, hl.wakes, hl.wait, hl.wake, hl.exited⟩

/-- While the worker waits for a signal, either both bits are set or none. -/
theorem Lane.FlagOk.not_asleep {l : Lane} (h : l.FlagOk) (hpc : l.pc = .wait) : ¬ l.PhaseFlag := by
  intro hp
  have hs := hp.asleep hpc
  rw [h, hpc] at hs
  simp only [TaskSch.phaseFlag, parityFlag] at hs
  split_ifs at hs
  · exact absurd hs (by decide)
  · exact absurd hs (by decide)

/-- A worker that never woke up leaves all three bits set. -/
theorem Lane.FlagOk.not_gone {l : Lane} (h : l.FlagOk) (hw : l.log.wakes = 0)
    (hpc : l.pc = .exited) : ¬ l.PhaseFlag := by
  intro hp
  have hs := hp.gone hpc
  rw [h, hpc, hw] at hs
  exact absurd hs (by decide)

theorem Lane.Fresh.busy {l l' : Lane} {e : Event} (hl : l.Fresh) (h : l.step e = some l')
    (hp : l'.PhaseFlag) : l.StaysBusy e := by
  rintro a rfl
  have hf := step_flagOk h hl.flag
  constructor
  · intro hpc
    cases work_cases h with
    | done => exact hf.not_asleep rfl hp
    | _ h' => rw [hpc] at h'; cases h'
  · intro hpc
    cases work_cases h with
    | finish => exact hf.not_gone hl.wakes rfl hp
    | _ h' => rw [hpc] at h'; cases h'

theorem Lane.Fresh.iff {es : List Event} {l t : Lane} (hl : l.Fresh)
    (hrun : laneMachine.run l es = some t) :
    laneMachine.Throughout PhaseFlag l es ↔ laneMachine.Along StaysBusy l es := by
  induction es generalizing l with
  | nil => exact ⟨fun _ => trivial, fun _ => hl.phaseFlag⟩
  | cons e es ih =>
    obtain ⟨l', h1, h2⟩ := Machine.run_cons.1 hrun
    constructor
    · rintro ⟨_, hrest⟩
      have hl' := hrest l' h1
      have hp : l'.PhaseFlag := by cases es <;> [exact hl'; exact hl'.1]
      have hb := hl.busy h1 hp
      exact Machine.along_cons hb h1 ((ih (hl.step hb h1) h2).1 hl')
    · rintro ⟨hb, hrest⟩
      refine ⟨hl.phaseFlag, ?_⟩
      intro l'' h
      rw [h1] at h; cases h
      exact (ih (hl.step hb h1) h2).2 (hrest l' h1)

/-- **When the pool flag tells the phase**: from the pool of
    `schCreateTaskPool`, the flag agrees with the phase of the worker in every
    state of a run exactly if the worker, in that run, neither waits for a
    signal nor exits. -/
theorem phaseFlag_iff (self i : ℕ) (maxPackagesPool : UInt32) (package : Ptr)
    (slot : ℕ → SchTaskPackage) (t : ℕ) (m set : Ptr) (es : List Event) (l : Lane)
    (hrun : laneMachine.run
      (.start (.create self i maxPackagesPool package slot) t m set) es = some l) :
    laneMachine.Throughout Lane.PhaseFlag
        (.start (.create self i maxPackagesPool package slot) t m set) es ↔
      laneMachine.Along Lane.StaysBusy
        (.start (.create self i maxPackagesPool package slot) t m set) es :=
  Lane.Fresh.iff ⟨rfl, rfl, by simp [Lane.start], by simp [Lane.start], by simp [Lane.start]⟩ hrun

/-- A worker that runs its first task. -/
theorem phaseFlag_task : laneMachine.Throughout Lane.PhaseFlag
    (.start (.create 0 0 1 (some 0) fun _ => .ofCallback 0) 0 (some 1) (some 2))
    [.work (.mask .ok), .submit (.ofCallback 1), .work .go, .work .go, .work .go, .work .go,
      .work .go, .work (.ret 5), .work .go] := by
  refine (phaseFlag_iff 0 0 1 (some 0) (fun _ => .ofCallback 0) 0 (some 1) (some 2)
    [.work (.mask .ok), .submit (.ofCallback 1), .work .go, .work .go, .work .go, .work .go,
      .work .go, .work (.ret 5), .work .go] _ rfl).2 ?_
  refine Machine.along_cons ?_ rfl (Machine.along_cons ?_ rfl (Machine.along_cons ?_ rfl
    (Machine.along_cons ?_ rfl (Machine.along_cons ?_ rfl (Machine.along_cons ?_ rfl
      (Machine.along_cons ?_ rfl (Machine.along_cons ?_ rfl (Machine.along_cons ?_ rfl
        trivial))))))))
  all_goals exact fun _ _ => by decide

/-- The first time that a worker waits for a signal, its flag is `0`. -/
theorem first_wait_not_asleep :
    ¬ ∀ (es : List Event) (l : Lane),
      laneMachine.run (.start (.create 0 0 1 (some 0) fun _ => .ofCallback 0) 0 (some 1) (some 2))
        es = some l → l.PhaseFlag := by
  intro h
  have h2 := h [.work (.mask .ok), .work .go, .work .go, .work .go, .work .go, .work .go, .work .go,
    .work .go] _ rfl
  exact absurd (h2.asleep rfl) (by decide)

end TaskSch
