/-
  Task scheduler formalization — the threads of the program that use the
  scheduler, interleaved with the workers (src/taskSch.c).

  A client is a thread outside of the scheduler, or a task callback that calls
  back into it.  A call that waits for other threads takes several steps; the
  state of a client (`Client`) says where it is in the call and what comes after
  it.  The full test, the enqueue and the update of the priority of
  `schSubmitTask` are one step; submitters that race there are the subject of
  `Overfill`.

  `Sys.step_acts`: as long as nobody calls `schRunTaskSch` or
  `schReleaseTaskSch`, every step is an event of the lanes.
-/
import TaskSch.Lanes

namespace TaskSch

/-! ## Clients -/

/-- What called `schTerminateTaskSch`: the client itself, `schRunTaskSch` at its
    label `failed` with the status that it is going to return, or
    `schReleaseTaskSch`. -/
inductive After where
  | ret
  | runFailed (status : SchErrCode)
  | release
  deriving DecidableEq

/-- Where a client is.  In a `schWaitTask` that is called by
    `schTerminateTaskSch`, `k` is what comes after the latter. -/
inductive Client where
  /-- in no call; what the last call returned -/
  | idle (ret : Option SchErrCode)
  /-- in `schSubmitTask`, before the test whether the pool has to be woken -/
  | wakeTest (p : ℕ)
  /-- in `schSubmitTask`, before `schRaiseThreadSignal` -/
  | wakeRaise (p : ℕ)
  /-- in `schWaitTaskWait`, before the first test of the flag -/
  | waitTest (k : Option After)
  /-- before `schMutexLock` -/
  | lock (k : Option After)
  /-- before the test of the loop around `schConditionalWait` -/
  | running (k : Option After)
  /-- in `schConditionalWait` -/
  | condWait (k : Option After)
  /-- before `schMutexUnLock` -/
  | unlock (k : Option After)
  /-- in the loop over the pools, before the flag of pool `i` is read -/
  | readFlag (i : ℕ) (k : Option After)
  /-- before the size of pool `i` is read -/
  | readSize (i : ℕ) (k : Option After)
  /-- in `schSignalWaitTimeOut` -/
  | sigWait (i : ℕ) (k : Option After)
  /-- in the loop of `schTerminateTaskSch`, before `SIGTERM` is raised -/
  | termRaise (x : ℕ) (status : BitVec 32) (k : After)
  /-- in `schWaitThread` -/
  | termJoin (x t : ℕ) (status : BitVec 32) (k : After)
  /-- before the mutex and the signal set are deleted -/
  | termClear (x : ℕ) (status : BitVec 32) (k : After)
  deriving DecidableEq

/-- What a step does to the mutex of the scheduler. -/
inductive MutexOp where
  | keep | lock | unlock

def Client.isIdle : Client → Bool
  | .idle _ => true
  | _ => false

/-- The return of `schWaitTask`. -/
def leaveWait (status : SchErrCode) : Option After → Client
  | none => .idle (some status)
  | some k => .termRaise 0 (.ofInt 32 status.toInt) k

/-- The return of `schTerminateTaskSch`. -/
def leaveTerminate (w : World) (status : SchErrCode) : After → World × Client
  | .ret => (w, .idle (some status))
  | .runFailed code => (w, .idle (some code))
  | .release =>
    if status ≠ .ok ∧ status ≠ .invalidState then (w, .idle (some status))
    else (w.release, .idle (some status))

/-- The call of `schTerminateTaskSch`. -/
def enterTerminate (w : World) (k : After) : World × Client :=
  match w.terminateGuard with
  | some status => leaveTerminate w status k
  | none => (w, .waitTest (some k))

/-- `pool->thread = NULL; pool->schRefThread = NULL`. -/
def World.unlink (w : World) (x : ℕ) : World :=
  w.setPool x { w.sch.pools x with thread := none, schRefThread := none }

/-- The mutex and the signal set of the pool are deleted. -/
def World.clear (w : World) (x : ℕ) : World :=
  { w.setPool x { w.sch.pools x with mutex := none, set := none } with
    mem := (w.mem.free (w.sch.pools x).mutex).free (w.sch.pools x).set }

/-- A step of a client inside a call, where `free` says whether the mutex of the
    scheduler is free and `r` is the result of the OS call, if there is one. -/
def Client.step (w : World) (free : Bool) (r : Errno) :
    Client → Option (World × Client × MutexOp)
  | .idle _ => none
  | .wakeTest p =>
    some (w, if World.needsWake (w.sch.pools p) then .wakeRaise p else .idle (some .ok), .keep)
  | .wakeRaise p =>
    let (w, status) := w.schRaiseThreadSignal (w.sch.pools p).thread schSignalContinue r
    some (w, .idle (some (if status.toInt = 0 then .signal else .ok)), .keep)
  | .waitTest k =>
    some (w, if hasBit w.sch.flag schFlagRunning then .lock k else leaveWait .invalidState k, .keep)
  | .lock k => if free then some (w, .running k, .lock) else none
  | .running k =>
    if hasBit w.sch.flag schFlagRunning then some (w, .unlock k, .keep)
    else some (w, .condWait k, .unlock)
  | .condWait k => if free then some (w, .running k, .lock) else none
  | .unlock k => some (w, .readFlag 0 k, .unlock)
  | .readFlag i k =>
    if i < w.sch.num then
      some (w, if hasBit (w.sch.pools i).flag schPoolSleep then .readSize i k else .sigWait i k,
        .keep)
    else some (w, leaveWait .ok k, .keep)
  | .readSize i k =>
    some (w, if (w.sch.pools i).size ≤ 0 then .readFlag (i + 1) k else .sigWait i k, .keep)
  | .sigWait i k =>
    -- a signal that is pending is taken, else the call times out
    some ({ w with inbox := w.inbox.erase schSignalDone }, .readFlag i k, .keep)
  | .termRaise x status k =>
    if x < w.sch.num then
      match (w.sch.pools x).thread with
      | some t =>
        let (w, code) := w.schRaiseThreadSignal (some t) sigTerm r
        some (w, .termJoin x t (status &&& .ofInt 32 code.toInt) k, .keep)
      | none => some (w, .termRaise (x + 1) status k, .keep)
    else
      let (w, cl) := leaveTerminate (w.setFlag (w.sch.flag &&& ~~~schFlagRunning))
        (if status ≠ 0 then .ok else .unknown) k
      some (w, cl, .keep)
  | .termJoin x t status k =>
    if w.Live t then none
    else
      let code := pthreadErrorCode2SchErrorCode r
      some (w.unlink x, .termClear x (status &&& .ofInt 32 code.toInt) k, .keep)
  | .termClear x status k =>
    let pool := w.sch.pools x
    let status := if pool.mutex.isSome then
      status &&& .ofInt 32 (pthreadErrorCode2SchErrorCode r).toInt else status
    let status := if pool.set.isSome then status &&& .ofInt 32 SchErrCode.ok.toInt else status
    some (w.clear x, .termRaise (x + 1) status k, .keep)

/-! ## Calls -/

/-- The calls of the library, with the results of the OS calls where they take
    one step. -/
inductive Call where
  | run (os : World.RunOs)
  | stop (r : ℕ → Errno)
  | submit (package : Option SchTaskPackage) (pPool : Option ℕ)
  | wait
  | terminate
  | release

/-- The first step of a call. -/
def Call.step (w : World) : Call → Option (World × Client)
  | .run os =>
    match w.schRunTaskSch os with
    | (w, .ret status) => some (w, .idle (some status))
    | (w, .failed status) => some (enterTerminate w (.runFailed status))
  | .stop r =>
    let (w, status) := w.schStopTaskSch r
    some (w, .idle (some status))
  | .submit package pPool =>
    (w.submitEnqueue package pPool).map fun
      | (w, _, .error e) => (w, .idle (some e))
      | (w, _, .ok p) => (w, .wakeTest p)
  | .wait => some (w, .waitTest none)
  | .terminate => some (enterTerminate w .ret)
  | .release => some (enterTerminate w .release)

/-! ## The system -/

variable {ι : Type} [DecidableEq ι]

/-- The scheduler with its clients; `holder` has the mutex of the scheduler. -/
structure Sys (ι : Type) where
  world : World
  client : ι → Client
  holder : Option ι

/-- A step of the thread `t`, the first step of a call by the client `c`, or
    another step of this client. -/
inductive Act (ι : Type) where
  | worker (t : ℕ) (a : WorkerAct)
  | call (c : ι) (f : Call)
  | client (c : ι) (r : Errno)

namespace Sys

/-- One step.  A worker unlocks the mutex of the scheduler, whoever has it. -/
def step (s : Sys ι) : Act ι → Option (Sys ι)
  | .worker t a =>
    (s.world.work t a).map fun w =>
      { s with world := w, holder := if (s.world.threads t).pc = .unlock then none else s.holder }
  | .call c f =>
    if (s.client c).isIdle then
      (f.step s.world).map fun (w, cl) =>
        { s with world := w, client := Function.update s.client c cl }
    else none
  | .client c r =>
    ((s.client c).step s.world s.holder.isNone r).map fun (w, cl, op) =>
      ⟨w, Function.update s.client c cl,
        match op with | .keep => s.holder | .lock => some c | .unlock => none⟩

end Sys

def sysMachine : Machine (Sys ι) (Act ι) := ⟨Sys.step⟩

/-- The system right after the first `schRunTaskSch`. -/
def Sys.start (w : World) : Sys ι := ⟨w, fun _ => .idle none, none⟩

/-! ## What a client can do -/

/-- The pool that a client looks at in `schWaitTask`, and what comes after. -/
def Client.scan : Client → Option (ℕ × Option After)
  | .waitTest k | .lock k | .running k | .condWait k | .unlock k => some (0, k)
  | .readFlag i k | .readSize i k | .sigWait i k => some (i, k)
  | _ => none

/-- Everything that a step of a client inside a call can do to the world and to
    its position. -/
inductive Client.Steps (w : World) (r : Errno) : Client → World → Client → Prop
  | wake {p : ℕ} (h : World.needsWake (w.sch.pools p)) : Steps w r (.wakeTest p) w (.wakeRaise p)
  | noWake {p : ℕ} (h : ¬ World.needsWake (w.sch.pools p)) :
      Steps w r (.wakeTest p) w (.idle (some .ok))
  | raise {p : ℕ} (status : SchErrCode) :
      Steps w r (.wakeRaise p)
        (w.schRaiseThreadSignal (w.sch.pools p).thread schSignalContinue r).1 (.idle (some status))
  | stay {cl cl' : Client} {i : ℕ} {k : Option After} (h : cl.scan = some (i, k))
      (h' : cl'.scan = some (i, k)) (inbox : Finset ℤ) :
      Steps w r cl { w with inbox := inbox } cl'
  | notRunning {k : Option After} (h : ¬ hasBit w.sch.flag schFlagRunning) :
      Steps w r (.waitTest k) w (leaveWait .invalidState k)
  | pass {i : ℕ} {k : Option After} (h : (w.sch.pools i).size = 0) :
      Steps w r (.readSize i k) w (.readFlag (i + 1) k)
  | waited {i : ℕ} {k : Option After} (h : w.sch.num ≤ i) :
      Steps w r (.readFlag i k) w (leaveWait .ok k)
  | sigTerm {x t : ℕ} {status : BitVec 32} {k : After} (hx : x < w.sch.num)
      (ht : (w.sch.pools x).thread = some t) (status' : BitVec 32) :
      Steps w r (.termRaise x status k) (w.schRaiseThreadSignal (some t) sigTerm r).1
        (.termJoin x t status' k)
  | skip {x : ℕ} {status : BitVec 32} {k : After} (hx : x < w.sch.num)
      (ht : (w.sch.pools x).thread = none) :
      Steps w r (.termRaise x status k) w (.termRaise (x + 1) status k)
  | terminated {x : ℕ} {status : BitVec 32} {k : After} (hx : w.sch.num ≤ x) (code : SchErrCode) :
      Steps w r (.termRaise x status k)
        (leaveTerminate (w.setFlag (w.sch.flag &&& ~~~schFlagRunning)) code k).1
        (leaveTerminate (w.setFlag (w.sch.flag &&& ~~~schFlagRunning)) code k).2
  | join {x t : ℕ} {status : BitVec 32} {k : After} (ht : ¬ w.Live t) (status' : BitVec 32) :
      Steps w r (.termJoin x t status k) (w.unlink x) (.termClear x status' k)
  | clear {x : ℕ} {status : BitVec 32} {k : After} (status' : BitVec 32) :
      Steps w r (.termClear x status k) (w.clear x) (.termRaise (x + 1) status' k)

theorem Client.step_cases {w w' : World} {free : Bool} {r : Errno} {cl cl' : Client} {op : MutexOp}
    (h : cl.step w free r = some (w', cl', op)) : Client.Steps w r cl w' cl' := by
  cases cl with
  | idle ret => cases h
  | wakeTest p =>
    cases h
    split_ifs with hw
    · exact .wake hw
    · exact .noWake hw
  | wakeRaise p => cases h; exact .raise _
  | waitTest k =>
    cases h
    split_ifs with hr
    · exact .stay (i := 0) rfl rfl _
    · exact .notRunning hr
  | lock k | condWait k =>
    simp only [Client.step] at h
    split_ifs at h
    cases h
    exact .stay (i := 0) rfl rfl _
  | running k =>
    simp only [Client.step] at h
    split_ifs at h
    · cases h; exact .stay (i := 0) rfl rfl _
    · cases h; exact .stay (i := 0) rfl rfl _
  | unlock k => cases h; exact .stay (i := 0) rfl rfl _
  | readFlag i k =>
    simp only [Client.step] at h
    split at h
    · cases h
      split_ifs
      · exact .stay (i := i) rfl rfl _
      · exact .stay (i := i) rfl rfl _
    · cases h; exact .waited (by omega)
  | readSize i k =>
    cases h
    split_ifs with hs
    · exact .pass (by omega)
    · exact .stay (i := i) rfl rfl _
  | sigWait i k => cases h; exact .stay (i := i) rfl rfl _
  | termRaise x status k =>
    simp only [Client.step] at h
    split at h
    next hx =>
      split at h
      next t ht => cases h; exact .sigTerm hx ht _
      next ht => cases h; exact .skip hx ht
    next hx => cases h; exact .terminated (by omega) _
  | termJoin x t status k =>
    simp only [Client.step] at h
    split_ifs at h with ht
    cases h
    exact .join ht _
  | termClear x status k => cases h; exact .clear _

theorem Client.Steps.not_idle {w w' : World} {r : Errno} {cl cl' : Client}
    (h : Client.Steps w r cl w' cl') : ¬ cl.isIdle := by
  cases h with
  | stay h => cases cl <;> simp_all [scan, isIdle]
  | _ => simp [isIdle]

/-! ## Steps as events of the lanes -/

namespace World

variable {cur : ℕ → ℕ} {n : ℕ} {w w' : World}

/-- A step that touches neither the pools nor the workers. -/
theorem Static.acts_frame (hs : Static cur n w)
    (hsch : w'.sch = { w.sch with flag := w'.sch.flag }) (ht : w'.threads = w.threads)
    (hl : w'.log = w.log) : Acts cur n w w' none none := by
  refine ⟨⟨by rw [hsch]; exact hs.num, ht ▸ hs.index, ht ▸ hs.exited,
    by rw [hsch]; exact hs.thread, by rw [hsch]; exact hs.order⟩, fun i hi => .inl (.of_eq ?_)⟩
  exact lane_congr (by rw [ht]) (by rw [hsch]) (by rw [hl])

/-- A step that changes one pool. -/
theorem Static.setPool (hs : Static cur n w) {x : ℕ} {pool : SchTaskPool} (mem : Mem)
    (hth : ∀ t, pool.thread = some t → (w.sch.pools x).thread = some t) :
    Static cur n { w.setPool x pool with mem := mem } ∧ ∀ i < n,
      World.lane { w.setPool x pool with mem := mem } (cur i) =
        if i = x then { w.lane (cur i) with pool := pool } else w.lane (cur i) := by
  refine ⟨⟨hs.num, hs.index, hs.exited, ?_, hs.order⟩, ?_⟩
  · intro i hi t ht
    by_cases hix : i = x
    · subst hix
      simp only [World.setPool, Function.update_self] at ht
      exact hs.thread i hi t (hth t ht)
    · simp only [World.setPool, Function.update_of_ne hix] at ht
      exact hs.thread i hi t ht
  · intro i hi
    split_ifs with hix
    · subst hix
      simp [World.lane, World.setPool, hs.index i hi]
    · refine lane_congr rfl ?_ rfl
      simp [World.setPool, hs.index i hi, hix]

theorem Static.unlink (hs : Static cur n w) (x : ℕ) : Static cur n (w.unlink x) ∧
    ∀ i < n, (w.unlink x).lane (cur i) = if i = x then
      { w.lane (cur i) with pool := { w.sch.pools x with thread := none, schRefThread := none } }
      else w.lane (cur i) :=
  hs.setPool w.mem (by simp)

theorem Static.clear (hs : Static cur n w) (x : ℕ) : Static cur n (w.clear x) ∧
    ∀ i < n, (w.clear x).lane (cur i) = if i = x then
      { w.lane (cur i) with pool := { w.sch.pools x with mutex := none, set := none } }
      else w.lane (cur i) :=
  hs.setPool _ fun _ ht => ht

theorem Static.acts_unlink (hs : Static cur n w) (x : ℕ) :
    Acts cur n w (w.unlink x) none (some x) := by
  refine ⟨(hs.unlink x).1, ?_⟩
  intro i hi
  rw [(hs.unlink x).2 i hi]
  split_ifs with hix
  · subst hix
    refine .inr (.inr ⟨rfl, .inl ?_⟩)
    rw [hs.lane hi]; rfl
  · exact .inl (.refl _)

theorem Static.acts_clear (hs : Static cur n w) (x : ℕ) :
    Acts cur n w (w.clear x) none (some x) := by
  refine ⟨(hs.clear x).1, ?_⟩
  intro i hi
  rw [(hs.clear x).2 i hi]
  split_ifs with hix
  · subst hix
    refine .inr (.inr ⟨rfl, .inr ?_⟩)
    rw [hs.lane hi]; rfl
  · exact .inl (.refl _)

theorem Static.acts_raise (hs : Static cur n w) (thread : Option ℕ) (signal : ℤ) (r : Errno) :
    Acts cur n w (w.schRaiseThreadSignal thread signal r).1 none none :=
  have h := hs.raise thread signal r
  h.1.acts_moves h.2.1

/-- `schStopTaskSch` raises the signal `CONTINUE`, nothing else. -/
theorem stop_raised (r : ℕ → Errno) (w : World) : Raised w (w.schStopTaskSch r).1 := by
  have h := raiseContinue_raised r w.sch.num 0 w
  have hsame : Raised w w := ⟨rfl, rfl, rfl, rfl, rfl, fun _ => .inl rfl⟩
  unfold schStopTaskSch
  split
  next => exact hsame
  next =>
    split
    next => exact hsame
    next =>
      split
      next heq => rw [heq] at h; exact h
      next heq => rw [heq] at h; exact h

/-- `schStopTaskSch` leaves the signal `CONTINUE` pending for the workers. -/
theorem stop_pending {r : ℕ → Errno} (hinit : hasBit w.sch.flag schFlagInit)
    (hrunning : hasBit w.sch.flag schFlagRunning) {i t : ℕ} (hi : i < w.sch.num)
    (hok : ∀ j < i, pthreadErrorCode2SchErrorCode (r j) = .ok) (hr : r i = .zero)
    (ht : (w.sch.pools i).thread = some t) :
    schSignalContinue ∈ ((w.schStopTaskSch r).1.threads t).pending := by
  have h := raiseContinue_pending (w := w) (i := 0) hi
    (fun m hm => by rw [Nat.zero_add]; exact hok m hm) (by rwa [Nat.zero_add])
    (by rwa [Nat.zero_add])
  simp only [schStopTaskSch, hinit, hrunning, not_true_eq_false, if_false]
  split
  next heq => rw [heq] at h; exact h
  next heq => rw [heq] at h; exact h

theorem Static.acts_raised (hs : Static cur n w) (h : Raised w w') : Acts cur n w w' none none :=
  (hs.raised h).1.acts_moves (hs.raised h).2

theorem Acts.refl (hs : Static cur n w) : Acts cur n w w none none :=
  hs.acts_moves fun _ _ => .refl _

end World

open World

/-- What comes after the `schTerminateTaskSch` in which the client is. -/
def Client.after : Client → Option After
  | .idle _ | .wakeTest _ | .wakeRaise _ => none
  | .waitTest k | .lock k | .running k | .condWait k | .unlock k => k
  | .readFlag _ k | .readSize _ k | .sigWait _ k => k
  | .termRaise _ _ k | .termJoin _ _ _ k | .termClear _ _ k => some k

/-- The client is not in `schReleaseTaskSch`. -/
def Client.Plain (cl : Client) : Prop := cl.after ≠ some .release

theorem Client.scan_after {cl : Client} {i : ℕ} {k : Option After} (h : cl.scan = some (i, k)) :
    cl.after = k := by
  cases cl <;> simp [scan] at h <;> simp [after, h]

theorem leaveWait_after (status : SchErrCode) (k : Option After) :
    (leaveWait status k).after = k := by
  cases k <;> rfl

theorem leaveTerminate_after (w : World) (status : SchErrCode) (k : After) :
    (leaveTerminate w status k).2.after = none := by
  cases k with
  | ret => rfl
  | runFailed code => rfl
  | release => simp only [leaveTerminate]; split_ifs <;> rfl

theorem leaveTerminate_world {k : After} (hk : k ≠ .release) (w : World) (status : SchErrCode) :
    (leaveTerminate w status k).1 = w := by
  cases k with
  | ret => rfl
  | runFailed code => rfl
  | release => exact absurd rfl hk

/-- The pool whose links the next step of the client changes. -/
def Client.cuts : Client → Option ℕ
  | .termJoin x _ _ _ | .termClear x _ _ => some x
  | _ => none

theorem Client.scan_cuts {cl : Client} {i : ℕ} {k : Option After} (h : cl.scan = some (i, k)) :
    cl.cuts = none := by
  cases cl <;> simp [scan] at h <;> rfl

/-- A step of a client inside a call is a move of the lanes. -/
theorem Client.Steps.acts {cur : ℕ → ℕ} {n : ℕ} {w w' : World} {r : Errno} {cl cl' : Client}
    (h : Client.Steps w r cl w' cl') (hs : Static cur n w) (hp : cl.Plain) :
    Acts cur n w w' none cl.cuts ∧ cl'.Plain := by
  unfold Plain at *
  cases h with
  | wake | noWake => exact ⟨.refl hs, by simp [after]⟩
  | raise => exact ⟨hs.acts_raise .., by simp [after]⟩
  | stay h h' =>
    rw [scan_after h] at hp
    rw [scan_cuts h]
    exact ⟨hs.acts_frame rfl rfl rfl, by rw [scan_after h']; exact hp⟩
  | notRunning | waited => exact ⟨.refl hs, by rw [leaveWait_after]; exact hp⟩
  | pass => exact ⟨.refl hs, hp⟩
  | sigTerm => exact ⟨hs.acts_raise .., hp⟩
  | skip => exact ⟨.refl hs, hp⟩
  | @terminated x status k hx code =>
    have hk : k ≠ .release := fun hk => hp (by simp [after, hk])
    rw [leaveTerminate_world hk, leaveTerminate_after]
    exact ⟨hs.acts_frame rfl rfl rfl, by simp⟩
  | join => exact ⟨hs.acts_unlink _, hp⟩
  | clear => exact ⟨hs.acts_clear _, hp⟩

namespace Sys

/-- The pool that accepts a package in the step. -/
def accepts (s : Sys ι) : Act ι → Option ℕ
  | .call _ (.submit package pPool) => s.world.acceptedBy package pPool
  | _ => none

/-- The pool whose links the step changes. -/
def cuts (s : Sys ι) : Act ι → Option ℕ
  | .client c _ => (s.client c).cuts
  | _ => none

end Sys

/-- The step neither starts nor releases the scheduler. -/
def Act.Tame : Act ι → Prop
  | .call _ (.run _) | .call _ .release => False
  | _ => True

instance : (a : Act ι) → Decidable a.Tame
  | .call _ (.run _) | .call _ .release => .isFalse id
  | .call _ (.stop _) | .call _ (.submit _ _) | .call _ .wait | .call _ .terminate
  | .worker _ _ | .client _ _ => .isTrue trivial

/-- The first step of `schSubmitTask` is the enqueue. -/
theorem Call.step_submit {w w' : World} {package : Option SchTaskPackage} {pPool : Option ℕ}
    {cl : Client} (h : (Call.submit package pPool).step w = some (w', cl)) :
    ∃ package' r, w.submitEnqueue package pPool = some (w', package', r) ∧
      cl = match r with | .error e => .idle (some e) | .ok p => .wakeTest p := by
  simp only [Call.step, Option.map_eq_some_iff] at h
  obtain ⟨⟨w₁, package', r⟩, hsub, h⟩ := h
  cases r with
  | error e => cases h; exact ⟨package', _, hsub, rfl⟩
  | ok p => cases h; exact ⟨package', _, hsub, rfl⟩

omit [DecidableEq ι] in
/-- A tame call is a move of the lanes, apart from the package that it adds. -/
theorem Call.acts {cur : ℕ → ℕ} {n : ℕ} {s : Sys ι} {w' : World} {c : ι} {f : Call} {cl' : Client}
    (h : f.step s.world = some (w', cl')) (hf : (Act.call c f).Tame) (hs : Static cur n s.world) :
    Acts cur n s.world w' (s.accepts (.call c f)) none ∧ cl'.Plain := by
  cases f with
  | run os => exact hf.elim
  | release => exact hf.elim
  | stop r => cases h; exact ⟨hs.acts_raised (stop_raised ..), by simp [Client.Plain, Client.after]⟩
  | wait => cases h; exact ⟨.refl hs, by simp [Client.Plain, Client.after]⟩
  | submit package pPool =>
    obtain ⟨package', r, h1, rfl⟩ := Call.step_submit h
    refine ⟨hs.acts_enqueue h1, ?_⟩
    cases r with
    | error e => simp [Client.Plain, Client.after]
    | ok p => simp [Client.Plain, Client.after]
  | terminate =>
    simp only [Call.step, enterTerminate, Option.some.injEq] at h
    split at h
    next => cases h; exact ⟨.refl hs, by simp [Client.Plain, Client.after]⟩
    next => cases h; exact ⟨.refl hs, by simp [Client.Plain, Client.after]⟩

namespace Sys

variable {s s' : Sys ι}

/-- A step of the thread `t`. -/
theorem step_worker {t : ℕ} {a : WorkerAct} (h : s.step (.worker t a) = some s') :
    ∃ w holder, s.world.work t a = some w ∧ s' = ⟨w, s.client, holder⟩ := by
  simp only [step, Option.map_eq_some_iff] at h
  obtain ⟨w, hw, rfl⟩ := h
  exact ⟨w, _, hw, rfl⟩

/-- The first step of a call. -/
theorem step_call {c : ι} {f : Call} (h : s.step (.call c f) = some s') :
    (s.client c).isIdle ∧ ∃ w cl, f.step s.world = some (w, cl) ∧
      s' = ⟨w, Function.update s.client c cl, s.holder⟩ := by
  simp only [step] at h
  split_ifs at h with hidle
  simp only [Option.map_eq_some_iff] at h
  obtain ⟨⟨w, cl⟩, hf, rfl⟩ := h
  exact ⟨hidle, w, cl, hf, rfl⟩

/-- Another step of a client inside a call. -/
theorem step_client {c : ι} {r : Errno} (h : s.step (.client c r) = some s') :
    ∃ w cl holder, Client.Steps s.world r (s.client c) w cl ∧
      s' = ⟨w, Function.update s.client c cl, holder⟩ := by
  simp only [step, Option.map_eq_some_iff] at h
  obtain ⟨⟨w, cl, op⟩, hw, rfl⟩ := h
  exact ⟨w, cl, _, Client.step_cases hw, rfl⟩

end Sys

/-- **Every tame step is an event of the lanes.** -/
theorem Sys.step_acts {cur : ℕ → ℕ} {n : ℕ} {s s' : Sys ι} {a : Act ι} (h : s.step a = some s')
    (ha : a.Tame) (hs : Static cur n s.world) (hp : ∀ c, (s.client c).Plain) :
    Acts cur n s.world s'.world (s.accepts a) (s.cuts a) ∧ ∀ c, (s'.client c).Plain := by
  cases a with
  | worker t a =>
    obtain ⟨w, holder, hw, rfl⟩ := step_worker h
    exact ⟨hs.acts_work hw, hp⟩
  | call c f =>
    obtain ⟨-, w, cl, hf, rfl⟩ := step_call h
    obtain ⟨h1, h2⟩ := Call.acts (c := c) hf ha hs
    refine ⟨h1, ?_⟩
    intro d
    by_cases hd : d = c
    · subst hd; simp [h2]
    · simp [hd, hp d]
  | client c r =>
    obtain ⟨w, cl, holder, hst, rfl⟩ := step_client h
    obtain ⟨h1, h2⟩ := hst.acts hs (hp c)
    refine ⟨h1, ?_⟩
    intro d
    by_cases hd : d = c
    · subst hd; simp [h2]
    · simp [hd, hp d]

end TaskSch
