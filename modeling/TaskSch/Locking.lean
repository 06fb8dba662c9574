/-
  Task scheduler formalization — who holds the mutex of the scheduler
  (`schWaitTaskWait` in src/taskSch.c, `schPoolExecutor` in src/sch.c).

  The clients lock the mutex in `schWaitTask`.  The workers never lock it, but
  each unlocks it whenever it finds no task, and waits with the mutex of its
  pool, which nobody locks, if its pool is marked as running at the start.

  * `lockMachine`: any number of clients in `schWaitTask` and the workers, with
    the owner of each mutex and the threads that are between `schMutexLock` and
    `schMutexUnLock`;
  * `disciplined_iff`: a run keeps the discipline, and then no two threads are
    between the two, iff no worker gets to its own unlock or to that wait.
-/
import TaskSch.System

namespace TaskSch

open World

/-! ## The mutexes -/

/-- A thread: a client or a worker. -/
inductive Who (ι : Type) where
  | client (c : ι)
  | worker (t : ℕ)
  deriving DecidableEq

/-- A mutex: `sch->mutex` or `pool->mutex` of pool `i`. -/
inductive Lock where
  | sch
  | pool (i : ℕ)
  deriving DecidableEq

/-- A call with a mutex.  The return from `schConditionalWait` is a `lock`. -/
inductive LockOp where
  | lock (m : Lock)
  | unlock (m : Lock)
  | condWait (m : Lock)

/-- A step of a worker, the call of `schWaitTask` by a client, or another step of
    this client. -/
inductive LockAct (ι : Type) where
  | worker (t : ℕ) (a : WorkerAct)
  | wait (c : ι)
  | client (c : ι) (r : Errno)

def LockAct.toAct {ι : Type} : LockAct ι → Act ι
  | .worker t a => .worker t a
  | .wait c => .call c .wait
  | .client c r => .client c r

/-- The call that the next step of the worker `t` makes. -/
def workerOp (w : World) (t : ℕ) : Option LockOp :=
  match (w.threads t).pc with
  | .sync =>
    if isRunning (w.sch.pools (w.threads t).index) then some (.condWait (.pool (w.threads t).index))
    else none
  | .unlock => some (.unlock .sch)
  | _ => none

/-- The call that the next step of a client makes. -/
def Client.lockOp (w : World) : Client → Option LockOp
  | .lock _ | .condWait _ => some (.lock .sch)
  | .running _ => if hasBit w.sch.flag schFlagRunning then none else some (.condWait .sch)
  | .unlock _ => some (.unlock .sch)
  | _ => none

variable {ι : Type}

/-- The system with the owners of the mutexes, and the threads that have locked
    the mutex of the scheduler and not unlocked it since. -/
structure LockSys (ι : Type) where
  sys : Sys ι
  owner : Lock → Option (Who ι)
  between : Who ι → Bool

namespace LockSys

/-- The call with a mutex that the step makes. -/
def op (s : LockSys ι) : LockAct ι → Option (Who ι × LockOp)
  | .worker t .go => (workerOp s.sys.world t).map fun op => (.worker t, op)
  | .client c _ => ((s.sys.client c).lockOp s.sys.world).map fun op => (.client c, op)
  | .worker _ _ | .wait _ => none

/-- The owners after a call of the thread `who`.  An unlock frees the mutex,
    whoever has it. -/
def record [DecidableEq ι] (s : LockSys ι) (who : Who ι) : LockOp → LockSys ι
  | .lock m =>
    { s with
      owner := Function.update s.owner m (some who)
      between := if m = .sch then Function.update s.between who true else s.between }
  | .unlock m | .condWait m =>
    { s with
      owner := Function.update s.owner m none
      between := if m = .sch then Function.update s.between who false else s.between }

def step [DecidableEq ι] (s : LockSys ι) (a : LockAct ι) : Option (LockSys ι) :=
  (s.sys.step a.toAct).map fun sys =>
    let s' := match s.op a with
      | some (who, op) => s.record who op
      | none => s
    { s' with sys := sys }

/-- A thread unlocks a mutex, or waits with it, only while it is the owner. -/
def Disciplined (s : LockSys ι) (a : LockAct ι) : Prop :=
  ∀ who m, s.op a = some (who, .unlock m) ∨ s.op a = some (who, .condWait m) →
    s.owner m = some who

/-- No two threads are between `schMutexLock` and `schMutexUnLock`. -/
def Exclusive (s : LockSys ι) : Prop :=
  ∀ who who', s.between who = true → s.between who' = true → who = who'

/-- No worker unlocks the mutex of the scheduler, or waits because its pool is
    marked as running. -/
def Quiet (s : LockSys ι) : LockAct ι → Prop
  | .worker t .go => (s.sys.world.threads t).pc ≠ .unlock ∧
      ((s.sys.world.threads t).pc = .sync →
        ¬ isRunning (s.sys.world.sch.pools (s.sys.world.threads t).index))
  | _ => True

/-- Nobody holds a mutex. -/
def start (w : World) : LockSys ι := ⟨.start w, fun _ => none, fun _ => false⟩

end LockSys

def lockMachine [DecidableEq ι] : Machine (LockSys ι) (LockAct ι) := ⟨LockSys.step⟩

/-! ## The clients -/

/-- The client is between `schMutexLock` and `schMutexUnLock`. -/
def Client.inside : Client → Bool
  | .running _ | .unlock _ => true
  | _ => false

theorem leaveWait_outside (status : SchErrCode) (k : Option After) :
    (leaveWait status k).inside = false := by
  cases k <;> rfl

theorem leaveTerminate_outside (w : World) (status : SchErrCode) (k : After) :
    (leaveTerminate w status k).2.inside = false := by
  cases k with
  | ret | runFailed => rfl
  | release =>
    simp only [leaveTerminate]
    split_ifs <;> rfl

/-- **A step of a client** and the mutex: it makes no call, or locks the mutex
    while it is free, or frees it from inside. -/
theorem Client.step_lock {w w' : World} {free : Bool} {r : Errno} {cl cl' : Client} {op : MutexOp}
    (h : cl.step w free r = some (w', cl', op)) :
    (cl.lockOp w = none ∧ op = .keep ∧ (cl'.inside = true → cl.inside = true)) ∨
      (cl.lockOp w = some (.lock .sch) ∧ op = .lock ∧ free = true) ∨
      ((cl.lockOp w = some (.unlock .sch) ∨ cl.lockOp w = some (.condWait .sch)) ∧ op = .unlock ∧
        cl.inside = true ∧ cl'.inside = false) := by
  have hkeep : cl.lockOp w = none → op = .keep → cl'.inside = false → (cl.lockOp w = none ∧
      op = .keep ∧ (cl'.inside = true → cl.inside = true)) := by
    intro h1 h2 h3
    exact ⟨h1, h2, fun h => by rw [h3] at h; cases h⟩
  cases cl with
  | idle ret => cases h
  | wakeTest p =>
    cases h
    refine .inl (hkeep rfl rfl ?_)
    split_ifs <;> rfl
  | wakeRaise p => cases h; exact .inl (hkeep rfl rfl rfl)
  | waitTest k =>
    cases h
    refine .inl (hkeep rfl rfl ?_)
    split_ifs
    · rfl
    · exact leaveWait_outside _ k
  | lock k | condWait k =>
    simp only [Client.step] at h
    split_ifs at h with hfree
    cases h
    exact .inr (.inl ⟨rfl, rfl, hfree⟩)
  | running k =>
    simp only [Client.step] at h
    split_ifs at h with hrun
    · cases h
      exact .inl ⟨if_pos hrun, rfl, fun _ => rfl⟩
    · cases h
      exact .inr (.inr ⟨.inr (if_neg hrun), rfl, rfl, rfl⟩)
  | unlock k => cases h; exact .inr (.inr ⟨.inl rfl, rfl, rfl, rfl⟩)
  | readFlag i k =>
    simp only [Client.step] at h
    split at h
    · cases h
      refine .inl (hkeep rfl rfl ?_)
      split_ifs <;> rfl
    · cases h
      exact .inl (hkeep rfl rfl (leaveWait_outside _ k))
  | readSize i k =>
    cases h
    refine .inl (hkeep rfl rfl ?_)
    split_ifs <;> rfl
  | sigWait i k => cases h; exact .inl (hkeep rfl rfl rfl)
  | termRaise x status k =>
    simp only [Client.step] at h
    split at h
    · split at h <;> cases h <;> exact .inl (hkeep rfl rfl rfl)
    · cases h
      exact .inl (hkeep rfl rfl (leaveTerminate_outside _ _ k))
  | termJoin x t status k =>
    simp only [Client.step] at h
    split_ifs at h
    cases h
    exact .inl (hkeep rfl rfl rfl)
  | termClear x status k => cases h; exact .inl (hkeep rfl rfl rfl)

/-- A client that frees a mutex is inside. -/
theorem Client.lockOp_inside {w : World} {cl : Client} {m : Lock}
    (h : cl.lockOp w = some (.unlock m) ∨ cl.lockOp w = some (.condWait m)) :
    cl.inside = true ∧ m = .sch := by
  cases cl with
  | unlock k => rcases h with h | h <;> cases h; exact ⟨rfl, rfl⟩
  | running k =>
    simp only [Client.lockOp] at h
    split_ifs at h
    · rcases h with h | h <;> cases h
    · rcases h with h | h <;> cases h
      exact ⟨rfl, rfl⟩
  | _ => rcases h with h | h <;> cases h

/-! ## The workers -/

/-- A worker only frees, and never locks. -/
theorem workerOp_frees {w : World} {t : ℕ} {op : LockOp} (h : workerOp w t = some op) :
    ∃ m, op = .unlock m ∨ op = .condWait m := by
  unfold workerOp at h
  split at h
  · split_ifs at h
    cases h
    exact ⟨_, .inr rfl⟩
  · cases h
    exact ⟨_, .inl rfl⟩
  · cases h

theorem workerOp_eq_none {w : World} {t : ℕ} :
    workerOp w t = none ↔ (w.threads t).pc ≠ .unlock ∧
      ((w.threads t).pc = .sync → ¬ isRunning (w.sch.pools (w.threads t).index)) := by
  unfold workerOp
  split
  next hpc => simp [hpc]
  next hpc => simp [hpc]
  next hsync hunlock => exact iff_of_true rfl ⟨hunlock, fun hpc => absurd hpc hsync⟩

/-- A worker at its unlock can only go on. -/
theorem work_unlock {w w' : World} {t : ℕ} {a : WorkerAct} (h : w.work t a = some w')
    (hpc : (w.threads t).pc = .unlock) : a = .go := by
  simp only [World.work, Option.map_eq_some_iff] at h
  obtain ⟨l, hl, -⟩ := h
  cases a with
  | go => rfl
  | mask | ret | sig => simp [Lane.work, World.lane, hpc] at hl

/-! ## The invariant -/

namespace LockSys

/-- The owner of the mutex of the scheduler is a client, and the only one that is
    inside; nobody has the mutex of a pool. -/
structure Inv (s : LockSys ι) : Prop where
  owner : s.owner .sch = s.sys.holder.map .client
  pool : ∀ i, s.owner (.pool i) = none
  inside : ∀ c, (s.sys.client c).inside = true → s.sys.holder = some c
  between : ∀ who, s.between who = true → s.owner .sch = some who

variable {s s' : LockSys ι} {a : LockAct ι}

theorem start_inv (w : World) : (start w : LockSys ι).Inv := by
  refine ⟨rfl, fun _ => rfl, ?_, ?_⟩
  · rintro c ⟨⟩
  · rintro who ⟨⟩

theorem Inv.exclusive (h : s.Inv) : s.Exclusive := by
  intro who who' hw hw'
  have heq := (h.between who hw).symm.trans (h.between who' hw')
  exact Option.some.inj heq

theorem Inv.not_worker (h : s.Inv) (m : Lock) (t : ℕ) : s.owner m ≠ some (.worker t) := by
  intro howner
  cases m with
  | sch =>
    rw [h.owner] at howner
    obtain ⟨c, -, hc⟩ := Option.map_eq_some_iff.1 howner
    cases hc
  | pool i =>
    rw [h.pool] at howner
    cases howner

/-- A worker that makes a call frees a mutex. -/
theorem op_worker {t : ℕ} {a : WorkerAct} {who : Who ι} {op : LockOp}
    (h : s.op (.worker t a) = some (who, op)) :
    who = .worker t ∧ ∃ m, op = .unlock m ∨ op = .condWait m := by
  cases a with
  | go =>
    obtain ⟨op', hop, he⟩ := Option.map_eq_some_iff.1 h
    cases he
    exact ⟨rfl, workerOp_frees hop⟩
  | mask | ret | sig => cases h

theorem quiet_worker {t : ℕ} {a : WorkerAct} :
    s.Quiet (.worker t a) ↔ s.op (.worker t a) = none := by
  cases a with
  | go =>
    simp only [Quiet, op, Option.map_eq_none_iff]
    exact workerOp_eq_none.symm
  | mask | ret | sig => exact iff_of_true trivial rfl

/-- The clients keep the discipline; a worker breaks it by each of its calls. -/
theorem Inv.disciplined_iff_quiet (h : s.Inv) : s.Disciplined a ↔ s.Quiet a := by
  cases a with
  | wait c =>
    refine iff_of_true ?_ trivial
    rintro who m (hop | hop) <;> cases hop
  | client c r =>
    refine iff_of_true ?_ trivial
    intro who m hop
    have hcall : ((s.sys.client c).lockOp s.sys.world = some (.unlock m) ∨
        (s.sys.client c).lockOp s.sys.world = some (.condWait m)) ∧ who = .client c := by
      rcases hop with hop | hop <;>
      · obtain ⟨op, hop, he⟩ := Option.map_eq_some_iff.1 hop
        cases he
        simp [hop]
    obtain ⟨hcall, rfl⟩ := hcall
    obtain ⟨hin, rfl⟩ := Client.lockOp_inside hcall
    rw [h.owner, h.inside c hin]
    rfl
  | worker t a =>
    rw [quiet_worker]
    constructor
    · intro hd
      by_contra hne
      obtain ⟨⟨who, op⟩, hop⟩ := Option.ne_none_iff_exists'.1 hne
      obtain ⟨rfl, m, rfl | rfl⟩ := op_worker hop
      · exact h.not_worker m t (hd _ m (.inl hop))
      · exact h.not_worker m t (hd _ m (.inr hop))
    · rintro hop who m (hcall | hcall)
      · rw [hop] at hcall; cases hcall
      · rw [hop] at hcall; cases hcall

variable [DecidableEq ι]

theorem Inv.step_worker (h : s.Inv) {t : ℕ} {a : WorkerAct} (hq : s.Quiet (.worker t a))
    (hs : s.step (.worker t a) = some s') : s'.Inv := by
  obtain ⟨sys, hsys, rfl⟩ := Option.map_eq_some_iff.1 hs
  simp only [LockAct.toAct, Sys.step, Option.map_eq_some_iff] at hsys
  obtain ⟨w, hw, rfl⟩ := hsys
  have hun : (s.sys.world.threads t).pc ≠ .unlock := by
    intro hpc
    cases work_unlock hw hpc
    exact hq.1 hpc
  simp only [quiet_worker.1 hq, if_neg hun]
  exact ⟨h.owner, h.pool, h.inside, h.between⟩

theorem Inv.others (h : s.Inv) {c c' : ι} {cl : Client} (hne : c' ≠ c)
    (hin : (Function.update s.sys.client c cl c').inside = true) : s.sys.holder = some c' := by
  rw [Function.update_of_ne hne] at hin
  exact h.inside c' hin

/-- A client moves, and does not get inside. -/
theorem Inv.moved (h : s.Inv) (w : World) {c : ι} {cl : Client}
    (hin : cl.inside = true → (s.sys.client c).inside = true) :
    Inv { s with sys := ⟨w, Function.update s.sys.client c cl, s.sys.holder⟩ } := by
  refine ⟨h.owner, h.pool, ?_, h.between⟩
  intro c' hc'
  by_cases hcc : c' = c
  · subst hcc
    simp only [Function.update_self] at hc'
    exact h.inside c' (hin hc')
  · exact h.others hcc hc'

/-- A client locks the mutex: it was free, so nobody was inside. -/
theorem Inv.locked (h : s.Inv) (w : World) (c : ι) (cl : Client) (hfree : s.sys.holder = none) :
    Inv { s.record (.client c) (.lock .sch) with
      sys := ⟨w, Function.update s.sys.client c cl, some c⟩ } := by
  refine ⟨by simp [record], ?_, ?_, ?_⟩
  · intro i
    simpa [record] using h.pool i
  · intro c' hc'
    by_cases hcc : c' = c
    · rw [hcc]
    · have hheld := h.others hcc hc'
      rw [hfree] at hheld
      cases hheld
  · intro who hwho
    by_cases hw : who = .client c
    · rw [hw]
      simp [record]
    · simp only [record, if_true, Function.update_of_ne hw] at hwho
      have howner := h.between who hwho
      rw [h.owner, hfree] at howner
      cases howner

/-- A client frees the mutex: it was the only one inside. -/
theorem Inv.freed (h : s.Inv) (w : World) {c : ι} {cl : Client} {op : LockOp}
    (hop : op = .unlock .sch ∨ op = .condWait .sch) (hin : (s.sys.client c).inside = true)
    (hout : cl.inside = false) :
    Inv { s.record (.client c) op with
      sys := ⟨w, Function.update s.sys.client c cl, none⟩ } := by
  have hholder := h.inside c hin
  have hrecord : s.record (.client c) op = { s with
      owner := Function.update s.owner .sch none
      between := Function.update s.between (.client c) false } := by
    rcases hop with rfl | rfl <;> rfl
  rw [hrecord]
  refine ⟨by simp, ?_, ?_, ?_⟩
  · intro i
    simpa using h.pool i
  · intro c' hc'
    by_cases hcc : c' = c
    · subst hcc
      simp only [Function.update_self, hout] at hc'
      cases hc'
    · have hheld := h.others hcc hc'
      rw [hholder] at hheld
      exact absurd (Option.some.inj hheld).symm hcc
  · intro who hwho
    by_cases hw : who = .client c
    · subst hw
      simp at hwho
    · simp only [Function.update_of_ne hw] at hwho
      have howner := h.between who hwho
      rw [h.owner, hholder] at howner
      exact absurd (Option.some.inj howner).symm hw

theorem Inv.step_wait (h : s.Inv) {c : ι} (hs : s.step (.wait c) = some s') : s'.Inv := by
  obtain ⟨sys, hsys, rfl⟩ := Option.map_eq_some_iff.1 hs
  obtain ⟨hidle, w, cl, hcall, rfl⟩ := Sys.step_call hsys
  cases hcall
  refine h.moved _ ?_
  intro hin
  cases hin

theorem Inv.step_client (h : s.Inv) {c : ι} {r : Errno} (hs : s.step (.client c r) = some s') :
    s'.Inv := by
  obtain ⟨sys, hsys, rfl⟩ := Option.map_eq_some_iff.1 hs
  simp only [LockAct.toAct, Sys.step, Option.map_eq_some_iff] at hsys
  obtain ⟨⟨w, cl, op⟩, hstep, rfl⟩ := hsys
  have hcall : s.op (.client c r) =
      ((s.sys.client c).lockOp s.sys.world).map fun op => (.client c, op) := rfl
  obtain ⟨hop, rfl, hin⟩ | ⟨hop, rfl, hfree⟩ | ⟨hop, rfl, hin, hout⟩ := Client.step_lock hstep
  · simp only [hcall, hop, Option.map_none]
    exact h.moved w hin
  · simp only [hcall, hop, Option.map_some]
    exact h.locked w c cl (by simpa using hfree)
  · rcases hop with hop | hop
    · simp only [hcall, hop, Option.map_some]
      exact h.freed w (.inl rfl) hin hout
    · simp only [hcall, hop, Option.map_some]
      exact h.freed w (.inr rfl) hin hout

/-- **One step** in which no worker makes a call. -/
theorem Inv.step (h : s.Inv) (hq : s.Quiet a) (hs : s.step a = some s') : s'.Inv := by
  cases a with
  | worker t a => exact h.step_worker hq hs
  | wait c => exact h.step_wait hs
  | client c r => exact h.step_client hs

theorem Inv.runs (h : s.Inv) (as : List (LockAct ι)) :
    lockMachine.Along Disciplined s as ∧ lockMachine.Throughout Exclusive s as ↔
      lockMachine.Along Quiet s as := by
  induction as generalizing s with
  | nil => exact iff_of_true ⟨trivial, h.exclusive⟩ trivial
  | cons a as ih =>
    constructor
    · rintro ⟨⟨hd, halong⟩, -, hthrough⟩
      have hq := h.disciplined_iff_quiet.1 hd
      exact ⟨hq, fun s' hs => (ih (h.step hq hs)).1 ⟨halong s' hs, hthrough s' hs⟩⟩
    · rintro ⟨hq, halong⟩
      have hrest := fun s' (hs : LockSys.step s a = some s') => (ih (h.step hq hs)).2 (halong s' hs)
      exact ⟨⟨h.disciplined_iff_quiet.2 hq, fun s' hs => (hrest s' hs).1⟩, h.exclusive,
        fun s' hs => (hrest s' hs).2⟩

end LockSys

/-- **When the discipline is kept.**  In a run of any number of clients in
    `schWaitTask` and of the workers, a mutex is only unlocked or waited with by
    its owner, and no two threads are between the lock and the unlock of the
    scheduler's, iff no worker unlocks it and none waits with that of its pool. -/
theorem disciplined_iff [DecidableEq ι] (w : World) (as : List (LockAct ι)) :
    lockMachine.Along LockSys.Disciplined (.start w) as ∧
        lockMachine.Throughout LockSys.Exclusive (.start w) as ↔
      lockMachine.Along LockSys.Quiet (.start w) as :=
  (LockSys.start_inv w).runs as

/-- A client has locked the mutex; the worker finds no task and unlocks it; then
    another client locks it as well. -/
theorem two_clients_inside :
    ¬ ∀ as : List (LockAct Bool),
      lockMachine.Along LockSys.Disciplined (.start (fresh 0 1 0 1 fun _ _ => .ofCallback 0)) as ∧
      lockMachine.Throughout LockSys.Exclusive
        (.start (fresh 0 1 0 1 fun _ _ => .ofCallback 0)) as := by
  intro h
  have hrun : (lockMachine.run (LockSys.start (fresh 0 1 0 1 fun _ _ => .ofCallback 0))
      [.wait false, .client false .zero, .client false .zero,
        .worker 0 (.mask .ok), .worker 0 .go, .worker 0 .go, .worker 0 .go, .worker 0 .go,
        .worker 0 .go, .wait true, .client true .zero, .client true .zero]).map
      (fun s => (s.between (.client false), s.between (.client true))) = some (true, true) := by
    decide +kernel
  obtain ⟨s, hs, he⟩ := Option.map_eq_some_iff.1 hrun
  simp only [Prod.mk.injEq] at he
  exact absurd ((h _).2.last hs _ _ he.1 he.2) (by decide)

end TaskSch
