/-
  Task scheduler formalization — one worker per pool, and restarts.

  * `one_worker`: if the scheduler is only started when it is not running, each
    pool has at most one live worker, which is the one that it knows of;
  * `restart_differs`: after a restart the pools do not know the thread that
    created the scheduler any more: `schTerminateTaskSch` forgets it and only
    `schCreateTaskPool` sets it.
-/
import TaskSch.Lifecycle

namespace TaskSch

open World

/-! ## Workers that stay -/

/-- The thread neither has exited nor is going to. -/
def Thread.Alive (th : Thread) : Prop := th.pc ≠ .finish ∧ th.pc ≠ .exited ∧ sigTerm ∉ th.pending

/-- The thread may have got the signal `CONTINUE`. -/
def Thread.Woken (th th' : Thread) : Prop :=
  th' = th ∨ th' = { th with pending := insert schSignalContinue th.pending }

theorem Thread.Alive.woken {th th' : Thread} (h : th.Alive) (hw : th.Woken th') : th'.Alive := by
  rcases hw with rfl | rfl
  · exact h
  · refine ⟨h.1, h.2.1, ?_⟩
    simp only [Finset.mem_insert, not_or]
    exact ⟨by decide, h.2.2⟩

theorem Lane.work_alive {l l' : Lane} {a : WorkerAct} {i : ℕ} (h : l.work a = some l')
    (ha : ∀ status, a = .mask status → 0 < status.toInt)
    (hl : Thread.Alive ⟨i, l.pc, l.pending⟩) : Thread.Alive ⟨i, l'.pc, l'.pending⟩ := by
  obtain ⟨h1, h2, h3⟩ := hl
  by_cases hpc : l.pc = .mask
  · cases a with
    | mask status =>
      have := ha status rfl
      simp only [work, hpc, if_true, if_neg (show ¬ status.toInt ≤ 0 by omega)] at h
      cases h
      exact ⟨by simp, by simp, h3⟩
    | go | ret d | sig signal => simp [work, hpc] at h
  · cases work_cases h with
    | mask hm | maskFailed hm => exact absurd hm hpc
    | term _ ht => exact absurd ht h3
    | finish hf => exact absurd hf h1
    | again | cont => exact ⟨by simp, by simp, fun hm => h3 (Finset.mem_of_mem_erase hm)⟩
    | _ => exact ⟨by simp, by simp, h3⟩

/-- Outside of the loop of `schTerminateTaskSch`, a client only sends the signal
    `CONTINUE`. -/
theorem Client.Steps.woken {w w' : World} {r : Errno} {cl cl' : Client}
    (h : Client.Steps w r cl w' cl') (hcl : ¬ cl.joining) (t : ℕ) :
    (w.threads t).Woken (w'.threads t) := by
  cases h with
  | wake | noWake | stay | notRunning | pass | waited => exact .inl rfl
  | raise => exact (raised_one w _ r).thread t
  | sigTerm | skip | terminated | join | clear => exact absurd rfl hcl

theorem Call.woken {ι : Type} {c : ι} {w w' : World} {f : Call} {cl : Client}
    (h : f.step w = some (w', cl)) (hf : (Act.call c f).Tame) (t : ℕ) :
    (w.threads t).Woken (w'.threads t) := by
  cases f with
  | run os => exact hf.elim
  | release => exact hf.elim
  | stop r => cases h; exact (stop_raised r w).thread t
  | wait => cases h; exact .inl rfl
  | submit package pPool =>
    obtain ⟨package', r, h1, -⟩ := Call.step_submit h
    obtain ⟨order, -, ⟨e, -, -, rfl⟩ | ⟨p, pkg, pkg', pool, -, -, -, rfl⟩⟩ :=
      submitEnqueue_cases h1
    · exact .inl rfl
    · exact .inl rfl
  | terminate =>
    simp only [Call.step, enterTerminate, Option.some.injEq] at h
    split at h <;> cases h <;> exact .inl rfl

/-! ## One worker per pool -/

section OneWorker

variable {ι : Type} {c₀ : ι} {n : ℕ} {s s' : Sys ι}

/-- The signal mask of a worker can be set. -/
def Act.MaskOk : Act ι → Prop
  | .worker _ (.mask status) => 0 < status.toInt
  | _ => True

instance : (a : Act ι) → Decidable a.MaskOk
  | .worker _ (.mask status) => inferInstanceAs (Decidable (0 < status.toInt))
  | .worker _ .go | .worker _ (.ret _) | .worker _ (.sig _) | .call _ _ | .client _ _ =>
    .isTrue trivial

/-- Each pool has at most one live worker, which is the one that it knows of.
    While the scheduler is running, it has one, up to the loop of
    `schTerminateTaskSch` that stops the workers one after the other. -/
structure OneWorker (c₀ : ι) (n : ℕ) (s : Sys ι) : Prop where
  unique : ∀ t t', s.world.Live t → s.world.Live t' →
    (s.world.threads t).index = (s.world.threads t').index → t = t'
  known : ∀ t, s.world.Live t → (s.world.threads t).index < n ∧
    (s.world.sch.pools (s.world.threads t).index).thread = some t
  running : hasBit s.world.sch.flag schFlagRunning → ¬ (s.client c₀).joining →
    ∀ i < n, ∃ t, s.world.Live t ∧ (s.world.threads t).index = i

/-- The links of the pools, and no worker exits before it is told to. -/
def Staffed (c₀ : ι) (n : ℕ) (s : Sys ι) : Prop :=
  ∃ before cur, Controlled c₀ before cur n s ∧
    (hasBit s.world.sch.flag schFlagRunning → ¬ (s.client c₀).joining →
      ∀ i < n, (s.world.threads (cur i)).Alive)

/-- A live thread is the one that its pool knows of. -/
theorem Controlled.known {before : Prop} {cur : ℕ → ℕ} (h : Controlled c₀ before cur n s) {t : ℕ}
    (ht : s.world.Live t) : ∃ i < n, t = cur i ∧ (s.world.sch.pools i).thread = some t := by
  obtain ⟨i, hi, rfl⟩ : ∃ i < n, t = cur i := by
    by_contra hne
    push Not at hne
    exact ht (h.static.exited t fun i hi => (hne i hi).symm)
  refine ⟨i, hi, rfl, ?_⟩
  have hpc : (s.world.lane (cur i)).pc ≠ .exited := ht
  have hlink : (s.world.lane (cur i)).pool.thread = some (cur i) := by
    by_contra hth
    by_cases hr : hasBit s.world.sch.flag schFlagRunning
    · exact hpc ((h.up hr i hi).exited hth)
    · exact hpc ((h.down hr).2 i hi).1
  rwa [h.static.lane hi] at hlink

theorem Staffed.oneWorker (h : Staffed c₀ n s) : OneWorker c₀ n s := by
  obtain ⟨before, cur, hc, halive⟩ := h
  refine ⟨?_, ?_, ?_⟩
  · intro t t' ht ht' he
    obtain ⟨i, hi, rfl, -⟩ := hc.known ht
    obtain ⟨j, hj, rfl, -⟩ := hc.known ht'
    rw [hc.static.index i hi, hc.static.index j hj] at he
    rw [he]
  · intro t ht
    obtain ⟨i, hi, rfl, hth⟩ := hc.known ht
    rw [hc.static.index i hi]
    exact ⟨hi, hth⟩
  · intro hr hout i hi
    exact ⟨cur i, (halive hr hout i hi).2.1, hc.static.index i hi⟩

variable [DecidableEq ι]

/-- A step other than a start, outside of the loop of `schTerminateTaskSch`. -/
theorem Controlled.alive {before : Prop} {cur : ℕ → ℕ} (h : Controlled c₀ before cur n s)
    (hout : ¬ (s.client c₀).joining) {a : Act ι} (ht : a.Tame) (hm : a.MaskOk)
    (hstep : s.step a = some s') {i : ℕ} (hal : (s.world.threads (cur i)).Alive) :
    (s'.world.threads (cur i)).Alive := by
  cases a with
  | worker t a =>
    obtain ⟨w, holder, hw, rfl⟩ := Sys.step_worker hstep
    obtain ⟨l, inbox, hl, rfl⟩ := work_eq hw
    by_cases hti : cur i = t
    · subst hti
      simp only [setPool, setThread, setLog, Function.update_self]
      exact Lane.work_alive hl (fun status hs => by subst hs; exact hm) hal
    · simp only [setPool, setThread, setLog, Function.update_of_ne hti]
      exact hal
  | call c f =>
    obtain ⟨hidle, w, cl, hf, rfl⟩ := Sys.step_call hstep
    exact hal.woken (Call.woken hf ht _)
  | client c r =>
    obtain ⟨w, cl, holder, hst, rfl⟩ := Sys.step_client hstep
    refine hal.woken (hst.woken ?_ _)
    by_cases hc : c = c₀
    · subst hc; exact hout
    · have hnone := h.others c hc
      cases hcl : s.client c <;> simp_all [Client.joining, Client.after]

theorem Staffed.step (h : Staffed c₀ n s) {a : Act ι}
    (ha : a.ByController c₀ s ∧ a.MaskOk ∧ a.NoSecondStart s) (hstep : s.step a = some s') :
    Staffed c₀ n s' := by
  obtain ⟨before, cur, hc, halive⟩ := h
  obtain ⟨hby, hmask, hno⟩ := ha
  rcases hby.tame_or_run with ht | ⟨os, rfl, hok⟩
  · refine ⟨before, cur, hc.step_tame ht hby hstep, ?_⟩
    intro hr hout i hi
    obtain ⟨hr', hout'⟩ := hc.leaves ht hstep hr hout
    exact hc.alive hout' ht hmask hstep (halive hr' hout' i hi)
  · obtain ⟨hc', -, -, hlanes⟩ := hc.run hok hno hstep
    refine ⟨True, _, hc', ?_⟩
    intro _ _ i hi
    obtain ⟨m, set, pending, hsub, hlane⟩ := hlanes i hi
    rw [hc'.static.lane hi] at hlane
    injection hlane with _ hpc hpend _
    refine ⟨by rw [hpc]; simp, by rw [hpc]; simp, ?_⟩
    intro hmem
    rw [hpend] at hmem
    exact absurd (Finset.mem_singleton.1 (hsub hmem)) (by decide)

/-- **One worker per pool**: if the scheduler is not started while it is
    running, each pool has at most one live worker, which is the one that it
    knows of, and exactly one while the scheduler is running. -/
theorem one_worker (self n : ℕ) (flag : Flag) (maxPackagesPool : UInt32)
    (slot : ℕ → ℕ → SchTaskPackage) (c₀ : ι) (as : List (Act ι)) (s : Sys ι)
    (hrun : sysMachine.run (.start (created self n flag maxPackagesPool slot)) as = some s)
    (has : sysMachine.Along (fun s a => a.ByController c₀ s ∧ a.MaskOk ∧ a.NoSecondStart s)
      (.start (created self n flag maxPackagesPool slot)) as) : OneWorker c₀ n s := by
  have hc := controlled_created self n flag maxPackagesPool slot c₀
  have hstart : Staffed c₀ n (.start (created self n flag maxPackagesPool slot)) := by
    exact ⟨False, id, hc, fun hr =>
      absurd hr (created_flag self n flag maxPackagesPool slot).2⟩
  exact (Machine.run_along_inv (fun _ _ _ h ha hs => h.step ha hs) has hrun hstart).oneWorker

end OneWorker

/-- After a start with one pool: the worker finds no task, then the scheduler is
    terminated. -/
def shortCycle : List (Act Unit) :=
  [.worker 0 (.mask .ok), .worker 0 .go, .worker 0 .go, .worker 0 .go, .worker 0 .go,
    .call () .terminate, .client () .zero, .client () .zero, .client () .zero, .client () .zero,
    .client () .zero, .client () .zero, .client () .zero, .client () .zero,
    .worker 0 .go, .worker 0 .go, .worker 0 .go, .worker 0 (.sig sigTerm), .worker 0 .go,
    .client () .zero, .client () .zero, .client () .zero]

/-- A start, a termination and another start. -/
theorem one_worker_restart : ∃ s : Sys Unit,
    sysMachine.run (.start (created 0 1 0 1 fun _ _ => .ofCallback 0))
      (.call () (.run .allOk) :: shortCycle ++ [.call () (.run .allOk)]) = some s ∧
    OneWorker () 1 s := by
  obtain ⟨s, hs⟩ := Option.isSome_iff_exists.1 (show (sysMachine.run
    (.start (created 0 1 0 1 fun _ _ => .ofCallback 0))
      (.call () (.run .allOk) :: shortCycle ++ [.call () (.run .allOk)])).isSome by decide +kernel)
  exact ⟨s, hs, one_worker 0 1 0 1 _ () _ s hs (by decide +kernel)⟩

/-- A second start gives the pool a second worker. -/
theorem second_start_orphan :
    ¬ ∀ (as : List (Act Unit)) (s : Sys Unit),
      sysMachine.run (.start (created 0 1 0 1 fun _ _ => .ofCallback 0)) as = some s →
      sysMachine.Along (fun s a => a.ByController () s ∧ a.MaskOk)
        (.start (created 0 1 0 1 fun _ _ => .ofCallback 0)) as → OneWorker () 1 s := by
  intro h
  have hlive : (sysMachine.run (.start (created 0 1 0 1 fun _ _ => .ofCallback 0))
      [.call () (.run .allOk), .call () (.run .allOk)]).map
      (fun s : Sys Unit => ((s.world.threads 0).pc, (s.world.threads 1).pc,
        (s.world.threads 0).index, (s.world.threads 1).index)) = some (.mask, .mask, 0, 0) := by
    decide +kernel
  obtain ⟨s, hs, he⟩ := Option.map_eq_some_iff.1 hlive
  simp only [Prod.mk.injEq] at he
  obtain ⟨h0, h1, hi0, hi1⟩ := he
  have hone := h _ s hs (by decide +kernel)
  have := hone.unique 0 1 (by rw [Live, h0]; simp) (by rw [Live, h1]; simp) (by rw [hi0, hi1])
  cases this

/-! ## Restarts -/

section Restart

variable {ι : Type} [DecidableEq ι] {c₀ : ι} {n : ℕ} {s s' : Sys ι}

/-- A start, any steps, and the end of the termination, with all queues
    drained. -/
def Cycle (c₀ : ι) (n : ℕ) (s s' : Sys ι) : Prop :=
  ∃ s₁ as, s.step (.call c₀ (.run .allOk)) = some s₁ ∧ sysMachine.run s₁ as = some s' ∧
    sysMachine.Along (fun s a => a.Tame ∧ a.ByController c₀ s) s₁ as ∧
    ¬ hasBit s'.world.sch.flag schFlagRunning ∧ ∀ i < n, (s'.world.sch.pools i).size = 0

/-- After a start of the scheduler, `w'` is as `w` in everything that the
    workers and `schSubmitTask` branch on or signal to; `creator` is the thread
    that created the scheduler. -/
structure SameStart (creator n : ℕ) (w w' : World) : Prop where
  flag : w'.sch.flag = w.sch.flag
  poolFlag : ∀ i < n, (w'.sch.pools i).flag = (w.sch.pools i).flag
  links : ∀ i < n, (w'.sch.pools i).thread.isSome ∧ (w'.sch.pools i).mutex.isSome ∧
    (w'.sch.pools i).set.isSome
  schRefThread : ∀ i < n, (w'.sch.pools i).schRefThread = some creator
  size : ∀ i < n, (w'.sch.pools i).size = 0

/-- The first start is as it should be. -/
theorem sameStart_first (self n : ℕ) (flag : Flag) (maxPackagesPool : UInt32)
    (slot : ℕ → ℕ → SchTaskPackage) :
    SameStart self n (fresh self n flag maxPackagesPool slot)
      (fresh self n flag maxPackagesPool slot) := by
  have hpool : ∀ i < n, ∃ m set, (fresh self n flag maxPackagesPool slot).sch.pools i =
      (SchTaskPool.create self i maxPackagesPool (some (7 + i)) (slot i)).linked i m set :=
    fun i hi => (fresh_pool self flag maxPackagesPool slot hi).1
  refine ⟨rfl, fun _ _ => rfl, ?_, ?_, ?_⟩
  · intro i hi
    obtain ⟨m, set, hp⟩ := hpool i hi
    rw [hp]
    exact ⟨rfl, rfl, rfl⟩
  · intro i hi
    obtain ⟨m, set, hp⟩ := hpool i hi
    rw [hp]; rfl
  · intro i hi
    obtain ⟨m, set, hp⟩ := hpool i hi
    rw [hp]; rfl

/-- After a cycle, the pools have lost the handle of the scheduler's thread. -/
theorem Cycle.controlled {before : Prop} {cur : ℕ → ℕ} (hcycle : Cycle c₀ n s s')
    (h : Controlled c₀ before cur n s) (hdown : ¬ hasBit s.world.sch.flag schFlagRunning) :
    ∃ cur', Controlled c₀ True cur' n s' ∧ ¬ hasBit s'.world.sch.flag schFlagRunning := by
  obtain ⟨s₁, as, hstart, hrun, has, hdown', -⟩ := hcycle
  obtain ⟨h₁, -⟩ := h.run (startOk_allOk _) hdown hstart
  have h' := Machine.run_along_inv (fun _ _ _ h ha hs => h.step_tame ha.1 ha.2 hs) has hrun h₁
  exact ⟨_, h', hdown'⟩

theorem cycles_controlled {before : Prop} {cur : ℕ → ℕ} (h : Controlled c₀ before cur n s)
    (hdown : ¬ hasBit s.world.sch.flag schFlagRunning)
    (hist : Relation.TransGen (Cycle c₀ n) s s') :
    ∃ cur', Controlled c₀ True cur' n s' ∧ ¬ hasBit s'.world.sch.flag schFlagRunning := by
  induction hist with
  | single hc => exact hc.controlled h hdown
  | tail _ hc ih =>
    obtain ⟨cur', h', hdown'⟩ := ih
    exact hc.controlled h' hdown'

/-- **A restart is never like the first start**: however often the scheduler was
    started and terminated before, its pools have no handle of the thread that
    created it. -/
theorem restart_differs (self n : ℕ) (hn : 0 < n) (flag : Flag) (maxPackagesPool : UInt32)
    (slot : ℕ → ℕ → SchTaskPackage) (c₀ : ι) (s s' : Sys ι)
    (hist : Relation.TransGen (Cycle c₀ n) (.start (created self n flag maxPackagesPool slot)) s)
    (hstart : s.step (.call c₀ (.run .allOk)) = some s') :
    ¬ SameStart self n (fresh self n flag maxPackagesPool slot) s'.world := by
  have hc := controlled_created self n flag maxPackagesPool slot c₀
  obtain ⟨cur, h, hdown⟩ :=
    cycles_controlled hc (created_flag self n flag maxPackagesPool slot).2 hist
  have hnone : (s.world.sch.pools 0).schRefThread = none := by
    have := ((h.down hdown).2 0 hn).2.2.2.2 trivial
    rwa [h.static.lane hn] at this
  obtain ⟨h', -, -, hlanes⟩ := h.run (startOk_allOk _) hdown hstart
  obtain ⟨m, set, pending, -, hlane⟩ := hlanes 0 hn
  rw [h'.static.lane hn] at hlane
  injection hlane with hpool _ _ _
  intro hsame
  have href := hsame.schRefThread 0 hn
  rw [hpool] at href
  simp only [SchTaskPool.linked, hnone] at href
  cases href

end Restart

/-- One short cycle. -/
theorem shortCycle_cycle : ∃ s s' : Sys Unit,
    Cycle () 1 (.start (created 0 1 0 1 fun _ _ => .ofCallback 0)) s ∧
    s.step (.call () (.run .allOk)) = some s' ∧
    (s'.world.sch.pools 0).schRefThread = none := by
  have heval : ((Sys.start (created 0 1 0 1 fun _ _ => .ofCallback 0)).step
      (.call () (.run .allOk))).bind (fun s₁ =>
        (sysMachine.run s₁ shortCycle).bind fun s => (s.step (.call () (.run .allOk))).map fun s' =>
          (decide (sysMachine.Along (fun s a => a.Tame ∧ a.ByController () s) s₁ shortCycle),
            hasBit s.world.sch.flag schFlagRunning, (s.world.sch.pools 0).size,
            (s'.world.sch.pools 0).schRefThread)) = some (true, false, 0, none) := by
    decide +kernel
  simp only [Option.bind_eq_some_iff, Option.map_eq_some_iff, Prod.mk.injEq] at heval
  obtain ⟨s₁, h1, s, h2, s', h3, h4, h5, h6, h7⟩ := heval
  refine ⟨s, s', ⟨s₁, shortCycle, h1, h2, of_decide_eq_true h4, by simp [h5], ?_⟩, h3, h7⟩
  intro i hi
  rw [show i = 0 by omega]; exact h6

/-- The second start of a scheduler with one pool. -/
theorem restart_differs_once : ∃ s s' : Sys Unit,
    Cycle () 1 (.start (created 0 1 0 1 fun _ _ => .ofCallback 0)) s ∧
    s.step (.call () (.run .allOk)) = some s' ∧
    ¬ SameStart 0 1 (fresh 0 1 0 1 fun _ _ => .ofCallback 0) s'.world := by
  obtain ⟨s, s', hc, hs, -⟩ := shortCycle_cycle
  exact ⟨s, s', hc, hs, restart_differs 0 1 (by decide) 0 1 _ () s s' (.single hc) hs⟩

/-- The second start leaves the pool without the handle that the first one had. -/
theorem restart_loses_handle :
    ¬ ∀ s s' : Sys Unit,
      Relation.TransGen (Cycle () 1) (.start (created 0 1 0 1 fun _ _ => .ofCallback 0)) s →
      s.step (.call () (.run .allOk)) = some s' →
      SameStart 0 1 (fresh 0 1 0 1 fun _ _ => .ofCallback 0) s'.world := by
  intro h
  obtain ⟨s, s', hc, hs, hnone⟩ := shortCycle_cycle
  have href := (h s s' (.single hc) hs).schRefThread 0 (by decide)
  rw [hnone] at href
  cases href

end TaskSch
