/-
  Task scheduler formalization — the workers come to rest.

  The xor flags of the pools and the signals that are lost or merged could make
  one think that the workers chase each other for ever.  They do not: apart
  from the two loops in which a worker waits actively (`while (isRunning(pool))`
  and a `sigwait` that fails), every step of a worker is paid for, by the start
  of the worker, by a package or by a signal.

  * `Lane.left`: the steps that a worker takes before it is at rest;
  * `worker_steps_bounded`: the steps of the workers in any run.
-/
import TaskSch.Lifecycle

namespace TaskSch

open World

/-! ## One worker -/

/-- The steps up to `schSignalWait` or the end, if no package is left. -/
def Pc.left : Pc → ℕ
  | .mask => 8
  | .sync => 7
  | .init | .wake | .callback _ => 6
  | .fetch _ => 7
  | .check => 5
  | .dequeue | .idle => 4
  | .unlock => 3
  | .idleAgain => 2
  | .done | .finish => 1
  | .wait | .exited => 0

namespace Lane

variable {l l' : Lane}

/-- The steps that the worker takes at most before it is at rest: each package
    costs four of them, and each signal up to seven. -/
def left (l : Lane) : ℕ := l.pc.left + 4 * l.pool.size + 7 * l.pending.card

/-- `1` for a step in which the worker does not wait actively. -/
def effort (l : Lane) : WorkerAct → ℕ
  | .go => if l.pc = .sync ∧ isRunning l.pool then 0 else 1
  | .sig signal => if signal = -1 then 0 else 1
  | .mask _ | .ret _ => 1

theorem effort_le (l : Lane) (a : WorkerAct) : l.effort a ≤ 1 := by
  cases a with
  | go | sig => simp only [effort]; split_ifs <;> simp
  | mask | ret => exact le_rfl

/-- A signal that is taken is paid for. -/
theorem left_sig (signal : ℤ) (h : l.work (.sig signal) = some l') :
    l.effort (.sig signal) + l'.left ≤ l.left := by
  simp only [work] at h
  split_ifs at h with hpc
  cases h
  obtain ⟨hpc, hsig⟩ := hpc
  have hwait : Pc.left .wait = 0 := rfl
  have hnext : (onSignal signal).left ≤ 6 := by
    unfold onSignal
    split_ifs <;> decide
  rcases hsig with rfl | ⟨-, hp⟩
  · have hcard := Finset.card_le_card (Finset.erase_subset (-1) l.pending)
    have hagain : (onSignal (-1)).left = 0 := by decide
    simp only [effort, left, hagain, hwait, hpc, if_true]
    omega
  · have hcard := Finset.card_erase_add_one hp
    have heff := l.effort_le (.sig signal)
    simp only [left, hwait, hpc]
    omega

/-- Every step that is not a wait takes one from what is left. -/
theorem work_left {a : WorkerAct} (hb : l.Books) (h : l.work a = some l') :
    l.effort a + l'.left ≤ l.left := by
  have heff := l.effort_le a
  by_cases hsig : ∃ signal, a = .sig signal
  · obtain ⟨signal, rfl⟩ := hsig
    exact left_sig signal h
  cases work_cases h with
  | sync hpc hr =>
    have hzero : l.effort a = 0 := by
      cases a with
      | go => simp only [effort, hpc, hr, and_self, if_true]
      | sig signal => exact absurd ⟨signal, rfl⟩ hsig
      | mask status => simp [work, hpc] at h
      | ret taskInvoke => simp [work, hpc] at h
    simp only [left, hpc]
    omega
  | dequeue hpc hq =>
    have hs := hb.nonempty hpc
    obtain ⟨rfl, -⟩ := hb.dequeue hpc hq
    simp only [left, hpc, Pc.left, SchTaskPool.popped]
    omega
  | again hpc signal hc | cont hpc hc | term hpc hc =>
    cases a with
    | sig signal => exact absurd ⟨signal, rfl⟩ hsig
    | go | mask | ret => simp [work, hpc] at h
  | idle hpc | idleAgain hpc | wake hpc | finish hpc =>
    simp only [left, hpc, Pc.left, setPoolIdle, setPoolRunning, setPoolTerminated]
    omega
  | mask hpc | maskFailed hpc | synced hpc | init hpc | some hpc | empty hpc | fetch hpc | ret hpc
  | unlock hpc | done hpc =>
    simp only [left, hpc, Pc.left]
    omega

/-- A package adds its four steps. -/
theorem submit_left {package : SchTaskPackage} (hb : l.Books)
    (h : l.step (.submit package) = some l') : l'.left = l.left + 4 := by
  obtain ⟨-, rfl⟩ := step_submit hb.ring h
  simp only [left, submitted, SchTaskPool.submitted, SchTaskPool.pushed]
  ring

/-- A signal adds at most seven. -/
theorem raise_left (l : Lane) (signal : ℤ) :
    left { l with pending := insert signal l.pending } ≤ l.left + 7 := by
  have hcard := Finset.card_insert_le signal l.pending
  simp only [left]
  omega

end Lane

/-! ## All workers -/

namespace World

variable {cur : ℕ → ℕ} {n : ℕ} {w w' : World}

/-- The steps that the workers take at most before all of them are at rest. -/
def toGo (cur : ℕ → ℕ) (n : ℕ) (w : World) : ℕ := ∑ i ∈ Finset.range n, (w.lane (cur i)).left

theorem toGo_congr (h : ∀ i < n, w'.lane (cur i) = w.lane (cur i)) :
    toGo cur n w' = toGo cur n w :=
  Finset.sum_congr rfl fun i hi => by rw [h i (Finset.mem_range.1 hi)]

/-- Only the lane of pool `i` changes. -/
theorem toGo_one {i : ℕ} (hi : i < n)
    (h : ∀ j < n, j ≠ i → w'.lane (cur j) = w.lane (cur j)) :
    toGo cur n w' + (w.lane (cur i)).left = toGo cur n w + (w'.lane (cur i)).left := by
  have hmem := Finset.mem_range.2 hi
  have hrest : ∑ j ∈ (Finset.range n).erase i, (w'.lane (cur j)).left =
      ∑ j ∈ (Finset.range n).erase i, (w.lane (cur j)).left := by
    refine Finset.sum_congr rfl ?_
    intro j hj
    rw [h j (Finset.mem_range.1 (Finset.mem_of_mem_erase hj)) (Finset.ne_of_mem_erase hj)]
  have h1 := Finset.add_sum_erase _ (fun j => (w.lane (cur j)).left) hmem
  have h2 := Finset.add_sum_erase _ (fun j => (w'.lane (cur j)).left) hmem
  unfold toGo
  omega

/-- No lane has more than `k` steps more to go. -/
theorem toGo_all {cur' : ℕ → ℕ} {k : ℕ}
    (h : ∀ i < n, (w'.lane (cur' i)).left ≤ (w.lane (cur i)).left + k) :
    toGo cur' n w' ≤ toGo cur n w + n * k := by
  have hsum : ∑ i ∈ Finset.range n, ((w.lane (cur i)).left + k) = toGo cur n w + n * k := by
    rw [Finset.sum_add_distrib, Finset.sum_const, Finset.card_range, smul_eq_mul, toGo]
  rw [← hsum]
  exact Finset.sum_le_sum fun i hi => h i (Finset.mem_range.1 hi)

/-- A signal goes to one thread at most. -/
theorem Static.toGo_raise (hs : Static cur n w) (thread : Option ℕ) (signal : ℤ) (r : Errno) :
    toGo cur n (w.schRaiseThreadSignal thread signal r).1 ≤ toGo cur n w + 7 := by
  unfold schRaiseThreadSignal
  split
  next t =>
    show toGo cur n (w.setThread t { w.threads t with
      pending := insert signal (w.threads t).pending }) ≤ _
    have hother : ∀ j < n, cur j ≠ t → (w.setThread t { w.threads t with
        pending := insert signal (w.threads t).pending }).lane (cur j) = w.lane (cur j) := by
      intro j _ hne
      refine lane_congr ?_ rfl rfl
      simp only [setThread, Function.update_of_ne hne]
    by_cases ht : ∃ i < n, cur i = t
    · obtain ⟨i, hi, rfl⟩ := ht
      have hone := toGo_one hi fun j hj hji => hother j hj fun he => hji (hs.cur_inj hj hi he)
      have hle : ((w.setThread (cur i) { w.threads (cur i) with
          pending := insert signal (w.threads (cur i)).pending }).lane (cur i)).left ≤
          (w.lane (cur i)).left + 7 := by
        have hlane := Lane.raise_left (w.lane (cur i)) signal
        simpa only [World.lane, setThread, Function.update_self] using hlane
      omega
    · push Not at ht
      rw [toGo_congr fun j hj => hother j hj (ht j hj)]
      omega
  next => exact Nat.le_add_right _ _

theorem toGo_raised (h : Raised w w') : toGo cur n w' ≤ toGo cur n w + n * 7 := by
  refine toGo_all ?_
  intro i _
  have hle := Lane.raise_left (w.lane (cur i)) schSignalContinue
  rcases h.thread (cur i) with ht | ht
  · simp only [World.lane, ht, h.sch, h.log]
    exact Nat.le_add_right _ _
  · simp only [World.lane, ht, h.sch, h.log] at hle ⊢
    exact hle

/-- A call of `schSubmitTask` adds the steps of its package. -/
theorem Static.toGo_submit {package package' : Option SchTaskPackage} {pPool : Option ℕ}
    {r : Except SchErrCode ℕ} (hs : Static cur n w) (hb : Accounts cur n w)
    (h : w.submitEnqueue package pPool = some (w', package', r)) :
    toGo cur n w' ≤ toGo cur n w + 4 * (w.acceptedBy package pPool).isSome.toNat := by
  obtain ⟨-, -, hlt, hother, hsub⟩ := hs.submitEnqueue h
  cases r with
  | error e =>
    rw [toGo_congr fun i hi => hother i hi (by simp)]
    exact Nat.le_add_right _ _
  | ok p =>
    obtain ⟨pkg, hstep⟩ := hsub p rfl
    have hone := toGo_one (hlt p rfl) fun j hj hji => hother j hj fun he => hji
      (Except.ok.inj he).symm
    have hleft := Lane.submit_left (hb p (hlt p rfl)) hstep
    have hacc : w.acceptedBy package pPool = some p := by simp only [acceptedBy, h]
    rw [hacc]
    simp only [Option.isSome_some, Bool.toNat_true]
    omega

/-- The links of a pool have no part in this. -/
theorem Static.toGo_unlink (hs : Static cur n w) (x : ℕ) :
    toGo cur n (w.unlink x) = toGo cur n w := by
  refine Finset.sum_congr rfl ?_
  intro i hi
  rw [(hs.unlink x).2 i (Finset.mem_range.1 hi)]
  split_ifs with hix
  · subst hix
    rw [hs.lane (Finset.mem_range.1 hi)]
    rfl
  · rfl

theorem Static.toGo_clear (hs : Static cur n w) (x : ℕ) :
    toGo cur n (w.clear x) = toGo cur n w := by
  refine Finset.sum_congr rfl ?_
  intro i hi
  rw [(hs.clear x).2 i (Finset.mem_range.1 hi)]
  split_ifs with hix
  · subst hix
    rw [hs.lane (Finset.mem_range.1 hi)]
    rfl
  · rfl

end World

/-! ## Runs -/

section Runs

variable {ι : Type} {c₀ : ι} {before : Prop} {cur : ℕ → ℕ} {n : ℕ} {s s' : Sys ι}

/-- `1` for a step in which a worker does not wait actively. -/
def Act.effort (s : Sys ι) : Act ι → ℕ
  | .worker t a => (s.world.lane t).effort a
  | _ => 0

/-- The workers that the step creates. -/
def Act.started (s : Sys ι) : Act ι → ℕ
  | .call _ (.run _) => s.world.sch.num
  | _ => 0

/-- The packages that the step adds to a queue. -/
def Act.added (s : Sys ι) (a : Act ι) : ℕ := (s.accepts a).isSome.toNat

/-- The signals that the next step of the client raises for a worker. -/
def Client.sends (w : World) : Client → ℕ
  | .wakeRaise _ => 1
  | .termRaise x _ _ => if x < w.sch.num ∧ (w.sch.pools x).thread.isSome then 1 else 0
  | _ => 0

/-- The signals that the step raises for the workers, at most. -/
def Act.signals (s : Sys ι) : Act ι → ℕ
  | .call _ (.run _) | .call _ (.stop _) => s.world.sch.num
  | .client c _ => (s.client c).sends s.world
  | _ => 0

/-- A step of a client adds the steps for the signal that it sends. -/
theorem Client.Steps.toGo {w w' : World} {r : Errno} {cl cl' : Client}
    (h : Client.Steps w r cl w' cl') (hs : Static cur n w) (hp : cl.Plain) :
    World.toGo cur n w' ≤ World.toGo cur n w + 7 * cl.sends w := by
  cases h with
  | wake | noWake | notRunning | pass | waited | skip => exact Nat.le_add_right _ _
  | stay => exact Nat.le_add_right _ _
  | raise => exact hs.toGo_raise _ _ _
  | @sigTerm x t status k hx ht =>
    have hle := hs.toGo_raise (some t) TaskSch.sigTerm r
    simpa only [sends, hx, ht, Option.isSome_some, and_self, if_true, Nat.mul_one] using hle
  | @terminated x status k hx code =>
    rw [leaveTerminate_world fun hk => hp (by simp [after, hk])]
    exact Nat.le_add_right _ _
  | join => rw [hs.toGo_unlink]; exact Nat.le_add_right _ _
  | clear => rw [hs.toGo_clear]; exact Nat.le_add_right _ _

/-- So does a call that does not start the scheduler. -/
theorem Call.toGo {w : World} {c : ι} {f : Call} {cl : Client}
    (h : f.step s.world = some (w, cl)) (hf : (Act.call c f).Tame) (hs : Static cur n s.world)
    (hb : Accounts cur n s.world) :
    World.toGo cur n w ≤ World.toGo cur n s.world +
      (4 * (Act.call c f).added s + 7 * (Act.call c f).signals s) := by
  cases f with
  | run os => exact hf.elim
  | release => exact hf.elim
  | stop r =>
    cases h
    refine (World.toGo_raised (stop_raised r s.world)).trans ?_
    simp only [Act.signals, hs.num]
    omega
  | wait => cases h; exact Nat.le_add_right _ _
  | submit package pPool =>
    obtain ⟨package', r, h1, -⟩ := Call.step_submit h
    have hle := hs.toGo_submit hb h1
    simp only [Act.added, Sys.accepts]
    omega
  | terminate =>
    simp only [Call.step, enterTerminate, Option.some.injEq] at h
    split at h <;> cases h <;> exact Nat.le_add_right _ _

/-- **Every step of a worker is paid for**, unless the worker waits actively. -/
theorem Controlled.step_toGo [DecidableEq ι] (h : Controlled c₀ before cur n s)
    (hb : Accounts cur n s.world) {a : Act ι} (hby : a.ByController c₀ s) (hno : a.NoSecondStart s)
    (hstep : s.step a = some s') :
    ∃ before' cur', Controlled c₀ before' cur' n s' ∧ Accounts cur' n s'.world ∧
      a.effort s + World.toGo cur' n s'.world ≤ World.toGo cur n s.world +
        (8 * a.started s + 4 * a.added s + 7 * a.signals s) := by
  rcases hby.tame_or_run with ht | ⟨os, rfl, hok⟩
  · have hacts := (Sys.step_acts hstep ht h.static h.plain).1
    refine ⟨before, cur, h.step_tame ht hby hstep, hacts.accounts hb, ?_⟩
    cases a with
    | worker t a =>
      obtain ⟨w, holder, hw, rfl⟩ := Sys.step_worker hstep
      obtain ⟨i, hi, rfl, -, hwork, hother, -⟩ := h.static.work hw
      have hone := World.toGo_one hi hother
      have hleft := Lane.work_left (hb i hi) hwork
      simp only [Act.effort]
      omega
    | call c f =>
      obtain ⟨-, w, cl, hf, rfl⟩ := Sys.step_call hstep
      have hle := Call.toGo (c := c) hf ht h.static hb
      simp only [Act.effort]
      omega
    | client c r =>
      obtain ⟨w, cl, holder, hst, rfl⟩ := Sys.step_client hstep
      have hle := hst.toGo h.static (h.plain c)
      simp only [Act.effort, Act.signals]
      omega
  · obtain ⟨h', -, -, hlanes⟩ := h.run hok hno hstep
    refine ⟨True, _, h', ?_, ?_⟩
    · intro i hi
      obtain ⟨m, set, pending, -, hlane⟩ := hlanes i hi
      have hbooks := hb i hi
      rw [h.static.lane hi] at hbooks
      rw [hlane]
      have hpc := ((h.down hno).2 i hi).1
      rw [h.static.lane hi] at hpc
      exact hbooks.restart hpc _ m set pending
    · have hall : World.toGo (s.world.nthread + ·) n s'.world ≤
          World.toGo cur n s.world + n * 15 := by
        refine World.toGo_all ?_
        intro i hi
        obtain ⟨m, set, pending, hsub, hlane⟩ := hlanes i hi
        have hcard := (Finset.card_le_card hsub).trans (Finset.card_singleton _).le
        rw [hlane, h.static.lane hi]
        simp only [Lane.left, SchTaskPool.linked, Pc.left]
        omega
      simp only [Act.effort, Act.started, Act.signals, h.static.num]
      omega

/-- **The workers come to rest**: in every run by the rules of the controller,
    the workers take at most eight steps for each worker that was started, four
    for each package that was accepted and seven for each signal, if the rounds
    of the two loops in which they wait actively are not counted. -/
theorem worker_steps_bounded [DecidableEq ι] (self n : ℕ) (flag : Flag) (maxPackagesPool : UInt32)
    (slot : ℕ → ℕ → SchTaskPackage) (c₀ : ι) (as : List (Act ι)) (s : Sys ι)
    (hrun : sysMachine.run (.start (created self n flag maxPackagesPool slot)) as = some s)
    (has : sysMachine.Along (fun s a => a.ByController c₀ s ∧ a.NoSecondStart s)
      (.start (created self n flag maxPackagesPool slot)) as) :
    sysMachine.total Act.effort (.start (created self n flag maxPackagesPool slot)) as ≤
      8 * sysMachine.total Act.started (.start (created self n flag maxPackagesPool slot)) as +
        4 * sysMachine.total Act.added (.start (created self n flag maxPackagesPool slot)) as +
        7 * sysMachine.total Act.signals
          (.start (created self n flag maxPackagesPool slot)) as := by
  have hzero : World.toGo id n (created self n flag maxPackagesPool slot) = 0 :=
    Finset.sum_eq_zero fun i _ => rfl
  obtain ⟨m, -, hle⟩ := Machine.run_total_le
    (P := fun s m => ∃ before cur, Controlled c₀ before cur n s ∧ Accounts cur n s.world ∧
      m = World.toGo cur n s.world)
    (g := fun s a => 8 * a.started s + 4 * a.added s + 7 * a.signals s)
    (by
      rintro s a s' m ⟨before, cur, h, hb, rfl⟩ ⟨hby, hno⟩ hstep
      obtain ⟨before', cur', h', hb', hle⟩ := h.step_toGo hb hby hno hstep
      exact ⟨_, ⟨before', cur', h', hb', rfl⟩, hle⟩)
    has hrun ⟨False, id, controlled_created self n flag maxPackagesPool slot c₀,
      accounts_created self n flag maxPackagesPool slot, hzero.symm⟩
  rw [Machine.total_add, Machine.total_add, Machine.total_mul, Machine.total_mul,
    Machine.total_mul] at hle
  omega

end Runs

/-- A worker that runs one package and waits for a second signal. -/
def oneOfEach : List (Act Unit) :=
  [[.call () (.run .allOk), .call () (.submit (some (.ofCallback 1)) none), .client () .zero,
    .worker 0 (.mask .ok)], .replicate 5 (.worker 0 .go), [.worker 0 (.ret 5)],
    .replicate 5 (.worker 0 .go), [.worker 0 (.sig schSignalContinue)],
    .replicate 6 (.worker 0 .go)].flatten

/-- The bound is reached. -/
theorem worker_steps_bounded_reached :
    19 = sysMachine.total Act.effort (.start (created 0 1 0 1 fun _ _ => .ofCallback 0))
        oneOfEach ∧
      sysMachine.total Act.effort (.start (created 0 1 0 1 fun _ _ => .ofCallback 0)) oneOfEach ≤
        8 * 1 + 4 * 1 + 7 * 1 := by
  have heval : ((sysMachine.run (.start (created 0 1 0 1 fun _ _ => .ofCallback 0)) oneOfEach).map
      fun s => (s.world.threads 0).pc) = some .wait := by decide +kernel
  obtain ⟨s, hs, -⟩ := Option.map_eq_some_iff.1 heval
  have hle := worker_steps_bounded 0 1 0 1 (fun _ _ => .ofCallback 0) () oneOfEach s hs
    (by decide +kernel)
  have hstarted : sysMachine.total Act.started
      (.start (created 0 1 0 1 fun _ _ => .ofCallback 0)) oneOfEach = 1 := by decide +kernel
  have hadded : sysMachine.total Act.added
      (.start (created 0 1 0 1 fun _ _ => .ofCallback 0)) oneOfEach = 1 := by decide +kernel
  have hsignals : sysMachine.total Act.signals
      (.start (created 0 1 0 1 fun _ _ => .ofCallback 0)) oneOfEach = 1 := by decide +kernel
  rw [hstarted, hadded, hsignals] at hle
  exact ⟨by decide +kernel, hle⟩

end TaskSch
