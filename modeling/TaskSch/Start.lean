/-
  Task scheduler formalization — starting the workers (`schRunTaskSch`).

  * `Started`, `Raised`: what the two loops of `schRunTaskSch` do to the world;
  * `run_ok`, `run_failed`: the whole function;
  * `start_clean_iff`: when a start that fails leaves nothing behind.  It never
    does so once it has created the first mutex: the early returns undo
    nothing, and the label `failed` calls `schTerminateTaskSch`, which returns
    at once as the flag `SCH_FLAG_RUNNING` is not set before the end of
    `schRunTaskSch`.
-/
import TaskSch.World

namespace TaskSch

/-- The pool with a thread, a mutex and a signal set. -/
def SchTaskPool.linked (pool : SchTaskPool) (t m s : ℕ) : SchTaskPool :=
  { pool with thread := some t, mutex := some m, set := some s }

namespace World

variable {w w' : World} {os : RunOs}

/-! ## The first loop -/

/-- The world after round `i` of the first loop succeeded. -/
def started (w : World) (i : ℕ) : World :=
  { (w.setPool i ((w.sch.pools i).linked w.nthread w.mem.next (w.mem.next + 1))).setThread
      w.nthread ⟨i, .mask, ∅⟩ with
    mem := w.mem.malloc.malloc
    nthread := w.nthread + 1 }

/-- The OS calls of round `i` give no reason to leave the first loop. -/
def PoolOk (os : RunOs) (i : ℕ) : Prop :=
  (pthreadErrorCode2SchErrorCode (os.mutex i)).toInt ≠ 0 ∧ os.thread i = true

instance (os : RunOs) (i : ℕ) : Decidable (PoolOk os i) := inferInstanceAs (Decidable (_ ∧ _))

theorem startPool_ok {i : ℕ} (h : PoolOk os i) : startPool os i w = (w.started i, none) := by
  simp only [startPool, if_neg h.1, if_pos h.2]
  simp [started, setPool, setThread, Mem.malloc, SchTaskPool.linked]

/-- The status that `schRunTaskSch` returns at an exit. -/
def RunExit.status : RunExit → SchErrCode
  | .ret status | .failed status => status

/-- A round that leaves the loop has stored a mutex in the pool. -/
theorem startPool_failed {i : ℕ} (h : ¬ PoolOk os i) :
    ∃ w' e, startPool os i w = (w', some e) ∧ e.status ≠ .ok ∧
      w'.sch.num = w.sch.num ∧ w'.sch.flag = w.sch.flag ∧ (w'.sch.pools i).mutex ≠ none := by
  by_cases h1 : (pthreadErrorCode2SchErrorCode (os.mutex i)).toInt = 0
  · simp only [startPool, if_pos h1]
    exact ⟨_, _, rfl, by decide, rfl, rfl, by simp [setPool]⟩
  · have h2 : os.thread i ≠ true := fun h2 => h ⟨h1, h2⟩
    simp only [startPool, if_neg h1, if_neg h2]
    exact ⟨_, _, rfl, by decide, rfl, rfl, by simp [setPool]⟩

/-- The pools `i .. i + k - 1` got a thread each. -/
structure Started (w w' : World) (i k : ℕ) : Prop where
  sch : w'.sch = { w.sch with pools := w'.sch.pools }
  log : w'.log = w.log
  inbox : w'.inbox = w.inbox
  nthread : w'.nthread = w.nthread + k
  pool : ∀ j < k, ∃ m s,
    w'.sch.pools (i + j) = (w.sch.pools (i + j)).linked (w.nthread + j) m s
  other : ∀ j, j < i ∨ i + k ≤ j → w'.sch.pools j = w.sch.pools j
  thread : ∀ j < k, w'.threads (w.nthread + j) = ⟨i + j, .mask, ∅⟩
  old : ∀ t, t < w.nthread ∨ w.nthread + k ≤ t → w'.threads t = w.threads t

theorem Started.cons {i k : ℕ} (h : Started (w.started i) w' (i + 1) k) :
    Started w w' i (k + 1) := by
  refine ⟨by rw [h.sch]; rfl, h.log, h.inbox, ?_, ?_, ?_, ?_, ?_⟩
  · rw [h.nthread]; simp only [started]; omega
  · rintro (_ | j) hj
    · exact ⟨w.mem.next, w.mem.next + 1, by
        rw [h.other _ (.inl (by omega))]; simp [started, setPool, setThread]⟩
    · obtain ⟨m, s, hp⟩ := h.pool j (by omega)
      refine ⟨m, s, ?_⟩
      rw [show i + (j + 1) = i + 1 + j by omega, hp]
      simp only [started, setPool, setThread, Function.update_of_ne (show i + 1 + j ≠ i by omega)]
      rw [show w.nthread + 1 + j = w.nthread + (j + 1) by omega]
  · intro j hj
    rw [h.other j (by omega)]
    simp [started, setPool, setThread, Function.update_of_ne (show j ≠ i by omega)]
  · rintro (_ | j) hj
    · rw [h.old _ (.inl (by simp [started]))]; simp [started, setThread]
    · rw [show w.nthread + (j + 1) = (w.started i).nthread + j by simp only [started]; omega,
        h.thread j (by omega)]
      simp only [Thread.mk.injEq, and_true]; omega
  · intro t ht
    rw [h.old t (by simp only [started]; omega)]
    simp [started, setPool, setThread, Function.update_of_ne (show t ≠ w.nthread by omega)]

theorem startPools_ok (k : ℕ) {i : ℕ} {w : World} (h : ∀ j < k, PoolOk os (i + j)) :
    ∃ w', startPools os k i w = (w', none) ∧ Started w w' i k := by
  induction k generalizing i w with
  | zero => exact ⟨w, rfl, rfl, rfl, rfl, rfl, by simp, fun _ _ => rfl, by simp, fun _ _ => rfl⟩
  | succ k ih =>
    have hi : PoolOk os i := h 0 (by omega)
    have hrest : ∀ j < k, PoolOk os (i + 1 + j) := by
      intro j hj
      rw [show i + 1 + j = i + (j + 1) by omega]
      exact h (j + 1) (by omega)
    obtain ⟨w', h1, h2⟩ := ih (w := w.started i) hrest
    exact ⟨w', by simp only [startPools, startPool_ok hi, h1], h2.cons⟩

/-- If some round of the first loop fails, some pool is left with a mutex. -/
theorem startPools_failed (k : ℕ) {i : ℕ} {w : World} (h : ¬ ∀ j < k, PoolOk os (i + j)) :
    ∃ w' e, startPools os k i w = (w', some e) ∧ e.status ≠ .ok ∧
      w'.sch.num = w.sch.num ∧ w'.sch.flag = w.sch.flag ∧
      ∃ j < k, (w'.sch.pools (i + j)).mutex ≠ none := by
  induction k generalizing i w with
  | zero => exact absurd (fun j hj => absurd hj (by omega)) h
  | succ k ih =>
    by_cases hi : PoolOk os i
    · have hrest : ¬ ∀ j < k, PoolOk os (i + 1 + j) := by
        intro hk
        refine h ?_
        intro j hj
        rcases j with _ | j
        · exact hi
        · rw [show i + (j + 1) = i + 1 + j by omega]; exact hk j (by omega)
      obtain ⟨w', e, h1, h2, h3, h4, j, hj, h5⟩ := ih (w := w.started i) hrest
      refine ⟨w', e, by simp only [startPools, startPool_ok hi, h1], h2, h3, h4, j + 1,
        by omega, ?_⟩
      rw [show i + (j + 1) = i + 1 + j by omega]; exact h5
    · obtain ⟨w', e, h1, h2, h3, h4, h5⟩ := startPool_failed (w := w) hi
      exact ⟨w', e, by simp only [startPools, h1], h2, h3, h4, 0, by omega, h5⟩

/-! ## The signals -/

/-- Some threads got the signal `CONTINUE`, nothing else happened. -/
structure Raised (w w' : World) : Prop where
  sch : w'.sch = w.sch
  mem : w'.mem = w.mem
  log : w'.log = w.log
  inbox : w'.inbox = w.inbox
  nthread : w'.nthread = w.nthread
  thread : ∀ t, w'.threads t = w.threads t ∨ w'.threads t =
    { w.threads t with pending := insert schSignalContinue (w.threads t).pending }

theorem Raised.trans {v : World} (h : Raised v w) (h' : Raised w w') : Raised v w' := by
  refine ⟨h'.sch.trans h.sch, h'.mem.trans h.mem, h'.log.trans h.log, h'.inbox.trans h.inbox,
    h'.nthread.trans h.nthread, ?_⟩
  intro t
  rcases h.thread t with h1 | h1 <;> rcases h'.thread t with h2 | h2 <;> rw [h2, h1] <;> simp

theorem Raised.pending (h : Raised w w') {t : ℕ} {signal : ℤ}
    (hm : signal ∈ (w.threads t).pending) : signal ∈ (w'.threads t).pending := by
  rcases h.thread t with ht | ht <;> rw [ht]
  · exact hm
  · exact Finset.mem_insert_of_mem hm

theorem raised_one (w : World) (thread : Option ℕ) (r : Errno) :
    Raised w (w.schRaiseThreadSignal thread schSignalContinue r).1 := by
  obtain ⟨threads, he, hthread⟩ := raise_eq w thread schSignalContinue r
  rw [he]
  exact ⟨rfl, rfl, rfl, rfl, rfl, hthread⟩

theorem raiseContinue_raised (r : ℕ → Errno) (k i : ℕ) (w : World) :
    Raised w (raiseContinue r k i w).1 := by
  induction k generalizing i w with
  | zero => exact ⟨rfl, rfl, rfl, rfl, rfl, fun _ => .inl rfl⟩
  | succ k ih =>
    have h := raised_one w (w.sch.pools i).thread (r i)
    simp only [raiseContinue]
    split
    next w1 heq => rw [heq] at h; exact h.trans (ih (i + 1) w1)
    next w1 _ _ heq => rw [heq] at h; exact h

/-- The loop succeeds if all its calls do. -/
theorem raiseContinue_ok (r : ℕ → Errno) (k i : ℕ) (w : World) :
    (raiseContinue r k i w).2 = true ↔
      ∀ j < k, pthreadErrorCode2SchErrorCode (r (i + j)) = .ok := by
  induction k generalizing i w with
  | zero => simp [raiseContinue]
  | succ k ih =>
    have hcons : (∀ j < k + 1, pthreadErrorCode2SchErrorCode (r (i + j)) = .ok) ↔
        pthreadErrorCode2SchErrorCode (r i) = .ok ∧
          ∀ j < k, pthreadErrorCode2SchErrorCode (r (i + 1 + j)) = .ok := by
      rw [Nat.forall_lt_succ_left]
      simp only [Nat.add_zero, Nat.add_assoc, Nat.add_comm 1]
    rw [hcons]
    simp only [raiseContinue]
    split
    next w1 heq =>
      have hr : pthreadErrorCode2SchErrorCode (r i) = .ok := congrArg Prod.snd heq
      rw [ih (i + 1) w1]; simp [hr]
    next w1 s hne heq =>
      have hr : pthreadErrorCode2SchErrorCode (r i) = s := congrArg Prod.snd heq
      have : s ≠ .ok := fun hs => hne (by rw [← hs])
      simp [hr, this]

/-- The loop gets to the pool `i + j` if its calls for the pools before succeed. -/
theorem raiseContinue_pending {r : ℕ → Errno} {k i j : ℕ} (hj : j < k)
    (hok : ∀ m < j, pthreadErrorCode2SchErrorCode (r (i + m)) = .ok) (hr : r (i + j) = .zero)
    {t : ℕ} (ht : (w.sch.pools (i + j)).thread = some t) :
    schSignalContinue ∈ ((raiseContinue r k i w).1.threads t).pending := by
  induction j generalizing k i w with
  | zero =>
    obtain ⟨k, rfl⟩ := Nat.exists_eq_succ_of_ne_zero hj.ne'
    simp only [Nat.add_zero] at hr ht
    simp only [raiseContinue, schRaiseThreadSignal, ht, hr, pthreadErrorCode2SchErrorCode]
    exact (raiseContinue_raised r k (i + 1) _).pending (by simp [setThread])
  | succ j ih =>
    obtain ⟨k, rfl⟩ := Nat.exists_eq_succ_of_ne_zero (Nat.ne_zero_of_lt hj)
    have hi := hok 0 j.succ_pos
    have hsch := raise_sch w (w.sch.pools i).thread schSignalContinue (r i)
    rw [Nat.add_zero] at hi
    rw [show i + (j + 1) = i + 1 + j by omega] at hr ht
    simp only [raiseContinue]
    split
    next w₁ heq =>
      rw [heq] at hsch
      refine ih (Nat.lt_of_succ_lt_succ hj) ?_ hr (by rw [hsch]; exact ht)
      intro m hm
      rw [show i + 1 + m = i + (m + 1) by omega]
      exact hok _ (Nat.succ_lt_succ hm)
    next w₁ s hne heq => exact absurd ((congrArg Prod.snd heq).symm.trans hi) hne

/-! ## The whole function -/

/-- All OS calls of `schRunTaskSch` give results that it takes for a success. -/
def StartOk (os : RunOs) (w : World) : Prop :=
  os.mask = .ok ∧ ∀ i < w.sch.num, PoolOk os i ∧ pthreadErrorCode2SchErrorCode (os.raise i) = .ok

instance (os : RunOs) (w : World) : Decidable (StartOk os w) :=
  inferInstanceAs (Decidable (_ ∧ ∀ i < _, _))

theorem startOk_allOk (w : World) : StartOk .allOk w :=
  ⟨rfl, fun _ _ => ⟨⟨show SchErrCode.ok.toInt ≠ 0 by decide, rfl⟩, rfl⟩⟩

/-- A start that succeeds. -/
theorem run_ok (hinit : hasBit w.sch.flag schFlagInit) (hok : StartOk os w) :
    ∃ w₁ w₂, schRunTaskSch os w = (w₂.setFlag (w₂.sch.flag ||| schFlagRunning), .ret .ok) ∧
      Started w w₁ 0 w.sch.num ∧ Raised w₁ w₂ := by
  obtain ⟨w₁, h1, h2⟩ := startPools_ok w.sch.num (i := 0) (w := w)
    fun j hj => by rw [Nat.zero_add]; exact (hok.2 j hj).1
  have hnum : w₁.sch.num = w.sch.num := by rw [h2.sch]
  have h4 := (raiseContinue_ok os.raise w₁.sch.num 0 w₁).2
    fun j hj => by rw [Nat.zero_add]; exact (hok.2 j (hnum ▸ hj)).2
  refine ⟨w₁, _, ?_, h2, raiseContinue_raised os.raise w₁.sch.num 0 w₁⟩
  simp only [schRunTaskSch, hinit, not_true_eq_false, if_false, hok.1, ne_eq, h1]
  rw [← Prod.eta (raiseContinue os.raise w₁.sch.num 0 w₁), h4]

/-- A start that fails after the signal mask leaves some pool with a mutex. -/
theorem run_failed (hinit : hasBit w.sch.flag schFlagInit) (hmask : os.mask = .ok)
    (hok : ¬ StartOk os w) :
    ∃ w' e, schRunTaskSch os w = (w', e) ∧ e.status ≠ .ok ∧ w'.sch.num = w.sch.num ∧
      w'.sch.flag = w.sch.flag ∧ ∃ j < w.sch.num, (w'.sch.pools j).mutex ≠ none := by
  by_cases hpool : ∀ j < w.sch.num, PoolOk os (0 + j)
  · obtain ⟨w₁, h1, h2⟩ := startPools_ok w.sch.num (w := w) hpool
    have hnum : w₁.sch.num = w.sch.num := by rw [h2.sch]
    have h3 := raiseContinue_raised os.raise w₁.sch.num 0 w₁
    have h4 : (raiseContinue os.raise w₁.sch.num 0 w₁).2 = false := by
      refine Bool.eq_false_iff.2 fun h4 => hok ⟨hmask, ?_⟩
      intro j hj
      rw [raiseContinue_ok] at h4
      have hr := h4 j (hnum ▸ hj)
      have hp := hpool j hj
      rw [Nat.zero_add] at hr hp
      exact ⟨hp, hr⟩
    have hpos : 0 < w.sch.num := by
      by_contra h0
      exact hok ⟨hmask, fun j hj => absurd hj (by omega)⟩
    obtain ⟨m, s, hp⟩ := h2.pool 0 hpos
    refine ⟨_, .ret .internal, ?_, by decide, by rw [h3.sch]; exact hnum,
      by rw [h3.sch, h2.sch], 0, hpos, ?_⟩
    · simp only [schRunTaskSch, hinit, not_true_eq_false, if_false, hmask, ne_eq, h1]
      rw [← Prod.eta (raiseContinue os.raise w₁.sch.num 0 w₁), h4]
    · rw [h3.sch, ← Nat.zero_add 0, hp]; simp [SchTaskPool.linked]
  · obtain ⟨w', e, h1, h2, h3, h4, j, hj, h5⟩ := startPools_failed w.sch.num (w := w) hpool
    refine ⟨w', e, ?_, h2, h3, h4, j, hj, by rwa [Nat.zero_add] at h5⟩
    simp only [schRunTaskSch, hinit, not_true_eq_false, if_false, hmask, ne_eq, h1]

/-! ## A start that fails -/

/-- What `schRunTaskSch` returns.  At the label `failed` it calls
    `schTerminateTaskSch`, which does not wait for other threads if its first
    checks make it return. -/
def runReturns (os : RunOs) (w : World) : Option (World × SchErrCode) :=
  match schRunTaskSch os w with
  | (w, .ret status) => some (w, status)
  | (w, .failed status) => w.terminateGuard.map fun _ => (w, status)

/-- In `w'`, nothing is left of a start from `w`, so that `schReleaseTaskSch`
    frees no pool array that a live worker uses. -/
structure Undone (w w' : World) : Prop where
  threads : ∀ t, w.nthread ≤ t → t < w'.nthread → ¬ w'.Live t
  pools : ∀ i < w'.sch.num, (w'.sch.pools i).thread = none ∧ (w'.sch.pools i).mutex = none ∧
    (w'.sch.pools i).set = none
  flag : ¬ hasBit w'.sch.flag schFlagRunning
  release : ∀ t, w'.release.Live t → ∃ a, w'.release.sch.pool = some a ∧ a ∈ w'.release.mem.live

/-- `schRunTaskSch` returns, and unless it returns `SCH_OK` it has undone what
    it did. -/
def CleanStart (os : RunOs) (w : World) : Prop :=
  ∃ w' status, runReturns os w = some (w', status) ∧ (status ≠ .ok → Undone w w')

/-- No pool has a thread, a mutex or a signal set, and no thread is live. -/
def Quiet (w : World) : Prop :=
  (∀ i < w.sch.num, (w.sch.pools i).thread = none ∧ (w.sch.pools i).mutex = none ∧
    (w.sch.pools i).set = none) ∧ ∀ t, ¬ w.Live t

theorem notMem_free {m : Mem} {a : ℕ} (h : a ∉ m.live) : ∀ p, a ∉ (m.free p).live
  | none => h
  | some _ => fun hm => h (Finset.mem_of_mem_erase hm)

theorem releasePools_frame : ∀ (k i : ℕ) (w : World),
    (releasePools k i w).threads = w.threads ∧ (releasePools k i w).sch.pool = w.sch.pool
  | 0, _, _ => ⟨rfl, rfl⟩
  | k + 1, i, _ => releasePools_frame k (i + 1) _

theorem releasePools_sch (k i : ℕ) (w : World) :
    (releasePools k i w).sch = { w.sch with pools := (releasePools k i w).sch.pools } := by
  induction k generalizing i w with
  | zero => rfl
  | succ k ih => rw [releasePools, ih]; rfl

/-- `schReleaseTaskSch` frees the pool array, whoever uses it. -/
theorem release_frees (w : World) {a : ℕ} (h : w.release.sch.pool = some a) :
    a ∉ w.release.mem.live := by
  have hpool : (releasePools w.sch.num 0 w).sch.pool = some a := h
  simp only [release, schReleaseSchedulerResources, hpool]
  refine notMem_free (notMem_free (notMem_free ?_ _) _) _
  simp [Mem.free]

theorem release_safe : (∀ t, w.release.Live t → ∃ a, w.release.sch.pool = some a ∧
    a ∈ w.release.mem.live) ↔ ∀ t, ¬ w.Live t := by
  have hlive : ∀ t, w.release.Live t ↔ w.Live t := by
    intro t
    simp only [Live, release, schReleaseSchedulerResources, (releasePools_frame w.sch.num 0 w).1]
  constructor
  · intro h t ht
    obtain ⟨a, ha, hm⟩ := h t ((hlive t).2 ht)
    exact release_frees w ha hm
  · exact fun h t ht => absurd ((hlive t).1 ht) (h t)

theorem runReturns_eq {e : RunExit} (h : schRunTaskSch os w = (w', e))
    (hrun : ¬ hasBit w'.sch.flag schFlagRunning) : runReturns os w = some (w', e.status) := by
  cases e with
  | ret status => simp only [runReturns, h]; rfl
  | failed status =>
    have hg : w'.terminateGuard = some .ok := by simp [terminateGuard, hrun]
    simp only [runReturns, h, hg]; rfl

/-- **When a failed start leaves nothing running**: exactly if all OS calls
    give results that `schRunTaskSch` takes for a success, or the first one
    fails and nothing was there before. -/
theorem start_clean_iff (os : RunOs) (w : World) (hinit : hasBit w.sch.flag schFlagInit)
    (hrun : ¬ hasBit w.sch.flag schFlagRunning) :
    CleanStart os w ↔ StartOk os w ∨ os.mask ≠ .ok ∧ Quiet w := by
  by_cases hmask : os.mask = .ok
  · simp only [ne_eq, hmask, not_true_eq_false, false_and, or_false]
    by_cases hok : StartOk os w
    · obtain ⟨w₁, w₂, h, -⟩ := run_ok hinit hok
      exact iff_of_true ⟨_, .ok, by simp only [runReturns, h]; rfl, by simp⟩ hok
    · obtain ⟨w', e, h, he, hnum, hflag, j, hj, hm⟩ := run_failed hinit hmask hok
      refine iff_of_false ?_ hok
      rintro ⟨v, status, hv, hu⟩
      rw [runReturns_eq h (hflag ▸ hrun)] at hv
      cases hv
      exact hm ((hu he).pools j (hnum ▸ hj)).2.1
  · have h : runReturns os w = some (w, .internal) :=
      runReturns_eq (e := .ret .internal) (by simp [schRunTaskSch, hinit, hmask]) hrun
    have hnot : ¬ StartOk os w := fun hok => hmask hok.1
    simp only [CleanStart, h, hnot, hmask, false_or, ne_eq, not_false_eq_true, true_and]
    constructor
    · rintro ⟨w', s, hs, hu⟩
      cases hs
      have hu := hu (by decide)
      exact ⟨hu.pools, release_safe.1 hu.release⟩
    · rintro ⟨hp, hl⟩
      exact ⟨w, _, rfl, fun _ => ⟨fun t _ _ => hl t, hp, hrun, release_safe.2 hl⟩⟩

/-- A signal mask that cannot be set is noticed before anything is created. -/
theorem start_clean_mask : CleanStart ⟨.invalidArg, fun _ => .zero, fun _ => true, fun _ => .zero⟩
    (created 0 2 0 4 fun _ _ => .ofCallback 0) :=
  (start_clean_iff _ _ (by decide) (by decide)).2
    (.inr ⟨by decide, fun _ _ => ⟨rfl, rfl, rfl⟩, fun _ h => h rfl⟩)

/-- If the second of two threads cannot be created, the first one goes on. -/
theorem second_thread_fails : ¬ ∀ (os : RunOs) (w : World), hasBit w.sch.flag schFlagInit →
    ¬ hasBit w.sch.flag schFlagRunning → CleanStart os w := by
  intro h
  obtain ⟨w', status, hw, hu⟩ := h ⟨.ok, fun _ => .zero, fun i => i == 0, fun _ => .zero⟩
    (created 0 2 0 4 fun _ _ => .ofCallback 0) (by decide) (by decide)
  have hr : runReturns ⟨.ok, fun _ => .zero, fun i => i == 0, fun _ => .zero⟩
    (created 0 2 0 4 fun _ _ => .ofCallback 0) = some (_, .invalidSch) := rfl
  rw [hr] at hw
  cases hw
  exact (hu (by decide)).threads 0 (by decide) (by decide) (by decide)

end World

end TaskSch
