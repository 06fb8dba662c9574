/-
  Task scheduler formalization — the life of a scheduler object
  (src/taskSch.c).

  Every function of the library guards itself by `SCH_FLAG_INIT`.
  `schCreateTaskPool` clears the flag first and sets it last;
  `schReleaseTaskSch` releases everything and leaves it set.

  * `objectMachine`: whole calls of `schCreateTaskPool`, `schRunTaskSch`,
    `schTerminateTaskSch` and `schReleaseTaskSch` on one object, in any order;
    a call that uses or releases memory that is not allocated is undefined;
  * `tracks_iff`: in a run, `SCH_FLAG_INIT` says whether the object has its
    memory, and nothing is released twice, iff no `schReleaseTaskSch` gets past
    its `schTerminateTaskSch` and no allocation of packages fails unnoticed.
-/
import TaskSch.Create
import TaskSch.Teardown
import TaskSch.Submit

namespace TaskSch

open World

/-! ## The calls -/

/-- The pointer is that of an allocated block. -/
def Mem.Has (m : Mem) (p : Ptr) : Prop := ∃ a ∈ m.live, p = some a

instance (m : Mem) (p : Ptr) : Decidable (m.Has p) := inferInstanceAs (Decidable (∃ a ∈ _, _))

/-- A whole call, with the results of the calls in it. -/
inductive ObjectCall where
  | create (os : CreateOs) (me : ℕ) (ncpu cores : Int32) (flag : Flag) (maxPackagesPool : UInt32)
  | run (os : RunOs) (term : TermOs)
  | terminate (os : TermOs)
  | release (os : TermOs)

/-- The object has its memory. -/
structure Allocated (w : World) : Prop where
  pool : w.mem.Has w.sch.pool
  dheap : w.mem.Has w.sch.dheap
  set : w.mem.Has w.sch.set
  spinlock : w.mem.Has w.sch.spinlock
  package : ∀ i < w.sch.num, w.mem.Has (w.sch.pools i).package

/-- `schCreateTaskPool` on the object of `w`.  It is undefined if it releases
    what is not allocated. -/
def createOn (w : World) (os : CreateOs) (me : ℕ) (ncpu cores : Int32) (flag : Flag)
    (maxPackagesPool : UInt32) : Option World :=
  (schCreateTaskPool os me ncpu w.mem (some w.sch) cores flag maxPackagesPool).bind fun r =>
    if r.released.Nodup ∧ ∀ a ∈ r.released, a ∈ w.mem.live ∨ a ∈ r.acquired.map Block.addr then
      r.sch.map fun sch => { w with sch := sch, mem := r.mem }
    else none

/-- `schRunTaskSch` with its label `failed`. -/
def runOn (w : World) (os : RunOs) (term : TermOs) : World :=
  match w.schRunTaskSch os with
  | (w, .ret _) => w
  | (w, .failed _) => (w.schTerminateTaskSch term).1

/-- What `schReleaseTaskSch` releases after its call of `schTerminateTaskSch`. -/
def releasable (w : World) : List ℕ :=
  (List.range w.sch.num).flatMap (fun i => (w.sch.pools i).package.toList) ++ w.sch.resources

/-- All of it is allocated, and nothing is there twice. -/
def Releasable (w : World) : Prop :=
  (releasable w).Nodup ∧ ∀ a ∈ releasable w, a ∈ w.mem.live

instance (w : World) : Decidable (Releasable w) := inferInstanceAs (Decidable (_ ∧ _))

/-- `schTerminateTaskSch` lets `schReleaseTaskSch` go on: the scheduler is not
    running, or the status of the calls made is not zero. -/
def Releases (w : World) (os : TermOs) : Prop :=
  ¬ hasBit w.sch.flag schFlagInit ∨ ¬ hasBit w.sch.flag schFlagRunning ∨
    conj (termCodes os w) os.wait.bits ≠ 0

instance (w : World) (os : TermOs) : Decidable (Releases w os) :=
  inferInstanceAs (Decidable (_ ∨ _))

/-- One call.  Past its test of the flag, `schRunTaskSch` needs the pools and the
    signal set, and `schTerminateTaskSch` the pools. -/
def objectStep (w : World) : ObjectCall → Option World
  | .create os me ncpu cores flag maxPackagesPool =>
    createOn w os me ncpu cores flag maxPackagesPool
  | .run os term =>
    if hasBit w.sch.flag schFlagInit → w.mem.Has w.sch.pool ∧ w.mem.Has w.sch.set then
      some (runOn w os term)
    else none
  | .terminate os =>
    if w.terminateGuard = none → w.mem.Has w.sch.pool then some (w.schTerminateTaskSch os).1
    else none
  | .release os =>
    if (w.terminateGuard = none → w.mem.Has w.sch.pool) ∧
        (Releases w os → Releasable (w.schTerminateTaskSch os).1) then
      some (w.schReleaseTaskSch os).1
    else none

def objectMachine : Machine World ObjectCall := ⟨objectStep⟩

/-! ## What the flag is for -/

/-- The flag says whether the object has its memory, so that the functions that
    test it refuse an object that has none. -/
structure Tracks (w : World) : Prop where
  init : hasBit w.sch.flag schFlagInit ↔ Allocated w
  run : ¬ Allocated w → ∀ os, w.schRunTaskSch os = (w, .ret .invalidState)
  stop : ¬ Allocated w → ∀ r, w.schStopTaskSch r = (w, .invalidState)
  submit : ¬ Allocated w → ∀ package pPool kill,
    w.schSubmitTask package pPool kill = some (w, package, .invalidState)

/-- What `schReleaseTaskSch` releases is allocated. -/
def ReleasesOnce (w : World) : ObjectCall → Prop
  | .release os => Releases w os → Releasable (w.schTerminateTaskSch os).1
  | _ => True

/-- The calls that keep the flag right: `schReleaseTaskSch` is left early, and
    `schCreateTaskPool` fails or allocates all packages. -/
def Keeps (w : World) : ObjectCall → Prop
  | .create os _ ncpu cores _ _ => Granted os ncpu (some w.sch) cores →
      ∀ i < (effectiveCores ncpu cores).toUInt32.toNat, os.package i = true
  | .release os => ¬ Releases w os
  | .run _ _ | .terminate _ => True

variable {w w' : World}

theorem tracks_of_iff (h : hasBit w.sch.flag schFlagInit ↔ Allocated w) : Tracks w := by
  refine ⟨h, ?_, ?_, ?_⟩
  · intro hno os
    rw [schRunTaskSch, if_pos (fun hinit => hno (h.1 hinit))]
  · intro hno r
    rw [schStopTaskSch, if_pos (fun hinit => hno (h.1 hinit))]
  · intro hno package pPool kill
    have hguard : ¬ hasBit w.sch.flag schFlagRunning ∨ ¬ hasBit w.sch.flag schFlagInit :=
      .inr fun hinit => hno (h.1 hinit)
    simp only [schSubmitTask, submitEnqueue, if_pos hguard, Option.map_some]

/-! ## The object while it has its memory -/

/-- The address is that of one of the blocks that the object needs. -/
def Core (w : World) (a : ℕ) : Prop :=
  w.sch.pool = some a ∨ w.sch.dheap = some a ∨ w.sch.set = some a ∨ w.sch.spinlock = some a ∨
    ∃ i < w.sch.num, (w.sch.pools i).package = some a

/-- The object has its memory, and the mutexes and signal sets of the pools are
    other blocks. -/
structure Held (w : World) : Prop where
  init : hasBit w.sch.flag schFlagInit
  alloc : Allocated w
  below : ∀ a ∈ w.mem.live, a < w.mem.next
  apart : ∀ x < w.sch.num, ∀ a,
    (w.sch.pools x).mutex = some a ∨ (w.sch.pools x).set = some a → ¬ Core w a

/-- The object has been given up by a call of `schCreateTaskPool` that failed. -/
structure Gone (w : World) : Prop where
  init : ¬ hasBit w.sch.flag schFlagInit
  below : ∀ a ∈ w.mem.live, a < w.mem.next
  spinlock : ∃ a, w.sch.spinlock = some a ∧ a ∉ w.mem.live

theorem Mem.Has.mem {m : Mem} {a : ℕ} (h : m.Has (some a)) : a ∈ m.live := by
  obtain ⟨b, hb, he⟩ := h
  cases he
  exact hb

theorem Allocated.core (h : Allocated w) {a : ℕ} (ha : Core w a) : a ∈ w.mem.live := by
  rcases ha with ha | ha | ha | ha | ⟨i, hi, ha⟩
  · exact (ha ▸ h.pool).mem
  · exact (ha ▸ h.dheap).mem
  · exact (ha ▸ h.set).mem
  · exact (ha ▸ h.spinlock).mem
  · exact (ha ▸ h.package i hi).mem

theorem Held.tracks (h : Held w) : Tracks w := tracks_of_iff (iff_of_true h.init h.alloc)

theorem Gone.not_allocated (h : Gone w) : ¬ Allocated w := by
  intro halloc
  obtain ⟨a, ha, hdead⟩ := h.spinlock
  exact hdead (ha ▸ halloc.spinlock).mem

theorem Gone.tracks (h : Gone w) : Tracks w := tracks_of_iff (iff_of_false h.init h.not_allocated)

/-- A change of the pools' own mutexes and signal sets, of their threads or of
    the other flags, if it leaves the memory of the object alone. -/
theorem Held.update (h : Held w)
    (hsch : w'.sch = { w.sch with pools := w'.sch.pools, flag := w'.sch.flag })
    (hinit : hasBit w'.sch.flag schFlagInit)
    (hpkg : ∀ i, (w'.sch.pools i).package = (w.sch.pools i).package)
    (hlive : ∀ a, Core w a → a ∈ w'.mem.live) (hbelow : ∀ a ∈ w'.mem.live, a < w'.mem.next)
    (hapart : ∀ x a, (w'.sch.pools x).mutex = some a ∨ (w'.sch.pools x).set = some a →
      (w.sch.pools x).mutex = some a ∨ (w.sch.pools x).set = some a ∨ w.mem.next ≤ a) :
    Held w' := by
  have hnum : w'.sch.num = w.sch.num := by rw [hsch]
  have hpool : w'.sch.pool = w.sch.pool := by rw [hsch]
  have hdheap : w'.sch.dheap = w.sch.dheap := by rw [hsch]
  have hset : w'.sch.set = w.sch.set := by rw [hsch]
  have hspin : w'.sch.spinlock = w.sch.spinlock := by rw [hsch]
  have hcore : ∀ a, Core w' a ↔ Core w a := by
    intro a
    simp only [Core, hnum, hpool, hdheap, hset, hspin, hpkg]
  have hhas : ∀ p, w.mem.Has p → (∀ a, p = some a → Core w a) → w'.mem.Has p := by
    rintro p ⟨a, -, rfl⟩ hc
    exact ⟨a, hlive a (hc a rfl), rfl⟩
  refine ⟨hinit, ⟨?_, ?_, ?_, ?_, ?_⟩, hbelow, ?_⟩
  · rw [hpool]
    exact hhas _ h.alloc.pool fun a ha => .inl ha
  · rw [hdheap]
    exact hhas _ h.alloc.dheap fun a ha => .inr (.inl ha)
  · rw [hset]
    exact hhas _ h.alloc.set fun a ha => .inr (.inr (.inl ha))
  · rw [hspin]
    exact hhas _ h.alloc.spinlock fun a ha => .inr (.inr (.inr (.inl ha)))
  · intro i hi
    rw [hnum] at hi
    rw [hpkg]
    exact hhas _ (h.alloc.package i hi) fun a ha => .inr (.inr (.inr (.inr ⟨i, hi, ha⟩)))
  · intro x hx a ha
    rw [hnum] at hx
    rw [hcore]
    rcases hapart x a ha with hm | hs | hnew
    · exact h.apart x hx a (.inl hm)
    · exact h.apart x hx a (.inr hs)
    · intro hc
      have := h.below a (h.alloc.core hc)
      omega

/-- Nothing of the object is changed. -/
theorem Held.same (h : Held w) (hsch : w'.sch = w.sch) (hmem : w'.mem = w.mem) : Held w' := by
  refine h.update (by rw [hsch]) (hsch ▸ h.init) (by simp [hsch]) ?_ (hmem ▸ h.below) ?_
  · intro a ha
    exact hmem ▸ h.alloc.core ha
  · intro x a ha
    rw [hsch] at ha
    exact ha.elim .inl fun hs => .inr (.inl hs)

theorem Held.setFlag (h : Held w) {flag : Flag} (hinit : hasBit flag schFlagInit) :
    Held (w.setFlag flag) :=
  h.update rfl hinit (fun _ => rfl) (fun _ => h.alloc.core) h.below
    fun _ _ ha => ha.elim .inl fun hs => .inr (.inl hs)

/-! ## `schRunTaskSch` -/

/-- A pool gets a new pointer for its mutex or its signal set, or other fields
    that do not matter here. -/
theorem Held.setPool (h : Held w) {i : ℕ} {pool : SchTaskPool} {mem : Mem}
    (hpkg : pool.package = (w.sch.pools i).package)
    (hmem : mem = w.mem ∨ mem = w.mem.malloc)
    (hlinks : ∀ a, pool.mutex = some a ∨ pool.set = some a →
      (w.sch.pools i).mutex = some a ∨ (w.sch.pools i).set = some a ∨ w.mem.next ≤ a) :
    Held { w.setPool i pool with mem := mem } := by
  refine h.update rfl h.init ?_ ?_ ?_ ?_
  · intro j
    by_cases hj : j = i
    · subst hj; simpa [World.setPool] using hpkg
    · simp [World.setPool, hj]
  · intro a ha
    rcases hmem with rfl | rfl
    · exact h.alloc.core ha
    · exact Finset.mem_insert_of_mem (h.alloc.core ha)
  · rcases hmem with rfl | rfl
    · exact h.below
    · exact Mem.malloc_below h.below
  · intro x a ha
    by_cases hx : x = i
    · subst hx
      simp only [World.setPool, Function.update_self] at ha
      exact hlinks a ha
    · simp only [World.setPool, Function.update_of_ne hx] at ha
      exact ha.elim .inl fun hs => .inr (.inl hs)

theorem Held.startPool (h : Held w) (os : RunOs) (i : ℕ) : Held (startPool os i w).1 := by
  obtain ⟨w₁, hw₁⟩ : ∃ w₁, w₁ = { w.setPool i { w.sch.pools i with mutex := some w.mem.next } with
    mem := w.mem.malloc } := ⟨_, rfl⟩
  obtain ⟨w₂, hw₂⟩ : ∃ w₂, w₂ = { w₁.setPool i { w₁.sch.pools i with set := some w₁.mem.next } with
    mem := w₁.mem.malloc } := ⟨_, rfl⟩
  have h₁ : Held w₁ := by
    rw [hw₁]
    refine h.setPool rfl (.inr rfl) ?_
    rintro a (ha | ha)
    · cases ha; exact .inr (.inr le_rfl)
    · exact .inr (.inl ha)
  have h₂ : Held w₂ := by
    rw [hw₂]
    refine h₁.setPool rfl (.inr rfl) ?_
    rintro a (ha | ha)
    · exact .inl ha
    · cases ha; exact .inr (.inr le_rfl)
  have hthread : ∀ t, Held (w₂.setPool i { w₂.sch.pools i with thread := t }) :=
    fun t => h₂.setPool rfl (.inl rfl) fun a ha => ha.elim .inl fun hs => .inr (.inl hs)
  subst hw₂
  subst hw₁
  unfold World.startPool
  simp only
  split_ifs
  · exact h₁
  · exact (hthread (some w.nthread)).same rfl rfl
  · exact hthread none

theorem Held.startPools (h : Held w) (os : RunOs) (k i : ℕ) : Held (startPools os k i w).1 := by
  induction k generalizing i w with
  | zero => exact h
  | succ k ih =>
    have hround := h.startPool os i
    simp only [World.startPools]
    split
    next w₁ heq => rw [heq] at hround; exact ih hround (i + 1)
    next w₁ e heq => rw [heq] at hround; exact hround

theorem Held.run (h : Held w) (os : RunOs) : Held (w.schRunTaskSch os).1 := by
  have hloop := h.startPools os w.sch.num 0
  simp only [schRunTaskSch, h.init, not_true_eq_false, if_false]
  by_cases hmask : os.mask = .ok
  swap
  · rw [if_pos hmask]
    exact h
  · rw [if_neg (not_not.2 hmask)]
    split
    next w₁ e heq => rw [heq] at hloop; exact hloop
    next w₁ heq =>
      rw [heq] at hloop
      have hraised := raiseContinue_raised os.raise w₁.sch.num 0 w₁
      split
      next w₂ heq₂ => rw [heq₂] at hraised; exact hloop.same hraised.sch hraised.mem
      next w₂ heq₂ =>
        rw [heq₂] at hraised
        have hheld := hloop.same hraised.sch hraised.mem
        exact hheld.setFlag (init_kept hheld.init).1

/-! ## `schTerminateTaskSch` -/

theorem Mem.mem_free {m : Mem} {p : Ptr} {a : ℕ} :
    a ∈ (m.free p).live ↔ p ≠ some a ∧ a ∈ m.live := by
  cases p with
  | none => simp [Mem.free]
  | some b => simp [Mem.free, eq_comm]

theorem Held.terminatePool (h : Held w) (os : TermOs) {x : ℕ} (hx : x < w.sch.num)
    (status : BitVec 32) : Held (terminatePool os x w status).1 := by
  unfold World.terminatePool
  cases ht : (w.sch.pools x).thread with
  | none => exact h
  | some t =>
    refine h.update ?_ h.init ?_ ?_ ?_ ?_
    · rfl
    · intro j
      by_cases hj : j = x
      · subst hj; simp [clear, unlink, World.setPool, setThread]
      · simp [clear, unlink, World.setPool, setThread, hj]
    · intro a ha
      simp only [clear, unlink, World.setPool, setThread, Function.update_self, Mem.mem_free]
      refine ⟨?_, ?_, h.alloc.core ha⟩
      · intro hs
        exact h.apart x hx a (.inr hs) ha
      · intro hm
        exact h.apart x hx a (.inl hm) ha
    · intro a ha
      simp only [clear, unlink, World.setPool, setThread, Function.update_self, Mem.mem_free] at ha
      have hnext : ∀ m : Mem, ∀ p, (m.free p).next = m.next := by
        intro m p
        cases p <;> rfl
      simp only [clear, hnext]
      exact h.below a ha.2.2
    · intro y a ha
      by_cases hy : y = x
      · subst hy
        simp [clear, unlink, World.setPool, setThread] at ha
      · simp only [clear, unlink, World.setPool, setThread, Function.update_of_ne hy] at ha
        exact ha.elim .inl fun hs => .inr (.inl hs)

theorem terminatePool_num (os : TermOs) (x : ℕ) (w : World) (status : BitVec 32) :
    (terminatePool os x w status).1.sch.num = w.sch.num := by
  unfold terminatePool
  split <;> rfl

theorem Held.terminatePools (h : Held w) (os : TermOs) {k i : ℕ} (hk : i + k ≤ w.sch.num)
    (status : BitVec 32) : Held (terminatePools os k i w status).1 := by
  induction k generalizing i w status with
  | zero => exact h
  | succ k ih =>
    have hround := h.terminatePool os (show i < w.sch.num by omega) status
    refine ih hround ?_ _
    rw [terminatePool_num]
    omega

theorem Held.terminate (h : Held w) (os : TermOs) : Held (w.schTerminateTaskSch os).1 := by
  unfold schTerminateTaskSch
  split
  · exact h
  · have hheld := h.terminatePools os (show 0 + w.sch.num ≤ w.sch.num by omega) os.wait.bits
    exact hheld.setFlag (init_kept hheld.init).2

theorem Held.runOn (h : Held w) (os : RunOs) (term : TermOs) : Held (runOn w os term) := by
  have hrun := h.run os
  unfold TaskSch.runOn
  split
  next w₁ _ heq => rw [heq] at hrun; exact hrun
  next w₁ _ heq => rw [heq] at hrun; exact hrun.terminate term

/-- The call lets `schReleaseTaskSch` go on iff it returns `SCH_OK`. -/
theorem releases_iff (w : World) (os : TermOs) :
    Releases w os ↔ (w.schTerminateTaskSch os).2 = .ok := by
  by_cases hinit : hasBit w.sch.flag schFlagInit
  · by_cases hrun : hasBit w.sch.flag schFlagRunning
    · rw [schTerminateTaskSch_status os hinit hrun]
      simp [Releases, hinit, hrun]
    · simp [Releases, schTerminateTaskSch, terminateGuard, hinit, hrun]
  · simp [Releases, schTerminateTaskSch, terminateGuard, hinit]

theorem terminate_not_invalidState (w : World) (os : TermOs) :
    (w.schTerminateTaskSch os).2 ≠ .invalidState := by
  unfold schTerminateTaskSch
  split
  next status hguard =>
    simp only [terminateGuard] at hguard
    split_ifs at hguard <;> cases hguard <;> simp
  next => simp only; split_ifs <;> simp

/-- What `schReleaseTaskSch` does. -/
theorem schReleaseTaskSch_eq (w : World) (os : TermOs) :
    (w.schReleaseTaskSch os).1 = if Releases w os then (w.schTerminateTaskSch os).1.release
      else (w.schTerminateTaskSch os).1 := by
  have hne := terminate_not_invalidState w os
  simp only [schReleaseTaskSch, releases_iff]
  by_cases hok : (w.schTerminateTaskSch os).2 = .ok
  · simp [hok]
  · simp [hok, hne]

/-! ## `schCreateTaskPool` -/

/-- The blocks of `k` allocations are in use. -/
theorem Mem.malloc_live (m : Mem) {j k : ℕ} (h : j < k) : m.next + j ∈ (Mem.malloc^[k] m).live := by
  have hnext : ∀ k, (Mem.malloc^[k] m).next = m.next + k := by
    intro k
    induction k with
    | zero => rfl
    | succ k ih =>
      rw [Function.iterate_succ_apply', Mem.malloc, ih]
      rfl
  induction k with
  | zero => omega
  | succ k ih =>
    rw [Function.iterate_succ_apply', Mem.malloc]
    rcases Nat.lt_succ_iff_lt_or_eq.1 h with hlt | rfl
    · exact Finset.mem_insert_of_mem (ih hlt)
    · exact Finset.mem_insert.2 (.inl (hnext j).symm)

theorem Mem.freeAll_next (m : Mem) (addrs : List ℕ) : (m.freeAll addrs).next = m.next := by
  induction addrs generalizing m with
  | nil => rfl
  | cons b addrs ih => exact ih (m.free (some b))

theorem Mem.mem_freeAll {m : Mem} {addrs : List ℕ} {a : ℕ} :
    a ∈ (m.freeAll addrs).live ↔ a ∈ m.live ∧ a ∉ addrs := by
  induction addrs generalizing m with
  | nil => simp [Mem.freeAll]
  | cons b addrs ih =>
    have hcons : m.freeAll (b :: addrs) = (m.free (some b)).freeAll addrs := rfl
    rw [hcons, ih, Mem.mem_free]
    simp only [ne_eq, Option.some.injEq, List.mem_cons, not_or]
    tauto

namespace Creation
variable {os : CreateOs} {s s' : Creation} {status : SchErrCode}

/-- The addresses in use are below the next one. -/
def Below (s : Creation) : Prop := ∀ a ∈ s.mem.live, a < s.mem.next

theorem Below.got (h : s.Below) (what : Resource) (count : ℕ)
    (store : SchTaskSch → Ptr → SchTaskSch) : (s.got what count store).Below :=
  Mem.malloc_below h

theorem Below.withSpinlock (h : s.Below) (os : CreateOs) : (s.withSpinlock os).Below :=
  ((((h.got _ _ _).got _ _ _).got _ _ _).got _ _ _ : (s.withSpinlock os).Below)

theorem Below.withBarrier (h : s.Below) (os : CreateOs) : (s.withBarrier os).Below :=
  ((((h.withSpinlock os).got _ _ _).got _ _ _).got _ _ _ : (s.withBarrier os).Below)

end Creation

open Creation

/-- Whatever fails, the acquisitions do not touch the flag, and the spinlock does
    not get lost. -/
theorem Acquires.frame {os : CreateOs} {s s' : Creation} {status : SchErrCode}
    (h : Acquires os s s' status) :
    s'.sch.flag = s.sch.flag ∧ (s.sch.spinlock.isSome → s'.sch.spinlock.isSome) ∧
      (s.Below → s'.Below) := by
  cases h with
  | noPool => exact ⟨rfl, id, id⟩
  | noDheap => exact ⟨rfl, id, fun hb => (hb.got _ _ _ : s.withPool.Below)⟩
  | noSet => exact ⟨rfl, id, fun hb => ((hb.got _ _ _).got _ _ _ : (s.withDheap os).Below)⟩
  | noSpinlock => exact ⟨rfl, fun _ => rfl, fun hb => hb.withSpinlock os⟩
  | late _ _ _ _ hs =>
    rcases hs with rfl | rfl | rfl
    · exact ⟨rfl, fun _ => rfl, fun hb => (hb.withSpinlock os).got _ _ _⟩
    · exact ⟨rfl, fun _ => rfl, fun hb => ((hb.withSpinlock os).got _ _ _).got _ _ _⟩
    · exact ⟨rfl, fun _ => rfl, fun hb => hb.withBarrier os⟩
  | all => exact ⟨rfl, fun _ => rfl, fun hb => hb.withBarrier os⟩

/-- The flag is cleared at the start of the call. -/
theorem not_init_reset (flag : Flag) :
    ¬ hasBit (flag &&& ~~~(schFlagInit ||| schFlagRunning)) schFlagInit := by
  rw [hasBit_init]
  simp [schFlagInit, schFlagRunning]

theorem init_set (flag : Flag) : hasBit (flag ||| schFlagInit) schFlagInit := by
  rw [hasBit_init]
  simp [schFlagInit]

section Create

variable {os : CreateOs} {me : ℕ} {ncpu cores : Int32} {flag : Flag} {maxPackagesPool : UInt32}

/-- A call that fails gives the object up. -/
theorem gone_of_failed {s : Creation} {status : SchErrCode}
    (hbelow : ∀ a ∈ w.mem.live, a < w.mem.next) (hspin : w.sch.spinlock.isSome)
    (hacq : Acquires os (creationStart ncpu w.mem w.sch cores flag) s status) :
    Gone { w with sch := s.sch, mem := s.mem.freeAll s.sch.resources } := by
  obtain ⟨hflag, hkeep, hb⟩ := hacq.frame
  obtain ⟨a, ha⟩ := Option.isSome_iff_exists.1 (hkeep hspin)
  refine ⟨?_, ?_, a, ha, ?_⟩
  · simp only [hflag]
    exact not_init_reset flag
  · intro b hb'
    simp only [Mem.freeAll_next]
    exact hb hbelow b (Mem.mem_freeAll.1 hb').1
  · simp only [Mem.mem_freeAll, not_and, not_not]
    intro _
    simp [SchTaskSch.resources, ha]

/-- A call that succeeds sets the object up, if all packages are allocated. -/
theorem held_of_created {s : Creation} (hbelow : ∀ a ∈ w.mem.live, a < w.mem.next)
    (hloop : Loops os me maxPackagesPool 0 (effectiveCores ncpu cores).toUInt32.toNat
      ((creationStart ncpu w.mem w.sch cores flag).withBarrier os) s)
    (hpkg : ∀ i < (effectiveCores ncpu cores).toUInt32.toNat, os.package i = true) :
    Held { w with sch := { s.sch with flag := s.sch.flag ||| schFlagInit }, mem := s.mem } := by
  have hlive : ∀ j < 7, w.mem.next + j ∈ s.mem.live :=
    fun j hj => hloop.live (Mem.malloc_live w.mem hj)
  have hnum := hloop.num
  refine ⟨init_set _, ⟨?_, ?_, ?_, ?_, ?_⟩, ?_, ?_⟩
  · exact ⟨_, hlive 0 (by decide), by rw [hloop.sch]; rfl⟩
  · exact ⟨_, hlive 1 (by decide), by rw [hloop.sch]; rfl⟩
  · exact ⟨_, hlive 2 (by decide), by rw [hloop.sch]; rfl⟩
  · exact ⟨_, hlive 3 (by decide), by rw [hloop.sch]; rfl⟩
  · intro i hi
    simp only [hnum] at hi
    obtain ⟨a, ha, -, hmem⟩ := hloop.backed hi (hpkg i hi)
    exact ⟨a, hmem, ha⟩
  · exact hloop.below (Below.withBarrier (s := creationStart ncpu w.mem w.sch cores flag) hbelow os)
  · intro x hx a ha
    simp only [hnum] at hx
    obtain ⟨p, hp, -⟩ := hloop.pool x (Nat.zero_le _) (by omega)
    simp only [hp, SchTaskPool.create] at ha
    rcases ha with ha | ha <;> cases ha

/-- A call is refused, or fails, or succeeds. -/
theorem createOn_cases (h : createOn w os me ncpu cores flag maxPackagesPool = some w') :
    w' = w ∨
    (∃ s status, Acquires os (creationStart ncpu w.mem w.sch cores flag) s status ∧
      w' = { w with sch := s.sch, mem := s.mem.freeAll s.sch.resources }) ∨
    (Granted os ncpu (some w.sch) cores ∧ ∃ s,
      Loops os me maxPackagesPool 0 (effectiveCores ncpu cores).toUInt32.toNat
        ((creationStart ncpu w.mem w.sch cores flag).withBarrier os) s ∧
      w' = { w with sch := { s.sch with flag := s.sch.flag ||| schFlagInit }, mem := s.mem }) := by
  obtain ⟨r, hr, h⟩ := Option.bind_eq_some_iff.1 h
  split_ifs at h
  obtain ⟨sch, hsch, rfl⟩ := Option.map_eq_some_iff.1 h
  obtain ⟨hst, -⟩ | ⟨hg, s, hloop, rfl⟩ := schCreateTaskPool_ok hr
  · obtain ⟨-, rfl⟩ | ⟨-, s, status, hacq, ⟨-, rfl⟩ | ⟨s', -, -, rfl⟩⟩ := schCreateTaskPool_cases hr
    · cases hsch
      exact .inl rfl
    · cases hsch
      exact .inr (.inl ⟨s, status, hacq, rfl⟩)
    · exact absurd rfl hst
  · cases hsch
    exact .inr (.inr ⟨hg, s, hloop, rfl⟩)

/-- With a failed allocation of packages, the flag is set all the same. -/
theorem not_tracks_of_missing {s : Creation} {k i : ℕ}
    (hloop : Loops os me maxPackagesPool 0 k
      ((creationStart ncpu w.mem w.sch cores flag).withBarrier os) s)
    (hk : k = (effectiveCores ncpu cores).toUInt32.toNat) (hi : i < k)
    (hpkg : os.package i = false) :
    ¬ Tracks { w with sch := { s.sch with flag := s.sch.flag ||| schFlagInit }, mem := s.mem } := by
  intro ht
  have hi' : i < s.sch.num := by
    rw [hloop.num, ← hk]
    exact hi
  obtain ⟨a, -, ha⟩ := (ht.init.1 (init_set _)).package i hi'
  have hnone := hloop.missing hi hpkg
  simp only [hnone] at ha
  cases ha

end Create

/-! ## `schReleaseTaskSch` -/

theorem releasePools_live (k i : ℕ) (w : World) (a : ℕ) :
    a ∈ (releasePools k i w).mem.live ↔
      a ∈ w.mem.live ∧ ∀ j, i ≤ j → j < i + k → (w.sch.pools j).package ≠ some a := by
  induction k generalizing i w with
  | zero =>
    refine ⟨fun ha => ⟨ha, ?_⟩, And.left⟩
    intro j h1 h2
    omega
  | succ k ih =>
    rw [releasePools, ih]
    simp only [Mem.mem_free]
    constructor
    · rintro ⟨⟨hne, ha⟩, hrest⟩
      refine ⟨ha, ?_⟩
      intro j h1 h2
      by_cases hj : j = i
      · rw [hj]; exact hne
      · have := hrest j (by omega) (by omega)
        simpa [World.setPool, hj] using this
    · rintro ⟨ha, hall⟩
      refine ⟨⟨hall i le_rfl (by omega), ha⟩, ?_⟩
      intro j h1 h2
      have hj : j ≠ i := by omega
      simpa [World.setPool, hj] using hall j (by omega) (by omega)

/-- What is released is what `releasable` says. -/
theorem release_live (w : World) (a : ℕ) :
    a ∈ w.release.mem.live ↔ a ∈ w.mem.live ∧ a ∉ releasable w := by
  have hsch := releasePools_sch w.sch.num 0 w
  have hpool : (releasePools w.sch.num 0 w).sch.pool = w.sch.pool := by rw [hsch]
  have hdheap : (releasePools w.sch.num 0 w).sch.dheap = w.sch.dheap := by rw [hsch]
  have hset : (releasePools w.sch.num 0 w).sch.set = w.sch.set := by rw [hsch]
  have hspin : (releasePools w.sch.num 0 w).sch.spinlock = w.sch.spinlock := by rw [hsch]
  simp only [release, schReleaseSchedulerResources, Mem.mem_free, releasePools_live, hpool, hdheap,
    hset, hspin, releasable, SchTaskSch.resources, List.mem_append, List.mem_flatMap,
    List.mem_range, Option.mem_toList, not_or, not_exists, not_and, Nat.zero_add,
    Nat.zero_le, true_imp_iff, ne_eq]
  tauto

theorem release_sch (w : World) :
    w.release.sch = { w.sch with pools := w.release.sch.pools } := releasePools_sch w.sch.num 0 w

/-! ## Runs -/

theorem Held.not_keeps_release (h : Held w) {os : TermOs} (hrel : Releases w os)
    (honce : Releasable (w.schTerminateTaskSch os).1) :
    ∃ w', objectStep w (.release os) = some w' ∧ ¬ Tracks w' := by
  have hheld := h.terminate os
  refine ⟨(w.schReleaseTaskSch os).1, ?_, ?_⟩
  · exact if_pos ⟨fun _ => h.alloc.pool, fun _ => honce⟩
  · rw [schReleaseTaskSch_eq, if_pos hrel]
    intro ht
    have hsch := release_sch (w.schTerminateTaskSch os).1
    obtain ⟨a, ha, hspin⟩ := (ht.init.1 (by rw [hsch]; exact hheld.init)).spinlock
    rw [hsch] at hspin
    have hspin : (w.schTerminateTaskSch os).1.sch.spinlock = some a := hspin
    refine ((release_live _ a).1 ha).2 ?_
    simp [releasable, SchTaskSch.resources, hspin]

theorem Gone.terminate (h : Gone w) (os : TermOs) : w.schTerminateTaskSch os = (w, .ok) := by
  have hguard : w.terminateGuard = some .ok := by simp [terminateGuard, h.init]
  rw [schTerminateTaskSch, hguard]

theorem Gone.not_releasable (h : Gone w) : ¬ Releasable w := by
  rintro ⟨-, hlive⟩
  obtain ⟨a, ha, hdead⟩ := h.spinlock
  exact hdead (hlive a (by simp [releasable, SchTaskSch.resources, ha]))

/-- **One call that keeps the flag right.** -/
theorem objectStep_inv (h : Held w ∨ Gone w) {c : ObjectCall} (hk : Keeps w c)
    (hs : objectStep w c = some w') : Held w' ∨ Gone w' := by
  cases c with
  | create os me ncpu cores flag maxPackagesPool =>
    have hbelow : ∀ a ∈ w.mem.live, a < w.mem.next := h.elim Held.below Gone.below
    have hspin : w.sch.spinlock.isSome := by
      rcases h with h | h
      · obtain ⟨a, -, ha⟩ := h.alloc.spinlock
        rw [ha]; rfl
      · obtain ⟨a, ha, -⟩ := h.spinlock
        rw [ha]; rfl
    obtain rfl | ⟨s, status, hacq, rfl⟩ | ⟨hg, s, hloop, rfl⟩ := createOn_cases hs
    · exact h
    · exact .inr (gone_of_failed hbelow hspin hacq)
    · exact .inl (held_of_created hbelow hloop (hk hg))
  | run os term =>
    simp only [objectStep] at hs
    split_ifs at hs
    cases hs
    rcases h with h | h
    · exact .inl (h.runOn os term)
    · rw [runOn, h.tracks.run h.not_allocated os]
      exact .inr h
  | terminate os =>
    simp only [objectStep] at hs
    split_ifs at hs
    cases hs
    rcases h with h | h
    · exact .inl (h.terminate os)
    · rw [h.terminate os]
      exact .inr h
  | release os =>
    simp only [objectStep] at hs
    split_ifs at hs
    cases hs
    rw [schReleaseTaskSch_eq, if_neg hk]
    rcases h with h | h
    · exact .inl (h.terminate os)
    · exact absurd (.inl h.init) hk

/-- A call that does not keep it right is seen by the flag, or releases what is
    not allocated. -/
theorem objectStep_broken (h : Held w ∨ Gone w) {c : ObjectCall} (hk : ¬ Keeps w c)
    (honce : ReleasesOnce w c) : ∃ w', objectStep w c = some w' ∧ ¬ Tracks w' := by
  cases c with
  | create os me ncpu cores flag maxPackagesPool =>
    simp only [Keeps, not_forall] at hk
    obtain ⟨hg, i, hi, hpkg⟩ := hk
    obtain ⟨s, rfl, hcall⟩ := schCreateTaskPool_granted hg me w.mem flag maxPackagesPool
    refine ⟨_, by rw [objectStep, createOn, hcall]; rfl, ?_⟩
    exact not_tracks_of_missing (createPools_spec ..) rfl hi (by simpa using hpkg)
  | run => exact absurd trivial hk
  | terminate => exact absurd trivial hk
  | release os =>
    have hrel : Releases w os := not_not.1 hk
    rcases h with h | h
    · exact h.not_keeps_release hrel (honce hrel)
    · have hone := honce hrel
      rw [h.terminate os] at hone
      exact absurd hone h.not_releasable

theorem object_runs (h : Held w ∨ Gone w) (calls : List ObjectCall) :
    objectMachine.Throughout Tracks w calls ∧ objectMachine.Along ReleasesOnce w calls ↔
      objectMachine.Along Keeps w calls := by
  have ht : Tracks w := h.elim Held.tracks Gone.tracks
  induction calls generalizing w with
  | nil => exact iff_of_true ⟨ht, trivial⟩ trivial
  | cons c calls ih =>
    constructor
    · rintro ⟨⟨-, hthrough⟩, honce, halong⟩
      have hk : Keeps w c := by
        by_contra hk
        obtain ⟨w', hs, hbad⟩ := objectStep_broken h hk honce
        exact hbad (hthrough w' hs).head
      refine ⟨hk, ?_⟩
      intro w' hs
      have hinv := objectStep_inv h hk hs
      exact (ih hinv (hinv.elim Held.tracks Gone.tracks)).1 ⟨hthrough w' hs, halong w' hs⟩
    · rintro ⟨hk, halong⟩
      have hrest : ∀ w', objectStep w c = some w' →
          objectMachine.Throughout Tracks w' calls ∧ objectMachine.Along ReleasesOnce w' calls := by
        intro w' hs
        have hinv := objectStep_inv h hk hs
        exact (ih hinv (hinv.elim Held.tracks Gone.tracks)).2 (halong w' hs)
      refine ⟨⟨ht, fun w' hs => (hrest w' hs).1⟩, ?_, fun w' hs => (hrest w' hs).2⟩
      cases c with
      | release os => exact fun hrel => absurd hrel hk
      | create | run | terminate => trivial

/-- **What the flag says, along all runs.**  After a call of `schCreateTaskPool`
    that has succeeded, `SCH_FLAG_INIT` is set exactly while the object has its
    memory, and nothing is released twice, iff all package buffers were
    allocated and no later call leaves the flag wrong. -/
theorem tracks_iff (w : World) (os : CreateOs) (me : ℕ) (ncpu cores : Int32) (flag : Flag)
    (maxPackagesPool : UInt32) (r : CreateReturn) (sch : SchTaskSch) (calls : List ObjectCall)
    (hbelow : ∀ a ∈ w.mem.live, a < w.mem.next)
    (hcall : schCreateTaskPool os me ncpu w.mem (some w.sch) cores flag maxPackagesPool = some r)
    (hok : r.status = .ok) (hsch : r.sch = some sch) :
    objectMachine.Throughout Tracks { w with sch := sch, mem := r.mem } calls ∧
        objectMachine.Along ReleasesOnce { w with sch := sch, mem := r.mem } calls ↔
      (∀ i < (effectiveCores ncpu cores).toUInt32.toNat, os.package i = true) ∧
        objectMachine.Along Keeps { w with sch := sch, mem := r.mem } calls := by
  obtain ⟨hst, -⟩ | ⟨hg, s, hloop, rfl⟩ := schCreateTaskPool_ok hcall
  · exact absurd hok hst
  cases hsch
  by_cases hpkg : ∀ i < (effectiveCores ncpu cores).toUInt32.toNat, os.package i = true
  · have hheld := held_of_created hbelow hloop hpkg
    rw [object_runs (.inl hheld) calls]
    exact ⟨fun h => ⟨hpkg, h⟩, And.right⟩
  · refine iff_of_false ?_ fun h => hpkg h.1
    rintro ⟨hthrough, -⟩
    simp only [not_forall] at hpkg
    obtain ⟨i, hi, hmissing⟩ := hpkg
    exact not_tracks_of_missing hloop rfl hi (by simpa using hmissing) hthrough.head

/-- An object filled with zeros, in an empty memory. -/
def World.zeroed : World :=
  { created 0 0 0 0 fun _ _ => .ofCallback 0 with sch := .zeroed, mem := ⟨∅, 0⟩ }

/-- The object is created, started and terminated. -/
theorem tracks_run : ∃ r sch, schCreateTaskPool .allOk 0 1 ⟨∅, 0⟩ (some .zeroed) 1 0 1 = some r ∧
    r.sch = some sch ∧
    objectMachine.Throughout Tracks { World.zeroed with sch := sch, mem := r.mem }
      [.run .allOk ⟨.ok, fun _ => .ok, fun _ => .ok, fun _ => .ok, fun _ => .ok⟩,
        .terminate ⟨.ok, fun _ => .ok, fun _ => .ok, fun _ => .ok, fun _ => .ok⟩] := by
  have hcall : (schCreateTaskPool .allOk 0 1 ⟨∅, 0⟩ (some .zeroed) 1 0 1).map
      (fun r => (r.status, r.sch.isSome)) = some (.ok, true) := by decide +kernel
  obtain ⟨r, hr, he⟩ := Option.map_eq_some_iff.1 hcall
  simp only [Prod.mk.injEq] at he
  obtain ⟨sch, hsch⟩ := Option.isSome_iff_exists.1 he.2
  refine ⟨r, sch, hr, hsch, ?_⟩
  exact ((tracks_iff World.zeroed .allOk 0 1 1 0 1 r sch
    [.run .allOk ⟨.ok, fun _ => .ok, fun _ => .ok, fun _ => .ok, fun _ => .ok⟩,
      .terminate ⟨.ok, fun _ => .ok, fun _ => .ok, fun _ => .ok, fun _ => .ok⟩]
    (by decide) hr he.1 hsch).2
    ⟨fun _ _ => rfl, trivial, fun _ _ => ⟨trivial, fun _ _ => trivial⟩⟩).1

/-- The object is created and released: the flag is still set. -/
theorem flag_outlives_memory :
    ¬ ∀ (w : World) (os : CreateOs) (me : ℕ) (ncpu cores : Int32) (flag : Flag)
      (maxPackagesPool : UInt32) (r : CreateReturn) (sch : SchTaskSch) (calls : List ObjectCall),
      (∀ a ∈ w.mem.live, a < w.mem.next) →
      schCreateTaskPool os me ncpu w.mem (some w.sch) cores flag maxPackagesPool = some r →
      r.status = .ok → r.sch = some sch →
      objectMachine.Throughout Tracks { w with sch := sch, mem := r.mem } calls := by
  intro h
  have hrun : (schCreateTaskPool .allOk 0 1 ⟨∅, 0⟩ (some .zeroed) 1 0 1).bind (fun r =>
      r.sch.bind fun sch => (objectStep { World.zeroed with sch := sch, mem := r.mem }
        (.release ⟨.ok, fun _ => .ok, fun _ => .ok, fun _ => .ok, fun _ => .ok⟩)).map fun w =>
          (r.status, hasBit w.sch.flag schFlagInit, decide (w.mem.Has w.sch.spinlock))) =
      some (.ok, true, false) := by decide +kernel
  obtain ⟨r, hr, hrun⟩ := Option.bind_eq_some_iff.1 hrun
  obtain ⟨sch, hsch, hrun⟩ := Option.bind_eq_some_iff.1 hrun
  obtain ⟨w, hstep, he⟩ := Option.map_eq_some_iff.1 hrun
  simp only [Prod.mk.injEq, decide_eq_false_iff_not] at he
  obtain ⟨hok, hinit, hspin⟩ := he
  have ht := h World.zeroed .allOk 0 1 1 0 1 r sch
    [.release ⟨.ok, fun _ => .ok, fun _ => .ok, fun _ => .ok, fun _ => .ok⟩] (by decide) hr hok hsch
  exact hspin ((ht.2 w hstep).init.1 hinit).spinlock

end TaskSch
