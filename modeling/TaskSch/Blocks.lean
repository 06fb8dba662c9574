/-
  Task scheduler formalization — who holds which block of memory.

  Each block that the library allocates for a scheduler is held by one field of
  the scheduler or of one of its pools, and freed through this field.  The locks
  and signal sets of the pools come and go with `schRunTaskSch` and
  `schTerminateTaskSch`; all other blocks stay until `schReleaseTaskSch`, which
  forgets three of them.

  * `Mem.Owned`: every block in use is held exactly once;
  * `memory_owned`: this is so in every run by the rules of the controller, so
    that no restart leaks, nothing is freed twice, and `schReleaseTaskSch` leaks
    the mutex, the conditional and the barrier of the scheduler and nothing else.
-/
import TaskSch.Lifecycle
import TaskSch.Object

namespace TaskSch

open World

/-! ## Blocks with one holder each -/

/-- Every block in use is held by exactly one of the holders. -/
structure Mem.Owned {β : Type} (m : Mem) (own : β → Ptr) : Prop where
  live : ∀ a, a ∈ m.live ↔ ∃ b, own b = some a
  one : ∀ b b' a, own b = some a → own b' = some a → b = b'
  fresh : ∀ a ∈ m.live, a < m.next

namespace Mem.Owned

variable {β : Type} [DecidableEq β] {m : Mem} {own : β → Ptr}

/-- A new block goes to a holder that has none. -/
theorem malloc (h : m.Owned own) {b : β} (hb : own b = none) :
    m.malloc.Owned (Function.update own b (some m.next)) := by
  have hnew : ∀ b', own b' ≠ some m.next := by
    intro b' hb'
    exact (h.fresh _ ((h.live _).2 ⟨b', hb'⟩)).ne rfl
  refine ⟨?_, ?_, ?_⟩
  · intro a
    simp only [Mem.malloc, Finset.mem_insert, h.live]
    constructor
    · rintro (rfl | ⟨b', hb'⟩)
      · exact ⟨b, Function.update_self ..⟩
      · refine ⟨b', ?_⟩
        rwa [Function.update_of_ne]
        rintro rfl
        rw [hb] at hb'; cases hb'
    · rintro ⟨b', hb'⟩
      by_cases he : b' = b
      · subst he
        rw [Function.update_self] at hb'
        exact .inl (Option.some.inj hb').symm
      · rw [Function.update_of_ne he] at hb'
        exact .inr ⟨b', hb'⟩
  · intro b₁ b₂ a h₁ h₂
    by_cases he₁ : b₁ = b <;> by_cases he₂ : b₂ = b
    · rw [he₁, he₂]
    · rw [he₁, Function.update_self] at h₁
      rw [Function.update_of_ne he₂, ← h₁] at h₂
      exact absurd h₂ (hnew b₂)
    · rw [he₂, Function.update_self] at h₂
      rw [Function.update_of_ne he₁, ← h₂] at h₁
      exact absurd h₁ (hnew b₁)
    · rw [Function.update_of_ne he₁] at h₁
      rw [Function.update_of_ne he₂] at h₂
      exact h.one _ _ _ h₁ h₂
  · intro a ha
    rcases Finset.mem_insert.1 ha with rfl | ha
    · exact Nat.lt_succ_self _
    · exact (h.fresh a ha).trans (Nat.lt_succ_self _)

/-- A holder gives its block back. -/
theorem free (h : m.Owned own) (b : β) :
    (m.free (own b)).Owned (Function.update own b none) := by
  have hsub : ∀ a, a ∈ (m.free (own b)).live ↔ own b ≠ some a ∧ a ∈ m.live :=
    fun a => Mem.mem_free
  refine ⟨?_, ?_, ?_⟩
  · intro a
    rw [hsub, h.live]
    constructor
    · rintro ⟨hne, b', hb'⟩
      refine ⟨b', ?_⟩
      rwa [Function.update_of_ne]
      rintro rfl
      exact hne hb'
    · rintro ⟨b', hb'⟩
      by_cases he : b' = b
      · rw [he, Function.update_self] at hb'; cases hb'
      · rw [Function.update_of_ne he] at hb'
        exact ⟨fun hb => he (h.one _ _ _ hb' hb), b', hb'⟩
  · intro b₁ b₂ a h₁ h₂
    by_cases he₁ : b₁ = b
    · rw [he₁, Function.update_self] at h₁; cases h₁
    by_cases he₂ : b₂ = b
    · rw [he₂, Function.update_self] at h₂; cases h₂
    rw [Function.update_of_ne he₁] at h₁
    rw [Function.update_of_ne he₂] at h₂
    exact h.one _ _ _ h₁ h₂
  · intro a ha
    have hnext : (m.free (own b)).next = m.next := by cases own b <;> rfl
    rw [hnext]
    exact h.fresh a ((hsub a).1 ha).2

end Mem.Owned

/-! ## The holders of a scheduler -/

/-- A field that holds a block of memory. -/
inductive Holder where
  | pool | dheap | set | spinlock | mutex | conditional | barrier
  | package (i : ℕ)
  | poolMutex (i : ℕ)
  | poolSet (i : ℕ)
  deriving DecidableEq

namespace World

variable {w w' : World}

/-- The block in the field. -/
def holds (w : World) : Holder → Ptr
  | .pool => w.sch.pool
  | .dheap => w.sch.dheap
  | .set => w.sch.set
  | .spinlock => w.sch.spinlock
  | .mutex => w.sch.mutex
  | .conditional => w.sch.conditional
  | .barrier => w.sch.barrier
  | .package i => if i < w.sch.num then (w.sch.pools i).package else none
  | .poolMutex i => (w.sch.pools i).mutex
  | .poolSet i => (w.sch.pools i).set

/-- The memory of the world is held by the scheduler and its pools. -/
structure Owned (w : World) : Prop where
  mem : w.mem.Owned w.holds
  beyond : ∀ i, w.sch.num ≤ i → w.holds (.poolMutex i) = none ∧ w.holds (.poolSet i) = none

theorem Owned.congr (h : w.Owned) (hmem : w'.mem = w.mem) (hholds : w'.holds = w.holds)
    (hnum : w'.sch.num = w.sch.num) : w'.Owned := by
  refine ⟨?_, ?_⟩
  · rw [hmem, hholds]
    exact h.mem
  · rw [hnum, hholds]
    exact h.beyond

/-- A pool gets or loses one of its two blocks. -/
theorem Owned.update {b : Holder} {p : Ptr} (h : w.Owned) (hmem : w'.mem.Owned w'.holds)
    (hholds : w'.holds = Function.update w.holds b p) (hnum : w'.sch.num = w.sch.num)
    (hb : p = none ∨ ∃ i < w.sch.num, b = .poolMutex i ∨ b = .poolSet i) : w'.Owned := by
  refine ⟨hmem, ?_⟩
  intro i hi
  rw [hnum] at hi
  obtain ⟨hm, hs⟩ := h.beyond i hi
  rw [hholds]
  rcases hb with rfl | ⟨j, hj, rfl | rfl⟩
  · simp only [Function.update_apply, hm, hs, ite_self, and_self]
  · have hne : i ≠ j := by omega
    simp [hm, hs, hne]
  · have hne : i ≠ j := by omega
    simp [hm, hs, hne]

/-- Only the flag of the scheduler and the order of its pools change. -/
theorem Owned.same (h : w.Owned) (hmem : w'.mem = w.mem)
    (hsch : w'.sch = { w.sch with flag := w'.sch.flag, order := w'.sch.order }) : w'.Owned := by
  refine h.congr hmem ?_ (by rw [hsch])
  ext1 b
  cases b <;> rw [holds, holds, hsch]

theorem Owned.raised (h : w.Owned) (hr : Raised w w') : w'.Owned :=
  h.same hr.mem (by rw [hr.sch])

/-- A pool that keeps its pointers. -/
theorem holds_setPool {i : ℕ} {pool : SchTaskPool} (hp : pool.package = (w.sch.pools i).package)
    (hm : pool.mutex = (w.sch.pools i).mutex) (hs : pool.set = (w.sch.pools i).set) :
    (w.setPool i pool).holds = w.holds := by
  ext1 b
  cases b with
  | package j | poolMutex j | poolSet j =>
    by_cases hj : j = i
    · subst hj; simp [holds, setPool, hp, hm, hs]
    · simp [holds, setPool, hj]
  | _ => rfl

/-- A pool that gets or loses its mutex. -/
theorem holds_mutex (w : World) (i : ℕ) (m : Ptr) :
    (w.setPool i { w.sch.pools i with mutex := m }).holds =
      Function.update w.holds (.poolMutex i) m := by
  ext1 b
  cases b with
  | package j | poolMutex j | poolSet j =>
    by_cases hj : j = i
    · subst hj; simp [holds, setPool]
    · simp [holds, setPool, hj]
  | _ => rfl

theorem holds_set (w : World) (i : ℕ) (m : Ptr) :
    (w.setPool i { w.sch.pools i with set := m }).holds =
      Function.update w.holds (.poolSet i) m := by
  ext1 b
  cases b with
  | package j | poolMutex j | poolSet j =>
    by_cases hj : j = i
    · subst hj; simp [holds, setPool]
    · simp [holds, setPool, hj]
  | _ => rfl

/-- `schTerminateTaskSch` frees the mutex and the signal set of a pool. -/
theorem Owned.clear (h : w.Owned) (x : ℕ) : (w.clear x).Owned := by
  obtain ⟨w₁, hw₁⟩ : ∃ w₁, w₁ = { w.setPool x { w.sch.pools x with mutex := none } with
    mem := w.mem.free (w.sch.pools x).mutex } := ⟨_, rfl⟩
  have hm : w₁.holds = Function.update w.holds (.poolMutex x) none := by
    rw [← holds_mutex, hw₁]
    rfl
  have h₁ : w₁.Owned := by
    refine h.update ?_ hm (by rw [hw₁]; rfl) (.inl rfl)
    have hfree := h.mem.free (.poolMutex x)
    rw [← hm] at hfree
    rw [hw₁] at hfree ⊢
    exact hfree
  have hclear : w.clear x = { w₁.setPool x { w₁.sch.pools x with set := none } with
      mem := w₁.mem.free (w₁.sch.pools x).set } := by
    rw [hw₁]
    simp only [World.clear, setPool, Function.update_self, Function.update_idem]
  have hs : (w.clear x).holds = Function.update w₁.holds (.poolSet x) none := by
    rw [← holds_set, hclear]
    rfl
  refine h₁.update ?_ hs (by rw [hclear]; rfl) (.inl rfl)
  have hfree := h₁.mem.free (.poolSet x)
  rw [← hs] at hfree
  rw [hclear] at hfree ⊢
  exact hfree

/-- A pool that has no locks gets them, whatever comes of it. -/
theorem Owned.startPool (h : w.Owned) (os : RunOs) {i : ℕ} (hi : i < w.sch.num)
    (hm : (w.sch.pools i).mutex = none) (hs : (w.sch.pools i).set = none) :
    (startPool os i w).1.Owned := by
  obtain ⟨w₁, hw₁⟩ : ∃ w₁, w₁ = { w.setPool i { w.sch.pools i with mutex := some w.mem.next } with
    mem := w.mem.malloc } := ⟨_, rfl⟩
  obtain ⟨w₂, hw₂⟩ : ∃ w₂, w₂ = { w₁.setPool i { w₁.sch.pools i with set := some w₁.mem.next } with
    mem := w₁.mem.malloc } := ⟨_, rfl⟩
  have hm₁ : w₁.holds = Function.update w.holds (.poolMutex i) (some w.mem.next) := by
    rw [← holds_mutex, hw₁]
    rfl
  have hs₂ : w₂.holds = Function.update w₁.holds (.poolSet i) (some w₁.mem.next) := by
    rw [← holds_set, hw₂]
    rfl
  have h₁ : w₁.Owned := by
    refine h.update ?_ hm₁ (by rw [hw₁]; rfl) (.inr ⟨i, hi, .inl rfl⟩)
    rw [hm₁, hw₁]
    exact h.mem.malloc hm
  have h₂ : w₂.Owned := by
    have hset : w₁.holds (.poolSet i) = none := by
      rw [hw₁]
      simp [holds, setPool, hs]
    refine h₁.update ?_ hs₂ (by rw [hw₂]; rfl) (.inr ⟨i, by rw [hw₁]; exact hi, .inr rfl⟩)
    rw [hs₂, hw₂]
    exact h₁.mem.malloc hset
  have hthread : ∀ t, (w₂.setPool i { w₂.sch.pools i with thread := t }).Owned :=
    fun t => h₂.congr rfl (holds_setPool rfl rfl rfl) rfl
  subst hw₂
  subst hw₁
  unfold World.startPool
  simp only
  split_ifs
  · exact h₁
  · exact (hthread (some w.nthread)).congr rfl rfl rfl
  · exact hthread none

/-- A round of the first loop of `schRunTaskSch` is about one pool. -/
theorem startPool_other (os : RunOs) {i j : ℕ} (hj : j ≠ i) :
    (startPool os i w).1.sch.pools j = w.sch.pools j ∧
      (startPool os i w).1.sch.num = w.sch.num := by
  unfold World.startPool
  simp only
  split_ifs <;> simp [setPool, setThread, hj]

theorem Owned.startPools (os : RunOs) (k : ℕ) {i : ℕ} (h : w.Owned) (hk : i + k ≤ w.sch.num)
    (hoff : ∀ j, i ≤ j → j < i + k →
      (w.sch.pools j).mutex = none ∧ (w.sch.pools j).set = none) :
    (startPools os k i w).1.Owned := by
  induction k generalizing i w with
  | zero => exact h
  | succ k ih =>
    obtain ⟨hm, hs⟩ := hoff i le_rfl (by omega)
    have hround := h.startPool os (by omega) hm hs
    have hother : ∀ j, i + 1 ≤ j → (World.startPool os i w).1.sch.pools j = w.sch.pools j ∧
        (World.startPool os i w).1.sch.num = w.sch.num :=
      fun j hj => startPool_other os (by omega)
    simp only [World.startPools]
    split
    next w₁ heq =>
      rw [heq] at hround hother
      refine ih hround (by rw [(hother (i + 1) le_rfl).2]; omega) ?_
      intro j h1 h2
      rw [(hother j h1).1]
      exact hoff j (by omega) (by omega)
    next w₁ e heq => rw [heq] at hround; exact hround

/-- `schRunTaskSch` on pools that have no locks. -/
theorem Owned.run (h : w.Owned) (os : RunOs)
    (hoff : ∀ i < w.sch.num, (w.sch.pools i).mutex = none ∧ (w.sch.pools i).set = none) :
    (w.schRunTaskSch os).1.Owned := by
  have hloop := h.startPools os w.sch.num (Nat.zero_add _).le fun j _ hj => hoff j (by omega)
  unfold schRunTaskSch
  split_ifs
  · exact h
  · split
    next w₁ e heq => rw [heq] at hloop; exact hloop
    next w₁ heq =>
      rw [heq] at hloop
      have hraised := raiseContinue_raised os.raise w₁.sch.num 0 w₁
      split
      next w₂ heq₂ =>
        rw [heq₂] at hraised
        exact hloop.raised hraised
      next w₂ heq₂ =>
        rw [heq₂] at hraised
        have hsch : w₂.sch = w₁.sch := hraised.sch
        exact hloop.same hraised.mem (by simp only [setFlag, hsch])
  · exact h

end World

/-! ## The steps -/

/-- A worker keeps the pointers of its pool. -/
theorem Lane.Work.package {l l' : Lane} (h : l.Work l') : l'.pool.package = l.pool.package := by
  cases h with
  | dequeue hpc hq =>
    simp only [schQueueMutexEnDeQueue, Option.map_eq_some_iff] at hq
    obtain ⟨head, -, he⟩ := hq
    cases he
    rfl
  | _ => rfl

section Steps

variable {w w' : World}

theorem World.Owned.work (h : w.Owned) {t : ℕ} {a : WorkerAct} (hw : w.work t a = some w') :
    w'.Owned := by
  obtain ⟨l, inbox, hl, rfl⟩ := work_eq hw
  have hwork := Lane.work_cases hl
  obtain ⟨-, -, hm, hs⟩ := Lane.links_eq hwork.links
  exact h.congr rfl (holds_setPool hwork.package hm hs) rfl

theorem World.Owned.submit (h : w.Owned) {package package' : Option SchTaskPackage}
    {pPool : Option ℕ} {r : Except SchErrCode ℕ}
    (hsub : w.submitEnqueue package pPool = some (w', package', r)) : w'.Owned := by
  obtain ⟨order, -, ⟨e, -, -, rfl⟩ | ⟨p, pkg, pkg', pool, -, -, hpool, rfl⟩⟩ :=
    submitEnqueue_cases hsub
  · exact h.same rfl rfl
  · have h₁ : (w.setOrder order).Owned := h.same rfl rfl
    obtain ⟨hp, hm, hs⟩ : pool.package = (w.sch.pools p).package ∧
        pool.mutex = (w.sch.pools p).mutex ∧ pool.set = (w.sch.pools p).set := by
      simp only [SchTaskPool.submit] at hpool
      split_ifs at hpool
      · cases hpool
      · obtain ⟨r, hr, he⟩ := Option.map_eq_some_iff.1 hpool
        simp only [schQueueMutexEnDeQueue, Option.map_eq_some_iff] at hr
        obtain ⟨tail, -, rfl⟩ := hr
        cases he
        exact ⟨rfl, rfl, rfl⟩
    exact h₁.congr rfl (holds_setPool hp hm hs) rfl

theorem World.Owned.raise (h : w.Owned) (thread : Option ℕ) (signal : ℤ) (r : Errno) :
    (w.schRaiseThreadSignal thread signal r).1.Owned :=
  h.same (raise_mem ..) (by rw [raise_sch])

/-- A step of a client inside a call. -/
theorem Client.Steps.owned {r : Errno} {cl cl' : Client} (hst : Client.Steps w r cl w' cl')
    (hp : cl.Plain) (h : w.Owned) : w'.Owned := by
  cases hst with
  | wake | noWake | notRunning | pass | waited | skip => exact h
  | stay => exact h.same rfl rfl
  | raise | sigTerm => exact h.raise _ _ _
  | @terminated x status k hx code =>
    rw [leaveTerminate_world fun hk => hp (by simp [after, hk])]
    exact h.same rfl rfl
  | join => exact h.congr rfl (holds_setPool rfl rfl rfl) rfl
  | clear => exact h.clear _

end Steps

/-! ## Runs -/

/-- Who holds the blocks that `schCreateTaskPool` allocates one after the other. -/
def Holder.ofAddress : ℕ → Holder
  | 0 => .pool
  | 1 => .dheap
  | 2 => .set
  | 3 => .spinlock
  | 4 => .mutex
  | 5 => .conditional
  | 6 => .barrier
  | i + 7 => .package i

theorem owned_created (self n : ℕ) (flag : Flag) (maxPackagesPool : UInt32)
    (slot : ℕ → ℕ → SchTaskPackage) : (created self n flag maxPackagesPool slot).Owned := by
  have hof : ∀ b a, (created self n flag maxPackagesPool slot).holds b = some a →
      Holder.ofAddress a = b ∧ a < 7 + n := by
    intro b a hb
    cases b with
    | package i =>
      simp only [holds] at hb
      split_ifs at hb with hi
      cases hb
      exact ⟨by rw [Nat.add_comm]; rfl, Nat.add_lt_add_left hi 7⟩
    | poolMutex i | poolSet i => cases hb
    | _ => cases hb; exact ⟨rfl, by omega⟩
  refine ⟨⟨?_, ?_, ?_⟩, fun i _ => ⟨rfl, rfl⟩⟩
  · intro a
    constructor
    · intro ha
      have hlt : a < 7 + n := Finset.mem_range.1 ha
      match a with
      | 0 => exact ⟨.pool, rfl⟩
      | 1 => exact ⟨.dheap, rfl⟩
      | 2 => exact ⟨.set, rfl⟩
      | 3 => exact ⟨.spinlock, rfl⟩
      | 4 => exact ⟨.mutex, rfl⟩
      | 5 => exact ⟨.conditional, rfl⟩
      | 6 => exact ⟨.barrier, rfl⟩
      | i + 7 =>
        have hi : i < (created self n flag maxPackagesPool slot).sch.num := by
          show i < n
          omega
        refine ⟨.package i, ?_⟩
        rw [holds, if_pos hi, Nat.add_comm i 7]
        rfl
    · rintro ⟨b, hb⟩
      exact Finset.mem_range.2 (hof b a hb).2
  · intro b b' a hb hb'
    rw [← (hof b a hb).1, (hof b' a hb').1]
  · intro a ha
    exact Finset.mem_range.1 ha

section Runs

variable {ι : Type} [DecidableEq ι] {c₀ : ι} {before : Prop} {cur : ℕ → ℕ} {n : ℕ} {s s' : Sys ι}

/-- **Every block keeps one holder**, whatever the threads do. -/
theorem Controlled.owned_step (h : Controlled c₀ before cur n s) (ho : s.world.Owned) {a : Act ι}
    (hby : a.ByController c₀ s) (hno : a.NoSecondStart s) (hstep : s.step a = some s') :
    s'.world.Owned := by
  cases a with
  | worker t a =>
    obtain ⟨w, holder, hw, rfl⟩ := Sys.step_worker hstep
    exact ho.work hw
  | client c r =>
    obtain ⟨w, cl, holder, hst, rfl⟩ := Sys.step_client hstep
    exact hst.owned (h.plain c) ho
  | call c f =>
    obtain ⟨-, w, cl, hf, rfl⟩ := Sys.step_call hstep
    cases f with
    | run os =>
      obtain ⟨w₁, w₂, hrun, -, -⟩ := run_ok h.init hby.2
      have hown : (s.world.schRunTaskSch os).1.Owned := by
        refine ho.run os ?_
        intro i hi
        have hoff := (h.down hno).2 i (h.static.num ▸ hi)
        rw [h.static.lane (h.static.num ▸ hi)] at hoff
        exact ⟨hoff.2.2.1, hoff.2.2.2.1⟩
      rw [hrun] at hown
      simp only [Call.step, hrun, Option.some.injEq] at hf
      cases hf
      exact hown
    | stop r =>
      cases hf
      exact ho.raised (stop_raised r s.world)
    | submit package pPool =>
      obtain ⟨package', r, hsub, -⟩ := Call.step_submit hf
      exact ho.submit hsub
    | wait => cases hf; exact ho
    | terminate =>
      simp only [Call.step, enterTerminate, Option.some.injEq] at hf
      split at hf <;> cases hf <;> exact ho
    | release => exact hby.elim

/-! ## What is released -/

/-- The holders whose blocks `schReleaseTaskSch` frees. -/
def released (n : ℕ) : List Holder :=
  (List.range n).map Holder.package ++ [Holder.pool, .dheap, .set, .spinlock]

theorem releasable_eq (w : World) :
    releasable w = (released w.sch.num).flatMap fun b => (w.holds b).toList := by
  have hpack : (List.range w.sch.num).flatMap (fun i => (w.sch.pools i).package.toList) =
      (List.range w.sch.num).flatMap fun i => (w.holds (.package i)).toList := by
    refine List.flatMap_congr ?_
    intro i hi
    simp only [holds, if_pos (List.mem_range.1 hi)]
  rw [releasable, hpack, SchTaskSch.resources, released, List.flatMap_append, List.flatMap_map]
  simp [holds]

theorem World.Owned.mem_releasable {w : World} (h : w.Owned) {b : Holder} {a : ℕ}
    (hb : w.holds b = some a) : a ∈ releasable w ↔ b ∈ released w.sch.num := by
  rw [releasable_eq, List.mem_flatMap]
  constructor
  · rintro ⟨b', hb', ha⟩
    rw [Option.mem_toList] at ha
    rwa [h.mem.one b b' a hb ha]
  · intro hrel
    exact ⟨b, hrel, Option.mem_toList.2 hb⟩

/-- Nothing is freed that is not in use, and nothing twice. -/
theorem World.Owned.releasable {w : World} (h : w.Owned) : Releasable w := by
  constructor
  · rw [releasable_eq, List.nodup_flatMap]
    refine ⟨fun b _ => by cases w.holds b <;> simp, ?_⟩
    have hnodup : (released w.sch.num).Nodup := by
      refine List.Nodup.append (List.nodup_range.map fun i j hij => Holder.package.inj hij)
        (by decide) ?_
      intro b h1 h2
      obtain ⟨i, -, rfl⟩ := List.mem_map.1 h1
      simp at h2
    refine hnodup.imp ?_
    intro b b' hne a h1 h2
    exact hne (h.mem.one b b' a (Option.mem_toList.1 h1) (Option.mem_toList.1 h2))
  · intro a ha
    rw [releasable_eq, List.mem_flatMap] at ha
    obtain ⟨b, -, hb⟩ := ha
    exact (h.mem.live a).2 ⟨b, Option.mem_toList.1 hb⟩

/-- **No leak before the release, and three blocks at the release**: in every
    run by the rules of the controller, each block in use is held by one field
    of the scheduler; when the scheduler is not running, `schReleaseTaskSch`
    frees each block once, up to the mutex, the conditional and the barrier of
    the scheduler. -/
theorem memory_owned (self n : ℕ) (flag : Flag) (maxPackagesPool : UInt32)
    (slot : ℕ → ℕ → SchTaskPackage) (c₀ : ι) (as : List (Act ι)) (s : Sys ι)
    (hrun : sysMachine.run (.start (created self n flag maxPackagesPool slot)) as = some s)
    (has : sysMachine.Along (fun s a => a.ByController c₀ s ∧ a.NoSecondStart s)
      (.start (created self n flag maxPackagesPool slot)) as) :
    s.world.mem.Owned s.world.holds ∧ (¬ hasBit s.world.sch.flag schFlagRunning →
      Releasable s.world ∧ ∀ a, a ∈ s.world.release.mem.live ↔
        s.world.sch.mutex = some a ∨ s.world.sch.conditional = some a ∨
          s.world.sch.barrier = some a) := by
  obtain ⟨⟨before, cur, h⟩, ho⟩ : (∃ before cur, Controlled c₀ before cur n s) ∧ s.world.Owned := by
    refine Machine.run_along_inv
      (P := fun s => (∃ before cur, Controlled c₀ before cur n s) ∧ s.world.Owned) ?_ has hrun
      ⟨⟨False, id, controlled_created self n flag maxPackagesPool slot c₀⟩,
        owned_created self n flag maxPackagesPool slot⟩
    rintro s a s' ⟨⟨before, cur, h⟩, ho⟩ ⟨hby, hno⟩ hstep
    refine ⟨?_, h.owned_step ho hby hno hstep⟩
    rcases h.step hby hno hstep with ⟨h', -⟩ | ⟨cur', h', -⟩
    · exact ⟨before, cur, h'⟩
    · exact ⟨True, cur', h'⟩
  refine ⟨ho.mem, fun hdown => ⟨ho.releasable, ?_⟩⟩
  have hoff : ∀ i, s.world.holds (.poolMutex i) = none ∧ s.world.holds (.poolSet i) = none := by
    intro i
    by_cases hi : i < n
    · have hoff := (h.down hdown).2 i hi
      rw [h.static.lane hi] at hoff
      exact ⟨hoff.2.2.1, hoff.2.2.2.1⟩
    · exact ho.beyond i (by rw [h.static.num]; omega)
  intro a
  rw [release_live, ho.mem.live]
  constructor
  · rintro ⟨⟨b, hb⟩, hnot⟩
    rw [ho.mem_releasable hb] at hnot
    cases b with
    | mutex => exact .inl hb
    | conditional => exact .inr (.inl hb)
    | barrier => exact .inr (.inr hb)
    | poolMutex i => rw [(hoff i).1] at hb; cases hb
    | poolSet i => rw [(hoff i).2] at hb; cases hb
    | package i =>
      simp only [holds] at hb
      split_ifs at hb with hi
      exact absurd (by simp [released, hi]) hnot
    | pool | dheap | set | spinlock => exact absurd (by simp [released]) hnot
  · intro ha
    obtain ⟨b, hb, hkept⟩ : ∃ b, s.world.holds b = some a ∧ b ∉ released s.world.sch.num := by
      rcases ha with ha | ha | ha
      · exact ⟨.mutex, ha, by simp [released]⟩
      · exact ⟨.conditional, ha, by simp [released]⟩
      · exact ⟨.barrier, ha, by simp [released]⟩
    exact ⟨⟨b, hb⟩, fun hrel => hkept ((ho.mem_releasable hb).1 hrel)⟩

end Runs

/-- A scheduler that is started and terminated. -/
def oneCycle : List (Act Unit) :=
  [[.call () (.run .allOk), .worker 0 (.mask .ok)], .replicate 4 (.worker 0 .go),
    [.call () .terminate], .replicate 8 (.client () .zero), .replicate 3 (.worker 0 .go),
    [.worker 0 (.sig sigTerm), .worker 0 .go], .replicate 3 (.client () .zero)].flatten

/-- The locks of the pool are gone, and the three blocks stay. -/
theorem memory_owned_cycle : ∃ s : Sys Unit, 9 < s.world.mem.next ∧
    ∀ a, a ∈ s.world.release.mem.live ↔ a = 4 ∨ a = 5 ∨ a = 6 := by
  have heval : (sysMachine.run (.start (created 0 1 0 1 fun _ _ => .ofCallback 0)) oneCycle).map
      (fun s => (hasBit s.world.sch.flag schFlagRunning, s.world.mem.next, s.world.sch.mutex,
        s.world.sch.conditional, s.world.sch.barrier)) =
      some (false, 10, some 4, some 5, some 6) := by decide +kernel
  simp only [Option.map_eq_some_iff, Prod.mk.injEq] at heval
  obtain ⟨s, hs, hdown, hnext, hm, hc, hb⟩ := heval
  have howned := memory_owned 0 1 0 1 (fun _ _ => .ofCallback 0) () oneCycle s hs
    (by decide +kernel)
  refine ⟨s, by omega, ?_⟩
  intro a
  rw [(howned.2 (by rw [hdown]; simp)).2 a, hm, hc, hb]
  simp only [Option.some.injEq, eq_comm]

end TaskSch
