/-
  Task scheduler formalization — rebuilds of an array that is a heap already, and
  submissions that are tried again (`schHeapify` in src/heapify.c,
  `schSubmitTask` in src/taskSch.c).

  A submission that fails with `SCH_ERROR_POOL_FULL` leaves the rebuilt heap
  behind.  As long as nobody changes a priority, all later rebuilds leave it as
  it is, so the same pool is tried again.

  * `schHeapify_still`, `schHeapify_idem`: a rebuild of a heap changes nothing;
  * `Sys.step_still`: no step changes a `dheap` that is a heap already;
  * `retry_same_pool`: a rebuild changes nothing exactly if the array is a heap,
    and a submission that is tried again looks at the same pool;
  * `rebuilds_agree`: so it does when its rebuilds are interleaved read by read
    with the workers.
-/
import TaskSch.Rebuild
import TaskSch.SiftDown
import TaskSch.Submit

namespace TaskSch

/-! ## Rebuilds of a heap -/

section Rebuild

variable {prio : ℕ → ℤ} {n : ℕ} {arr arr' : List ℕ}

theorem schHeapify_still (hlen : arr.length = n)
    (h : HeapFrom schHeapBreath n (keyAt prio arr) 0) :
    schHeapify (fun _ => prio) n arr = some arr :=
  heapifyFrom_still hlen h _ _

/-- What comes out of a rebuild is a heap. -/
theorem schHeapify_result (hlen : arr.length = n) (hlong : ∀ p ∈ arr, prio p ≤ longMax)
    (h : schHeapify (fun _ => prio) n arr = some arr') :
    arr'.length = n ∧ HeapFrom schHeapBreath n (keyAt prio arr') 0 := by
  obtain ⟨arr'', hrun, hheap⟩ := schHeapify_heapFrom prio hlen hlong
  rw [h] at hrun
  cases hrun
  exact ⟨(schHeapify_perm _ _ h).length_eq.trans hlen, hheap⟩

/-- A second rebuild changes nothing. -/
theorem schHeapify_idem (hlen : arr.length = n) (hlong : ∀ p ∈ arr, prio p ≤ longMax)
    (h : schHeapify (fun _ => prio) n arr = some arr') :
    schHeapify (fun _ => prio) n arr' = some arr' := by
  obtain ⟨hlen', hheap⟩ := schHeapify_result hlen hlong h
  exact schHeapify_still hlen' hheap

/-- A rebuild changes nothing iff the array is a heap. -/
theorem schHeapify_eq_iff (hlen : arr.length = n) (hlong : ∀ p ∈ arr, prio p ≤ longMax)
    (h : schHeapify (fun _ => prio) n arr = some arr') : arr' = arr ↔ HeapOrder prio arr := by
  rw [heapOrder_iff hlen]
  constructor
  · rintro rfl
    exact (schHeapify_result hlen hlong h).2
  · intro hheap
    rw [schHeapify_still hlen hheap] at h
    exact (Option.some.inj h).symm

end Rebuild

/-! ## The heap between two submissions -/

namespace World

variable {w w' : World} {order : List ℕ}

/-- All pools have the same priorities. -/
def SamePriorities (w w' : World) : Prop :=
  ∀ p < w.sch.num, (w'.sch.pools p).dheapPriority = (w.sch.pools p).dheapPriority

instance (w w' : World) : Decidable (w.SamePriorities w') :=
  inferInstanceAs (Decidable (∀ p < w.sch.num, _))

/-- A rebuilt heap stays as it is while the priorities are the same. -/
theorem Arranged.rebuilt_again (h : w.Arranged) (ho : w.rebuilt = some order)
    (hheap : w'.heap = (w.sch.num, order)) (hsame : w.SamePriorities w') :
    w'.rebuilt = some order := by
  obtain ⟨hlen', horder⟩ := schHeapify_result h.length (fun p hp => h.prio p (h.mem.1 hp)) ho
  have hmem : ∀ p ∈ order, p < w.sch.num := fun p hp =>
    h.mem.1 ((schHeapify_perm _ _ ho).mem_iff.1 hp)
  simp only [heap, Prod.mk.injEq] at hheap
  rw [World.rebuilt, hheap.1, hheap.2]
  refine schHeapify_still hlen' (horder.congr ?_)
  intro j hj
  obtain ⟨p, hp, hget⟩ := exists_get order (hlen'.symm ▸ hj)
  rw [keyAt_of_get _ hget, keyAt_of_get _ hget]
  exact hsame p (hmem p hp)

/-- A submission leaves the array as it is, or as rebuilt. -/
theorem submitEnqueue_heap {package package' : Option SchTaskPackage} {pPool : Option ℕ}
    {r : Except SchErrCode ℕ} (h : w.submitEnqueue package pPool = some (w', package', r)) :
    w'.heap = w.heap ∨ ∃ order, w.rebuilt = some order ∧ w'.heap = (w.sch.num, order) := by
  rw [submitEnqueue_parts] at h
  split at h
  next => cases h; exact .inl rfl
  next pkg _ =>
    obtain ⟨order, ho, hsub⟩ := Option.bind_eq_some_iff.1 h
    exact .inr ⟨order, ho, submitChosen_heap hsub⟩

/-- A submission without a pool that finds the pool full. -/
theorem submitEnqueue_full {package package' : Option SchTaskPackage}
    (h : w.submitEnqueue package none = some (w', package', .error .poolFull)) :
    ∃ order p, w.rebuilt = some order ∧ w.target none = some p ∧
      (w.sch.pools p).reserved ≤ (w.sch.pools p).size ∧ w'.heap = (w.sch.num, order) := by
  rw [submitEnqueue_parts] at h
  split at h
  next e hcheck =>
    -- the checks fail with other errors
    cases h
    rcases submitCheck_error hcheck with he | he <;> cases he
  next pkg _ =>
    obtain ⟨order, ho, hsub⟩ := Option.bind_eq_some_iff.1 h
    have hheap := submitChosen_heap hsub
    simp only [submitChosen, Option.bind_eq_some_iff, Option.map_eq_some_iff] at hsub
    obtain ⟨p, hp, r, hr, hsub⟩ := hsub
    cases r with
    | ok r => cases hsub
    | error e =>
      cases hsub
      have hroot : order[0]? = some p := hp
      refine ⟨order, p, ho, ?_, (SchTaskPool.submit_error hr).2, hheap⟩
      rw [target, show w.rebuilt = some order from ho, Option.bind_some, hroot]

theorem submitCheck_ok {pkg : SchTaskPackage} (hadm : w.Admits (some pkg)) :
    w.submitCheck (some pkg) = .ok pkg := by
  obtain ⟨_, hpkg, hcb⟩ := hadm.callback
  cases hpkg
  simp only [submitCheck, if_neg hadm.guard, if_neg hcb]

/-- After the rebuild, a submission without a pool is decided by the pool in
    front. -/
theorem submitChosen_decided {p : ℕ} (hp : w.sch.order[0]? = some p) (pkg : SchTaskPackage) :
    ∃ w' package', w.submitChosen pkg none = some (w', package',
      if (w.sch.pools p).reserved ≤ (w.sch.pools p).size then .error .poolFull else .ok p) := by
  simp only [submitChosen, hp, Option.bind_some]
  split_ifs with hfull
  · rw [SchTaskPool.submit_full hfull]
    exact ⟨_, _, rfl⟩
  · have hpos : 0 < (w.sch.pools p).reserved := by omega
    simp only [SchTaskPool.submit, if_neg hfull, schQueueMutexEnDeQueue, umod_of_pos hpos]
    exact ⟨_, _, rfl⟩

theorem submitEnqueue_decided {p : ℕ} {pkg : SchTaskPackage} (hadm : w.Admits (some pkg))
    (ht : w.target none = some p) :
    ∃ w' package', w.submitEnqueue (some pkg) none = some (w', package',
      if (w.sch.pools p).reserved ≤ (w.sch.pools p).size then .error .poolFull else .ok p) := by
  obtain ⟨order, ho, hp⟩ := Option.bind_eq_some_iff.1 ht
  have hrebuild : schHeapify (fun _ p => (w.sch.pools p).dheapPriority) w.sch.num w.sch.order =
      some order := ho
  rw [submitEnqueue_parts, submitCheck_ok hadm]
  simp only [hrebuild, Option.bind_some]
  exact submitChosen_decided (w := w.setOrder order) hp pkg

end World

open World

/-! ## Submissions that are tried again -/

section Machine

variable {ι : Type} [DecidableEq ι] {s s' : Sys ι} {a : Act ι}

/-- **No step changes a `dheap` that is a heap.** -/
theorem Sys.step_still (ho : s.world.rebuilt = some s.world.sch.order) (h : s.step a = some s') :
    s'.world.heap = s.world.heap := by
  by_cases ha : a.isSubmit
  · cases a with
    | worker | client => cases ha
    | call c f =>
      cases f with
      | submit package pPool =>
        obtain ⟨-, w, cl, hf, rfl⟩ := Sys.step_call h
        obtain ⟨package', r, hsub, -⟩ := Call.step_submit hf
        rcases submitEnqueue_heap hsub with hheap | ⟨order, ho', hheap⟩
        · exact hheap
        · rw [ho] at ho'
          cases ho'
          exact hheap
      | run | stop | wait | terminate | release => cases ha
  · exact Sys.step_heap ha h

/-- As long as the priorities are those of `w`, the rebuilt heap stays. -/
theorem run_still {w : World} {order : List ℕ} {as : List (Act ι)} (h : w.Arranged)
    (ho : w.rebuilt = some order) (hheap : s.world.heap = (w.sch.num, order))
    (hrun : sysMachine.run s as = some s')
    (hsame : sysMachine.Throughout (fun s => w.SamePriorities s.world) s as) :
    s'.world.rebuilt = some order := by
  have hend : s'.world.heap = (w.sch.num, order) := by
    refine Machine.run_along_inv (P := fun s => s.world.heap = (w.sch.num, order)) ?_
      hsame.along hrun hheap
    intro s a s' hheap hsame hstep
    have hagain := h.rebuilt_again ho hheap hsame
    have hnow : s.world.sch.order = order := congrArg Prod.snd hheap
    rw [← hnow] at hagain
    exact (Sys.step_still hagain hstep).trans hheap
  exact h.rebuilt_again ho hend (hsame.last hrun)

/-- **A rebuild changes nothing exactly if the array is a heap**; hence a second
    rebuild changes nothing, and a submission without a pool that failed with
    `SCH_ERROR_POOL_FULL` looks at the same pool when it is tried again, whatever
    the workers and the clients did in between, as long as the priorities are the
    same. -/
theorem retry_same_pool :
    (∀ (prio : ℕ → ℤ) (dheap : List ℕ), (∀ p ∈ dheap, prio p ≤ longMax) →
      ∃ dheap', schHeapify (fun _ => prio) dheap.length dheap = some dheap' ∧
        (dheap' = dheap ↔ HeapOrder prio dheap) ∧
        schHeapify (fun _ => prio) dheap.length dheap' = some dheap') ∧
    ∀ (s s₁ s₂ : Sys ι) (c : ι) (package : Option SchTaskPackage) (as : List (Act ι)),
      s.world.Arranged → s.step (.call c (.submit package none)) = some s₁ →
      s₁.client c = .idle (some .poolFull) → sysMachine.run s₁ as = some s₂ →
      sysMachine.Throughout (fun s' => s.world.SamePriorities s'.world) s₁ as →
      ∃ p, s.world.target none = some p ∧
        (s.world.sch.pools p).reserved ≤ (s.world.sch.pools p).size ∧
        s₂.world.target none = some p ∧
        ∀ c' pkg, (s₂.client c').isIdle → s₂.world.Admits (some pkg) →
          ∃ s₃, s₂.step (.call c' (.submit (some pkg) none)) = some s₃ ∧
            s₃.client c' =
              if (s₂.world.sch.pools p).reserved ≤ (s₂.world.sch.pools p).size then
                .idle (some .poolFull)
              else .wakeTest p := by
  constructor
  · intro prio dheap hlong
    obtain ⟨dheap', hrun, -⟩ := schHeapify_heapFrom prio rfl hlong
    exact ⟨dheap', hrun, schHeapify_eq_iff rfl hlong hrun, schHeapify_idem rfl hlong hrun⟩
  · intro s s₁ s₂ c package as harr hcall hret hrun hsame
    obtain ⟨-, w, cl, hf, rfl⟩ := Sys.step_call hcall
    simp only [Function.update_self] at hret
    obtain ⟨package', r, hsub, rfl⟩ := Call.step_submit hf
    cases r with
    | ok p => cases hret
    | error e =>
      cases hret
      obtain ⟨order, p, ho, hp, hfull, hheap⟩ := submitEnqueue_full hsub
      have hagain := run_still harr ho hheap hrun hsame
      have hp' : s₂.world.target none = some p := by
        rw [← hp, target, target, hagain, ho]
      refine ⟨p, hp, hfull, hp', ?_⟩
      intro c' pkg' hidle hadm
      obtain ⟨w₂, package₂, hsub₂⟩ := submitEnqueue_decided hadm hp'
      simp only [Sys.step, if_pos hidle, Call.step, hsub₂, Option.map_some]
      refine ⟨_, rfl, ?_⟩
      split_ifs <;> simp

/-- Pool 1 is full and comes before the empty pool 0: it is tried again, also
    after a step of a worker. -/
theorem retry_same_pool_full :
    (∃ dheap', schHeapify (fun _ p => [5, 3, 1, 1, 2, 0].getD p 0) 6 [0, 1, 2, 3, 4, 5] =
        some dheap' ∧
      schHeapify (fun _ p => [5, 3, 1, 1, 2, 0].getD p 0) 6 dheap' = some dheap') ∧
    ∃ s s₁ s₂ : Sys ℕ, s.step (.call 0 (.submit (some (.ofCallback 3)) none)) = some s₁ ∧
      s₁.client 0 = .idle (some .poolFull) ∧ s₁.step (.worker 0 .go) = some s₂ ∧
      ∃ p, s.world.target none = some p ∧ s₂.world.target none = some p := by
  obtain ⟨hfixed, hretry⟩ := retry_same_pool (ι := ℕ)
  constructor
  · obtain ⟨dheap', hrun, -, hagain⟩ :=
      hfixed (fun p => [5, 3, 1, 1, 2, 0].getD p 0) [0, 1, 2, 3, 4, 5] (by decide)
    exact ⟨dheap', hrun, hagain⟩
  · have hall : (sysMachine.run (Sys.start (fresh 0 2 0 1 fun _ _ => .ofCallback 0))
        [.worker 1 (.mask .ok), .worker 1 .go, .worker 1 .go, .worker 1 .go,
          .call 0 (.submit (some (.ofCallback 1)) none), .client 0 .zero,
          .worker 0 (.mask .ok), .worker 0 .go, .worker 0 .go, .worker 0 .go, .worker 0 .go,
          .call 0 (.submit (some (.ofCallback 2)) none), .client 0 .zero, .worker 1 .go]).bind
        (fun s => (s.step (.call 0 (.submit (some (.ofCallback 3)) none))).bind fun s₁ =>
          (s₁.step (.worker 0 .go)).map fun s₂ =>
            (decide s.world.Arranged, s₁.client (0 : ℕ),
              decide (s.world.SamePriorities s₁.world),
              decide (s.world.SamePriorities s₂.world))) =
        some (true, .idle (some .poolFull), true, true) := by decide +kernel
    simp only [Option.bind_eq_some_iff, Option.map_eq_some_iff, Prod.mk.injEq,
      decide_eq_true_eq] at hall
    obtain ⟨s, -, s₁, hcall, s₂, hwork, harr, hret, hsame₁, hsame₂⟩ := hall
    refine ⟨s, s₁, s₂, hcall, hret, hwork, ?_⟩
    obtain ⟨p, hp, -, hp', -⟩ := hretry s s₁ s₂ 0 _ [.worker 0 .go] harr hcall hret
      (Machine.run_cons.2 ⟨s₂, hwork, rfl⟩)
      ⟨hsame₁, fun s' hs' => Option.some.inj (hwork.symm.trans hs') ▸ hsame₂⟩
    exact ⟨p, hp, hp'⟩

end Machine

/-! ## Rebuilds that are interleaved with the workers -/

section Machine

variable {ι : Type}

/-- While the priorities are those of `w`, all rebuilds of the submitter end with
    `order`. -/
structure Steady (w : World) (order : List ℕ) (s : RebuildSys ι) : Prop where
  inv : RebuildInv w.sch.num s
  /-- outside of a call, `dheap` is about to be rebuilt to `order` -/
  idle : s.job = none → schHeapify (fun _ p => (w.sch.pools p).dheapPriority) w.sch.num
    s.sys.world.sch.order = some order
  reads : ∀ job, s.job = some job → job.prog.Reads fun arr p => p ∈ arr
  /-- the rest of the rebuild ends with it -/
  eval : ∀ job, s.job = some job →
    job.prog.eval (fun p => (w.sch.pools p).dheapPriority) = some order
  now : ∀ job, s.job = some job →
    job.prog.now s.sys.world.sch.order = s.sys.world.sch.order

namespace Steady
variable {c₀ : ι} {w : World} {order : List ℕ} {s s' : RebuildSys ι} {a : RebuildAct ι}

/-- After the last read, `dheap` is `order`. -/
theorem done (h : Steady w order s) {job : Job} (hjob : s.job = some job) {arr : List ℕ}
    (hdone : job.prog = .done arr) : s.sys.world.sch.order = order := by
  have heval := h.eval job hjob
  have hnow := h.now job hjob
  rw [hdone] at heval hnow
  cases heval
  exact hnow.symm

/-- A read of the rebuild is one of the priorities of `w`. -/
theorem eval_read (h : Steady w order s) (hsame : w.SamePriorities s.sys.world) {job : Job}
    (hjob : s.job = some job) {prog : HeapProg (List ℕ)}
    (hprog : job.prog.step (fun p => (s.sys.world.sch.pools p).dheapPriority) = some prog) :
    prog.eval (fun p => (w.sch.pools p).dheapPriority) = some order := by
  have hsafe := h.inv.safe job hjob
  have hreads := h.reads job hjob
  have hagree : ∀ (arr : List ℕ) (p : ℕ), arr.Perm (List.range w.sch.num) → p ∈ arr →
      (w.sch.pools p).dheapPriority = (s.sys.world.sch.pools p).dheapPriority := by
    intro arr p harr hp
    exact (hsame p (List.mem_range.1 (harr.mem_iff.1 hp))).symm
  calc prog.eval (fun p => (w.sch.pools p).dheapPriority)
      = prog.eval (fun p => (s.sys.world.sch.pools p).dheapPriority) :=
        (hsafe.step hprog).eval_congr (hreads.step hprog) hagree
    _ = job.prog.eval (fun p => (s.sys.world.sch.pools p).dheapPriority) :=
        ReadProg.eval_step hprog
    _ = job.prog.eval (fun p => (w.sch.pools p).dheapPriority) :=
        (hsafe.eval_congr hreads hagree).symm
    _ = some order := h.eval job hjob

variable [DecidableEq ι]

theorem step (harr : w.Arranged) (ho : w.rebuilt = some order) (h : Steady w order s)
    (hsame : w.SamePriorities s.sys.world) (hs : s.step c₀ a = some s') : Steady w order s' := by
  have hinv := h.inv.step hs
  cases RebuildSys.step_cases hs with
  | @keep sys hheap =>
    have horder : sys.world.sch.order = s.sys.world.sch.order := congrArg Prod.snd hheap
    refine ⟨hinv, ?_, h.reads, h.eval, ?_⟩
    · rw [horder]; exact h.idle
    · rw [horder]; exact h.now
  | start package pPool hidle =>
    refine ⟨hinv, by simp, ?_, ?_, ?_⟩
    · rintro job ⟨⟩
      exact heapifyFromProg_reads ..
    · rintro job ⟨⟩
      rw [eval_schHeapifyProg, h.inv.num]
      exact h.idle hidle
    · rintro job ⟨⟩
      exact (heapifyFromProg_begins ..).now
  | read hjob hprog =>
    refine ⟨hinv, by simp, ?_, ?_, ?_⟩
    · rintro job' ⟨⟩
      exact (h.reads _ hjob).step hprog
    · rintro job' ⟨⟩
      exact h.eval_read hsame hjob hprog
    · rintro job' ⟨⟩
      exact ReadProg.now_now ..
  | @finish sys job arr hjob hdone hheap =>
    have horder : sys.world.sch.order = s.sys.world.sch.order := congrArg Prod.snd hheap
    refine ⟨hinv, ?_, by simp, by simp, by simp⟩
    -- what comes next is a second rebuild
    intro _
    rw [horder, h.done hjob hdone]
    exact schHeapify_idem harr.length (fun p hp => harr.prio p (harr.mem.1 hp)) ho

end Steady

variable [DecidableEq ι]

/-- **Interleaved rebuilds come to the same pool.**  As long as the priorities are
    the same, all submissions without a pool of a single submitter look at the
    same pool, whatever the others do between any two reads of its rebuilds. -/
theorem rebuilds_agree (c₀ : ι) (s s' : RebuildSys ι) (as : List (RebuildAct ι))
    (hidle : s.job = none) (harr : s.sys.world.Arranged)
    (hrun : (rebuildMachine c₀).run s as = some s')
    (hsame : (rebuildMachine c₀).Throughout
      (fun t => s.sys.world.SamePriorities t.sys.world) s as) :
    ∃ p, s.sys.world.target none = some p ∧
      ∀ job arr, s'.job = some job → job.pPool = none → job.prog = .done arr →
        ∃ s'', s'.step c₀ .enqueue = some s'' ∧
          s''.sys.client c₀ =
            if (s'.sys.world.sch.pools p).reserved ≤ (s'.sys.world.sch.pools p).size then
              .idle (some .poolFull)
            else .wakeTest p := by
  obtain ⟨order, ho, -, p, hroot, -⟩ := harr.rebuilt
  have hp : s.sys.world.target none = some p := by rw [target, ho, Option.bind_some, hroot]
  have hstart : Steady s.sys.world order s := by
    refine ⟨⟨rfl, harr.order, ?_⟩, fun _ => ho, ?_, ?_, ?_⟩ <;> simp [hidle]
  have hsteady : Steady s.sys.world order s' :=
    Machine.run_along_inv (fun _ _ _ h hsame hs => h.step harr ho hsame hs) hsame.along hrun hstart
  refine ⟨p, hp, ?_⟩
  intro job arr hjob hnull hdone
  have hfront : s'.sys.world.sch.order[0]? = some p := by
    rw [hsteady.done hjob hdone]
    exact hroot
  obtain ⟨w', package', hsub⟩ := submitChosen_decided hfront job.package
  simp only [RebuildSys.step, hjob, Option.bind_some, hdone, hnull, hsub, Option.map_some]
  refine ⟨_, rfl, ?_⟩
  split_ifs <;> simp

end Machine

end TaskSch
