/-
  Task scheduler formalization — a rebuild of the priority queue while the
  workers run (`schHeapify` in src/heapify.c, called by `schSubmitTask`).

  `schHeapify` holds no lock: between any two of its reads of a `dheapPriority`,
  workers store to it.  Here it is the program of its reads, so that one step is
  one read; `dheap` itself is written by the submitter only.

  * `run_schHeapifyProg`: on given values of the reads, it is `schHeapify`;
  * `eval_schHeapifyProg`: on priorities that stay put, it is the `schHeapify`
    that reads them;
  * `schHeapifyProg_safe`: whatever the reads return, it neither leaves the array
    nor uses an index that was not assigned, and permutes the array;
  * `rebuildMachine`: one submitter whose rebuild is interleaved with the
    workers and the other clients;
  * `heapify_concurrent`: in every reachable state, `dheap` lists all pools.
-/
import TaskSch.Reading
import TaskSch.System

namespace TaskSch

/-! ## `schHeapify` as the program of its reads -/

/-- A program that reads priorities of pools, and has an array of pools. -/
abbrev HeapProg (α : Type) := ReadProg (List ℕ) ℕ ℤ α

/-- `min_child` and `min_child_index`. -/
abbrev MinChild := ℤ × Option ℕ

/-- One round of the loop over the children. -/
def scanChildProg (arr : List ℕ) (len index k : ℕ) (m : MinChild) (i : ℕ) : HeapProg MinChild :=
  match getChild len index k i with
  | none => .done m
  | some c => (ReadProg.ofOption arr[c]?).bind fun p => .read arr p fun v =>
    if v < m.1 then .read arr p fun v' => .done (v', some c) else .done m

/-- The loop over the children `i + 1`, for `i` in the list. -/
def scanProg (arr : List ℕ) (len index k : ℕ) : List ℕ → MinChild → HeapProg MinChild
  | [], m => .done m
  | i :: is, m => (scanChildProg arr len index k m (i + 1)).bind (scanProg arr len index k is)

/-- `restoreDown`, at most `fuel` rounds. -/
def restoreDownProg (len k : ℕ) : ℕ → List ℕ → ℕ → HeapProg (List ℕ)
  | 0, _, _ => .fail
  | fuel + 1, arr, index =>
    (scanProg arr len index k (List.range k) (longMax, none)).bind fun m =>
      if m.1 = longMax then .done arr
      else
        (ReadProg.ofOption m.2).bind fun c => (ReadProg.ofOption arr[index]?).bind fun a =>
          (ReadProg.ofOption arr[c]?).bind fun b => .read arr a fun va => .read arr b fun vb =>
            restoreDownProg len k fuel (if va > vb then (arr.set index b).set c a else arr) c

/-- The loop over the positions below `i`. -/
def heapifyFromProg (n : ℕ) : ℕ → List ℕ → HeapProg (List ℕ)
  | 0, arr => .done arr
  | i + 1, arr => (restoreDownProg n schHeapBreath (n + 1) arr i).bind (heapifyFromProg n i)

def schHeapifyProg (n : ℕ) (dheap : List ℕ) : HeapProg (List ℕ) :=
  heapifyFromProg n ((n - 1) / schHeapBreath + 1) dheap

/-! ## On given values of the reads -/

section Run

variable (rd : Reads)

theorem run_scanChildProg (arr : List ℕ) (len index k i : ℕ) (m : MinChild) (t : ℕ) :
    (scanChildProg arr len index k m i).run rd t =
      (scanChild rd arr len index k ⟨t, m.1, m.2⟩ i).map fun s =>
        ((s.minChild, s.minChildIndex), s.t) := by
  unfold scanChildProg scanChild
  cases getChild len index k i with
  | none => rfl
  | some c =>
    simp only [ReadProg.run_bind, ReadProg.run_ofOption]
    cases arr[c]? with
    | none => rfl
    | some p =>
      simp only [Option.map_some, Option.bind_some, ReadProg.run]
      split_ifs
      · rfl
      · rfl

theorem run_scanProg (arr : List ℕ) (len index k : ℕ) (is : List ℕ) (m : MinChild) (t : ℕ) :
    (scanProg arr len index k is m).run rd t =
      (is.foldlM (fun s i => scanChild rd arr len index k s (i + 1)) ⟨t, m.1, m.2⟩).map fun s =>
        ((s.minChild, s.minChildIndex), s.t) := by
  induction is generalizing m t with
  | nil => rfl
  | cons i is ih =>
    rw [scanProg, ReadProg.run_bind, run_scanChildProg, List.foldlM_cons]
    cases hs : scanChild rd arr len index k ⟨t, m.1, m.2⟩ (i + 1) with
    | none => rfl
    | some s => exact ih (s.minChild, s.minChildIndex) s.t

theorem run_restoreDownProg (len k fuel : ℕ) (arr : List ℕ) (index t : ℕ) :
    (restoreDownProg len k fuel arr index).run rd t = restoreDown rd len k fuel arr index t := by
  induction fuel generalizing arr index t with
  | zero => rfl
  | succ fuel ih =>
    rw [restoreDownProg, restoreDown, ReadProg.run_bind, run_scanProg, scan]
    cases (List.range k).foldlM (fun s i => scanChild rd arr len index k s (i + 1))
        ⟨t, longMax, none⟩ with
    | none => rfl
    | some s =>
      simp only [Option.map_some, Option.bind_some]
      split_ifs
      · rfl
      · simp only [ReadProg.run_bind, ReadProg.run_ofOption, ReadProg.run, ih, Option.bind_map]
        rfl

theorem run_heapifyFromProg (n i : ℕ) (arr : List ℕ) (t : ℕ) :
    ((heapifyFromProg n i arr).run rd t).map Prod.fst = heapifyFrom rd n i arr t := by
  induction i generalizing arr t with
  | zero => rfl
  | succ i ih =>
    rw [heapifyFromProg, heapifyFrom, ReadProg.run_bind, run_restoreDownProg, Option.map_bind]
    congr 1
    funext r
    exact ih r.1 r.2

/-- On given values of the reads, the program is `schHeapify`. -/
theorem run_schHeapifyProg (n : ℕ) (dheap : List ℕ) :
    ((schHeapifyProg n dheap).run rd 0).map Prod.fst = schHeapify rd n dheap :=
  run_heapifyFromProg rd n _ dheap 0

end Run

/-! ## On priorities that stay put -/

section Eval

/-- The search reads the priorities of pools in the array. -/
theorem scanProg_reads (arr : List ℕ) (len index k : ℕ) (is : List ℕ) (m : MinChild) :
    (scanProg arr len index k is m).Reads (fun arr p => p ∈ arr) := by
  induction is generalizing m with
  | nil => trivial
  | cons i is ih =>
    refine ReadProg.Reads.bind ?_ ih
    unfold scanChildProg
    split
    next => trivial
    next c _ =>
      refine .ofOption_bind ?_
      intro p hp
      have hmem := List.mem_of_getElem? hp
      refine ⟨hmem, ?_⟩
      intro v
      beta_reduce
      split_ifs
      · exact ⟨hmem, fun _ => trivial⟩
      · trivial

theorem restoreDownProg_reads (len k fuel : ℕ) (arr : List ℕ) (index : ℕ) :
    (restoreDownProg len k fuel arr index).Reads (fun arr p => p ∈ arr) := by
  induction fuel generalizing arr index with
  | zero => trivial
  | succ fuel ih =>
    refine ReadProg.Reads.bind (scanProg_reads ..) ?_
    intro m
    split_ifs
    · trivial
    · refine .ofOption_bind fun c _ => .ofOption_bind fun a ha => .ofOption_bind fun b hb => ?_
      exact ⟨List.mem_of_getElem? ha, fun va => ⟨List.mem_of_getElem? hb, fun vb => ih _ _⟩⟩

theorem heapifyFromProg_reads (n i : ℕ) (arr : List ℕ) :
    (heapifyFromProg n i arr).Reads (fun arr p => p ∈ arr) := by
  induction i generalizing arr with
  | zero => trivial
  | succ i ih => exact ReadProg.Reads.bind (restoreDownProg_reads ..) ih

/-- The first swap comes after the first read. -/
theorem scanProg_begins (arr : List ℕ) (len index k : ℕ) (is : List ℕ) (m : MinChild) :
    (scanProg arr len index k is m).Begins arr fun _ => True := by
  induction is generalizing m with
  | nil => trivial
  | cons i is ih =>
    refine ReadProg.Begins.bind (Q := fun _ => True) ?_ fun m _ => ih m
    unfold scanChildProg
    split
    next => trivial
    next => exact .ofOption_bind fun p _ => rfl

theorem restoreDownProg_begins (len k fuel : ℕ) (arr : List ℕ) (index : ℕ) :
    (restoreDownProg len k fuel arr index).Begins arr (· = arr) := by
  cases fuel with
  | zero => trivial
  | succ fuel =>
    refine ReadProg.Begins.bind (scanProg_begins ..) ?_
    intro m _
    split_ifs
    · rfl
    · exact .ofOption_bind fun c _ => .ofOption_bind fun a _ => .ofOption_bind fun b _ => rfl

theorem heapifyFromProg_begins (n i : ℕ) (arr : List ℕ) :
    (heapifyFromProg n i arr).Begins arr (· = arr) := by
  induction i with
  | zero => rfl
  | succ i ih =>
    refine ReadProg.Begins.bind (restoreDownProg_begins ..) ?_
    rintro _ rfl
    exact ih

/-- On priorities that stay put, the program is `schHeapify`. -/
theorem eval_schHeapifyProg (prio : ℕ → ℤ) (n : ℕ) (dheap : List ℕ) :
    (schHeapifyProg n dheap).eval prio = schHeapify (fun _ => prio) n dheap := by
  rw [← ReadProg.run_const prio _ 0, run_schHeapifyProg]

end Eval

/-! ## Whatever the reads return -/

section Safe

variable {arr₀ arr : List ℕ} {len index k : ℕ}

theorem scanProg_safe (harr : arr.Perm arr₀) (hlen : arr.length = len) {is : List ℕ}
    (his : ∀ i ∈ is, i < k) {m : MinChild} (hm : Found len index k ⟨0, m.1, m.2⟩) :
    (scanProg arr len index k is m).Safe (·.Perm arr₀)
      fun m => Found len index k ⟨0, m.1, m.2⟩ := by
  induction is generalizing m with
  | nil => exact hm
  | cons i is ih =>
    have hik := his i List.mem_cons_self
    refine ReadProg.Safe.bind ?_ fun m hm => ih (fun i hi => his i (List.mem_cons_of_mem _ hi)) hm
    unfold scanChildProg getChild
    split_ifs with hlt
    · obtain ⟨p, -, hp⟩ := exists_get arr (hlen ▸ hlt)
      simp only [hp, ReadProg.ofOption, ReadProg.bind]
      refine ⟨harr, ?_⟩
      intro v
      beta_reduce
      split_ifs
      · refine ⟨harr, ?_⟩
        intro v'
        refine ⟨fun _ => rfl, ?_⟩
        rintro c ⟨⟩
        exact ⟨⟨by omega, by omega⟩, hlt⟩
      · exact hm
    · exact hm

theorem restoreDownProg_safe (harr : arr.Perm arr₀) (hlen : arr.length = len) {fuel : ℕ}
    (hfuel : len - index < fuel) :
    (restoreDownProg len k fuel arr index).Safe (·.Perm arr₀) (·.Perm arr₀) := by
  induction fuel generalizing arr index with
  | zero => omega
  | succ fuel ih =>
    have hstart : Found len index k ⟨0, longMax, none⟩ := ⟨fun h => absurd rfl h, by simp⟩
    refine ReadProg.Safe.bind (scanProg_safe harr hlen (fun i => List.mem_range.1) hstart) ?_
    intro m hm
    split_ifs with hmax
    · exact harr
    · obtain ⟨c, hc⟩ := Option.isSome_iff_exists.1 (hm.assigned hmax)
      obtain ⟨hchild, hn⟩ := hm.child c hc
      have hlt := hchild.lt
      obtain ⟨a, -, ha⟩ := exists_get arr (show index < arr.length by omega)
      obtain ⟨b, -, hb⟩ := exists_get arr (show c < arr.length by omega)
      simp only at hc
      simp only [hc, ha, hb, ReadProg.ofOption, ReadProg.bind]
      refine ⟨harr, fun va => ⟨harr, fun vb => ?_⟩⟩
      have hperm : (if va > vb then (arr.set index b).set c a else arr).Perm arr := by
        split_ifs
        · exact swap_perm ha hb
        · exact List.Perm.refl _
      -- the next round starts at a greater position
      exact ih (hperm.trans harr) (hperm.length_eq.trans hlen) (by omega)

theorem heapifyFromProg_safe {n : ℕ} (i : ℕ) (harr : arr.Perm arr₀) (hlen : arr₀.length = n) :
    (heapifyFromProg n i arr).Safe (·.Perm arr₀) (·.Perm arr₀) := by
  induction i generalizing arr with
  | zero => exact harr
  | succ i ih =>
    refine ReadProg.Safe.bind
      (restoreDownProg_safe harr (harr.length_eq.trans hlen) (by omega)) ?_
    intro arr' harr'
    exact ih harr'

/-- **A rebuild is safe**, whatever its reads return. -/
theorem schHeapifyProg_safe {n : ℕ} (harr : arr.Perm arr₀) (hlen : arr₀.length = n) :
    (schHeapifyProg n arr).Safe (·.Perm arr₀) (·.Perm arr₀) :=
  heapifyFromProg_safe _ harr hlen

/-- `schHeapify` ends and permutes the array. -/
theorem schHeapify_total (rd : Reads) {n : ℕ} {dheap : List ℕ} (hlen : dheap.length = n) :
    ∃ dheap', schHeapify rd n dheap = some dheap' ∧ dheap'.Perm dheap := by
  obtain ⟨r, hrun, hperm⟩ := (schHeapifyProg_safe (List.Perm.refl dheap) hlen).run rd 0
  refine ⟨r.1, ?_, hperm⟩
  rw [← run_schHeapifyProg, hrun]
  rfl

end Safe

/-! ## Rebuilds between the steps of the others -/

namespace World

/-- The checks at the start of `schSubmitTask`. -/
def submitCheck (w : World) (package : Option SchTaskPackage) : Except SchErrCode SchTaskPackage :=
  if ¬ hasBit w.sch.flag schFlagRunning ∨ ¬ hasBit w.sch.flag schFlagInit then .error .invalidState
  else
    match package with
    | none => .error .invalidArg
    | some pkg => if pkg.callback = none then .error .invalidArg else .ok pkg

theorem submitCheck_error {w : World} {package : Option SchTaskPackage} {e : SchErrCode}
    (h : w.submitCheck package = .error e) : e = .invalidState ∨ e = .invalidArg := by
  unfold submitCheck at h
  split_ifs at h
  · cases h; exact .inl rfl
  cases package with
  | none => cases h; exact .inr rfl
  | some pkg =>
    simp only at h
    split_ifs at h
    cases h
    exact .inr rfl

/-- `schSubmitTask` from the choice of the pool on. -/
def submitChosen (w : World) (pkg : SchTaskPackage) (pPool : Option ℕ) :
    Option (World × Option SchTaskPackage × Except SchErrCode ℕ) :=
  let pool := match pPool with
    | none => w.sch.order[0]?
    | some p => if p < w.sch.num then some p else none
  pool.bind fun p => ((w.sch.pools p).submit pkg).map fun
    | .error e => (w, some pkg, .error e)
    | .ok (pool, pkg) =>
      ((w.setPool p pool).setLog p
        { w.log p with accepted := (w.log p).accepted ++ [pkg] }, some pkg, .ok p)

/-- The parts of `submitEnqueue`, with a rebuild in between. -/
theorem submitEnqueue_parts (w : World) (package : Option SchTaskPackage) (pPool : Option ℕ) :
    w.submitEnqueue package pPool =
      match w.submitCheck package with
      | .error e => some (w, package, .error e)
      | .ok pkg =>
        (schHeapify (fun _ p => (w.sch.pools p).dheapPriority) w.sch.num w.sch.order).bind
          fun order => (w.setOrder order).submitChosen pkg pPool := by
  unfold submitEnqueue submitCheck
  split_ifs
  · rfl
  cases package with
  | none => rfl
  | some pkg =>
    simp only
    split_ifs
    · rfl
    · rfl

theorem Raised.heap {w w' : World} (h : Raised w w') : w'.heap = w.heap := by
  rw [World.heap, h.sch]
  rfl

theorem startPools_heap (os : RunOs) (k i : ℕ) (w : World) :
    (startPools os k i w).1.heap = w.heap := by
  induction k generalizing i w with
  | zero => rfl
  | succ k ih =>
    have hone : (startPool os i w).1.heap = w.heap := by
      unfold startPool
      split_ifs <;> rfl
    rw [startPools]
    split
    next w₁ heq =>
      rw [heq] at hone
      exact (ih (i + 1) w₁).trans hone
    next w₁ e heq =>
      rw [heq] at hone
      exact hone

theorem run_heap (os : RunOs) (w : World) : (schRunTaskSch os w).1.heap = w.heap := by
  have hstart := startPools_heap os w.sch.num 0 w
  unfold schRunTaskSch
  split
  next => rfl
  next =>
    split
    next => rfl
    next =>
      split
      next w₁ e heq =>
        rw [heq] at hstart
        exact hstart
      next w₁ heq =>
        rw [heq] at hstart
        have hraise := (raiseContinue_raised os.raise w₁.sch.num 0 w₁).heap
        split
        next w₂ heq₂ =>
          rw [heq₂] at hraise
          exact hraise.trans hstart
        next w₂ heq₂ =>
          rw [heq₂] at hraise
          exact hraise.trans hstart

theorem leaveTerminate_heap (w : World) (status : SchErrCode) (k : After) :
    (leaveTerminate w status k).1.heap = w.heap := by
  cases k with
  | ret | runFailed => rfl
  | release =>
    simp only [leaveTerminate]
    split_ifs
    · rfl
    · have hsch := releasePools_sch w.sch.num 0 w
      simp only [heap, release, schReleaseSchedulerResources]
      rw [hsch]

theorem enterTerminate_heap (w : World) (k : After) : (enterTerminate w k).1.heap = w.heap := by
  unfold enterTerminate
  split
  · exact leaveTerminate_heap w _ k
  · rfl

theorem submitChosen_heap {w w' : World} {pkg : SchTaskPackage} {pPool : Option ℕ}
    {package : Option SchTaskPackage} {r : Except SchErrCode ℕ}
    (h : w.submitChosen pkg pPool = some (w', package, r)) : w'.heap = w.heap := by
  simp only [submitChosen, Option.bind_eq_some_iff, Option.map_eq_some_iff] at h
  obtain ⟨p, -, r', -, h⟩ := h
  cases r' with
  | error e => cases h; rfl
  | ok r' => cases h; rfl

end World

open World

/-- A step of a client inside a call leaves `dheap` alone. -/
theorem Client.Steps.heap {w w' : World} {r : Errno} {cl cl' : Client}
    (h : Client.Steps w r cl w' cl') : w'.heap = w.heap := by
  cases h with
  | raise | sigTerm => exact raise_heap w _ _ r
  | terminated => exact leaveTerminate_heap _ _ _
  | wake | noWake | stay | notRunning | pass | waited | skip | join | clear => rfl

section Machine

variable {ι : Type}

/-- Somebody calls `schSubmitTask`. -/
def Act.isSubmit : Act ι → Bool
  | .call _ (.submit _ _) => true
  | _ => false

/-- The client that takes the step. -/
def Act.client? : Act ι → Option ι
  | .worker _ _ => none
  | .call c _ | .client c _ => some c

/-- A call other than `schSubmitTask` leaves `dheap` alone. -/
theorem Call.step_heap {c : ι} {w w' : World} {f : Call} {cl : Client}
    (hf : ¬ (Act.call c f).isSubmit) (h : f.step w = some (w', cl)) : w'.heap = w.heap := by
  cases f with
  | run os =>
    have hrun := run_heap os w
    simp only [Call.step] at h
    split at h
    next w₁ status heq =>
      cases h
      rw [heq] at hrun
      exact hrun
    next w₁ status heq =>
      have henter := enterTerminate_heap w₁ (.runFailed status)
      rw [Option.some.inj h] at henter
      rw [heq] at hrun
      exact henter.trans hrun
  | stop r =>
    simp only [Call.step, Option.some.injEq, Prod.mk.injEq] at h
    obtain ⟨rfl, -⟩ := h
    exact (stop_raised r w).heap
  | submit package pPool => exact absurd rfl hf
  | wait => cases h; rfl
  | terminate =>
    have henter := enterTerminate_heap w .ret
    rwa [Option.some.inj h] at henter
  | release =>
    have henter := enterTerminate_heap w .release
    rwa [Option.some.inj h] at henter

variable [DecidableEq ι]

theorem Sys.step_heap {s s' : Sys ι} {a : Act ι} (ha : ¬ a.isSubmit) (h : s.step a = some s') :
    s'.world.heap = s.world.heap := by
  cases a with
  | worker t a =>
    simp only [Sys.step, Option.map_eq_some_iff] at h
    obtain ⟨w, hw, rfl⟩ := h
    exact work_heap hw
  | call c f =>
    simp only [Sys.step] at h
    split_ifs at h
    simp only [Option.map_eq_some_iff] at h
    obtain ⟨⟨w, cl⟩, hf, rfl⟩ := h
    exact Call.step_heap ha hf
  | client c r =>
    simp only [Sys.step, Option.map_eq_some_iff] at h
    obtain ⟨⟨w, cl, op⟩, hc, rfl⟩ := h
    exact (Client.step_cases hc).heap

/-- A call of `schSubmitTask` in its rebuild, or right after it. -/
structure Job where
  package : SchTaskPackage
  pPool : Option ℕ
  prog : HeapProg (List ℕ)

/-- The system, with what its only submitter is doing. -/
structure RebuildSys (ι : Type) where
  sys : Sys ι
  job : Option Job

/-- A step of anybody else, or of the submitter outside of `schSubmitTask` up to
    the update of the priority; or the checks, a read of the rebuild, or the
    rest. -/
inductive RebuildAct (ι : Type) where
  | other (a : Act ι)
  | submit (package : Option SchTaskPackage) (pPool : Option ℕ)
  | read
  | enqueue

/-- One step, where `c₀` is the submitter.  A swap in `dheap` belongs to the read
    before it. -/
def RebuildSys.step (c₀ : ι) (s : RebuildSys ι) : RebuildAct ι → Option (RebuildSys ι)
  | .other a =>
    if a.isSubmit ∨ s.job.isSome ∧ a.client? = some c₀ then none
    else (s.sys.step a).map fun sys => { s with sys := sys }
  | .submit package pPool =>
    if s.job.isNone ∧ (s.sys.client c₀).isIdle then
      match s.sys.world.submitCheck package with
      | .error e =>
        some { s with
          sys := { s.sys with client := Function.update s.sys.client c₀ (.idle (some e)) } }
      | .ok pkg =>
        some { s with
          job := some ⟨pkg, pPool, schHeapifyProg s.sys.world.sch.num s.sys.world.sch.order⟩ }
    else none
  | .read =>
    s.job.bind fun job =>
      (job.prog.step fun p => (s.sys.world.sch.pools p).dheapPriority).map fun prog =>
        ⟨{ s.sys with world := s.sys.world.setOrder (prog.now s.sys.world.sch.order) },
          some { job with prog := prog }⟩
  | .enqueue =>
    s.job.bind fun job =>
      match job.prog with
      | .done _ => (s.sys.world.submitChosen job.package job.pPool).map fun r =>
        ⟨{ s.sys with
            world := r.1
            client := Function.update s.sys.client c₀
              (match r.2.2 with | .error e => .idle (some e) | .ok p => .wakeTest p) }, none⟩
      | .fail | .read _ _ _ => none

def rebuildMachine (c₀ : ι) : Machine (RebuildSys ι) (RebuildAct ι) := ⟨RebuildSys.step c₀⟩

/-- Everything that a step can do to `dheap` and to the submitter. -/
inductive RebuildSys.Steps (s : RebuildSys ι) : RebuildSys ι → Prop
  | keep {sys : Sys ι} (hheap : sys.world.heap = s.sys.world.heap) : Steps s ⟨sys, s.job⟩
  | start (package : SchTaskPackage) (pPool : Option ℕ) (hidle : s.job = none) :
      Steps s ⟨s.sys, some ⟨package, pPool,
        schHeapifyProg s.sys.world.sch.num s.sys.world.sch.order⟩⟩
  | read {job : Job} {prog : HeapProg (List ℕ)} (hjob : s.job = some job)
      (hprog : job.prog.step (fun p => (s.sys.world.sch.pools p).dheapPriority) = some prog) :
      Steps s ⟨{ s.sys with world := s.sys.world.setOrder (prog.now s.sys.world.sch.order) },
        some { job with prog := prog }⟩
  | finish {sys : Sys ι} {job : Job} {arr : List ℕ} (hjob : s.job = some job)
      (hdone : job.prog = .done arr) (hheap : sys.world.heap = s.sys.world.heap) :
      Steps s ⟨sys, none⟩

theorem RebuildSys.step_cases {c₀ : ι} {s s' : RebuildSys ι} {a : RebuildAct ι}
    (h : s.step c₀ a = some s') : RebuildSys.Steps s s' := by
  cases a with
  | other a =>
    simp only [RebuildSys.step] at h
    split_ifs at h with hguard
    push Not at hguard
    simp only [Option.map_eq_some_iff] at h
    obtain ⟨sys, hsys, rfl⟩ := h
    exact .keep (Sys.step_heap (by simpa using hguard.1) hsys)
  | submit package pPool =>
    simp only [RebuildSys.step] at h
    split_ifs at h with hguard
    split at h
    next e _ => cases h; exact .keep rfl
    next pkg _ => cases h; exact .start pkg pPool (Option.isNone_iff_eq_none.1 hguard.1)
  | read =>
    simp only [RebuildSys.step, Option.bind_eq_some_iff, Option.map_eq_some_iff] at h
    obtain ⟨job, hjob, prog, hprog, rfl⟩ := h
    exact .read hjob hprog
  | enqueue =>
    simp only [RebuildSys.step, Option.bind_eq_some_iff] at h
    obtain ⟨job, hjob, h⟩ := h
    split at h
    next arr hdone =>
      simp only [Option.map_eq_some_iff] at h
      obtain ⟨⟨w, package, r⟩, hsub, rfl⟩ := h
      exact .finish hjob hdone (submitChosen_heap hsub)
    next => cases h
    next => cases h

/-- `dheap` lists the `n` pools, and a rebuild goes on to do so. -/
structure RebuildInv (n : ℕ) (s : RebuildSys ι) : Prop where
  num : s.sys.world.sch.num = n
  order : s.sys.world.sch.order.Perm (List.range n)
  safe : ∀ job, s.job = some job →
    job.prog.Safe (·.Perm (List.range n)) (·.Perm (List.range n))

theorem RebuildInv.step {c₀ : ι} {n : ℕ} {s s' : RebuildSys ι} {a : RebuildAct ι}
    (h : RebuildInv n s) (hs : s.step c₀ a = some s') : RebuildInv n s' := by
  cases RebuildSys.step_cases hs with
  | keep hheap =>
    simp only [World.heap, Prod.mk.injEq] at hheap
    exact ⟨hheap.1.trans h.num, hheap.2 ▸ h.order, h.safe⟩
  | start package pPool hidle =>
    refine ⟨h.num, h.order, ?_⟩
    rintro job ⟨⟩
    exact schHeapifyProg_safe h.order (by rw [List.length_range]; exact h.num.symm)
  | read hjob hprog =>
    have hsafe := (h.safe _ hjob).step hprog
    refine ⟨h.num, hsafe.now _, ?_⟩
    rintro job' ⟨⟩
    exact hsafe
  | finish hjob hdone hheap =>
    simp only [World.heap, Prod.mk.injEq] at hheap
    exact ⟨hheap.1.trans h.num, hheap.2 ▸ h.order, by simp⟩

/-- **`schHeapify` is safe while the priorities change**: whatever its reads
    return, it ends inside of the array and permutes it.  Hence, in every run of a
    scheduler with one submitter, whose rebuild is interleaved read by read with
    the workers and the other clients, `dheap` always lists all pools and the
    rebuild never fails. -/
theorem heapify_concurrent (c₀ : ι) :
    (∀ (rd : Reads) (n : ℕ) (dheap : List ℕ), dheap.length = n →
      ∃ dheap', schHeapify rd n dheap = some dheap' ∧ dheap'.Perm dheap) ∧
    ∀ (self n : ℕ) (flag : Flag) (maxPackagesPool : UInt32) (slot : ℕ → ℕ → SchTaskPackage)
      (as : List (RebuildAct ι)) (s : RebuildSys ι),
      (rebuildMachine c₀).run ⟨.start (created self n flag maxPackagesPool slot), none⟩ as =
          some s →
        s.sys.world.sch.num = n ∧ s.sys.world.sch.order.Perm (List.range n) ∧
          ∀ job, s.job = some job → job.prog ≠ .fail := by
  constructor
  · intro rd n dheap hlen
    exact schHeapify_total rd hlen
  · intro self n flag maxPackagesPool slot as s hrun
    have hinv : RebuildInv n s := by
      refine Machine.run_inv (P := RebuildInv n) (fun _ _ _ h hs => h.step hs) hrun ?_
      exact ⟨rfl, List.Perm.refl _, by simp⟩
    exact ⟨hinv.num, hinv.order, fun job hjob => (hinv.safe job hjob).not_fail⟩

/-- Keys that grow with each read; and two pools, with a step of a worker between
    the reads of a rebuild. -/
theorem heapify_concurrent_two :
    (∃ dheap', schHeapify (fun t _ => t) 6 [0, 1, 2, 3, 4, 5] = some dheap' ∧
      dheap'.Perm [0, 1, 2, 3, 4, 5]) ∧
    ∃ s : RebuildSys ℕ, (rebuildMachine 0).run
      ⟨.start (created 0 2 0 1 fun _ _ => .ofCallback 0), none⟩
      [.other (.call 0 (.run .allOk)), .submit (some (.ofCallback 1)) none, .read,
        .other (.worker 0 (.mask .ok)), .read, .read, .read, .enqueue] = some s ∧
      s.sys.world.sch.order.Perm (List.range 2) := by
  obtain ⟨s, hs⟩ := Option.isSome_iff_exists.1 (show ((rebuildMachine 0).run
    ⟨.start (created 0 2 0 1 fun _ _ => .ofCallback 0), none⟩
      [.other (.call 0 (.run .allOk)), .submit (some (.ofCallback 1)) none, .read,
        .other (.worker 0 (.mask .ok)), .read, .read, .read, .enqueue]).isSome by decide +kernel)
  obtain ⟨htotal, hruns⟩ := heapify_concurrent 0
  exact ⟨htotal _ 6 _ rfl, s, hs, (hruns 0 2 0 1 _ _ s hs).2.1⟩

end Machine

end TaskSch
