/-
  Task scheduler formalization — two submissions at a time that lose a pool
  (`schSubmitTask` in src/taskSch.c, `schHeapify` in src/heapify.c).

  A thread that swaps the first entry of `dheap` reads the two pointers and the
  two priorities one after the other.  Another thread may swap the same entries,
  and a worker store a priority, in between.

  * `crowdMachine`: a scheduler with its workers, and threads that are anywhere
    in `schSubmitTask`, one access of their rebuilds at a time;
  * `Crowd.run_part`, `Crowd.run_alone`: a rebuild that nobody disturbs, and the
    whole call, which is then `schSubmitTask`;
  * `Crowd.Inside`: the invariant that only pools in the array are chosen;
  * `pool_lost`: with two pools or more, two submissions at a time can drop a
    pool from the array after the first task of a scheduler, and then no
    submission ever chooses it again.
-/
import TaskSch.Rebuilds
import TaskSch.Additions
import TaskSch.Submit

namespace TaskSch

open World

/-! ## `schSubmitTask` with its accesses to the heap -/

namespace World

/-- What a rebuild works on, as it is in the scheduler. -/
def cells (w : World) : (c : HeapCell) → c.Value :=
  heapMem (fun p => (w.sch.pools p).dheapPriority) w.sch.order

/-- One access of a rebuild.  There is none beyond the end of `dheap`. -/
def access {α : Type} (w : World) : HeapSteps α → Option (World × HeapSteps α)
  | .read (.entry j) k => w.sch.order[j]?.map fun p => (w, k p)
  | .read (.prio p) k => some (w, k (w.sch.pools p).dheapPriority)
  | .write (.entry j) p k =>
    if j < w.sch.order.length then some (w.setOrder (w.sch.order.set j p), k) else none
  | .write (.prio p) v k => some (w.setPool p ((w.sch.pools p).withPriority v), k)
  | .done _ | .fail => none

/-- The end of `schSubmitTask`: the pool `p` is woken if need be. -/
def wakePool (w : World) (p : ℕ) (kill : Errno) : World × SchErrCode :=
  if needsWake (w.sch.pools p) then
    match w.schRaiseThreadSignal (w.sch.pools p).thread schSignalContinue kill with
    | (w, status) => (w, if status.toInt = 0 then .signal else .ok)
  else (w, .ok)

/-- `schSubmitTask` from the full test of the pool `p` on, where `pthread_kill`
    returns `kill`: the caller's package, and the status. -/
def submitTo (w : World) (p : ℕ) (package : SchTaskPackage) (kill : Errno) :
    Option (World × SchTaskPackage × SchErrCode) :=
  ((w.sch.pools p).submit package).map fun
    | .error e => (w, package, e)
    | .ok (pool, package) =>
      match wakePool ((w.setPool p pool).setLog p
        { w.log p with accepted := (w.log p).accepted ++ [package] }) p kill with
      | (w, status) => (w, package, status)

end World

/-- Where a thread is in `schSubmitTask`, called without `pPool`. -/
inductive Submitter where
  /-- outside; the status of the last call -/
  | out (status : Option SchErrCode)
  /-- it rebuilds `dheap` and reads the first entry -/
  | choosing (package : SchTaskPackage) (prog : HeapSteps (Option ℕ))

/-- The rest of the choice. -/
def Submitter.prog : Submitter → HeapSteps (Option ℕ)
  | .out _ => .done none
  | .choosing _ prog => prog

/-- The checks of `schSubmitTask`. -/
def World.enter (w : World) (package : Option SchTaskPackage) : Submitter :=
  if ¬ hasBit w.sch.flag schFlagRunning ∨ ¬ hasBit w.sch.flag schFlagInit then
    .out (some .invalidState)
  else
    match package with
    | none => .out (some .invalidArg)
    | some pkg =>
      if pkg.callback = none then .out (some .invalidArg)
      else .choosing pkg (chooseSteps w.sch.num)

/-- A scheduler and the threads that submit to it. -/
structure Crowd (ι : Type) where
  world : World
  submitter : ι → Submitter

inductive CrowdAct (ι : Type) where
  /-- the thread `i` calls `schSubmitTask` -/
  | call (i : ι) (package : Option SchTaskPackage)
  /-- the thread `i` makes an access of its rebuild -/
  | access (i : ι)
  /-- the thread `i`, which has chosen a pool, goes on to the end -/
  | finish (i : ι) (kill : Errno)
  /-- a step of the worker thread `t` -/
  | work (t : ℕ) (a : WorkerAct)

variable {ι : Type} [DecidableEq ι]

def Crowd.step (s : Crowd ι) : CrowdAct ι → Option (Crowd ι)
  | .call i package =>
    match s.submitter i with
    | .out _ => some { s with submitter := Function.update s.submitter i (s.world.enter package) }
    | .choosing _ _ => none
  | .access i =>
    match s.submitter i with
    | .out _ => none
    | .choosing package prog => (s.world.access prog).map fun r =>
        ⟨r.1, Function.update s.submitter i (.choosing package r.2)⟩
  | .finish i kill =>
    match s.submitter i with
    | .choosing package (.done (some p)) => (s.world.submitTo p package kill).map fun r =>
        ⟨r.1, Function.update s.submitter i (.out (some r.2.2))⟩
    | _ => none
  | .work t a => (s.world.work t a).map fun w => { s with world := w }

def crowdMachine (ι : Type) [DecidableEq ι] : Machine (Crowd ι) (CrowdAct ι) := ⟨Crowd.step⟩

/-- Nobody has called `schSubmitTask` yet. -/
def Crowd.start (w : World) : Crowd ι := ⟨w, fun _ => .out none⟩

/-- The choices under way, and what they work on. -/
def Crowd.choices (s : Crowd ι) : Choices ι := ⟨s.world.cells, fun i => (s.submitter i).prog⟩

/-- The threads get from `s` to `t`. -/
def Crowd.Leads (s t : Crowd ι) : Prop := ∃ as, (crowdMachine ι).run s as = some t

namespace Crowd

variable {s t u : Crowd ι} {i : ι}

theorem Leads.refl (s : Crowd ι) : Leads s s := ⟨[], rfl⟩

theorem Leads.trans (h : Leads s t) (h' : Leads t u) : Leads s u := by
  obtain ⟨as, has⟩ := h
  obtain ⟨bs, hbs⟩ := h'
  refine ⟨as ++ bs, ?_⟩
  rw [Machine.run_append, has, Option.bind_some, hbs]

theorem Leads.step {a : CrowdAct ι} (h : s.step a = some t) : Leads s t :=
  ⟨[a], Machine.run_cons.2 ⟨t, h, rfl⟩⟩

/-! ## Without anybody in between -/

theorem step_access {package : SchTaskPackage} {prog prog' : HeapSteps (Option ℕ)} {w : World}
    (hi : s.submitter i = .choosing package prog) (h : s.world.access prog = some (w, prog')) :
    s.step (.access i) =
      some ⟨w, Function.update s.submitter i (.choosing package prog')⟩ := by
  simp only [step, hi, h, Option.map_some]

theorem heapMem_inj {prio : ℕ → ℤ} {arr arr' : List ℕ} (hlen : arr.length = arr'.length)
    (h : heapMem prio arr = heapMem prio arr') : arr = arr' := by
  refine List.ext_getElem hlen ?_
  intro j hj hj'
  have hget := congrFun h (.entry j)
  simpa [heapMem, List.getD, hj, hj'] using hget

/-- **A part of a choice that nobody disturbs** does what its evaluation says,
    and changes nothing but the order of `dheap`: a rebuild stores no priority. -/
theorem run_part {β : Type} {n : ℕ} {S : ℕ → Prop} {prio : ℕ → ℤ} {package : SchTaskPackage}
    {p : HeapSteps β} {Q : β → Prop} {f : β → HeapSteps (Option ℕ)} {b : β}
    {mem : (c : HeapCell) → c.Value}
    (hsafe : p.Safe (HeapCell.InRange n S) (HeapCell.Points S fun q v => v = prio q) Q)
    (hi : s.submitter i = .choosing package (p.bind f)) (hlen : s.world.sch.order.length = n)
    (hS : ∀ q ∈ s.world.sch.order, S q)
    (hprio : ∀ q, (s.world.sch.pools q).dheapPriority = prio q)
    (he : p.eval (heapMem prio s.world.sch.order) = some (b, mem)) :
    ∃ order, order.length = n ∧ (∀ q ∈ order, S q) ∧ mem = heapMem prio order ∧
      Leads s ⟨s.world.setOrder order, Function.update s.submitter i
        (.choosing package (f b))⟩ := by
  induction p generalizing s with
  | done b =>
    cases he
    refine ⟨s.world.sch.order, hlen, hS, rfl, ?_⟩
    have hsame : Function.update s.submitter i (.choosing package (f b)) = s.submitter := by
      rw [show Submitter.choosing package (f b) = s.submitter i from hi.symm,
        Function.update_eq_self]
    rw [hsame]
    exact .refl s
  | fail => cases he
  | read c k ih =>
    obtain ⟨hc, hk⟩ := hsafe
    cases c with
    | entry j =>
      obtain ⟨q, hq, hget⟩ := exists_get s.world.sch.order (show j < _ from hlen ▸ hc)
      simp only [AccessProg.eval, heapMem_get prio hget] at he
      have hstep : s.step (.access i) = some ⟨s.world,
          Function.update s.submitter i (.choosing package ((k q).bind f))⟩ :=
        step_access hi (by simp [AccessProg.bind, access, hget])
      obtain ⟨order, hlen', hS', hmem, hleads⟩ := ih q (s := ⟨s.world, Function.update s.submitter i
        (.choosing package ((k q).bind f))⟩) (hk q (hS q hq)) (by simp) hlen hS hprio he
      refine ⟨order, hlen', hS', hmem, (Leads.step hstep).trans ?_⟩
      simpa using hleads
    | prio q =>
      simp only [AccessProg.eval, heapMem_prio] at he
      have hstep : s.step (.access i) = some ⟨s.world,
          Function.update s.submitter i (.choosing package ((k (prio q)).bind f))⟩ :=
        step_access hi (by simp [AccessProg.bind, access, hprio q])
      obtain ⟨order, hlen', hS', hmem, hleads⟩ := ih (prio q) (s := ⟨s.world,
        Function.update s.submitter i (.choosing package ((k (prio q)).bind f))⟩)
        (hk (prio q) rfl) (by simp) hlen hS hprio he
      refine ⟨order, hlen', hS', hmem, (Leads.step hstep).trans ?_⟩
      simpa using hleads
  | write c v k ih =>
    obtain ⟨hc, hv, hk⟩ := hsafe
    cases c with
    | entry j =>
      have hj : j < s.world.sch.order.length := hlen ▸ hc
      simp only [AccessProg.eval] at he
      rw [heapMem_set prio hj] at he
      have hstep : s.step (.access i) = some ⟨s.world.setOrder (s.world.sch.order.set j v),
          Function.update s.submitter i (.choosing package (k.bind f))⟩ :=
        step_access hi (by simp [AccessProg.bind, access, hj])
      obtain ⟨order, hlen', hS', hmem, hleads⟩ := ih (s := ⟨s.world.setOrder
        (s.world.sch.order.set j v), Function.update s.submitter i (.choosing package (k.bind f))⟩)
        hk (by simp) (by simpa [setOrder] using hlen)
        (fun q hq => (List.mem_or_eq_of_mem_set hq).elim (hS q) fun h => h ▸ hv) hprio he
      refine ⟨order, hlen', hS', hmem, (Leads.step hstep).trans ?_⟩
      simpa [setOrder] using hleads
    | prio q =>
      -- the priority that is stored is the one that is there
      simp only [HeapCell.Points] at hv
      have hsame : s.world.setPool q ((s.world.sch.pools q).withPriority v) = s.world := by
        rw [SchTaskPool.withPriority, hv, ← hprio q]
        simp only [setPool, Function.update_eq_self]
      have hmem' : Function.update (heapMem prio s.world.sch.order) (.prio q) v =
          heapMem prio s.world.sch.order := by
        rw [hv]
        exact Function.update_eq_self (.prio q : HeapCell) _
      simp only [AccessProg.eval, hmem'] at he
      have hstep : s.step (.access i) = some ⟨s.world,
          Function.update s.submitter i (.choosing package (k.bind f))⟩ :=
        step_access hi (by simp [AccessProg.bind, access, hsame])
      obtain ⟨order, hlen', hS', hmem, hleads⟩ := ih (s := ⟨s.world, Function.update s.submitter i
        (.choosing package (k.bind f))⟩) hk (by simp) hlen hS hprio he
      refine ⟨order, hlen', hS', hmem, (Leads.step hstep).trans ?_⟩
      simpa using hleads

end Crowd

theorem World.wakePool_eq (w : World) (p : ℕ) (package : Option SchTaskPackage) (kill : Errno) :
    (if needsWake (w.sch.pools p) then
      ((w.schRaiseThreadSignal (w.sch.pools p).thread schSignalContinue kill).1, package,
        if (w.schRaiseThreadSignal (w.sch.pools p).thread schSignalContinue kill).2.toInt = 0
        then .signal else .ok)
    else (w, package, .ok)) = ((w.wakePool p kill).1, package, (w.wakePool p kill).2) := by
  unfold wakePool
  by_cases hwake : needsWake (w.sch.pools p)
  · rw [if_pos hwake, if_pos hwake]
  · rw [if_neg hwake, if_neg hwake]

/-- A call whose checks pass goes on with the first entry of the rebuilt heap. -/
theorem World.schSubmitTask_submitTo {w : World} {package : SchTaskPackage}
    (hadm : w.Admits (some package)) {order : List ℕ} (ho : w.rebuilt = some order) {p : ℕ}
    (hp : order[0]? = some p) (kill : Errno) :
    w.schSubmitTask (some package) none kill =
      ((w.setOrder order).submitTo p package kill).map fun r => (r.1, some r.2.1, r.2.2) := by
  rw [schSubmitTask, submitEnqueue_eq hadm ho, target, ho, Option.bind_some, hp, Option.bind_some,
    submitTo, Option.map_map, Option.map_map]
  refine congrArg (fun g => Option.map g ((w.sch.pools p).submit package)) (funext fun r => ?_)
  cases r with
  | error e => rfl
  | ok r =>
    exact wakePool_eq (((w.setOrder order).setPool p r.1).setLog p
      { w.log p with accepted := (w.log p).accepted ++ [r.2] }) p (some r.2) kill

theorem World.enter_eq {w : World} {package : SchTaskPackage} (hadm : w.Admits (some package)) :
    w.enter (some package) = .choosing package (chooseSteps w.sch.num) := by
  obtain ⟨_, hpkg, hcb⟩ := hadm.callback
  cases hpkg
  simp only [enter, if_neg hadm.guard, if_neg hcb]

namespace Crowd

variable {s t u : Crowd ι} {i : ι}

theorem step_call (package : Option SchTaskPackage) {status : Option SchErrCode}
    (hi : s.submitter i = .out status) :
    s.step (.call i package) =
      some { s with submitter := Function.update s.submitter i (s.world.enter package) } := by
  simp only [step, hi]

/-- **A call that nobody disturbs** is `schSubmitTask`. -/
theorem run_alone {package package' : SchTaskPackage} {kill : Errno} {w : World}
    {status : SchErrCode} {old : Option SchErrCode} (hi : s.submitter i = .out old)
    (harr : s.world.Arranged) (hadm : s.world.Admits (some package))
    (h : s.world.schSubmitTask (some package) none kill = some (w, some package', status)) :
    Leads s ⟨w, Function.update s.submitter i (.out (some status))⟩ := by
  obtain ⟨order, ho, -, root, hroot, -⟩ := harr.rebuilt
  have hlen := harr.length
  have hlen' : order.length = s.world.sch.num := (schHeapify_perm _ _ ho).length_eq.trans hlen
  have hcall := step_call (some package) hi
  rw [World.enter_eq hadm] at hcall
  refine (Leads.step hcall).trans ?_
  have he : (chooseSteps s.world.sch.num).eval s.world.cells = some (some root,
      heapMem (fun p => (s.world.sch.pools p).dheapPriority) order) := by
    rw [chooseSteps, AccessProg.eval_bind, World.cells, eval_schHeapifySteps _ hlen,
      show schHeapify _ _ _ = some order from ho]
    simp only [Option.map_some, Option.bind_some, AccessProg.eval, heapMem_get _ hroot]
  have hchoosing : Function.update s.submitter i (.choosing package (chooseSteps s.world.sch.num))
      i = .choosing package ((chooseSteps s.world.sch.num).bind .done) := by
    rw [Function.update_self, AccessProg.bind_done]
  obtain ⟨order', hlen'', -, hmem, hleads⟩ := run_part (s := ⟨s.world, Function.update s.submitter i
    (.choosing package (chooseSteps s.world.sch.num))⟩) (S := (· < s.world.sch.num))
    (chooseSteps_safe harr.num) hchoosing hlen (fun q => harr.mem.1) (fun _ => rfl) he
  obtain rfl := heapMem_inj (hlen'.trans hlen''.symm) hmem
  refine hleads.trans (Leads.step (a := .finish i kill) ?_)
  have hfinish := schSubmitTask_submitTo hadm ho hroot kill
  rw [h] at hfinish
  obtain ⟨⟨w₁, pkg, st⟩, hto, heq⟩ := Option.map_eq_some_iff.1 hfinish.symm
  cases heq
  simp only [step, Function.update_self, hto, Option.map_some, Function.update_idem]

end Crowd

/-! ## Rebuilds on equal keys -/

/-- The first pool has the key `key`, the other ones have the key zero. -/
structure Keys (n : ℕ) (key : ℤ) (prio : ℕ → ℤ) : Prop where
  first : prio 0 = key
  other : ∀ p, 0 < p → p < n → prio p = 0

namespace Keys

variable {n : ℕ} {key : ℤ} {prio : ℕ → ℤ}

/-- Only the first position can have another key than those below it. -/
theorem keyAt_le (h : Keys n key prio) {p c : ℕ} (hp : 0 < p ∨ key ≤ 0) (hpc : p < c)
    (hcn : c < n) : keyAt prio (List.range n) p ≤ keyAt prio (List.range n) c := by
  have hget (j : ℕ) (hj : j < n) : keyAt prio (List.range n) j = prio j :=
    keyAt_of_get prio (List.getElem?_range hj)
  rw [hget p (by omega), hget c hcn, h.other c (by omega) hcn]
  rcases Nat.eq_zero_or_pos p with rfl | hpos
  · rw [h.first]
    omega
  · rw [h.other p hpos (by omega)]

/-- The sift-downs from other positions change nothing. -/
theorem eval_restoreDown (h : Keys n key prio) {fuel : ℕ} (index : ℕ) (hindex : 0 < index)
    (hfuel : n - index < fuel) :
    (restoreDownSteps n schHeapBreath fuel index).eval (heapMem prio (List.range n)) =
      some ((), heapMem prio (List.range n)) := by
  have hlen : (List.range n).length = n := List.length_range
  have hstill : ∃ t, restoreDown (fun _ => prio) n schHeapBreath fuel (List.range n) index 0 =
      some (List.range n, t) := by
    refine restoreDown_still hlen hfuel ?_ ?_
    · intro c hc hcn
      exact h.keyAt_le (.inl hindex) hc.lt hcn
    · intro p c hp hc hcn
      have := IsChild.below_lt hp
      exact h.keyAt_le (.inl (by omega)) hc.lt hcn
  obtain ⟨t, ht⟩ := hstill
  rw [eval_restoreDownSteps _ hlen _ _ _ 0, ht]
  rfl

/-- On such keys, a rebuild leaves `dheap` as it was created if no key is
    greater than zero. -/
theorem heapify (h : Keys n key prio) (hkey : key ≤ 0) :
    schHeapify (fun _ => prio) n (List.range n) = some (List.range n) :=
  heapifyFrom_still List.length_range (fun _ _ _ hc hcn => h.keyAt_le (.inr hkey) hc.lt hcn) _ _

/-- The last sift-down finds a child of the first entry. -/
theorem eval_scan (h : Keys n key prio) (hn : 2 ≤ n) :
    ∃ m c, (scanSteps n 0 schHeapBreath (List.range schHeapBreath) (longMax, none)).eval
      (heapMem prio (List.range n)) = some ((m, some c), heapMem prio (List.range n)) ∧
      m ≠ longMax ∧ 0 < c ∧ c < n := by
  have hlen : (List.range n).length = n := List.length_range
  obtain ⟨s, hs, hfound⟩ := scan_found (fun _ => prio) hlen 0 schHeapBreath 0
  obtain ⟨s', hs', hleast⟩ := scan_least prio hlen 0 schHeapBreath 0
  rw [hs] at hs'
  cases hs'
  have hmax : s.minChild ≠ longMax := by
    have hle := hleast.le 1 (by omega) (by decide) (by omega)
    rw [keyAt_of_get prio (List.getElem?_range (by omega)), h.other 1 (by omega) (by omega)] at hle
    have hpos : (0 : ℤ) < longMax := by decide
    omega
  obtain ⟨c, hc⟩ := Option.isSome_iff_exists.1 (hfound.assigned hmax)
  obtain ⟨hchild, hcn⟩ := hfound.child c hc
  refine ⟨s.minChild, c, ?_, hmax, by have := hchild.lt; omega, hcn⟩
  rw [eval_scanSteps _ hlen _ _ _ _ 0,
    show (List.range schHeapBreath).foldlM (fun s i => scanChild (fun _ => prio) (List.range n) n 0
      schHeapBreath s (i + 1)) ⟨0, longMax, none⟩ = some s from hs, ← hc]
  rfl

end Keys

/-! ## The first task -/

/-- A scheduler that runs, with `dheap` as it was created.  At most the first
    pool has another key than zero. -/
structure Primed (n : ℕ) (key : ℤ) (w : World) : Prop where
  static : Static id n w
  books : Accounts id n w
  running : hasBit w.sch.flag schFlagRunning
  init : hasBit w.sch.flag schFlagInit
  order : w.sch.order = List.range n
  keys : Keys n key fun p => (w.sch.pools p).dheapPriority

namespace Primed

variable {n : ℕ} {key : ℤ} {w w' : World}

theorem pool (h : Primed n key w) {i : ℕ} (hi : i < n) : (w.lane i).pool = w.sch.pools i :=
  congrArg Lane.pool (h.static.lane hi)

theorem admits (h : Primed n key w) {package : SchTaskPackage} (hcb : package.callback ≠ none) :
    w.Admits (some package) :=
  ⟨h.running, h.init, package, rfl, hcb⟩

theorem arranged (h : Primed n key w) (hn : 0 < n) (hkey : key ≤ longMax) : w.Arranged := by
  have hnum := h.static.num
  refine ⟨hnum ▸ hn, by rw [hnum, h.order], ?_, ?_⟩
  · intro p hp
    rcases Nat.eq_zero_or_pos p with rfl | hpos
    · exact h.keys.first.trans_le hkey
    · rw [h.keys.other p hpos (hnum ▸ hp)]
      decide
  · intro p hp
    rw [hnum] at hp
    exact h.pool hp ▸ (h.books p hp).ring.reserved_lt

/-- The scheduler that has just been started. -/
theorem fresh (self : ℕ) (flag : Flag) (maxPackagesPool : UInt32)
    (slot : ℕ → ℕ → SchTaskPackage) (hn : 0 < n) :
    Primed n 0 (fresh self n flag maxPackagesPool slot) := by
  have hstatic := (fresh_static (n := n) self flag maxPackagesPool slot).1
  obtain ⟨w₁, w₂, hrun, hst, hra⟩ := run_ok
    (created_flag self n flag maxPackagesPool slot).1 (startOk_allOk _)
  have hflag : (World.fresh self n flag maxPackagesPool slot).sch.flag =
      (created self n flag maxPackagesPool slot).sch.flag ||| schFlagRunning := by
    simp only [World.fresh, hrun, setFlag, hra.sch]
    rw [hst.sch]
  have hkey (p : ℕ) (hp : p < n) :
      ((World.fresh self n flag maxPackagesPool slot).sch.pools p).dheapPriority = 0 := by
    obtain ⟨⟨m, s, hpool⟩, -⟩ := fresh_pool self flag maxPackagesPool slot hp
    rw [hpool]
    rfl
  refine ⟨hstatic, fresh_accounts self flag maxPackagesPool slot, ?_, ?_, ?_, hkey 0 hn,
    fun p _ hp => hkey p hp⟩
  · rw [hflag]
    exact running_set _
  · rw [hflag]
    exact (init_kept (created_flag self n flag maxPackagesPool slot).1).1
  · simp only [World.fresh, hrun, setFlag, hra.sch]
    rw [hst.sch]
    rfl

/-- A step of the worker of the first pool. -/
theorem work (h : Primed n key w) (hn : 0 < n) {a : WorkerAct} (hw : w.work 0 a = some w') :
    (w.lane 0).work a = some (w'.lane 0) ∧ Primed n (w'.lane 0).pool.dheapPriority w' := by
  obtain ⟨i, hi, rfl, hs, hwork, hother, hflag⟩ := h.static.work hw
  have hheap := work_heap hw
  refine ⟨hwork, hs, (h.static.acts_work hw).accounts h.books, hflag ▸ h.running, hflag ▸ h.init,
    (congrArg Prod.snd hheap).trans h.order, ?_, ?_⟩
  · exact (congrArg (fun l : Lane => l.pool.dheapPriority) (hs.lane hn)).symm
  · intro p hp hpn
    have hpool := congrArg Lane.pool (hother p hpn (Nat.ne_of_gt hp))
    rw [hs.lane hpn, h.static.lane hpn] at hpool
    simp only at hpool
    rw [hpool]
    exact h.keys.other p hp hpn

/-- The worker of the first pool takes steps. -/
theorem works (h : Primed n key w) (hn : 0 < n) (submitter : ι → Submitter) {as : List WorkerAct}
    {l : Lane} (hrun : workerMachine.run (w.lane 0) as = some l) :
    ∃ w' key', Crowd.Leads ⟨w, submitter⟩ ⟨w', submitter⟩ ∧ w'.lane 0 = l ∧ Primed n key' w' := by
  induction as generalizing w key with
  | nil =>
    cases hrun
    exact ⟨w, key, .refl _, rfl, h⟩
  | cons a as ih =>
    obtain ⟨l₁, h1, h2⟩ := Machine.run_cons.1 hrun
    obtain ⟨w₁, hw₁⟩ : ∃ w₁, w.work 0 a = some w₁ := by
      simp only [World.work, show (w.lane 0).work a = some l₁ from h1, Option.map_some]
      exact ⟨_, rfl⟩
    obtain ⟨hwork, h₁⟩ := h.work hn hw₁
    rw [show (w.lane 0).work a = some l₁ from h1] at hwork
    cases hwork
    obtain ⟨w', key', hleads, hl, h'⟩ := ih h₁ h2
    refine ⟨w', key', (Crowd.Leads.step (a := .work 0 a) ?_).trans hleads, hl, h'⟩
    simp only [Crowd.step, hw₁, Option.map_some]

end Primed

/-- The worker is set up, runs the only package for `d` nanoseconds, and finds
    the queue empty. -/
def firstTask (d : ℕ) : List WorkerAct := [.mask .ok, .go, .go] ++ (serve d ++ [.go])

theorem Lane.Books.firstTask {l : Lane} (h : l.Books) (hpc : l.pc = .mask)
    (hidle : isRunning l.pool = false) (hsize : l.pool.size = 1) (d : ℕ) :
    ∃ l', workerMachine.run l (TaskSch.firstTask d) = some l' ∧ l'.pc = .idle ∧
      l'.pool.dheapPriority = d := by
  have hok : ¬ SchErrCode.ok.toInt ≤ 0 := by decide
  have hsetup : workerMachine.run l [.mask .ok, .go, .go] = some { l with pc := .check } := by
    simp [workerMachine, Machine.run, work, hpc, hok, hidle]
  have hb : Lane.Books { l with pc := .check } := by
    refine Machine.run_inv (P := Books) ?_ hsetup h
    intro l a l' hb hw
    exact step_books (e := .work a) hw hb
  obtain ⟨l', hserve, -, hpc', hsize', -, hprio'⟩ := hb.serve rfl hsize d
  refine ⟨{ l' with pc := .idle }, ?_, rfl, hprio'⟩
  rw [TaskSch.firstTask, Machine.run_append, hsetup, Option.bind_some, Machine.run_append, hserve,
    Option.bind_some]
  simp [workerMachine, Machine.run, work, hpc', hsize']

/-- The first package of a scheduler goes to the first pool. -/
theorem Primed.firstPackage {n : ℕ} (hn : 0 < n) (self : ℕ) (flag : Flag)
    {maxPackagesPool : UInt32} (hcap : 0 < maxPackagesPool.toNat) (slot : ℕ → ℕ → SchTaskPackage)
    {package : SchTaskPackage} (hcb : package.callback ≠ none) :
    ∃ w package', (World.fresh self n flag maxPackagesPool slot).schSubmitTask (some package) none
        .zero = some (w, some package', .ok) ∧
      Primed n 1000 w ∧ (w.lane 0).pc = .mask ∧ isRunning (w.lane 0).pool = false ∧
      (w.lane 0).pool.size = 1 := by
  have h := Primed.fresh self flag maxPackagesPool slot hn
  obtain ⟨⟨m, s, hpool⟩, hpc⟩ := fresh_pool self flag maxPackagesPool slot hn
  generalize World.fresh self n flag maxPackagesPool slot = w at h hpool hpc ⊢
  have hrebuilt : w.rebuilt = some (List.range n) := by
    rw [World.rebuilt, h.static.num, h.order]
    exact h.keys.heapify le_rfl
  have htarget : w.target none = some 0 := by
    rw [target, hrebuilt, Option.bind_some, List.getElem?_range hn]
  have hsize : (w.sch.pools 0).size = 0 := by rw [hpool]; rfl
  have hres : (w.sch.pools 0).reserved = maxPackagesPool.toNat := by rw [hpool]; rfl
  have hflag : (w.sch.pools 0).flag = 0 := by rw [hpool]; rfl
  have harr := h.arranged hn (by decide)
  have hno : ∀ p ∈ (none : Option ℕ), p < w.sch.num := by simp
  obtain ⟨order, p, ho, hp, ⟨hfull, -⟩ | ⟨-, package', -, hcall⟩⟩ :=
    schSubmitTask_spec harr hno (h.admits hcb) .zero
  all_goals
    rw [hrebuilt] at ho
    rw [htarget] at hp
    cases ho
    cases hp
  · omega
  · have hawake : ¬ needsWake ((w.sch.pools 0).stored package') := by
      rw [needsWake_stored, hflag]
      simp [hasBit]
    rw [if_neg hawake] at hcall
    have hacts := h.static.acts_submit hcall
    have happ := Appended.stores (List.range n) 0 package' (w := w) (by omega)
    have hlane := hacts.static.lane hn
    have hlanePool : ((w.stores (List.range n) 0 package').lane 0).pool =
        (w.sch.pools 0).stored package' := (congrArg Lane.pool hlane).trans happ.pool
    refine ⟨_, package', hcall, ⟨hacts.static, ?_, h.running, h.init, rfl, ?_, ?_⟩, ?_, ?_, ?_⟩
    · exact hacts.accounts h.books
    · simp only [World.stores, setPool, setLog, setOrder, Function.update_self,
        SchTaskPool.stored, h.keys.first, Int.zero_add]
    · intro p hp hpn
      simp only [World.stores, setPool, setLog, setOrder, Function.update_of_ne (Nat.ne_of_gt hp)]
      exact h.keys.other p hp hpn
    · exact (congrArg Lane.pc hlane).trans ((happ.thread 0).2.trans hpc)
    · rw [hlanePool, isRunning, SchTaskPool.stored, hflag]
      decide
    · rw [hlanePool, SchTaskPool.stored, hsize]

/-- The worker of the first pool, which has found the queue empty, resets the
    key. -/
theorem Primed.idle {n : ℕ} {key : ℤ} {w : World} (h : Primed n key w) (hn : 0 < n)
    (hpc : (w.lane 0).pc = .idle) : ∃ w', w.work 0 .go = some w' ∧ Primed n 0 w' := by
  obtain ⟨w', hw⟩ : ∃ w', w.work 0 .go = some w' := by
    simp only [World.work, Lane.work, hpc, Option.map_some]
    exact ⟨_, rfl⟩
  obtain ⟨hwork, h'⟩ := h.work hn hw
  simp only [Lane.work, hpc, Option.some.injEq] at hwork
  rw [← hwork] at h'
  exact ⟨w', hw, h'⟩

/-- A worker does not look at `dheap`. -/
theorem World.work_setOrder (w : World) (order : List ℕ) (t : ℕ) (a : WorkerAct) :
    (w.setOrder order).work t a = (w.work t a).map (·.setOrder order) := by
  rw [World.work, World.work, show (w.setOrder order).lane t = w.lane t from rfl, Option.map_map]
  refine congrArg (fun g => Option.map g ((w.lane t).work a)) (funext fun l => ?_)
  simp only [Function.comp_apply, show (w.setOrder order).threads = w.threads from rfl]
  split_ifs <;> rfl

theorem World.cells_points {w : World} {n : ℕ} {S : ℕ → Prop} {R : ℕ → ℤ → Prop}
    (hlen : w.sch.order.length = n) (hS : ∀ q ∈ w.sch.order, S q)
    (hR : ∀ q, R q (w.sch.pools q).dheapPriority) (x : HeapCell) (hx : x.InRange n S) :
    HeapCell.Points S R x (w.cells x) := by
  cases x with
  | entry j =>
    obtain ⟨p, hp, hget⟩ := exists_get w.sch.order (show j < _ from hlen ▸ hx)
    simp only [HeapCell.Points, cells, heapMem_get _ hget]
    exact hS p hp
  | prio p => exact hR p

/-! ## Two swaps at a time -/

/-- The rest of a choice after the swap of the first entry with the entry `c`. -/
def afterSwap (n c : ℕ) : HeapSteps (Option ℕ) :=
  (restoreDownSteps n schHeapBreath n c).bind fun _ =>
    .read (.entry 0) fun (p : ℕ) => .done (some p)

theorem afterSwap_safe {n c : ℕ} {S : ℕ → Prop} {R : ℕ → ℤ → Prop} (hc : 0 < c) (hcn : c < n) :
    (afterSwap n c).Safe (HeapCell.InRange n S) (HeapCell.Points S R)
      fun r => ∃ p, r = some p ∧ S p :=
  (restoreDownSteps_safe (by omega)).bind fun _ _ => ⟨hc.trans hcn, fun p hp => ⟨p, rfl, hp⟩⟩

namespace Crowd

variable {n c : ℕ} {S : ℕ → Prop} {prio : ℕ → ℤ} {arr arr' : List ℕ} {w w' : World}
  {package : SchTaskPackage} {s t : Crowd ι} {i j : ι}

/-- A part of a choice that leaves the array `arr'`. -/
theorem leads_part {β : Type} {r : HeapSteps β} {Q : β → Prop} {f : β → HeapSteps (Option ℕ)}
    {b : β} (hsafe : r.Safe (HeapCell.InRange n (· < n))
      (HeapCell.Points (· < n) fun q v => v = prio q) Q)
    (hi : s.submitter i = .choosing package (r.bind f)) (horder : s.world.sch.order = arr)
    (hprio : ∀ q, (s.world.sch.pools q).dheapPriority = prio q) (hlen : arr.length = n)
    (harr : ∀ q ∈ arr, q < n) (he : r.eval (heapMem prio arr) = some (b, heapMem prio arr'))
    (hlen' : arr'.length = n) :
    Leads s ⟨s.world.setOrder arr', Function.update s.submitter i (.choosing package (f b))⟩ := by
  subst horder
  obtain ⟨order, ho, -, hmem, hleads⟩ := run_part hsafe hi hlen harr hprio he
  rwa [heapMem_inj (hlen'.trans ho.symm) hmem]

/-- A thread gets to the last sift-down, ... -/
theorem leads_root {key : ℤ} (h : Primed n key s.world) (m : ℕ)
    {f : Unit → HeapSteps (Option ℕ)}
    (hi : s.submitter i = .choosing package ((heapifyFromSteps n (m + 1)).bind f)) :
    Leads s ⟨s.world, Function.update s.submitter i
      (.choosing package ((restoreDownSteps n schHeapBreath (n + 1) 0).bind f))⟩ := by
  induction m generalizing s with
  | zero =>
    have hi' : s.submitter i =
        .choosing package ((restoreDownSteps n schHeapBreath (n + 1) 0).bind f) := by
      rw [hi, heapifyFromSteps, AccessProg.bind_assoc]
      rfl
    rw [← hi', Function.update_eq_self]
    exact .refl s
  | succ m ih =>
    rw [heapifyFromSteps, AccessProg.bind_assoc] at hi
    have hpart := leads_part (Q := fun _ => True) (restoreDownSteps_safe (by omega)) hi h.order
      (fun _ => rfl) List.length_range (fun q => List.mem_range.1)
      (h.keys.eval_restoreDown (m + 1) (by omega) (by omega)) List.length_range
    rw [← h.order] at hpart
    refine hpart.trans ?_
    have hrest := ih (s := ⟨s.world, Function.update s.submitter i
      (.choosing package ((heapifyFromSteps n (m + 1)).bind f))⟩) h (by simp)
    simp only [Function.update_idem] at hrest
    exact hrest

/-- ... and there to the swap of the first entry. -/
theorem leads_swap {key : ℤ} (package : SchTaskPackage) (hn : 2 ≤ n) (h : Primed n key w) :
    ∃ c, 0 < c ∧ c < n ∧ ∀ (s : Crowd ι) (i : ι), s.world = w →
      s.submitter i = .choosing package (chooseSteps n) →
      Leads s ⟨s.world, Function.update s.submitter i
        (.choosing package ((swapSteps 0 c).bind fun _ => afterSwap n c))⟩ := by
  obtain ⟨m, c, hscan, hm, hc, hcn⟩ := h.keys.eval_scan hn
  refine ⟨c, hc, hcn, ?_⟩
  rintro s i rfl hi
  refine (leads_root h _ hi).trans ?_
  let rest : Unit → HeapSteps (Option ℕ) := fun _ =>
    .read (.entry 0) fun (p : ℕ) => .done (some p)
  let goOn : ℤ × Option ℕ → HeapSteps (Option ℕ) := fun m =>
    (if m.1 = longMax then .done () else (AccessProg.ofOption m.2).bind fun c =>
      (swapSteps 0 c).bind fun _ => restoreDownSteps n schHeapBreath n c).bind rest
  have hroot : Function.update s.submitter i
      (.choosing package ((restoreDownSteps n schHeapBreath (n + 1) 0).bind rest)) i =
      .choosing package ((scanSteps n 0 schHeapBreath (List.range schHeapBreath)
        (longMax, none)).bind goOn) := by
    simp only [Function.update_self, restoreDownSteps, AccessProg.bind_assoc, goOn]
  have hpart := leads_part (n := n) (s := ⟨s.world, Function.update s.submitter i
      (.choosing package ((restoreDownSteps n schHeapBreath (n + 1) 0).bind rest))⟩)
    (scanSteps_safe (fun i => List.mem_range.1) ⟨fun h => absurd rfl h, by simp⟩) hroot
    h.order (fun _ => rfl) List.length_range (fun q => List.mem_range.1) hscan List.length_range
  rw [← h.order] at hpart
  simp only [goOn, if_neg hm, Function.update_idem, AccessProg.ofOption, AccessProg.bind,
    AccessProg.bind_assoc] at hpart
  exact hpart

/-- Two threads with the programs `p` and `q`; nobody else is in
    `schSubmitTask`. -/
def pair (i j : ι) (package : SchTaskPackage) (w : World) (p q : HeapSteps (Option ℕ)) : Crowd ι :=
  ⟨w, Function.update (Function.update (fun _ => .out none) i (.choosing package p)) j
    (.choosing package q)⟩

section Pair

variable {β : Type} {p q : HeapSteps (Option ℕ)} {r : HeapSteps β} {Q : β → Prop}
  {f : β → HeapSteps (Option ℕ)} {b : β}

theorem pair_fst (hij : i ≠ j) : (pair i j package w p q).submitter i = .choosing package p := by
  simp [pair, hij]

theorem pair_snd : (pair i j package w p q).submitter j = .choosing package q := by simp [pair]

theorem update_fst (hij : i ≠ j) (p' : HeapSteps (Option ℕ)) :
    (⟨w', Function.update (pair i j package w p q).submitter i (.choosing package p')⟩ : Crowd ι) =
      pair i j package w' p' q := by
  simp only [pair]
  rw [Function.update_comm hij, Function.update_idem, Function.update_comm hij.symm]

theorem update_snd (q' : HeapSteps (Option ℕ)) :
    (⟨w', Function.update (pair i j package w p q).submitter j (.choosing package q')⟩ : Crowd ι) =
      pair i j package w' p q' := by
  simp only [pair, Function.update_idem]

theorem leads_fst (hij : i ≠ j) (hsafe : r.Safe (HeapCell.InRange n (· < n))
      (HeapCell.Points (· < n) fun q v => v = prio q) Q) (horder : w.sch.order = arr)
    (hprio : ∀ q, (w.sch.pools q).dheapPriority = prio q) (hlen : arr.length = n)
    (harr : ∀ q ∈ arr, q < n) (he : r.eval (heapMem prio arr) = some (b, heapMem prio arr'))
    (hlen' : arr'.length = n) :
    Leads (pair i j package w (r.bind f) q) (pair i j package (w.setOrder arr') (f b) q) := by
  have h := leads_part (s := pair i j package w (r.bind f) q) hsafe (pair_fst hij) horder hprio
    hlen harr he hlen'
  rwa [update_fst hij] at h

theorem leads_snd (hsafe : r.Safe (HeapCell.InRange n (· < n))
      (HeapCell.Points (· < n) fun q v => v = prio q) Q) (horder : w.sch.order = arr)
    (hprio : ∀ q, (w.sch.pools q).dheapPriority = prio q) (hlen : arr.length = n)
    (harr : ∀ q ∈ arr, q < n) (he : r.eval (heapMem prio arr) = some (b, heapMem prio arr'))
    (hlen' : arr'.length = n) :
    Leads (pair i j package w p (r.bind f)) (pair i j package (w.setOrder arr') p (f b)) := by
  have h := leads_part (s := pair i j package w p (r.bind f)) hsafe pair_snd horder hprio hlen
    harr he hlen'
  rwa [update_snd] at h

/-- The second thread has read the first entry, ... -/
def readOther (n c : ℕ) : HeapSteps (Option ℕ) :=
  .read (.entry c) fun (b : ℕ) => .read (.prio 0) fun (va : ℤ) =>
    (compareSteps 0 c 0 b va).bind fun _ => afterSwap n c

/-- Two threads that swap the first entry with the entry `c`: the second one
    reads one pointer before and the other one after the swap of the first one,
    and the worker of the first pool resets its key while they are compared. -/
theorem leads_lost (package : SchTaskPackage) (hc : 0 < c) (hcn : c < n) (hij : i ≠ j)
    (h : Primed n 1 w) (hreset : w.work 0 .go = some w') (h' : Primed n 0 w') :
    ∃ arr, arr.length = n ∧ (∀ q ∈ arr, q < n ∧ q ≠ c) ∧
      Leads
        (pair i j package w ((swapSteps 0 c).bind fun _ => afterSwap n c)
          ((swapSteps 0 c).bind fun _ => afterSwap n c))
        (pair i j package (w'.setOrder arr) (afterSwap n c) (afterSwap n c)) := by
  have hn : 0 < n := hc.trans hcn
  have h0 : (List.range n)[0]? = some 0 := List.getElem?_range hn
  have hcc : (List.range n)[c]? = some c := List.getElem?_range hcn
  let prio : ℕ → ℤ := fun p => (w.sch.pools p).dheapPriority
  let prio' : ℕ → ℤ := fun p => (w'.sch.pools p).dheapPriority
  let arr := ((List.range n).set 0 c).set c 0
  have hprio : prio 0 = 1 ∧ prio c = 0 := ⟨h.keys.first, h.keys.other c hc hcn⟩
  have hprio' : prio' 0 = 0 := h'.keys.first
  have harrc : arr[c]? = some 0 := by simp [arr, hcn]
  have hlen : arr.length = n := by simp [arr]
  have harr : ∀ q ∈ arr, q < n := by
    intro q hq
    rcases List.mem_or_eq_of_mem_set hq with hq | rfl
    · rcases List.mem_or_eq_of_mem_set hq with hq | rfl
      · exact List.mem_range.1 hq
      · exact hcn
    · exact hn
  refine ⟨(arr.set 0 0).set c 0, by simp [arr], ?_, ?_⟩
  · intro q hq
    obtain ⟨k, hk, rfl⟩ := List.mem_iff_getElem.1 hq
    have hkn : k < n := by simpa [arr] using hk
    by_cases hkc : k = c
    · subst hkc; simp [hc.ne, hn]
    · by_cases hk0 : k = 0
      · subst hk0; simp [arr, Ne.symm hkc, hc.ne, hn]
      · simp [arr, Ne.symm hkc, Ne.symm hk0, hkc, hkn]
  -- the second thread reads the first entry
  have h1 : Leads
      (pair i j package w ((swapSteps 0 c).bind fun _ => afterSwap n c)
        ((swapSteps 0 c).bind fun _ => afterSwap n c))
      (pair i j package w ((swapSteps 0 c).bind fun _ => afterSwap n c) (readOther n c)) := by
    let rest : ℕ → HeapSteps (Option ℕ) := fun a =>
      .read (.entry c) fun (b : ℕ) => .read (.prio a) fun (va : ℤ) =>
        (compareSteps 0 c a b va).bind fun _ => afterSwap n c
    have he : (AccessProg.read (.entry 0) fun (a : ℕ) => .done a : HeapSteps ℕ).eval
        (heapMem prio (List.range n)) = some ((0 : ℕ), heapMem prio (List.range n)) := by
      simp only [AccessProg.eval, heapMem_get prio h0]
    have hread : Leads
        (pair i j package w ((swapSteps 0 c).bind fun _ => afterSwap n c)
          ((AccessProg.read (.entry 0) fun (a : ℕ) => .done a : HeapSteps ℕ).bind rest))
        (pair i j package (w.setOrder (List.range n))
          ((swapSteps 0 c).bind fun _ => afterSwap n c) (rest 0)) :=
      leads_snd (Q := fun _ => True) ⟨hn, fun _ _ => trivial⟩ h.order (fun _ => rfl)
        List.length_range (fun q => List.mem_range.1) he List.length_range
    rw [← h.order] at hread
    exact hread
  -- the first one swaps
  have h2 : Leads
      (pair i j package w ((swapSteps 0 c).bind fun _ => afterSwap n c) (readOther n c))
      (pair i j package (w.setOrder arr) (afterSwap n c) (readOther n c)) := by
    refine leads_fst (b := ()) hij (swapSteps_safe hn hcn) h.order (fun _ => rfl)
      List.length_range (fun q => List.mem_range.1) ?_ hlen
    rw [eval_swapSteps prio h0 hcc, if_pos (by rw [hprio.1, hprio.2]; decide)]
  -- the second one reads the other entry, which has the same pool now
  have h3 : Leads
      (pair i j package (w.setOrder arr) (afterSwap n c) (readOther n c))
      (pair i j package ((w.setOrder arr).setOrder arr) (afterSwap n c)
        ((compareSteps 0 c 0 0 1).bind fun _ => afterSwap n c)) := by
    have he : (AccessProg.read (.entry c) fun (b : ℕ) => .read (.prio 0) fun (va : ℤ) =>
        .done (b, va) : HeapSteps (ℕ × ℤ)).eval (heapMem prio arr) =
          some (((0 : ℕ), (1 : ℤ)), heapMem prio arr) := by
      simp only [AccessProg.eval, heapMem_get prio harrc, heapMem_prio, hprio.1]
    have hsafe : (AccessProg.read (.entry c) fun (b : ℕ) => .read (.prio 0) fun (va : ℤ) =>
        .done (b, va) : HeapSteps (ℕ × ℤ)).Safe (HeapCell.InRange n (· < n))
          (HeapCell.Points (· < n) fun q v => v = prio q) fun _ => True :=
      ⟨hcn, fun _ _ => ⟨hn, fun _ _ => trivial⟩⟩
    exact leads_snd (w := w.setOrder arr)
      (f := fun r : ℕ × ℤ => (compareSteps 0 c 0 r.1 r.2).bind fun _ => afterSwap n c)
      hsafe rfl (fun _ => rfl) hlen harr he hlen
  -- the worker resets the key, and the pool is swapped with itself
  have h4 : Leads
      (pair i j package (w.setOrder arr) (afterSwap n c)
        ((compareSteps 0 c 0 0 1).bind fun _ => afterSwap n c))
      (pair i j package (w'.setOrder arr) (afterSwap n c)
        ((compareSteps 0 c 0 0 1).bind fun _ => afterSwap n c)) := by
    refine Leads.step (a := .work 0 .go) ?_
    simp only [step, pair, World.work_setOrder, hreset, Option.map_some]
  have h5 : Leads
      (pair i j package (w'.setOrder arr) (afterSwap n c)
        ((compareSteps 0 c 0 0 1).bind fun _ => afterSwap n c))
      (pair i j package ((w'.setOrder arr).setOrder ((arr.set 0 0).set c 0)) (afterSwap n c)
        (afterSwap n c)) := by
    have he : (compareSteps 0 c 0 0 1).eval (heapMem prio' arr) =
        some ((), heapMem prio' ((arr.set 0 0).set c 0)) := by
      simp only [compareSteps, AccessProg.eval, heapMem_prio, hprio']
      rw [if_pos (by decide)]
      simp only [AccessProg.eval]
      rw [heapMem_set _ (by omega), heapMem_set _ (by simpa using by omega)]
    refine leads_snd (Q := fun _ => True) ⟨hn, fun vb _ => ?_⟩ rfl (fun _ => rfl) hlen harr he
      (by simp [arr])
    beta_reduce
    split_ifs
    · exact ⟨hn, hn, hcn, hn, trivial⟩
    · trivial
  exact h1.trans (h2.trans (h3.trans (h4.trans h5)))

end Pair

/-- A thread completes its choice, where all entries are in `S`. -/
theorem leads_done (hc : 0 < c) (hcn : c < n)
    (hi : s.submitter i = .choosing package (afterSwap n c))
    (hlen : s.world.sch.order.length = n) (hS : ∀ q ∈ s.world.sch.order, S q) :
    ∃ p order, S p ∧ order.length = n ∧ (∀ q ∈ order, S q) ∧
      Leads s ⟨s.world.setOrder order, Function.update s.submitter i
        (.choosing package (.done (some p)))⟩ := by
  have hsafe : (afterSwap n c).Safe (HeapCell.InRange n S) (HeapCell.Points S
      fun q v => v = (s.world.sch.pools q).dheapPriority) fun r => ∃ p, r = some p ∧ S p :=
    afterSwap_safe hc hcn
  obtain ⟨⟨_, mem⟩, he, ⟨p, rfl, hp⟩, -⟩ :=
    hsafe.eval (World.cells_points hlen hS fun _ => rfl)
  obtain ⟨order, ho, hSo, -, hleads⟩ := run_part (f := .done) hsafe
    (by rw [AccessProg.bind_done]; exact hi) hlen hS (fun _ => rfl) he
  exact ⟨p, order, hp, ho, hSo, hleads⟩

end Crowd

/-! ## A lost pool -/

namespace Crowd

variable {n : ℕ} {i j : ι} {package : SchTaskPackage}

/-- The first package of a scheduler is submitted and run, and its worker has
    found the queue empty. -/
theorem leads_first (hn : 0 < n) (self : ℕ) (flag : Flag) {maxPackagesPool : UInt32}
    (hcap : 0 < maxPackagesPool.toNat) (slot : ℕ → ℕ → SchTaskPackage)
    (hcb : package.callback ≠ none) (i : ι) :
    ∃ w, Leads (start (fresh self n flag maxPackagesPool slot))
        ⟨w, Function.update (fun _ => .out none) i (.out (some .ok))⟩ ∧
      Primed n 1 w ∧ (w.lane 0).pc = .idle := by
  have hfresh := Primed.fresh self flag maxPackagesPool slot hn
  obtain ⟨w, package', hcall, h, hpc, hidle, hsize⟩ :=
    Primed.firstPackage hn self flag hcap slot hcb
  have hsubmit := run_alone (s := start (fresh self n flag maxPackagesPool slot)) (i := i) rfl
    (hfresh.arranged hn (by decide)) (hfresh.admits hcb) hcall
  obtain ⟨l, hrun, hl, hkey⟩ := Lane.Books.firstTask (h.books 0 hn) hpc hidle hsize 1
  obtain ⟨w', key, hleads, hlane, h'⟩ :=
    h.works hn (Function.update (fun _ => .out none) i (.out (some .ok))) hrun
  have hone : key = 1 := by
    rw [← h'.keys.first, ← h'.pool hn, hlane, hkey]
    rfl
  rw [hone] at h'
  exact ⟨w', hsubmit.trans hleads, h', hlane ▸ hl⟩

/-- Two threads begin to submit. -/
theorem leads_pair {key : ℤ} {w : World} (h : Primed n key w) (hcb : package.callback ≠ none)
    (hij : i ≠ j) (status : Option SchErrCode) :
    Leads ⟨w, Function.update (fun _ => .out none) i (.out status)⟩
      (pair i j package w (chooseSteps n) (chooseSteps n)) := by
  have henter : w.enter (some package) = .choosing package (chooseSteps n) := by
    rw [World.enter_eq (h.admits hcb), h.static.num]
  let first : ι → Submitter := Function.update (fun _ => .out none) i (.out status)
  let second : ι → Submitter :=
    Function.update (fun _ => .out none) i (.choosing package (chooseSteps n))
  have hfirst : first i = .out status := Function.update_self ..
  have hsecond : second j = .out none := Function.update_of_ne hij.symm ..
  have hi := step_call (s := ⟨w, first⟩) (some package) hfirst
  have hj := step_call (s := ⟨w, second⟩) (some package) hsecond
  simp only [henter, first, Function.update_idem] at hi
  simp only [henter, second] at hj
  exact (Leads.step hi).trans (Leads.step hj)

end Crowd

/-- An access of a crowd is one of the shared machine. -/
theorem World.access_step {α : Type} {w w' : World} {p p' : HeapSteps α}
    (h : w.access p = some (w', p')) :
    p.step w.cells = some (w'.cells, p') ∧ w'.sch.num = w.sch.num ∧
      w'.sch.order.length = w.sch.order.length := by
  cases p with
  | done | fail => cases h
  | read c k =>
    cases c with
    | entry j =>
      obtain ⟨q, hget, he⟩ := Option.map_eq_some_iff.1 h
      cases he
      refine ⟨?_, rfl, rfl⟩
      simp only [AccessProg.step, cells, heapMem_get _ hget]
    | prio q => cases h; exact ⟨rfl, rfl, rfl⟩
  | write c v k =>
    cases c with
    | entry j =>
      simp only [access] at h
      split_ifs at h with hj
      cases h
      exact ⟨congrArg (fun mem => some (mem, p')) (heapMem_set _ hj v), rfl, List.length_set ..⟩
    | prio q =>
      cases h
      have hkeys : Function.update (fun p => (w.sch.pools p).dheapPriority) q v = fun p =>
          ((w.setPool q ((w.sch.pools q).withPriority v)).sch.pools p).dheapPriority := by
        funext p
        by_cases hp : p = q
        · subst hp; simp [setPool, SchTaskPool.withPriority]
        · simp [setPool, hp]
      refine ⟨congrArg (fun mem => some (mem, p')) ?_, rfl, rfl⟩
      exact (heapMem_store _ _ _ _).trans (congrArg (heapMem · _) hkeys)

/-- The end of `schSubmitTask` leaves `dheap` alone. -/
theorem World.submitTo_heap {w w' : World} {p : ℕ} {package package' : SchTaskPackage}
    {kill : Errno} {status : SchErrCode}
    (h : w.submitTo p package kill = some (w', package', status)) : w'.heap = w.heap := by
  obtain ⟨r, -, he⟩ := Option.map_eq_some_iff.1 h
  cases r with
  | error e => cases he; rfl
  | ok r =>
    have hwake (w : World) : (w.wakePool p kill).1.heap = w.heap := by
      unfold wakePool
      split_ifs
      · exact raise_heap ..
      · rfl
    cases he
    exact hwake _

/-- If all entries are in `S`, so is the pool that the program chooses. -/
abbrev ChoosesIn (n : ℕ) (S : ℕ → Prop) (prog : HeapSteps (Option ℕ)) : Prop :=
  prog.Safe (HeapCell.InRange n S) (HeapCell.Points S fun _ _ => True) fun r => ∀ p ∈ r, S p

/-- All entries of `dheap` are in `S`, and so is every pool that a thread
    chooses. -/
structure Crowd.Inside (n : ℕ) (S : ℕ → Prop) (s : Crowd ι) : Prop where
  num : s.world.sch.num = n
  length : s.world.sch.order.length = n
  safe : s.choices.Safe (HeapCell.InRange n S) (HeapCell.Points S fun _ _ => True)
    fun r => ∀ p ∈ r, S p

theorem Submitter.out_chooses {n : ℕ} {S : ℕ → Prop} (status : Option SchErrCode) :
    ChoosesIn n S (Submitter.out status).prog := by
  simp [prog, AccessProg.Safe]

/-- A thread that has entered `schSubmitTask` chooses from the array. -/
theorem World.enter_chooses {n : ℕ} {S : ℕ → Prop} {w : World} (hn : 0 < n) (hnum : w.sch.num = n)
    (package : Option SchTaskPackage) : ChoosesIn n S (w.enter package).prog := by
  unfold World.enter
  split_ifs
  · exact Submitter.out_chooses _
  · cases package with
    | none => exact Submitter.out_chooses _
    | some pkg =>
      simp only
      split_ifs
      · exact Submitter.out_chooses _
      · rw [hnum]
        exact chooseSteps_safe hn

namespace Crowd

variable {n : ℕ} {S : ℕ → Prop} {s t : Crowd ι}

omit [DecidableEq ι] in
/-- What leaves `dheap` alone may store any priority. -/
theorem Inside.of_heap (h : s.Inside n S) (hheap : t.world.heap = s.world.heap)
    (hprog : ∀ k, ChoosesIn n S (t.submitter k).prog) : t.Inside n S := by
  have horder : t.world.sch.order = s.world.sch.order := congrArg Prod.snd hheap
  refine ⟨(congrArg Prod.fst hheap).trans h.num, horder ▸ h.length, ?_, hprog⟩
  intro c hc
  cases c with
  | entry j =>
    have hcell : t.world.cells (.entry j) = s.world.cells (.entry j) :=
      congrArg (fun order : List ℕ => order.getD j 0) horder
    simp only [HeapCell.Points, choices, hcell]
    exact h.safe.mem (.entry j) hc
  | prio p => trivial

/-- **One step**: whatever the threads and the workers do, only what is in the
    array is chosen. -/
theorem Inside.step (hn : 0 < n) (h : s.Inside n S) {a : CrowdAct ι} (hs : s.step a = some t) :
    t.Inside n S := by
  have hupd (i : ι) (sub : Submitter) (hsub : ChoosesIn n S sub.prog) (k : ι) :
      ChoosesIn n S (Function.update s.submitter i sub k).prog := by
    by_cases hk : k = i
    · subst hk; rwa [Function.update_self]
    · rw [Function.update_of_ne hk]
      exact h.safe.prog k
  cases a with
  | call i package =>
    cases hi : s.submitter i with
    | choosing => simp [Crowd.step, hi] at hs
    | out status =>
      rw [step_call package hi] at hs
      cases hs
      exact h.of_heap rfl (hupd i _ (World.enter_chooses hn h.num package))
  | access i =>
    cases hi : s.submitter i with
    | out => simp [Crowd.step, hi] at hs
    | choosing package prog =>
      simp only [Crowd.step, hi] at hs
      obtain ⟨⟨w, prog'⟩, hacc, he⟩ := Option.map_eq_some_iff.1 hs
      cases he
      obtain ⟨hstep, hnum, hlen⟩ := World.access_step hacc
      have hprog := h.safe.prog i
      simp only [choices, hi, Submitter.prog] at hprog
      obtain ⟨hmem, hsafe⟩ := hprog.step h.safe.mem hstep
      exact ⟨hnum.trans h.num, hlen.trans h.length, hmem, hupd i _ hsafe⟩
  | finish i kill =>
    simp only [Crowd.step] at hs
    split at hs
    · obtain ⟨⟨w, pkg, status⟩, hto, he⟩ := Option.map_eq_some_iff.1 hs
      cases he
      exact h.of_heap (World.submitTo_heap hto) (hupd i _ (Submitter.out_chooses _))
    · cases hs
  | work t a =>
    obtain ⟨w, hw, he⟩ := Option.map_eq_some_iff.1 hs
    cases he
    exact h.of_heap (work_heap hw) h.safe.prog

/-- In every continuation, the threads choose pools in `S` only. -/
theorem Inside.chosen (hn : 0 < n) (h : s.Inside n S) {bs : List (CrowdAct ι)}
    (hrun : (crowdMachine ι).run s bs = some t) {k : ι} {package : SchTaskPackage} {p : ℕ}
    (hp : t.submitter k = .choosing package (.done (some p))) : S p := by
  have ht : t.Inside n S := Machine.run_inv (fun _ _ _ h hs => h.step hn hs) hrun h
  have hprog := ht.safe.prog k
  simp only [choices, hp, Submitter.prog] at hprog
  exact hprog p rfl

end Crowd

/-- **Rebuilds can lose a pool for good**: with two pools or more, after the
    first task of a scheduler, two threads that submit at the same time can
    leave the array without some pool `q`.  Then no thread ever chooses `q`
    again, whatever the threads and the workers do, and even if any rebuilds are
    run and any priorities stored. -/
theorem pool_lost (self n : ℕ) (hn : 2 ≤ n) (flag : Flag) (maxPackagesPool : UInt32)
    (hcap : 0 < maxPackagesPool.toNat) (slot : ℕ → ℕ → SchTaskPackage) (package : SchTaskPackage)
    (hcb : package.callback ≠ none) (i j : ι) (hij : i ≠ j) :
    ∃ as s q, q < n ∧
      (crowdMachine ι).run (.start (fresh self n flag maxPackagesPool slot)) as = some s ∧
      (∃ p, s.submitter i = .choosing package (.done (some p))) ∧
      (∃ p, s.submitter j = .choosing package (.done (some p))) ∧
      (∀ bs t, (crowdMachine ι).run s bs = some t →
        ∀ k pkg p, t.submitter k = .choosing pkg (.done (some p)) → p ≠ q) ∧
      ∀ bs t, (∀ b ∈ bs, ChoiceAct.StoresPrio b) →
        (choiceMachine ι n).run s.choices bs = some t →
        ∀ k p, t.prog k = .done (some p) → p ≠ q := by
  have hpos : 0 < n := by omega
  obtain ⟨w, h1, h, hpc⟩ := Crowd.leads_first hpos self flag hcap slot hcb i
  obtain ⟨w', hreset, h'⟩ := h.idle hpos hpc
  -- both threads get to the swap of the first entry
  have h2 := Crowd.leads_pair h hcb hij (some .ok)
  obtain ⟨c, hc, hcn, hswap⟩ := Crowd.leads_swap (ι := ι) package hn h
  have h3 := hswap (.pair i j package w (chooseSteps n) (chooseSteps n)) i rfl
    (Crowd.pair_fst hij)
  rw [Crowd.update_fst hij] at h3
  have h4 := hswap (.pair i j package w ((swapSteps 0 c).bind fun _ => afterSwap n c)
    (chooseSteps n)) j rfl Crowd.pair_snd
  rw [Crowd.update_snd] at h4
  obtain ⟨arr, hlen, harr, h5⟩ := Crowd.leads_lost package hc hcn hij h hreset h'
  -- and complete their choices
  let S : ℕ → Prop := fun p => p < n ∧ p ≠ c
  obtain ⟨p₁, arr₁, hp₁, hlen₁, harr₁, h6⟩ := Crowd.leads_done (S := S) hc hcn
    (Crowd.pair_fst (i := i) (j := j) (q := afterSwap n c) (w := w'.setOrder arr) hij) hlen harr
  rw [Crowd.update_fst hij] at h6
  obtain ⟨p₂, arr₂, hp₂, hlen₂, harr₂, h7⟩ := Crowd.leads_done (S := S) hc hcn
    (Crowd.pair_snd (i := i) (j := j) (p := .done (some p₁)) (w := w'.setOrder arr₁)) hlen₁ harr₁
  rw [Crowd.update_snd] at h7
  obtain ⟨as, has⟩ := h1.trans (h2.trans (h3.trans (h4.trans (h5.trans (h6.trans h7)))))
  have hsafe : (Crowd.pair i j package (w'.setOrder arr₂) (.done (some p₁))
      (.done (some p₂))).choices.Safe (HeapCell.InRange n S) (HeapCell.Points S fun _ _ => True)
      fun r => ∀ p ∈ r, S p := by
    refine ⟨World.cells_points (w := w'.setOrder arr₂) hlen₂ harr₂ fun _ => trivial, ?_⟩
    intro k
    by_cases hkj : k = j
    · subst hkj
      simp only [Crowd.choices, Crowd.pair_snd, Submitter.prog]
      rintro q ⟨⟩
      exact hp₂
    · by_cases hki : k = i
      · subst hki
        simp only [Crowd.choices, Crowd.pair_fst hij, Submitter.prog]
        rintro q ⟨⟩
        exact hp₁
      · simp [Crowd.choices, Crowd.pair, hkj, hki, Submitter.prog, AccessProg.Safe]
  refine ⟨as, _, c, hcn, has, ⟨p₁, Crowd.pair_fst hij⟩, ⟨p₂, Crowd.pair_snd⟩, ?_, ?_⟩
  · intro bs t hrun k pkg p hp
    have hinside : (Crowd.pair i j package (w'.setOrder arr₂) (.done (some p₁))
        (.done (some p₂))).Inside n S := ⟨h'.static.num, hlen₂, hsafe⟩
    exact (hinside.chosen hpos hrun hp).2
  · intro bs t hbs hrun k p hp
    have hk := (choices_in hpos hbs hrun hsafe).prog k
    rw [hp] at hk
    exact (hk p rfl).2

/-- Two threads that submit to a scheduler with two pools. -/
theorem pool_lost_two : ∃ (as : List (CrowdAct (Fin 2))) (s : Crowd (Fin 2)) (q : ℕ),
    (crowdMachine (Fin 2)).run (.start (fresh 0 2 0 1 fun _ _ => .ofCallback 0)) as = some s ∧
    q < 2 ∧ ∀ bs t, (crowdMachine (Fin 2)).run s bs = some t →
      ∀ k pkg p, t.submitter k = .choosing pkg (.done (some p)) → p ≠ q := by
  obtain ⟨as, s, q, hq, hrun, -, -, hlost, -⟩ := pool_lost 0 2 le_rfl 0 1 (by decide)
    (fun _ _ => .ofCallback 0) (.ofCallback 1) (by decide) (0 : Fin 2) 1 (by decide)
  exact ⟨as, s, q, hrun, hq, hlost⟩

end TaskSch
