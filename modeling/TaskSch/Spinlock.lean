/-
  Task scheduler formalization — `schQueueMutexEnDeQueue`, step by step
  (src/taskSch.c).

  The pools of a scheduler share one spinlock.  The counter `size` is read
  without it, by the full test of `schSubmitTask` and by the worker's test of an
  empty queue, while another thread is in the middle of an update.

  * `queueProg`: any number of threads that make these tests and run
    `schQueueMutexEnDeQueue`, one step of `queueSteps` at a time;
  * `callMachine`: the same threads, with `schQueueMutexEnDeQueue` in one step;
  * `queue_calls_atomic`: every run of the former is one of the latter, so that
    models in which a locked section is one step lose nothing;
  * `submitters_fifo`: any number of submitters use a pool as a FIFO queue, if
    each full test that passes leaves room for the submitters under way.
-/
import TaskSch.Queue
import TaskSch.Sections

namespace TaskSch

/-! ## The program -/

/-- The pools, and the packages stored in and taken out of each of them so far,
    in the order of the updates of `size`. -/
structure Queues where
  pools : ℕ → SchTaskPool
  sent : ℕ → List SchTaskPackage
  got : ℕ → List SchTaskPackage

/-- A thread outside of `schQueueMutexEnDeQueue`, with the slot that it got
    last, or one that is about to call it for the pool `p`. -/
inductive Caller where
  | out (ret : Option ℕ)
  | call (p : ℕ) (op : QueueOp)

/-- The value of `size` that was loaded last, and the local variable `package`. -/
structure Registers where
  size : ℕ
  package : Option ℕ

/-- What the threads do outside of `schQueueMutexEnDeQueue`. -/
inductive QueueTest where
  /-- `schSubmitTask` tests whether the pool is full -/
  | full (p : ℕ) (package : SchTaskPackage)
  /-- the worker tests whether the pool has a package -/
  | some (p : ℕ)

namespace Queues

/-- What is seen without the lock: `size`, `reserved` and `index` of the pools,
    and the record. -/
abbrev View : Type :=
  (ℕ → ℕ × ℕ × ℕ) × (ℕ → List SchTaskPackage) × (ℕ → List SchTaskPackage)

def view (q : Queues) : View :=
  (fun p => ((q.pools p).size, (q.pools p).reserved, (q.pools p).index), q.sent, q.got)

def setPool (q : Queues) (p : ℕ) (pool : SchTaskPool) : Queues :=
  { q with pools := Function.update q.pools p pool }

/-- The record of a package that the operation stores or takes. -/
def note (q : Queues) (p : ℕ) : QueueOp → Queues
  | .dequeue =>
    { q with got := Function.update q.got p (q.got p ++ [(q.pools p).slot (q.pools p).head]) }
  | .enqueue package => { q with sent := Function.update q.sent p (q.sent p ++ [package]) }

end Queues

/-- The body of `schQueueMutexEnDeQueue` between lock and unlock.  The update of
    `size`, which is read without the lock, is a load and a store; `memcpy` and
    the updates of `head` and of `tail`, which are not, are one step each. -/
def queueSteps (p : ℕ) : QueueOp → List (Micro Queues Registers)
  | .dequeue =>
    [fun (q, r) => some (q, { r with size := (q.pools p).size }),
      fun (q, r) =>
        some ((q.note p .dequeue).setPool p { q.pools p with size := u32Pred r.size }, r),
      fun (q, r) => some (q, { r with package := some (q.pools p).head }),
      fun (q, r) => (umod (u32 ((q.pools p).head + 1)) (q.pools p).reserved).map fun head =>
        (q.setPool p { q.pools p with head := head }, r)]
  | .enqueue package =>
    [fun (q, r) => some (q.setPool p { q.pools p with
        slot := Function.update (q.pools p).slot (q.pools p).tail package }, r),
      fun (q, r) => (umod (u32 ((q.pools p).tail + 1)) (q.pools p).reserved).map fun tail =>
        (q.setPool p { q.pools p with tail := tail }, r),
      fun (q, r) => some (q, { r with size := (q.pools p).size }),
      fun (q, r) => some ((q.note p (.enqueue package)).setPool p { q.pools p with
        size := u32 (r.size + 1) }, r)]

/-- The tests outside of the lock: a full pool, or one without a package, is
    left alone. -/
def queueTest : Caller → Queues.View → QueueTest → Option Caller
  | .out _, v, .full p package =>
    some (if (v.1 p).1 ≥ (v.1 p).2.1 then .out none
      else .call p (.enqueue { package with index := (v.1 p).2.2 }))
  | .out _, v, .some p => some (if (v.1 p).1 > 0 then .call p .dequeue else .out none)
  | .call _ _, _, _ => none

def queueProg : LockProg Queues Queues.View Caller Registers QueueTest where
  view := Queues.view
  outside := queueTest
  body
    | .out _ => none
    | .call p op => some (queueSteps p op)
  init := ⟨0, none⟩
  leave _ r := .out r.package

variable {ι : Type} [DecidableEq ι]

/-- One step, where a call of `schQueueMutexEnDeQueue` is one. -/
def callStep (g : Atomic Queues Caller ι) : AtomicAct QueueTest ι → Option (Atomic Queues Caller ι)
  | .outside i a => (queueTest (g.ctl i) g.shared.view a).map fun c =>
      { g with ctl := Function.update g.ctl i c }
  | .whole i =>
    match g.ctl i with
    | .out _ => none
    | .call p op => (schQueueMutexEnDeQueue (g.shared.pools p) op).map fun r =>
        ⟨(g.shared.note p op).setPool p r.1, Function.update g.ctl i (.out r.2)⟩

def callMachine : Machine (Atomic Queues Caller ι) (AtomicAct QueueTest ι) := ⟨callStep⟩

/-! ## The sections -/

namespace Queues

variable {q : Queues} {p : ℕ} {op : QueueOp}

@[simp] theorem setPool_self (q : Queues) (p : ℕ) (pool : SchTaskPool) :
    (q.setPool p pool).pools p = pool := by simp [setPool]

@[simp] theorem setPool_setPool (q : Queues) (p : ℕ) (pool pool' : SchTaskPool) :
    (q.setPool p pool).setPool p pool' = q.setPool p pool' := by simp [setPool]

theorem note_setPool (q : Queues) (p : ℕ) (pool : SchTaskPool) (package : SchTaskPackage) :
    (q.setPool p pool).note p (.enqueue package) = (q.note p (.enqueue package)).setPool p pool :=
  rfl

/-- A step that leaves `size`, `reserved` and `index` of the pool alone is not
    seen. -/
theorem view_setPool {pool : SchTaskPool} (hs : pool.size = (q.pools p).size)
    (hr : pool.reserved = (q.pools p).reserved) (hi : pool.index = (q.pools p).index) :
    (q.setPool p pool).view = q.view := by
  simp only [view, setPool, Prod.mk.injEq, and_true]
  funext p'
  by_cases hp : p' = p
  · subst hp; simp [hs, hr, hi]
  · simp [hp]

end Queues

/-- Everything that a test does. -/
inductive QueueTest.Result (q : Queues) : QueueTest → Caller → Prop
  | no {t} : Result q t (.out none)
  | room {p package} (h : (q.pools p).size < (q.pools p).reserved) :
      Result q (.full p package)
        (.call p (.enqueue { package with index := (q.pools p).index }))
  | found {p} (h : 0 < (q.pools p).size) : Result q (.some p) (.call p .dequeue)

theorem queueTest_cases {q : Queues} {c c' : Caller} {t : QueueTest}
    (h : queueTest c q.view t = some c') : (∃ ret, c = .out ret) ∧ t.Result q c' := by
  cases c with
  | call p op => cases h
  | out ret =>
    refine ⟨⟨ret, rfl⟩, ?_⟩
    cases t with
    | full p package =>
      rw [queueTest, Option.some.injEq] at h
      split_ifs at h with hfull
      · subst h; exact .no
      · subst h; exact .room (Nat.lt_of_not_le hfull)
    | some p =>
      rw [queueTest, Option.some.injEq] at h
      split_ifs at h with hs
      · subst h; exact .found hs
      · subst h; exact .no

/-- The steps, taken at once, are `schQueueMutexEnDeQueue`. -/
theorem runSection_queueSteps (q : Queues) (p : ℕ) (op : QueueOp) :
    (runSection (queueSteps p op) (q, queueProg.init)).map (fun s => (s.1, s.2.package)) =
      (schQueueMutexEnDeQueue (q.pools p) op).map fun r => ((q.note p op).setPool p r.1, r.2) := by
  cases op with
  | dequeue =>
    simp only [queueSteps, runSection, schQueueMutexEnDeQueue, queueProg, Option.bind_some,
      Queues.setPool_self, Queues.setPool_setPool, Option.map_map, Option.bind_map]
    cases umod (u32 ((q.pools p).head + 1)) (q.pools p).reserved <;> rfl
  | enqueue package =>
    simp only [queueSteps, runSection, schQueueMutexEnDeQueue, queueProg, Option.bind_some,
      Queues.setPool_self, Queues.setPool_setPool]
    cases umod (u32 ((q.pools p).tail + 1)) (q.pools p).reserved with
    | none => rfl
    | some tail => simp [Queues.note_setPool]

theorem atomicStep_eq_callStep (g : Atomic Queues Caller ι) (a : AtomicAct QueueTest ι) :
    queueProg.atomicStep g a = callStep g a := by
  cases a with
  | outside i a => rfl
  | whole i =>
    simp only [LockProg.atomicStep, callStep]
    cases hc : g.ctl i with
    | out ret => rfl
    | call p op =>
      have h := congrArg (Option.map fun r : Queues × Option ℕ =>
        (⟨r.1, Function.update g.ctl i (.out r.2)⟩ : Atomic Queues Caller ι))
        (runSection_queueSteps g.shared p op)
      simp only [Option.map_map] at h
      exact h

theorem atomicMachine_eq :
    queueProg.atomicMachine = (callMachine : Machine (Atomic Queues Caller ι) _) :=
  congrArg Machine.mk (funext fun g => funext (atomicStep_eq_callStep g))

/-- `size` is seen to change once. -/
theorem queueSteps_once (p : ℕ) (op : QueueOp) : Once Queues.view (queueSteps p op) := by
  cases op with
  | dequeue =>
    refine .hidden ?_ (.publish ?_)
    · rintro s s' ⟨⟩; rfl
    · intro m hm
      simp only [List.mem_cons, List.not_mem_nil, or_false] at hm
      rcases hm with rfl | rfl
      · rintro s s' ⟨⟩; rfl
      · intro s s' hs
        obtain ⟨head, -, rfl⟩ := Option.map_eq_some_iff.1 hs
        exact Queues.view_setPool rfl rfl rfl
  | enqueue package =>
    refine .hidden ?_ (.hidden ?_ (.hidden ?_ (.publish (by simp))))
    · rintro s s' ⟨⟩; exact Queues.view_setPool rfl rfl rfl
    · intro s s' hs
      obtain ⟨tail, -, rfl⟩ := Option.map_eq_some_iff.1 hs
      exact Queues.view_setPool rfl rfl rfl
    · rintro s s' ⟨⟩; rfl

/-- The capacities are `cap`, and a pool without any slot is empty. -/
def Queues.Cap (cap : ℕ → ℕ) (q : Queues) : Prop :=
  ∀ p, (q.pools p).reserved = cap p ∧ (cap p = 0 → (q.pools p).size = 0)

/-- The pool of the call has slots. -/
def Caller.Fits (cap : ℕ → ℕ) (c : Caller) : Prop := ∀ p op, c = .call p op → 0 < cap p

theorem Queues.Cap.setPool {cap : ℕ → ℕ} {q : Queues} (h : q.Cap cap) {p : ℕ} (hp : 0 < cap p)
    {pool : SchTaskPool} (hr : pool.reserved = (q.pools p).reserved) :
    (q.setPool p pool).Cap cap := by
  intro p'
  by_cases hpp : p' = p
  · subst hpp
    simp only [setPool_self]
    exact ⟨hr.trans (h p').1, fun h0 => by omega⟩
  · simpa [Queues.setPool, hpp] using h p'

theorem queueSteps_keeps {cap : ℕ → ℕ} {p : ℕ} (hp : 0 < cap p) (op : QueueOp) :
    ∀ m ∈ queueSteps p op, Micro.Keeps (Queues.Cap cap) m := by
  have hmod (q : Queues) (h : q.Cap cap) (n : ℕ) : ∃ k, umod n (q.pools p).reserved = some k :=
    ⟨_, umod_of_pos (by rw [(h p).1]; exact hp)⟩
  intro m hm ⟨q, r⟩ hq
  cases op with
  | dequeue =>
    simp only [queueSteps, List.mem_cons, List.not_mem_nil, or_false] at hm
    rcases hm with rfl | rfl | rfl | rfl
    · exact ⟨_, rfl, hq⟩
    · exact ⟨_, rfl, Queues.Cap.setPool (q := q.note p .dequeue) hq hp rfl⟩
    · exact ⟨_, rfl, hq⟩
    · obtain ⟨head, hh⟩ := hmod q hq (u32 ((q.pools p).head + 1))
      exact ⟨_, Option.map_eq_some_iff.2 ⟨head, hh, rfl⟩, hq.setPool hp rfl⟩
  | enqueue package =>
    simp only [queueSteps, List.mem_cons, List.not_mem_nil, or_false] at hm
    rcases hm with rfl | rfl | rfl | rfl
    · exact ⟨_, rfl, hq.setPool hp rfl⟩
    · obtain ⟨tail, ht⟩ := hmod q hq (u32 ((q.pools p).tail + 1))
      exact ⟨_, Option.map_eq_some_iff.2 ⟨tail, ht, rfl⟩, hq.setPool hp rfl⟩
    · exact ⟨_, rfl, hq⟩
    · exact ⟨_, rfl, Queues.Cap.setPool (q := q.note p (.enqueue package)) hq hp rfl⟩

/-- **The sections of `schQueueMutexEnDeQueue`** change what is seen once, and
    can be completed once they were begun: the tests let only pools pass that
    have slots. -/
theorem queueProg_sound (cap : ℕ → ℕ) :
    queueProg.Sound (Queues.Cap cap) (Caller.Fits cap) where
  outside q c a c' hq hc h := by
    intro p op hcall
    subst hcall
    by_contra h0
    obtain ⟨hres, hempty⟩ := hq p
    have hempty := hempty (by omega)
    cases (queueTest_cases h).2 with
    | room hlt => omega
    | found hs => omega
  once c ms _ h := by
    cases c with
    | out => cases h
    | call p op => cases h; exact queueSteps_once p op
  keeps c ms hc h := by
    cases c with
    | out => cases h
    | call p op => cases h; exact queueSteps_keeps (hc p op rfl) op
  leave c r _ := by rintro p op ⟨⟩

/-! ## Atomicity -/

section Start

variable (self : ℕ) (maxPackagesPool : UInt32) (package : ℕ → Ptr)
  (slot : ℕ → ℕ → SchTaskPackage)

/-- The pools of `schCreateTaskPool`. -/
def Queues.start : Queues :=
  ⟨fun p => .create self p maxPackagesPool (package p) (slot p), fun _ => [], fun _ => []⟩

theorem Queues.start_cap :
    (Queues.start self maxPackagesPool package slot).Cap fun _ => maxPackagesPool.toNat :=
  fun _ => ⟨rfl, fun _ => rfl⟩

omit [DecidableEq ι] in
theorem Queues.start_matches : queueProg.Matches (Queues.Cap fun _ => maxPackagesPool.toNat)
    (Caller.Fits fun _ => maxPackagesPool.toNat)
    (⟨start self maxPackagesPool package slot, fun _ => .out none, none⟩ : Locked _ _ _ ι)
    ⟨start self maxPackagesPool package slot, fun _ => .out none⟩ := by
  refine .start (start_cap self maxPackagesPool package slot) ?_
  rintro i p op ⟨⟩

/-- **`schQueueMutexEnDeQueue` is atomic**: whatever the threads do, a run of
    single steps on the pools is a run in which each call is one step between
    its lock and its unlock, with the same tests outside of the lock in the same
    order.  At any time the counters and the packages that went in and out are
    the same, and whenever nobody holds the lock, so is everything else. -/
theorem queue_calls_atomic (as : List (SectionAct QueueTest ι)) (f : Locked _ _ _ ι)
    (hrun : queueProg.lockedMachine.run
      ⟨Queues.start self maxPackagesPool package slot, fun _ => .out none, none⟩ as = some f) :
    ∃ bs g, Linearizes as bs ∧
      callMachine.run ⟨Queues.start self maxPackagesPool package slot, fun _ => .out none⟩ bs =
        some g ∧
      (∀ p, (f.shared.pools p).size = (g.shared.pools p).size ∧
        f.shared.sent p = g.shared.sent p ∧ f.shared.got p = g.shared.got p) ∧
      (f.holder = none → g.shared = f.shared ∧ g.ctl = f.ctl) := by
  obtain ⟨bs, g, hlin, hbs, -, hm⟩ :=
    LockProg.locked_atomic (F := fun _ _ => True) (O := fun _ _ _ => True)
      (queueProg_sound fun _ => maxPackagesPool.toNat) (fun _ _ _ _ _ _ => trivial)
      (Queues.start_matches self maxPackagesPool package slot)
      (Machine.along_of_forall _ fun _ _ _ => trivial) hrun
  rw [atomicMachine_eq] at hbs
  refine ⟨bs, g, hlin, hbs, ?_, hm.eq⟩
  intro p
  have hview := hm.view
  simp only [queueProg, Queues.view, Prod.mk.injEq] at hview
  obtain ⟨h1, h2, h3⟩ := hview
  exact ⟨congrArg Prod.fst (congrFun h1 p), congrFun h2 p, congrFun h3 p⟩

end Start

/-- A worker reads `size` while a submitter is about to update it. -/
def halfStored : List (SectionAct QueueTest ℕ) :=
  [.outside 0 (.full 0 (.ofCallback 7)), .lock 0, .micro 0, .micro 0, .outside 1 (.some 0),
    .micro 0, .micro 0, .outside 1 (.some 0), .unlock 0, .lock 1, .micro 1]

theorem queue_calls_atomic_halfStored : ∃ bs,
    Linearizes halfStored bs ∧ ∃ g, callMachine.run
      ⟨Queues.start 0 2 (fun _ => some 0) fun _ _ => .ofCallback 0, fun _ => .out none⟩ bs =
        some g ∧
      g.shared.sent 0 = [.ofCallback 7] := by
  obtain ⟨f, hf, hsent⟩ : ∃ f, queueProg.lockedMachine.run
      ⟨Queues.start 0 2 (fun _ => some 0) fun _ _ => .ofCallback 0, fun _ => .out none, none⟩
      halfStored = some f ∧ f.shared.sent 0 = [.ofCallback 7] := ⟨_, rfl, rfl⟩
  obtain ⟨bs, g, hlin, hbs, hsame, -⟩ :=
    queue_calls_atomic 0 2 (fun _ => some 0) (fun _ _ => .ofCallback 0) halfStored f hf
  exact ⟨bs, hlin, g, hbs, (hsame 0).2.1.symm.trans hsent⟩

/-! ## Several submitters -/

/-- The thread has passed the full test of the pool and not stored its package. -/
def Caller.stores (p : ℕ) : Caller → Bool
  | .call q (.enqueue _) => decide (q = p)
  | .call _ .dequeue | .out _ => false

section Fifo

variable [Fintype ι]

/-- The number of submitters between their full test of the pool and their
    enqueue. -/
def underWay (ctl : ι → Caller) (p : ℕ) : ℕ := ∑ i, ((ctl i).stores p).toNat

theorem underWay_update (ctl : ι → Caller) (i : ι) (c : Caller) (p : ℕ) :
    underWay (Function.update ctl i c) p + ((ctl i).stores p).toNat =
      underWay ctl p + (c.stores p).toNat := by
  have hrest : ∑ j ∈ Finset.univ.erase i, ((Function.update ctl i c j).stores p).toNat =
      ∑ j ∈ Finset.univ.erase i, ((ctl j).stores p).toNat := by
    refine Finset.sum_congr rfl fun j hj => ?_
    rw [Function.update_of_ne (Finset.ne_of_mem_erase hj)]
  have h1 := Finset.add_sum_erase Finset.univ
    (fun j => ((Function.update ctl i c j).stores p).toNat) (Finset.mem_univ i)
  have h2 := Finset.add_sum_erase Finset.univ (fun j => ((ctl j).stores p).toNat)
    (Finset.mem_univ i)
  simp only [Function.update_self] at h1
  unfold underWay
  omega

omit [DecidableEq ι] in
theorem underWay_pos {ctl : ι → Caller} {i : ι} {p : ℕ} (h : (ctl i).stores p) :
    0 < underWay ctl p :=
  Finset.sum_pos' (fun _ _ => Nat.zero_le _) ⟨i, Finset.mem_univ i, by simp [h]⟩

/-- A full test that passes leaves room for the submitters under way, and only
    the worker of a pool takes packages from it. -/
def Permits (worker : ℕ → ι) (q : Queues) (ctl : ι → Caller) (i : ι) : QueueTest → Prop
  | .full p _ => (q.pools p).size < (q.pools p).reserved →
      (q.pools p).size + underWay ctl p < (q.pools p).reserved
  | .some p => i = worker p

instance (worker : ℕ → ι) (q : Queues) (ctl : ι → Caller) (i : ι) :
    (t : QueueTest) → Decidable (Permits worker q ctl i t)
  | .full _ _ => inferInstanceAs (Decidable (_ → _))
  | .some p => inferInstanceAs (Decidable (i = worker p))

/-- The guard of single steps. -/
def Locked.Permits (worker : ℕ → ι) (f : Locked Queues Caller Registers ι) :
    SectionAct QueueTest ι → Prop
  | .outside i t => TaskSch.Permits worker f.shared f.ctl i t
  | .lock _ | .micro _ | .unlock _ => True

instance (worker : ℕ → ι) (f : Locked Queues Caller Registers ι) :
    (a : SectionAct QueueTest ι) → Decidable (f.Permits worker a)
  | .outside i t => inferInstanceAs (Decidable (TaskSch.Permits worker f.shared f.ctl i t))
  | .lock _ | .micro _ | .unlock _ => .isTrue trivial

/-- Every pool is a circular buffer that holds what was stored and not taken,
    has room for the submitters under way, and a package for its worker. -/
structure Queues.Fifo (worker : ℕ → ι) (g : Atomic Queues Caller ι) : Prop where
  ring : ∀ p, (g.shared.pools p).RingWf
  fifo : ∀ p, g.shared.sent p = g.shared.got p ++ (g.shared.pools p).queue
  room : ∀ p, (g.shared.pools p).size + underWay g.ctl p ≤ (g.shared.pools p).reserved
  taker : ∀ i p, g.ctl i = .call p .dequeue → i = worker p ∧ 0 < (g.shared.pools p).size

namespace Queues.Fifo

variable {worker : ℕ → ι} {g g' : Atomic Queues Caller ι} {i : ι}

theorem outside (h : Fifo worker g) {t : QueueTest} (ht : Permits worker g.shared g.ctl i t)
    {c : Caller} (hc : queueTest (g.ctl i) g.shared.view t = some c) :
    Fifo worker { g with ctl := Function.update g.ctl i c } := by
  obtain ⟨⟨ret, hi⟩, hres⟩ := queueTest_cases hc
  have hunder := fun p => underWay_update g.ctl i c p
  simp only [hi, Caller.stores, Bool.toNat_false, Nat.add_zero] at hunder
  refine ⟨h.ring, h.fifo, ?_, ?_⟩
  · intro p
    simp only [hunder]
    have hroom := h.room p
    cases hres with
    | no | found => exact hroom
    | @room p' package hlt =>
      by_cases hp : p' = p
      · subst hp
        have := ht hlt
        simp only [decide_true, Bool.toNat_true]
        omega
      · simpa [Caller.stores, hp] using hroom
  · intro j p hj
    by_cases hji : j = i
    · subst hji
      simp only [Function.update_self] at hj
      subst hj
      cases hres with
      | found hs => exact ⟨ht, hs⟩
    · simp only [Function.update_of_ne hji] at hj
      exact h.taker j p hj

/-- The effect of a whole call on one pool. -/
theorem whole {p : ℕ} {pool : SchTaskPool} {sent got : ℕ → List SchTaskPackage} {ret : Option ℕ}
    (h : Fifo worker g) (hsent : ∀ q, q ≠ p → sent q = g.shared.sent q)
    (hgot : ∀ q, q ≠ p → got q = g.shared.got q) (hring : pool.RingWf)
    (hfifo : sent p = got p ++ pool.queue)
    (hroom : pool.size + underWay (Function.update g.ctl i (.out ret)) p ≤ pool.reserved)
    (hother : ∀ q, q ≠ p → (g.ctl i).stores q = false)
    (htaker : ∀ j, j ≠ i → g.ctl j = .call p .dequeue → j = worker p ∧ 0 < pool.size) :
    Fifo worker ⟨⟨Function.update g.shared.pools p pool, sent, got⟩,
      Function.update g.ctl i (.out ret)⟩ := by
  refine ⟨?_, ?_, ?_, ?_⟩
  · intro q
    by_cases hq : q = p
    · subst hq; simpa using hring
    · simpa [hq] using h.ring q
  · intro q
    by_cases hq : q = p
    · subst hq; simpa using hfifo
    · simpa [hq, hsent q hq, hgot q hq] using h.fifo q
  · intro q
    by_cases hq : q = p
    · subst hq; simpa using hroom
    · have hu := underWay_update g.ctl i (.out ret) q
      rw [hother q hq] at hu
      simp only [Caller.stores, Bool.toNat_false, Nat.add_zero] at hu
      simpa [hq, hu] using h.room q
  · intro j q hj
    have hji : j ≠ i := by
      rintro rfl
      simp at hj
    simp only [Function.update_of_ne hji] at hj
    by_cases hq : q = p
    · subst hq; simpa using htaker j hji hj
    · simpa [hq] using h.taker j q hj

theorem call (h : Fifo worker g) (hs : callStep g (.whole i) = some g') : Fifo worker g' := by
  simp only [callStep] at hs
  cases hi : g.ctl i with
  | out ret => rw [hi] at hs; cases hs
  | call p op =>
    simp only [hi] at hs
    cases op with
    | enqueue package =>
      have hpos : 0 < underWay g.ctl p := underWay_pos (i := i) (by simp [hi, Caller.stores])
      have hroom := h.room p
      have hlt : (g.shared.pools p).size < (g.shared.pools p).reserved := by omega
      rw [SchTaskPool.enqueue_eq (h.ring p) hlt] at hs
      cases hs
      have hu := underWay_update g.ctl i (.out none) p
      simp only [hi, Caller.stores, decide_true, Bool.toNat_true, Bool.toNat_false] at hu
      refine h.whole (fun q hq => ?_) (fun _ _ => rfl) ((h.ring p).pushed hlt package) ?_ ?_ ?_ ?_
      · exact Function.update_of_ne hq _ _
      · simp only [note, Function.update_self]
        rw [SchTaskPool.queue_pushed (h.ring p) hlt, h.fifo p, List.append_assoc]
      · simp only [SchTaskPool.pushed]; omega
      · intro q hq
        simp [hi, Caller.stores, Ne.symm hq]
      · intro j _ hj
        exact ⟨(h.taker j p hj).1, Nat.succ_pos _⟩
    | dequeue =>
      obtain ⟨hw, hpos⟩ := h.taker i p hi
      rw [SchTaskPool.dequeue_eq (h.ring p) hpos] at hs
      cases hs
      have hroom := h.room p
      have hu := underWay_update g.ctl i (.out (some (g.shared.pools p).head)) p
      simp only [hi, Caller.stores, Bool.toNat_false, Nat.add_zero] at hu
      refine h.whole (fun _ _ => rfl) (fun q hq => ?_) ((h.ring p).popped hpos) ?_ ?_ ?_ ?_
      · exact Function.update_of_ne hq _ _
      · simp only [note, Function.update_self]
        rw [h.fifo p, SchTaskPool.queue_popped (h.ring p) hpos, List.append_assoc]
        rfl
      · simp only [SchTaskPool.popped]; omega
      · intro q _
        simp [hi, Caller.stores]
      · intro j hji hj
        exact absurd ((h.taker j p hj).1.trans hw.symm) hji

theorem step (h : Fifo worker g) {a : AtomicAct QueueTest ι}
    (ha : LockProg.Guard (fun g i t => Permits worker g.shared g.ctl i t) g a)
    (hs : callStep g a = some g') : Fifo worker g' := by
  cases a with
  | outside i t =>
    obtain ⟨c, hc, rfl⟩ := Option.map_eq_some_iff.1 hs
    exact h.outside ha hc
  | whole i => exact h.call hs

end Queues.Fifo

variable {cap : ℕ → ℕ} {f : Locked Queues Caller Registers ι} {g : Atomic Queues Caller ι}

omit [DecidableEq ι] in
/-- A submitter that has stored its package counts as under way until it
    unlocks. -/
theorem underWay_le (h : queueProg.Matches (Queues.Cap cap) (Caller.Fits cap) f g) (p : ℕ) :
    underWay g.ctl p ≤ underWay f.ctl p := by
  refine Finset.sum_le_sum fun i _ => ?_
  rcases h.ctl_or i with hi | ⟨r, hi⟩
  · rw [hi]
  · rw [hi]; exact Nat.zero_le _

omit [DecidableEq ι] in
theorem Permits.atomic {worker : ℕ → ι}
    (h : queueProg.Matches (Queues.Cap cap) (Caller.Fits cap) f g) {i : ι} {t : QueueTest}
    (ht : Permits worker f.shared f.ctl i t) : Permits worker g.shared g.ctl i t := by
  cases t with
  | some p => exact ht
  | full p package =>
    have hview := congrFun (congrArg Prod.fst h.view) p
    simp only [queueProg, Queues.view, Prod.mk.injEq] at hview
    obtain ⟨hsize, hres, -⟩ := hview
    have hle := underWay_le h p
    simp only [Permits, ← hsize, ← hres] at ht ⊢
    intro hlt
    have := ht hlt
    omega

/-- **Any number of submitters use each pool as a FIFO queue**, step by
    step, if each full test that passes leaves room for the submitters under
    way: what the worker took is, in order, the beginning of what was stored,
    `size` counts the rest and stays within the capacity, and when nobody holds
    the lock the buffer contains it. -/
theorem submitters_fifo (self : ℕ) (maxPackagesPool : UInt32) (package : ℕ → Ptr)
    (slot : ℕ → ℕ → SchTaskPackage) (worker : ℕ → ι) (as : List (SectionAct QueueTest ι))
    (f : Locked _ _ _ ι)
    (hguard : queueProg.lockedMachine.Along (Locked.Permits worker)
      ⟨Queues.start self maxPackagesPool package slot, fun _ => .out none, none⟩ as)
    (hrun : queueProg.lockedMachine.run
      ⟨Queues.start self maxPackagesPool package slot, fun _ => .out none, none⟩ as = some f)
    (p : ℕ) :
    f.shared.got p <+: f.shared.sent p ∧
      (f.shared.got p).length + (f.shared.pools p).size = (f.shared.sent p).length ∧
      (f.shared.pools p).size ≤ maxPackagesPool.toNat ∧
      (f.holder = none → f.shared.sent p = f.shared.got p ++ (f.shared.pools p).queue) := by
  obtain ⟨bs, g, -, hbs, hgo, hm⟩ :=
    LockProg.locked_atomic (O := fun g i t => Permits worker g.shared g.ctl i t)
      (queueProg_sound fun _ => maxPackagesPool.toNat)
      (fun _ _ _ _ hm ht => Permits.atomic hm ht)
      (Queues.start_matches self maxPackagesPool package slot) hguard hrun
  rw [atomicMachine_eq] at hbs hgo
  have hstart : Queues.Fifo worker
      ⟨Queues.start self maxPackagesPool package slot, fun _ => .out none⟩ := by
    refine ⟨fun p => SchTaskPool.create_ringWf .., fun p => rfl, ?_, by simp⟩
    intro p
    simp [Queues.start, SchTaskPool.create, underWay, Caller.stores]
  have hfifo : Queues.Fifo worker g :=
    Machine.run_along_inv (fun _ _ _ h ha hs => h.step ha hs) hgo hbs hstart
  have hview := hm.view
  simp only [queueProg, Queues.view, Prod.mk.injEq] at hview
  obtain ⟨hpools, hsent, hgot⟩ := hview
  have hpool := congrFun hpools p
  simp only [Prod.mk.injEq] at hpool
  obtain ⟨hsize, hres, -⟩ := hpool
  have hcap : (f.shared.pools p).reserved = maxPackagesPool.toNat := (hm.shared p).1
  have hlen := congrArg List.length (hfifo.fifo p)
  simp only [List.length_append, SchTaskPool.queue, ringList_length] at hlen
  have hle := (hfifo.ring p).size_le
  rw [hsent, hgot]
  refine ⟨⟨_, (hfifo.fifo p).symm⟩, by omega, by omega, ?_⟩
  intro hfree
  rw [← (hm.eq hfree).1]
  exact hfifo.fifo p

/-- Two submitters and a worker, where the room suffices. -/
def twoSubmitters : List (SectionAct QueueTest (Fin 3)) :=
  [.outside 0 (.full 0 (.ofCallback 7)), .lock 0, .outside 1 (.full 0 (.ofCallback 8)), .micro 0,
    .micro 0, .micro 0, .micro 0, .unlock 0, .outside 2 (.some 0), .lock 1, .micro 1, .micro 1,
    .micro 1, .micro 1, .unlock 1, .lock 2, .micro 2, .micro 2]

theorem submitters_fifo_two : ∃ f : Locked _ _ _ (Fin 3),
    queueProg.lockedMachine.run
      ⟨Queues.start 0 2 (fun _ => some 0) fun _ _ => .ofCallback 0, fun _ => .out none, none⟩
      twoSubmitters = some f ∧
    f.shared.got 0 <+: f.shared.sent 0 ∧ f.shared.got 0 = [.ofCallback 7] := by
  have heval : (queueProg.lockedMachine.run
      ⟨Queues.start 0 2 (fun _ => some 0) fun _ _ => .ofCallback 0, fun _ => .out none, none⟩
      twoSubmitters).map (fun f : Locked _ _ _ (Fin 3) => f.shared.got 0) =
        some [.ofCallback 7] := by decide +kernel
  obtain ⟨f, hf, hgot⟩ := Option.map_eq_some_iff.1 heval
  exact ⟨f, hf, (submitters_fifo 0 2 (fun _ => some 0) (fun _ _ => .ofCallback 0) (fun _ => 2) _ f
    (by decide +kernel) hf 0).1, hgot⟩

end Fifo

end TaskSch
