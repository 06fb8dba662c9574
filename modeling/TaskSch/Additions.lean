/-
  Task scheduler formalization — `pool->dheapPriority += 1000` as a load and a
  store (`schSubmitTask`, src/taskSch.c).

  The addition is made after the spinlock has been released, on a plain `long`
  that the worker overwrites meanwhile.  A worker that stores between the load
  and the store is overwritten in turn: its reset of the key is lost.

  * `enqueue_atomic`: with nothing in between, this is the submission of `Queue`;
  * `additions_bound`: the key never exceeds the longest task by more than 1000
    for each addition ever made, and up to `LONG_MAX` this bound is reached with
    one submitter and a queue that is drained after each package.  The bound by
    the capacity of the queue (`Priority`) needs the addition to be one step.
-/
import TaskSch.Priority

namespace TaskSch

/-! ## The submission in four steps -/

/-- The pool with another key. -/
def SchTaskPool.withPriority (pool : SchTaskPool) (priority : ℤ) : SchTaskPool :=
  { pool with dheapPriority := priority }

/-- Where a thread is in the submission to the pool. -/
inductive Adder where
  | out
  /-- the full test has passed; before the enqueue -/
  | tested
  /-- the package has been stored; before the load of `dheapPriority` -/
  | stored
  /-- before the store of the value loaded, plus 1000 -/
  | loaded (priority : ℤ)
  deriving DecidableEq

/-- A pool, its worker and the threads that submit to it. -/
structure Adds (ι : Type) where
  lane : Lane
  adder : ι → Adder
  /-- how many additions are finished -/
  additions : ℕ

inductive AddAct (ι : Type) where
  | work (a : WorkerAct)
  | raise (signal : ℤ)
  | test (c : ι)
  | enqueue (c : ι) (package : SchTaskPackage)
  | load (c : ι)
  | store (c : ι)

namespace Adds

variable {ι : Type} [DecidableEq ι]

/-- One step.  There is none for an addition that overflows. -/
def step (s : Adds ι) : AddAct ι → Option (Adds ι)
  | .work a => (s.lane.work a).map fun l => { s with lane := l }
  | .raise signal =>
    some { s with lane := { s.lane with pending := insert signal s.lane.pending } }
  | .test c =>
    if s.adder c = .out then
      if s.lane.pool.size ≥ s.lane.pool.reserved then some s
      else some { s with adder := Function.update s.adder c .tested }
    else none
  | .enqueue c package =>
    if s.adder c = .tested then
      let package := { package with index := s.lane.pool.index }
      (schQueueMutexEnDeQueue s.lane.pool (.enqueue package)).map fun r =>
        { s with
          lane := { s.lane with
            pool := r.1
            log := { s.lane.log with accepted := s.lane.log.accepted ++ [package] } }
          adder := Function.update s.adder c .stored }
    else none
  | .load c =>
    if s.adder c = .stored then
      some { s with adder := Function.update s.adder c (.loaded s.lane.pool.dheapPriority) }
    else none
  | .store c =>
    match s.adder c with
    | .loaded priority =>
      if priority + 1000 ≤ longMax then
        some ⟨{ s.lane with pool := s.lane.pool.withPriority (priority + 1000) },
          Function.update s.adder c .out, s.additions + 1⟩
      else none
    | _ => none

/-- The system right after the start of the worker. -/
def start (pool : SchTaskPool) (t : ℕ) (m set : Ptr) : Adds ι :=
  ⟨.start pool t m set, fun _ => .out, 0⟩

end Adds

variable {ι : Type} [DecidableEq ι]

def addMachine (ι : Type) [DecidableEq ι] : Machine (Adds ι) (AddAct ι) := ⟨Adds.step⟩

/-- The duration that a step measures, if it does, lies in `[-d, d]`. -/
def AddAct.Within (d : ℕ) : AddAct ι → Prop
  | .work a => a.Within d
  | _ => True

theorem Adds.step_store {s : Adds ι} {c : ι} {priority : ℤ} (h : s.adder c = .loaded priority)
    (hmax : priority + 1000 ≤ longMax) :
    s.step (.store c) =
      some ⟨{ s.lane with pool := s.lane.pool.withPriority (priority + 1000) },
        Function.update s.adder c .out, s.additions + 1⟩ := by
  simp only [Adds.step, h, if_pos hmax]

/-- An addition without steps in between. -/
theorem Adds.run_add {s : Adds ι} {c : ι} (h : s.adder c = .stored)
    (hmax : s.lane.pool.dheapPriority + 1000 ≤ longMax) :
    (addMachine ι).run s [.load c, .store c] =
      some ⟨{ s.lane with pool := s.lane.pool.withPriority (s.lane.pool.dheapPriority + 1000) },
        Function.update s.adder c .out, s.additions + 1⟩ := by
  have hload : s.step (.load c) =
      some { s with adder := Function.update s.adder c (.loaded s.lane.pool.dheapPriority) } :=
    if_pos h
  refine Machine.run_cons.2 ⟨_, hload, Machine.run_cons.2 ⟨_, ?_, rfl⟩⟩
  refine (Adds.step_store (Function.update_self ..) hmax).trans ?_
  simp only [Function.update_idem]

/-- **One addition after the other**: a submission without steps in between is
    the submission in one step. -/
theorem enqueue_atomic {s : Adds ι} {c : ι} {package : SchTaskPackage} {l : Lane}
    (hout : s.adder c = .out) (hmax : s.lane.pool.dheapPriority + 1000 ≤ longMax)
    (h : s.lane.step (.submit package) = some l) :
    (addMachine ι).run s [.test c, .enqueue c package, .load c, .store c] =
      some ⟨l, s.adder, s.additions + 1⟩ := by
  simp only [Lane.step, SchTaskPool.submit] at h
  split_ifs at h with hfull
  · cases h
  · simp only [Option.bind_map, Option.bind_eq_some_iff] at h
    obtain ⟨r, hr, h⟩ := h
    cases h
    have hback : Function.update s.adder c Adder.out = s.adder := by
      rw [← hout, Function.update_eq_self]
    have hsum : r.1.dheapPriority + 1000 ≤ longMax := (SchTaskPool.queue_priority hr).symm ▸ hmax
    have htest : s.step (.test c) = some { s with adder := Function.update s.adder c .tested } := by
      simp only [Adds.step, hout, if_true, if_neg hfull]
    let package' := { package with index := s.lane.pool.index }
    refine Machine.run_cons.2 ⟨_, htest, Machine.run_cons.2 ⟨⟨{ s.lane with
      pool := r.1, log := { s.lane.log with accepted := s.lane.log.accepted ++ [package'] } },
      Function.update s.adder c .stored, s.additions⟩, ?_, ?_⟩⟩
    · simp only [addMachine, Adds.step, Function.update_self, if_true, hr, Option.map_some,
        Function.update_idem]
      rfl
    · refine (Adds.run_add (Function.update_self ..) hsum).trans ?_
      simp only [Function.update_idem, hback]
      rfl

/-! ## The bound -/

/-- A step of the worker keeps the key, or stores zero or the duration of the
    task. -/
theorem Lane.work_key {l l' : Lane} {a : WorkerAct} (h : l.work a = some l') :
    l'.pool.dheapPriority = l.pool.dheapPriority ∨ l'.pool.dheapPriority = 0 ∨
      ∃ v, a = .ret v ∧ l'.pool.dheapPriority = v := by
  cases work_cases h with
  | dequeue hpc hq => exact .inl (SchTaskPool.queue_priority hq)
  | ret hpc v => exact .inr (.inr (work_ret hpc h))
  | idle hpc => exact .inr (.inl rfl)
  | _ => exact .inl rfl

/-- The key, and what was loaded of it, is bounded by the additions made. -/
structure Adds.Bounded (d : ℕ) (s : Adds ι) : Prop where
  lower : -d ≤ s.lane.pool.dheapPriority
  upper : s.lane.pool.dheapPriority ≤ d + 1000 * s.additions
  loaded : ∀ c v, s.adder c = .loaded v → -d ≤ v ∧ v ≤ d + 1000 * s.additions

omit [DecidableEq ι] in
theorem Adds.Bounded.work {d : ℕ} {s : Adds ι} (h : s.Bounded d) {a : WorkerAct}
    (ha : a.Within d) {l : Lane} (hw : s.lane.work a = some l) :
    Adds.Bounded d { s with lane := l } := by
  obtain ⟨hlo, hhi, hld⟩ := h
  refine ⟨?_, ?_, hld⟩ <;>
    obtain hp | hp | ⟨v, rfl, hp⟩ := Lane.work_key hw <;>
    simp only [hp]
  · exact hlo
  · omega
  · exact ha.1
  · exact hhi
  · omega
  · exact ha.2.trans (by omega)

/-- A thread goes on to a place where it has loaded nothing. -/
theorem Adds.Bounded.goes {d : ℕ} {s : Adds ι} (h : s.Bounded d) {c : ι} {p : Adder}
    (hp : ∀ v, p ≠ .loaded v) :
    ∀ c' v, Function.update s.adder c p c' = .loaded v → -d ≤ v ∧ v ≤ d + 1000 * s.additions := by
  intro c' v hv
  by_cases hc : c' = c
  · subst hc
    exact absurd (by simpa using hv) (hp v)
  · exact h.loaded c' v (by simpa [hc] using hv)

theorem Adds.Bounded.step {d : ℕ} {s s' : Adds ι} (h : s.Bounded d) {a : AddAct ι}
    (ha : a.Within d) (hs : s.step a = some s') : s'.Bounded d := by
  cases a with
  | work a =>
    obtain ⟨l, hl, rfl⟩ := Option.map_eq_some_iff.1 hs
    exact h.work ha hl
  | raise signal =>
    cases hs
    exact ⟨h.lower, h.upper, h.loaded⟩
  | test c =>
    simp only [Adds.step] at hs
    split_ifs at hs with hout hfull
    · cases hs; exact h
    · cases hs
      exact ⟨h.lower, h.upper, h.goes (by simp)⟩
  | enqueue c package =>
    simp only [Adds.step] at hs
    split_ifs at hs with htested
    obtain ⟨r, hr, rfl⟩ := Option.map_eq_some_iff.1 hs
    have hp := SchTaskPool.queue_priority hr
    exact ⟨hp ▸ h.lower, hp ▸ h.upper, h.goes (by simp)⟩
  | load c =>
    simp only [Adds.step] at hs
    split_ifs at hs with hst
    cases hs
    refine ⟨h.lower, h.upper, ?_⟩
    intro c' v hv
    by_cases hc : c' = c
    · subst hc
      simp only [Function.update_self, Adder.loaded.injEq] at hv
      rw [← hv]
      exact ⟨h.lower, h.upper⟩
    · exact h.loaded c' v (by simpa [hc] using hv)
  | store c =>
    simp only [Adds.step] at hs
    split at hs
    next priority hv =>
      split_ifs at hs with hsum
      cases hs
      obtain ⟨hlo, hhi⟩ := h.loaded c priority hv
      refine ⟨?_, ?_, ?_⟩
      · simp only [SchTaskPool.withPriority]; omega
      · simp only [SchTaskPool.withPriority]; push_cast; omega
      · intro c' v hv'
        obtain ⟨hlo', hhi'⟩ := h.goes (p := .out) (by simp) c' v hv'
        exact ⟨hlo', by push_cast; omega⟩
    next => cases hs

omit [DecidableEq ι] in
theorem Adds.Bounded.start {d : ℕ} (self i : ℕ) (maxPackagesPool : UInt32) (package : Ptr)
    (slot : ℕ → SchTaskPackage) (t : ℕ) (m set : Ptr) :
    (Adds.start (.create self i maxPackagesPool package slot) t m set : Adds ι).Bounded d := by
  refine ⟨?_, ?_, by simp [Adds.start]⟩
  · show -(d : ℤ) ≤ 0
    omega
  · show (0 : ℤ) ≤ d + 1000 * (0 : ℕ)
    omega

/-! ## The bound is reached -/

/-- The worker of a pool, alone. -/
def workerMachine : Machine Lane WorkerAct := ⟨Lane.work⟩

theorem run_work (s : Adds ι) (ws : List WorkerAct) :
    (addMachine ι).run s (ws.map .work) =
      (workerMachine.run s.lane ws).map fun l => { s with lane := l } := by
  induction ws generalizing s with
  | nil => rfl
  | cons a ws ih =>
    have hstep : (addMachine ι).step s (.work a) =
        (s.lane.work a).map fun l => { s with lane := l } := rfl
    have hwork : workerMachine.step s.lane a = s.lane.work a := rfl
    simp only [List.map_cons, Machine.run, hstep, hwork]
    cases s.lane.work a with
    | none => rfl
    | some l => exact ih _

/-- The worker takes a package and runs it for `d` nanoseconds. -/
def serve (d : ℕ) : List WorkerAct := [.go, .go, .go, .ret d]

/-- The only package of the queue is served. -/
theorem Lane.Books.serve {l : Lane} (h : l.Books) (hpc : l.pc = .check) (hsize : l.pool.size = 1)
    (d : ℕ) : ∃ l', workerMachine.run l (serve d) = some l' ∧ l'.Books ∧ l'.pc = .check ∧
      l'.pool.size = 0 ∧ l'.pool.reserved = l.pool.reserved ∧ l'.pool.dheapPriority = d := by
  have hpos : 0 < l.pool.size := by omega
  have hdeq := SchTaskPool.dequeue_eq h.ring hpos
  have hrun : ∃ l', workerMachine.run l (TaskSch.serve d) = some l' ∧ l'.pc = .check ∧
      l'.pool.size = 0 ∧ l'.pool.reserved = l.pool.reserved ∧ l'.pool.dheapPriority = d := by
    simp only [TaskSch.serve, workerMachine, Machine.run, work, hpc, hpos, if_true, hdeq,
      Option.bind_some, Option.map_some]
    exact ⟨_, rfl, rfl, by simp only [SchTaskPool.popped]; omega, rfl, rfl⟩
  obtain ⟨l', hl', hrest⟩ := hrun
  have hb : l'.Books := by
    refine Machine.run_inv (P := Books) ?_ hl' h
    intro l a l' hb hw
    exact step_books (e := .work a) hw hb
  exact ⟨l', hl', hb, hrest⟩

/-- The queue is empty, the worker is about to look at it, and nobody submits. -/
structure Adds.Drained (cap : ℕ) (s : Adds Unit) : Prop where
  books : s.lane.Books
  pc : s.lane.pc = .check
  size : s.lane.pool.size = 0
  reserved : s.lane.pool.reserved = cap
  out : s.adder () = .out

theorem Lane.Books.withPriority {l : Lane} (h : l.Books) (priority : ℤ) :
    Lane.Books { l with pool := l.pool.withPriority priority } := by
  obtain ⟨⟨h1, h2, h3, h4⟩, hq, hle, htk, hne, hidx, hslot⟩ := h
  exact ⟨⟨h1, h2, h3, h4⟩, hq, hle, htk, hne, hidx, hslot⟩

/-- The test and the enqueue, with nothing in between. -/
def putIn (package : SchTaskPackage) : List (AddAct Unit) := [.test (), .enqueue () package]

/-- The package is served before the key is loaded. -/
def lateTurn (package : SchTaskPackage) (d : ℕ) : List (AddAct Unit) :=
  putIn package ++ ((serve d).map .work ++ [.load (), .store ()])

/-- The package is served between the load of the key and its store. -/
def earlyTurn (package : SchTaskPackage) (d : ℕ) : List (AddAct Unit) :=
  putIn package ++ .load () :: ((serve d).map .work ++ [.store ()])

theorem Adds.Drained.enqueue {cap : ℕ} {s : Adds Unit} (h : s.Drained cap) (hcap : 0 < cap)
    (package : SchTaskPackage) :
    ∃ l, (addMachine Unit).run s (putIn package) =
        some ⟨l, Function.update s.adder () .stored, s.additions⟩ ∧
      l.Books ∧ l.pc = .check ∧ l.pool.size = 1 ∧ l.pool.reserved = cap ∧
      l.pool.dheapPriority = s.lane.pool.dheapPriority := by
  have hroom : s.lane.pool.size < s.lane.pool.reserved := by rw [h.size, h.reserved]; exact hcap
  have hsub : s.lane.step (.submit package) = some (s.lane.submitted package) := by
    simp only [Lane.step, SchTaskPool.submit_eq h.books.ring hroom, Option.bind_some]
    rfl
  have hb := (Lane.step_books hsub h.books).withPriority s.lane.pool.dheapPriority
  refine ⟨_, ?_, hb, h.pc, ?_, h.reserved, rfl⟩
  · simp only [putIn, addMachine, Machine.run, Adds.step, h.out, if_true,
      if_neg (Nat.not_le.2 hroom), Option.bind_some, Function.update_self, Function.update_idem,
      SchTaskPool.enqueue_eq h.books.ring hroom, Option.map_some]
    rfl
  · show s.lane.pool.size + 1 = 1
    rw [h.size]

theorem Adds.Drained.late {cap : ℕ} {s : Adds Unit} (h : s.Drained cap) (hcap : 0 < cap)
    (package : SchTaskPackage) (d : ℕ) (hmax : (d : ℤ) + 1000 ≤ longMax) :
    ∃ s', (addMachine Unit).run s (lateTurn package d) = some s' ∧ s'.Drained cap ∧
      s'.additions = s.additions + 1 ∧ s'.lane.pool.dheapPriority = d + 1000 := by
  obtain ⟨l, hput, hb, hpc, hsize, hres, -⟩ := h.enqueue hcap package
  obtain ⟨l', hserve, hb', hpc', hsize', hres', hprio'⟩ := hb.serve hpc hsize d
  refine ⟨⟨{ l' with pool := l'.pool.withPriority (d + 1000) }, Function.update s.adder () .out,
    s.additions + 1⟩, ?_, ⟨hb'.withPriority _, hpc', hsize', hres'.trans hres, by simp⟩, rfl, rfl⟩
  have hadd := Adds.run_add (s := ⟨l', Function.update s.adder () .stored, s.additions⟩) (c := ())
    (by simp) (by rw [hprio']; exact hmax)
  simp only [Function.update_idem, hprio'] at hadd
  rw [lateTurn, Machine.run_append, hput, Option.bind_some, Machine.run_append, run_work, hserve,
    Option.map_some, Option.bind_some, hadd]

/-- The store of the worker is lost. -/
theorem Adds.Drained.early {cap : ℕ} {s : Adds Unit} (h : s.Drained cap) (hcap : 0 < cap)
    (package : SchTaskPackage) (d : ℕ) (hmax : s.lane.pool.dheapPriority + 1000 ≤ longMax) :
    ∃ s', (addMachine Unit).run s (earlyTurn package d) = some s' ∧ s'.Drained cap ∧
      s'.additions = s.additions + 1 ∧
      s'.lane.pool.dheapPriority = s.lane.pool.dheapPriority + 1000 := by
  obtain ⟨l, hput, hb, hpc, hsize, hres, hprio⟩ := h.enqueue hcap package
  obtain ⟨l', hserve, hb', hpc', hsize', hres', -⟩ := hb.serve hpc hsize d
  refine ⟨⟨{ l' with pool := l'.pool.withPriority (s.lane.pool.dheapPriority + 1000) },
    Function.update s.adder () .out, s.additions + 1⟩, ?_,
    ⟨hb'.withPriority _, hpc', hsize', hres'.trans hres, by simp⟩, rfl, rfl⟩
  have hload : (addMachine Unit).step ⟨l, Function.update s.adder () .stored, s.additions⟩
      (.load ()) = some ⟨l, Function.update s.adder () (.loaded s.lane.pool.dheapPriority),
        s.additions⟩ := by
    simp [addMachine, Adds.step, hprio]
  have hstore := Adds.step_store (c := ()) (s := ⟨l', Function.update s.adder ()
    (.loaded s.lane.pool.dheapPriority), s.additions⟩) (by simp) hmax
  simp only [Function.update_idem] at hstore
  rw [earlyTurn, Machine.run_append, hput, Option.bind_some, Machine.run, hload, Option.bind_some,
    Machine.run_append, run_work, hserve, Option.map_some, Option.bind_some]
  exact Machine.run_cons.2 ⟨_, hstore, rfl⟩

/-- The worker after its set-up. -/
def setUp : List (AddAct Unit) := [.work (.mask .ok), .work .go, .work .go]

theorem within_lateTurn (package : SchTaskPackage) (d : ℕ) :
    ∀ a ∈ lateTurn package d, a.Within d := by
  simp [lateTurn, putIn, serve, AddAct.Within, WorkerAct.Within]

theorem within_earlyTurn (package : SchTaskPackage) (d : ℕ) :
    ∀ a ∈ earlyTurn package d, a.Within d := by
  simp [earlyTurn, putIn, serve, AddAct.Within, WorkerAct.Within]

section Bound

variable (self i : ℕ) (maxPackagesPool : UInt32) (package : Ptr) (slot : ℕ → SchTaskPackage)
  (t : ℕ) (m set : Ptr)

theorem run_setUp :
    (addMachine Unit).run (.start (.create self i maxPackagesPool package slot) t m set) setUp =
      some ⟨{ Lane.start (.create self i maxPackagesPool package slot) t m set with pc := .check },
        fun _ => .out, 0⟩ := by
  have hidle : isRunning (Lane.start (.create self i maxPackagesPool package slot) t m set).pool =
      false := by
    show hasBit 0 schPoolRunning = false
    decide
  have hok : ¬ SchErrCode.ok.toInt ≤ 0 := by decide
  have hpc : (Lane.start (.create self i maxPackagesPool package slot) t m set).pc = .mask := rfl
  simp [setUp, addMachine, Machine.run, Adds.step, Adds.start, Lane.work, hpc, hok, hidle]

/-- Any number of packages, each drained before the next one. -/
theorem drained_turns (d : ℕ) (hcap : 0 < maxPackagesPool.toNat) (k : ℕ)
    (hmax : (d : ℤ) + 1000 * (k + 1 : ℕ) ≤ longMax) :
    ∃ as s, (addMachine Unit).run
        (.start (.create self i maxPackagesPool package slot) t m set) as = some s ∧
      (∀ a ∈ as, a.Within d) ∧ s.Drained maxPackagesPool.toNat ∧ s.additions = k + 1 ∧
      s.lane.pool.dheapPriority = d + 1000 * (k + 1 : ℕ) := by
  induction k with
  | zero =>
    obtain ⟨s₀, h₀, hdrained⟩ : ∃ s₀, (addMachine Unit).run
        (.start (.create self i maxPackagesPool package slot) t m set) setUp = some s₀ ∧
        s₀.Drained maxPackagesPool.toNat ∧ s₀.additions = 0 := by
      refine ⟨_, run_setUp self i maxPackagesPool package slot t m set,
        ⟨?_, rfl, rfl, rfl, rfl⟩, rfl⟩
      obtain ⟨h1, h2, h3, h4, h5, h6, h7⟩ :=
        Lane.start_books self i maxPackagesPool package slot t m set
      exact ⟨h1, h2, h3, h4, by simp, h6, by simp [Pc.holds]⟩
    obtain ⟨hdrained, hadd⟩ := hdrained
    obtain ⟨s, hrun, hs, hadd', hprio⟩ := hdrained.late hcap (.ofCallback 0) d (by omega)
    refine ⟨setUp ++ lateTurn (.ofCallback 0) d, s, ?_, ?_, hs, by rw [hadd', hadd], ?_⟩
    · rw [Machine.run_append, h₀, Option.bind_some, hrun]
    · intro a ha
      rcases List.mem_append.1 ha with ha | ha
      · simp only [setUp, List.mem_cons, List.not_mem_nil, or_false] at ha
        rcases ha with rfl | rfl | rfl <;> trivial
      · exact within_lateTurn _ d a ha
    · rw [hprio]
      norm_num
  | succ k ih =>
    obtain ⟨as, s, hrun, hwithin, hs, hadd, hprio⟩ := ih (by omega)
    obtain ⟨s', hrun', hs', hadd', hprio'⟩ := hs.early hcap (.ofCallback 0) d
      (by rw [hprio]; push_cast at hmax ⊢; omega)
    refine ⟨as ++ earlyTurn (.ofCallback 0) d, s', ?_, ?_, hs', by rw [hadd', hadd], ?_⟩
    · rw [Machine.run_append, hrun, Option.bind_some, hrun']
    · intro a ha
      rcases List.mem_append.1 ha with ha | ha
      · exact hwithin a ha
      · exact within_earlyTurn _ d a ha
    · rw [hprio', hprio]
      push_cast
      ring

/-- **The key is bounded by the additions only**: with tasks of at most `d`
    nanoseconds, it stays within `d + 1000 * k` after `k` additions, for any
    number of submitters, and as long as `d + 1000 * (k + 1)` is a `long`, no
    addition under way overflows; and for every such `k` one submitter reaches
    the bound on a queue that is empty, with a worker that has run all
    packages. -/
theorem additions_bound (ι : Type) [DecidableEq ι] (d : ℕ) (hcap : 0 < maxPackagesPool.toNat) :
    (∀ (as : List (AddAct ι)) (s : Adds ι), (addMachine ι).run
        (.start (.create self i maxPackagesPool package slot) t m set) as = some s →
      (∀ a ∈ as, a.Within d) →
      -d ≤ s.lane.pool.dheapPriority ∧ s.lane.pool.dheapPriority ≤ d + 1000 * s.additions ∧
        ((d : ℤ) + 1000 * (s.additions + 1 : ℕ) ≤ longMax →
          ∀ c v, s.adder c = .loaded v → (s.step (.store c)).isSome)) ∧
    ∀ k : ℕ, (d : ℤ) + 1000 * (k + 1 : ℕ) ≤ longMax →
      ∃ (as : List (AddAct Unit)) (s : Adds Unit), (addMachine Unit).run
        (.start (.create self i maxPackagesPool package slot) t m set) as = some s ∧
      (∀ a ∈ as, a.Within d) ∧ s.lane.pool.size = 0 ∧
      s.lane.log.finished = s.lane.log.accepted.length ∧ s.additions = k + 1 ∧
      s.lane.pool.dheapPriority = d + 1000 * (k + 1 : ℕ) := by
  constructor
  · intro as s hrun hwithin
    have hbound := Machine.run_along_inv (P := Adds.Bounded d) (G := fun _ a => a.Within d)
      (fun s a s' h ha hs => h.step ha hs) (Machine.along_of_forall _ fun a ha _ => hwithin a ha)
      hrun (Adds.Bounded.start self i maxPackagesPool package slot t m set)
    refine ⟨hbound.lower, hbound.upper, ?_⟩
    intro hmax c v hv
    have hsum : v + 1000 ≤ longMax := by
      have hle := (hbound.loaded c v hv).2
      push_cast at hmax
      omega
    rw [Adds.step_store hv hsum, Option.isSome_some]
  · intro k hmax
    obtain ⟨as, s, hrun, hwithin, hs, hadd, hprio⟩ :=
      drained_turns self i maxPackagesPool package slot t m set d hcap k hmax
    have hacc := hs.books.accepted_eq
    rw [hs.pc, hs.size] at hacc
    have hhand : Pc.inHand .check = 0 := rfl
    exact ⟨as, s, hrun, hwithin, hs.size, by omega, hadd, hprio⟩

end Bound

/-- One submitter and a queue for one package exceed the bound by the capacity. -/
theorem additions_bound_beyond : ∃ s : Adds Unit, s.lane.pool.size = 0 ∧
    (5 : ℤ) + 1000 * (1 + 1) < s.lane.pool.dheapPriority := by
  obtain ⟨as, s, -, -, hsize, -, -, hprio⟩ := (additions_bound 0 0 1 (some 0)
    (fun _ => .ofCallback 0) 0 (some 1) (some 2) Unit 5 (by decide)).2 2 (by decide)
  exact ⟨s, hsize, by rw [hprio]; decide⟩

end TaskSch
