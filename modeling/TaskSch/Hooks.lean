/-
  Task scheduler formalization — the callbacks of the user around the tasks
  (`init`, `deinit` and `userdata` of a pool, src/taskSch.c and src/sch.c).

  `schPoolExecutor` calls `pool->init` before its loop and `pool->deinit` after
  it, each after a test whether the pointer is null.  The test and the call read
  the pointer separately, and the functions that set it may be called meanwhile;
  a call through a null pointer is undefined.

  * `setAll_eq`: the loops of the functions that set the pointers of all pools;
  * `hooks_around`: in every run of a worker, the calls are at most one of
    `init`, then the tasks, then at most one of `deinit`; a worker that has left
    its thread has called both where they are set, or `deinit` and no task.
-/
import TaskSch.Executor

namespace TaskSch

/-! ## The members of a pool that belong to the user -/

/-- `init`, `deinit` and `userdata` of `schTaskPool`. -/
structure PoolUser where
  init : Ptr
  deinit : Ptr
  userdata : Ptr

/-- What `schCreateTaskPool` sets. -/
def PoolUser.create : PoolUser := ⟨none, none, none⟩

/-- The loop over the pools `i .. i + k - 1` that changes each of them by `f`. -/
def setAll (f : PoolUser → PoolUser) : ℕ → ℕ → (ℕ → PoolUser) → ℕ → PoolUser
  | 0, _, users => users
  | k + 1, i, users => setAll f k (i + 1) (Function.update users i (f (users i)))

def schSetInitCallBack (num : ℕ) (callback : Ptr) (users : ℕ → PoolUser) : ℕ → PoolUser :=
  setAll (fun user => { user with init := callback }) num 0 users

def schSetDeInitCallBack (num : ℕ) (callback : Ptr) (users : ℕ → PoolUser) : ℕ → PoolUser :=
  setAll (fun user => { user with deinit := callback }) num 0 users

def schSetPoolUserData (index : ℕ) (user : Ptr) (users : ℕ → PoolUser) : ℕ → PoolUser :=
  Function.update users index { users index with userdata := user }

/-- The loop over `schSetPoolUserData`. -/
def schSetSchUserData (num : ℕ) (user : Ptr) (users : ℕ → PoolUser) : ℕ → PoolUser :=
  setAll (fun u => { u with userdata := user }) num 0 users

def schGetPoolUserData (index : ℕ) (users : ℕ → PoolUser) : Ptr := (users index).userdata

/-- The loop changes every pool once. -/
theorem setAll_eq (f : PoolUser → PoolUser) (k i : ℕ) (users : ℕ → PoolUser) (j : ℕ) :
    setAll f k i users j = if i ≤ j ∧ j < i + k then f (users j) else users j := by
  induction k generalizing i users with
  | zero => rw [if_neg (by omega)]; rfl
  | succ k ih =>
    rw [setAll, ih]
    by_cases hj : j = i
    · subst hj
      rw [if_neg (by omega), if_pos (by omega), Function.update_self]
    · rw [Function.update_of_ne hj]
      by_cases hin : i ≤ j ∧ j < i + (k + 1)
      · rw [if_pos hin, if_pos (by omega)]
      · rw [if_neg hin, if_neg (by omega)]

/-- A pool gives back the data that was set last, for it or for all pools. -/
theorem schGetPoolUserData_set (index : ℕ) (user : Ptr) (users : ℕ → PoolUser) :
    schGetPoolUserData index (schSetPoolUserData index user users) = user ∧
      ∀ num, index < num → schGetPoolUserData index (schSetSchUserData num user users) = user := by
  constructor
  · simp [schGetPoolUserData, schSetPoolUserData]
  · intro num hi
    simp only [schGetPoolUserData, schSetSchUserData, setAll_eq]
    rw [if_pos (by omega)]

/-! ## The worker with the callbacks -/

/-- A call of a function of the user. -/
inductive UserCall where
  | init (callback : ℕ)
  | task (package : SchTaskPackage)
  | deinit (callback : ℕ)

/-- Where a worker is at a callback of the user. -/
inductive Hook where
  /-- before the test of the pointer, or at no callback -/
  | out
  /-- before the call -/
  | tested
  /-- in the callback -/
  | inside
  deriving DecidableEq

/-- A lane with the members of its pool that belong to the user, and the calls
    that the worker has made. -/
structure Hooked where
  lane : Lane
  user : PoolUser
  hook : Hook
  calls : List UserCall

/-- What happens to it: an event of the lane, a step of the worker at a callback,
    or a call that sets a member. -/
inductive HookAct where
  | event (e : Event)
  | hook
  | setInit (callback : Ptr)
  | setDeInit (callback : Ptr)
  | setUserData (user : Ptr)

namespace Hooked

/-- The callback at which the worker is. -/
def atHook (s : Hooked) : Option (Ptr × (ℕ → UserCall)) :=
  match s.lane.pc with
  | .init => some (s.user.init, .init)
  | .finish => some (s.user.deinit, .deinit)
  | _ => none

/-- The worker goes on behind a callback: the pointer is null, or the callback
    has returned. -/
def GoesOn (s : Hooked) : Prop :=
  ∀ p ∈ s.atHook, s.hook = .inside ∨ s.hook = .out ∧ p.1 = none

instance (s : Hooked) : Decidable s.GoesOn := inferInstanceAs (Decidable (∀ p ∈ s.atHook, _))

/-- The calls with that of the task that the step of the worker starts. -/
def callsAfter (s : Hooked) : Event → List UserCall
  | .work .go =>
    match s.lane.pc with
    | .fetch slot =>
      s.calls ++ [.task { s.lane.pool.slot slot with index := s.lane.pool.index }]
    | _ => s.calls
  | _ => s.calls

def step (s : Hooked) : HookAct → Option Hooked
  | .event e =>
    if e.isWork → s.GoesOn then
      (s.lane.step e).map fun l =>
        { s with
          lane := l
          hook := if e.isWork then .out else s.hook
          calls := s.callsAfter e }
    else none
  | .hook =>
    s.atHook.bind fun (pointer, call) =>
      match s.hook with
      | .out => if pointer.isSome then some { s with hook := .tested } else none
      -- a call through a null pointer is undefined
      | .tested => pointer.map fun callback =>
        { s with hook := .inside, calls := s.calls ++ [call callback] }
      | .inside => none
  | .setInit callback => some { s with user := { s.user with init := callback } }
  | .setDeInit callback => some { s with user := { s.user with deinit := callback } }
  | .setUserData user => some { s with user := { s.user with userdata := user } }

/-- A worker that has just been started. -/
def start (l : Lane) (user : PoolUser) : Hooked := ⟨l, user, .out, []⟩

/-- The functions that set a member of all pools set it for the worker of each. -/
theorem step_set {users : ℕ → PoolUser} {num index : ℕ} (hi : index < num) (s : Hooked)
    (hs : s.user = users index) (p : Ptr) :
    s.step (.setInit p) = some { s with user := schSetInitCallBack num p users index } ∧
      s.step (.setDeInit p) = some { s with user := schSetDeInitCallBack num p users index } ∧
      s.step (.setUserData p) = some { s with user := schSetSchUserData num p users index } := by
  have hin : 0 ≤ index ∧ index < 0 + num := by omega
  simp only [schSetInitCallBack, schSetDeInitCallBack, schSetSchUserData, setAll_eq, if_pos hin,
    ← hs]
  exact ⟨rfl, rfl, rfl⟩

end Hooked

def hookMachine : Machine Hooked HookAct := ⟨Hooked.step⟩

/-- The events of the lane in a schedule. -/
def HookAct.event? : HookAct → Option Event
  | .event e => some e
  | _ => none

/-- Whether the action sets a member of the pool. -/
def HookAct.sets : HookAct → Bool
  | .event _ | .hook => false
  | _ => true

/-- Everything that an action can do. -/
inductive Hooked.Steps (s : Hooked) : HookAct → Hooked → Prop
  | event {e : Event} {l : Lane} (hg : e.isWork → s.GoesOn) (h : s.lane.step e = some l) :
      Steps s (.event e) { s with
        lane := l, hook := if e.isWork then .out else s.hook, calls := s.callsAfter e }
  | test {callback : ℕ} {call : ℕ → UserCall} (hat : s.atHook = some (some callback, call))
      (hh : s.hook = .out) : Steps s .hook { s with hook := .tested }
  | call {callback : ℕ} {call : ℕ → UserCall} (hat : s.atHook = some (some callback, call))
      (hh : s.hook = .tested) :
      Steps s .hook { s with hook := .inside, calls := s.calls ++ [call callback] }
  | set {a : HookAct} (ha : a.sets) (user : PoolUser) : Steps s a { s with user := user }

theorem Hooked.step_cases {s s' : Hooked} {a : HookAct} (h : s.step a = some s') :
    s.Steps a s' := by
  cases a with
  | event e =>
    by_cases hg : e.isWork → s.GoesOn
    · rw [step, if_pos hg] at h
      obtain ⟨l, hl, rfl⟩ := Option.map_eq_some_iff.1 h
      exact .event hg hl
    · rw [step, if_neg hg] at h; cases h
  | hook =>
    obtain ⟨⟨pointer, call⟩, hat, h⟩ := Option.bind_eq_some_iff.1 h
    rcases pointer with _ | callback <;> rcases hh : s.hook <;> simp only [hh] at h <;> cases h
    · exact .test hat hh
    · exact .call hat hh
  | setInit | setDeInit | setUserData => cases h; exact .set rfl _

/-- The worker with the callbacks is the worker: without its steps at the
    callbacks, its runs are runs of the lane. -/
theorem lane_run {s t : Hooked} {as : List HookAct} (h : hookMachine.run s as = some t) :
    laneMachine.run s.lane (as.filterMap HookAct.event?) = some t.lane := by
  induction as generalizing s with
  | nil => cases h; rfl
  | cons a as ih =>
    obtain ⟨s', h1, h2⟩ := Machine.run_cons.1 h
    have hrest := ih h2
    cases Hooked.step_cases h1 with
    | event hg hl => exact Machine.run_cons.2 ⟨_, hl, hrest⟩
    | test | call => exact hrest
    | set ha =>
      cases a with
      | event | hook => cases ha
      | _ => exact hrest

/-! ## The stages of a worker -/

/-- The parts of `schPoolExecutor`, as far as the callbacks divide it. -/
inductive Stage where
  | start
  | init
  | loop
  | finish
  | exited
  deriving DecidableEq

def Pc.stage : Pc → Stage
  | .mask | .sync => .start
  | .init => .init
  | .finish => .finish
  | .exited => .exited
  | _ => .loop

/-- From one stage to the next. -/
inductive Stage.Next : Stage → Stage → Prop
  | stay : Next .start .start
  | synced : Next .start .init
  | maskFailed : Next .start .finish
  | enter : Next .init .loop
  | loop : Next .loop .loop
  | leave : Next .loop .finish
  | exit : Next .finish .exited

theorem Lane.Work.stage {l l' : Lane} (h : l.Work l') : l.pc.stage.Next l'.pc.stage := by
  cases h with
  | mask h | sync h => rw [h]; exact .stay
  | synced h => rw [h]; exact .synced
  | maskFailed h => rw [h]; exact .maskFailed
  | init h => rw [h]; exact .enter
  | term h => rw [h]; exact .leave
  | finish h => rw [h]; exact .exit
  | some h | empty h | dequeue h | fetch h | ret h | idle h | unlock h | idleAgain h | done h
  | again h | cont h | wake h => rw [h]; exact .loop

theorem Pc.stage_init {pc : Pc} (h : pc.stage = .init) : pc = .init := by
  cases pc <;> first | rfl | cases h

theorem Pc.stage_finish {pc : Pc} (h : pc.stage = .finish) : pc = .finish := by
  cases pc <;> first | rfl | cases h

/-- What other threads do to a lane leaves its worker where it is. -/
theorem Lane.step_other {l l' : Lane} {e : Event} (he : ¬ e.isWork) (h : l.step e = some l') :
    l'.pc = l.pc ∧ l'.log.ran = l.log.ran := by
  cases e with
  | work a => exact absurd rfl he
  | submit package =>
    obtain ⟨r, -, h⟩ := Option.bind_eq_some_iff.1 h
    cases r <;> cases h
    exact ⟨rfl, rfl⟩
  | raise | unlink | clear => cases h; exact ⟨rfl, rfl⟩

namespace Hooked

/-- The tasks that a step of the lane starts are in the log and among the calls. -/
theorem callsAfter_ran {s : Hooked} {l' : Lane} {e : Event} (h : s.lane.step e = some l') :
    ∃ new : List SchTaskPackage, l'.log.ran = s.lane.log.ran ++ new ∧
      s.callsAfter e = s.calls ++ new.map .task ∧ (new = [] ∨ s.lane.pc.stage = .loop) := by
  by_cases he : e.isWork
  · cases e with
    | work a =>
      by_cases hf : ∃ slot, s.lane.pc = .fetch slot
      · obtain ⟨slot, hpc⟩ := hf
        cases a with
        | go =>
          simp only [Lane.step, Lane.work, hpc, Option.some.injEq] at h
          subst h
          refine ⟨[{ s.lane.pool.slot slot with index := s.lane.pool.index }], rfl, ?_, ?_⟩
          · simp only [callsAfter, hpc]; rfl
          · exact .inr (by rw [hpc]; rfl)
        | mask | ret | sig => simp [Lane.step, Lane.work, hpc] at h
      · refine ⟨[], ?_, ?_, .inl rfl⟩
        · cases Lane.work_cases h with
          | fetch hpc => exact absurd ⟨_, hpc⟩ hf
          | _ => simp
        · rw [List.map_nil, List.append_nil]
          cases a with
          | go =>
            simp only [callsAfter]
            split
            next slot hpc => exact absurd ⟨slot, hpc⟩ hf
            next => rfl
          | mask | ret | sig => rfl
    | submit | raise | unlink | clear => cases he
  · refine ⟨[], by simp [(Lane.step_other he h).2], ?_, .inl rfl⟩
    cases e with
    | work => exact absurd rfl he
    | submit | raise | unlink | clear => simp [callsAfter]

/-! ## The calls of a worker -/

/-- The worker is behind the call of `init`. -/
def PastInit (s : Hooked) : Prop :=
  s.lane.pc.stage ≠ .start ∧ (s.lane.pc.stage = .init → s.hook = .inside)

/-- The worker is behind the call of `deinit`. -/
def PastDeinit (s : Hooked) : Prop :=
  s.lane.pc.stage = .exited ∨ s.lane.pc.stage = .finish ∧ s.hook = .inside

/-- The calls that a worker has made: perhaps `init`, the tasks `ts`, perhaps
    `deinit`.  If the members of the pool are those of `fixed` all the time,
    both callbacks are called where they are not null, except that `init` is
    not called if the signal mask could not be set. -/
structure Around (ran : List SchTaskPackage) (fixed : Option PoolUser) (i d : Option ℕ)
    (ts : List SchTaskPackage) (s : Hooked) : Prop where
  calls : s.calls = i.toList.map .init ++ ts.map .task ++ d.toList.map .deinit
  ran : s.lane.log.ran = ran ++ ts
  hook : s.hook ≠ .out → s.lane.pc.stage = .init ∨ s.lane.pc.stage = .finish
  early : ¬ s.PastInit → i = none ∧ ts = []
  setUp : s.lane.pc.stage = .init → ts = []
  late : ¬ s.PastDeinit → d = none
  user : ∀ u ∈ fixed, s.user = u
  init : ∀ u ∈ fixed, s.PastInit → i = u.init ∨
    i = none ∧ ts = [] ∧ (s.lane.pc.stage = .finish ∨ s.lane.pc.stage = .exited)
  deinit : ∀ u ∈ fixed, s.PastDeinit → d = u.deinit

theorem atHook_cases {s : Hooked} {pointer : Ptr} {call : ℕ → UserCall}
    (h : s.atHook = some (pointer, call)) :
    s.lane.pc.stage = .init ∧ pointer = s.user.init ∧ call = .init ∨
      s.lane.pc.stage = .finish ∧ pointer = s.user.deinit ∧ call = .deinit := by
  unfold atHook at h
  split at h
  next hpc => cases h; exact .inl ⟨by rw [hpc]; rfl, rfl, rfl⟩
  next hpc => cases h; exact .inr ⟨by rw [hpc]; rfl, rfl, rfl⟩
  next => cases h

theorem GoesOn.init {s : Hooked} (h : s.GoesOn) (hst : s.lane.pc.stage = .init) :
    s.hook = .inside ∨ s.hook = .out ∧ s.user.init = none :=
  h (s.user.init, .init) (by simp only [atHook, Pc.stage_init hst]; rfl)

theorem GoesOn.finish {s : Hooked} (h : s.GoesOn) (hst : s.lane.pc.stage = .finish) :
    s.hook = .inside ∨ s.hook = .out ∧ s.user.deinit = none :=
  h (s.user.deinit, .deinit) (by simp only [atHook, Pc.stage_finish hst]; rfl)

theorem PastInit.of_stage {s : Hooked} {stage : Stage} (h : s.lane.pc.stage = stage)
    (h1 : stage ≠ .start) (h2 : stage ≠ .init) : s.PastInit :=
  ⟨h ▸ h1, fun hx => absurd (h.symm.trans hx) h2⟩

theorem not_pastDeinit {s : Hooked} {stage : Stage} (h : s.lane.pc.stage = stage)
    (h1 : stage ≠ .exited) (h2 : stage = .finish → s.hook ≠ .inside) : ¬ s.PastDeinit := by
  rintro (hx | ⟨hx, hin⟩)
  · exact h1 (h.symm.trans hx)
  · exact h2 (h.symm.trans hx) hin

variable {ran : List SchTaskPackage} {fixed : Option PoolUser} {i d : Option ℕ}
  {ts : List SchTaskPackage} {s : Hooked}

/-- Nothing but the stage of the worker, where it is at a callback, its log and
    its calls matter. -/
theorem Around.congr {s' : Hooked} (h : Around ran fixed i d ts s)
    (hpc : s'.lane.pc = s.lane.pc) (hran : s'.lane.log.ran = s.lane.log.ran)
    (hcalls : s'.calls = s.calls) (hin : s'.hook = .inside ↔ s.hook = .inside)
    (hout : s'.hook ≠ .out → s.lane.pc.stage = .init ∨ s.lane.pc.stage = .finish)
    (huser : ∀ u ∈ fixed, s'.user = u) : Around ran fixed i d ts s' := by
  have hi : s'.PastInit ↔ s.PastInit := by rw [PastInit, PastInit, hpc, hin]
  have hd : s'.PastDeinit ↔ s.PastDeinit := by rw [PastDeinit, PastDeinit, hpc, hin]
  constructor
  · exact hcalls.trans h.calls
  · exact hran.trans h.ran
  · rw [hpc]; exact hout
  · rw [hi]; exact h.early
  · rw [hpc]; exact h.setUp
  · rw [hd]; exact h.late
  · exact huser
  · rw [hi, hpc]; exact h.init
  · rw [hd]; exact h.deinit

/-- The worker goes into a callback. -/
theorem Around.call (h : Around ran fixed i d ts s) {callback : ℕ} {call : ℕ → UserCall}
    (hat : s.atHook = some (some callback, call)) (hh : s.hook = .tested) :
    ∃ i d ts, Around ran fixed i d ts
      { s with hook := .inside, calls := s.calls ++ [call callback] } := by
  obtain rfl : d = none := by
    refine h.late ?_
    rcases atHook_cases hat with ⟨hst, -⟩ | ⟨hst, -⟩
    all_goals exact not_pastDeinit hst (by simp) fun _ => by rw [hh]; simp
  rcases atHook_cases hat with ⟨hst, hp, rfl⟩ | ⟨hst, hp, rfl⟩
  · obtain ⟨rfl, rfl⟩ := h.early fun hpast => by
      have := hpast.2 hst; rw [hh] at this; cases this
    refine ⟨some callback, none, [], ?_, h.ran, fun _ => .inl hst, ?_, fun _ => rfl, fun _ => rfl,
      h.user, ?_, ?_⟩
    · simp [h.calls]
    · intro hn
      exact absurd ⟨by rw [hst]; simp, fun _ => rfl⟩ hn
    · intro u hu _
      exact .inl (hp.trans (congrArg _ (h.user u hu)))
    · intro u _ hp
      exact absurd hp (not_pastDeinit hst (by simp) nofun)
  · have hpast : s.PastInit := ⟨by rw [hst]; simp, fun hx => by rw [hst] at hx; cases hx⟩
    refine ⟨i, some callback, ts, ?_, h.ran, fun _ => .inr hst, ?_, ?_, ?_, h.user, ?_, ?_⟩
    · simp [h.calls]
    · intro hn
      exact absurd ⟨hpast.1, fun _ => rfl⟩ hn
    · intro hx; rw [hst] at hx; cases hx
    · intro hn
      exact absurd (.inr ⟨hst, rfl⟩) hn
    · intro u hu _
      exact h.init u hu hpast
    · intro u hu _
      exact hp.trans (congrArg _ (h.user u hu))

/-- A step of the worker that is none at a callback. -/
theorem Around.work (h : Around ran fixed i d ts s) (hg : s.GoesOn) {l' : Lane} {e : Event}
    (hst : s.lane.pc.stage.Next l'.pc.stage) (hl : s.lane.step e = some l') :
    ∃ i d ts, Around ran fixed i d ts
      { s with lane := l', hook := .out, calls := s.callsAfter e } := by
  obtain ⟨new, hran, hcalls, hnew⟩ := callsAfter_ran hl
  have hran' : l'.log.ran = ran ++ (ts ++ new) := by rw [hran, h.ran, List.append_assoc]
  have hd : s.lane.pc.stage ≠ .finish → d = none := by
    intro hf
    refine h.late ?_
    rintro (hex | ⟨hfin, -⟩)
    · rw [hex] at hst; cases hst
    · exact hf hfin
  have hcalls' : s.callsAfter e =
      i.toList.map .init ++ (ts ++ new).map .task ++ d.toList.map .deinit := by
    rcases hnew with rfl | hloop
    · simp [hcalls, h.calls]
    · obtain rfl := hd (by rw [hloop]; simp)
      simp [hcalls, h.calls]
  refine ⟨i, d, ts ++ new, ?_⟩
  generalize hfrom : s.lane.pc.stage = stage at hst hnew hd
  generalize hto : l'.pc.stage = stage' at hst
  cases hst with
  | stay | synced | maskFailed =>
    obtain ⟨rfl, rfl⟩ := h.early fun hp => hp.1 hfrom
    obtain rfl := hd (by simp)
    obtain rfl := hnew.resolve_right (by simp)
    refine ⟨hcalls', hran', fun hn => absurd rfl hn, fun _ => ⟨rfl, rfl⟩, fun _ => rfl,
      fun _ => rfl, h.user, ?_, ?_⟩
    · rintro u - ⟨h1, h2⟩
      simp only [hto] at h1 h2 ⊢
      simp at h1 h2 ⊢
    · intro u _ hp
      exact absurd hp (not_pastDeinit hto (by simp) nofun)
  | enter =>
    obtain rfl := h.setUp hfrom
    obtain rfl := hd (by simp)
    obtain rfl := hnew.resolve_right (by simp)
    refine ⟨hcalls', hran', fun hn => absurd rfl hn, ?_, fun _ => rfl, fun _ => rfl, h.user, ?_, ?_⟩
    · intro hn
      exact absurd (.of_stage hto (by simp) (by simp)) hn
    · intro u hu _
      rcases hg.init hfrom with hin | ⟨hout, hnull⟩
      · rcases h.init u hu ⟨by rw [hfrom]; simp, fun _ => hin⟩ with hi | ⟨-, -, hx | hx⟩
        · exact .inl hi
        · rw [hfrom] at hx; cases hx
        · rw [hfrom] at hx; cases hx
      · obtain ⟨rfl, -⟩ := h.early fun hp => by
          have := hp.2 hfrom; rw [hout] at this; cases this
        exact .inl (by rw [← h.user u hu, hnull])
    · intro u _ hp
      exact absurd hp (not_pastDeinit hto (by simp) nofun)
  | loop | leave =>
    obtain rfl := hd (by simp)
    refine ⟨hcalls', hran', fun hn => absurd rfl hn, ?_, ?_, fun _ => rfl, h.user, ?_, ?_⟩
    · intro hn
      exact absurd (.of_stage hto (by simp) (by simp)) hn
    · intro hx; rw [hto] at hx; cases hx
    · intro u hu _
      rcases h.init u hu (.of_stage hfrom (by simp) (by simp)) with
        hi | ⟨-, -, hx | hx⟩
      · exact .inl hi
      · rw [hfrom] at hx; cases hx
      · rw [hfrom] at hx; cases hx
    · intro u _ hp
      exact absurd hp (not_pastDeinit hto (by simp) nofun)
  | exit =>
    obtain rfl := hnew.resolve_right (by simp)
    have hpast : s.PastInit := .of_stage hfrom (by simp) (by simp)
    rw [List.append_nil] at hcalls' hran' ⊢
    refine ⟨hcalls', hran', fun hn => absurd rfl hn, ?_, ?_, ?_, h.user, ?_, ?_⟩
    · intro hn
      exact absurd (.of_stage hto (by simp) (by simp)) hn
    · intro hx; rw [hto] at hx; cases hx
    · intro hn
      exact absurd (.inl hto) hn
    · intro u hu _
      refine (h.init u hu hpast).imp id fun hi => ⟨hi.1, hi.2.1, .inr hto⟩
    · intro u hu _
      rcases hg.finish hfrom with hin | ⟨hout, hnull⟩
      · exact h.deinit u hu (.inr ⟨hfrom, hin⟩)
      · have hnot : ¬ s.PastDeinit :=
          not_pastDeinit hfrom (by simp) fun _ => by rw [hout]; simp
        rw [h.late hnot, ← h.user u hu, hnull]

/-- Every step. -/
theorem Around.step (h : Around ran fixed i d ts s) {s' : Hooked} {a : HookAct}
    (ha : ∀ u ∈ fixed, ¬ a.sets) (hs : hookMachine.step s a = some s') :
    ∃ i d ts, Around ran fixed i d ts s' := by
  cases step_cases hs with
  | @event e l hg hl =>
    by_cases he : e.isWork
    · rw [if_pos he]
      cases e with
      | work a => exact h.work (hg he) (Lane.work_cases hl).stage hl
      | _ => cases he
    · obtain ⟨hpc, hran⟩ := Lane.step_other he hl
      rw [if_neg he]
      refine ⟨i, d, ts, h.congr hpc hran ?_ Iff.rfl h.hook h.user⟩
      cases e with
      | work => exact absurd rfl he
      | _ => rfl
  | test hat hh =>
    refine ⟨i, d, ts, h.congr rfl rfl rfl ?_ (fun _ => ?_) h.user⟩
    · rw [hh]; exact ⟨nofun, nofun⟩
    · exact (atHook_cases hat).imp And.left And.left
  | call hat hh => exact h.call hat hh
  | set hset user =>
    exact ⟨i, d, ts, h.congr rfl rfl rfl Iff.rfl h.hook fun u hu => absurd hset (ha u hu)⟩

theorem Around.start {l₀ : Lane} {user₀ : PoolUser} (hpc : l₀.pc = .mask)
    (hfixed : ∀ u ∈ fixed, user₀ = u) :
    Around l₀.log.ran fixed none none [] (.start l₀ user₀) := by
  have hst : l₀.pc.stage = .start := by rw [hpc]; rfl
  refine ⟨rfl, (List.append_nil _).symm, fun hn => absurd rfl hn, fun _ => ⟨rfl, rfl⟩,
    fun _ => rfl, fun _ => rfl, hfixed, ?_, ?_⟩
  · rintro u - ⟨h1, -⟩
    exact absurd hst h1
  · intro u _ hp
    exact absurd hp (not_pastDeinit hst (by simp) nofun)

variable (fixed) in
/-- In every run. -/
theorem Around.run {l₀ : Lane} {user₀ : PoolUser} (hpc : l₀.pc = .mask) {as : List HookAct}
    (hfixed : ∀ u ∈ fixed, user₀ = u ∧ ∀ a ∈ as, ¬ a.sets)
    (hrun : hookMachine.run (.start l₀ user₀) as = some s) :
    ∃ i d ts, Around l₀.log.ran fixed i d ts s := by
  refine Machine.run_along_inv (P := fun s => ∃ i d ts, Around l₀.log.ran fixed i d ts s)
    (G := fun _ a => ∀ u ∈ fixed, ¬ a.sets) ?_ ?_ hrun
    ⟨none, none, [], .start hpc fun u hu => (hfixed u hu).1⟩
  · rintro s a s' ⟨i, d, ts, h⟩ ha hs
    exact h.step ha hs
  · exact Machine.along_of_forall _ fun a ha _ u hu => (hfixed u hu).2 a ha

end Hooked

/-- **The callbacks of the user around the tasks**: in every run of a worker,
    whatever is set meanwhile, its calls are at most one of `init`, then the tasks
    of its log, then at most one of `deinit`; there are none before that of
    `init`, and none of `deinit` before the end.  If nothing is set, a worker that
    has left its thread has called `deinit` where there is one, and it has called
    `init` where there is one, or it has run no task. -/
theorem hooks_around (l₀ : Lane) (user₀ : PoolUser) (hpc : l₀.pc = .mask) (as : List HookAct)
    (s : Hooked) (hrun : hookMachine.run (.start l₀ user₀) as = some s) :
    ∃ (i d : Option ℕ) (ts : List SchTaskPackage),
      s.calls = i.toList.map .init ++ ts.map .task ++ d.toList.map .deinit ∧
      s.lane.log.ran = l₀.log.ran ++ ts ∧
      (¬ s.PastInit → i = none ∧ ts = []) ∧ (¬ s.PastDeinit → d = none) ∧
      ((∀ a ∈ as, ¬ a.sets) → s.lane.pc = .exited →
        d = user₀.deinit ∧ (i = user₀.init ∨ i = none ∧ ts = [])) := by
  by_cases hsets : ∀ a ∈ as, ¬ a.sets
  · obtain ⟨i, d, ts, h⟩ := Hooked.Around.run (some user₀) hpc
      (by rintro u ⟨⟩; exact ⟨rfl, hsets⟩) hrun
    refine ⟨i, d, ts, h.calls, h.ran, h.early, h.late, fun _ hex => ?_⟩
    have hst : s.lane.pc.stage = .exited := by rw [hex]; rfl
    refine ⟨h.deinit user₀ rfl (.inl hst), ?_⟩
    exact (h.init user₀ rfl (.of_stage hst (by simp) (by simp))).imp id fun hi => ⟨hi.1, hi.2.1⟩
  · obtain ⟨i, d, ts, h⟩ := Hooked.Around.run none hpc (by rintro u ⟨⟩) hrun
    exact ⟨i, d, ts, h.calls, h.ran, h.early, h.late, fun hn => absurd hn hsets⟩

/-- The schedule of a worker that calls `init`, runs one task, is told to leave,
    and calls `deinit`. -/
def oneTask : List HookAct :=
  [.event (.work (.mask .ok)), .event (.work .go), .hook, .hook, .event (.work .go),
    .event (.submit (.ofCallback 3)), .event (.work .go), .event (.work .go), .event (.work .go),
    .event (.work (.ret 5)), .event (.work .go), .event (.work .go), .event (.work .go),
    .event (.work .go), .event (.work .go), .event (.raise sigTerm), .event (.work (.sig sigTerm)),
    .hook, .hook, .event (.work .go)]

theorem hooks_around_oneTask : ∃ (s : Hooked) (ts : List SchTaskPackage),
    hookMachine.run (.start (.start (.create 0 0 1 (some 0) fun _ => .ofCallback 0) 0 (some 1)
      (some 2)) ⟨some 7, some 8, none⟩) oneTask = some s ∧
      s.lane.pc = .exited ∧ ts.length = 1 ∧
      s.calls = .init 7 :: (ts.map .task ++ [.deinit 8]) := by
  obtain ⟨i, d, ts, hcalls, hran, -, -, hend⟩ := hooks_around (.start (.create 0 0 1 (some 0)
    fun _ => .ofCallback 0) 0 (some 1) (some 2)) ⟨some 7, some 8, none⟩ rfl oneTask _ rfl
  have hlen : ts.length = 1 := (congrArg List.length hran).symm.trans rfl
  obtain ⟨rfl, rfl | ⟨-, rfl⟩⟩ := hend (by decide) rfl
  · exact ⟨_, ts, rfl, rfl, hlen, hcalls⟩
  · cases hlen

end TaskSch
