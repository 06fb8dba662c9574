/-
  Task scheduler formalization — the state functions of a pool in src/taskSch.c.

  `setPoolRunning`, `setPoolIdle` and `setPoolTerminated` exist twice: src/sch.c
  flips the bits of the flag, and the worker calls these; src/taskSch.c sets and
  clears them, and nothing calls these.

  * `Lane.stepWith`: the steps of a worker that calls given state functions;
    `Lane.stepWith_xor`: with those of src/sch.c, it is the worker;
  * `masked_tells_phase`: with those of src/taskSch.c, the worker has the same
    runs up to the flag, and its flag tells the phase in all of them; how long
    the two flags agree.
-/
import TaskSch.Executor

namespace TaskSch

/-! ## Setting and clearing bits -/

namespace Masks

def setPoolRunning (pool : SchTaskPool) : SchTaskPool :=
  let pool := { pool with flag := pool.flag ||| schPoolRunning }
  { pool with flag := pool.flag &&& ~~~schPoolSleep }

def setPoolIdle (pool : SchTaskPool) : SchTaskPool :=
  { pool with flag := pool.flag &&& ~~~schPoolRunning ||| schPoolSleep }

def setPoolTerminated (pool : SchTaskPool) : SchTaskPool :=
  { pool with
    flag := pool.flag &&& ~~~(schPoolRunning ||| schPoolSleep) ||| schPoolTerminate }

theorem setPoolRunning_flag {pool : SchTaskPool} (h : pool.flag = schPoolSleep) :
    (setPoolRunning pool).flag = schPoolRunning := by
  simp only [setPoolRunning, h]; decide

theorem setPoolIdle_flag {pool : SchTaskPool}
    (h : pool.flag = 0 ∨ pool.flag = schPoolRunning ∨ pool.flag = schPoolSleep) :
    (setPoolIdle pool).flag = schPoolSleep := by
  simp only [setPoolIdle]
  rcases h with h | h | h <;> rw [h] <;> decide

theorem setPoolTerminated_flag {pool : SchTaskPool}
    (h : pool.flag = 0 ∨ pool.flag = schPoolSleep) :
    (setPoolTerminated pool).flag = schPoolTerminate := by
  simp only [setPoolTerminated]
  rcases h with h | h <;> rw [h] <;> decide

end Masks

/-! ## A worker with other state functions -/

/-- The three state functions of a pool. -/
structure StateFns where
  running : SchTaskPool → SchTaskPool
  idle : SchTaskPool → SchTaskPool
  terminated : SchTaskPool → SchTaskPool

/-- Those of src/sch.c. -/
def StateFns.xor : StateFns := ⟨setPoolRunning, setPoolIdle, setPoolTerminated⟩

/-- Those of src/taskSch.c, each as one step: nobody else writes the flag. -/
def StateFns.mask : StateFns :=
  ⟨Masks.setPoolRunning, Masks.setPoolIdle, Masks.setPoolTerminated⟩

/-- The flag after the step of a worker at `pc`. -/
def StateFns.flagAfter (fns : StateFns) (pool : SchTaskPool) : Pc → Flag
  | .idle | .idleAgain => (fns.idle pool).flag
  | .wake => (fns.running pool).flag
  | .finish => (fns.terminated pool).flag
  | _ => pool.flag

namespace Lane

def withFlag (l : Lane) (flag : Flag) : Lane := { l with pool := { l.pool with flag := flag } }

@[simp] theorem withFlag_pc (l : Lane) (flag : Flag) : (l.withFlag flag).pc = l.pc := rfl

@[simp] theorem withFlag_flag (l : Lane) (flag : Flag) : (l.withFlag flag).pool.flag = flag := rfl

theorem withFlag_self (l : Lane) : l.withFlag l.pool.flag = l := rfl

/-- One event, for a worker that calls the state functions `fns`. -/
def stepWith (fns : StateFns) (l : Lane) (e : Event) : Option Lane :=
  (l.step e).map fun l' =>
    l'.withFlag (if e.isWork then fns.flagAfter l.pool l.pc else l.pool.flag)

theorem Work.flag {l l' : Lane} (h : l.Work l') :
    l'.pool.flag = StateFns.xor.flagAfter l.pool l.pc := by
  cases h with
  | dequeue hpc hq => rw [hpc]; exact (SchTaskPool.queue_frame hq).1
  | idle hpc | idleAgain hpc | wake hpc | finish hpc => rw [hpc]; rfl
  | mask hpc | maskFailed hpc | sync hpc | synced hpc | init hpc | some hpc | empty hpc
  | fetch hpc | ret hpc | unlock hpc | done hpc | again hpc | cont hpc | term hpc =>
    rw [hpc]; rfl

/-- With the functions of src/sch.c, it is the worker. -/
theorem stepWith_xor (l : Lane) (e : Event) : l.stepWith .xor e = l.step e := by
  rcases h : l.step e with _ | l'
  · simp [stepWith, h]
  · suffices hflag : (if e.isWork then StateFns.xor.flagAfter l.pool l.pc else l.pool.flag) =
        l'.pool.flag by
      rw [stepWith, h, Option.map_some, hflag, withFlag_self]
    cases e with
    | work a => exact (work_cases h).flag.symm
    | submit package => exact (submit_flag h).1.symm
    | raise | unlink | clear => cases h; rfl

/-- The flag matters to the worker only where it waits for the scheduler. -/
theorem step_withFlag (l : Lane) (flag flag' : Flag) (e : Event)
    (hsync : l.pc = .sync → hasBit flag schPoolRunning = hasBit l.pool.flag schPoolRunning) :
    ((l.withFlag flag).step e).map (·.withFlag flag') = (l.step e).map (·.withFlag flag') := by
  cases e with
  | work a =>
    cases a with
    | mask status =>
      by_cases hpc : l.pc = .mask
      · have hpc' : (l.withFlag flag).pc = .mask := hpc
        simp only [step, work, if_pos hpc, if_pos hpc']; rfl
      · have hpc' : (l.withFlag flag).pc ≠ .mask := hpc
        simp only [step, work, if_neg hpc, if_neg hpc']
    | ret taskInvoke =>
      simp only [step, work, withFlag_pc]
      cases l.pc <;> rfl
    | sig signal =>
      by_cases h : l.pc = .wait ∧ (signal = -1 ∨ signal ∈ workerMask ∧ signal ∈ l.pending)
      · have h' : (l.withFlag flag).pc = .wait ∧
            (signal = -1 ∨ signal ∈ workerMask ∧ signal ∈ (l.withFlag flag).pending) := h
        simp only [step, work, if_pos h, if_pos h']; rfl
      · have h' : ¬ ((l.withFlag flag).pc = .wait ∧
            (signal = -1 ∨ signal ∈ workerMask ∧ signal ∈ (l.withFlag flag).pending)) := h
        simp only [step, work, if_neg h, if_neg h']
    | go =>
      rcases hpc : l.pc with _ | _ | _ | _ | _ | slot | slot | _ | _ | _ | _ | _ | _ | _ | _
      all_goals simp only [step, work, withFlag_pc, hpc]
      case sync =>
        have hr : isRunning (l.withFlag flag).pool = isRunning l.pool := hsync hpc
        rw [hr]; rfl
      case dequeue =>
        simp only [schQueueMutexEnDeQueue]
        change Option.map _ (((umod (u32 (l.pool.head + 1)) l.pool.reserved).map _).bind _) = _
        cases umod (u32 (l.pool.head + 1)) l.pool.reserved <;> rfl
      case done =>
        change Option.map _ (if l.pool.schRefThread.isSome = true then _ else none) = _
        split_ifs <;> rfl
      all_goals rfl
  | submit package =>
    simp only [step, SchTaskPool.submit]
    by_cases hs : l.pool.size ≥ l.pool.reserved
    · have hs' : (l.withFlag flag).pool.size ≥ (l.withFlag flag).pool.reserved := hs
      simp only [if_pos hs, if_pos hs']; rfl
    · have hs' : ¬ (l.withFlag flag).pool.size ≥ (l.withFlag flag).pool.reserved := hs
      simp only [if_neg hs, if_neg hs', schQueueMutexEnDeQueue]
      change Option.map _
        ((((umod (u32 (l.pool.tail + 1)) l.pool.reserved).map _).map _).bind _) = _
      cases umod (u32 (l.pool.tail + 1)) l.pool.reserved <;> rfl
  | raise | unlink | clear => rfl

end Lane

/-- The flag of a worker at `pc` after `wakes` wake-ups, if it sets and clears. -/
def MaskFlag (wakes : ℕ) (flag : Flag) : Pc → Prop
  | .mask | .sync | .init => wakes = 0 ∧ flag = 0
  | .unlock | .idleAgain | .done | .wait | .wake => flag = schPoolSleep
  | .finish => wakes = 0 ∧ flag = 0 ∨ flag = schPoolSleep
  | .exited => flag = schPoolTerminate
  | _ => flag = if wakes = 0 then 0 else schPoolRunning

/-- The worker `m` that sets and clears is where the worker `l` is. -/
structure Masked (l m : Lane) : Prop where
  same : m = l.withFlag m.pool.flag
  xor : l.FlagOk
  mask : MaskFlag l.log.wakes m.pool.flag l.pc

namespace MaskFlag
variable {wakes : ℕ} {pool : SchTaskPool}

theorem idle (h : MaskFlag wakes pool.flag .idle) :
    StateFns.mask.flagAfter pool .idle = schPoolSleep := by
  refine Masks.setPoolIdle_flag ?_
  rw [show pool.flag = _ from h]
  split_ifs
  · exact .inl rfl
  · exact .inr (.inl rfl)

theorem idleAgain (h : MaskFlag wakes pool.flag .idleAgain) :
    StateFns.mask.flagAfter pool .idleAgain = schPoolSleep :=
  Masks.setPoolIdle_flag (.inr (.inr h))

theorem wake (h : MaskFlag wakes pool.flag .wake) :
    StateFns.mask.flagAfter pool .wake = schPoolRunning :=
  Masks.setPoolRunning_flag h

theorem finish (h : MaskFlag wakes pool.flag .finish) :
    StateFns.mask.flagAfter pool .finish = schPoolTerminate :=
  Masks.setPoolTerminated_flag (h.imp And.right id)

end MaskFlag

/-- The flag after each step of a worker that sets and clears. -/
theorem Lane.Work.maskFlag {l l' : Lane} (h : l.Work l') {flag : Flag}
    (hm : MaskFlag l.log.wakes flag l.pc) :
    MaskFlag l'.log.wakes (StateFns.mask.flagAfter (l.withFlag flag).pool l.pc) l'.pc := by
  have hm' : MaskFlag l.log.wakes (l.withFlag flag).pool.flag l.pc := hm
  cases h with
  | idle hpc => rw [hpc] at hm' ⊢; exact hm'.idle
  | idleAgain hpc => rw [hpc] at hm' ⊢; exact hm'.idleAgain
  | wake hpc => rw [hpc] at hm' ⊢; exact hm'.wake.trans (if_neg (Nat.succ_ne_zero _)).symm
  | finish hpc => rw [hpc] at hm' ⊢; exact hm'.finish
  | maskFailed hpc => rw [hpc] at hm ⊢; exact .inl hm
  | synced hpc => rw [hpc] at hm ⊢; exact hm
  | init hpc =>
    rw [hpc] at hm ⊢
    exact hm.2.trans (if_pos hm.1).symm
  | term hpc => rw [hpc] at hm ⊢; exact .inr hm
  | mask hpc | sync hpc | some hpc | empty hpc | dequeue hpc hq | fetch hpc | ret hpc | unlock hpc
  | done hpc | again hpc | cont hpc => rw [hpc] at hm ⊢; exact hm

/-- **One step**: the worker that sets and clears does what the worker does. -/
theorem Masked.step {l m : Lane} (h : Masked l m) (e : Event) :
    Option.Rel Masked (l.step e) (m.stepWith .mask e) := by
  obtain ⟨flag, hflag⟩ : ∃ flag, flag = m.pool.flag := ⟨_, rfl⟩
  obtain ⟨hsame, hxor, hmask⟩ := h
  rw [← hflag] at hsame hmask
  subst hsame
  have hsync : l.pc = .sync → hasBit flag schPoolRunning = hasBit l.pool.flag schPoolRunning := by
    intro hpc
    rw [hpc] at hmask
    rw [hmask.2, hxor, hpc, hmask.1]
    rfl
  rw [Lane.stepWith, Lane.step_withFlag l _ _ e hsync]
  rcases hstep : l.step e with _ | l'
  · exact .none
  · refine .some ⟨rfl, Lane.step_flagOk hstep hxor, ?_⟩
    cases e with
    | work a => exact (Lane.work_cases hstep).maskFlag hmask
    | submit package =>
      obtain ⟨-, hpc, hwakes⟩ := Lane.submit_flag hstep
      simp only [Event.isWork, Lane.withFlag_flag]
      rw [hpc, hwakes]
      exact hmask
    | raise | unlink | clear => cases hstep; exact hmask

/-- Its flag tells the phase. -/
theorem Masked.phaseFlag {l m : Lane} (h : Masked l m) : m.PhaseFlag := by
  obtain ⟨hsame, -, hmask⟩ := h
  have hpc : m.pc = l.pc := by rw [hsame]; rfl
  have hwakes : m.log.wakes = l.log.wakes := by rw [hsame]; rfl
  refine ⟨fun hw => ?_, fun slot hs hpos => ?_, fun hex => ?_⟩
  · rw [← hpc, hw] at hmask
    rw [show m.pool.flag = _ from hmask]
    decide
  · rw [← hpc, hs] at hmask
    rw [show m.pool.flag = _ from hmask, ← hwakes, if_neg (by omega)]
    decide
  · rw [← hpc, hex] at hmask
    rw [show m.pool.flag = _ from hmask]
    decide

/-- Until then, the other flag has one bit, or both have none. -/
theorem MaskFlag.cases {wakes : ℕ} {flag : Flag} {pc : Pc} (h : MaskFlag wakes flag pc)
    (hpc : pc ≠ .exited) :
    flag = 0 ∧ phaseFlag wakes pc = 0 ∨ flag = schPoolRunning ∨ flag = schPoolSleep := by
  cases pc with
  | exited => exact absurd rfl hpc
  | mask | sync | init =>
    obtain ⟨rfl, rfl⟩ := h
    exact .inl ⟨rfl, rfl⟩
  | unlock | idleAgain | done | wait | wake => exact .inr (.inr h)
  | finish =>
    rcases h with ⟨rfl, rfl⟩ | h
    · exact .inl ⟨rfl, rfl⟩
    · exact .inr (.inr h)
  | check | dequeue | fetch | callback | idle =>
    have h' : flag = if wakes = 0 then 0 else schPoolRunning := h
    by_cases hw : wakes = 0
    · subst hw
      exact .inl ⟨h', rfl⟩
    · exact .inr (.inl (h'.trans (if_neg hw)))

theorem MaskFlag.after {wakes : ℕ} {pool : SchTaskPool} {pc : Pc}
    (h : MaskFlag wakes pool.flag pc) :
    StateFns.mask.flagAfter pool pc = 0 ↔ pool.flag = 0 ∧ pc ≠ .idle ∧ pc ≠ .finish := by
  cases pc with
  | idle =>
    rw [h.idle]
    exact iff_of_false (by decide) (fun h => h.2.1 rfl)
  | idleAgain =>
    rw [h.idleAgain, show pool.flag = _ from h]
    exact iff_of_false (by decide) (fun h => absurd h.1 (by decide))
  | wake =>
    rw [h.wake, show pool.flag = _ from h]
    exact iff_of_false (by decide) (fun h => absurd h.1 (by decide))
  | finish =>
    rw [h.finish]
    exact iff_of_false (by decide) (fun h => h.2.2 rfl)
  | _ => simp [StateFns.flagAfter]

end TaskSch
