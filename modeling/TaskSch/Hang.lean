/-
  Task scheduler formalization — waiting for a scheduler at rest.

  When every worker is blocked in `schSignalWait` and no signal that wakes it is
  pending, nothing moves any more but the clients in `schWaitTask`, and whether
  these get through is decided: each pool must be empty, and its flag must have
  the bit `SCH_POOL_SLEEP`.  A worker at rest has toggled this bit once for each
  time that it woke up, and the exit of its predecessor toggled it as well.

  * `Lane.base`: what the flag says apart from the phase of the worker; only a
    start changes it;
  * `Resting`: the scheduler at rest;
  * `wait_ends_iff`: `schWaitTask`, and with it `schTerminateTaskSch` and
    `schReleaseTaskSch`, gets through exactly if all pools are empty and have
    been woken an odd number of times since the start; else it never does.
-/
import TaskSch.Lifecycle

namespace TaskSch

open World

/-! ## The flag over restarts -/

theorem xor_both (a b c : Flag) : (a ^^^ c) ^^^ (b ^^^ c) = a ^^^ b := by
  rw [BitVec.xor_comm b c, BitVec.xor_assoc, ← BitVec.xor_assoc c c b, BitVec.xor_self,
    BitVec.zero_xor]

namespace Lane

variable {l l' : Lane}

/-- The flag without the part that tells the phase of the worker. -/
def base (l : Lane) : Flag := l.pool.flag ^^^ phaseFlag l.log.wakes l.pc

theorem base_congr (hf : l'.pool.flag = l.pool.flag)
    (hp : phaseFlag l'.log.wakes l'.pc = phaseFlag l.log.wakes l.pc) : l'.base = l.base := by
  unfold base
  rw [hf, hp]

theorem Work.base (h : l.Work l') : l'.base = l.base := by
  cases h with
  | dequeue hpc hq =>
    exact base_congr (SchTaskPool.queue_frame hq).1 (by rw [hpc]; rfl)
  | idle hpc =>
    simp only [Lane.base, setPoolIdle, hpc, phaseFlag]
    rw [← parityFlag_succ]
    exact xor_both ..
  | idleAgain hpc =>
    simp only [Lane.base, setPoolIdle, hpc, phaseFlag]
    rw [← parityFlag_succ_succ l.log.wakes, ← parityFlag_succ (l.log.wakes + 1)]
    exact xor_both ..
  | wake hpc =>
    simp only [Lane.base, setPoolRunning, hpc, phaseFlag]
    rw [← parityFlag_succ]
    exact xor_both ..
  | finish hpc =>
    simp only [Lane.base, setPoolTerminated, hpc, phaseFlag]
    exact xor_both ..
  | mask hpc | maskFailed hpc | sync hpc | synced hpc | init hpc | some hpc | empty hpc | fetch hpc
  | ret hpc | unlock hpc | done hpc | again hpc | cont hpc | term hpc =>
    exact base_congr rfl (by simp [hpc, phaseFlag])

theorem step_base {e : Event} (h : l.step e = some l') : l'.base = l.base := by
  cases e with
  | work a => exact (work_cases h).base
  | submit package =>
    obtain ⟨h1, h2, h3⟩ := submit_flag h
    exact base_congr h1 (by rw [h2, h3])
  | raise signal => cases h; rfl
  | unlink => cases h; rfl
  | clear => cases h; rfl

theorem Moves.base (h : l.Moves l') : l'.base = l.base :=
  h.inv (P := fun l' => l'.base = l.base) (fun _ _ _ _ hs hl => (step_base hs).trans hl) rfl

end Lane

theorem World.Acts.base {cur : ℕ → ℕ} {n : ℕ} {w w' : World} {acc cut : Option ℕ}
    (h : Acts cur n w w' acc cut) {i : ℕ} (hi : i < n) :
    (w'.lane (cur i)).base = (w.lane (cur i)).base := by
  rcases h.lane i hi with h | ⟨-, pkg, l, h1, h2⟩ | ⟨-, h | h⟩
  · exact h.base
  · exact h2.base.trans (Lane.step_base h1)
  · exact Lane.step_base h
  · exact Lane.step_base h

/-- The base of the flag after some starts: each worker that exits toggles all
    three bits. -/
def startFlag (starts : ℕ) : Flag :=
  if starts % 2 = 0 then schPoolRunning ||| schPoolSleep ||| schPoolTerminate else 0

theorem startFlag_succ (starts : ℕ) :
    startFlag starts ^^^ (schPoolRunning ||| schPoolSleep ||| schPoolTerminate) =
      startFlag (starts + 1) := by
  unfold startFlag
  rcases Nat.mod_two_eq_zero_or_one starts with h | h
  · rw [if_pos h, if_neg (by omega)]; decide
  · rw [if_neg (by omega), if_pos (by omega)]; decide

/-- A new worker leaves the flag as it is, but its phase is another one. -/
theorem Lane.base_restart {l : Lane} (hpc : l.pc = .exited) (t m s : ℕ) (pending : Finset ℤ) :
    Lane.base ⟨l.pool.linked t m s, .mask, pending, l.log⟩ =
      l.base ^^^ (schPoolRunning ||| schPoolSleep ||| schPoolTerminate) := by
  obtain ⟨pool, pc, pending', log⟩ := l
  cases hpc
  show pool.flag ^^^ parityFlag log.wakes = (pool.flag ^^^ (parityFlag log.wakes ^^^ _)) ^^^ _
  rw [← BitVec.xor_assoc, BitVec.xor_assoc _ _ (schPoolRunning ||| schPoolSleep |||
    schPoolTerminate), BitVec.xor_self, BitVec.xor_zero]

/-- A worker at rest sleeps, by its flag, if the starts and the wake-ups of its
    pool are even in number. -/
theorem Lane.sleep_iff {l : Lane} {starts : ℕ} (hb : l.base = startFlag starts)
    (hpc : l.pc = .wait) :
    hasBit l.pool.flag schPoolSleep ↔ Even (l.log.wakes + starts) := by
  have hphase : phaseFlag l.log.wakes .wait = parityFlag l.log.wakes := rfl
  have hflag : l.pool.flag = startFlag starts ^^^ parityFlag l.log.wakes := by
    rw [← hb, base, hpc, hphase, BitVec.xor_assoc, BitVec.xor_self, BitVec.xor_zero]
  rw [hflag, Nat.even_iff]
  unfold startFlag parityFlag
  rcases Nat.mod_two_eq_zero_or_one starts with h | h <;>
    rcases Nat.mod_two_eq_zero_or_one l.log.wakes with h' | h'
  · rw [if_pos h, if_pos h']
    exact iff_of_true (by decide) (by omega)
  · rw [if_pos h, if_neg (by omega)]
    exact iff_of_false (by decide) (by omega)
  · rw [if_neg (by omega), if_pos h']
    exact iff_of_false (by decide) (by omega)
  · rw [if_neg (by omega), if_neg (by omega)]
    exact iff_of_true (by decide) (by omega)

/-! ## Clients in `schWaitTask` -/

/-- Where a client goes on in `schWaitTask`. -/
def Client.goesOn (w : World) : Client → Client
  | .waitTest k => if hasBit w.sch.flag schFlagRunning then .lock k else leaveWait .invalidState k
  | .lock k | .condWait k => .running k
  | .running k => if hasBit w.sch.flag schFlagRunning then .unlock k else .condWait k
  | .unlock k => .readFlag 0 k
  | .readFlag i k =>
    if i < w.sch.num then
      if hasBit (w.sch.pools i).flag schPoolSleep then .readSize i k else .sigWait i k
    else leaveWait .ok k
  | .readSize i k => if (w.sch.pools i).size ≤ 0 then .readFlag (i + 1) k else .sigWait i k
  | .sigWait i k => .readFlag i k
  | cl => cl

/-- A step of a client in `schWaitTask` takes a signal at most. -/
theorem Client.step_goesOn {w w' : World} {free : Bool} {r : Errno} {cl cl' : Client} {op : MutexOp}
    (hs : cl.scan.isSome) (h : cl.step w free r = some (w', cl', op)) :
    cl' = cl.goesOn w ∧ ∃ inbox, w' = { w with inbox := inbox } := by
  cases cl with
  | idle | wakeTest | wakeRaise | termRaise | termJoin | termClear => cases hs
  | waitTest k | unlock k | readSize i k | sigWait i k => cases h; exact ⟨rfl, _, rfl⟩
  | lock k | condWait k =>
    simp only [Client.step] at h
    split_ifs at h
    cases h
    exact ⟨rfl, _, rfl⟩
  | running k =>
    simp only [Client.step] at h
    simp only [goesOn]
    split_ifs at h ⊢ <;> cases h <;> exact ⟨rfl, _, rfl⟩
  | readFlag i k =>
    simp only [Client.step] at h
    simp only [goesOn]
    split_ifs at h ⊢ <;> cases h <;> exact ⟨rfl, _, rfl⟩

/-- `schWaitTask` does not stop at the pool. -/
def SchTaskPool.Passes (pool : SchTaskPool) : Prop :=
  hasBit pool.flag schPoolSleep ∧ pool.size = 0

/-- Where a client is after `j` steps of a `schWaitTask` that passes all of the
    `n` pools at once. -/
def scanned (n : ℕ) (k : Option After) : ℕ → Client
  | 0 => .waitTest k
  | 1 => .lock k
  | 2 => .running k
  | 3 => .unlock k
  | j + 4 =>
    if 2 * n < j then leaveWait .ok k
    else if j % 2 = 0 then .readFlag (j / 2) k else .readSize (j / 2) k

theorem leaveWait_scan (status : SchErrCode) (k : Option After) :
    (leaveWait status k).scan = none := by
  cases k <;> rfl

theorem scanned_last (n : ℕ) (k : Option After) : scanned n k (2 * n + 5) = leaveWait .ok k :=
  if_pos (by omega)

/-- The call takes `2 * n + 5` steps. -/
theorem scanned_scan {n j : ℕ} {k : Option After} (hj : j ≤ 2 * n + 5) :
    (scanned n k j).scan.isSome ↔ j ≠ 2 * n + 5 := by
  match j with
  | 0 | 1 | 2 | 3 => exact iff_of_true rfl (by omega)
  | j + 4 =>
    simp only [scanned]
    split_ifs with h1 h2
    · exact iff_of_false (by rw [leaveWait_scan]; simp) (by omega)
    · exact iff_of_true rfl (by omega)
    · exact iff_of_true rfl (by omega)

/-- One step in a scheduler all of whose pools can be passed. -/
theorem scanned_goesOn {w : World} {k : Option After} {j : ℕ}
    (hr : hasBit w.sch.flag schFlagRunning) (hall : ∀ i < w.sch.num, (w.sch.pools i).Passes)
    (hj : j < 2 * w.sch.num + 5) :
    (scanned w.sch.num k j).goesOn w = scanned w.sch.num k (j + 1) := by
  match j with
  | 0 | 2 => exact if_pos hr
  | 1 => rfl
  | 3 => simp [scanned, Client.goesOn]
  | j + 4 =>
    simp only [scanned]
    rw [if_neg (by omega)]
    split_ifs with heven hlast hodd hlast
    · simp only [Client.goesOn]
      rw [if_neg (by omega)]
    · omega
    · have hlt : j / 2 < w.sch.num := by omega
      simp only [Client.goesOn]
      rw [if_pos hlt, if_pos (hall _ hlt).1, show (j + 1) / 2 = j / 2 by omega]
    · omega
    · have hlt : j / 2 < w.sch.num := by omega
      simp only [Client.goesOn]
      rw [if_pos (hall _ hlt).2.le, show (j + 1) / 2 = j / 2 + 1 by omega]
    · omega

/-- The client is in `schWaitTask` and has not passed the pool `p`. -/
def Client.Before (w : World) (k : Option After) (p : ℕ) (cl : Client) : Prop :=
  (∃ i ≤ p, cl.scan = some (i, k)) ∧
    ∀ i k', cl = .readSize i k' → hasBit (w.sch.pools i).flag schPoolSleep

/-- One step before a pool that cannot be passed. -/
theorem Client.Before.goesOn {w : World} {k : Option After} {p : ℕ} {cl : Client}
    (h : cl.Before w k p) (hr : hasBit w.sch.flag schFlagRunning) (hp : p < w.sch.num)
    (hstop : ¬ (w.sch.pools p).Passes) : (cl.goesOn w).Before w k p := by
  obtain ⟨⟨i, hi, hscan⟩, hread⟩ := h
  cases cl with
  | idle | wakeTest | wakeRaise | termRaise | termJoin | termClear => cases hscan
  | waitTest | running =>
    cases hscan
    simp only [Client.goesOn, hr, if_true]
    exact ⟨⟨0, hi, rfl⟩, by simp⟩
  | lock | condWait | unlock | sigWait => cases hscan; exact ⟨⟨_, hi, rfl⟩, by simp [Client.goesOn]⟩
  | readFlag i' k' =>
    cases hscan
    simp only [Client.goesOn]
    rw [if_pos (lt_of_le_of_lt hi hp)]
    split_ifs with hs
    · refine ⟨⟨_, hi, rfl⟩, ?_⟩
      rintro j k' ⟨⟩
      exact hs
    · exact ⟨⟨_, hi, rfl⟩, by simp⟩
  | readSize i' k' =>
    cases hscan
    simp only [Client.goesOn]
    split_ifs with hs
    · have hne : i ≠ p := by
        rintro rfl
        exact hstop ⟨hread _ _ rfl, Nat.le_zero.1 hs⟩
      exact ⟨⟨i + 1, by omega, rfl⟩, by simp⟩
    · exact ⟨⟨_, hi, rfl⟩, by simp⟩

/-! ## A scheduler at rest -/

/-- The worker is blocked in `schSignalWait`, and no signal that ends its wait
    is pending. -/
structure Thread.Asleep (th : Thread) : Prop where
  pc : th.pc = .wait
  cont : schSignalContinue ∉ th.pending
  term : sigTerm ∉ th.pending

theorem Thread.Asleep.erase {th : Thread} (h : th.Asleep) (i : ℕ) (signal : ℤ) :
    Thread.Asleep ⟨i, .wait, th.pending.erase signal⟩ :=
  ⟨rfl, fun hm => h.cont (Finset.mem_of_mem_erase hm),
    fun hm => h.term (Finset.mem_of_mem_erase hm)⟩

/-- All workers are asleep, and the scheduler is as in `w₀`. -/
structure Resting (cur : ℕ → ℕ) (n : ℕ) (w₀ w : World) : Prop where
  sch : w.sch = w₀.sch
  static : Static cur n w
  asleep : ∀ i < n, (w.threads (cur i)).Asleep

/-- A worker at rest can only take a signal that it ignores. -/
theorem Resting.work {cur : ℕ → ℕ} {n : ℕ} {w₀ w w' : World} {t : ℕ} {a : WorkerAct}
    (h : Resting cur n w₀ w) (hw : w.work t a = some w') : Resting cur n w₀ w' := by
  obtain ⟨i, hi, rfl, hs, -, -, -⟩ := h.static.work hw
  obtain ⟨l, inbox, hl, rfl⟩ := work_eq hw
  have hsleep := h.asleep i hi
  have hpc : (w.lane (cur i)).pc = .wait := hsleep.pc
  cases Lane.work_cases hl with
  | again _ signal hc =>
    refine ⟨?_, hs, ?_⟩
    · simp only [setPool, setThread, setLog, World.lane, Function.update_eq_self]
      exact h.sch
    · intro j hj
      simp only [setPool, setThread, setLog]
      by_cases hji : cur j = cur i
      · rw [hji, Function.update_self]
        exact hsleep.erase _ signal
      · rw [Function.update_of_ne hji]
        exact h.asleep j hj
  | cont _ hc => exact absurd hc hsleep.cont
  | term _ hc => exact absurd hc hsleep.term
  | _ h' => rw [hpc] at h'; cases h'

/-- Only workers and clients in `schWaitTask` take steps; other clients may enter
    it. -/
def Act.Silent (c : ι) (s : Sys ι) : Act ι → Prop
  | .worker _ _ => True
  | .call d .wait => d ≠ c
  | .call _ _ => False
  | .client d _ => (s.client d).scan.isSome

instance [DecidableEq ι] (c : ι) (s : Sys ι) : (a : Act ι) → Decidable (a.Silent c s)
  | .worker _ _ => .isTrue trivial
  | .call d .wait => inferInstanceAs (Decidable (d ≠ c))
  | .call _ (.run _) | .call _ (.stop _) | .call _ (.submit _ _) | .call _ .terminate
  | .call _ .release => .isFalse id
  | .client d _ => inferInstanceAs (Decidable (s.client d).scan.isSome)

/-- The step is one of the client `c` inside its call. -/
def Act.isStepOf [DecidableEq ι] (c : ι) : Act ι → Bool
  | .client d _ => d = c
  | _ => false

section Rest

variable {ι : Type} [DecidableEq ι] {c c₀ : ι} {before : Prop} {cur : ℕ → ℕ} {n : ℕ} {w₀ : World}
  {s s' : Sys ι}

/-- A silent step leaves the scheduler at rest, and the client `c` where it is
    unless it is its own step. -/
theorem Resting.step (h : Resting cur n w₀ s.world) {a : Act ι} (ha : a.Silent c s)
    (hstep : s.step a = some s') :
    Resting cur n w₀ s'.world ∧
      s'.client c = if a.isStepOf c then (s.client c).goesOn s.world else s.client c := by
  cases a with
  | worker t a =>
    obtain ⟨w, holder, hw, rfl⟩ := Sys.step_worker hstep
    exact ⟨h.work hw, rfl⟩
  | call d f =>
    obtain ⟨-, w, cl, hf, rfl⟩ := Sys.step_call hstep
    cases f with
    | wait =>
      cases hf
      exact ⟨h, Function.update_of_ne (Ne.symm ha) _ _⟩
    | run | stop | submit | terminate | release => exact ha.elim
  | client d r =>
    simp only [Sys.step, Option.map_eq_some_iff] at hstep
    obtain ⟨⟨w, cl, op⟩, hw, rfl⟩ := hstep
    obtain ⟨rfl, inbox, rfl⟩ := Client.step_goesOn ha hw
    refine ⟨⟨h.sch, ⟨h.static.num, h.static.index, h.static.exited, h.static.thread,
      h.static.order⟩, h.asleep⟩, ?_⟩
    by_cases hd : d = c
    · subst hd
      simp [Act.isStepOf]
    · simp [Act.isStepOf, hd, Function.update_of_ne (Ne.symm hd)]

/-- If all pools can be passed, the client gets through in `2 * n + 5` steps. -/
theorem Resting.run_through {k : Option After} {as : List (Act ι)} {t : Sys ι} {j : ℕ}
    (h : Resting cur n w₀ s.world) (hr : hasBit w₀.sch.flag schFlagRunning)
    (hall : ∀ i < n, (w₀.sch.pools i).Passes) (hj : j ≤ 2 * n + 5)
    (hc : s.client c = scanned n k j) (has : sysMachine.Along (fun s a => a.Silent c s) s as)
    (hrun : sysMachine.run s as = some t) :
    j + as.countP (Act.isStepOf c) ≤ 2 * n + 5 ∧
      t.client c = scanned n k (j + as.countP (Act.isStepOf c)) := by
  induction as generalizing s j with
  | nil => cases hrun; exact ⟨hj, hc⟩
  | cons a as ih =>
    obtain ⟨s', h1, h2⟩ := Machine.run_cons.1 hrun
    obtain ⟨h', hc'⟩ := h.step has.1 h1
    rw [List.countP_cons]
    by_cases hown : a.isStepOf c
    · rw [if_pos hown] at hc' ⊢
      have hlt : j < 2 * n + 5 := by
        have hscan : (s.client c).scan.isSome := by
          cases a with
          | client d r => rw [← of_decide_eq_true hown]; exact has.1
          | worker | call => cases hown
        rw [hc, scanned_scan hj] at hscan
        omega
      have hnum := h.static.num
      have hgo : s'.client c = scanned n k (j + 1) := by
        rw [hc', hc, ← hnum]
        refine scanned_goesOn (by rw [h.sch]; exact hr) ?_ (by omega)
        rw [hnum, h.sch]
        exact hall
      obtain ⟨hle, ht⟩ := ih h' hlt hgo (has.2 s' h1) h2
      rw [show j + (as.countP (Act.isStepOf c) + 1) = j + 1 + as.countP (Act.isStepOf c) by omega]
      exact ⟨hle, ht⟩
    · rw [if_neg hown] at hc' ⊢
      exact ih h' hj (hc'.trans hc) (has.2 s' h1) h2

/-- Before a pool that cannot be passed, the client stays for ever. -/
theorem Resting.run_before {k : Option After} {as : List (Act ι)} {t : Sys ι} {p : ℕ}
    (h : Resting cur n w₀ s.world) (hr : hasBit w₀.sch.flag schFlagRunning) (hp : p < n)
    (hstop : ¬ (w₀.sch.pools p).Passes) (hc : (s.client c).Before w₀ k p)
    (has : sysMachine.Along (fun s a => a.Silent c s) s as)
    (hrun : sysMachine.run s as = some t) : (t.client c).Before w₀ k p := by
  refine (Machine.run_along_inv
    (P := fun s => Resting cur n w₀ s.world ∧ (s.client c).Before w₀ k p)
    ?_ has hrun ⟨h, hc⟩).2
  intro s a s' hinv ha hstep
  obtain ⟨h, hc⟩ := hinv
  obtain ⟨h', hc'⟩ := h.step ha hstep
  refine ⟨h', ?_⟩
  rw [hc']
  split_ifs
  · have hgo := hc.goesOn (w := w₀) hr (by rw [← h.sch, h.static.num]; exact hp) hstop
    have hsame : (s.client c).goesOn s.world = (s.client c).goesOn w₀ := by
      cases s.client c <;> simp only [Client.goesOn, h.sch]
    rw [hsame]
    exact hgo
  · exact hc

/-- The step starts the scheduler. -/
def Act.isStart : Act ι → Bool
  | .call _ (.run _) => true
  | _ => false

omit [DecidableEq ι] in
theorem Act.Tame.isStart {a : Act ι} (h : a.Tame) : a.isStart = false := by
  cases a with
  | call d f => cases f <;> first | exact h.elim | rfl
  | worker | client => rfl

/-- The base of the flags counts the starts. -/
theorem Controlled.run_base {as : List (Act ι)} {t : Sys ι} {starts : ℕ}
    (h : Controlled c₀ before cur n s)
    (hbase : ∀ i < n, (s.world.lane (cur i)).base = startFlag starts)
    (has : sysMachine.Along (fun s a => a.ByController c₀ s ∧ a.NoSecondStart s) s as)
    (hrun : sysMachine.run s as = some t) :
    ∃ before cur, Controlled c₀ before cur n t ∧
      ∀ i < n, (t.world.lane (cur i)).base = startFlag (starts + as.countP Act.isStart) := by
  induction as generalizing s before cur starts with
  | nil => cases hrun; exact ⟨before, cur, h, hbase⟩
  | cons a as ih =>
    obtain ⟨s', h1, h2⟩ := Machine.run_cons.1 hrun
    obtain ⟨hby, hno⟩ := has.1
    rw [List.countP_cons]
    rcases hby.tame_or_run with ht | ⟨os, rfl, hok⟩
    · have hacts := (Sys.step_acts h1 ht h.static h.plain).1
      rw [ht.isStart]
      exact ih (h.step_tame ht hby h1) (fun i hi => (hacts.base hi).trans (hbase i hi))
        (has.2 s' h1) h2
    · obtain ⟨h', -, -, hlanes⟩ := h.run hok hno h1
      have hbase' : ∀ i < n, (s'.world.lane (s.world.nthread + i)).base =
          startFlag (starts + 1) := by
        intro i hi
        obtain ⟨m, set, pending, -, hlane⟩ := hlanes i hi
        have hre := Lane.base_restart ((h.down hno).2 i hi).1 (s.world.nthread + i) m set pending
        rw [hbase i hi, startFlag_succ, h.static.lane hi] at hre
        rw [hlane]
        exact hre
      obtain ⟨before', cur', ht, hb⟩ := ih h' hbase' (has.2 s' h1) h2
      refine ⟨before', cur', ht, ?_⟩
      rw [show starts + (as.countP Act.isStart + if Act.isStart (.call c₀ (.run os)) = true then 1
        else 0) = starts + 1 + as.countP Act.isStart by simp only [Act.isStart, if_true]; omega]
      exact hb

/-- What comes after `schWaitTask` in a call that begins with it. -/
def Call.waits : Call → Option (Option After)
  | .wait => some none
  | .terminate => some (some .ret)
  | .release => some (some .release)
  | .run _ | .stop _ | .submit _ _ => none

/-- A call that waits changes nothing before. -/
theorem Call.step_waits {w w' : World} {f : Call} {k : Option After} {cl : Client}
    (hf : f.waits = some k) (hinit : hasBit w.sch.flag schFlagInit)
    (hr : hasBit w.sch.flag schFlagRunning) (h : f.step w = some (w', cl)) :
    w' = w ∧ cl = .waitTest k := by
  have hguard : w.terminateGuard = none := by simp [terminateGuard, hinit, hr]
  cases f with
  | run | stop | submit => cases hf
  | wait => cases hf; cases h; exact ⟨rfl, rfl⟩
  | terminate | release =>
    cases hf
    simp only [Call.step, enterTerminate, hguard, Option.some.injEq, Prod.mk.injEq] at h
    exact ⟨h.1.symm, h.2.symm⟩

/-- **Which waits end**: when all workers of a scheduler that was started once
    are asleep and nobody signals them, a `schWaitTask`, called on its own or by
    `schTerminateTaskSch` or `schReleaseTaskSch`, gets through exactly if every
    pool is empty and its worker has woken up an odd number of times; it then
    takes `2 * n + 5` steps, and else it does not end.  After another start no
    worker gets to sleep: there is no thread that `DONE` could be sent to. -/
theorem wait_ends_iff (self n : ℕ) (flag : Flag) (maxPackagesPool : UInt32)
    (slot : ℕ → ℕ → SchTaskPackage) (c₀ c : ι) (f : Call) (k : Option After)
    (as₁ as₂ : List (Act ι)) (s₀ s₁ s₂ : Sys ι)
    (hrun₁ : sysMachine.run (.start (created self n flag maxPackagesPool slot)) as₁ = some s₀)
    (has₁ : sysMachine.Along (fun s a => a.ByController c₀ s ∧ a.NoSecondStart s)
      (.start (created self n flag maxPackagesPool slot)) as₁)
    (honce : as₁.countP Act.isStart = 1)
    (hrunning : hasBit s₀.world.sch.flag schFlagRunning)
    (hasleep : ∀ i < n, ∃ t, (s₀.world.sch.pools i).thread = some t ∧
      (s₀.world.threads t).Asleep)
    (hf : f.waits = some k) (hcall : s₀.step (.call c f) = some s₁)
    (hrun₂ : sysMachine.run s₁ as₂ = some s₂)
    (has₂ : sysMachine.Along (fun s a => a.Silent c s) s₁ as₂) :
    s₂.client c = leaveWait .ok k ↔
      (∀ i < n, (s₀.world.sch.pools i).size = 0 ∧ Odd (s₀.world.log i).wakes) ∧
      as₂.countP (Act.isStepOf c) = 2 * n + 5 := by
  have hnew : ∀ i < n, ((created self n flag maxPackagesPool slot).lane (id i)).base =
      startFlag 0 := by
    intro i _
    show (0 : Flag) ^^^ phaseFlag 0 .exited = startFlag 0
    decide
  obtain ⟨before, cur, h₀, hbase⟩ := (controlled_created self n flag maxPackagesPool slot
    c₀).run_base hnew has₁ hrun₁
  rw [Nat.zero_add, honce] at hbase
  have hrest : Resting cur n s₀.world s₀.world := by
    refine ⟨rfl, h₀.static, ?_⟩
    intro i hi
    obtain ⟨t, ht, hsleep⟩ := hasleep i hi
    rwa [h₀.static.thread i hi t ht] at hsleep
  have hpasses : ∀ i < n, (s₀.world.sch.pools i).Passes ↔
      (s₀.world.sch.pools i).size = 0 ∧ Odd (s₀.world.log i).wakes := by
    intro i hi
    have hiff := Lane.sleep_iff (hbase i hi) (hrest.asleep i hi).pc
    rw [h₀.static.lane hi, Nat.even_add_one, Nat.not_even_iff_odd] at hiff
    rw [SchTaskPool.Passes, hiff]
    exact and_comm
  obtain ⟨hworld, hclient⟩ : s₁.world = s₀.world ∧ s₁.client c = .waitTest k := by
    obtain ⟨-, w, cl, hstep, rfl⟩ := Sys.step_call hcall
    obtain ⟨rfl, rfl⟩ := Call.step_waits hf h₀.init hrunning hstep
    exact ⟨rfl, Function.update_self ..⟩
  rw [← hworld] at hrest
  rw [← hworld] at hrunning hpasses ⊢
  by_cases hall : ∀ i < n, (s₁.world.sch.pools i).Passes
  · obtain ⟨hle, hc⟩ := hrest.run_through hrunning hall (Nat.zero_le _) hclient has₂ hrun₂
    rw [Nat.zero_add] at hle hc
    have hcount : s₂.client c = leaveWait .ok k ↔ as₂.countP (Act.isStepOf c) = 2 * n + 5 := by
      constructor
      · intro hret
        have hscan := scanned_scan (k := k) hle
        rw [← hc, hret, leaveWait_scan] at hscan
        by_contra hne
        simp at hscan
        exact hne hscan
      · intro hcnt
        rw [hc, hcnt, scanned_last]
    rw [hcount]
    exact ⟨fun hcnt => ⟨fun i hi => (hpasses i hi).1 (hall i hi), hcnt⟩, And.right⟩
  · have hne : ¬ ∀ i < n, (s₁.world.sch.pools i).size = 0 ∧ Odd (s₁.world.log i).wakes :=
      fun h => hall fun i hi => (hpasses i hi).2 (h i hi)
    refine iff_of_false ?_ (fun h => hne h.1)
    push Not at hall
    obtain ⟨p, hp, hstop⟩ := hall
    have hbefore : (s₁.client c).Before s₁.world k p := by
      rw [hclient]
      exact ⟨⟨0, Nat.zero_le _, rfl⟩, by simp⟩
    obtain ⟨⟨i, -, hscan⟩, -⟩ := hrest.run_before hrunning hp hstop hbefore has₂ hrun₂
    intro hret
    rw [hret, leaveWait_scan] at hscan
    cases hscan

end Rest

/-- A worker that is started, wakes up for the signal of the start and goes back
    to sleep. -/
def settled : List (Act Unit) :=
  [[.call () (.run .allOk), .worker 0 (.mask .ok)], .replicate 7 (.worker 0 .go),
    [.worker 0 (.sig schSignalContinue)], .replicate 6 (.worker 0 .go)].flatten

/-- After that, a wait ends. -/
theorem wait_ends_iff_settled : ∃ s : Sys Unit, s.client () = .idle (some .ok) := by
  have heval : (sysMachine.run (.start (created 0 1 0 1 fun _ _ => .ofCallback 0)) settled).bind
      (fun s₀ : Sys Unit => (s₀.step (.call () .wait)).bind fun s₁ =>
        (sysMachine.run s₁ (List.replicate 7 (.client () .zero))).map fun _ =>
          (((s₀.world.sch.pools 0).thread, (s₀.world.sch.pools 0).size, (s₀.world.log 0).wakes),
            (s₀.world.threads 0).pc, (s₀.world.threads 0).pending,
            hasBit s₀.world.sch.flag schFlagRunning, decide (sysMachine.Along
              (fun s a => a.Silent () s) s₁ (List.replicate 7 (.client () .zero))))) =
      some ((some 0, 0, 1), .wait, ∅, true, true) := by decide +kernel
  simp only [Option.bind_eq_some_iff, Option.map_eq_some_iff, Prod.mk.injEq] at heval
  obtain ⟨s₀, h₀, s₁, h₁, s₂, h₂, ⟨hth, hsize, hwakes⟩, hpc, hpend, hrunning, hsilent⟩ := heval
  refine ⟨s₂, (wait_ends_iff 0 1 0 1 (fun _ _ => .ofCallback 0) () () .wait none settled _ s₀ s₁ s₂
    h₀ (by decide +kernel) (by decide) hrunning ?_ rfl h₁ h₂ (of_decide_eq_true hsilent)).2
      ⟨?_, by decide⟩⟩
  · intro i hi
    obtain rfl := Nat.lt_one_iff.1 hi
    exact ⟨0, hth, hpc, by simp [hpend], by simp [hpend]⟩
  · intro i hi
    obtain rfl := Nat.lt_one_iff.1 hi
    exact ⟨hsize, by rw [hwakes]; decide⟩

end TaskSch
