/-
  Task scheduler formalization — waking the workers up.

  A worker that found its queue empty goes to sleep in several steps.  A package
  that comes in the meantime is missed, unless the submitter sends the signal
  `CONTINUE`; it does so if it reads the flag `SCH_POOL_SLEEP`.  As the flag is
  toggled and not set, it may be clear while the worker sleeps.

  `no_lost_wakeup`: no package is left behind, if the submitter never reads the
  flag clear while the worker is going to sleep or asleep.

  `stop_wakes`: `schStopTaskSch` does not stop the workers, it sends `CONTINUE`
  to all of them, and no package that came before is left behind.
-/
import TaskSch.Lifecycle

namespace TaskSch

open World

/-! ## Packages that a worker misses -/

/-- The worker has found its queue empty and has not been woken since. -/
def Pc.idling : Pc → Bool
  | .idle | .unlock | .idleAgain | .done | .wait => true
  | _ => false

namespace Lane

variable {l l' : Lane}

/-- The worker is not going to see the package in its queue, and no signal is on
    the way to it. -/
def Missed (l : Lane) : Prop :=
  l.pc.idling ∧ schSignalContinue ∉ l.pending ∧ l.pool.size ≠ 0

theorem Work.missed (hw : l.Work l') (h : l'.Missed) :
    l.Missed ∧ l'.pool.size = l.pool.size := by
  obtain ⟨hpc', hpend, hsize⟩ := h
  cases hw with
  | empty _ hs => exact absurd hs hsize
  | idle hpc | unlock hpc | idleAgain hpc | done hpc =>
    exact ⟨⟨by rw [hpc]; rfl, hpend, hsize⟩, rfl⟩
  | again hpc signal hc =>
    refine ⟨⟨by rw [hpc]; rfl, fun hm => hpend ?_, hsize⟩, rfl⟩
    exact Finset.mem_erase.2 ⟨hc.symm, hm⟩
  | _ => cases hpc'

/-- A package that is missed was missed before. -/
theorem Moves.missed (h : l.Moves l') (hm : l'.Missed) : l.Missed ∧ l'.pool.size = l.pool.size := by
  refine h.inv (P := fun l' => l'.Missed → l.Missed ∧ l'.pool.size = l.pool.size)
    ?_ (fun hm => ⟨hm, rfl⟩) hm
  intro l₁ l₂ e he hstep hl hm₂
  cases e with
  | work a =>
    obtain ⟨hm₁, hs₁⟩ := (work_cases hstep).missed hm₂
    obtain ⟨hm₀, hs₀⟩ := hl hm₁
    exact ⟨hm₀, hs₁.trans hs₀⟩
  | raise signal =>
    cases hstep
    obtain ⟨h1, h2, h3⟩ := hm₂
    exact hl ⟨h1, fun hm => h2 (Finset.mem_insert_of_mem hm), h3⟩
  | submit _ | unlink | clear => exact he.elim

/-- A submission to an empty queue. -/
theorem submit_missed {package : SchTaskPackage} (hb : l.Books)
    (h : l.step (.submit package) = some l') (hm : l'.Missed) :
    l.Missed ∨ l'.pool.size = 1 := by
  obtain ⟨-, rfl⟩ := step_submit hb.ring h
  by_cases hs : l.pool.size = 0
  · right
    simp [submitted, SchTaskPool.submitted, SchTaskPool.pushed, hs]
  · exact .inl ⟨hm.1, hm.2.1, hs⟩

end Lane

/-! ## The submitter -/

variable {ι : Type} {c : ι} {cur : ℕ → ℕ} {n : ℕ} {s s' : Sys ι}

/-- The client `c` is the only one that submits; the scheduler goes on running. -/
def Act.Submits (c : ι) : Act ι → Prop
  | .call d (.submit _ _) => d = c
  | .call _ (.run _) | .call _ .terminate | .call _ .release => False
  | _ => True

instance [DecidableEq ι] (c : ι) : (a : Act ι) → Decidable (a.Submits c)
  | .call d (.submit _ _) => inferInstanceAs (Decidable (d = c))
  | .call _ (.run _) | .call _ .terminate | .call _ .release => .isFalse id
  | .call _ (.stop _) | .call _ .wait | .worker _ _ | .client _ _ => .isTrue trivial

/-- The pool for which the client makes the wake test, or raises the signal. -/
def Client.tests : Client → Option ℕ
  | .wakeTest p => some p
  | _ => none

def Client.raises : Client → Option ℕ
  | .wakeRaise p => some p
  | _ => none

/-- The thread does not see the package in the queue of the pool. -/
def World.Misses (w : World) (p t : ℕ) : Prop :=
  (w.threads t).pc.idling ∧ schSignalContinue ∉ (w.threads t).pending ∧ (w.sch.pools p).size ≠ 0

instance (w : World) (p t : ℕ) : Decidable (w.Misses p t) := inferInstanceAs (Decidable (_ ∧ _ ∧ _))

/-- If the worker misses the package when the client `c` makes the wake test,
    the flag `SCH_POOL_SLEEP` is set; signals are delivered. -/
def Act.Wakes (c : ι) (s : Sys ι) : Act ι → Prop
  | .client d r => d = c →
    (∀ p ∈ (s.client c).tests, ∀ t ∈ (s.world.sch.pools p).thread, s.world.Misses p t →
      hasBit (s.world.sch.pools p).flag schPoolSleep) ∧
    ∀ _p ∈ (s.client c).raises, r = .zero
  | _ => True

instance [DecidableEq ι] (c : ι) (s : Sys ι) : (a : Act ι) → Decidable (a.Wakes c s)
  | .client d r => inferInstanceAs (Decidable (d = c →
    (∀ p ∈ (s.client c).tests, ∀ t ∈ (s.world.sch.pools p).thread, s.world.Misses p t →
      hasBit (s.world.sch.pools p).flag schPoolSleep) ∧ ∀ p ∈ (s.client c).raises, r = .zero))
  | .worker _ _ | .call _ _ => .isTrue trivial

/-- A package that a worker misses is one for which the submitter has not made
    the wake test or has not raised the signal yet. -/
structure Noticed (c : ι) (cur : ℕ → ℕ) (n : ℕ) (s : Sys ι) : Prop where
  static : Static cur n s.world
  books : Accounts cur n s.world
  linked : ∀ i < n, (s.world.sch.pools i).thread = some (cur i)
  after : ∀ d, (s.client d).after = none
  missed : ∀ i < n, (s.world.lane (cur i)).Missed →
    (s.client c = .wakeTest i ∧ (s.world.sch.pools i).size ≤ 1) ∨ s.client c = .wakeRaise i

theorem Act.Submits.tame {a : Act ι} (h : a.Submits c) : a.Tame := by
  cases a with
  | call d f => cases f <;> first | exact h.elim | trivial
  | worker _ _ | client _ _ => trivial

theorem Client.cuts_none {cl : Client} (h : cl.after = none) : cl.cuts = none := by
  cases cl <;> first | rfl | cases h

/-- After the enqueue, the client makes the wake test for the pool. -/
theorem Call.wakeTest {d : ι} {f : Call} {w : World} {cl : Client} {p : ℕ}
    (hf : f.step s.world = some (w, cl)) (hacc : s.accepts (.call d f) = some p) :
    cl = .wakeTest p := by
  cases f with
  | submit package pPool =>
    obtain ⟨package', r, h1, rfl⟩ := Call.step_submit hf
    simp only [Sys.accepts, acceptedBy, h1] at hacc
    cases r with
    | error e => cases hacc
    | ok q => cases hacc; rfl
  | _ => cases hacc

namespace Noticed

/-- No client gets into `schTerminateTaskSch`. -/
theorem after_step [DecidableEq ι] (h : Noticed c cur n s) {a : Act ι} (ha : a.Submits c)
    (hstep : s.step a = some s') (d : ι) : (s'.client d).after = none := by
  cases a with
  | worker t a =>
    obtain ⟨w, holder, hw, rfl⟩ := Sys.step_worker hstep
    exact h.after d
  | call e f =>
    obtain ⟨hidle, w, cl, hf, rfl⟩ := Sys.step_call hstep
    by_cases hd : d = e
    · subst hd
      simp only [Function.update_self]
      rcases (Call.enters hf ha.tame).2 with h | ⟨rfl, -⟩
      · exact h
      · exact ha.elim
    · simp only [Function.update_of_ne hd]; exact h.after d
  | client e r =>
    obtain ⟨w, cl, holder, hst, rfl⟩ := Sys.step_client hstep
    by_cases hd : d = e
    · subst hd
      simp only [Function.update_self]
      exact (hst.after_none (h.after d)).2
    · simp only [Function.update_of_ne hd]; exact h.after d

theorem acts [DecidableEq ι] (h : Noticed c cur n s) {a : Act ι} (ha : a.Submits c)
    (hstep : s.step a = some s') :
    Acts cur n s.world s'.world (s.accepts a) none := by
  have hp : ∀ d, (s.client d).Plain := fun d => by rw [Client.Plain, h.after d]; simp
  have hcuts : s.cuts a = none := by
    cases a with
    | client d r => exact Client.cuts_none (h.after d)
    | worker _ _ | call _ _ => rfl
  have hacts := (Sys.step_acts hstep ha.tame h.static hp).1
  rwa [hcuts] at hacts

/-- While the submitter is not about to wake a worker, no package is missed. -/
theorem none_missed (h : Noticed c cur n s) (ht : (s.client c).tests = none)
    (hr : (s.client c).raises = none) {i : ℕ} (hi : i < n) : ¬ (s.world.lane (cur i)).Missed := by
  intro hm
  rcases h.missed i hi hm with ⟨hc, -⟩ | hc
  · rw [hc] at ht; cases ht
  · rw [hc] at hr; cases hr

/-- A step of the submitter. -/
theorem client_step (h : Noticed c cur n s) {r : Errno} (hwk : (Act.client c r).Wakes c s)
    (hst : Client.Steps s.world r (s.client c) s'.world (s'.client c))
    (hm : ∀ i < n, (s'.world.lane (cur i)).Missed → (s.world.lane (cur i)).Missed ∧
      (s'.world.sch.pools i).size = (s.world.sch.pools i).size) :
    ∀ i < n, (s'.world.lane (cur i)).Missed →
      (s'.client c = .wakeTest i ∧ (s'.world.sch.pools i).size ≤ 1) ∨
        s'.client c = .wakeRaise i := by
  intro i hi hmiss
  obtain ⟨hmiss₀, -⟩ := hm i hi hmiss
  obtain ⟨htests, hraises⟩ := hwk rfl
  rcases h.missed i hi hmiss₀ with ⟨hc, hsize⟩ | hc
  · -- the wake test
    rw [hc] at hst htests
    generalize s'.client c = cl at hst ⊢
    generalize s'.world = w at hst
    cases hst with
    | wake => exact .inr rfl
    | noWake hno =>
      have hsleep := htests i rfl (cur i) (h.linked i hi) (by
        rw [h.static.lane hi] at hmiss₀; exact hmiss₀)
      exact absurd (by simp [needsWake, hsize, hsleep]) hno
    | stay hscan => cases hscan
  · -- the signal
    rw [hc] at hst hraises
    have hr := hraises i rfl
    subst hr
    generalize s'.client c = cl at hst ⊢
    generalize hw : s'.world = w at hst hmiss
    cases hst with
    | raise =>
      rw [h.linked i hi] at hmiss
      refine absurd ?_ hmiss.2.1
      simp [World.lane, schRaiseThreadSignal, setThread]
    | stay hscan => cases hscan

/-- A package missed after a step without submissions was missed before. -/
theorem missed_back (h : Noticed c cur n s) (hacts : Acts cur n s.world s'.world none none) {i : ℕ}
    (hi : i < n) (hm : (s'.world.lane (cur i)).Missed) :
    (s.world.lane (cur i)).Missed ∧
      (s'.world.sch.pools i).size = (s.world.sch.pools i).size := by
  rcases hacts.lane i hi with hmv | ⟨hacc, -⟩ | ⟨hcut, -⟩
  · obtain ⟨h1, h2⟩ := hmv.missed hm
    rw [hacts.static.lane hi, h.static.lane hi] at h2
    exact ⟨h1, h2⟩
  · cases hacc
  · cases hcut

/-- A step of somebody else, without submissions. -/
theorem missed_kept (h : Noticed c cur n s) (hacts : Acts cur n s.world s'.world none none)
    (hc : s'.client c = s.client c) :
    ∀ i < n, (s'.world.lane (cur i)).Missed →
      (s'.client c = .wakeTest i ∧ (s'.world.sch.pools i).size ≤ 1) ∨
        s'.client c = .wakeRaise i := by
  intro i hi hm
  obtain ⟨hm₀, hs₀⟩ := h.missed_back hacts hi hm
  rw [hc, hs₀]
  exact h.missed i hi hm₀

/-- A call of the submitter: the package that is missed has just been enqueued. -/
theorem call_step (h : Noticed c cur n s) {f : Call} {w : World} {cl : Client}
    (hidle : (s.client c).isIdle) (hf : f.step s.world = some (w, cl))
    (hacts : Acts cur n s.world w (s.accepts (.call c f)) none) {i : ℕ} (hi : i < n)
    (hm : (w.lane (cur i)).Missed) : cl = .wakeTest i ∧ (w.sch.pools i).size ≤ 1 := by
  have hno : ¬ (s.world.lane (cur i)).Missed := by
    refine h.none_missed ?_ ?_ hi <;>
      cases hcl : s.client c <;> simp_all [Client.isIdle, Client.tests, Client.raises]
  rcases hacts.lane i hi with hmv | ⟨hacc, pkg, l, hsub, hmv⟩ | ⟨hcut, -⟩
  · exact absurd (hmv.missed hm).1 hno
  · obtain ⟨hml, hsl⟩ := hmv.missed hm
    rcases Lane.submit_missed (h.books i hi) hsub hml with hm₀ | hone
    · exact absurd hm₀ hno
    · rw [hone, hacts.static.lane hi] at hsl
      exact ⟨Call.wakeTest hf hacc, hsl.le⟩
  · cases hcut

theorem linked_step (h : Noticed c cur n s) {acc : Option ℕ}
    (hacts : Acts cur n s.world s'.world acc none) :
    ∀ i < n, (s'.world.sch.pools i).thread = some (cur i) := by
  intro i hi
  have hthread := (Lane.links_eq (hacts.settled hi (by simp)).1).1
  rw [hacts.static.lane hi, h.static.lane hi] at hthread
  exact hthread.trans (h.linked i hi)

theorem step [DecidableEq ι] (h : Noticed c cur n s) {a : Act ι} (ha : a.Submits c)
    (hwk : a.Wakes c s) (hstep : s.step a = some s') : Noticed c cur n s' := by
  have hacts := h.acts ha hstep
  refine ⟨hacts.static, hacts.accounts h.books, h.linked_step hacts, h.after_step ha hstep, ?_⟩
  cases a with
  | worker t a =>
    obtain ⟨w, holder, hw, rfl⟩ := Sys.step_worker hstep
    exact h.missed_kept hacts rfl
  | call d f =>
    obtain ⟨hidle, w, cl, hf, rfl⟩ := Sys.step_call hstep
    by_cases hd : d = c
    · subst hd
      intro i hi hm
      simp only [Function.update_self]
      exact .inl (h.call_step hidle hf hacts hi hm)
    · have hacc : s.accepts (.call d f) = none := by
        cases f <;> first | exact absurd ha hd | rfl
      rw [hacc] at hacts
      exact h.missed_kept hacts (Function.update_of_ne (Ne.symm hd) _ _)
  | client d r =>
    obtain ⟨w, cl, holder, hst, rfl⟩ := Sys.step_client hstep
    by_cases hd : d = c
    · subst hd
      refine h.client_step hwk ?_ fun i hi => h.missed_back hacts hi
      simp only [Function.update_self]
      exact hst
    · exact h.missed_kept hacts (Function.update_of_ne (Ne.symm hd) _ _)

end Noticed

/-- **No wake-up is lost**, if the submitter never reads `SCH_POOL_SLEEP` clear
    while the worker misses its package: when a worker is blocked in
    `schSignalWait` without a signal on the way, and the submitter is not about
    to wake it, its queue is empty. -/
theorem no_lost_wakeup [DecidableEq ι] (self n : ℕ) (flag : Flag) (maxPackagesPool : UInt32)
    (slot : ℕ → ℕ → SchTaskPackage) (c : ι) (as : List (Act ι)) (s : Sys ι)
    (hrun : sysMachine.run (.start (fresh self n flag maxPackagesPool slot)) as = some s)
    (has : sysMachine.Along (fun s a => a.Submits c ∧ a.Wakes c s)
      (.start (fresh self n flag maxPackagesPool slot)) as) :
    ∀ i < n, ∀ t, (s.world.sch.pools i).thread = some t → (s.world.threads t).pc = .wait →
      schSignalContinue ∉ (s.world.threads t).pending →
      s.client c ≠ .wakeTest i → s.client c ≠ .wakeRaise i → (s.world.sch.pools i).size = 0 := by
  have hstart : Noticed c id n (.start (fresh self n flag maxPackagesPool slot)) := by
    refine ⟨(fresh_static self flag maxPackagesPool slot).1,
      fresh_accounts self flag maxPackagesPool slot, ?_, fun _ => rfl, ?_⟩
    · intro i hi
      obtain ⟨⟨m, set, hp⟩, -⟩ := fresh_pool self flag maxPackagesPool slot hi
      simp only [Sys.start, hp]; rfl
    · intro i hi hm
      obtain ⟨-, hpc⟩ := fresh_pool self flag maxPackagesPool slot hi
      have hidling := hm.1
      simp only [Sys.start, World.lane, id, hpc] at hidling
      cases hidling
  have hinv : Noticed c id n s :=
    Machine.run_along_inv (fun _ _ _ h ha hs => h.step ha.1 ha.2 hs) has hrun hstart
  intro i hi t ht hpc hpend htest hraise
  by_contra hsize
  have hti : t = i := hinv.static.thread i hi t ht
  rw [hti] at hpc hpend
  have hm : (s.world.lane (id i)).Missed := by
    rw [hinv.static.lane hi]
    simp only [id]
    exact ⟨by rw [hpc]; rfl, hpend, hsize⟩
  rcases hinv.missed i hi hm with ⟨h, -⟩ | h
  · exact htest h
  · exact hraise h

/-- The first two times that the worker goes to sleep: the signal of the start
    is pending the first time, and a package comes the second time. -/
def twoSleeps : List (Act Unit) :=
  [.worker 0 (.mask .ok), .worker 0 .go, .worker 0 .go, .worker 0 .go, .worker 0 .go, .worker 0 .go,
    .worker 0 .go, .worker 0 .go, .worker 0 (.sig schSignalContinue), .worker 0 .go, .worker 0 .go,
    .worker 0 .go, .worker 0 .go, .worker 0 .go, .worker 0 .go,
    .call () (.submit (some (.ofCallback 1)) none), .client () .zero, .client () .zero,
    .worker 0 (.sig schSignalContinue), .worker 0 .go, .worker 0 .go, .worker 0 .go, .worker 0 .go,
    .worker 0 (.ret 5), .worker 0 .go, .worker 0 .go, .worker 0 .go, .worker 0 .go, .worker 0 .go]

/-- A package that comes when the worker sleeps for the second time is run. -/
theorem no_lost_wakeup_second : ∃ s : Sys Unit,
    sysMachine.run (.start (fresh 0 1 0 1 fun _ _ => .ofCallback 0)) twoSleeps = some s ∧
    (s.world.threads 0).pc = .wait ∧ (s.world.sch.pools 0).size = 0 ∧
    (s.world.log 0).ran = [.ofCallback 1] := by
  have heval : (sysMachine.run (.start (fresh 0 1 0 1 fun _ _ => .ofCallback 0)) twoSleeps).map
      (fun s : Sys Unit => ((s.world.sch.pools 0).thread, (s.world.threads 0).pc,
        (s.world.threads 0).pending, s.client (), (s.world.log 0).ran)) =
      some (some 0, .wait, ∅, .idle (some .ok), [.ofCallback 1]) := by decide +kernel
  obtain ⟨s, hs, he⟩ := Option.map_eq_some_iff.1 heval
  simp only [Prod.mk.injEq] at he
  obtain ⟨hth, hpc, hpend, hcl, hran⟩ := he
  exact ⟨s, hs, hpc, no_lost_wakeup 0 1 0 1 _ () _ s hs (by decide +kernel) 0 (by decide) 0 hth hpc
    (by rw [hpend]; simp) (by rw [hcl]; simp) (by rw [hcl]; simp), hran⟩

/-- A package that comes when the worker sleeps for the third time is missed. -/
theorem third_sleep_missed :
    ¬ ∀ (as : List (Act Unit)) (s : Sys Unit),
      sysMachine.run (.start (fresh 0 1 0 1 fun _ _ => .ofCallback 0)) as = some s →
      (∀ a ∈ as, a.Submits ()) →
      ∀ i < 1, ∀ t, (s.world.sch.pools i).thread = some t → (s.world.threads t).pc = .wait →
        schSignalContinue ∉ (s.world.threads t).pending →
        s.client () ≠ .wakeTest i → s.client () ≠ .wakeRaise i →
        (s.world.sch.pools i).size = 0 := by
  intro h
  have heval : (sysMachine.run (.start (fresh 0 1 0 1 fun _ _ => .ofCallback 0))
      (twoSleeps ++ [.call () (.submit (some (.ofCallback 2)) none), .client () .zero])).map
      (fun s : Sys Unit => ((s.world.sch.pools 0).thread, (s.world.threads 0).pc,
        (s.world.threads 0).pending, s.client (), (s.world.sch.pools 0).size)) =
      some (some 0, .wait, ∅, .idle (some .ok), 1) := by decide +kernel
  obtain ⟨s, hs, he⟩ := Option.map_eq_some_iff.1 heval
  simp only [Prod.mk.injEq] at he
  obtain ⟨hth, hpc, hpend, hcl, hsize⟩ := he
  have h0 := h _ s hs (by decide +kernel) 0 (by decide) 0 hth hpc (by rw [hpend]; simp)
    (by rw [hcl]; simp) (by rw [hcl]; simp)
  rw [hsize] at h0
  cases h0

/-! ## After a call of `schStopTaskSch` -/

namespace Lane

variable {l l' : Lane}

/-- A package is left behind: its pool knows the worker that misses it. -/
def Left (l : Lane) : Prop := l.pool.thread.isSome ∧ l.Missed

theorem Moves.left (h : l.Moves l') (hl : l'.Left) : l.Left := by
  obtain ⟨hth, -⟩ := links_eq h.settled.1
  exact ⟨hth ▸ hl.1, (h.missed hl.2).1⟩

theorem left_unlink (h : l.step .unlink = some l') : ¬ l'.Left := by
  cases h
  exact fun hl => Bool.noConfusion hl.1

theorem left_clear (h : l.step .clear = some l') (hl : l'.Left) : l.Left := by
  cases h
  exact hl

end Lane

section Stop

variable {ι : Type} [DecidableEq ι] {c₀ : ι} {before : Prop} {cur : ℕ → ℕ} {n i : ℕ}
variable {s s' : Sys ι}

/-- A package is left behind only by a submission. -/
theorem Controlled.left_step (h : Controlled c₀ before cur n s) {a : Act ι}
    (hby : a.ByController c₀ s) (hno : a.NoSecondStart s) (hstep : s.step a = some s') (hi : i < n)
    (hacc : s.accepts a ≠ some i) (hleft : ¬ (s.world.lane (cur i)).Left) :
    ∃ before' cur', Controlled c₀ before' cur' n s' ∧ ¬ (s'.world.lane (cur' i)).Left := by
  rcases h.step hby hno hstep with ⟨h', hacts⟩ | ⟨cur', h', hnew⟩
  · refine ⟨before, cur, h', ?_⟩
    rcases hacts.lane i hi with hmv | ⟨ha, -⟩ | ⟨-, hun | hcl⟩
    · exact fun hl => hleft (hmv.left hl)
    · exact absurd ha hacc
    · exact Lane.left_unlink hun
    · exact fun hl => hleft (Lane.left_clear hcl hl)
  · -- a new worker begins with the signal mask
    refine ⟨True, cur', h', ?_⟩
    obtain ⟨-, t, m, set, pending, hlane⟩ := hnew i hi
    rw [hlane]
    exact fun hl => Bool.noConfusion hl.2.1

/-- After `schStopTaskSch`, the signal `CONTINUE` is pending for the worker. -/
theorem Controlled.stop_left (h : Controlled c₀ before cur n s) {c : ι} {r : ℕ → Errno}
    (hi : i < n) (hok : ∀ j < i, pthreadErrorCode2SchErrorCode (r j) = .ok) (hr : r i = .zero)
    (hcall : s.step (.call c (.stop r)) = some s') : ¬ (s'.world.lane (cur i)).Left := by
  obtain ⟨-, w, cl, hf, rfl⟩ := Sys.step_call hcall
  simp only [Call.step, Option.some.injEq, Prod.mk.injEq] at hf
  obtain ⟨rfl, -⟩ := hf
  have hraised := stop_raised r s.world
  have hs' := (h.static.raised hraised).1
  rintro ⟨hsome, hm⟩
  rw [hs'.lane hi] at hsome hm
  simp only [hraised.sch] at hsome
  obtain ⟨t, ht⟩ := Option.isSome_iff_exists.1 hsome
  by_cases hrunning : hasBit s.world.sch.flag schFlagRunning
  · have hpend := stop_pending (r := r) h.init hrunning (h.static.num ▸ hi) hok hr ht
    rw [h.static.thread i hi t ht] at hpend
    exact hm.2.1 hpend
  · -- a scheduler that is down knows no worker
    have hoff := ((h.down hrunning).2 i hi).2.1
    rw [h.static.lane hi] at hoff
    cases hoff.symm.trans ht

/-- **A stop wakes the workers**: after `schStopTaskSch` has sent the signal for
    a pool, its worker misses no package, unless the pool gets another one. -/
theorem stop_wakes (self n : ℕ) (flag : Flag) (maxPackagesPool : UInt32)
    (slot : ℕ → ℕ → SchTaskPackage) (c₀ c : ι) (as₁ as₂ : List (Act ι)) (r : ℕ → Errno)
    (s₀ s₁ s₂ : Sys ι) (i : ℕ) (hi : i < n)
    (hrun₁ : sysMachine.run (.start (created self n flag maxPackagesPool slot)) as₁ = some s₀)
    (has₁ : sysMachine.Along (fun s a => a.ByController c₀ s ∧ a.NoSecondStart s)
      (.start (created self n flag maxPackagesPool slot)) as₁)
    (hok : ∀ j < i, pthreadErrorCode2SchErrorCode (r j) = .ok) (hr : r i = .zero)
    (hcall : s₀.step (.call c (.stop r)) = some s₁) (hrun₂ : sysMachine.run s₁ as₂ = some s₂)
    (has₂ : sysMachine.Along (fun s a => (a.ByController c₀ s ∧ a.NoSecondStart s) ∧
      s.accepts a ≠ some i) s₁ as₂) :
    ∀ t, (s₂.world.sch.pools i).thread = some t → ¬ s₂.world.Misses i t := by
  obtain ⟨before, cur, h₀⟩ : ∃ before cur, Controlled c₀ before cur n s₀ := by
    refine Machine.run_along_inv (P := fun s => ∃ before cur, Controlled c₀ before cur n s) ?_
      has₁ hrun₁ ⟨_, _, controlled_created self n flag maxPackagesPool slot c₀⟩
    rintro s a s' ⟨before, cur, h⟩ ⟨hby, hno⟩ hstep
    rcases h.step hby hno hstep with ⟨h', -⟩ | ⟨cur', h', -⟩
    · exact ⟨before, cur, h'⟩
    · exact ⟨True, cur', h'⟩
  obtain ⟨before₂, cur₂, h₂, hleft⟩ : ∃ before cur, Controlled c₀ before cur n s₂ ∧
      ¬ (s₂.world.lane (cur i)).Left := by
    refine Machine.run_along_inv (P := fun s => ∃ before cur, Controlled c₀ before cur n s ∧
      ¬ (s.world.lane (cur i)).Left) ?_ has₂ hrun₂
      ⟨before, cur, h₀.step_tame (a := .call c (.stop r)) trivial trivial hcall,
        h₀.stop_left hi hok hr hcall⟩
    rintro s a s' ⟨before, cur, h, hl⟩ ⟨⟨hby, hno⟩, hacc⟩ hstep
    exact h.left_step hby hno hstep hi hacc hl
  intro t ht hm
  obtain rfl := h₂.static.thread i hi t ht
  refine hleft ?_
  rw [h₂.static.lane hi]
  exact ⟨by simp [ht], hm⟩

end Stop

/-- The third package that comes while the worker sleeps is missed. -/
def missedOne : List (Act Unit) :=
  .call () (.run .allOk) :: twoSleeps ++
    [.call () (.submit (some (.ofCallback 2)) none), .client () .zero]

/-- The worker wakes up, runs a package and goes back to sleep. -/
def backToSleep : List (Act Unit) :=
  [[.worker 0 (.sig schSignalContinue)], .replicate 4 (.worker 0 .go), [.worker 0 (.ret 5)],
    .replicate 5 (.worker 0 .go)].flatten

/-- After a stop, the package that was missed is run. -/
theorem stop_wakes_missed : ∃ s₀ s₂ : Sys Unit,
    sysMachine.run (.start (created 0 1 0 1 fun _ _ => .ofCallback 0)) missedOne = some s₀ ∧
    s₀.world.Misses 0 0 ∧ ¬ s₂.world.Misses 0 0 ∧
    (s₂.world.log 0).ran = [.ofCallback 1, .ofCallback 2] := by
  have heval : (sysMachine.run (.start (created 0 1 0 1 fun _ _ => .ofCallback 0)) missedOne).bind
      (fun s₀ : Sys Unit => (s₀.step (.call () (.stop fun _ => .zero))).bind fun s₁ =>
        (sysMachine.run s₁ backToSleep).map fun s₂ =>
          ((decide (s₀.world.Misses 0 0), decide (sysMachine.Along (fun s a =>
              (a.ByController () s ∧ a.NoSecondStart s) ∧ s.accepts a ≠ some 0) s₁ backToSleep)),
            (s₂.world.sch.pools 0).thread, (s₂.world.log 0).ran)) =
      some ((true, true), some 0, [.ofCallback 1, .ofCallback 2]) := by decide +kernel
  simp only [Option.bind_eq_some_iff, Option.map_eq_some_iff, Prod.mk.injEq] at heval
  obtain ⟨s₀, h₀, s₁, h₁, s₂, h₂, ⟨hmiss, hrules⟩, hth, hran⟩ := heval
  exact ⟨s₀, s₂, h₀, of_decide_eq_true hmiss, stop_wakes 0 1 0 1 _ () () missedOne backToSleep
    (fun _ => .zero) s₀ s₁ s₂ 0 (by decide) h₀ (by decide +kernel) (by simp) rfl h₁ h₂
    (of_decide_eq_true hrules) 0 hth, hran⟩

end TaskSch
