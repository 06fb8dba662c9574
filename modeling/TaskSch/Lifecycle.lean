/-
  Task scheduler formalization — starting and terminating in turn.

  One client, the controller, calls `schRunTaskSch` and `schTerminateTaskSch`;
  the other clients submit, wait and stop.  `Controlled` says which pools have
  their worker at each point, up to the loop of `schTerminateTaskSch` that joins
  the workers one after the other.

  * `Controlled.step_tame`: every step but a start keeps it;
  * `Controlled.run`: so does a start while the scheduler is not running.
-/
import TaskSch.System

namespace TaskSch

open World

/-! ## The links of a pool -/

namespace Lane

variable {l l' : Lane}

/-- The worker has been joined, but its mutex and signal set are still there. -/
def Joined (l : Lane) : Prop :=
  l.pc = .exited ∧ l.pool.thread = none ∧ l.pool.schRefThread = none

/-- The pool has no worker; if it had one before, the handle of the scheduler's
    thread is gone as well. -/
def Off (before : Prop) (l : Lane) : Prop :=
  l.pc = .exited ∧ l.pool.thread = none ∧ l.pool.mutex = none ∧ l.pool.set = none ∧
    (before → l.pool.schRefThread = none)

theorem links_eq (h : l'.links = l.links) :
    l'.pool.thread = l.pool.thread ∧ l'.pool.schRefThread = l.pool.schRefThread ∧
      l'.pool.mutex = l.pool.mutex ∧ l'.pool.set = l.pool.set := by
  simpa only [links, Prod.mk.injEq] using h

theorem Joined.settled (h : l.Joined) (hs : l.Settled l') : l'.Joined := by
  obtain ⟨h1, h2, -⟩ := links_eq hs.1
  exact ⟨hs.2 h.1, h1.trans h.2.1, h2.trans h.2.2⟩

theorem Off.settled {before : Prop} (h : l.Off before) (hs : l.Settled l') : l'.Off before := by
  obtain ⟨h1, h2, h3, h4⟩ := links_eq hs.1
  obtain ⟨g1, g2, g3, g4, g5⟩ := h
  exact ⟨hs.2 g1, h1.trans g2, h3.trans g3, h4.trans g4, fun hb => h2.trans (g5 hb)⟩

end Lane

/-- What the lane of pool `i` with the thread `t` looks like while the scheduler
    is running and the controller is at `cl`. -/
def Client.Expects (t i : ℕ) (l : Lane) : Client → Prop
  | .termRaise x _ _ | .termJoin x _ _ _ =>
    if i < x then l.Off True else l.pool.thread = some t
  | .termClear x _ _ =>
    if i < x then l.Off True else if i = x then l.Joined else l.pool.thread = some t
  | _ => l.pool.thread = some t

theorem Client.Expects.settled {t i : ℕ} {l l' : Lane} {cl : Client} (h : cl.Expects t i l)
    (hs : l.Settled l') : cl.Expects t i l' := by
  have hth : l.pool.thread = some t → l'.pool.thread = some t :=
    fun h => (Lane.links_eq hs.1).1.trans h
  cases cl with
  | termRaise x _ _ | termJoin x _ _ _ =>
    simp only [Expects] at h ⊢
    split_ifs at h ⊢
    · exact h.settled hs
    · exact hth h
  | termClear x _ _ =>
    simp only [Expects] at h ⊢
    split_ifs at h ⊢
    · exact h.settled hs
    · exact h.settled hs
    · exact hth h
  | _ => exact hth h

/-- After the join of the worker of pool `x`. -/
theorem Client.Expects.join {t i x t' : ℕ} {l : Lane} {pool : SchTaskPool}
    {status status' : BitVec 32} {k : After}
    (h : (Client.termJoin x t' status k).Expects t i l) (ht : i = x → l.pc = .exited) :
    (Client.termClear x status' k).Expects t i
      (if i = x then { l with pool := { pool with thread := none, schRefThread := none } }
        else l) := by
  simp only [Expects] at h ⊢
  by_cases hix : i = x
  · subst hix
    simp only [lt_irrefl, if_false, if_true]
    exact ⟨ht rfl, rfl, rfl⟩
  · simpa only [hix, if_false] using h

/-- After the mutex and the signal set of pool `x` were deleted. -/
theorem Client.Expects.clear {t i x : ℕ} {l : Lane} {pool : SchTaskPool}
    {status status' : BitVec 32} {k : After}
    (h : (Client.termClear x status k).Expects t i l) (hp : i = x → l.pool = pool) :
    (Client.termRaise (x + 1) status' k).Expects t i
      (if i = x then { l with pool := { pool with mutex := none, set := none } } else l) := by
  simp only [Expects] at h ⊢
  by_cases hix : i = x
  · subst hix
    rw [← hp rfl]
    simp only [lt_irrefl, if_false, if_true, lt_add_one] at h ⊢
    exact ⟨h.1, h.2.1, rfl, rfl, fun _ => h.2.2⟩
  · simp only [hix, if_false] at h ⊢
    simpa only [show i < x + 1 ↔ i < x by omega] using h

/-- A pool that does not know its worker has none. -/
theorem Client.Expects.exited {t i : ℕ} {l : Lane} {cl : Client} (h : cl.Expects t i l)
    (hth : l.pool.thread ≠ some t) : l.pc = .exited := by
  cases cl with
  | termRaise x _ _ | termJoin x _ _ _ =>
    simp only [Expects] at h
    split_ifs at h
    · exact h.1
    · exact absurd h hth
  | termClear x _ _ =>
    simp only [Expects] at h
    split_ifs at h
    · exact h.1
    · exact h.1
    · exact absurd h hth
  | _ => exact absurd h hth

/-- A client outside of the loop of `schTerminateTaskSch` expects all workers. -/
def Client.Outside (cl : Client) : Prop := ∀ t i l, cl.Expects t i l ↔ l.pool.thread = some t

theorem Client.outside_after {cl : Client} (h : cl.after = none) : cl.Outside := by
  cases cl <;> simp [Client.after] at h <;> exact fun _ _ _ => Iff.rfl

theorem Client.outside_scan {cl : Client} {i : ℕ} {k : Option After}
    (h : cl.scan = some (i, k)) : cl.Outside := by
  cases cl <;> simp [Client.scan] at h <;> exact fun _ _ _ => Iff.rfl

/-- A client that is not in `schTerminateTaskSch` does not touch the flag. -/
theorem Client.Steps.after_none {w w' : World} {r : Errno} {cl cl' : Client}
    (h : Client.Steps w r cl w' cl') (hcl : cl.after = none) :
    w'.sch.flag = w.sch.flag ∧ cl'.after = none := by
  cases h with
  | wake | noWake => exact ⟨rfl, rfl⟩
  | raise => exact ⟨by rw [raise_sch], rfl⟩
  | stay h h' => exact ⟨rfl, (scan_after h').trans ((scan_after h).symm.trans hcl)⟩
  | notRunning | waited => exact ⟨rfl, (leaveWait_after _ _).trans hcl⟩
  | pass => exact ⟨rfl, hcl⟩
  | sigTerm | skip | terminated | join | clear => cases hcl

theorem submitEnqueue_flag {w w' : World} {package package' : Option SchTaskPackage}
    {pPool : Option ℕ} {r : Except SchErrCode ℕ}
    (h : w.submitEnqueue package pPool = some (w', package', r)) : w'.sch.flag = w.sch.flag := by
  obtain ⟨order, -, ⟨e, -, -, rfl⟩ | ⟨p, pkg, pkg', pool, -, -, -, rfl⟩⟩ := submitEnqueue_cases h
  · rfl
  · rfl

/-- Where a tame call leads to. -/
theorem Call.enters {ι : Type} {c : ι} {w w' : World} {f : Call} {cl : Client}
    (h : f.step w = some (w', cl)) (hf : (Act.call c f).Tame) :
    w'.sch.flag = w.sch.flag ∧ (cl.after = none ∨
      f = .terminate ∧ cl = .waitTest (some .ret) ∧ hasBit w.sch.flag schFlagRunning) := by
  cases f with
  | run os => exact hf.elim
  | release => exact hf.elim
  | stop r => cases h; exact ⟨congrArg _ (stop_raised r w).sch, .inl rfl⟩
  | wait => cases h; exact ⟨rfl, .inl rfl⟩
  | submit package pPool =>
    obtain ⟨package', r, h1, rfl⟩ := Call.step_submit h
    refine ⟨submitEnqueue_flag h1, .inl ?_⟩
    cases r with
    | error e => rfl
    | ok p => rfl
  | terminate =>
    simp only [Call.step, enterTerminate, Option.some.injEq] at h
    split at h
    next => cases h; exact ⟨rfl, .inl rfl⟩
    next hg =>
      cases h
      refine ⟨rfl, .inr ⟨rfl, rfl, ?_⟩⟩
      by_contra hr
      simp only [terminateGuard, hr, not_false_eq_true, if_true] at hg
      split_ifs at hg

/-- The client is in the loop of `schTerminateTaskSch`. -/
def Client.joining : Client → Bool
  | .termRaise _ _ _ | .termJoin _ _ _ _ | .termClear _ _ _ => true
  | _ => false

theorem Client.Steps.leaves {w w' : World} {r : Errno} {cl cl' : Client}
    (h : Client.Steps w r cl w' cl') (hp : cl.Plain) (hr : hasBit w'.sch.flag schFlagRunning)
    (hout : ¬ cl'.joining) : hasBit w.sch.flag schFlagRunning ∧ ¬ cl.joining := by
  cases h with
  | wake | noWake => exact ⟨hr, by simp [joining]⟩
  | raise => rw [raise_sch] at hr; exact ⟨hr, by simp [joining]⟩
  | stay h h' =>
    refine ⟨hr, ?_⟩
    intro hj
    cases cl <;> simp [joining, scan] at hj h
  | notRunning | waited | pass => exact ⟨hr, by simp [joining]⟩
  | sigTerm | skip | join | clear => exact absurd rfl hout
  | @terminated x status k hx code =>
    rw [leaveTerminate_world (fun hk => hp (by simp [after, hk]))] at hr
    exact absurd hr (not_running_cleared _)

/-- The phase of the worker that the pool knows of. -/
def World.workerPc (w : World) (i : ℕ) : Pc :=
  match (w.sch.pools i).thread with
  | some t => (w.threads t).pc
  | none => .exited

/-! ## The invariant -/

section Controlled

variable {ι : Type}

/-- The workers of the pools while the controller `c₀` starts and terminates the
    scheduler; `before` says that it has been started. -/
structure Controlled (c₀ : ι) (before : Prop) (cur : ℕ → ℕ) (n : ℕ) (s : Sys ι) : Prop where
  static : Static cur n s.world
  init : hasBit s.world.sch.flag schFlagInit
  others : ∀ c, c ≠ c₀ → (s.client c).after = none
  after : (s.client c₀).after = none ∨ (s.client c₀).after = some .ret
  up : hasBit s.world.sch.flag schFlagRunning →
    ∀ i < n, (s.client c₀).Expects (cur i) i (s.world.lane (cur i))
  down : ¬ hasBit s.world.sch.flag schFlagRunning →
    (s.client c₀).after = none ∧ ∀ i < n, (s.world.lane (cur i)).Off before
  join : ∀ x t status k, s.client c₀ = .termJoin x t status k → x < n ∧ t = cur x

/-- The controller alone starts and terminates the scheduler, starts succeed,
    and nobody releases it. -/
def Act.ByController (c₀ : ι) (s : Sys ι) : Act ι → Prop
  | .call c (.run os) => c = c₀ ∧ StartOk os s.world
  | .call c .terminate => c = c₀
  | .call _ .release => False
  | _ => True

instance [DecidableEq ι] (c₀ : ι) (s : Sys ι) : (a : Act ι) → Decidable (a.ByController c₀ s)
  | .call c (.run os) => inferInstanceAs (Decidable (c = c₀ ∧ StartOk os s.world))
  | .call c .terminate => inferInstanceAs (Decidable (c = c₀))
  | .call _ .release => .isFalse id
  | .call _ (.stop _) | .call _ (.submit _ _) | .call _ .wait | .worker _ _ | .client _ _ =>
    .isTrue trivial

/-- The scheduler is not started while it is running. -/
def Act.NoSecondStart (s : Sys ι) : Act ι → Prop
  | .call _ (.run _) => ¬ hasBit s.world.sch.flag schFlagRunning
  | _ => True

instance (s : Sys ι) : (a : Act ι) → Decidable (a.NoSecondStart s)
  | .call _ (.run _) => inferInstanceAs (Decidable ¬ hasBit s.world.sch.flag schFlagRunning)
  | .call _ (.stop _) | .call _ (.submit _ _) | .call _ .wait | .call _ .terminate
  | .call _ .release | .worker _ _ | .client _ _ => .isTrue trivial

namespace Controlled

variable {c₀ : ι} {before : Prop} {cur : ℕ → ℕ} {n : ℕ} {s s' : Sys ι}

theorem plain (h : Controlled c₀ before cur n s) (c : ι) : (s.client c).Plain := by
  unfold Client.Plain
  by_cases hc : c = c₀
  · subst hc
    rcases h.after with h | h <;> rw [h] <;> simp
  · rw [h.others c hc]; simp

/-- A step that leaves the links, the flag and the controller alone. -/
theorem frame (h : Controlled c₀ before cur n s) (hs : Static cur n s'.world)
    (hset : ∀ i < n, (s.world.lane (cur i)).Settled (s'.world.lane (cur i)))
    (hflag : s'.world.sch.flag = s.world.sch.flag) (hc₀ : s'.client c₀ = s.client c₀)
    (hc : ∀ c, c ≠ c₀ → (s'.client c).after = none) : Controlled c₀ before cur n s' where
  static := hs
  init := hflag ▸ h.init
  others := hc
  after := hc₀ ▸ h.after
  up := fun hr i hi => hc₀ ▸ (h.up (hflag ▸ hr) i hi).settled (hset i hi)
  down := fun hr =>
    have hd := h.down (hflag ▸ hr)
    ⟨hc₀ ▸ hd.1, fun i hi => (hd.2 i hi).settled (hset i hi)⟩
  join := fun x t st k hk => h.join x t st k (hc₀ ▸ hk)

/-- A step of the controller outside of the loop of `schTerminateTaskSch`. -/
theorem outside (h : Controlled c₀ before cur n s) (hs : Static cur n s'.world)
    (hset : ∀ i < n, (s.world.lane (cur i)).Settled (s'.world.lane (cur i)))
    (hflag : s'.world.sch.flag = s.world.sch.flag)
    (hout : (s.client c₀).Outside) (hout' : (s'.client c₀).Outside)
    (hafter : (s'.client c₀).after = none ∨
      (s'.client c₀).after = some .ret ∧ hasBit s.world.sch.flag schFlagRunning)
    (hc : ∀ c, c ≠ c₀ → (s'.client c).after = none)
    (hjoin : ∀ x t status k, s'.client c₀ ≠ .termJoin x t status k) :
    Controlled c₀ before cur n s' where
  static := hs
  init := hflag ▸ h.init
  others := hc
  after := hafter.imp id And.left
  up := fun hr i hi => (hout' _ _ _).2
    ((Lane.links_eq (hset i hi).1).1.trans ((hout _ _ _).1 (h.up (hflag ▸ hr) i hi)))
  down := fun hr =>
    ⟨hafter.resolve_right fun h => hr (hflag ▸ h.2),
      fun i hi => ((h.down (hflag ▸ hr)).2 i hi).settled (hset i hi)⟩
  join := fun x t st k hk => absurd hk (hjoin x t st k)

/-- The controller is in the loop of `schTerminateTaskSch` only while the
    scheduler is running. -/
theorem running (h : Controlled c₀ before cur n s) {k : After}
    (hk : (s.client c₀).after = some k) : hasBit s.world.sch.flag schFlagRunning ∧ k = .ret := by
  refine ⟨by_contra ?_, ?_⟩
  · intro hr
    rw [(h.down hr).1] at hk; cases hk
  · rcases h.after with h | h <;> rw [h] at hk <;> cases hk
    rfl

section Controller

variable [DecidableEq ι] {w : World} {cl cl₀ : Client} {r : Errno} {holder : Option ι}

theorem others_update (h : Controlled c₀ before cur n s) (cl : Client) :
    ∀ c, c ≠ c₀ → (Function.update s.client c₀ cl c).after = none := by
  intro c hc
  rw [Function.update_of_ne hc]
  exact h.others c hc

/-- A step of the controller inside of `schTerminateTaskSch`. -/
theorem terminating (h : Controlled c₀ before cur n s) (hs : Static cur n w)
    (hflag : w.sch.flag = s.world.sch.flag) (hrun : hasBit s.world.sch.flag schFlagRunning)
    (hafter : cl.after = some .ret)
    (hup : ∀ i < n, cl.Expects (cur i) i (w.lane (cur i)))
    (hjoin : ∀ x t status k, cl = .termJoin x t status k → x < n ∧ t = cur x) :
    Controlled c₀ before cur n ⟨w, Function.update s.client c₀ cl, holder⟩ := by
  refine ⟨hs, hflag ▸ h.init, h.others_update cl, .inr ?_, fun _ => ?_,
    fun hr => absurd (hflag ▸ hrun) hr, ?_⟩
  · simpa only [Function.update_self] using hafter
  · simpa only [Function.update_self] using hup
  · simpa only [Function.update_self] using hjoin

/-- A step of the controller outside of `schTerminateTaskSch`. -/
theorem client_outside (h : Controlled c₀ before cur n s) (hcl : s.client c₀ = cl₀)
    (hst : Client.Steps s.world r cl₀ w cl) (hnone : cl₀.after = none) :
    Controlled c₀ before cur n ⟨w, Function.update s.client c₀ cl, holder⟩ := by
  obtain ⟨hacts, -⟩ := hst.acts h.static (hcl ▸ h.plain c₀)
  have hcuts : cl₀.cuts = none := by cases cl₀ <;> first | rfl | cases hnone
  obtain ⟨hflag, hafter⟩ := hst.after_none hnone
  refine h.outside hacts.static (fun i hi => hacts.settled hi (by simp [hcuts])) hflag
    (hcl ▸ Client.outside_after hnone) ?_ ?_ (h.others_update cl) ?_
  · simp only [Function.update_self]
    exact Client.outside_after hafter
  · simp only [Function.update_self]
    exact .inl hafter
  · intro x t st k hk
    simp only [Function.update_self] at hk
    rw [hk] at hafter
    cases hafter

/-- The last step of the controller in `schTerminateTaskSch`. -/
theorem terminated (h : Controlled c₀ before cur n s) {x : ℕ} {status : BitVec 32}
    {ret : Option SchErrCode} (hcl : s.client c₀ = .termRaise x status .ret) (hx : n ≤ x)
    (hrun : hasBit s.world.sch.flag schFlagRunning)
    (hs : Static cur n (s.world.setFlag (s.world.sch.flag &&& ~~~schFlagRunning))) :
    Controlled c₀ before cur n ⟨s.world.setFlag (s.world.sch.flag &&& ~~~schFlagRunning),
      Function.update s.client c₀ (.idle ret), holder⟩ := by
  have hup := hcl ▸ h.up hrun
  refine ⟨hs, (init_kept h.init).2, h.others_update _, ?_,
    fun hr => absurd hr (not_running_cleared _), fun _ => ⟨?_, ?_⟩, ?_⟩
  · simp only [Function.update_self]
    exact .inl rfl
  · simp only [Function.update_self]
    rfl
  · intro i hi
    have hi' := hup i hi
    simp only [Client.Expects, if_pos (show i < x by omega)] at hi'
    obtain ⟨g1, g2, g3, g4, g5⟩ := hi'
    exact ⟨g1, g2, g3, g4, fun _ => g5 trivial⟩
  · intro x t st k hk
    simp only [Function.update_self] at hk
    cases hk

/-- A step of the controller inside a call. -/
theorem client (h : Controlled c₀ before cur n s)
    (hst : Client.Steps s.world r (s.client c₀) w cl) (holder : Option ι) :
    Controlled c₀ before cur n ⟨w, Function.update s.client c₀ cl, holder⟩ := by
  obtain ⟨hacts, -⟩ := hst.acts h.static (h.plain c₀)
  have hset := fun i hi => hacts.settled (i := i) hi
  generalize hcl : s.client c₀ = cl₀ at hst
  rw [hcl] at hacts hset
  by_cases hnone : cl₀.after = none
  · exact h.client_outside hcl hst hnone
  obtain ⟨k₀, hk₀⟩ := Option.ne_none_iff_exists'.1 hnone
  obtain ⟨hrun, rfl⟩ := h.running (hcl ▸ hk₀)
  have hup := hcl ▸ h.up hrun
  cases hst with
  | wake | noWake | raise => cases hk₀
  | notRunning hr => exact absurd hrun hr
  | stay hscan hscan' =>
    rw [Client.scan_after hscan] at hk₀
    subst hk₀
    refine h.terminating hacts.static rfl hrun (Client.scan_after hscan') ?_ ?_
    · intro i hi
      have hsettled := hset i hi (by rw [Client.scan_cuts hscan]; simp)
      exact (Client.outside_scan hscan' _ _ _).2 ((Client.outside_scan hscan _ _ _).1
        ((hup i hi).settled hsettled))
    · rintro x t st k rfl
      cases hscan'
  | pass | waited =>
    cases hk₀
    refine h.terminating h.static rfl hrun rfl hup ?_
    rintro x t st k ⟨⟩
  | @sigTerm x t status k hx ht status' =>
    cases hk₀
    refine h.terminating hacts.static (by rw [raise_sch]) hrun rfl ?_ ?_
    · intro i hi
      exact (hup i hi).settled (hset i hi (by simp [Client.cuts]))
    · rintro x' t' st k ⟨⟩
      have hxn := h.static.num ▸ hx
      exact ⟨hxn, h.static.thread x hxn t ht⟩
  | @skip x status k hx ht =>
    have hxn := h.static.num ▸ hx
    have hlink := hup x hxn
    simp only [Client.Expects, lt_irrefl, if_false] at hlink
    rw [h.static.lane hxn] at hlink
    simp only [ht] at hlink
    cases hlink
  | @terminated x status k hx code =>
    cases hk₀
    exact h.terminated hcl (by rw [h.static.num] at hx; omega) hrun hacts.static
  | @join x t status k ht status' =>
    cases hk₀
    obtain ⟨hxn, rfl⟩ := h.join x t status _ hcl
    refine h.terminating hacts.static rfl hrun rfl ?_ ?_
    · intro i hi
      rw [(h.static.unlink x).2 i hi]
      refine (hup i hi).join ?_
      rintro rfl
      exact not_not.1 ht
    · rintro x' t' st k ⟨⟩
  | @clear x status k status' =>
    cases hk₀
    refine h.terminating hacts.static rfl hrun rfl ?_ ?_
    · intro i hi
      rw [(h.static.clear x).2 i hi]
      refine (hup i hi).clear ?_
      rintro rfl
      rw [h.static.lane hi]
    · rintro x' t' st k ⟨⟩

end Controller

/-- The first step of a call other than a start. -/
theorem call [DecidableEq ι] (h : Controlled c₀ before cur n s) {c : ι} {f : Call} {w : World}
    {cl : Client} (hidle : (s.client c).isIdle) (hf : f.step s.world = some (w, cl))
    (ht : (Act.call c f).Tame) (ha : (Act.call c f).ByController c₀ s) :
    Controlled c₀ before cur n { s with world := w, client := Function.update s.client c cl } := by
  obtain ⟨hacts, -⟩ := Call.acts (s := s) (c := c) hf ht h.static
  obtain ⟨hflag, hafter⟩ := Call.enters hf ht
  have hset := fun i hi => hacts.settled (i := i) hi (by simp)
  by_cases hc : c = c₀
  · subst hc
    have hnone : (s.client c).after = none := by
      cases hcl : s.client c <;> simp_all [Client.isIdle, Client.after]
    refine h.outside hacts.static hset hflag (Client.outside_after hnone) ?_ ?_ ?_ ?_
    · simp only [Function.update_self]
      rcases hafter with h | ⟨-, rfl, -⟩
      · exact Client.outside_after h
      · exact fun _ _ _ => Iff.rfl
    · simp only [Function.update_self]
      rcases hafter with h | ⟨-, rfl, hr⟩
      · exact .inl h
      · exact .inr ⟨rfl, hr⟩
    · intro d hd
      simp only [Function.update_of_ne hd]; exact h.others d hd
    · intro x t st k hk
      simp only [Function.update_self] at hk
      rcases hafter with h | ⟨-, rfl, hr⟩
      · rw [hk] at h; cases h
      · cases hk
  · refine h.frame hacts.static hset hflag ?_ ?_
    · simp only [Function.update_of_ne (Ne.symm hc)]
    · intro d hd
      by_cases hdc : d = c
      · subst hdc
        simp only [Function.update_self]
        rcases hafter with h | ⟨rfl, -⟩
        · exact h
        · exact absurd ha hc
      · simp only [Function.update_of_ne hdc]; exact h.others d hd

theorem step_tame [DecidableEq ι] (h : Controlled c₀ before cur n s) {a : Act ι} (ht : a.Tame)
    (ha : a.ByController c₀ s) (hstep : s.step a = some s') : Controlled c₀ before cur n s' := by
  cases a with
  | worker t a =>
    obtain ⟨w, holder, hw, rfl⟩ := Sys.step_worker hstep
    have hacts := h.static.acts_work hw
    obtain ⟨-, -, -, -, -, -, hflag⟩ := h.static.work hw
    exact h.frame hacts.static (fun i hi => hacts.settled hi (by simp)) hflag rfl h.others
  | call c f =>
    obtain ⟨hidle, w, cl, hf, rfl⟩ := Sys.step_call hstep
    exact h.call hidle hf ht ha
  | client c r =>
    obtain ⟨w, cl, holder, hst, rfl⟩ := Sys.step_client hstep
    by_cases hc : c = c₀
    · subst hc; exact h.client hst _
    · have hnone := h.others c hc
      have hcuts : (s.client c).cuts = none := by
        cases hcl : s.client c <;> simp_all [Client.cuts, Client.after]
      obtain ⟨hacts, -⟩ := hst.acts h.static (h.plain c)
      obtain ⟨hflag, hafter⟩ := hst.after_none hnone
      refine h.frame hacts.static (fun i hi => hacts.settled hi (by simp [hcuts])) hflag ?_ ?_
      · simp only [Function.update_of_ne (Ne.symm hc)]
      · intro d hd
        by_cases hdc : d = c
        · subst hdc; simp only [Function.update_self]; exact hafter
        · simp only [Function.update_of_ne hdc]; exact h.others d hd

/-- The loop of `schTerminateTaskSch` is left with the flag cleared. -/
theorem leaves [DecidableEq ι] (h : Controlled c₀ before cur n s) {a : Act ι} (ht : a.Tame)
    (hstep : s.step a = some s') (hr : hasBit s'.world.sch.flag schFlagRunning)
    (hout : ¬ (s'.client c₀).joining) :
    hasBit s.world.sch.flag schFlagRunning ∧ ¬ (s.client c₀).joining := by
  cases a with
  | worker t a =>
    obtain ⟨w, holder, hw, rfl⟩ := Sys.step_worker hstep
    obtain ⟨-, -, -, -, -, -, hflag⟩ := h.static.work hw
    exact ⟨hflag ▸ hr, hout⟩
  | call c f =>
    obtain ⟨hidle, w, cl, hf, rfl⟩ := Sys.step_call hstep
    refine ⟨(Call.enters hf ht).1 ▸ hr, ?_⟩
    by_cases hc : c = c₀
    · subst hc
      cases hcl : s.client c <;> simp_all [Client.isIdle, Client.joining]
    · simpa only [Function.update_of_ne (Ne.symm hc)] using hout
  | client c r =>
    obtain ⟨w, cl, holder, hst, rfl⟩ := Sys.step_client hstep
    by_cases hc : c = c₀
    · subst hc
      simp only [Function.update_self] at hout
      exact hst.leaves (h.plain c) hr hout
    · simp only [Function.update_of_ne (Ne.symm hc)] at hout
      exact ⟨(hst.after_none (h.others c hc)).1 ▸ hr, hout⟩

/-- A start that succeeds while the scheduler is not running. -/
theorem run [DecidableEq ι] (h : Controlled c₀ before cur n s) {os : RunOs}
    (hok : StartOk os s.world) (hdown : ¬ hasBit s.world.sch.flag schFlagRunning)
    (hstep : s.step (.call c₀ (.run os)) = some s') :
    Controlled c₀ True (s.world.nthread + ·) n s' ∧
      hasBit s'.world.sch.flag schFlagRunning ∧ s'.client c₀ = .idle (some .ok) ∧
      ∀ i < n, ∃ m set pending, pending ⊆ {schSignalContinue} ∧
        s'.world.lane (s.world.nthread + i) =
          ⟨(s.world.sch.pools i).linked (s.world.nthread + i) m set, .mask, pending,
            s.world.log i⟩ := by
  obtain ⟨-, hoff⟩ := h.down hdown
  have hexit : ∀ t, (s.world.threads t).pc = .exited := by
    intro t
    by_cases ht : ∀ i < n, cur i ≠ t
    · exact h.static.exited t ht
    · push Not at ht
      obtain ⟨i, hi, rfl⟩ := ht
      exact (hoff i hi).1
  obtain ⟨w₁, w₂, hrun, -, -⟩ := run_ok h.init hok
  obtain ⟨hs, hflag, hlanes⟩ := run_static h.init hok hexit (h.static.num ▸ h.static.order) rfl
  rw [h.static.num] at hs hlanes
  obtain ⟨-, w, cl, hf, rfl⟩ := Sys.step_call hstep
  simp only [Call.step, hrun, Option.some.injEq] at hf
  simp only [hrun] at hs hflag hlanes
  cases hf
  have hrunning := running_set s.world.sch.flag
  refine ⟨⟨hs, hflag ▸ (init_kept h.init).1, ?_, ?_, ?_, ?_, ?_⟩,
    hflag ▸ hrunning, ?_, hlanes⟩
  · intro c hc
    simp only [Function.update_of_ne hc]; exact h.others c hc
  · simp only [Function.update_self]; exact .inl rfl
  · intro _ i hi
    obtain ⟨m, set, pending, -, hlane⟩ := hlanes i hi
    simp only [Function.update_self]
    rw [hlane]
    exact rfl
  · intro hr
    exact absurd (hflag ▸ hrunning) hr
  · intro x t st k hk
    simp only [Function.update_self] at hk; cases hk
  · simp only [Function.update_self]

/-- The worker that a pool knows of is the one that works on it. -/
theorem workerPc (h : Controlled c₀ before cur n s) {i : ℕ} (hi : i < n) :
    s.world.workerPc i = (s.world.lane (cur i)).pc := by
  have hlane := h.static.lane hi
  cases hth : (s.world.sch.pools i).thread with
  | some t =>
    rw [h.static.thread i hi t hth] at hth
    simp only [World.workerPc, hth, World.lane]
  | none =>
    have hnone : (s.world.lane (cur i)).pool.thread ≠ some (cur i) := by rw [hlane]; simp [hth]
    have hexit : (s.world.lane (cur i)).pc = .exited := by
      by_cases hr : hasBit s.world.sch.flag schFlagRunning
      · exact (h.up hr i hi).exited hnone
      · exact ((h.down hr).2 i hi).1
    simp only [World.workerPc, hth, hexit]

end Controlled

/-- A scheduler that has been created and not started. -/
theorem controlled_created (self n : ℕ) (flag : Flag) (maxPackagesPool : UInt32)
    (slot : ℕ → ℕ → SchTaskPackage) (c₀ : ι) :
    Controlled c₀ False id n (.start (created self n flag maxPackagesPool slot)) := by
  obtain ⟨hinit, hdown⟩ := created_flag self n flag maxPackagesPool slot
  refine ⟨⟨rfl, fun _ _ => rfl, fun _ _ => rfl, ?_, ?_⟩, hinit,
    fun _ _ => rfl, .inl rfl, fun hr => absurd hr hdown, fun _ => ⟨rfl, ?_⟩, ?_⟩
  · rintro i _ t ⟨⟩
  · intro p hp
    exact List.mem_range.1 hp
  · intro i hi
    exact ⟨rfl, rfl, rfl, rfl, False.elim⟩
  · intro x t st k hk; cases hk

/-! ## The accounts over restarts -/

/-- A worker that has exited may be followed by a new one. -/
theorem Lane.Books.restart {l : Lane} (h : l.Books) (hpc : l.pc = .exited) (t m s : ℕ)
    (pending : Finset ℤ) : Lane.Books ⟨l.pool.linked t m s, .mask, pending, l.log⟩ := by
  obtain ⟨⟨h1, h2, h3, h4⟩, hq, hle, htk, -, hidx, -⟩ := h
  rw [hpc] at htk
  exact ⟨⟨h1, h2, h3, h4⟩, hq, hle, htk, by simp, hidx, by simp [Pc.holds]⟩

theorem Lane.Kept.restart {K : Pc → Option ℕ} (hK : Needs K) {l : Lane} (h : Lane.Kept K l)
    (hpc : l.pc = .exited) (t m s : ℕ) (pending : Finset ℤ) :
    Lane.Kept K ⟨l.pool.linked t m s, .mask, pending, l.log⟩ := by
  have hran := h.ran
  rw [hpc] at hran
  exact ⟨fun s hs => (by cases hK.holds hs), hran⟩

variable {c₀ : ι} {before : Prop} {cur : ℕ → ℕ} {n : ℕ} {s s' : Sys ι}

/-- A step by the rules of the controller is tame, or it is a start. -/
theorem Act.ByController.tame_or_run {a : Act ι} (h : a.ByController c₀ s) :
    a.Tame ∨ ∃ os, a = .call c₀ (.run os) ∧ StartOk os s.world := by
  cases a with
  | call c f =>
    cases f with
    | run os => exact .inr ⟨os, by rw [h.1], h.2⟩
    | release => exact h.elim
    | stop _ | submit _ _ | wait | terminate => exact .inl trivial
  | worker _ _ | client _ _ => exact .inl trivial

/-- Along the steps of the controller's rules, the lanes move, or all of them
    get a new worker. -/
theorem Controlled.step [DecidableEq ι] (h : Controlled c₀ before cur n s) {a : Act ι}
    (hby : a.ByController c₀ s) (hno : a.NoSecondStart s) (hstep : s.step a = some s') :
    (Controlled c₀ before cur n s' ∧ Acts cur n s.world s'.world (s.accepts a) (s.cuts a)) ∨
    ∃ cur', Controlled c₀ True cur' n s' ∧ ∀ i < n, (s.world.lane (cur i)).pc = .exited ∧
      ∃ t m set pending, s'.world.lane (cur' i) =
        ⟨(s.world.lane (cur i)).pool.linked t m set, .mask, pending,
          (s.world.lane (cur i)).log⟩ := by
  rcases hby.tame_or_run with ht | ⟨os, rfl, hok⟩
  · exact .inl ⟨h.step_tame ht hby hstep, (Sys.step_acts hstep ht h.static h.plain).1⟩
  · obtain ⟨h', -, -, hlanes⟩ := h.run hok hno hstep
    refine .inr ⟨_, h', fun i hi => ⟨((h.down hno).2 i hi).1, ?_⟩⟩
    obtain ⟨m, set, pending, -, hlane⟩ := hlanes i hi
    exact ⟨_, m, set, pending, by rw [hlane, h.static.lane hi]⟩

/-- **The accounts balance** in every run by the rules of the controller. -/
theorem Controlled.accounts_step [DecidableEq ι] (h : Controlled c₀ before cur n s)
    (hb : Accounts cur n s.world) {a : Act ι} (hby : a.ByController c₀ s) (hno : a.NoSecondStart s)
    (hstep : s.step a = some s') :
    ∃ before' cur', Controlled c₀ before' cur' n s' ∧ Accounts cur' n s'.world := by
  rcases h.step hby hno hstep with ⟨h', hacts⟩ | ⟨cur', h', hnew⟩
  · exact ⟨before, cur, h', hacts.accounts hb⟩
  · refine ⟨True, cur', h', ?_⟩
    intro i hi
    obtain ⟨hpc, t, m, set, pending, hlane⟩ := hnew i hi
    rw [hlane]
    exact (hb i hi).restart hpc t m set pending

theorem accounts_created (self n : ℕ) (flag : Flag) (maxPackagesPool : UInt32)
    (slot : ℕ → ℕ → SchTaskPackage) : Accounts id n (created self n flag maxPackagesPool slot) := by
  intro i hi
  obtain ⟨h1, h2, h3, h4⟩ :=
    SchTaskPool.create_ringWf self i maxPackagesPool (some (7 + i)) (slot i)
  exact ⟨⟨h1, h2, h3, h4⟩, rfl, le_rfl, rfl, by simp [World.lane, created],
    by simp [World.lane, created, Log.empty], by simp [World.lane, created, Pc.holds]⟩

/-- The slots keep their packages, too, as long as they are spared. -/
theorem Controlled.kept_step [DecidableEq ι] {K : Pc → Option ℕ} (hK : Lane.Needs K)
    (h : Controlled c₀ before cur n s) (hb : Accounts cur n s.world)
    (hk : ∀ i < n, Lane.Kept K (s.world.lane (cur i))) {a : Act ι} (hby : a.ByController c₀ s)
    (hno : a.NoSecondStart s) (hroom : RoomLeft K cur s.world (s.accepts a))
    (hstep : s.step a = some s') :
    ∃ before' cur', Controlled c₀ before' cur' n s' ∧ Accounts cur' n s'.world ∧
      ∀ i < n, Lane.Kept K (s'.world.lane (cur' i)) := by
  rcases h.step hby hno hstep with ⟨h', hacts⟩ | ⟨cur', h', hnew⟩
  · exact ⟨before, cur, h', hacts.accounts hb, hacts.kept hK h.static hb hroom hk⟩
  · refine ⟨True, cur', h', ?_, ?_⟩
    · intro i hi
      obtain ⟨hpc, t, m, set, pending, hlane⟩ := hnew i hi
      rw [hlane]
      exact (hb i hi).restart hpc t m set pending
    · intro i hi
      obtain ⟨hpc, t, m, set, pending, hlane⟩ := hnew i hi
      rw [hlane]
      exact (hk i hi).restart hK hpc t m set pending

/-! ## While a client waits -/

/-- A step while the client `c` is in a call that waits for the workers: the
    workers go on, other clients may wait or stop, and nobody submits. -/
def Act.Awaits (c : ι) : Act ι → Prop
  | .call d .wait | .call d (.stop _) => d ≠ c
  | .call _ _ => False
  | .worker _ _ | .client _ _ => True

instance [DecidableEq ι] (c : ι) : (a : Act ι) → Decidable (a.Awaits c)
  | .call d .wait | .call d (.stop _) => inferInstanceAs (Decidable (d ≠ c))
  | .call _ (.run _) | .call _ (.submit _ _) | .call _ .terminate | .call _ .release => .isFalse id
  | .worker _ _ | .client _ _ => .isTrue trivial

theorem Act.Awaits.spec {c : ι} {a : Act ι} (h : a.Awaits c) (c₀ : ι) (s : Sys ι) :
    a.Tame ∧ a.ByController c₀ s ∧ s.accepts a = none := by
  cases a with
  | call d f => cases f <;> first | exact h.elim | exact ⟨trivial, trivial, rfl⟩
  | worker _ _ | client _ _ => exact ⟨trivial, trivial, rfl⟩

/-- Only the client itself leaves its call. -/
theorem Act.Awaits.client_eq [DecidableEq ι] {c : ι} {a : Act ι} (h : a.Awaits c)
    (hstep : s.step a = some s') : s'.client c = s.client c ∨ ∃ r w cl,
      Client.Steps s.world r (s.client c) w cl ∧ a = .client c r ∧ s'.world = w ∧
        s'.client c = cl := by
  cases a with
  | worker t a =>
    obtain ⟨w, holder, hw, rfl⟩ := Sys.step_worker hstep
    exact .inl rfl
  | call d f =>
    obtain ⟨hidle, w, cl, hf, rfl⟩ := Sys.step_call hstep
    have hd : d ≠ c := by cases f <;> first | exact h | exact h.elim
    exact .inl (Function.update_of_ne (Ne.symm hd) _ _)
  | client d r =>
    obtain ⟨w, cl, holder, hst, rfl⟩ := Sys.step_client hstep
    by_cases hd : d = c
    · subst hd
      exact .inr ⟨r, w, cl, hst, rfl, rfl, Function.update_self ..⟩
    · exact .inl (Function.update_of_ne (Ne.symm hd) _ _)

/-- Without submissions, an empty queue stays empty. -/
theorem Controlled.size_zero (h : Controlled c₀ before cur n s) (hb : Accounts cur n s.world)
    {cut : Option ℕ} (hacts : Acts cur n s.world s'.world none cut) {j : ℕ} (hj : j < n)
    (hs : (s.world.sch.pools j).size = 0) : (s'.world.sch.pools j).size = 0 := by
  have hd := (hacts.drained hb hj (by rw [h.static.lane hj]; exact hs)).1
  rwa [hacts.static.lane hj] at hd

end Controlled

end TaskSch
