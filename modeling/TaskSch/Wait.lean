/-
  Task scheduler formalization — waiting for the tasks (`schWaitTask`).

  `schWaitTask` passes a pool when it reads the flag `SCH_POOL_SLEEP` and then
  an empty queue.  A task that has been dequeued is no longer in the queue, and
  the flag does not tell that it is being run: the flag is toggled, not set, so
  it can be set while the worker is busy, and the worker can start on the last
  task between the two reads.

  `wait_sound`: all accepted tasks are done when `schWaitTask` returns `SCH_OK`,
  if it passes no pool whose worker has a task in its hands and no task is
  overwritten before its callback is read.
-/
import TaskSch.Lifecycle

namespace TaskSch

open World

variable {ι : Type} {c c₀ : ι} {before : Prop} {cur : ℕ → ℕ} {n : ℕ} {s s' : Sys ι}

/-! ## The conditions -/

/-- The slot whose callback the worker is about to read. -/
def Pc.unread : Pc → Option ℕ
  | .fetch slot => some slot
  | _ => none

theorem needs_unread : Lane.Needs Pc.unread :=
  ⟨fun {pc s} h => by cases pc <;> simp_all [Pc.unread, Pc.holds], fun _ => rfl⟩

/-- A submission that is accepted before the worker has read the callback that
    it dequeued leaves a slot free. -/
def Act.Spares (s : Sys ι) (a : Act ι) : Prop :=
  ∀ p ∈ s.accepts a, (Pc.unread (s.world.workerPc p)).isSome →
    (s.world.sch.pools p).size + 1 < (s.world.sch.pools p).reserved

instance (s : Sys ι) (a : Act ι) : Decidable (a.Spares s) :=
  inferInstanceAs (Decidable (∀ p ∈ s.accepts a, _))

/-- The pool whose size the client reads next. -/
def Client.reads : Client → Option ℕ
  | .readSize i _ => some i
  | _ => none

/-- When the client `c` finds the queue of a pool empty, the worker of the pool
    has no task in its hands. -/
def Act.PassesIdle (c : ι) (s : Sys ι) : Act ι → Prop
  | .client d _ => d = c → ∀ i ∈ (s.client c).reads, (s.world.sch.pools i).size = 0 →
    (s.world.workerPc i).holds = none
  | _ => True

instance [DecidableEq ι] (c : ι) (s : Sys ι) : (a : Act ι) → Decidable (a.PassesIdle c s)
  | .client d _ => inferInstanceAs (Decidable (d = c → ∀ i ∈ (s.client c).reads, _))
  | .worker _ _ | .call _ _ => .isTrue trivial

/-! ## The wait -/

/-- The pool is empty and its worker has no task. -/
def Lane.Still (l : Lane) : Prop := l.pool.size = 0 ∧ l.pc.holds = none

/-- The pools that the client `c` has passed in `schWaitTask` have no task. -/
def Waiting (c : ι) (cur : ℕ → ℕ) (n : ℕ) (s : Sys ι) : Prop :=
  (∃ i, (s.client c).scan = some (i, none) ∧ ∀ j < n, j < i → (s.world.lane (cur j)).Still) ∨
  ∃ ret, s.client c = .idle ret ∧ (ret = some .ok → ∀ j < n, (s.world.lane (cur j)).Still)

theorem accepts_lt (hs : Static cur n s.world) {a : Act ι} {p : ℕ} (h : p ∈ s.accepts a) :
    p < n := by
  cases a with
  | call d f =>
    cases f with
    | submit package pPool =>
      simp only [Sys.accepts, acceptedBy] at h
      split at h
      next he => cases h; exact (hs.submitEnqueue he).2.2.1 p rfl
      next => cases h
    | _ => cases h
  | worker _ _ | client _ _ => cases h

theorem Act.Spares.roomLeft {a : Act ι} (h : a.Spares s) (hc : Controlled c₀ before cur n s) :
    RoomLeft Pc.unread cur s.world (s.accepts a) := by
  intro p hp hh
  refine h p hp ?_
  rw [hc.workerPc (accepts_lt hc.static hp)]
  exact hh

/-- A step of the client `c` in `schWaitTask`. -/
theorem Waiting.client (hw : Waiting c cur n s) (h : Controlled c₀ before cur n s) {r : Errno}
    (hst : Client.Steps s.world r (s.client c) s'.world (s'.client c))
    (hpass : (Act.client c r).PassesIdle c s)
    (hz : ∀ j < n, (s.world.lane (cur j)).Still → (s'.world.lane (cur j)).Still) :
    Waiting c cur n s' := by
  have hnum := h.static.num
  rcases hw with ⟨i, hscan, hi⟩ | ⟨ret, hidle, -⟩
  swap
  · exact absurd (by rw [hidle]; rfl) hst.not_idle
  have hpass' := hpass rfl
  unfold Waiting
  generalize hcl' : s'.client c = cl at hst ⊢
  generalize hcl : s.client c = cl₀ at hst hscan hpass'
  generalize hw' : s'.world = w at hst hz ⊢
  cases hst with
  | wake | noWake | raise => cases hscan
  | sigTerm | skip | terminated | join | clear => cases hscan
  | stay h h' =>
    rw [h] at hscan; cases hscan
    exact .inl ⟨i, h', fun j hj hji => hz j hj (hi j hj hji)⟩
  | notRunning => cases hscan; exact .inr ⟨_, rfl, by simp⟩
  | @pass i' k hsize =>
    cases hscan
    refine .inl ⟨i + 1, rfl, fun j hj hji => hz j hj ?_⟩
    by_cases hjeq : j = i
    · subst hjeq
      refine ⟨by rw [h.static.lane hj]; exact hsize, ?_⟩
      rw [← h.workerPc hj]
      exact hpass' j rfl hsize
    · exact hi j hj (by omega)
  | waited hle =>
    cases hscan
    exact .inr ⟨_, rfl, fun _ j hj => hz j hj (hi j hj (by omega))⟩

theorem Waiting.step [DecidableEq ι] (hw : Waiting c cur n s) (h : Controlled c₀ before cur n s)
    (hb : Accounts cur n s.world) {a : Act ι} (ha : a.Awaits c) (hpass : a.PassesIdle c s)
    (hstep : s.step a = some s') : Waiting c cur n s' := by
  obtain ⟨ht, -, hacc⟩ := ha.spec c₀ s
  obtain ⟨hacts, -⟩ := Sys.step_acts hstep ht h.static h.plain
  rw [hacc] at hacts
  have hz : ∀ j < n, (s.world.lane (cur j)).Still → (s'.world.lane (cur j)).Still := fun j hj hs =>
    have hd := hacts.drained hb hj hs.1
    ⟨hd.1, hd.2 hs.2⟩
  rcases ha.client_eq hstep with hc | ⟨r, w, cl, hst, rfl, rfl, rfl⟩
  · unfold Waiting at hw ⊢
    rw [hc]
    rcases hw with ⟨i, hscan, hi⟩ | ⟨ret, hidle, hret⟩
    · exact .inl ⟨i, hscan, fun j hj hji => hz j hj (hi j hj hji)⟩
    · exact .inr ⟨ret, hidle, fun hok j hj => hz j hj (hret hok j hj)⟩
  · exact hw.client h hst hpass hz

/-- A pool without tasks has run all that it accepted. -/
theorem Lane.Still.done {l : Lane} (hs : l.Still) (hb : l.Books) (hk : Kept Pc.unread l) :
    l.log.ran = l.log.accepted ∧ l.log.finished = l.log.accepted.length := by
  obtain ⟨hsize, hpc⟩ := hs
  have hacc := hb.accepted_eq
  have hhand : l.pc.inHand = 0 := by simp [Pc.inHand, hpc]
  have hcalled : called l.pc = 0 := by cases h : l.pc <;> simp_all [called, Pc.holds]
  rw [hhand, hsize] at hacc
  refine ⟨?_, by omega⟩
  rw [hk.ran, hcalled, List.take_of_length_le (by omega)]

/-- The accounts of the pools, and the callbacks that were called so far. -/
structure Recorded (c₀ : ι) (before : Prop) (cur : ℕ → ℕ) (n : ℕ) (s : Sys ι) : Prop where
  ctl : Controlled c₀ before cur n s
  books : Accounts cur n s.world
  kept : ∀ i < n, Lane.Kept Pc.unread (s.world.lane (cur i))

/-- A step by the rules of the controller, where no package is overwritten. -/
theorem Recorded.step [DecidableEq ι] (h : Recorded c₀ before cur n s) {a : Act ι}
    (hby : a.ByController c₀ s) (hno : a.NoSecondStart s) (hsp : a.Spares s)
    (hstep : s.step a = some s') : ∃ before' cur', Recorded c₀ before' cur' n s' := by
  obtain ⟨before', cur', h1, h2, h3⟩ :=
    h.ctl.kept_step needs_unread h.books h.kept hby hno (hsp.roomLeft h.ctl) hstep
  exact ⟨before', cur', h1, h2, h3⟩

end TaskSch
