/-
  Task scheduler formalization — termination (`schTerminateTaskSch`).

  `terminate_drains`: when `schTerminateTaskSch` returns, every package that was
  accepted before has been run, and no worker is left, unless a package was
  overwritten in the hands of a worker.  It waits until it has found the queue
  of every pool empty, one after the other; without submissions an empty queue
  stays empty, and a worker only exits when it has no package in its hands.  The
  flags of the pools play no role in this.
-/
import TaskSch.Wait

namespace TaskSch

open World

variable {ι : Type} {c₀ : ι} {before : Prop} {cur : ℕ → ℕ} {n : ℕ} {s s' : Sys ι}

/-- Everything that was accepted is done, and nothing is left of the workers. -/
structure Drained (n : ℕ) (w : World) : Prop where
  empty : ∀ i < n, (w.sch.pools i).size = 0
  /-- the callback of every package was called, on its contents, ... -/
  ran : ∀ i < n, (w.log i).ran = (w.log i).accepted
  /-- ... and has returned -/
  returned : ∀ i < n, (w.log i).finished = (w.log i).taken
  done : ∀ i < n, (w.log i).finished = (w.log i).accepted.length
  gone : ∀ t, ¬ w.Live t
  links : ∀ i < n, (w.sch.pools i).thread = none ∧ (w.sch.pools i).mutex = none ∧
    (w.sch.pools i).set = none
  flag : ¬ hasBit w.sch.flag schFlagRunning

/-- The pools that the controller has passed in `schWaitTask` have empty
    queues. -/
def Draining (c₀ : ι) (n : ℕ) (s : Sys ι) : Prop :=
  (∃ i, (s.client c₀).scan = some (i, some .ret) ∧
    ∀ j < n, j < i → (s.world.sch.pools j).size = 0) ∨
  ((s.client c₀).joining ∨ (s.client c₀).isIdle ∧ ¬ hasBit s.world.sch.flag schFlagRunning) ∧
    ∀ j < n, (s.world.sch.pools j).size = 0

/-- A step of the controller itself. -/
theorem Draining.client (hd : Draining c₀ n s) (h : Controlled c₀ before cur n s)
    {r : Errno} (hst : Client.Steps s.world r (s.client c₀) s'.world (s'.client c₀))
    (hz : ∀ j < n, (s.world.sch.pools j).size = 0 → (s'.world.sch.pools j).size = 0) :
    Draining c₀ n s' := by
  have hctl := h.running (k := .ret)
  unfold Draining at hd ⊢
  generalize s'.world = w at hst hz ⊢
  generalize s'.client c₀ = cl at hst ⊢
  generalize hcl : s.client c₀ = cl₀ at hst hd hctl
  cases hst with
  | wake | noWake | raise =>
    rcases hd with ⟨i, hscan, -⟩ | ⟨hj | hj, -⟩
    · cases hscan
    · cases hj
    · cases hj.1
  | stay hscan hscan' =>
    rcases hd with ⟨i, hscan₁, hd⟩ | ⟨hj, -⟩
    · rw [hscan] at hscan₁
      cases hscan₁
      exact .inl ⟨_, hscan', fun j hj hji => hz j hj (hd j hj hji)⟩
    · cases cl₀ <;> simp [Client.joining, Client.isIdle, Client.scan] at hj hscan
  | notRunning hr =>
    rcases hd with ⟨i, hscan, -⟩ | ⟨hj | hj, -⟩
    · cases hscan
      exact absurd (hctl rfl).1 hr
    · cases hj
    · cases hj.1
  | @pass i k hsize =>
    rcases hd with ⟨i', hscan, hd⟩ | ⟨hj | hj, -⟩
    · cases hscan
      refine .inl ⟨i + 1, rfl, ?_⟩
      intro j hj hji
      by_cases hjeq : j = i
      · subst hjeq; exact hsize
      · exact hd j hj (by omega)
    · cases hj
    · cases hj.1
  | @waited i k hi =>
    rcases hd with ⟨i', hscan, hd⟩ | ⟨hj | hj, -⟩
    · cases hscan
      exact .inr ⟨.inl rfl, fun j hj => hd j hj (by rw [h.static.num] at hi; omega)⟩
    · cases hj
    · cases hj.1
  | sigTerm | skip | join | clear =>
    rcases hd with ⟨i, hscan, -⟩ | ⟨hj, hd⟩
    · cases hscan
    · exact .inr ⟨.inl rfl, fun j hj => hz j hj (hd j hj)⟩
  | @terminated x status k hx code =>
    obtain ⟨-, rfl⟩ := h.running (k := k) (by rw [hcl]; rfl)
    rcases hd with ⟨i, hscan, -⟩ | ⟨hj, hd⟩
    · cases hscan
    · exact .inr ⟨.inr ⟨rfl, not_running_cleared _⟩, fun j hj => hz j hj (hd j hj)⟩

theorem Draining.step [DecidableEq ι] (hd : Draining c₀ n s) (h : Controlled c₀ before cur n s)
    (hb : Accounts cur n s.world) {a : Act ι} (ha : a.Awaits c₀) (hstep : s.step a = some s') :
    Draining c₀ n s' := by
  obtain ⟨ht, -, hacc⟩ := ha.spec c₀ s
  obtain ⟨hacts, -⟩ := Sys.step_acts hstep ht h.static h.plain
  rw [hacc] at hacts
  have hz := fun j hj => h.size_zero hb hacts (j := j) hj
  rcases ha.client_eq hstep with hc | ⟨r, w, cl, hst, -, rfl, rfl⟩
  · unfold Draining at hd ⊢
    rw [hc]
    rcases hd with ⟨i, hscan, hd⟩ | ⟨hj, hd⟩
    · exact .inl ⟨i, hscan, fun j hj hji => hz j hj (hd j hj hji)⟩
    · refine .inr ⟨hj.imp id fun hj => ⟨hj.1, fun hr => hj.2 ?_⟩, fun j hj => hz j hj (hd j hj)⟩
      refine (h.leaves ht hstep hr ?_).1
      rw [hc]
      cases hcl : s.client c₀ <;> simp_all [Client.isIdle, Client.joining]
  · exact hd.client h hst hz

/-- When the controller is back, everything is done. -/
theorem Draining.drained (hd : Draining c₀ n s) (h : Recorded c₀ before cur n s)
    (hidle : (s.client c₀).isIdle) : Drained n s.world := by
  obtain ⟨hdown, hsize⟩ : ¬ hasBit s.world.sch.flag schFlagRunning ∧
      ∀ j < n, (s.world.sch.pools j).size = 0 := by
    rcases hd with ⟨i, hscan, -⟩ | ⟨hj | hj, hd⟩
    · cases hcl : s.client c₀ <;> simp_all [Client.isIdle, Client.scan]
    · cases hcl : s.client c₀ <;> simp_all [Client.isIdle, Client.joining]
    · exact ⟨hj.2, hd⟩
  obtain ⟨-, hoff⟩ := h.ctl.down hdown
  have hstatic := h.ctl.static
  have hbook : ∀ i < n, (s.world.log i).ran = (s.world.log i).accepted ∧
      (s.world.log i).finished = (s.world.log i).accepted.length ∧
      (s.world.log i).finished = (s.world.log i).taken := by
    intro i hi
    have hpc := (hoff i hi).1
    have hstill : (s.world.lane (cur i)).Still :=
      ⟨by rw [hstatic.lane hi]; exact hsize i hi, by rw [hpc]; rfl⟩
    have hdone := hstill.done (h.books i hi) (h.kept i hi)
    have htaken := (h.books i hi).taken
    rw [hstatic.lane hi] at hdone htaken hpc
    simp only at hpc hdone htaken
    rw [hpc] at htaken
    exact ⟨hdone.1, hdone.2, htaken.symm⟩
  refine ⟨hsize, fun i hi => (hbook i hi).1, fun i hi => (hbook i hi).2.2,
    fun i hi => (hbook i hi).2.1, ?_, ?_, hdown⟩
  · intro t ht
    by_cases hne : ∀ i < n, cur i ≠ t
    · exact ht (hstatic.exited t hne)
    · push Not at hne
      obtain ⟨i, hi, rfl⟩ := hne
      exact ht (hoff i hi).1
  · intro i hi
    obtain ⟨-, h1, h2, h3, -⟩ := hoff i hi
    rw [hstatic.lane hi] at h1 h2 h3
    exact ⟨h1, h2, h3⟩

/-- The wait, the signal, the exit of the worker and the clean-up of a termination
    of one idle pool. -/
def terminating : List (Act Unit) :=
  [.replicate 8 (.client () .zero), .replicate 3 (.worker 0 .go), [.worker 0 (.sig sigTerm)],
    [.worker 0 .go], .replicate 3 (.client () .zero)].flatten

end TaskSch
