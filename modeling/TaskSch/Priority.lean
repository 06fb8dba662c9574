/-
  Task scheduler formalization — the range of the scheduling key
  (`dheapPriority`, src/taskSch.c and src/sch.c).

  A submission adds 1000 to the key of its pool, and the worker overwrites it
  with the duration of a task or with zero.  Between two writes of the worker
  there are no more submissions than packages in the queue and in the hands of
  the worker, so the ring bounds the key.

  * `Lane.work_priority`: what a step of the worker does to the key;
  * `Lane.Bounded`: the invariant, by the packages since the last write;
  * `priority_bounded`: in every run, the addition does not overflow.
-/
import TaskSch.Slots

namespace TaskSch

open World

/-- The duration that a step measures, if it does, lies in `[-d, d]`. -/
def WorkerAct.Within (d : ℕ) : WorkerAct → Prop
  | .ret taskInvoke => -d ≤ taskInvoke ∧ taskInvoke ≤ d
  | _ => True

def SlotAct.Within (d : ℕ) : SlotAct → Prop
  | .submit _ _ _ => True
  | .work _ a => a.Within d

instance (d : ℕ) : (a : WorkerAct) → Decidable (a.Within d)
  | .ret _ => inferInstanceAs (Decidable (_ ∧ _))
  | .mask _ | .go | .sig _ => .isTrue trivial

instance (d : ℕ) : (a : SlotAct) → Decidable (a.Within d)
  | .submit _ _ _ => .isTrue trivial
  | .work _ a => inferInstanceAs (Decidable (a.Within d))

namespace Lane

variable {l l' : Lane} {d cap : ℕ}

/-- In a callback, the only step is its return. -/
theorem work_ret {slot : ℕ} {a : WorkerAct} (hpc : l.pc = .callback slot)
    (h : l.work a = some l') : ∃ v, a = .ret v ∧ l'.pool.dheapPriority = v := by
  cases a with
  | ret v =>
    simp only [work, hpc, Option.some.injEq] at h
    exact ⟨v, rfl, by rw [← h]⟩
  | _ => simp [work, hpc] at h

/-- **The key in a step of the worker**: it stays, and so does the number of
    packages in the queue and in the hands of the worker; or it becomes zero or
    the duration of the task. -/
theorem work_priority {a : WorkerAct} (h : l.work a = some l') (hb : l.Books) :
    l'.pool.reserved = l.pool.reserved ∧
      ((l'.pool.dheapPriority = l.pool.dheapPriority ∧
          l'.pool.size + l'.pc.inHand = l.pool.size + l.pc.inHand) ∨
        l'.pool.dheapPriority = 0 ∨ ∃ v, a = .ret v ∧ l'.pool.dheapPriority = v) := by
  cases work_cases h with
  | dequeue hpc hq =>
    have hs := hb.nonempty hpc
    obtain ⟨rfl, -⟩ := hb.dequeue hpc hq
    refine ⟨rfl, .inl ⟨rfl, ?_⟩⟩
    rw [hpc]
    simp only [SchTaskPool.popped, Pc.inHand, Pc.holds, Option.isSome_some, Option.isSome_none,
      if_true, Bool.false_eq_true, if_false]
    omega
  | ret hpc v => exact ⟨rfl, .inr (.inr (work_ret hpc h))⟩
  | idle hpc => exact ⟨rfl, .inr (.inl rfl)⟩
  | sync hpc | again hpc => exact ⟨rfl, .inl ⟨rfl, by rw [hpc]⟩⟩
  | mask hpc | maskFailed hpc | synced hpc | init hpc | some hpc | empty hpc | fetch hpc
  | unlock hpc | idleAgain hpc | done hpc | cont hpc | term hpc | wake hpc | finish hpc =>
    exact ⟨rfl, .inl ⟨rfl, by rw [hpc]; rfl⟩⟩

/-- The key is bounded by the packages that are queued or in the hands of the
    worker. -/
structure Bounded (d cap : ℕ) (l : Lane) : Prop where
  reserved : l.pool.reserved = cap
  lower : -d ≤ l.pool.dheapPriority
  upper : l.pool.dheapPriority ≤ d + 1000 * (l.pool.size + l.pc.inHand)

theorem Bounded.congr (h : l.Bounded d cap) (hpool : l'.pool = l.pool) (hpc : l'.pc = l.pc) :
    l'.Bounded d cap := by
  refine ⟨?_, ?_, ?_⟩
  · rw [hpool]; exact h.reserved
  · rw [hpool]; exact h.lower
  · rw [hpool, hpc]; exact h.upper

theorem Bounded.work {a : WorkerAct} (h : l.Bounded d cap) (hb : l.Books) (ha : a.Within d)
    (hw : l.work a = some l') : l'.Bounded d cap := by
  obtain ⟨hres, ⟨hprio, hsize⟩ | hprio | ⟨v, rfl, hprio⟩⟩ := work_priority hw hb
  · refine ⟨hres.trans h.reserved, hprio ▸ h.lower, ?_⟩
    have hupper := h.upper
    rw [hprio]
    omega
  · exact ⟨hres.trans h.reserved, by omega, by omega⟩
  · obtain ⟨hlo, hhi⟩ := ha
    exact ⟨hres.trans h.reserved, by omega, by omega⟩

theorem Bounded.submit {package : SchTaskPackage} (h : l.Bounded d cap) (hb : l.Books)
    (hs : l.step (.submit package) = some l') : l'.Bounded d cap := by
  obtain ⟨-, rfl⟩ := step_submit hb.ring hs
  have hlower := h.lower
  have hupper := h.upper
  refine ⟨h.reserved, ?_, ?_⟩
  · simp only [submitted, SchTaskPool.submitted]
    omega
  · simp only [submitted, SchTaskPool.submitted, SchTaskPool.pushed]
    omega

/-- The ring bounds the key. -/
theorem Bounded.le (h : l.Bounded d cap) (hb : l.Books) :
    l.pool.dheapPriority ≤ d + 1000 * (cap + 1) ∧
      (l.pool.size < cap → l.pool.dheapPriority + 1000 ≤ d + 1000 * (cap + 1)) := by
  have hupper := h.upper
  have hsize := h.reserved ▸ hb.ring.size_le
  have hhand : l.pc.inHand ≤ 1 := by
    unfold Pc.inHand
    split_ifs <;> omega
  constructor
  · omega
  · intro hroom
    omega

end Lane

/-! ## Runs -/

variable {n d cap : ℕ} {w w' : World}

structure PriorityInv (n d cap : ℕ) (w : World) : Prop where
  static : Static id n w
  books : Accounts id n w
  bounded : ∀ i < n, (w.lane i).Bounded d cap

/-- A submission keeps the bounds. -/
theorem PriorityInv.submit {package package' : Option SchTaskPackage} {pPool : Option ℕ}
    {kill : Errno} {status : SchErrCode} (h : PriorityInv n d cap w)
    (hsub : w.schSubmitTask package pPool kill = some (w', package', status)) :
    ∀ i < n, (w'.lane i).Bounded d cap := by
  obtain ⟨w₁, pkg, r, h1, h2⟩ := schSubmitTask_parts hsub
  obtain ⟨-, -, -, hother, hsub⟩ := h.static.submitEnqueue h1
  have hbounded : ∀ i < n, (w₁.lane i).Bounded d cap := by
    intro i hi
    by_cases hr : r = .ok i
    · obtain ⟨pkg, hstep⟩ := hsub i hr
      exact (h.bounded i hi).submit (h.books i hi) hstep
    · rw [show w₁.lane i = w.lane i from hother i hi hr]
      exact h.bounded i hi
  obtain rfl | ⟨thread, rfl⟩ := h2
  · exact hbounded
  · intro i hi
    -- the signal changes neither the pool nor where its worker is
    obtain ⟨hindex, hpc⟩ := raise_thread w₁ thread schSignalContinue kill i
    refine (hbounded i hi).congr ?_ hpc
    simp only [World.lane, hindex, raise_sch]

theorem PriorityInv.step {a : SlotAct} (h : PriorityInv n d cap w) (ha : a.Within d)
    (hstep : slotStep w a = some w') : PriorityInv n d cap w' := by
  have hacts := h.static.acts_slot hstep
  refine ⟨hacts.static, hacts.accounts h.books, ?_⟩
  cases a with
  | submit package pPool kill =>
    obtain ⟨package', status, hsub⟩ := slotStep_submit hstep
    exact h.submit hsub
  | work t a =>
    obtain ⟨i, -, -, -, hwork, hother, -⟩ := h.static.work hstep
    intro j hj
    by_cases hji : j = i
    · subst hji
      exact (h.bounded j hj).work (h.books j hj) ha hwork
    · rw [show w'.lane j = w.lane j from hother j hj hji]
      exact h.bounded j hj

theorem PriorityInv.fresh (self n : ℕ) (flag : Flag) (maxPackagesPool : UInt32)
    (slot : ℕ → ℕ → SchTaskPackage) (d : ℕ) :
    PriorityInv n d maxPackagesPool.toNat (World.fresh self n flag maxPackagesPool slot) := by
  obtain ⟨hstatic, hlanes⟩ := fresh_static (n := n) self flag maxPackagesPool slot
  refine ⟨hstatic, fresh_accounts self flag maxPackagesPool slot, ?_⟩
  intro i hi
  obtain ⟨m, s, pending, -, hlane⟩ := hlanes i hi
  rw [hlane]
  refine ⟨rfl, ?_, ?_⟩
  · simp [SchTaskPool.linked, SchTaskPool.create]
  · simp [SchTaskPool.linked, SchTaskPool.create, Pc.inHand, Pc.holds]

/-- **The scheduling key cannot overflow**: if all durations lie in `[-d, d]` and
    the greatest possible key fits a `long int`, the key of every pool stays in
    its bounds in every run, and 1000 can be added to it whenever the pool takes a
    package. -/
theorem priority_bounded (self n : ℕ) (flag : Flag) (maxPackagesPool : UInt32)
    (slot : ℕ → ℕ → SchTaskPackage) (d : ℕ)
    (hlong : (d : ℤ) + 1000 * (maxPackagesPool.toNat + 1) ≤ longMax) (as : List SlotAct) (w : World)
    (hrun : slotMachine.run (fresh self n flag maxPackagesPool slot) as = some w)
    (hwithin : ∀ a ∈ as, a.Within d) :
    ∀ i < n, (w.sch.pools i).reserved = maxPackagesPool.toNat ∧
      -d ≤ (w.sch.pools i).dheapPriority ∧
      (w.sch.pools i).dheapPriority ≤ d + 1000 * (maxPackagesPool.toNat + 1) ∧
      ((w.sch.pools i).size < (w.sch.pools i).reserved →
        (w.sch.pools i).dheapPriority + 1000 ≤ longMax) := by
  have hinv : PriorityInv n d maxPackagesPool.toNat w := by
    refine Machine.run_along_inv (G := fun _ a => a.Within d) (fun _ _ _ h ha hs => h.step ha hs)
      (Machine.along_of_forall _ fun a ha _ => hwithin a ha) hrun ?_
    exact PriorityInv.fresh self n flag maxPackagesPool slot d
  intro i hi
  have hbounded := hinv.bounded i hi
  obtain ⟨hle, hadd⟩ := hbounded.le (hinv.books i hi)
  have hlane := hinv.static.lane hi
  simp only [id] at hlane
  rw [hlane] at hbounded hle hadd
  refine ⟨hbounded.reserved, hbounded.lower, hle, ?_⟩
  intro hroom
  rw [show (w.sch.pools i).reserved = maxPackagesPool.toNat from hbounded.reserved] at hroom
  exact (hadd hroom).trans hlong

/-- A task of five nanoseconds, and a package more. -/
theorem priority_bounded_five : ∃ w : World,
    slotMachine.run (fresh 0 1 0 2 fun _ _ => .ofCallback 0)
      [.submit (some (.ofCallback 1)) none .zero, .work 0 (.mask .ok), .work 0 .go, .work 0 .go,
        .work 0 .go, .work 0 .go, .work 0 .go, .work 0 (.ret 5),
        .submit (some (.ofCallback 2)) none .zero] = some w ∧
      (w.sch.pools 0).dheapPriority ≤ 5 + 1000 * (2 + 1) := by
  obtain ⟨w, hw⟩ := Option.isSome_iff_exists.1 (show (slotMachine.run
    (fresh 0 1 0 2 fun _ _ => .ofCallback 0)
      [.submit (some (.ofCallback 1)) none .zero, .work 0 (.mask .ok), .work 0 .go, .work 0 .go,
        .work 0 .go, .work 0 .go, .work 0 .go, .work 0 (.ret 5),
        .submit (some (.ofCallback 2)) none .zero]).isSome by decide +kernel)
  exact ⟨w, hw, (priority_bounded 0 1 0 2 _ 5 (by decide) _ w hw (by decide) 0 (by decide)).2.2.1⟩

end TaskSch
