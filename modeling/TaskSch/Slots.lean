/-
  Task scheduler formalization — the slot of a task that is being run.

  The worker dequeues a package by moving the head of the ring, and then runs
  the callback on a pointer into the slot.  The slot is free for the queue from
  the dequeue on, so a submission that fills the ring overwrites the package
  that the worker still uses.

  * `slotMachine`: whole calls of `schSubmitTask` between the steps of the
    workers;
  * `acceptedOk`: the packages for which `schSubmitTask` returned `SCH_OK`;
  * `slots_kept`: if no accepted submission fills the ring of a pool whose
    worker has a package in its hands, and no wake-up fails with a status that
    counts as zero, every pool runs these packages in order, none lost, none
    twice, and each on its own contents.
-/
import TaskSch.Lanes

namespace TaskSch

open World

/-- A whole call of `schSubmitTask`, where `pthread_kill` returns `kill`, or a
    step of the thread `t`. -/
inductive SlotAct where
  | submit (package : Option SchTaskPackage) (pPool : Option ℕ) (kill : Errno)
  | work (t : ℕ) (a : WorkerAct)

def slotStep (w : World) : SlotAct → Option World
  | .submit package pPool kill => (w.schSubmitTask package pPool kill).map (·.1)
  | .work t a => w.work t a

def slotMachine : Machine World SlotAct := ⟨slotStep⟩

/-- The pool that accepts a package in the step. -/
def SlotAct.acceptedBy (w : World) : SlotAct → Option ℕ
  | .submit package pPool _ => w.acceptedBy package pPool
  | .work _ _ => none

theorem slotStep_submit {w w' : World} {package : Option SchTaskPackage} {pPool : Option ℕ}
    {kill : Errno} (h : slotStep w (.submit package pPool kill) = some w') :
    ∃ package' status, w.schSubmitTask package pPool kill = some (w', package', status) := by
  simp only [slotStep, Option.map_eq_some_iff] at h
  obtain ⟨⟨w'', package', status⟩, hsub, rfl⟩ := h
  exact ⟨package', status, hsub⟩

theorem World.Static.acts_slot {n : ℕ} {w w' : World} {a : SlotAct} (hs : Static id n w)
    (h : slotStep w a = some w') : Acts id n w w' (a.acceptedBy w) none := by
  cases a with
  | submit package pPool kill =>
    obtain ⟨package', status, hsub⟩ := slotStep_submit h
    exact hs.acts_submit hsub
  | work t a => exact hs.acts_work h

/-! ## The packages accepted with `SCH_OK` -/

/-- The package that the pool `i` has accepted, if the call returns `SCH_OK`. -/
def SlotAct.okFor (w : World) (i : ℕ) : SlotAct → List SchTaskPackage
  | .submit package pPool kill =>
    match w.acceptedBy package pPool, w.schSubmitTask package pPool kill with
    | some p, some (_, some pkg, .ok) => if p = i then [pkg] else []
    | _, _ => []
  | .work _ _ => []

/-- The packages of the pool `i` for which `schSubmitTask` returned `SCH_OK`, in
    the order of the calls. -/
def acceptedOk (i : ℕ) : World → List SlotAct → List SchTaskPackage
  | _, [] => []
  | w, a :: as => a.okFor w i ++ match slotStep w a with
    | some w' => acceptedOk i w' as
    | none => []

/-- If the submission has to wake the worker, `pthread_kill` does not fail with
    an error that is mapped to zero. -/
def Delivers (w : World) (acc : Option ℕ) (kill : Errno) : Prop :=
  ∀ p ∈ acc, (w.sch.pools p).size = 0 → hasBit (w.sch.pools p).flag schPoolSleep →
    (pthreadErrorCode2SchErrorCode kill).toInt ≠ 0

instance (w : World) (acc : Option ℕ) (kill : Errno) : Decidable (Delivers w acc kill) :=
  inferInstanceAs (Decidable (∀ p ∈ acc, _))

/-- An enqueue adds the package that it returns to the log of its pool. -/
theorem submitEnqueue_log {w w' : World} {package package' : Option SchTaskPackage}
    {pPool : Option ℕ} {r : Except SchErrCode ℕ}
    (h : w.submitEnqueue package pPool = some (w', package', r)) :
    (∃ e, r = .error e ∧ w'.log = w.log) ∨
      ∃ p pkg pkg' pool, r = .ok p ∧ package' = some pkg' ∧
        (w.sch.pools p).submit pkg = some (.ok (pool, pkg')) ∧ w'.sch.pools p = pool ∧
        w'.log = Function.update w.log p
          { w.log p with accepted := (w.log p).accepted ++ [pkg'] } := by
  unfold World.submitEnqueue at h
  split_ifs at h
  · cases h; exact .inl ⟨_, rfl, rfl⟩
  cases package with
  | none => cases h; exact .inl ⟨_, rfl, rfl⟩
  | some pkg =>
    simp only at h
    split_ifs at h
    · cases h; exact .inl ⟨_, rfl, rfl⟩
    simp only [Option.bind_eq_some_iff, Option.map_eq_some_iff] at h
    obtain ⟨order, -, p, -, r', hr, h⟩ := h
    cases r' with
    | error e => cases h; exact .inl ⟨e, rfl, rfl⟩
    | ok r' =>
      obtain ⟨pool, pkg'⟩ := r'
      cases h
      exact .inr ⟨p, pkg, pkg', pool, rfl, rfl, hr, by simp [setPool, setLog], rfl⟩

/-- A call logs the package for which it returns `SCH_OK`, and no other if the
    worker can be woken. -/
theorem submit_okFor {w w' : World} {package package' : Option SchTaskPackage} {pPool : Option ℕ}
    {kill : Errno} {status : SchErrCode}
    (h : w.schSubmitTask package pPool kill = some (w', package', status))
    (hring : ∀ p ∈ w.acceptedBy package pPool, (w.sch.pools p).RingWf)
    (hkill : Delivers w (w.acceptedBy package pPool) kill) (i : ℕ) :
    (w'.log i).accepted =
      (w.log i).accepted ++ (SlotAct.submit package pPool kill).okFor w i := by
  have hcall := h
  simp only [World.schSubmitTask, Option.map_eq_some_iff] at h
  obtain ⟨⟨w₁, pkg₁, r⟩, h1, h2⟩ := h
  have hacc : w.acceptedBy package pPool = r.toOption := by
    simp only [World.acceptedBy, h1]
    cases r <;> rfl
  simp only [SlotAct.okFor, hcall]
  rw [hacc] at hring hkill ⊢
  rcases submitEnqueue_log h1 with
    ⟨e, rfl, hlog⟩ | ⟨p, pkg, pkg', pool, rfl, rfl, hsub, hpool, hlog⟩
  · cases h2
    simp [Except.toOption, hlog]
  · -- the pool has stored the package, so the status is that of the wake-up
    have hstatus : status = .ok ∧ w'.log = w₁.log ∧ package' = some pkg' := by
      have hr := hring p rfl
      have hs : (w.sch.pools p).size < (w.sch.pools p).reserved := by
        by_contra hfull
        rw [SchTaskPool.submit_full (Nat.le_of_not_lt hfull)] at hsub
        cases hsub
      rw [SchTaskPool.submit_eq hr hs] at hsub
      cases hsub
      simp only at h2
      split at h2
      next hwake =>
        cases h2
        rw [hpool] at hwake
        simp only [needsWake, SchTaskPool.submitted, SchTaskPool.pushed, Bool.and_eq_true] at hwake
        have hsize : (w.sch.pools p).size + 1 ≤ 1 := of_decide_eq_true hwake.1
        have hne := hkill p rfl (by omega) hwake.2
        exact ⟨if_neg hne, by obtain ⟨_, he, -⟩ := raise_eq w₁ _ _ kill; rw [he], rfl⟩
      next => cases h2; exact ⟨rfl, rfl, rfl⟩
    obtain ⟨rfl, hlog', rfl⟩ := hstatus
    rw [hlog', hlog]
    by_cases hi : i = p
    · subst hi; simp [Except.toOption]
    · simp [Except.toOption, hi, Ne.symm hi]

/-! ## The slots -/

/-- A submission that is accepted by a pool whose worker has a package in its
    hands leaves a slot free, and it does not fail to wake the worker. -/
def Spared (w : World) : SlotAct → Prop
  | .submit package pPool kill => RoomLeft Pc.holds id w (w.acceptedBy package pPool) ∧
    Delivers w (w.acceptedBy package pPool) kill
  | .work _ _ => True

instance (w : World) : (a : SlotAct) → Decidable (Spared w a)
  | .submit package pPool kill =>
    inferInstanceAs (Decidable (RoomLeft Pc.holds id w (w.acceptedBy package pPool) ∧
      Delivers w (w.acceptedBy package pPool) kill))
  | .work _ _ => .isTrue trivial

/-- The package whose slot the worker has, but whose callback it has not read. -/
def Lane.waiting (l : Lane) : List SchTaskPackage :=
  match l.pc with
  | .fetch s => [l.pool.slot s]
  | _ => []

/-- The worker of the lane runs the packages `accepted`. -/
structure Lane.InOrder (l : Lane) (accepted : List SchTaskPackage) : Prop where
  /-- from the dequeue until the callback returns, the slot holds the package -/
  slot : ∀ s, l.pc.holds = some s → accepted[l.log.taken - 1]? = some (l.pool.slot s)
  ran : l.log.ran <+: accepted
  /-- no package is lost -/
  all : accepted = l.log.ran ++ l.waiting ++ l.pool.queue

theorem needs_holds : Lane.Needs Pc.holds := ⟨id, fun _ => rfl⟩

theorem Lane.Kept.inOrder {l : Lane} (hb : l.Books) (hk : Kept Pc.holds l) :
    l.InOrder l.log.accepted := by
  refine ⟨hk.slot, ?_, ?_⟩
  · rw [hk.ran]; exact List.take_prefix _ _
  · have htaken := hb.taken
    have hsplit := List.take_append_drop l.log.taken l.log.accepted
    rw [← hb.queued] at hsplit
    rw [← hsplit, hk.ran, htaken]
    congr 1
    cases hpc : l.pc with
    | fetch s =>
      have hget := hk.slot s (by rw [hpc]; rfl)
      simp only [hpc, Pc.inHand, Pc.holds, Option.isSome_some, if_true] at htaken
      rw [htaken, Nat.add_sub_cancel] at hget
      simp [waiting, hpc, called, Pc.inHand, Pc.holds, List.take_add_one, hget]
    | _ => simp [waiting, hpc, called, Pc.inHand, Pc.holds]

/-- The accounts of all pools, and the slots in use keep their packages. -/
structure SlotInv (n : ℕ) (w : World) : Prop where
  static : Static id n w
  books : Accounts id n w
  kept : ∀ i < n, Lane.Kept Pc.holds (w.lane i)

theorem SlotInv.step {n : ℕ} {w w' : World} {a : SlotAct} (h : SlotInv n w) (hsp : Spared w a)
    (hstep : slotStep w a = some w') : SlotInv n w' := by
  have hacts := h.static.acts_slot hstep
  have hroom : RoomLeft Pc.holds id w (a.acceptedBy w) := by
    cases a with
    | submit => exact hsp.1
    | work => simp [RoomLeft, SlotAct.acceptedBy]
  exact ⟨hacts.static, hacts.accounts h.books,
    hacts.kept needs_holds h.static h.books hroom h.kept⟩

/-- A step logs what it accepts with `SCH_OK`. -/
theorem SlotInv.okFor {n : ℕ} {w w' : World} {a : SlotAct} (h : SlotInv n w) (hsp : Spared w a)
    (hstep : slotStep w a = some w') {i : ℕ} (hi : i < n) :
    (w'.lane i).log.accepted = (w.lane i).log.accepted ++ a.okFor w i := by
  have hstatic := (h.step hsp hstep).static
  have hlane := h.static.lane hi
  have hlane' := hstatic.lane hi
  simp only [id] at hlane hlane'
  rw [hlane, hlane']
  cases a with
  | submit package pPool kill =>
    obtain ⟨package', status, hsub⟩ := slotStep_submit hstep
    refine submit_okFor hsub ?_ hsp.2 i
    intro p hp
    obtain ⟨w₁, pkg, hacc⟩ : ∃ w₁ pkg, w.submitEnqueue package pPool = some (w₁, pkg, .ok p) := by
      simp only [World.acceptedBy] at hp
      split at hp
      next he => cases hp; exact ⟨_, _, he⟩
      next => cases hp
    have hpn := (h.static.submitEnqueue hacc).2.2.1 p rfl
    have hring := (h.books p hpn).ring
    have hl := h.static.lane hpn
    simp only [id] at hl hring
    rwa [hl] at hring
  | work t a =>
    have hacc := (h.static.acts_slot (a := .work t a) hstep).accepted hi
    simp only [id] at hacc
    rw [hlane, hlane'] at hacc
    simpa [SlotAct.okFor] using hacc

/-- A run logs what it accepts with `SCH_OK`. -/
theorem SlotInv.acceptedOk {n : ℕ} {w w' : World} {as : List SlotAct} (h : SlotInv n w)
    (hspared : slotMachine.Along Spared w as) (hrun : slotMachine.run w as = some w') {i : ℕ}
    (hi : i < n) :
    (w'.lane i).log.accepted = (w.lane i).log.accepted ++ TaskSch.acceptedOk i w as := by
  induction as generalizing w with
  | nil => cases hrun; simp [TaskSch.acceptedOk]
  | cons a as ih =>
    obtain ⟨w₁, h1, h2⟩ := Machine.run_cons.1 hrun
    have h1' : slotStep w a = some w₁ := h1
    have hstep := h.okFor hspared.1 h1 hi
    rw [ih (h.step hspared.1 h1) (hspared.2 w₁ h1) h2, hstep, TaskSch.acceptedOk, h1',
      List.append_assoc]

section Start

variable (self n : ℕ) (flag : Flag) (maxPackagesPool : UInt32) (slot : ℕ → ℕ → SchTaskPackage)

theorem SlotInv.fresh : SlotInv n (fresh self n flag maxPackagesPool slot) := by
  have hl := fresh_lanes (P := fun l => l.Books ∧ Lane.Kept Pc.holds l) (n := n)
    self flag maxPackagesPool slot (fun l l' hm h => ⟨hm.books h.1, hm.kept needs_holds h.1 h.2⟩)
    fun i t m s => ⟨Lane.start_books .., Lane.start_kept needs_holds ..⟩
  exact ⟨(fresh_static self flag maxPackagesPool slot).1, fun i hi => (hl i hi).1,
    fun i hi => (hl i hi).2⟩

theorem fresh_accepted {i : ℕ} (hi : i < n) :
    ((fresh self n flag maxPackagesPool slot).lane i).log.accepted = [] :=
  fresh_lanes (P := fun l => l.log.accepted = []) self flag maxPackagesPool slot
    (fun _ _ hm h => hm.accepted.trans h) (fun _ _ _ _ => rfl) i hi

/-- **Every pool runs what it has accepted** with `SCH_OK`, in order, if no
    accepted submission fills the ring of a pool whose worker has a package in
    its hands, and none fails to wake the worker. -/
theorem slots_kept (as : List SlotAct) (w : World)
    (hrun : slotMachine.run (fresh self n flag maxPackagesPool slot) as = some w)
    (hspared : slotMachine.Along Spared (fresh self n flag maxPackagesPool slot) as) :
    ∀ i < n, (w.lane i).InOrder
      (acceptedOk i (fresh self n flag maxPackagesPool slot) as) := by
  have hstart := SlotInv.fresh self n flag maxPackagesPool slot
  have hinv : SlotInv n w :=
    Machine.run_along_inv (fun _ _ _ h hsp hs => h.step hsp hs) hspared hrun hstart
  intro i hi
  have hacc := hstart.acceptedOk hspared hrun hi
  rw [fresh_accepted self n flag maxPackagesPool slot hi, List.nil_append] at hacc
  rw [← hacc]
  exact (hinv.kept i hi).inOrder (hinv.books i hi)

end Start

/-- A second package is queued while the first one runs. -/
def queuedBehind : List SlotAct :=
  [.submit (some (.ofCallback 1)) none .zero, .work 0 (.mask .ok), .work 0 .go, .work 0 .go,
    .work 0 .go, .work 0 .go, .submit (some (.ofCallback 2)) none .zero]

/-- With two slots, it is run after the first one. -/
theorem slots_kept_two : ∃ w : World,
    slotMachine.run (fresh 0 1 0 2 fun _ _ => .ofCallback 0)
      (queuedBehind ++ [.work 0 .go, .work 0 (.ret 5), .work 0 .go, .work 0 .go, .work 0 .go]) =
        some w ∧
      (w.lane 0).InOrder [.ofCallback 1, .ofCallback 2] ∧
      (w.log 0).ran = [.ofCallback 1, .ofCallback 2] := by
  have heval : (slotMachine.run (fresh 0 1 0 2 fun _ _ => .ofCallback 0)
      (queuedBehind ++ [.work 0 .go, .work 0 (.ret 5), .work 0 .go, .work 0 .go, .work 0 .go])).map
      (fun w => (w.log 0).ran) = some [.ofCallback 1, .ofCallback 2] := by decide +kernel
  obtain ⟨w, hw, hran⟩ := Option.map_eq_some_iff.1 heval
  have hkept := slots_kept 0 1 0 2 (fun _ _ => .ofCallback 0) _ w hw (by decide +kernel) 0
    (by decide)
  rw [show acceptedOk 0 (fresh 0 1 0 2 fun _ _ => .ofCallback 0) (queuedBehind ++
    [.work 0 .go, .work 0 (.ret 5), .work 0 .go, .work 0 .go, .work 0 .go]) =
      [.ofCallback 1, .ofCallback 2] by decide +kernel] at hkept
  exact ⟨w, hw, hkept, hran⟩

/-- With one slot, the second package overwrites the first before it is run. -/
theorem one_slot_overwritten :
    ¬ ∀ (as : List SlotAct) (w : World),
      slotMachine.run (fresh 0 1 0 1 fun _ _ => .ofCallback 0) as = some w →
        (w.lane 0).InOrder (acceptedOk 0 (fresh 0 1 0 1 fun _ _ => .ofCallback 0) as) := by
  intro h
  have hran : (slotMachine.run (fresh 0 1 0 1 fun _ _ => .ofCallback 0)
      (queuedBehind ++ [.work 0 .go])).map (fun w => (w.lane 0).log.ran) =
        some [.ofCallback 2] := by decide +kernel
  have haccepted : acceptedOk 0 (fresh 0 1 0 1 fun _ _ => .ofCallback 0)
      (queuedBehind ++ [.work 0 .go]) = [.ofCallback 1, .ofCallback 2] := by decide +kernel
  obtain ⟨w, hw, he⟩ := Option.map_eq_some_iff.1 hran
  have hprefix := (h _ w hw).ran
  rw [he, haccepted] at hprefix
  exact absurd hprefix (by decide)

end TaskSch
