/-
  Task scheduler formalization — where `schSubmitTask` puts its packages.

  Without a pool given by the caller, the package goes to a pool of least
  `dheapPriority`.  A submission adds 1000 to the priority; the worker overwrites
  it after each task by the time that the task took, and by 0 when it finds no
  task.  So the priority counts the packages of a pool as long as the workers do
  nothing, and says little about them otherwise.

  * `burst_even`: a burst of submissions is spread evenly over the pools;
  * `placement_full`: a submission fails only for want of room if the pools with
    room come before the full ones;
  * `placement_fails`: it fails if they come after the full ones.
-/
import TaskSch.Balance
import TaskSch.Submit

namespace TaskSch

open World

/-! ## A burst of submissions -/

/-- A call of `schSubmitTask` without a pool. -/
def SlotAct.place (c : SchTaskPackage × Errno) : SlotAct := .submit (some c.1) none c.2

/-- The call of `schSubmitTask` enqueues its package. -/
def Enqueues (w : World) : SlotAct → Prop
  | .submit package pPool kill => ∃ w' package' status p pkg,
      w.schSubmitTask package pPool kill = some (w', package', status) ∧ package = some pkg ∧
        Appended w w' p { pkg with index := (w.sch.pools p).index }
  | .work _ _ => True

/-- **A submission without a pool** goes to a pool of least priority: it fails if
    this pool is full, else it appends the package to it. -/
theorem place_outcome {w : World} (h : w.Arranged) {pkg : SchTaskPackage}
    (hadm : w.Admits (some pkg)) (kill : Errno) :
    ∃ p w' package' status, p < w.sch.num ∧ w.Chosen none p ∧
      w.schSubmitTask (some pkg) none kill = some (w', package', status) ∧
      w'.sch.order.Perm (List.range w.sch.num) ∧
      ((w.sch.pools p).reserved ≤ (w.sch.pools p).size ∧ status = .poolFull ∨
        (w.sch.pools p).size < (w.sch.pools p).reserved ∧ status ≠ .poolFull ∧
          Appended w w' p { pkg with index := (w.sch.pools p).index }) := by
  have hp : ∀ p ∈ (none : Option ℕ), p < w.sch.num := by
    rintro p ⟨⟩
  obtain ⟨p, w', package', status, -, hlt, hch, hcall, hperm, hout⟩ :=
    schSubmitTask_outcome h hp hadm kill
  refine ⟨p, w', package', status, hlt, hch, hcall, hperm, ?_⟩
  rcases hout with ⟨hfull, -, -, hst⟩ | ⟨hroom, pkg', rfl, -, happ, hst⟩
  · exact .inl ⟨hfull, hst⟩
  · refine .inr ⟨hroom, ?_, happ⟩
    rintro rfl
    simp only [wakeStatus] at hst
    split_ifs at hst

/-- After `k` submissions to `n` pools of capacity `cap`, and no step of a
    worker. -/
structure Burst (n cap k : ℕ) (w : World) : Prop where
  arranged : w.Arranged
  num : w.sch.num = n
  init : hasBit w.sch.flag schFlagInit
  running : hasBit w.sch.flag schFlagRunning
  reserved : ∀ p < n, (w.sch.pools p).reserved = cap
  prio : ∀ p < n, (w.sch.pools p).dheapPriority = 1000 * (w.sch.pools p).size
  even : Spread (Finset.range n) (fun p => (w.sch.pools p).size) k

namespace Burst
variable {n cap k : ℕ} {w : World} {pkg : SchTaskPackage}

/-- A pool of least priority has the fewest packages. -/
theorem least (h : Burst n cap k w) {p : ℕ} (hp : p < n) (hch : w.Chosen none p) :
    ∀ q ∈ Finset.range n, (w.sch.pools p).size ≤ (w.sch.pools q).size := by
  intro q hq
  have hq := Finset.mem_range.1 hq
  have hle := hch q (h.num ▸ hq)
  rw [h.prio p hp, h.prio q hq] at hle
  omega

/-- The priorities fit as long as no pool is overfull. -/
theorem long {size : ℕ} (hcap : cap < 2 ^ 32) (hle : size ≤ cap) :
    (1000 * size : ℤ) ≤ longMax := by
  simp only [longMax]
  omega

/-- A package more in a pool that has the fewest. -/
theorem appended {w' : World} (h : Burst n cap k w) {p : ℕ} (hp : p < n)
    (hleast : ∀ q ∈ Finset.range n, (w.sch.pools p).size ≤ (w.sch.pools q).size)
    (hroom : (w.sch.pools p).size < cap) (happ : Appended w w' p pkg)
    (hperm : w'.sch.order.Perm (List.range w.sch.num)) : Burst n cap (k + 1) w' := by
  have hnum : w'.sch.num = w.sch.num := by rw [happ.sch]
  have hflag : w'.sch.flag = w.sch.flag := by rw [happ.sch]
  have hsize : (w'.sch.pools p).size = (w.sch.pools p).size + 1 := by rw [happ.pool]; rfl
  have hcap : cap < 2 ^ 32 := h.reserved p hp ▸ h.arranged.reserved p (h.num.symm ▸ hp)
  have hres : ∀ q < n, (w'.sch.pools q).reserved = cap := by
    intro q hq
    by_cases hqp : q = p
    · subst hqp; rw [happ.pool]; exact h.reserved q hq
    · rw [happ.others q hqp]; exact h.reserved q hq
  have hprio : ∀ q < n, (w'.sch.pools q).dheapPriority = 1000 * (w'.sch.pools q).size := by
    intro q hq
    by_cases hqp : q = p
    · subst hqp
      rw [hsize, happ.pool, SchTaskPool.stored, h.prio q hq]
      push_cast
      ring
    · rw [happ.others q hqp]
      exact h.prio q hq
  have hlong : ∀ q < n, (w'.sch.pools q).dheapPriority ≤ longMax := by
    intro q hq
    by_cases hqp : q = p
    · rw [hqp, hprio p hp]
      exact long hcap (by omega)
    · rw [happ.others q hqp]
      exact h.arranged.prio q (h.num.symm ▸ hq)
  refine ⟨⟨hnum ▸ h.arranged.num, by rwa [hnum], ?_, ?_⟩, hnum.trans h.num, hflag ▸ h.init,
    hflag ▸ h.running, hres, hprio, ?_⟩
  · intro q hq
    exact hlong q (by rwa [hnum, h.num] at hq)
  · intro q hq
    rw [hres q (by rwa [hnum, h.num] at hq)]
    exact hcap
  · refine h.even.put (Finset.mem_range.2 hp) hleast hsize ?_
    intro q _ hqp
    simp only [happ.others q hqp]

/-- **One submission**: as long as there is room, it is accepted by a pool with
    the fewest packages. -/
theorem step (h : Burst n cap k w) (hk : k < n * cap) (hcb : pkg.callback ≠ none) (kill : Errno) :
    ∃ w', slotStep w (.place (pkg, kill)) = some w' ∧ Enqueues w (.place (pkg, kill)) ∧
      Burst n cap (k + 1) w' := by
  obtain ⟨p, w', package', status, hlt, hch, hcall, hperm, hout⟩ :=
    place_outcome h.arranged ⟨h.running, h.init, pkg, rfl, hcb⟩ kill
  have hpn : p < n := h.num ▸ hlt
  have hleast := h.least hpn hch
  have hroom : (w.sch.pools p).size < cap := h.even.room hleast (by rwa [Finset.card_range])
  rcases hout with ⟨hfull, -⟩ | ⟨-, -, happ⟩
  · rw [h.reserved p hpn] at hfull
    omega
  refine ⟨w', ?_, ⟨w', package', status, p, pkg, hcall, rfl, happ⟩, ?_⟩
  · simp only [SlotAct.place, slotStep, hcall, Option.map_some]
  · exact h.appended hpn hleast hroom happ hperm

theorem run (h : Burst n cap k w) {calls : List (SchTaskPackage × Errno)}
    (hcb : ∀ c ∈ calls, c.1.callback ≠ none) (hk : k + calls.length ≤ n * cap) :
    ∃ w', slotMachine.run w (calls.map .place) = some w' ∧
      slotMachine.Along Enqueues w (calls.map .place) ∧ Burst n cap (k + calls.length) w' := by
  induction calls generalizing k w with
  | nil => exact ⟨w, rfl, trivial, h⟩
  | cons c calls ih =>
    simp only [List.length_cons] at hk ⊢
    obtain ⟨w₁, hstep, henq, hburst⟩ :=
      h.step (by omega) (hcb c List.mem_cons_self) c.2
    obtain ⟨w', hrun, halong, hend⟩ :=
      ih hburst (fun d hd => hcb d (List.mem_cons_of_mem c hd)) (by omega)
    refine ⟨w', Machine.run_cons.2 ⟨w₁, hstep, hrun⟩, Machine.along_cons henq hstep halong, ?_⟩
    rwa [Nat.add_right_comm, Nat.add_assoc] at hend

/-- When all pools are full, a submission fails. -/
theorem full (h : Burst n cap (n * cap) w) (hcb : pkg.callback ≠ none) (kill : Errno) :
    ∃ w' package', w.schSubmitTask (some pkg) none kill = some (w', package', .poolFull) := by
  obtain ⟨p, w', package', status, hlt, -, hcall, -, hout⟩ :=
    place_outcome h.arranged ⟨h.running, h.init, pkg, rfl, hcb⟩ kill
  have hpn : p < n := h.num ▸ hlt
  have heven : Spread (Finset.range n) (fun p => (w.sch.pools p).size)
      ((Finset.range n).card * cap) := by
    rw [Finset.card_range]
    exact h.even
  have hfull := heven.full (Finset.mem_range.2 hpn)
  rcases hout with ⟨-, rfl⟩ | ⟨hs, -⟩
  · exact ⟨w', package', hcall⟩
  · rw [h.reserved p hpn] at hs
    omega

end Burst

/-- **A burst is spread evenly.**  From a running scheduler whose queues are
    empty and whose priorities are 0, up to `num * reserved` submissions without
    a pool are all enqueued, and each pool then has its share of them, rounded
    down or up; the next submission fails. -/
theorem burst_even (w : World) (cap : ℕ) (calls : List (SchTaskPackage × Errno))
    (harr : w.Arranged) (hinit : hasBit w.sch.flag schFlagInit)
    (hrunning : hasBit w.sch.flag schFlagRunning)
    (hempty : ∀ p < w.sch.num, (w.sch.pools p).size = 0)
    (hzero : ∀ p < w.sch.num, (w.sch.pools p).dheapPriority = 0)
    (hcap : ∀ p < w.sch.num, (w.sch.pools p).reserved = cap)
    (hcb : ∀ c ∈ calls, c.1.callback ≠ none) (hk : calls.length ≤ w.sch.num * cap) :
    ∃ w', slotMachine.run w (calls.map .place) = some w' ∧
      slotMachine.Along Enqueues w (calls.map .place) ∧
      (∀ p < w.sch.num,
        (w'.sch.pools p).queue.length = calls.length / w.sch.num ∨
        (w'.sch.pools p).queue.length = (calls.length + (w.sch.num - 1)) / w.sch.num) ∧
      (calls.length = w.sch.num * cap → ∀ pkg : SchTaskPackage, pkg.callback ≠ none →
        ∀ kill, ∃ w'' package',
          w'.schSubmitTask (some pkg) none kill = some (w'', package', .poolFull)) := by
  have hstart : Burst w.sch.num cap 0 w := by
    refine ⟨harr, rfl, hinit, hrunning, hcap, ?_, Spread.empty fun p hp => ?_⟩
    · intro p hp
      rw [hzero p hp, hempty p hp]
      rfl
    · exact hempty p (Finset.mem_range.1 hp)
  obtain ⟨w', hrun, halong, hend⟩ := hstart.run hcb (by rwa [Nat.zero_add])
  rw [Nat.zero_add] at hend
  refine ⟨w', hrun, halong, ?_, ?_⟩
  · intro p hp
    have hshare := hend.even.share (Finset.mem_range.2 hp)
    rw [Finset.card_range] at hshare
    simpa [SchTaskPool.queue] using hshare
  · intro hlen pkg hpkg kill
    rw [hlen] at hend
    exact hend.full hpkg kill

/-- Two packages for two pools. -/
theorem burst_even_two : ∃ w',
    slotMachine.run (fresh 0 2 0 1 fun _ _ => .ofCallback 0)
      ([(.ofCallback 1, .zero), (.ofCallback 2, .zero)].map .place) = some w' ∧
    (w'.sch.pools 0).queue.length = 1 ∧ (w'.sch.pools 1).queue.length = 1 := by
  obtain ⟨w', hrun, -, hshare, -⟩ := burst_even (fresh 0 2 0 1 fun _ _ => .ofCallback 0) 1
    [(.ofCallback 1, .zero), (.ofCallback 2, .zero)] (by decide +kernel) (by decide +kernel)
    (by decide +kernel) (by decide +kernel) (by decide +kernel) (by decide +kernel) (by decide)
    (by decide +kernel)
  refine ⟨w', hrun, ?_, ?_⟩
  · exact (hshare 0 (by decide +kernel)).elim id id
  · exact (hshare 1 (by decide +kernel)).elim id id

/-! ## Room that is not found -/

/-- If some pool has room, then a pool with room comes before all full ones. -/
def RoomFirst (w : World) : Prop :=
  (∃ p < w.sch.num, (w.sch.pools p).size < (w.sch.pools p).reserved) →
    ∃ p < w.sch.num, (w.sch.pools p).size < (w.sch.pools p).reserved ∧
      ∀ q < w.sch.num, (w.sch.pools q).reserved ≤ (w.sch.pools q).size →
        (w.sch.pools p).dheapPriority < (w.sch.pools q).dheapPriority

instance (w : World) : Decidable (RoomFirst w) := inferInstanceAs (Decidable (_ → _))

/-- What holds in every state of a run: `dheap` has all pools, and the rings are
    in order. -/
structure Placed (n : ℕ) (w : World) : Prop where
  static : Static id n w
  books : Accounts id n w
  order : w.sch.order.Perm (List.range n)

namespace Placed
variable {n : ℕ} {w w' : World}

theorem submit_order {package package' : Option SchTaskPackage} {pPool : Option ℕ} {kill : Errno}
    {status : SchErrCode} (h : w.schSubmitTask package pPool kill = some (w', package', status)) :
    w'.sch.order.Perm w.sch.order := by
  obtain ⟨w₁, pkg, r, h1, h2⟩ := schSubmitTask_parts h
  have hperm : w₁.sch.order.Perm w.sch.order := by
    obtain ⟨order, ho, ⟨e, -, -, rfl⟩ | ⟨p, _, _, _, -, -, -, rfl⟩⟩ := submitEnqueue_cases h1
    · exact ho
    · exact ho
  obtain rfl | ⟨thread, rfl⟩ := h2
  · exact hperm
  · rw [raise_sch]; exact hperm

theorem step {a : SlotAct} (h : Placed n w) (hstep : slotStep w a = some w') : Placed n w' := by
  have hacts := h.static.acts_slot hstep
  refine ⟨hacts.static, hacts.accounts h.books, ?_⟩
  cases a with
  | submit package pPool kill =>
    obtain ⟨package', status, hsub⟩ := slotStep_submit hstep
    exact (submit_order hsub).trans h.order
  | work t a =>
    have horder : w'.sch.order = w.sch.order := congrArg Prod.snd (work_heap hstep)
    exact horder ▸ h.order

theorem fresh (self : ℕ) (flag : Flag) (maxPackagesPool : UInt32)
    (slot : ℕ → ℕ → SchTaskPackage) : Placed n (fresh self n flag maxPackagesPool slot) := by
  refine ⟨(fresh_static self flag maxPackagesPool slot).1,
    fresh_accounts self flag maxPackagesPool slot, ?_⟩
  obtain ⟨w₁, w₂, hrun, hst, hra⟩ := run_ok
    (created_flag self n flag maxPackagesPool slot).1 (startOk_allOk _)
  simp only [World.fresh, hrun, setFlag, hra.sch]
  rw [hst.sch]
  exact .refl _

/-- The state is one for `schSubmitTask`, as long as the priorities fit. -/
theorem arranged (h : Placed n w) (hn : 1 ≤ n)
    (hlong : ∀ p < n, (w.sch.pools p).dheapPriority ≤ longMax) : w.Arranged := by
  have hnum := h.static.num
  refine ⟨hnum.symm ▸ hn, hnum.symm ▸ h.order, fun p hp => hlong p (hnum ▸ hp), ?_⟩
  intro p hp
  rw [hnum] at hp
  have hring := (h.books p hp).ring
  rw [h.static.lane hp] at hring
  exact hring.reserved_lt

end Placed

/-- **A submission without a pool fails only for want of room**, in every state
    of a run of submissions and steps of the workers in which a pool with room
    comes before all full ones. -/
theorem placement_full (self n : ℕ) (flag : Flag) (maxPackagesPool : UInt32)
    (slot : ℕ → ℕ → SchTaskPackage) (as : List SlotAct) (w : World)
    (package : Option SchTaskPackage) (kill : Errno) (hn : 1 ≤ n)
    (hrun : slotMachine.run (fresh self n flag maxPackagesPool slot) as = some w)
    (hlong : ∀ p < n, (w.sch.pools p).dheapPriority ≤ longMax) (hfirst : RoomFirst w) :
    ∃ w' package' status, w.schSubmitTask package none kill = some (w', package', status) ∧
      (status = .poolFull → ∀ p < n, (w.sch.pools p).reserved ≤ (w.sch.pools p).size) := by
  have hplaced : Placed n w :=
    Machine.run_inv (fun _ _ _ h hs => h.step hs) hrun (Placed.fresh self flag maxPackagesPool slot)
  have harr := hplaced.arranged hn hlong
  have hnum := hplaced.static.num
  by_cases hadm : w.Admits package
  · obtain ⟨pkg, rfl, -⟩ := hadm.callback
    obtain ⟨p, w', package', status, hlt, hch, hcall, -, hout⟩ := place_outcome harr hadm kill
    refine ⟨w', package', status, hcall, ?_⟩
    intro hst q hq
    rcases hout with ⟨hfull, -⟩ | ⟨-, hne, -⟩
    · by_contra hroom
      obtain ⟨r, hr, -, hless⟩ := hfirst ⟨q, hnum.symm ▸ hq, not_le.1 hroom⟩
      exact absurd (hch r hr) (not_le.2 (hless p hlt hfull))
    · exact absurd hst hne
  · obtain ⟨status, hst, hcall⟩ := schSubmitTask_refused hadm none kill
    refine ⟨w, package, status, hcall, ?_⟩
    rintro rfl
    rcases hst with hst | hst <;> cases hst

/-- After the first submission the pool 0 is full, and the pool 1 comes before it. -/
theorem placement_full_second : ∃ w w' package' status,
    slotMachine.run (fresh 0 2 0 1 fun _ _ => .ofCallback 0)
      [.submit (some (.ofCallback 1)) none .zero] = some w ∧
    (w.sch.pools 0).reserved ≤ (w.sch.pools 0).size ∧
    w.schSubmitTask (some (.ofCallback 2)) none .zero = some (w', package', status) ∧
    status ≠ .poolFull := by
  have hrun : (slotMachine.run (fresh 0 2 0 1 fun _ _ => .ofCallback 0)
      [.submit (some (.ofCallback 1)) none .zero]).map (fun w =>
        (decide w.Arranged, decide (RoomFirst w),
          decide ((w.sch.pools 0).reserved ≤ (w.sch.pools 0).size),
          decide ((w.sch.pools 1).reserved ≤ (w.sch.pools 1).size), w.sch.num)) =
      some (true, true, true, false, 2) := by decide +kernel
  obtain ⟨w, hw, he⟩ := Option.map_eq_some_iff.1 hrun
  simp only [Prod.mk.injEq, decide_eq_true_eq, decide_eq_false_iff_not] at he
  obtain ⟨harr, hfirst, hfull, hroom, hnum⟩ := he
  obtain ⟨w', package', status, hcall, hall⟩ := placement_full 0 2 0 1
    (fun _ _ => .ofCallback 0) _ w (some (.ofCallback 2)) .zero (by decide) hw
    (fun p hp => harr.prio p (hnum.symm ▸ hp)) hfirst
  refine ⟨w, w', package', status, hw, hfull, hcall, ?_⟩
  intro hst
  exact hroom (hall hst 1 (by decide))

/-- A submission fails if a full pool comes before all pools with room. -/
theorem placement_fails {w : World} (harr : w.Arranged) {pkg : SchTaskPackage}
    (hadm : w.Admits (some pkg)) (kill : Errno) {q : ℕ} (hq : q < w.sch.num)
    (hless : ∀ p < w.sch.num, (w.sch.pools p).size < (w.sch.pools p).reserved →
      (w.sch.pools q).dheapPriority < (w.sch.pools p).dheapPriority) :
    ∃ w' package', w.schSubmitTask (some pkg) none kill = some (w', package', .poolFull) := by
  obtain ⟨p, w', package', status, hlt, hch, hcall, -, hout⟩ := place_outcome harr hadm kill
  rcases hout with ⟨-, rfl⟩ | ⟨hs, -⟩
  · exact ⟨w', package', hcall⟩
  · exact absurd (hch q hq) (not_le.2 (hless p hlt hs))

/-- The worker of pool 1 finds no task; the worker of pool 0 takes the first
    package; the second package goes to pool 1, and then its worker sets the
    priority to 0.  The third package is refused by the full pool 1 although
    pool 0 is empty. -/
theorem room_not_found :
    ¬ ∀ (as : List SlotAct) (w w' : World) (package package' : Option SchTaskPackage)
      (kill : Errno),
      slotMachine.run (fresh 0 2 0 1 fun _ _ => .ofCallback 0) as = some w →
      w.schSubmitTask package none kill = some (w', package', .poolFull) →
      ∀ p < 2, (w.sch.pools p).reserved ≤ (w.sch.pools p).size := by
  intro h
  have hrun : (slotMachine.run (fresh 0 2 0 1 fun _ _ => .ofCallback 0)
      [.work 1 (.mask .ok), .work 1 .go, .work 1 .go, .work 1 .go,
        .submit (some (.ofCallback 1)) none .zero,
        .work 0 (.mask .ok), .work 0 .go, .work 0 .go, .work 0 .go, .work 0 .go,
        .submit (some (.ofCallback 2)) none .zero, .work 1 .go]).bind (fun w =>
          (w.schSubmitTask (some (.ofCallback 3)) none .zero).map fun r =>
            (r.2.2, (w.sch.pools 0).reserved, (w.sch.pools 0).size)) =
      some (.poolFull, 1, 0) := by decide +kernel
  obtain ⟨w, hw, hcall⟩ := Option.bind_eq_some_iff.1 hrun
  obtain ⟨⟨w', package', status⟩, hcall, he⟩ := Option.map_eq_some_iff.1 hcall
  simp only [Prod.mk.injEq] at he
  obtain ⟨rfl, hres, hsize⟩ := he
  have hle := h _ w w' _ package' .zero hw hcall 0 (by decide)
  rw [hres, hsize] at hle
  omega

end TaskSch
