/-
  Task scheduler formalization — the world as a family of lanes.

  As long as `schRunTaskSch` is only called when no worker is left, each pool
  `i` has one thread `cur i` that works on it, and the other threads are gone
  (`Static`).  What the threads of the program do is then, for each pool, an
  event of its lane or nothing at all, so that what holds along the runs of a
  lane (`Executor`, `Ledger`) holds for all pools at once.
-/
import TaskSch.Start

namespace TaskSch

/-! ## Lanes that move -/

/-- A step of the worker or a signal for it. -/
def Event.Calm : Event → Prop
  | .work _ | .raise _ => True
  | .submit _ | .unlink | .clear => False

namespace Lane

variable {l l' : Lane}

/-- The lane takes steps of its worker and gets signals. -/
def Moves : Lane → Lane → Prop :=
  Relation.ReflTransGen fun l l' => ∃ e : Event, e.Calm ∧ l.step e = some l'

theorem Moves.refl (l : Lane) : l.Moves l := Relation.ReflTransGen.refl

theorem Moves.trans {l'' : Lane} (h : l.Moves l') (h' : l'.Moves l'') : l.Moves l'' :=
  Relation.ReflTransGen.trans h h'

theorem Moves.of_eq (h : l' = l) : l.Moves l' := h ▸ .refl l'

theorem Moves.work {a : WorkerAct} (h : l.work a = some l') : l.Moves l' :=
  .single ⟨.work a, trivial, h⟩

theorem Moves.raise (l : Lane) (signal : ℤ) :
    l.Moves { l with pending := insert signal l.pending } :=
  .single ⟨.raise signal, trivial, rfl⟩

theorem Moves.pending {pool : SchTaskPool} {pc : Pc} {log : Log} {pending : Finset ℤ} {signal : ℤ}
    (h : pending ⊆ {signal}) : Moves ⟨pool, pc, ∅, log⟩ ⟨pool, pc, pending, log⟩ := by
  rcases Finset.subset_singleton_iff.1 h with rfl | rfl
  · exact .refl _
  · exact .raise ⟨pool, pc, ∅, log⟩ signal

/-- What the steps of the worker and signals keep, moves keep. -/
theorem Moves.inv {P : Lane → Prop} (h : l.Moves l')
    (hstep : ∀ l l' (e : Event), e.Calm → l.step e = some l' → P l → P l') (hl : P l) : P l' := by
  induction h with
  | refl => exact hl
  | tail _ hs ih =>
    obtain ⟨e, he, hs⟩ := hs
    exact hstep _ _ e he hs ih

theorem Moves.books (h : l.Moves l') (hb : l.Books) : l'.Books :=
  h.inv (fun _ _ _ _ hs => step_books hs) hb

theorem Moves.kept {K : Pc → Option ℕ} (hK : Needs K) (h : l.Moves l') (hb : l.Books)
    (hk : Kept K l) : Kept K l' :=
  (h.inv (P := fun l => l.Books ∧ Kept K l) (fun _ _ _ he hs hl =>
    ⟨step_books hs hl.1, step_kept hK hs hl.1 hl.2 fun package hp => by subst hp; exact he.elim⟩)
    ⟨hb, hk⟩).2

theorem Moves.drained (h : l.Moves l') (hb : l.Books) (hs : l.pool.size = 0) :
    l'.pool.size = 0 ∧ (l.pc.holds = none → l'.pc.holds = none) := by
  refine (h.inv (P := fun l' => l'.Books ∧ l'.pool.size = 0 ∧
    (l.pc.holds = none → l'.pc.holds = none)) ?_ ⟨hb, hs, id⟩).2
  rintro l₁ l₂ e he hstep ⟨hb₁, hs₁, hh₁⟩
  refine ⟨step_books hstep hb₁, ?_⟩
  cases e with
  | work a =>
    obtain ⟨hs₂, hh₂⟩ := (work_cases hstep).drained hb₁ hs₁
    exact ⟨hs₂, fun hh => hh₂ (hh₁ hh)⟩
  | raise signal => cases hstep; exact ⟨hs₁, hh₁⟩
  | submit _ | unlink | clear => exact he.elim

theorem Moves.accepted (h : l.Moves l') : l'.log.accepted = l.log.accepted := by
  refine h.inv (P := fun l' => l'.log.accepted = l.log.accepted) ?_ rfl
  intro l₁ l₂ e he hstep hl
  cases e with
  | work a => cases work_cases hstep <;> exact hl
  | raise signal => cases hstep; exact hl
  | submit _ | unlink | clear => exact he.elim

/-- The thread, the scheduler's thread, the mutex and the signal set of a pool. -/
def links (l : Lane) : Option ℕ × Option ℕ × Ptr × Ptr :=
  (l.pool.thread, l.pool.schRefThread, l.pool.mutex, l.pool.set)

/-- A worker does not change them, ... -/
theorem Work.links (h : l.Work l') : l'.links = l.links := by
  cases h with
  | dequeue hpc hq =>
    obtain ⟨-, h1, h2, h3, h4⟩ := SchTaskPool.queue_frame hq
    simp only at h1 h2 h3 h4
    simp only [Lane.links, h1, h2, h3, h4]
  | _ => rfl

/-- ... and neither does a submission. -/
theorem submit_links {package : SchTaskPackage} (h : l.step (.submit package) = some l') :
    l'.links = l.links := by
  simp only [step, SchTaskPool.submit] at h
  split_ifs at h
  · cases h
  · simp only [Option.bind_map, Option.bind_eq_some_iff] at h
    obtain ⟨r, hr, h⟩ := h
    cases h
    obtain ⟨-, h1, h2, h3, h4⟩ := SchTaskPool.queue_frame hr
    simp [Lane.links, h1, h2, h3, h4]

/-- The links are the same, and a worker that has exited stays so. -/
def Settled (l l' : Lane) : Prop := l'.links = l.links ∧ (l.pc = .exited → l'.pc = .exited)

theorem submit_settled {package : SchTaskPackage} (h : l.step (.submit package) = some l') :
    l.Settled l' :=
  ⟨submit_links h, fun hpc => (submit_flag h).2.1.trans hpc⟩

theorem work_exited (h : l.pc = .exited) (a : WorkerAct) : l.work a = none := by
  cases a <;> simp [work, h]

theorem Moves.settled (h : l.Moves l') : l.Settled l' := by
  refine h.inv (P := fun l' => l.Settled l') ?_ ⟨rfl, id⟩
  intro l₁ l₂ e he hs hl
  cases e with
  | work a =>
    refine ⟨(work_cases hs).links.trans hl.1, ?_⟩
    intro hpc
    rw [show l₁.step (.work a) = l₁.work a from rfl, work_exited (hl.2 hpc)] at hs
    cases hs
  | raise signal => cases hs; exact hl
  | submit _ | unlink | clear => exact he.elim

end Lane

namespace World

variable {cur : ℕ → ℕ} {n : ℕ} {w w' : World} {os : RunOs}

/-- There are `n` pools, and only the thread `cur i` works on the pool `i`. -/
structure Static (cur : ℕ → ℕ) (n : ℕ) (w : World) : Prop where
  num : w.sch.num = n
  index : ∀ i < n, (w.threads (cur i)).index = i
  exited : ∀ t, (∀ i < n, cur i ≠ t) → (w.threads t).pc = .exited
  thread : ∀ i < n, ∀ t, (w.sch.pools i).thread = some t → t = cur i
  order : ∀ p ∈ w.sch.order, p < n

theorem Static.lane (h : Static cur n w) {i : ℕ} (hi : i < n) :
    w.lane (cur i) =
      ⟨w.sch.pools i, (w.threads (cur i)).pc, (w.threads (cur i)).pending, w.log i⟩ := by
  simp only [World.lane, h.index i hi]

theorem Static.cur_inj (h : Static cur n w) {i j : ℕ} (hi : i < n) (hj : j < n)
    (he : cur i = cur j) : i = j := by
  rw [← h.index i hi, ← h.index j hj, he]

/-- Worlds that agree on the pool, the thread and the log agree on the lane. -/
theorem lane_congr {i : ℕ} (ht : w'.threads i = w.threads i)
    (hp : w'.sch.pools (w.threads i).index = w.sch.pools (w.threads i).index)
    (hl : w'.log (w.threads i).index = w.log (w.threads i).index) : w'.lane i = w.lane i := by
  simp only [World.lane, ht, hp, hl]

/-! ## Steps of the workers -/

/-- What a step of the thread `t` does, apart from the signal that it may send
    to the thread that created the scheduler. -/
theorem work_eq {t : ℕ} {a : WorkerAct} (h : w.work t a = some w') :
    ∃ l inbox, (w.lane t).work a = some l ∧
      w' = { ((w.setPool (w.threads t).index l.pool).setThread t
        ⟨(w.threads t).index, l.pc, l.pending⟩).setLog (w.threads t).index l.log with
        inbox := inbox } := by
  simp only [work, Option.map_eq_some_iff] at h
  obtain ⟨l, hl, rfl⟩ := h
  split_ifs
  · exact ⟨l, _, hl, rfl⟩
  · exact ⟨l, _, hl, rfl⟩

/-- The number of pools, and `dheap`. -/
def heap (w : World) : ℕ × List ℕ := (w.sch.num, w.sch.order)

theorem work_heap {t : ℕ} {a : WorkerAct} (h : w.work t a = some w') : w'.heap = w.heap := by
  obtain ⟨l, inbox, -, rfl⟩ := work_eq h
  rfl

theorem raise_heap (w : World) (thread : Option ℕ) (signal : ℤ) (r : Errno) :
    (w.schRaiseThreadSignal thread signal r).1.heap = w.heap := by
  rw [heap, raise_sch]
  rfl

/-- A step of a worker is an event of its lane and leaves the others alone. -/
theorem Static.work {t : ℕ} {a : WorkerAct} (hs : Static cur n w) (h : w.work t a = some w') :
    ∃ i < n, t = cur i ∧ Static cur n w' ∧ (w.lane (cur i)).work a = some (w'.lane (cur i)) ∧
      (∀ j < n, j ≠ i → w'.lane (cur j) = w.lane (cur j)) ∧ w'.sch.flag = w.sch.flag := by
  obtain ⟨l, inbox, hl, rfl⟩ := work_eq h
  obtain ⟨i, hi, rfl⟩ : ∃ i < n, t = cur i := by
    by_contra ht
    push Not at ht
    rw [Lane.work_exited (hs.exited t fun i hi => (ht i hi).symm)] at hl
    cases hl
  have hidx := hs.index i hi
  have hlinks := (Lane.work_cases hl).links
  have hne : ∀ j < n, j ≠ i → cur j ≠ cur i := fun j hj hji h => hji (hs.cur_inj hj hi h)
  rw [hidx]
  refine ⟨i, hi, rfl, ⟨hs.num, ?_, ?_, ?_, hs.order⟩, ?_, ?_, rfl⟩
  · intro j hj
    by_cases hji : j = i
    · subst hji; simp [setPool, setThread, setLog]
    · simp only [setPool, setThread, setLog, Function.update_of_ne (hne j hj hji)]
      exact hs.index j hj
  · intro t ht
    simp only [setPool, setThread, setLog, Function.update_of_ne (ht i hi).symm]
    exact hs.exited t ht
  · intro j hj
    by_cases hji : j = i
    · subst hji
      have hth : l.pool.thread = (w.sch.pools j).thread := by
        have := congrArg Prod.fst hlinks
        rwa [hs.lane hj] at this
      simp only [setPool, setThread, setLog, Function.update_self, hth]
      exact hs.thread j hj
    · simp only [setPool, setThread, setLog, Function.update_of_ne hji]; exact hs.thread j hj
  · rw [hl]; simp [World.lane, setPool, setThread, setLog]
  · intro j hj hji
    refine lane_congr ?_ ?_ ?_
    · simp [setPool, setThread, setLog, hne j hj hji]
    · simp [setPool, setThread, setLog, hs.index j hj, hji]
    · simp [setPool, setThread, setLog, hs.index j hj, hji]

/-! ## Submissions and signals -/

/-- What the enqueue of `schSubmitTask` does: it permutes the heap, and stores
    the package in the pool if it succeeds. -/
theorem submitEnqueue_cases {package package' : Option SchTaskPackage} {pPool : Option ℕ}
    {r : Except SchErrCode ℕ} (h : w.submitEnqueue package pPool = some (w', package', r)) :
    ∃ order, order.Perm w.sch.order ∧
      ((∃ e, r = .error e ∧ e ≠ .ok ∧ w' = w.setOrder order) ∨
        ∃ p pkg pkg' pool, r = .ok p ∧ (p ∈ order ∨ p < w.sch.num) ∧
          (w.sch.pools p).submit pkg = some (.ok (pool, pkg')) ∧
          w' = ((w.setOrder order).setPool p pool).setLog p
            { w.log p with accepted := (w.log p).accepted ++ [pkg'] }) := by
  have hsame : w = w.setOrder w.sch.order := rfl
  unfold World.submitEnqueue at h
  split_ifs at h
  · cases h; exact ⟨_, .refl _, .inl ⟨_, rfl, by decide, hsame⟩⟩
  cases package with
  | none => cases h; exact ⟨_, .refl _, .inl ⟨_, rfl, by decide, hsame⟩⟩
  | some pkg =>
    simp only at h
    split_ifs at h
    · cases h; exact ⟨_, .refl _, .inl ⟨_, rfl, by decide, hsame⟩⟩
    simp only [Option.bind_eq_some_iff, Option.map_eq_some_iff] at h
    obtain ⟨order, ho, p, hp, r', hr, h⟩ := h
    refine ⟨order, schHeapify_perm _ _ ho, ?_⟩
    cases r' with
    | error e =>
      cases h
      refine .inl ⟨e, rfl, ?_, rfl⟩
      rw [(SchTaskPool.submit_error hr).1]
      decide
    | ok r' =>
      obtain ⟨pool, pkg'⟩ := r'
      cases h
      refine .inr ⟨p, pkg, pkg', pool, rfl, ?_, hr, rfl⟩
      cases pPool with
      | none => exact .inl (List.mem_of_getElem? hp)
      | some q =>
        simp only at hp
        split_ifs at hp with hq
        cases hp; exact .inr hq

/-- A whole call of `schSubmitTask` is the enqueue, and perhaps a signal. -/
theorem schSubmitTask_parts {package package' : Option SchTaskPackage} {pPool : Option ℕ}
    {kill : Errno} {status : SchErrCode}
    (h : w.schSubmitTask package pPool kill = some (w', package', status)) :
    ∃ w₁ pkg r, w.submitEnqueue package pPool = some (w₁, pkg, r) ∧
      (w' = w₁ ∨ ∃ thread, w' = (w₁.schRaiseThreadSignal thread schSignalContinue kill).1) := by
  simp only [World.schSubmitTask, Option.map_eq_some_iff] at h
  obtain ⟨⟨w₁, pkg, r⟩, h1, h2⟩ := h
  refine ⟨w₁, pkg, r, h1, ?_⟩
  cases r with
  | error e => cases h2; exact .inl rfl
  | ok p =>
    simp only at h2
    split at h2
    · cases h2; exact .inr ⟨_, rfl⟩
    · cases h2; exact .inl rfl

/-- An enqueue is a submission to one lane, or nothing happens. -/
theorem Static.submitEnqueue {package package' : Option SchTaskPackage} {pPool : Option ℕ}
    {r : Except SchErrCode ℕ} (hs : Static cur n w)
    (h : w.submitEnqueue package pPool = some (w', package', r)) :
    Static cur n w' ∧ w'.sch.flag = w.sch.flag ∧ (∀ p, r = .ok p → p < n) ∧
      (∀ i < n, r ≠ .ok i → w'.lane (cur i) = w.lane (cur i)) ∧
      ∀ p, r = .ok p → ∃ pkg, (w.lane (cur p)).step (.submit pkg) = some (w'.lane (cur p)) := by
  obtain ⟨order, ho, h⟩ := submitEnqueue_cases h
  have hord : ∀ q ∈ order, q < n := fun q hq => hs.order q (ho.mem_iff.1 hq)
  obtain ⟨e, rfl, -, rfl⟩ | ⟨p, pkg, pkg', pool, rfl, hp, hsub, rfl⟩ := h
  · exact ⟨⟨hs.num, hs.index, hs.exited, hs.thread, hord⟩, rfl, by simp,
      fun _ _ _ => rfl, by simp⟩
  have hpn : p < n := hp.elim (hord p) (hs.num ▸ ·)
  have hstep : (w.lane (cur p)).step (.submit pkg) = some (World.lane (((w.setOrder order).setPool p
      pool).setLog p { w.log p with accepted := (w.log p).accepted ++ [pkg'] }) (cur p)) := by
    rw [hs.lane hpn]
    simp [Lane.step, hsub, World.lane, setPool, setLog, setOrder, hs.index p hpn]
  have hlinks := Lane.submit_links hstep
  refine ⟨⟨hs.num, hs.index, hs.exited, ?_, hord⟩, rfl, ?_, ?_, ?_⟩
  · intro i hi
    by_cases hip : i = p
    · subst hip
      have := congrArg Prod.fst hlinks
      simp only [Lane.links, World.lane, setPool, setLog, setOrder, hs.index i hi,
        Function.update_self] at this
      simp only [setPool, setLog, setOrder, Function.update_self, this]
      exact hs.thread i hi
    · simp only [setPool, setLog, setOrder, Function.update_of_ne hip]; exact hs.thread i hi
  · rintro q ⟨⟩
    exact hpn
  · intro i hi hne
    have hip : i ≠ p := fun h => hne (by rw [h])
    refine lane_congr rfl ?_ ?_
    · simp [setPool, setLog, setOrder, hs.index i hi, hip]
    · simp [setPool, setLog, setOrder, hs.index i hi, hip]
  · rintro q ⟨⟩
    exact ⟨pkg, hstep⟩

/-- Signals that get pending for some threads move only their lanes. -/
theorem Static.pending (hs : Static cur n w) {threads : ℕ → Thread} {signal : ℤ}
    (h : ∀ t, threads t = w.threads t ∨
      threads t = { w.threads t with pending := insert signal (w.threads t).pending }) :
    Static cur n { w with threads := threads } ∧
      ∀ i < n, (w.lane (cur i)).Moves (World.lane { w with threads := threads } (cur i)) := by
  have hsame : ∀ t, (threads t).index = (w.threads t).index ∧
      (threads t).pc = (w.threads t).pc := by
    intro t
    rcases h t with ht | ht <;> rw [ht] <;> exact ⟨rfl, rfl⟩
  refine ⟨⟨hs.num, fun i hi => (hsame _).1.trans (hs.index i hi),
    fun t ht => (hsame t).2.trans (hs.exited t ht), hs.thread, hs.order⟩, ?_⟩
  intro i hi
  rcases h (cur i) with ht | ht
  · exact .of_eq (lane_congr ht rfl rfl)
  · have hlane : World.lane { w with threads := threads } (cur i) =
        { w.lane (cur i) with pending := insert signal (w.lane (cur i)).pending } := by
      simp only [World.lane, ht]
    rw [hlane]
    exact .raise _ _

/-- A signal is raised for one worker at most. -/
theorem Static.raise (hs : Static cur n w) (thread : Option ℕ) (signal : ℤ) (r : Errno) :
    Static cur n (w.schRaiseThreadSignal thread signal r).1 ∧
      (∀ i < n, (w.lane (cur i)).Moves ((w.schRaiseThreadSignal thread signal r).1.lane (cur i))) ∧
      (w.schRaiseThreadSignal thread signal r).1.sch = w.sch := by
  obtain ⟨threads, he, hthread⟩ := raise_eq w thread signal r
  obtain ⟨hstatic, hmoves⟩ := hs.pending hthread
  rw [he]
  exact ⟨hstatic, hmoves, rfl⟩

theorem Static.raised (hs : Static cur n w) (h : Raised w w') :
    Static cur n w' ∧ ∀ i < n, (w.lane (cur i)).Moves (w'.lane (cur i)) := by
  obtain ⟨sch, mem, threads, nthread, log, inbox⟩ := w'
  obtain ⟨rfl, rfl, rfl, rfl, rfl, hthread⟩ := h
  exact hs.pending hthread

/-! ## Steps as events of the lanes -/

/-- For each lane, the step from `w` to `w'` is a move.  The pool `acc` gets a
    package before, and the links of the pool `cut` are changed. -/
structure Acts (cur : ℕ → ℕ) (n : ℕ) (w w' : World) (acc cut : Option ℕ) : Prop where
  static : Static cur n w'
  lane : ∀ i < n, (w.lane (cur i)).Moves (w'.lane (cur i)) ∨
    (acc = some i ∧ ∃ pkg l, (w.lane (cur i)).step (.submit pkg) = some l ∧
      l.Moves (w'.lane (cur i))) ∨
    (cut = some i ∧ ((w.lane (cur i)).step .unlink = some (w'.lane (cur i)) ∨
      (w.lane (cur i)).step .clear = some (w'.lane (cur i))))

theorem Static.acts_moves (hs : Static cur n w')
    (h : ∀ i < n, (w.lane (cur i)).Moves (w'.lane (cur i))) : Acts cur n w w' none none :=
  ⟨hs, fun i hi => .inl (h i hi)⟩

theorem Static.acts_work {t : ℕ} {a : WorkerAct} (hs : Static cur n w)
    (h : w.work t a = some w') : Acts cur n w w' none none := by
  obtain ⟨i, -, -, hs', hwork, hother, -⟩ := hs.work h
  refine hs'.acts_moves ?_
  intro j hj
  by_cases hji : j = i
  · subst hji; exact .work hwork
  · exact .of_eq (hother j hj hji)

theorem Static.acts_enqueue {package package' : Option SchTaskPackage} {pPool : Option ℕ}
    {r : Except SchErrCode ℕ} (hs : Static cur n w)
    (h : w.submitEnqueue package pPool = some (w', package', r)) :
    Acts cur n w w' (w.acceptedBy package pPool) none := by
  obtain ⟨hs', -, -, hother, hsub⟩ := hs.submitEnqueue h
  refine ⟨hs', ?_⟩
  intro i hi
  by_cases hr : r = .ok i
  · subst hr
    obtain ⟨pkg, hstep⟩ := hsub i rfl
    exact .inr (.inl ⟨by simp [acceptedBy, h], pkg, _, hstep, .refl _⟩)
  · exact .inl (.of_eq (hother i hi hr))

/-- In a whole call of `schSubmitTask`, a worker may get a signal after the
    enqueue. -/
theorem Static.acts_submit {package package' : Option SchTaskPackage} {pPool : Option ℕ}
    {kill : Errno} {status : SchErrCode} (hs : Static cur n w)
    (h : w.schSubmitTask package pPool kill = some (w', package', status)) :
    Acts cur n w w' (w.acceptedBy package pPool) none := by
  obtain ⟨w₁, pkg, r, h1, rfl | ⟨thread, rfl⟩⟩ := schSubmitTask_parts h
  · exact hs.acts_enqueue h1
  · have hacts := hs.acts_enqueue h1
    obtain ⟨h3, h4, -⟩ := hacts.static.raise thread schSignalContinue kill
    refine ⟨h3, ?_⟩
    intro i hi
    rcases hacts.lane i hi with h | ⟨hacc, pkg, l, h1, h2⟩ | ⟨h, -⟩
    · exact .inl (h.trans (h4 i hi))
    · exact .inr (.inl ⟨hacc, pkg, l, h1, h2.trans (h4 i hi)⟩)
    · cases h

/-- Only the pool `cut` loses its links. -/
theorem Acts.settled {acc cut : Option ℕ} (h : Acts cur n w w' acc cut) {i : ℕ} (hi : i < n)
    (hcut : cut ≠ some i) : (w.lane (cur i)).Settled (w'.lane (cur i)) := by
  rcases h.lane i hi with h | ⟨-, pkg, l, h1, h2⟩ | ⟨h, -⟩
  · exact h.settled
  · have h1 := Lane.submit_settled h1
    have h2 := h2.settled
    exact ⟨h2.1.trans h1.1, fun hpc => h2.2 (h1.2 hpc)⟩
  · exact absurd h hcut

/-- The accounts of all pools. -/
def Accounts (cur : ℕ → ℕ) (n : ℕ) (w : World) : Prop := ∀ i < n, (w.lane (cur i)).Books

theorem Acts.accounts {acc cut : Option ℕ} (h : Acts cur n w w' acc cut)
    (hb : Accounts cur n w) : Accounts cur n w' := by
  intro i hi
  rcases h.lane i hi with h | ⟨-, pkg, l, h1, h2⟩ | ⟨-, h | h⟩
  · exact h.books (hb i hi)
  · exact h2.books (Lane.step_books h1 (hb i hi))
  · exact Lane.step_books h (hb i hi)
  · exact Lane.step_books h (hb i hi)

/-- Without a submission, an empty queue stays empty, and a worker without a
    package gets none. -/
theorem Acts.drained {cut : Option ℕ} (h : Acts cur n w w' none cut) (hb : Accounts cur n w) {i : ℕ}
    (hi : i < n) (hs : (w.lane (cur i)).pool.size = 0) :
    (w'.lane (cur i)).pool.size = 0 ∧
      ((w.lane (cur i)).pc.holds = none → (w'.lane (cur i)).pc.holds = none) := by
  rcases h.lane i hi with h | ⟨h, -⟩ | ⟨-, h | h⟩
  · exact h.drained (hb i hi) hs
  · cases h
  · rw [← Option.some.inj h]; exact ⟨hs, id⟩
  · rw [← Option.some.inj h]; exact ⟨hs, id⟩

/-- Without a submission, no package is accepted. -/
theorem Acts.accepted {cut : Option ℕ} (h : Acts cur n w w' none cut) {i : ℕ} (hi : i < n) :
    (w'.lane (cur i)).log.accepted = (w.lane (cur i)).log.accepted := by
  rcases h.lane i hi with h | ⟨h, -⟩ | ⟨-, h | h⟩
  · exact h.accepted
  · cases h
  · rw [← Option.some.inj h]
  · rw [← Option.some.inj h]

/-- A package that is accepted leaves a slot free if the worker still needs the
    slot that it dequeued last. -/
def RoomLeft (K : Pc → Option ℕ) (cur : ℕ → ℕ) (w : World) (acc : Option ℕ) : Prop :=
  ∀ p ∈ acc, (K (w.threads (cur p)).pc).isSome →
    (w.sch.pools p).size + 1 < (w.sch.pools p).reserved

instance (K : Pc → Option ℕ) (cur : ℕ → ℕ) (w : World) (acc : Option ℕ) :
    Decidable (RoomLeft K cur w acc) :=
  inferInstanceAs (Decidable (∀ p ∈ acc, _))

theorem Acts.kept {K : Pc → Option ℕ} (hK : Lane.Needs K) {acc cut : Option ℕ}
    (h : Acts cur n w w' acc cut) (hs : Static cur n w) (hb : Accounts cur n w)
    (hroom : RoomLeft K cur w acc) (hk : ∀ i < n, Lane.Kept K (w.lane (cur i))) :
    ∀ i < n, Lane.Kept K (w'.lane (cur i)) := by
  intro i hi
  rcases h.lane i hi with h | ⟨rfl, pkg, l, h1, h2⟩ | ⟨-, h | h⟩
  · exact h.kept hK (hb i hi) (hk i hi)
  · refine h2.kept hK (Lane.step_books h1 (hb i hi)) (Lane.step_kept hK h1 (hb i hi) (hk i hi) ?_)
    intro _ _ hh
    rw [hs.lane hi] at hh ⊢
    exact hroom i rfl hh
  · exact Lane.step_kept hK h (hb i hi) (hk i hi) fun _ hp => by cases hp
  · exact Lane.step_kept hK h (hb i hi) (hk i hi) fun _ hp => by cases hp

/-! ## Starting the lanes -/

/-- A start that succeeds while no thread is live: each pool gets a new thread
    and keeps its log. -/
theorem run_static (hinit : hasBit w.sch.flag schFlagInit) (hok : StartOk os w)
    (hexit : ∀ t, (w.threads t).pc = .exited) (hord : ∀ p ∈ w.sch.order, p < w.sch.num)
    (h : (schRunTaskSch os w).1 = w') :
    Static (w.nthread + ·) w.sch.num w' ∧ w'.sch.flag = w.sch.flag ||| schFlagRunning ∧
      ∀ i < w.sch.num, ∃ m s pending, pending ⊆ {schSignalContinue} ∧ w'.lane (w.nthread + i) =
        ⟨(w.sch.pools i).linked (w.nthread + i) m s, .mask, pending, w.log i⟩ := by
  obtain ⟨w₁, w₂, hrun, hst, hra⟩ := run_ok hinit hok
  rw [hrun] at h
  have hpool : ∀ i < w.sch.num, ∃ m s,
      w₁.sch.pools i = (w.sch.pools i).linked (w.nthread + i) m s := by
    intro i hi
    simpa only [Nat.zero_add] using hst.pool i hi
  have hthread : ∀ i < w.sch.num, w₁.threads (w.nthread + i) = ⟨i, .mask, ∅⟩ := by
    intro i hi
    simpa only [Nat.zero_add] using hst.thread i hi
  have hs₁ : Static (w.nthread + ·) w.sch.num w₁ := by
    refine ⟨by rw [hst.sch], fun i hi => by rw [hthread i hi], ?_, ?_, by rw [hst.sch]; exact hord⟩
    · intro t ht
      rw [hst.old t, hexit]
      by_contra h
      exact ht (t - w.nthread) (by omega) (by omega)
    · intro i hi t ht
      obtain ⟨m, s, hp⟩ := hpool i hi
      rw [hp] at ht
      exact (Option.some.inj ht).symm
  obtain ⟨hs₂, -⟩ := hs₁.raised hra
  subst h
  refine ⟨⟨hs₂.num, hs₂.index, hs₂.exited, hs₂.thread, hs₂.order⟩, ?_, ?_⟩
  · simp only [setFlag]; rw [hra.sch, hst.sch]
  · intro i hi
    obtain ⟨m, s, hp⟩ := hpool i hi
    have hlane : w₂.lane (w.nthread + i) = ⟨(w.sch.pools i).linked (w.nthread + i) m s, .mask,
        (w₂.threads (w.nthread + i)).pending, w.log i⟩ := by
      rw [hs₂.lane hi, hra.sch, hra.log, hst.log, hp]
      rcases hra.thread (w.nthread + i) with ht | ht <;> rw [ht, hthread i hi]
    refine ⟨m, s, _, ?_, hlane⟩
    rcases hra.thread (w.nthread + i) with ht | ht <;> rw [ht, hthread i hi] <;> simp

section Fresh

variable (self : ℕ) (flag : Flag) (maxPackagesPool : UInt32) (slot : ℕ → ℕ → SchTaskPackage)

/-- The lanes after the first `schRunTaskSch`. -/
theorem fresh_static :
    Static id n (fresh self n flag maxPackagesPool slot) ∧
      ∀ i < n, ∃ m s pending, pending ⊆ {schSignalContinue} ∧
        (fresh self n flag maxPackagesPool slot).lane i =
          ⟨(SchTaskPool.create self i maxPackagesPool (some (7 + i)) (slot i)).linked i m s, .mask,
            pending, .empty⟩ := by
  have hinit := (created_flag self n flag maxPackagesPool slot).1
  have hrun : (schRunTaskSch .allOk (created self n flag maxPackagesPool slot)).1 =
      fresh self n flag maxPackagesPool slot := rfl
  obtain ⟨hs, -, hl⟩ := run_static hinit (startOk_allOk _) (fun _ => rfl)
    (fun p hp => List.mem_range.1 hp) hrun
  have hcur : (((created self n flag maxPackagesPool slot).nthread + ·) : ℕ → ℕ) = id :=
    funext Nat.zero_add
  rw [hcur] at hs
  refine ⟨hs, ?_⟩
  intro i hi
  obtain ⟨m, s, pending, hsub, hlane⟩ := hl i hi
  rw [show (created self n flag maxPackagesPool slot).nthread + i = i from Nat.zero_add i] at hlane
  exact ⟨m, s, pending, hsub, hlane⟩

theorem fresh_pool {i : ℕ} (hi : i < n) :
    (∃ m s, (fresh self n flag maxPackagesPool slot).sch.pools i =
      (SchTaskPool.create self i maxPackagesPool (some (7 + i)) (slot i)).linked i m s) ∧
    ((fresh self n flag maxPackagesPool slot).threads i).pc = .mask := by
  obtain ⟨hs, hlanes⟩ := fresh_static (n := n) self flag maxPackagesPool slot
  obtain ⟨m, s, pending, -, hlane⟩ := hlanes i hi
  have hl := hs.lane hi
  simp only [id] at hl
  rw [hl] at hlane
  injection hlane with hpool hpc _ _
  exact ⟨⟨m, s, hpool⟩, hpc⟩

/-- A property of lanes that holds at the start and that moves keep holds for
    all lanes after the first `schRunTaskSch`. -/
theorem fresh_lanes {P : Lane → Prop} (hmove : ∀ l l', l.Moves l' → P l → P l')
    (hstart : ∀ i t m s,
      P (.start (.create self i maxPackagesPool (some (7 + i)) (slot i)) t m s)) :
    ∀ i < n, P ((fresh self n flag maxPackagesPool slot).lane i) := by
  intro i hi
  obtain ⟨-, hl⟩ := fresh_static (n := n) self flag maxPackagesPool slot
  obtain ⟨m, s, pending, hsub, hlane⟩ := hl i hi
  rw [hlane]
  exact hmove _ _ (Lane.Moves.pending hsub) (hstart i i (some m) (some s))

/-- The accounts balance after the first `schRunTaskSch`. -/
theorem fresh_accounts : Accounts id n (fresh self n flag maxPackagesPool slot) :=
  fresh_lanes self flag maxPackagesPool slot (fun _ _ hm => hm.books)
    fun _ _ _ _ => Lane.start_books ..

end Fresh

end World

end TaskSch
