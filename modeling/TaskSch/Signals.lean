/-
  Task scheduler formalization — the signals of a worker
  (`schPoolExecutor` in src/sch.c, `schSetSignalThreadMask` in
  src/unix/thread.c).

  A worker blocks its control signals and waits for them in its inner loop.  In
  the `switch` of this loop the default case goes straight to the test of the
  loop, past the comparison with `SCH_SIGNAL_QUIT`.  The set of the signals to
  wait for lies in memory that is not initialized; it is emptied inside of an
  assertion, which the release build leaves out.

  * `waitLoop`: the inner loop on the values that `schSignalWait` returns;
  * `obeys_iff`: it obeys the control signals iff no `SCH_SIGNAL_QUIT` comes
    before the signal that ends it;
  * `setsExactly_iff`: `schSetSignalThreadMask` sets what it is asked to iff it
    is a debug build, or nothing else was found in the set, and all signals can
    be blocked.
-/
import TaskSch.Executor

namespace TaskSch

/-! ## The inner wait loop -/

/-- The inner loop on the values that `schSignalWait` returns: where the worker
    goes, and the values that are left.  Without a value, it is blocked. -/
def waitLoop : List ℤ → Pc × List ℤ
  | [] => (.wait, [])
  | signal :: signals =>
    if onSignal signal = .wait then waitLoop signals else (onSignal signal, signals)

/-- A worker that takes the signals one by one is where the loop is. -/
theorem waitLoop_run {l l' : Lane} {signals : List ℤ} (hpc : l.pc = .wait)
    (hrun : laneMachine.run l (signals.map fun s => .work (.sig s)) = some l') :
    waitLoop signals = (l'.pc, []) := by
  induction signals generalizing l with
  | nil =>
    cases hrun
    rw [hpc]
    rfl
  | cons signal signals ih =>
    obtain ⟨l₁, h1, h2⟩ := Machine.run_cons.1 hrun
    have hpc₁ : l₁.pc = onSignal signal := by
      simp only [laneMachine, Lane.step, Lane.work] at h1
      split_ifs at h1
      cases h1
      rfl
    rw [waitLoop]
    split_ifs with hwait
    · exact ih (hpc₁.trans hwait) h2
    · -- the worker has left the loop, so it takes no further signal
      cases signals with
      | nil =>
        cases h2
        rw [hpc₁]
      | cons next rest =>
        obtain ⟨l₂, h3, -⟩ := Machine.run_cons.1 h2
        simp only [laneMachine, Lane.step, Lane.work] at h3
        split_ifs at h3 with hnext
        exact absurd (hpc₁ ▸ hnext.1) hwait

/-- The signals that a worker is to obey. -/
def IsControl (signal : ℤ) : Prop :=
  signal = schSignalContinue ∨ signal = schSignalQuit ∨ signal = sigTerm

instance (signal : ℤ) : Decidable (IsControl signal) := inferInstanceAs (Decidable (_ ∨ _))

/-- The loop stops at the first signal to obey: the worker goes on with its tasks
    after `SCH_SIGNAL_CONTINUE`, and terminates after the others. -/
def Obeys (signals : List ℤ) : Prop :=
  waitLoop signals = match signals.dropWhile fun s => ¬ IsControl s with
    | [] => (.wait, [])
    | signal :: rest => (if signal = schSignalContinue then .wake else .finish, rest)

instance (signals : List ℤ) : Decidable (Obeys signals) := inferInstanceAs (Decidable (_ = _))

/-- No `SCH_SIGNAL_QUIT` comes before `SCH_SIGNAL_CONTINUE` or `SIGTERM`. -/
def NoQuit (signals : List ℤ) : Prop :=
  schSignalQuit ∉ signals.takeWhile fun s => s ≠ schSignalContinue ∧ s ≠ sigTerm

instance (signals : List ℤ) : Decidable (NoQuit signals) := inferInstanceAs (Decidable ¬ _)

/-- The loop blocks, or has used up a value. -/
theorem waitLoop_length (signals : List ℤ) :
    (waitLoop signals).1 = .wait ∨ (waitLoop signals).2.length < signals.length := by
  induction signals with
  | nil => exact .inl rfl
  | cons signal signals ih =>
    rw [waitLoop]
    split_ifs
    · exact ih.imp id fun h => h.trans (Nat.lt_succ_self _)
    · exact .inr (Nat.lt_succ_self _)

/-- A signal that is not to be obeyed is ignored. -/
theorem obeys_ignored {signal : ℤ} (hs : ¬ IsControl signal) (hwait : onSignal signal = .wait)
    (signals : List ℤ) : Obeys (signal :: signals) ↔ Obeys signals := by
  simp only [Obeys, waitLoop, if_pos hwait, List.dropWhile_cons, hs, not_false_eq_true,
    decide_true, if_true]

/-- `SCH_SIGNAL_QUIT` is not obeyed: the loop goes on. -/
theorem not_obeys_quit (signals : List ℤ) : ¬ Obeys (schSignalQuit :: signals) := by
  have hquit : IsControl schSignalQuit := .inr (.inl rfl)
  have hwait : onSignal schSignalQuit = .wait := by decide
  intro h
  simp only [Obeys, waitLoop, if_pos hwait, List.dropWhile_cons, hquit, not_true_eq_false,
    decide_false, Bool.false_eq_true, if_false, if_neg (show schSignalQuit ≠ schSignalContinue
      by decide)] at h
  rcases waitLoop_length signals with hpc | hlen
  · rw [h] at hpc
    cases hpc
  · rw [h] at hlen
    exact absurd hlen (lt_irrefl _)

/-- **When an idle worker obeys its control signals**: exactly if it gets no
    `SCH_SIGNAL_QUIT` before `SCH_SIGNAL_CONTINUE` or `SIGTERM`. -/
theorem obeys_iff (signals : List ℤ) (hmask : ∀ s ∈ signals, s ∈ workerMask ∨ s = -1) :
    Obeys signals ↔ NoQuit signals := by
  induction signals with
  | nil => exact iff_of_true rfl (by simp [NoQuit])
  | cons signal signals ih =>
    have ih := ih fun s hs => hmask s (List.mem_cons_of_mem _ hs)
    have hignored : ¬ IsControl signal → onSignal signal = .wait →
        (Obeys (signal :: signals) ↔ NoQuit (signal :: signals)) := by
      intro hs hwait
      simp only [IsControl, not_or] at hs
      rw [obeys_ignored (by simpa [IsControl] using hs) hwait, ih]
      simp [NoQuit, hs.1, hs.2.2, Ne.symm hs.2.1]
    rcases hmask signal List.mem_cons_self with hs | rfl
    · simp only [workerMask, List.mem_cons, List.not_mem_nil, or_false] at hs
      obtain rfl | rfl | rfl | rfl | rfl := hs
      · exact iff_of_true rfl (by simp [NoQuit])
      · exact hignored (by decide) (by decide)
      · exact hignored (by decide) (by decide)
      · refine iff_of_false (not_obeys_quit signals) ?_
        simp [NoQuit, show schSignalQuit ≠ schSignalContinue by decide,
          show schSignalQuit ≠ sigTerm by decide]
      · exact iff_of_true rfl (by simp [NoQuit])
    · exact hignored (by decide) (by decide)

/-- A failed wait, a signal to ignore, and then `SCH_SIGNAL_CONTINUE`. -/
theorem obeys_continue : Obeys [-1, schSignalDone, schSignalContinue, schSignalQuit] :=
  (obeys_iff [-1, schSignalDone, schSignalContinue, schSignalQuit] (by decide)).2 (by decide)

/-- `SCH_SIGNAL_QUIT` leaves the worker in its loop. -/
theorem quit_ignored :
    ¬ ∀ signals : List ℤ, (∀ s ∈ signals, s ∈ workerMask ∨ s = -1) → Obeys signals := by
  intro h
  exact absurd (h [schSignalQuit] (by decide)) (by decide)

/-! ## The signal mask -/

/-- In a release build (`NDEBUG`), assertions are left out. -/
inductive Build where
  | debug
  | release
  deriving DecidableEq

/-- What the OS says: the signal numbers that `sigaddset` takes, and the result
    of `pthread_sigmask`. -/
structure SigOs where
  valid : ℤ → Bool
  sigmask : Errno

def sigKill : ℤ := 9
def sigStop : ℤ := 19

/-- `pthread_sigmask(SIG_BLOCK, set, NULL)`: two signals cannot be blocked, and
    asking for it is no error. -/
def sigBlock (blocked set : Finset ℤ) : Finset ℤ := blocked ∪ (set \ {sigKill, sigStop})

/-- The signal set, the signals that the thread blocks, and what is returned. -/
structure MaskReturn where
  set : Finset ℤ
  blocked : Finset ℤ
  status : ℤ

/-- The loop over the signals, `none` when `sigaddset` fails. -/
def addSignals (valid : ℤ → Bool) : Finset ℤ → List ℤ → Option (Finset ℤ)
  | set, [] => some set
  | set, signal :: signals =>
    if valid signal then addSignals valid (insert signal set) signals else none

/-- `schSetSignalThreadMask` on a set with the contents `set`, by a thread that
    blocks `blocked`.  `sigaddset` fails with `-1`, which is no error code of its
    own. -/
def schSetSignalThreadMask (build : Build) (os : SigOs) (set blocked : Finset ℤ)
    (signals : List ℤ) : MaskReturn :=
  -- `assert(sigemptyset(set) == 0)`
  let set := match build with
    | .debug => ∅
    | .release => set
  match addSignals os.valid set signals with
  | none => ⟨∅, blocked, SchErrCode.unknown.toInt⟩
  | some set =>
    if os.sigmask = .zero then
      ⟨set, sigBlock blocked set, (pthreadErrorCode2SchErrorCode os.sigmask).toInt⟩
    else ⟨set, blocked, -1⟩

/-- After `SCH_OK`, the set is what was asked for, and exactly this is blocked in
    addition; if a signal is not valid, the set is empty and nothing is blocked. -/
structure SetsExactly (os : SigOs) (blocked : Finset ℤ) (signals : List ℤ) (r : MaskReturn) :
    Prop where
  ok : r.status = SchErrCode.ok.toInt →
    r.set = signals.toFinset ∧ r.blocked = blocked ∪ signals.toFinset
  failed : (∃ s ∈ signals, os.valid s = false) → r.set = ∅ ∧ r.blocked = blocked

/-- The loop adds all signals, or finds one that is not valid. -/
theorem addSignals_cases (valid : ℤ → Bool) (set : Finset ℤ) (signals : List ℤ) :
    ((∃ s ∈ signals, valid s = false) ∧ addSignals valid set signals = none) ∨
      (∀ s ∈ signals, valid s = true) ∧
        addSignals valid set signals = some (set ∪ signals.toFinset) := by
  induction signals generalizing set with
  | nil => exact .inr ⟨by simp, by simp [addSignals]⟩
  | cons signal signals ih =>
    rw [addSignals]
    split_ifs with hvalid
    · obtain ⟨⟨s, hs, hno⟩, hnone⟩ | ⟨hall, hsome⟩ := ih (insert signal set)
      · exact .inl ⟨⟨s, List.mem_cons_of_mem _ hs, hno⟩, hnone⟩
      · refine .inr ⟨?_, ?_⟩
        · intro s hs
          rcases List.mem_cons.1 hs with rfl | hs
          · exact hvalid
          · exact hall s hs
        · rw [hsome, List.toFinset_cons]
          congr 1
          ext s
          simp only [Finset.mem_union, Finset.mem_insert]
          tauto
    · exact .inl ⟨⟨signal, List.mem_cons_self, by simpa using hvalid⟩, rfl⟩

/-- The signals get blocked iff those that cannot be blocked are blocked already. -/
theorem sigBlock_eq_iff (blocked set : Finset ℤ) :
    sigBlock blocked set = blocked ∪ set ↔
      ∀ s ∈ set, s = sigKill ∨ s = sigStop → s ∈ blocked := by
  constructor
  · intro h s hs hno
    have hmem : s ∈ sigBlock blocked set := h ▸ Finset.mem_union_right _ hs
    refine (Finset.mem_union.1 hmem).resolve_right fun hs' => ?_
    exact (Finset.mem_sdiff.1 hs').2 (by simpa using hno)
  · intro h
    ext s
    simp only [sigBlock, Finset.mem_union, Finset.mem_sdiff, Finset.mem_insert,
      Finset.mem_singleton]
    have := h s
    tauto

/-- **When `schSetSignalThreadMask` sets exactly what it is asked to**: if all
    signals are valid and `pthread_sigmask` succeeds, then it is a debug build or
    the set held no other signal before, and no given signal is `SIGKILL` or
    `SIGSTOP`, unless it was blocked already. -/
theorem setsExactly_iff (build : Build) (os : SigOs) (set blocked : Finset ℤ)
    (signals : List ℤ) :
    SetsExactly os blocked signals (schSetSignalThreadMask build os set blocked signals) ↔
      ((∀ s ∈ signals, os.valid s = true) → os.sigmask = .zero →
        (build = .debug ∨ set ⊆ signals.toFinset) ∧
          ∀ s ∈ signals, s = sigKill ∨ s = sigStop → s ∈ blocked) := by
  obtain ⟨start, hstart⟩ : ∃ start : Finset ℤ, start = match build with
    | .debug => ∅
    | .release => set := ⟨_, rfl⟩
  have hiff : (build = .debug ∨ set ⊆ signals.toFinset) ↔
      start ∪ signals.toFinset = signals.toFinset := by
    rw [Finset.union_eq_right, hstart]
    cases build <;> simp
  rw [hiff]
  simp only [schSetSignalThreadMask, ← hstart]
  obtain ⟨hno, hadd⟩ | ⟨hall, hadd⟩ := addSignals_cases os.valid start signals
  · simp only [hadd]
    refine iff_of_true ⟨fun h => absurd h (by simp [SchErrCode.toInt]), fun _ => ⟨rfl, rfl⟩⟩ ?_
    obtain ⟨s, hs, hno⟩ := hno
    intro hall
    rw [hall s hs] at hno
    cases hno
  · simp only [hadd]
    have hvalid : ¬ ∃ s ∈ signals, os.valid s = false := by
      rintro ⟨s, hs, hno⟩
      rw [hall s hs] at hno
      cases hno
    by_cases hmask : os.sigmask = .zero
    · simp only [hmask, if_true]
      constructor
      · intro h _ _
        obtain ⟨hset, hblocked⟩ := h.ok rfl
        simp only at hset hblocked
        rw [hset, sigBlock_eq_iff] at hblocked
        exact ⟨hset, fun s hs => hblocked s (List.mem_toFinset.2 hs)⟩
      · intro h
        obtain ⟨heq, hno⟩ := h hall trivial
        refine ⟨fun _ => ⟨heq, ?_⟩, fun hno => absurd hno hvalid⟩
        rw [heq, sigBlock_eq_iff]
        exact fun s hs => hno s (List.mem_toFinset.1 hs)
    · simp only [if_neg hmask]
      refine iff_of_true ⟨?_, fun hno => absurd hno hvalid⟩ fun _ h => absurd h hmask
      intro h
      exact absurd h (by simp [SchErrCode.toInt])

/-- In a release build, a signal that is found in the set stays there. -/
theorem stray_signal_kept :
    ¬ ∀ (build : Build) (os : SigOs) (set blocked : Finset ℤ) (signals : List ℤ),
      SetsExactly os blocked signals (schSetSignalThreadMask build os set blocked signals) := by
  intro h
  have hok := (h .release ⟨fun _ => true, .zero⟩ {sigInt} ∅ [schSignalContinue]).ok rfl
  exact absurd hok.1 (by decide)

end TaskSch
