/-
  Task scheduler formalization — whole calls of `schTerminateTaskSch` and
  `schReleaseTaskSch` (src/taskSch.c).

  `System` has these calls step by step, between the steps of the workers.  Here
  a call that returns is one step, and the codes that the calls in it return are
  given (`TermOs`).  The workers have exited when they have been joined; what
  they do before touches nothing that is looked at here.

  The status is the conjunction of all codes, bit by bit, although success is `1`
  and the errors are `0` or negative.

  * `terminate_round`: a round of the loop is what the client in `System` does;
  * `status_ne_zero_iff`: which codes survive the conjunction;
  * `reports_iff`: when the call returns `SCH_OK` iff all calls in it did.
-/
import TaskSch.System

namespace TaskSch

/-- The code as an `int`. -/
def SchErrCode.bits (code : SchErrCode) : BitVec 32 := .ofInt 32 code.toInt

/-- The codes returned by `schWaitTask`, and for each pool by
    `schRaiseThreadSignal`, `schWaitThread`, `schDeleteMutex` and
    `schDeleteSignal`. -/
structure TermOs where
  wait : SchErrCode
  raise : ℕ → SchErrCode
  join : ℕ → SchErrCode
  mutex : ℕ → SchErrCode
  set : ℕ → SchErrCode

namespace World

/-! ## The calls -/

/-- A round of the loop of `schTerminateTaskSch`, with the status so far. -/
def terminatePool (os : TermOs) (x : ℕ) (w : World) (status : BitVec 32) : World × BitVec 32 :=
  match (w.sch.pools x).thread with
  | none => (w, status)
  | some t =>
    let w := (w.setThread t { w.threads t with pc := .exited }).unlink x
    let status := status &&& (os.raise x).bits &&& (os.join x).bits
    let pool := w.sch.pools x
    let status := if pool.mutex.isSome then status &&& (os.mutex x).bits else status
    let status := if pool.set.isSome then status &&& (os.set x).bits else status
    (w.clear x, status)

/-- The loop over the pools `i .. i + k - 1`. -/
def terminatePools (os : TermOs) : ℕ → ℕ → World → BitVec 32 → World × BitVec 32
  | 0, _, w, status => (w, status)
  | k + 1, i, w, status =>
    terminatePools os k (i + 1) (terminatePool os i w status).1 (terminatePool os i w status).2

/-- `schTerminateTaskSch`, if it returns. -/
def schTerminateTaskSch (os : TermOs) (w : World) : World × SchErrCode :=
  match w.terminateGuard with
  | some status => (w, status)
  | none =>
    let r := terminatePools os w.sch.num 0 w os.wait.bits
    (r.1.setFlag (r.1.sch.flag &&& ~~~schFlagRunning), if r.2 ≠ 0 then .ok else .unknown)

/-- `schReleaseTaskSch`, if it returns. -/
def schReleaseTaskSch (os : TermOs) (w : World) : World × SchErrCode :=
  let r := w.schTerminateTaskSch os
  if r.2 ≠ .ok ∧ r.2 ≠ .invalidState then r else (r.1.release, r.2)

/-- **A round of the loop** is what the client does in three steps, once the
    worker has exited. -/
theorem terminate_round {w : World} {x t : ℕ} (hx : x < w.sch.num)
    (ht : (w.sch.pools x).thread = some t) (hexit : ¬ w.Live t) (os : TermOs) (free : Bool)
    (r₁ r₂ r₃ : Errno) (h₁ : os.raise x = pthreadErrorCode2SchErrorCode r₁)
    (h₂ : os.join x = pthreadErrorCode2SchErrorCode r₂)
    (h₃ : os.mutex x = pthreadErrorCode2SchErrorCode r₃) (h₄ : os.set x = .ok)
    (status : BitVec 32) (k : After) :
    ∃ w₁ w₂ w₃ s₁ s₂,
      Client.step w free r₁ (.termRaise x status k) = some (w₁, .termJoin x t s₁ k, .keep) ∧
      Client.step w₁ free r₂ (.termJoin x t s₁ k) = some (w₂, .termClear x s₂ k, .keep) ∧
      Client.step w₂ free r₃ (.termClear x s₂ k) =
        some (w₃, .termRaise (x + 1) (terminatePool os x w status).2 k, .keep) ∧
      w₃.sch = (terminatePool os x w status).1.sch ∧
      w₃.mem = (terminatePool os x w status).1.mem := by
  obtain ⟨w₁, hw₁⟩ : ∃ w₁, w₁ = (w.schRaiseThreadSignal (some t) sigTerm r₁).1 := ⟨_, rfl⟩
  have hsch : w₁.sch = w.sch := hw₁ ▸ raise_sch w (some t) sigTerm r₁
  have hmem : w₁.mem = w.mem := hw₁ ▸ raise_mem w (some t) sigTerm r₁
  have hexit₁ : ¬ w₁.Live t := by
    rw [Live, hw₁, (raise_thread w (some t) sigTerm r₁ t).2]
    exact hexit
  refine ⟨w₁, w₁.unlink x, (w₁.unlink x).clear x, status &&& (os.raise x).bits,
    status &&& (os.raise x).bits &&& (os.join x).bits, ?_, ?_, ?_, ?_, ?_⟩
  · simp only [Client.step, if_pos hx, ht, hw₁, h₁]
    rfl
  · simp only [Client.step, if_neg hexit₁, h₂]
    rfl
  · simp only [Client.step, terminatePool, ht, unlink, setPool, setThread, hsch,
      Function.update_self, h₃, h₄]
    rfl
  · simp only [terminatePool, ht, unlink, clear, setPool, setThread, hsch]
  · simp only [terminatePool, ht, unlink, clear, setPool, setThread, hsch, hmem]

end World

/-! ## The conjunction of the codes -/

/-- The status after the calls that returned `codes`. -/
def conj (codes : List SchErrCode) (status : BitVec 32) : BitVec 32 :=
  codes.foldl (fun status code => status &&& code.bits) status

theorem conj_append (codes codes' : List SchErrCode) (status : BitVec 32) :
    conj (codes ++ codes') status = conj codes' (conj codes status) := List.foldl_append

theorem conj_getLsbD (codes : List SchErrCode) (status : BitVec 32) (i : ℕ) :
    (conj codes status).getLsbD i ↔
      status.getLsbD i ∧ ∀ code ∈ codes, code.bits.getLsbD i := by
  induction codes generalizing status with
  | nil => simp [conj]
  | cons code codes ih =>
    have hcons : conj (code :: codes) status = conj codes (status &&& code.bits) := rfl
    rw [hcons, ih]
    simp [and_assoc]

/-- The last bit tells the odd codes, ... -/
theorem bits_odd (code : SchErrCode) : code.bits.getLsbD 0 ↔ ¬ 2 ∣ code.toInt := by
  cases code <;> decide

/-- ... the sign bit tells all errors but one, ... -/
theorem bits_neg (code : SchErrCode) :
    code.bits.getLsbD 31 ↔ code ≠ .ok ∧ code ≠ .unknown := by
  cases code <;> decide

/-- ... and `SCH_OK` and that one have no other bit. -/
theorem bits_low {code : SchErrCode} (h : code = .ok ∨ code = .unknown) {i : ℕ}
    (hi : code.bits.getLsbD i) : i = 0 := by
  rcases h with rfl | rfl
  · simpa [SchErrCode.bits, SchErrCode.toInt] using hi
  · simp [SchErrCode.bits, SchErrCode.toInt] at hi

/-- **Which codes survive**: the status is not zero iff all codes are negative,
    or all are odd. -/
theorem status_ne_zero_iff (code : SchErrCode) (codes : List SchErrCode) :
    conj codes code.bits ≠ 0 ↔
      (∀ c ∈ code :: codes, c ≠ .ok ∧ c ≠ .unknown) ∨ ∀ c ∈ code :: codes, ¬ 2 ∣ c.toInt := by
  have hbit : ∀ i, (conj codes code.bits).getLsbD i ↔ ∀ c ∈ code :: codes, c.bits.getLsbD i := by
    intro i
    rw [conj_getLsbD]
    simp
  constructor
  · intro hne
    by_contra hcon
    simp only [not_or, not_forall, not_and_or, not_not, exists_prop] at hcon
    obtain ⟨⟨c, hc, hlow⟩, d, hd, heven⟩ := hcon
    refine hne (BitVec.eq_of_getLsbD_eq fun i _ => ?_)
    rw [show (0 : BitVec 32) = 0#32 from rfl, BitVec.getLsbD_zero]
    by_contra hset
    have hall := (hbit i).1 (Bool.not_eq_false _ ▸ hset)
    -- only the last bit is left by `c`, and `d` does not have it
    have hzero := bits_low hlow (hall c hc)
    subst hzero
    exact (bits_odd d).1 (hall d hd) heven
  · rintro (hneg | hodd) hzero
    · have h31 := (hbit 31).2 fun c hc => (bits_neg c).2 (hneg c hc)
      rw [hzero] at h31
      simp at h31
    · have h0 := (hbit 0).2 fun c hc => (bits_odd c).2 (hodd c hc)
      rw [hzero] at h0
      simp at h0

/-- When the status tells whether all codes are `SCH_OK`: if they are, or there
    is a zero among them, or an `SCH_OK` together with an even error. -/
theorem status_tells_iff (code : SchErrCode) (codes : List SchErrCode) :
    (conj codes code.bits ≠ 0 ↔ ∀ c ∈ code :: codes, c = .ok) ↔
      (∀ c ∈ code :: codes, c = .ok) ∨ .unknown ∈ code :: codes ∨
        .ok ∈ code :: codes ∧ ∃ c ∈ code :: codes, 2 ∣ c.toInt := by
  rw [status_ne_zero_iff]
  generalize code :: codes = all
  by_cases hok : ∀ c ∈ all, c = .ok
  · refine iff_of_true (iff_of_true (.inr ?_) hok) (.inl hok)
    intro c hc
    rw [hok c hc]
    decide
  · simp only [hok, false_or, iff_false, not_or, not_forall, not_and_or, not_not, exists_prop]
    constructor
    · rintro ⟨⟨c, hc, rfl | rfl⟩, heven⟩
      · exact .inr ⟨hc, heven⟩
      · exact .inl hc
    · rintro (hunk | ⟨hc, heven⟩)
      · exact ⟨⟨_, hunk, .inr rfl⟩, _, hunk, by decide⟩
      · exact ⟨⟨_, hc, .inl rfl⟩, heven⟩

namespace World

/-! ## What the call reports -/

/-- The codes returned by the calls for pool `x`. -/
def poolCodes (os : TermOs) (w : World) (x : ℕ) : List SchErrCode :=
  if (w.sch.pools x).thread.isSome then
    os.raise x :: os.join x :: ((if (w.sch.pools x).mutex.isSome then [os.mutex x] else []) ++
      if (w.sch.pools x).set.isSome then [os.set x] else [])
  else []

/-- The codes of all calls that `schTerminateTaskSch` makes after the first one. -/
def termCodes (os : TermOs) (w : World) : List SchErrCode :=
  (List.range w.sch.num).flatMap (poolCodes os w)

theorem terminatePool_status (os : TermOs) (x : ℕ) (w : World) (status : BitVec 32) :
    (terminatePool os x w status).2 = conj (poolCodes os w x) status := by
  unfold terminatePool poolCodes
  cases ht : (w.sch.pools x).thread with
  | none => rfl
  | some t =>
    simp only [unlink, setPool, setThread, Function.update_self, Option.isSome_some, if_true]
    split_ifs <;> rfl

/-- A round leaves the other pools alone. -/
theorem terminatePool_other (os : TermOs) {x y : ℕ} (h : y ≠ x) (w : World) (status : BitVec 32) :
    (terminatePool os x w status).1.sch.pools y = w.sch.pools y := by
  unfold terminatePool
  cases ht : (w.sch.pools x).thread with
  | none => rfl
  | some t => simp [unlink, clear, setPool, setThread, h]

theorem terminatePools_status (os : TermOs) (k i : ℕ) (w : World) (status : BitVec 32) :
    (terminatePools os k i w status).2 =
      conj ((List.range' i k).flatMap (poolCodes os w)) status := by
  induction k generalizing i w status with
  | zero => rfl
  | succ k ih =>
    have hlater : (List.range' (i + 1) k).flatMap (poolCodes os (terminatePool os i w status).1) =
        (List.range' (i + 1) k).flatMap (poolCodes os w) := by
      refine List.flatMap_congr fun x hx => ?_
      have hne : x ≠ i := by
        have := (List.mem_range'_1.1 hx).1
        omega
      simp only [poolCodes, terminatePool_other os hne]
    rw [terminatePools, ih, hlater, terminatePool_status, ← conj_append]
    rfl

/-- The status of a call that goes on to stop the workers. -/
theorem schTerminateTaskSch_status (os : TermOs) {w : World} (hinit : hasBit w.sch.flag schFlagInit)
    (hrun : hasBit w.sch.flag schFlagRunning) :
    (w.schTerminateTaskSch os).2 = .ok ↔ conj (termCodes os w) os.wait.bits ≠ 0 := by
  have hguard : w.terminateGuard = none := by simp [terminateGuard, hinit, hrun]
  simp only [schTerminateTaskSch, hguard, terminatePools_status, termCodes, List.range_eq_range']
  split_ifs with h
  · exact iff_of_true rfl h
  · exact iff_of_false (by decide) h

/-- **When `schTerminateTaskSch` reports failures**: it returns `SCH_OK` iff all
    calls in it do, exactly if they all do, or one returns `SCH_ERROR_UNKNOWN`,
    or one `SCH_OK` and another one an even code. -/
theorem reports_iff (os : TermOs) (w : World) (hinit : hasBit w.sch.flag schFlagInit)
    (hrun : hasBit w.sch.flag schFlagRunning) :
    ((w.schTerminateTaskSch os).2 = .ok ↔ ∀ c ∈ os.wait :: termCodes os w, c = .ok) ↔
      (∀ c ∈ os.wait :: termCodes os w, c = .ok) ∨ .unknown ∈ os.wait :: termCodes os w ∨
        .ok ∈ os.wait :: termCodes os w ∧ ∃ c ∈ os.wait :: termCodes os w, 2 ∣ c.toInt := by
  rw [schTerminateTaskSch_status os hinit hrun]
  exact status_tells_iff os.wait (termCodes os w)

/-- The second of three workers cannot be joined, with an even code, and that is
    reported. -/
theorem reports_join : ((fresh 0 3 0 1 fun _ _ => .ofCallback 0).schTerminateTaskSch
    ⟨.ok, fun _ => .ok, fun i => if i = 1 then .invalidSch else .ok, fun _ => .ok,
      fun _ => .ok⟩).2 ≠ .ok := by
  intro hok
  have hall := ((reports_iff ⟨.ok, fun _ => .ok, fun i => if i = 1 then .invalidSch else .ok,
    fun _ => .ok, fun _ => .ok⟩ (fresh 0 3 0 1 fun _ _ => .ofCallback 0) (by decide +kernel)
    (by decide +kernel)).2 (.inr (.inr ?_))).1 hok
  · exact absurd hall (by decide +kernel)
  · decide +kernel

/-- Raising `SIGTERM` for the only worker fails with an odd code, and the call
    returns `SCH_OK`. -/
theorem raise_not_reported :
    ¬ ∀ (os : TermOs) (w : World), hasBit w.sch.flag schFlagInit →
      hasBit w.sch.flag schFlagRunning →
      ((w.schTerminateTaskSch os).2 = .ok ↔ ∀ c ∈ os.wait :: termCodes os w, c = .ok) := by
  intro h
  have hcall := h ⟨.ok, fun _ => .invalidArg, fun _ => .ok, fun _ => .ok, fun _ => .ok⟩
    (fresh 0 1 0 1 fun _ _ => .ofCallback 0) (by decide +kernel) (by decide +kernel)
  exact absurd (hcall.1 (by decide +kernel)) (by decide +kernel)

end World

end TaskSch
