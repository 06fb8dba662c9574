/-
  Task scheduler formalization — the deadlines of the timed waits
  (src/unix/thread.c).

  `pthread_mutex_timedlock` and `sem_timedwait` take an absolute time.  The two
  functions that call them split the timeout into seconds and nanoseconds and
  pass it on as it is; the helper `maketimeout`, which nobody calls, adds it to
  the current time, without a carry.

  * `splitTimeout_iff`: the timeout alone is the deadline at the epoch only;
  * `maketimeout_iff`: the helper is right iff the nanoseconds do not carry;
  * `deadlines_iff`: all three are right at the epoch only.
-/
import TaskSch.Types

namespace TaskSch

/-- `struct timeval`. -/
structure Timeval where
  tvSec : ℤ
  tvUsec : ℤ

/-- `struct timespec`. -/
structure Timespec where
  tvSec : ℤ
  tvNsec : ℤ

/-- A timed wait: the deadline passed to the OS, and what is returned for its
    result. -/
structure TimedCall where
  deadline : Timespec
  returns : Errno → SchErrCode

/-- The timeout in seconds and nanoseconds. -/
def splitTimeout (timeout : ℤ) : Timespec :=
  ⟨timeout.tdiv 1000000000, timeout.tmod 1000000000⟩

/-- `schMutexTryLock`, with `pthread_mutex_timedlock`. -/
def schMutexTryLock (timeout : ℤ) : TimedCall :=
  ⟨splitTimeout timeout, pthreadErrorCode2SchErrorCode⟩

/-- `schSemaphoreTimedWait`, with `sem_timedwait`. -/
def schSemaphoreTimedWait (timeout : ℤ) : TimedCall :=
  ⟨splitTimeout timeout, fun r => if r = .zero then .ok else pthreadErrorCode2SchErrorCode r⟩

/-- `maketimeout`, where `gettimeofday` returns `now`. -/
def maketimeout (now : Timeval) (nanoseconds : ℤ) : Timespec :=
  ⟨now.tvSec + nanoseconds.tdiv 1000000000, now.tvUsec * 1000 + nanoseconds.tmod 1000000000⟩

/-- The time is normalised, and `timeout` nanoseconds from `now`. -/
structure Deadline (now : Timeval) (timeout : ℤ) (spec : Timespec) : Prop where
  nonneg : 0 ≤ spec.tvNsec
  lt : spec.tvNsec < 10 ^ 9
  sum : spec.tvSec * 10 ^ 9 + spec.tvNsec =
    now.tvSec * 10 ^ 9 + now.tvUsec * 1000 + timeout

variable {now : Timeval} {timeout : ℤ}

/-- The parts of a timeout are a normalised time of the same length. -/
theorem split_spec (h : 0 ≤ timeout) :
    0 ≤ timeout.tmod 1000000000 ∧ timeout.tmod 1000000000 < 1000000000 ∧
      timeout.tdiv 1000000000 * 1000000000 + timeout.tmod 1000000000 = timeout := by
  have hdiv := Int.mul_tdiv_add_tmod timeout 1000000000
  have hlt := Int.tmod_lt_of_pos timeout (show (0 : ℤ) < 1000000000 by decide)
  have hnonneg := Int.tmod_nonneg 1000000000 h
  exact ⟨hnonneg, hlt, by linarith⟩

/-- The timeout alone is the deadline only if the clock shows zero. -/
theorem splitTimeout_iff (hlo : 0 ≤ now.tvUsec) (hhi : now.tvUsec < 10 ^ 6) (h : 0 ≤ timeout) :
    Deadline now timeout (splitTimeout timeout) ↔ now.tvSec = 0 ∧ now.tvUsec = 0 := by
  obtain ⟨h1, h2, h3⟩ := split_spec h
  constructor
  · intro hd
    have hsum := hd.sum
    simp only [splitTimeout] at hsum
    omega
  · rintro ⟨hs, hu⟩
    refine ⟨h1, h2, ?_⟩
    simp only [splitTimeout, hs, hu]
    omega

/-- The helper is right iff the nanoseconds stay below a second. -/
theorem maketimeout_iff (hlo : 0 ≤ now.tvUsec) (h : 0 ≤ timeout) :
    Deadline now timeout (maketimeout now timeout) ↔
      now.tvUsec * 1000 + timeout.tmod 1000000000 < 10 ^ 9 := by
  obtain ⟨h1, h2, h3⟩ := split_spec h
  constructor
  · intro hd
    exact hd.lt
  · intro hlt
    refine ⟨?_, hlt, ?_⟩
    · simp only [maketimeout]
      omega
    · simp only [maketimeout]
      omega

/-- **When the timed waits get the right deadline**: all three only at the epoch,
    the helper iff the microseconds of the clock and the rest of the timeout are
    less than a second together. -/
theorem deadlines_iff (now : Timeval) (timeout : ℤ) (hlo : 0 ≤ now.tvUsec)
    (hhi : now.tvUsec < 10 ^ 6) (h : 0 ≤ timeout) :
    (Deadline now timeout (schMutexTryLock timeout).deadline ∧
        Deadline now timeout (schSemaphoreTimedWait timeout).deadline ∧
        Deadline now timeout (maketimeout now timeout) ↔
      now.tvSec = 0 ∧ now.tvUsec = 0) ∧
    (Deadline now timeout (maketimeout now timeout) ↔
      now.tvUsec * 1000 + timeout.tmod 1000000000 < 10 ^ 9) := by
  have hsplit := splitTimeout_iff hlo hhi h
  have hmake := maketimeout_iff hlo h
  refine ⟨?_, hmake⟩
  constructor
  · rintro ⟨hd, -, -⟩
    exact hsplit.1 hd
  · intro hzero
    refine ⟨hsplit.2 hzero, hsplit.2 hzero, hmake.2 ?_⟩
    have hlt := (split_spec h).2.1
    rw [hzero.2]
    omega

/-- At the epoch, 2.5 seconds. -/
theorem deadlines_epoch :
    Deadline ⟨0, 0⟩ 2500000000 (schMutexTryLock 2500000000).deadline :=
  ((deadlines_iff ⟨0, 0⟩ 2500000000 (by decide) (by decide) (by decide)).1.2 ⟨rfl, rfl⟩).1

/-- One second after the epoch, the deadline for half a second has passed. -/
theorem deadline_passed :
    ¬ ∀ (now : Timeval) (timeout : ℤ), 0 ≤ now.tvUsec → now.tvUsec < 10 ^ 6 → 0 ≤ timeout →
      Deadline now timeout (schMutexTryLock timeout).deadline ∧
        Deadline now timeout (schSemaphoreTimedWait timeout).deadline ∧
        Deadline now timeout (maketimeout now timeout) := by
  intro h
  have hd := (h ⟨1, 0⟩ 500000000 (by decide) (by decide) (by decide)).1
  exact absurd hd.sum (by decide)

end TaskSch
