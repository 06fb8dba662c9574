/-
  Task scheduler formalization — the data of the scheduler
  (include/taskSch.h and include/internal/internal_structures.h).

  Counters of type `unsigned int` are natural numbers, reduced by `u32` where
  the source computes with them; status words are 32-bit vectors; a pointer is
  `none` for `NULL`.  The memory behind a pointer is a separate field
  (`slot` behind `package`, `pools` behind `pool`, `order` behind `dheap`).

  The fields `userdata`, `init` and `deinit` of a pool are in `PoolUser`: the two
  callbacks are code of the user, which runs at the phases `init` and `finish` of
  the worker.  The back pointer `sch` is left out.
-/
import Mathlib.Tactic

namespace TaskSch

/-! ## Machine words -/

/-- The value of an `unsigned int` expression. -/
def u32 (n : ℕ) : ℕ := n % 2 ^ 32

theorem u32_of_lt {n : ℕ} (h : n < 2 ^ 32) : u32 n = n := Nat.mod_eq_of_lt h

/-- `n - 1` on `unsigned int`. -/
def u32Pred (n : ℕ) : ℕ := if n = 0 then 2 ^ 32 - 1 else n - 1

/-- `a % b` on `unsigned int`, undefined for a zero divisor. -/
def umod (a b : ℕ) : Option ℕ := if b = 0 then none else some (a % b)

theorem umod_of_pos {a b : ℕ} (h : 0 < b) : umod a b = some (a % b) := if_neg (by omega)

/-- A pointer; `none` is `NULL`. -/
abbrev Ptr := Option ℕ

/-- An `atomic_uint` of status bits. -/
abbrev Flag := BitVec 32

/-- `flag & bits`, read as a truth value. -/
def hasBit (flag bits : Flag) : Bool := flag &&& bits != 0#32

/-! ## Flags and signals -/

/-- The scheduler has been initialized. -/
def schFlagInit : Flag := 0x1#32
/-- The scheduler is in running mode. -/
def schFlagRunning : Flag := 0x2#32

/-- The pool has been terminated. -/
def schPoolTerminate : Flag := 0x1#32
/-- The pool is in running mode. -/
def schPoolRunning : Flag := 0x2#32
/-- The pool is in sleep mode. -/
def schPoolSleep : Flag := 0x4#32

theorem hasBit_twoPow (flag : Flag) {i : ℕ} (hi : i < 32) :
    hasBit flag (BitVec.twoPow 32 i) = flag.getLsbD i := by
  have hne : BitVec.twoPow 32 i ≠ 0#32 := by
    intro h
    have := congrArg (·.getLsbD i) h
    simp [hi] at this
  rw [hasBit, BitVec.and_twoPow]
  cases flag.getLsbD i <;> simp [hne]

theorem hasBit_init (flag : Flag) : hasBit flag schFlagInit = flag.getLsbD 0 :=
  hasBit_twoPow flag (by decide : 0 < 32)

theorem hasBit_running (flag : Flag) : hasBit flag schFlagRunning = flag.getLsbD 1 :=
  hasBit_twoPow flag (by decide : 1 < 32)

theorem running_set (flag : Flag) : hasBit (flag ||| schFlagRunning) schFlagRunning := by
  rw [hasBit_running]; simp [schFlagRunning]

theorem not_running_cleared (flag : Flag) :
    ¬ hasBit (flag &&& ~~~schFlagRunning) schFlagRunning := by
  rw [hasBit_running]; simp [schFlagRunning]

/-- `SCH_FLAG_RUNNING` is set and cleared without touching `SCH_FLAG_INIT`. -/
theorem init_kept {flag : Flag} (h : hasBit flag schFlagInit) :
    hasBit (flag ||| schFlagRunning) schFlagInit ∧
      hasBit (flag &&& ~~~schFlagRunning) schFlagInit := by
  rw [hasBit_init] at h
  constructor
  · rw [hasBit_init]; simp [h]
  · rw [hasBit_init]; simp [schFlagRunning, h]

/-- `SIGUSR1` (Linux numbering, as the other signals). -/
def schBaseSignal : ℤ := 10
def schSignalRunning : ℤ := schBaseSignal + 1
def schSignalDone : ℤ := schBaseSignal + 2
def schSignalContinue : ℤ := schBaseSignal + 3
def schSignalQuit : ℤ := schBaseSignal + 4
def sigInt : ℤ := 2
def sigQuit : ℤ := 3
def sigTerm : ℤ := 15

/-! ## Error codes -/

/-- `enum SchErrCode`. -/
inductive SchErrCode where
  | ok | unknown | invalidArg | invalidSch | invalidState | internal | poolFull | signal
  | syncObject | timeout | busy | nomem | lackOfResources | permissionDenied
  deriving DecidableEq, Repr

/-- The value of an error code: success is `1`, errors are `0` or negative. -/
def SchErrCode.toInt : SchErrCode → ℤ
  | ok => 1
  | unknown => 0
  | invalidArg => -1
  | invalidSch => -2
  | invalidState => -3
  | internal => -4
  | poolFull => -5
  | signal => -6
  | syncObject => -7
  | timeout => -8
  | busy => -9
  | nomem => -10
  | lackOfResources => -11
  | permissionDenied => -12

/-- The table of `schErrorMsg`. -/
def msgErr : List String :=
  ["unknown error", "invalid argument", "invalid schedular object", "schedular/pool bad state",
    "internal error", "pool queue is full", "internal signal error", "Synchronization error",
    "Timeout error", "Busy error", "No Memory", "OS lacking resources", "Permission denied"]

/-- `schErrorMsg`: the text, or the null pointer.  An access outside of the table
    is undefined. -/
def schErrorMsg (errMsg : ℤ) : Option (Option String) :=
  if errMsg = SchErrCode.ok.toInt then some (some "no error")
  else if errMsg > SchErrCode.ok.toInt then some none
  else if errMsg < SchErrCode.permissionDenied.toInt then some none
  else msgErr[(errMsg * -1).toNat]?.map some

/-- No number leads out of the table, and those of the error codes have a text. -/
theorem schErrorMsg_defined (errMsg : ℤ) : ∃ text, schErrorMsg errMsg = some text ∧
    (text = none ↔ errMsg < SchErrCode.permissionDenied.toInt ∨ SchErrCode.ok.toInt < errMsg) := by
  have hok : SchErrCode.ok.toInt = 1 := rfl
  have hlast : SchErrCode.permissionDenied.toInt = -12 := rfl
  by_cases h1 : errMsg = SchErrCode.ok.toInt
  · exact ⟨_, if_pos h1, by simp; omega⟩
  by_cases h2 : errMsg > SchErrCode.ok.toInt
  · exact ⟨none, by rw [schErrorMsg, if_neg h1, if_pos h2], by simp; omega⟩
  by_cases h3 : errMsg < SchErrCode.permissionDenied.toInt
  · exact ⟨none, by rw [schErrorMsg, if_neg h1, if_neg h2, if_pos h3], by simp; omega⟩
  · have hlen : (errMsg * -1).toNat < msgErr.length := by
      simp only [msgErr, List.length_cons, List.length_nil]
      omega
    refine ⟨some (msgErr.get ⟨_, hlen⟩), ?_, by simp; omega⟩
    rw [schErrorMsg, if_neg h1, if_neg h2, if_neg h3, List.getElem?_eq_getElem hlen]
    rfl

theorem SchErrCode.toInt_range (e : SchErrCode) :
    permissionDenied.toInt ≤ e.toInt ∧ e.toInt ≤ ok.toInt := by
  cases e <;> decide

/-- Every error code has a text. -/
theorem schErrorMsg_code (e : SchErrCode) : ∃ text, schErrorMsg e.toInt = some (some text) := by
  obtain ⟨text, h, hnone⟩ := schErrorMsg_defined e.toInt
  have hrange := e.toInt_range
  obtain ⟨text, rfl⟩ := Option.ne_none_iff_exists'.1 fun hn => by
    rcases hnone.1 hn with hlt | hlt <;> omega
  exact ⟨text, h⟩

/-- The result of an OS call: `zero` for success, else an `errno` value. -/
inductive Errno where
  | zero | esrch | etimedout | ebusy | einval | eperm | eagain | enomem | eintr | edeadlk | enosys
  | other (n : ℕ)
  deriving DecidableEq, Repr

/-- `pthread_error_code2sch_error_code` (src/unix/thread.c). -/
def pthreadErrorCode2SchErrorCode : Errno → SchErrCode
  | .esrch | .zero => .ok
  | .etimedout => .timeout
  | .ebusy => .busy
  | .einval => .invalidArg
  | .eperm => .permissionDenied
  | .eagain => .lackOfResources
  | .enomem => .nomem
  | .eintr | .edeadlk | .enosys | .other _ => .unknown

/-! ## Packages, pools and the scheduler -/

/-- `schTaskPackage`. -/
structure SchTaskPackage where
  flag : Flag
  index : ℕ
  callback : Ptr
  size : ℕ
  offset : ℕ
  begin_ : Ptr
  end_ : Ptr
  puser : Ptr
  deriving DecidableEq, Repr

/-- A package as the unit tests submit it: only the callback is set. -/
def SchTaskPackage.ofCallback (f : ℕ) : SchTaskPackage := ⟨0, 0, some f, 0, 0, none, none, none⟩

/-- `schTaskPool`. -/
structure SchTaskPool where
  thread : Option ℕ
  schRefThread : Option ℕ
  mutex : Ptr
  set : Ptr
  size : ℕ
  tail : ℕ
  head : ℕ
  reserved : ℕ
  package : Ptr
  /-- the memory behind `package` -/
  slot : ℕ → SchTaskPackage
  avergeDeque : ℤ
  dheapPriority : ℤ
  index : ℕ
  flag : Flag

/-- `schTaskSch`. -/
structure SchTaskSch where
  num : ℕ
  pool : Ptr
  flag : Flag
  dheap : Ptr
  spinlock : Ptr
  mutex : Ptr
  conditional : Ptr
  barrier : Ptr
  set : Ptr
  /-- the memory behind `pool` -/
  pools : ℕ → SchTaskPool
  /-- the memory behind `dheap`: the positions in `pools` it points to -/
  order : List ℕ

/-- The pool set up by round `i` of the loop of `schCreateTaskPool`: `package`
    is the buffer it allocated, `slot` the contents it found there, `self` the
    calling thread. -/
def SchTaskPool.create (self i : ℕ) (maxPackagesPool : UInt32) (package : Ptr)
    (slot : ℕ → SchTaskPackage) : SchTaskPool where
  thread := none
  schRefThread := some self
  mutex := none
  set := none
  size := 0
  tail := 0
  head := 0
  reserved := maxPackagesPool.toNat
  package := package
  slot := slot
  avergeDeque := 0
  dheapPriority := 0
  index := i
  flag := 0

end TaskSch
