/-
  Task scheduler formalization — `schCreateTaskPool` with its error exits
  (src/taskSch.c), and the creation of locks (src/unix/thread.c).

  The results of the allocations and of the OS calls are given by `CreateOs`.
  The object that the caller passes is not initialized: its fields hold any
  values.  A failed allocation inside of the creation of a lock or of the
  barrier does not return: it runs into an assertion, or a null pointer is
  written to.

  * `schCreateTaskPool`: the call, with the blocks that it acquired and the
    pointers that it passed to the functions that release them;
  * `usable_iff`: when a call that succeeds returns a scheduler that can be used.
    The test of `cores` is one-sided, and the allocation of the packages is not
    tested at all;
  * `cleansUp_iff`: when a call that fails releases what it has acquired.  The
    cleanup looks at fields that may not have been assigned yet, and it knows
    four of the seven resources.
-/
import TaskSch.World

namespace TaskSch

/-! ## The state of the call -/

/-- `translate_errno_to_sch_error`. -/
def translateErrnoToSchError : Errno → SchErrCode
  | .enomem => .nomem
  | _ => .ok

inductive Resource where
  | pool | dheap | set | spinlock | mutex | conditional | barrier
  | package (i : ℕ)
  deriving DecidableEq

/-- A block of memory for `count` elements. -/
structure Block where
  what : Resource
  addr : ℕ
  count : ℕ
  deriving DecidableEq

/-- The object, the memory and the blocks acquired so far. -/
structure Creation where
  sch : SchTaskSch
  mem : Mem
  acquired : List Block

/-- The results of the calls made by `schCreateTaskPool`, and the contents of
    the memory that it gets.  A pool, `dheap` and `set` may be `NULL`; a lock
    cannot be allocated (`none`) or its initialization gives an error code. -/
structure CreateOs where
  pool : Bool
  dheap : Bool
  set : Bool
  spinlock : Option Errno
  mutex : Option Errno
  conditional : Option Errno
  barrier : Option Errno
  package : ℕ → Bool
  /-- what is found in the array `dheap` -/
  junk : ℕ → ℕ
  /-- what is found in the packages of each pool -/
  slot : ℕ → ℕ → SchTaskPackage

namespace Creation

def malloc (s : Creation) (what : Resource) (count : ℕ) : Creation :=
  { s with mem := s.mem.malloc, acquired := s.acquired ++ [⟨what, s.mem.next, count⟩] }

/-- A pointer that is tested for `NULL`; the call goes on with `SCH_OK`, else
    with `goto error`. -/
def take (s : Creation) (what : Resource) (count : ℕ) (ok : Bool) (status : SchErrCode)
    (store : SchTaskSch → Ptr → SchTaskSch) : Option (Creation × SchErrCode) :=
  if ok then some ({ s.malloc what count with sch := store s.sch (some s.mem.next) }, .ok)
  else some ({ s with sch := store s.sch none }, status)

/-- `schCreateMutex` and its siblings: the memory is stored before the lock is
    initialized. -/
def lock (s : Creation) (what : Resource) (result : Option Errno)
    (store : SchTaskSch → Ptr → SchTaskSch) : Option (Creation × SchErrCode) :=
  result.map fun r => ({ s.malloc what 1 with sch := store s.sch (some s.mem.next) },
    pthreadErrorCode2SchErrorCode r)

/-- `if (status != SCH_OK) goto error`. -/
def next (r : Option (Creation × SchErrCode))
    (rest : Creation → Option (Creation × SchErrCode)) : Option (Creation × SchErrCode) :=
  r.bind fun r => if r.2 = .ok then rest r.1 else some r

end Creation

section Steps

variable (os : CreateOs) (s : Creation)

def takePool : Option (Creation × SchErrCode) :=
  s.take .pool s.sch.num os.pool (translateErrnoToSchError .enomem)
    fun sch p => { sch with pool := p }

def takeDheap : Option (Creation × SchErrCode) :=
  s.take .dheap s.sch.num os.dheap (translateErrnoToSchError .enomem)
    fun sch p => { sch with dheap := p, order := (List.range sch.num).map os.junk }

def takeSet : Option (Creation × SchErrCode) :=
  s.take .set 1 os.set .unknown fun sch p => { sch with set := p }

def schCreateSpinLock : Option (Creation × SchErrCode) :=
  s.lock .spinlock os.spinlock fun sch p => { sch with spinlock := p }

def schCreateMutex : Option (Creation × SchErrCode) :=
  s.lock .mutex os.mutex fun sch p => { sch with mutex := p }

def schCreateConditional : Option (Creation × SchErrCode) :=
  s.lock .conditional os.conditional fun sch p => { sch with conditional := p }

/-- `schCreateBarrier` and `schInitBarrier`; `pthread_barrier_init` rejects the
    count 0. -/
def createBarrier : Option (Creation × SchErrCode) :=
  s.lock .barrier (os.barrier.map fun r => if s.sch.num = 0 then .einval else r)
    fun sch p => { sch with barrier := p }

/-- A round of the loop over the pools.  The package buffer is not tested for
    `NULL`. -/
def createPool (self : ℕ) (maxPackagesPool : UInt32) (i : ℕ) : Creation :=
  let p := if os.package i then some s.mem.next else none
  let s := if os.package i then s.malloc (.package i) maxPackagesPool.toNat else s
  { s with
    sch := { s.sch with
      order := s.sch.order.set i i
      pools := Function.update s.sch.pools i (.create self i maxPackagesPool p (os.slot i)) } }

end Steps

/-- The loop over the pools `i .. i + k - 1`. -/
def createPools (os : CreateOs) (self : ℕ) (maxPackagesPool : UInt32) :
    ℕ → ℕ → Creation → Creation
  | 0, _, s => s
  | k + 1, i, s => createPools os self maxPackagesPool k (i + 1)
      (createPool os s self maxPackagesPool i)

open Creation in
/-- The acquisitions before the loop. -/
def acquire (os : CreateOs) (s : Creation) : Option (Creation × SchErrCode) :=
  next (takePool os s) fun s => next (takeDheap os s) fun s => next (takeSet os s) fun s =>
    next (schCreateSpinLock os s) fun s => next (schCreateMutex os s) fun s =>
      next (schCreateConditional os s) fun s => next (createBarrier os s) fun s => some (s, .ok)

/-- The pointers that `sch_release_scheduler_resources` releases. -/
def SchTaskSch.resources (sch : SchTaskSch) : List ℕ :=
  sch.pool.toList ++ sch.dheap.toList ++ sch.set.toList ++ sch.spinlock.toList

def Mem.freeAll (m : Mem) (addrs : List ℕ) : Mem := addrs.foldl (fun m a => m.free (some a)) m

/-- What a call of `schCreateTaskPool` leaves: the object, the memory, the blocks
    acquired, the pointers released and the status; `error` if it was left
    through its error exit. -/
structure CreateReturn where
  sch : Option SchTaskSch
  mem : Mem
  acquired : List Block
  released : List ℕ
  status : SchErrCode
  error : Bool

/-- The number of cores after the tests; `-1` stands for all of them. -/
def effectiveCores (ncpu cores : Int32) : Int32 := if cores = -1 then ncpu else cores

/-- The object when its first fields have been assigned. -/
def SchTaskSch.reset (sch : SchTaskSch) (cores : Int32) (flag : Flag) : SchTaskSch :=
  { sch with
    num := cores.toUInt32.toNat
    flag := flag &&& ~~~(schFlagInit ||| schFlagRunning) }

/-- `schCreateTaskPool`, where `schGetNumCPUCores` returns `ncpu` and `self` is
    the calling thread. -/
def schCreateTaskPool (os : CreateOs) (self : ℕ) (ncpu : Int32) (mem : Mem)
    (sch : Option SchTaskSch) (cores : Int32) (flag : Flag) (maxPackagesPool : UInt32) :
    Option CreateReturn :=
  match sch with
  | none => some ⟨sch, mem, [], [], .invalidSch, false⟩
  | some sch =>
    if cores > ncpu then some ⟨sch, mem, [], [], .invalidArg, false⟩
    else
      (acquire os ⟨sch.reset (effectiveCores ncpu cores) flag, mem, []⟩).map fun (s, status) =>
        if status = .ok then
          let s := createPools os self maxPackagesPool s.sch.num 0 s
          ⟨some { s.sch with flag := s.sch.flag ||| schFlagInit }, s.mem, s.acquired, [], status,
            false⟩
        else
          ⟨some s.sch, s.mem.freeAll s.sch.resources, s.acquired, s.sch.resources, status, true⟩

/-! ## The acquisitions -/

/-- The initialization of a lock succeeds. -/
def LockOk (result : Option Errno) : Prop :=
  ∃ r, result = some r ∧ pthreadErrorCode2SchErrorCode r = .ok

namespace Creation

variable {s s' : Creation} {status : SchErrCode} {rest : Creation → Option (Creation × SchErrCode)}
  {what : Resource} {store : SchTaskSch → Ptr → SchTaskSch}

/-- The state after a block was acquired and stored. -/
def got (s : Creation) (what : Resource) (count : ℕ) (store : SchTaskSch → Ptr → SchTaskSch) :
    Creation :=
  { s.malloc what count with sch := store s.sch (some s.mem.next) }

@[simp] theorem got_sch (s : Creation) (what : Resource) (count : ℕ)
    (store : SchTaskSch → Ptr → SchTaskSch) :
    (s.got what count store).sch = store s.sch (some s.mem.next) := rfl

@[simp] theorem got_next (s : Creation) (what : Resource) (count : ℕ)
    (store : SchTaskSch → Ptr → SchTaskSch) : (s.got what count store).mem.next = s.mem.next + 1 :=
  rfl

@[simp] theorem got_acquired (s : Creation) (what : Resource) (count : ℕ)
    (store : SchTaskSch → Ptr → SchTaskSch) :
    (s.got what count store).acquired = s.acquired ++ [⟨what, s.mem.next, count⟩] := rfl

/-- A pointer that is tested: the call goes on, or is left with the old blocks. -/
theorem next_take {count : ℕ} {ok : Bool} {code : SchErrCode} (hcode : code ≠ .ok)
    (h : next (s.take what count ok code store) rest = some (s', status)) :
    (ok = true ∧ rest (s.got what count store) = some (s', status)) ∨
      (ok = false ∧ s' = { s with sch := store s.sch none } ∧ status = code) := by
  cases ok with
  | true => exact .inl ⟨rfl, h⟩
  | false =>
    simp only [next, take, Bool.false_eq_true, if_false, Option.bind_some, if_neg hcode] at h
    cases h
    exact .inr ⟨rfl, rfl, rfl⟩

/-- A lock: the call goes on, or is left with the new block. -/
theorem next_lock {result : Option Errno}
    (h : next (s.lock what result store) rest = some (s', status)) :
    (LockOk result ∧ rest (s.got what 1 store) = some (s', status)) ∨
      (¬ LockOk result ∧ s' = s.got what 1 store ∧ status ≠ .ok) := by
  cases result with
  | none => cases h
  | some r =>
    have hiff : LockOk (some r) ↔ pthreadErrorCode2SchErrorCode r = .ok := by
      constructor
      · rintro ⟨_, he, hr⟩
        cases he
        exact hr
      · intro hr
        exact ⟨r, rfl, hr⟩
    rw [hiff]
    simp only [next, lock, Option.map_some, Option.bind_some] at h
    split_ifs at h with hr
    · exact .inl ⟨hr, h⟩
    · cases h
      exact .inr ⟨hr, rfl, hr⟩

/-! The states after the pool, `dheap`, the signal set and the spinlock, and
    after the other three locks. -/

section States

variable (os : CreateOs) (s : Creation)

def withPool : Creation := s.got .pool s.sch.num fun sch p => { sch with pool := p }

def withDheap : Creation :=
  s.withPool.got .dheap s.sch.num
    fun sch p => { sch with dheap := p, order := (List.range sch.num).map os.junk }

def withSet : Creation := (s.withDheap os).got .set 1 fun sch p => { sch with set := p }

def withSpinlock : Creation :=
  (s.withSet os).got .spinlock 1 fun sch p => { sch with spinlock := p }

def withMutex : Creation := (s.withSpinlock os).got .mutex 1 fun sch p => { sch with mutex := p }

def withConditional : Creation :=
  (s.withMutex os).got .conditional 1 fun sch p => { sch with conditional := p }

def withBarrier : Creation :=
  (s.withConditional os).got .barrier 1 fun sch p => { sch with barrier := p }

end States

end Creation

open Creation

/-- Everything that the acquisitions before the loop can do. -/
inductive Acquires (os : CreateOs) (s : Creation) : Creation → SchErrCode → Prop
  | noPool (h : os.pool = false) :
      Acquires os s { s with sch := { s.sch with pool := none } } .nomem
  | noDheap (h1 : os.pool = true) (h : os.dheap = false) :
      Acquires os s { s.withPool with sch := { s.withPool.sch with
        dheap := none, order := (List.range s.sch.num).map os.junk } } .nomem
  | noSet (h1 : os.pool = true) (h2 : os.dheap = true) (h : os.set = false) :
      Acquires os s
        { s.withDheap os with sch := { (s.withDheap os).sch with set := none } } .unknown
  | noSpinlock (h1 : os.pool = true) (h2 : os.dheap = true) (h3 : os.set = true)
      (h : ¬ LockOk os.spinlock) {status : SchErrCode} (hst : status ≠ .ok) :
      Acquires os s (s.withSpinlock os) status
  | late (h1 : os.pool = true) (h2 : os.dheap = true) (h3 : os.set = true)
      (h4 : LockOk os.spinlock) {s' : Creation}
      (hs : s' = s.withMutex os ∨ s' = s.withConditional os ∨ s' = s.withBarrier os)
      (h : ¬ (LockOk os.mutex ∧ LockOk os.conditional ∧ LockOk os.barrier ∧ s.sch.num ≠ 0))
      {status : SchErrCode} (hst : status ≠ .ok) : Acquires os s s' status
  | all (h1 : os.pool = true) (h2 : os.dheap = true) (h3 : os.set = true)
      (h4 : LockOk os.spinlock) (h5 : LockOk os.mutex) (h6 : LockOk os.conditional)
      (h7 : LockOk os.barrier) (hnum : s.sch.num ≠ 0) : Acquires os s (s.withBarrier os) .ok

theorem lockOk_barrier {result : Option Errno} {n : ℕ} :
    LockOk (result.map fun r => if n = 0 then .einval else r) ↔ LockOk result ∧ n ≠ 0 := by
  cases result with
  | none =>
    refine iff_of_false ?_ ?_
    · rintro ⟨r, hr, -⟩
      cases hr
    · rintro ⟨⟨r, hr, -⟩, -⟩
      cases hr
  | some r =>
    by_cases hn : n = 0
    · refine iff_of_false ?_ (fun h => h.2 hn)
      rintro ⟨_, hr, hok⟩
      simp only [Option.map_some, if_pos hn] at hr
      cases hr
      cases hok
    · simp only [Option.map_some, if_neg hn]
      exact ⟨fun h => ⟨h, hn⟩, fun h => h.1⟩

theorem acquire_cases {os : CreateOs} {s s' : Creation} {status : SchErrCode}
    (h : acquire os s = some (s', status)) : Acquires os s s' status := by
  obtain ⟨h1, h⟩ | ⟨h1, rfl, rfl⟩ := next_take (by decide) h
  swap
  · exact .noPool h1
  obtain ⟨h2, h⟩ | ⟨h2, rfl, rfl⟩ := next_take (by decide) h
  swap
  · exact .noDheap h1 h2
  obtain ⟨h3, h⟩ | ⟨h3, rfl, rfl⟩ := next_take (by decide) h
  swap
  · exact .noSet h1 h2 h3
  obtain ⟨h4, h⟩ | ⟨h4, rfl, hst⟩ := next_lock h
  swap
  · exact .noSpinlock h1 h2 h3 h4 hst
  obtain ⟨h5, h⟩ | ⟨h5, rfl, hst⟩ := next_lock h
  swap
  · exact .late h1 h2 h3 h4 (.inl rfl) (fun hl => h5 hl.1) hst
  obtain ⟨h6, h⟩ | ⟨h6, rfl, hst⟩ := next_lock h
  swap
  · exact .late h1 h2 h3 h4 (.inr (.inl rfl)) (fun hl => h6 hl.2.1) hst
  obtain ⟨h7, h⟩ | ⟨h7, rfl, hst⟩ := next_lock h
  swap
  · refine .late h1 h2 h3 h4 (.inr (.inr rfl)) ?_ hst
    rintro ⟨-, -, hb, hnum⟩
    exact h7 (lockOk_barrier.2 ⟨hb, hnum⟩)
  obtain ⟨h7, hnum⟩ := lockOk_barrier.1 h7
  cases h
  exact .all h1 h2 h3 h4 h5 h6 h7 hnum

/-! ## The loop over the pools -/

/-- The package buffer of pool `j` is allocated for `count` elements. -/
def Backed (s : Creation) (j count : ℕ) (p : Ptr) : Prop :=
  ∃ a, p = some a ∧ ⟨.package j, a, count⟩ ∈ s.acquired ∧ a ∈ s.mem.live

/-- What the rounds `i .. i + k - 1` of the loop do. -/
structure Loops (os : CreateOs) (me : ℕ) (maxPackagesPool : UInt32) (i k : ℕ)
    (s s' : Creation) : Prop where
  sch : s'.sch = { s.sch with order := s'.sch.order, pools := s'.sch.pools }
  length : s'.sch.order.length = s.sch.order.length
  order : ∀ j, i ≤ j → j < i + k → j < s.sch.order.length → s'.sch.order[j]? = some j
  pool : ∀ j, i ≤ j → j < i + k → ∃ p, s'.sch.pools j = .create me j maxPackagesPool p (os.slot j) ∧
    (os.package j = false → p = none) ∧
    (os.package j = true → Backed s' j maxPackagesPool.toNat p)
  other : ∀ j, j < i ∨ i + k ≤ j →
    s'.sch.pools j = s.sch.pools j ∧ s'.sch.order[j]? = s.sch.order[j]?
  acquired : s.acquired ⊆ s'.acquired
  live : s.mem.live ⊆ s'.mem.live
  below : (∀ a ∈ s.mem.live, a < s.mem.next) → ∀ a ∈ s'.mem.live, a < s'.mem.next

theorem Mem.malloc_below {m : Mem} (h : ∀ a ∈ m.live, a < m.next) :
    ∀ a ∈ m.malloc.live, a < m.malloc.next := by
  intro a ha
  rcases Finset.mem_insert.1 ha with rfl | ha
  · exact Nat.lt_succ_self _
  · exact (h a ha).trans (Nat.lt_succ_self _)

theorem Backed.mono {s s' : Creation} {j count : ℕ} {p : Ptr} (h : Backed s j count p)
    (hacq : s.acquired ⊆ s'.acquired) (hlive : s.mem.live ⊆ s'.mem.live) : Backed s' j count p := by
  obtain ⟨a, rfl, h1, h2⟩ := h
  exact ⟨a, rfl, hacq h1, hlive h2⟩

/-- The object after a round, whether or not the package buffer is there. -/
theorem createPool_sch (os : CreateOs) (self : ℕ) (maxPackagesPool : UInt32) (i : ℕ)
    (s : Creation) :
    (createPool os s self maxPackagesPool i).sch = { s.sch with
      order := s.sch.order.set i i
      pools := Function.update s.sch.pools i (.create self i maxPackagesPool
        (if os.package i then some s.mem.next else none) (os.slot i)) } := by
  unfold createPool
  cases os.package i <;> rfl

/-- The memory after a round. -/
theorem createPool_mem (os : CreateOs) (self : ℕ) (maxPackagesPool : UInt32) (i : ℕ)
    (s : Creation) :
    (createPool os s self maxPackagesPool i).mem = (if os.package i then s.mem.malloc else s.mem) ∧
      (createPool os s self maxPackagesPool i).acquired = if os.package i then
        s.acquired ++ [⟨.package i, s.mem.next, maxPackagesPool.toNat⟩] else s.acquired := by
  unfold createPool
  cases os.package i <;> exact ⟨rfl, rfl⟩

/-- One round. -/
theorem createPool_spec (os : CreateOs) (self : ℕ) (maxPackagesPool : UInt32) (i : ℕ)
    (s : Creation) :
    Loops os self maxPackagesPool i 1 s (createPool os s self maxPackagesPool i) := by
  have hsch := createPool_sch os self maxPackagesPool i s
  obtain ⟨hmem, hacq⟩ := createPool_mem os self maxPackagesPool i s
  refine ⟨by rw [hsch], by rw [hsch]; simp, ?_, ?_, ?_, ?_, ?_, ?_⟩
  · intro j h1 h2 hj
    obtain rfl : j = i := by omega
    rw [hsch]
    simp [hj]
  · intro j h1 h2
    obtain rfl : j = i := by omega
    refine ⟨if os.package j then some s.mem.next else none, ?_, ?_, ?_⟩
    · rw [hsch]
      exact Function.update_self ..
    · intro hpkg
      simp [hpkg]
    · intro hpkg
      simp only [hpkg, if_true] at hmem hacq ⊢
      exact ⟨s.mem.next, rfl, by simp [hacq], by simp [hmem, Mem.malloc]⟩
  · intro j hj
    have hne : j ≠ i := by omega
    rw [hsch]
    simp [hne, Ne.symm hne]
  · rw [hacq]
    split_ifs <;> simp
  · rw [hmem]
    split_ifs <;> simp [Mem.malloc]
  · intro hbelow
    rw [hmem]
    split_ifs
    · exact Mem.malloc_below hbelow
    · exact hbelow

theorem Loops.cons {os : CreateOs} {self : ℕ} {maxPackagesPool : UInt32} {i k : ℕ}
    {s s₁ s' : Creation} (h1 : Loops os self maxPackagesPool i 1 s s₁)
    (h2 : Loops os self maxPackagesPool (i + 1) k s₁ s') :
    Loops os self maxPackagesPool i (k + 1) s s' := by
  refine ⟨by rw [h2.sch, h1.sch], h2.length.trans h1.length, ?_, ?_, ?_,
    List.Subset.trans h1.acquired h2.acquired, Finset.Subset.trans h1.live h2.live,
    fun h => h2.below (h1.below h)⟩
  · intro j hij hjk hj
    by_cases hji : j = i
    · rw [(h2.other j (by omega)).2]
      exact h1.order j hij (by omega) hj
    · exact h2.order j (by omega) (by omega) (h1.length.symm ▸ hj)
  · intro j hij hjk
    by_cases hji : j = i
    · obtain ⟨p, hp, hnone, hsome⟩ := h1.pool j hij (by omega)
      refine ⟨p, (h2.other j (by omega)).1.trans hp, hnone, ?_⟩
      intro hpkg
      exact (hsome hpkg).mono h2.acquired h2.live
    · exact h2.pool j (by omega) (by omega)
  · intro j hj
    obtain ⟨hp, ho⟩ := h2.other j (by omega)
    obtain ⟨hp', ho'⟩ := h1.other j (by omega)
    exact ⟨hp.trans hp', ho.trans ho'⟩

theorem createPools_spec (os : CreateOs) (self : ℕ) (maxPackagesPool : UInt32) (i k : ℕ)
    (s : Creation) :
    Loops os self maxPackagesPool i k s (createPools os self maxPackagesPool k i s) := by
  induction k generalizing i s with
  | zero =>
    refine ⟨rfl, rfl, ?_, ?_, fun _ _ => ⟨rfl, rfl⟩, fun _ => id, fun _ => id, id⟩
    · intro j h1 h2
      omega
    · intro j h1 h2
      omega
  | succ k ih => exact (createPool_spec os self maxPackagesPool i s).cons (ih (i + 1) _)

section Loops

variable {os : CreateOs} {me : ℕ} {maxPackagesPool : UInt32} {k i : ℕ} {s s' : Creation}

/-- Nothing is stored for a package buffer that could not be allocated. -/
theorem Loops.missing (h : Loops os me maxPackagesPool 0 k s s') (hi : i < k)
    (hpkg : os.package i = false) : (s'.sch.pools i).package = none := by
  obtain ⟨p, hp, hnone, -⟩ := h.pool i (Nat.zero_le i) (by omega)
  rw [hp]
  exact hnone hpkg

/-- `dheap` lists the pools in their order. -/
theorem Loops.order_range (h : Loops os me maxPackagesPool 0 k s s')
    (hlen : s.sch.order.length = k) : s'.sch.order = List.range k := by
  refine List.ext_getElem? ?_
  intro j
  by_cases hj : j < k
  · rw [h.order j (Nat.zero_le j) (by omega) (by omega), List.getElem?_range hj]
  · rw [List.getElem?_eq_none (by rw [h.length]; omega),
      List.getElem?_eq_none (by rw [List.length_range]; omega)]

theorem Loops.backed (h : Loops os me maxPackagesPool 0 k s s') (hi : i < k)
    (hpkg : os.package i = true) :
    Backed s' i maxPackagesPool.toNat (s'.sch.pools i).package := by
  obtain ⟨p, hp, -, hsome⟩ := h.pool i (Nat.zero_le i) (by omega)
  rw [hp]
  exact hsome hpkg

end Loops

/-! ## A call that fails -/

/-- What was acquired is released once, and nothing else is released. -/
structure CleansUp (r : CreateReturn) : Prop where
  acquired : ∀ a ∈ r.released, a ∈ r.acquired.map Block.addr
  once : ∀ b ∈ r.acquired, r.released.count b.addr = 1

/-- The first acquisition that fails is the pool, and the fields for the next
    three are `NULL` already; or it is `dheap`, and the next two are; or the
    signal set, and the next one is; or it is the spinlock. -/
def CleanExit (os : CreateOs) (sch : SchTaskSch) : Prop :=
  (os.pool = false ∧ sch.dheap = none ∧ sch.set = none ∧ sch.spinlock = none) ∨
    (os.pool = true ∧ os.dheap = false ∧ sch.set = none ∧ sch.spinlock = none) ∨
    (os.pool = true ∧ os.dheap = true ∧ os.set = false ∧ sch.spinlock = none) ∨
    (os.pool = true ∧ os.dheap = true ∧ os.set = true ∧ ¬ LockOk os.spinlock)

/-- Pointers on top of what was acquired are too many. -/
theorem cleansUp_append {r : CreateReturn} (more : List ℕ)
    (hnodup : (r.acquired.map Block.addr).Nodup)
    (h : r.released = r.acquired.map Block.addr ++ more) : CleansUp r ↔ more = [] := by
  constructor
  · intro hc
    refine List.eq_nil_iff_forall_not_mem.2 ?_
    intro a ha
    have hmem := hc.acquired a (h ▸ List.mem_append_right _ ha)
    obtain ⟨b, hb, rfl⟩ := List.mem_map.1 hmem
    have hone := hc.once b hb
    rw [h, List.count_append, List.count_eq_one_of_mem hnodup hmem] at hone
    have hpos := List.count_pos_iff.2 ha
    omega
  · rintro rfl
    rw [List.append_nil] at h
    constructor
    · intro a ha
      exact h ▸ ha
    · intro b hb
      rw [h]
      exact List.count_eq_one_of_mem hnodup (List.mem_map_of_mem hb)

section Call

variable {os : CreateOs} {me : ℕ} {ncpu : Int32} {mem : Mem} {sch : SchTaskSch} {cores : Int32}
  {flag : Flag} {maxPackagesPool : UInt32} {r : CreateReturn}

/-- The start of a call that passes its tests. -/
def creationStart (ncpu : Int32) (mem : Mem) (sch : SchTaskSch) (cores : Int32) (flag : Flag) :
    Creation := ⟨sch.reset (effectiveCores ncpu cores) flag, mem, []⟩

/-- The array `dheap` has one entry for each pool. -/
theorem order_length (os : CreateOs) (ncpu : Int32) (mem : Mem) (sch : SchTaskSch) (cores : Int32)
    (flag : Flag) : ((creationStart ncpu mem sch cores flag).withBarrier os).sch.order.length =
      (effectiveCores ncpu cores).toUInt32.toNat := by
  simp [withBarrier, withConditional, withMutex, withSpinlock, withSet, withDheap, withPool,
    creationStart, SchTaskSch.reset]

theorem Loops.num {s' : Creation} {k : ℕ} (h : Loops os me maxPackagesPool 0 k
    ((creationStart ncpu mem sch cores flag).withBarrier os) s') :
    s'.sch.num = (effectiveCores ncpu cores).toUInt32.toNat := by
  rw [h.sch]
  rfl

/-- A call is refused, or fails through its error exit, or succeeds. -/
theorem schCreateTaskPool_cases
    (h : schCreateTaskPool os me ncpu mem (some sch) cores flag maxPackagesPool = some r) :
    (cores > ncpu ∧ r = ⟨some sch, mem, [], [], .invalidArg, false⟩) ∨
    (¬ cores > ncpu ∧ ∃ s status, Acquires os (creationStart ncpu mem sch cores flag) s status ∧
      ((status ≠ .ok ∧ r = ⟨some s.sch, s.mem.freeAll s.sch.resources, s.acquired, s.sch.resources,
          status, true⟩) ∨
        ∃ s', status = .ok ∧ Loops os me maxPackagesPool 0 s.sch.num s s' ∧
          r = ⟨some { s'.sch with flag := s'.sch.flag ||| schFlagInit }, s'.mem, s'.acquired, [],
            .ok, false⟩)) := by
  simp only [schCreateTaskPool] at h
  split_ifs at h with hcores
  · cases h; exact .inl ⟨hcores, rfl⟩
  · right
    refine ⟨hcores, ?_⟩
    obtain ⟨⟨s, status⟩, hacq, hr⟩ := Option.map_eq_some_iff.1 h
    refine ⟨s, status, acquire_cases hacq, ?_⟩
    simp only at hr
    split_ifs at hr with hst
    · right
      refine ⟨_, hst, createPools_spec os me maxPackagesPool 0 s.sch.num s, ?_⟩
      rw [← hr, hst]
    · exact .inl ⟨hst, hr.symm⟩

end Call

/-- **When a call that fails cleans up**, whatever the object held before. -/
theorem cleansUp_iff (os : CreateOs) (me : ℕ) (ncpu : Int32) (mem : Mem) (sch : SchTaskSch)
    (cores : Int32) (flag : Flag) (maxPackagesPool : UInt32) (r : CreateReturn)
    (h : schCreateTaskPool os me ncpu mem (some sch) cores flag maxPackagesPool = some r)
    (herr : r.error = true) : CleansUp r ↔ CleanExit os sch := by
  obtain ⟨-, rfl⟩ | ⟨-, s, status, hacq, ⟨hst, rfl⟩ | ⟨s', -, -, rfl⟩⟩ := schCreateTaskPool_cases h
  · cases herr
  swap
  · cases herr
  cases hacq with
  | noPool h1 =>
    rw [cleansUp_append (sch.dheap.toList ++ (sch.set.toList ++ sch.spinlock.toList))
      (by simp [creationStart])
      (by simp [creationStart, SchTaskSch.resources, SchTaskSch.reset])]
    simp [CleanExit, h1, Option.toList_eq_nil_iff]
  | noDheap h1 h2 =>
    rw [cleansUp_append (sch.set.toList ++ sch.spinlock.toList)
      (by simp [creationStart, withPool])
      (by simp [creationStart, SchTaskSch.resources, SchTaskSch.reset, withPool])]
    simp [CleanExit, h1, h2, Option.toList_eq_nil_iff]
  | noSet h1 h2 h3 =>
    rw [cleansUp_append sch.spinlock.toList
      (by simp [creationStart, withDheap, withPool])
      (by simp [creationStart, SchTaskSch.resources, SchTaskSch.reset, withDheap, withPool])]
    simp [CleanExit, h1, h2, h3, Option.toList_eq_nil_iff]
  | noSpinlock h1 h2 h3 h4 =>
    rw [cleansUp_append []
      (by simp [creationStart, withSpinlock, withSet, withDheap, withPool]; omega)
      (by simp [creationStart, SchTaskSch.resources, withSpinlock, withSet, withDheap, withPool])]
    simp [CleanExit, h1, h2, h3, h4]
  | late h1 h2 h3 h4 hs hl =>
    -- the mutex is not among the resources that the cleanup knows
    refine iff_of_false ?_ (by simp [CleanExit, h1, h2, h3, h4])
    intro hc
    have hmutex : ⟨.mutex, mem.next + 4, 1⟩ ∈ s.acquired := by
      rcases hs with rfl | rfl | rfl <;>
        simp [creationStart, withBarrier, withConditional, withMutex, withSpinlock, withSet,
          withDheap, withPool]
    have hres : s.sch.resources = [mem.next, mem.next + 1, mem.next + 2, mem.next + 3] := by
      rcases hs with rfl | rfl | rfl <;>
        simp [creationStart, SchTaskSch.resources, withBarrier, withConditional, withMutex,
          withSpinlock, withSet, withDheap, withPool]
    have hone := hc.once _ hmutex
    simp [hres] at hone
  | all => exact absurd rfl hst

/-- All calls succeed. -/
def CreateOs.allOk : CreateOs :=
  ⟨true, true, true, some .zero, some .zero, some .zero, some .zero, fun _ => true, fun _ => 0,
    fun _ _ => .ofCallback 0⟩

/-- An object filled with zeros. -/
def SchTaskSch.zeroed : SchTaskSch :=
  ⟨0, none, 0, none, none, none, none, none, none,
    fun i => .create 0 i 0 none fun _ => .ofCallback 0, []⟩

/-- The signal set cannot be allocated: the two blocks before it are freed, and
    not what the object held for them. -/
theorem cleansUp_noSet : ∃ r,
    schCreateTaskPool { CreateOs.allOk with set := false } 0 1 ⟨∅, 0⟩
      (some { SchTaskSch.zeroed with dheap := some 99 }) 1 0 1 = some r ∧
    r.acquired.length = 2 ∧ CleansUp r := by
  refine ⟨_, rfl, rfl, ?_⟩
  exact (cleansUp_iff { CreateOs.allOk with set := false } 0 1 ⟨∅, 0⟩
    { SchTaskSch.zeroed with dheap := some 99 } 1 0 1 _ rfl rfl).2
      (.inr (.inr (.inl ⟨rfl, rfl, rfl, rfl⟩)))

/-- A pointer that was in the object before is passed to `free`. -/
theorem junk_released :
    ¬ ∀ (os : CreateOs) (me : ℕ) (ncpu : Int32) (mem : Mem) (sch : SchTaskSch) (cores : Int32)
      (flag : Flag) (maxPackagesPool : UInt32) (r : CreateReturn),
      schCreateTaskPool os me ncpu mem (some sch) cores flag maxPackagesPool = some r →
      r.error = true → CleansUp r := by
  intro h
  have hc := h { CreateOs.allOk with pool := false } 0 1 ⟨∅, 0⟩
    { SchTaskSch.zeroed with dheap := some 99 } 1 0 1 _ rfl rfl
  exact absurd (hc.acquired 99 (by decide)) (by decide)

/-! ## A call that succeeds -/

/-- The scheduler that a call is meant to return. -/
structure Usable (ncpu : Int32) (flag : Flag) (maxPackagesPool : UInt32) (r : CreateReturn)
    (sch : SchTaskSch) : Prop where
  object : r.sch = some sch
  num_pos : 1 ≤ sch.num
  num_le : (sch.num : ℤ) ≤ ncpu.toInt
  dheap : ∀ i < sch.num, sch.order[i]? = some i
  pool : ∀ i < sch.num, (sch.pools i).index = i ∧ (sch.pools i).flag = 0 ∧
    (sch.pools i).head = 0 ∧ (sch.pools i).tail = 0 ∧ (sch.pools i).size = 0 ∧
    (sch.pools i).reserved = maxPackagesPool.toNat
  package : ∀ i < sch.num, ∃ a, (sch.pools i).package = some a ∧
    ⟨.package i, a, maxPackagesPool.toNat⟩ ∈ r.acquired ∧ a ∈ r.mem.live
  flag : sch.flag = flag &&& ~~~schFlagRunning ||| schFlagInit

/-- The tests of the arguments pass, and nothing fails before the loop. -/
structure Granted (os : CreateOs) (ncpu : Int32) (sch : Option SchTaskSch) (cores : Int32) :
    Prop where
  object : sch.isSome
  cores_le : cores ≤ ncpu
  pool : os.pool = true
  dheap : os.dheap = true
  set : os.set = true
  spinlock : LockOk os.spinlock
  mutex : LockOk os.mutex
  conditional : LockOk os.conditional
  barrier : LockOk os.barrier
  some_core : (effectiveCores ncpu cores).toUInt32.toNat ≠ 0

theorem toInt_cond (c : Int32) :
    c.toInt = if 2 * c.toUInt32.toNat < 2 ^ 32 then (c.toUInt32.toNat : ℤ)
      else (c.toUInt32.toNat : ℤ) - (2 ^ 32 : ℕ) :=
  BitVec.toInt_eq_toNat_cond c.toBitVec

/-- The conversion to `unsigned int` keeps the numbers that are not negative, ... -/
theorem toUInt32_of_nonneg {c : Int32} (h : 0 ≤ c.toInt) : (c.toUInt32.toNat : ℤ) = c.toInt := by
  have hlt := c.toUInt32.toNat_lt
  have hcond := toInt_cond c
  split at hcond <;> omega

/-- ... and makes the others greater than every `int`. -/
theorem toUInt32_of_neg {c : Int32} (h : c.toInt < 0) : 2 ^ 31 ≤ c.toUInt32.toNat := by
  have hcond := toInt_cond c
  split at hcond <;> omega

theorem effectiveCores_le {ncpu cores : Int32} (h : cores ≤ ncpu) :
    effectiveCores ncpu cores ≤ ncpu := by
  rw [effectiveCores]
  split_ifs
  · exact Int32.le_refl ncpu
  · exact h

/-- The number of pools is at most that of the cores iff it is not negative. -/
theorem num_le_iff {ncpu cores : Int32} (h : cores ≤ ncpu) :
    ((effectiveCores ncpu cores).toUInt32.toNat : ℤ) ≤ ncpu.toInt ↔
      0 ≤ (effectiveCores ncpu cores).toInt := by
  have hle := Int32.le_iff_toInt_le.1 (effectiveCores_le h)
  have hmax := ncpu.toInt_lt
  constructor
  · intro hn
    by_contra hneg
    have hbig := toUInt32_of_neg (not_le.1 hneg)
    omega
  · intro hn
    rw [toUInt32_of_nonneg hn]
    exact hle

/-- `SCH_FLAG_INIT` is cleared and set again. -/
theorem flag_reset (flag init running : Flag) :
    flag &&& ~~~(init ||| running) ||| init = flag &&& ~~~running ||| init := by
  ext i hi
  simp only [BitVec.getElem_or, BitVec.getElem_and, BitVec.getElem_not]
  cases flag[i] <;> cases init[i] <;> cases running[i] <;> rfl

section Call

variable {os : CreateOs} {me : ℕ} {ncpu : Int32} {mem : Mem} {sch : SchTaskSch} {cores : Int32}
  {flag : Flag} {maxPackagesPool : UInt32} {r : CreateReturn}

/-- A call succeeds iff everything before the loop is granted.  Then the loop has
    set up all pools. -/
theorem schCreateTaskPool_ok
    (h : schCreateTaskPool os me ncpu mem (some sch) cores flag maxPackagesPool = some r) :
    (r.status ≠ .ok ∧ ¬ Granted os ncpu (some sch) cores) ∨
    (Granted os ncpu (some sch) cores ∧ ∃ s',
      Loops os me maxPackagesPool 0 (effectiveCores ncpu cores).toUInt32.toNat
        ((creationStart ncpu mem sch cores flag).withBarrier os) s' ∧
      r = ⟨some { s'.sch with flag := s'.sch.flag ||| schFlagInit }, s'.mem, s'.acquired, [], .ok,
        false⟩) := by
  obtain ⟨hgt, rfl⟩ | ⟨hle, s, status, hacq, hcase⟩ := schCreateTaskPool_cases h
  · refine .inl ⟨by simp, ?_⟩
    intro hg
    exact absurd hgt (Int32.not_lt.2 hg.cores_le)
  obtain ⟨hst, rfl⟩ | ⟨s', rfl, hloop, rfl⟩ := hcase
  · refine .inl ⟨hst, ?_⟩
    intro hg
    cases hacq with
    | noPool h1 => rw [hg.pool] at h1; cases h1
    | noDheap _ h1 => rw [hg.dheap] at h1; cases h1
    | noSet _ _ h1 => rw [hg.set] at h1; cases h1
    | noSpinlock _ _ _ h1 => exact h1 hg.spinlock
    | late _ _ _ _ _ h1 => exact h1 ⟨hg.mutex, hg.conditional, hg.barrier, hg.some_core⟩
    | all => exact hst rfl
  · right
    cases hacq with
    | noSpinlock _ _ _ _ hst => exact absurd rfl hst
    | late _ _ _ _ _ _ hst => exact absurd rfl hst
    | all h1 h2 h3 h4 h5 h6 h7 hnum =>
      exact ⟨⟨rfl, Int32.not_lt.1 hle, h1, h2, h3, h4, h5, h6, h7, hnum⟩, s', hloop, rfl⟩

end Call

/-- **When a call that succeeds returns a usable scheduler**: if all is granted,
    the number of cores must not be negative, and the package buffers of all
    pools must have been allocated. -/
theorem usable_iff (os : CreateOs) (me : ℕ) (ncpu : Int32) (mem : Mem) (sch : Option SchTaskSch)
    (cores : Int32) (flag : Flag) (maxPackagesPool : UInt32) (r : CreateReturn)
    (h : schCreateTaskPool os me ncpu mem sch cores flag maxPackagesPool = some r) :
    (r.status = .ok → ∃ sch', Usable ncpu flag maxPackagesPool r sch') ↔
      (Granted os ncpu sch cores → 0 ≤ (effectiveCores ncpu cores).toInt ∧
        ∀ i < (effectiveCores ncpu cores).toUInt32.toNat, os.package i = true) := by
  cases sch with
  | none =>
    cases h
    refine iff_of_true (fun hst => by cases hst) ?_
    intro hg
    exact absurd hg.object (by simp)
  | some sch =>
    obtain ⟨hst, hg⟩ | ⟨hg, s', hloop, rfl⟩ := schCreateTaskPool_ok h
    · exact iff_of_true (fun hok => absurd hok hst) (fun hg' => absurd hg' hg)
    have hnum := hloop.num
    have hlen := order_length os ncpu mem sch cores flag
    simp only [hg, true_imp_iff]
    rw [← num_le_iff hg.cores_le, ← hnum]
    constructor
    · rintro ⟨sch', hu⟩
      have hobj := Option.some.inj hu.object
      subst hobj
      refine ⟨hu.num_le, ?_⟩
      intro i hi
      by_contra hpkg
      obtain ⟨a, ha, -⟩ := hu.package i hi
      have hnone := hloop.missing (hnum ▸ hi) (by simpa using hpkg)
      rw [hnone] at ha
      cases ha
    · rintro ⟨hle, hpkg⟩
      refine ⟨_, rfl, ?_, hle, ?_, ?_, ?_, ?_⟩
      · have := hg.some_core
        simp only
        omega
      · intro i hi
        exact hloop.order i (Nat.zero_le _) (by simp only at hi; omega) (by simp only at hi; omega)
      · intro i hi
        obtain ⟨p, hp, -⟩ := hloop.pool i (Nat.zero_le _) (by simp only at hi; omega)
        simp only [hp, SchTaskPool.create, and_self]
      · intro i hi
        exact hloop.backed (hnum ▸ hi) (hpkg i hi)
      · simp only
        rw [hloop.sch]
        exact flag_reset flag schFlagInit schFlagRunning

/-- One core and one package, where all calls succeed. -/
theorem usable_one : ∃ r, schCreateTaskPool .allOk 0 1 ⟨∅, 0⟩ (some .zeroed) 1 0 1 = some r ∧
    r.status = .ok ∧ ∃ sch, Usable 1 0 1 r sch := by
  refine ⟨_, rfl, rfl, ?_⟩
  exact (usable_iff .allOk 0 1 ⟨∅, 0⟩ (some .zeroed) 1 0 1 _ rfl).2
    (fun _ => ⟨by decide, fun _ _ => rfl⟩) rfl

/-- The allocation of the packages fails, and the call succeeds. -/
theorem packages_missing :
    ¬ ∀ (os : CreateOs) (me : ℕ) (ncpu : Int32) (mem : Mem) (sch : Option SchTaskSch)
      (cores : Int32) (flag : Flag) (maxPackagesPool : UInt32) (r : CreateReturn),
      schCreateTaskPool os me ncpu mem sch cores flag maxPackagesPool = some r →
      r.status = .ok → ∃ sch', Usable ncpu flag maxPackagesPool r sch' := by
  intro h
  obtain ⟨sch', hu⟩ := h { CreateOs.allOk with package := fun _ => false } 0 1 ⟨∅, 0⟩
    (some .zeroed) 1 0 1 _ rfl rfl
  have hobj := Option.some.inj hu.object
  subst hobj
  obtain ⟨a, ha, -⟩ := hu.package 0 Nat.one_pos
  have hnone : none = some a := ha
  cases hnone

/-! ## The first states -/

/-- A call for which everything is granted succeeds. -/
theorem schCreateTaskPool_granted {os : CreateOs} {ncpu : Int32} {sch : SchTaskSch} {cores : Int32}
    (hg : Granted os ncpu (some sch) cores) (me : ℕ) (mem : Mem) (flag : Flag)
    (maxPackagesPool : UInt32) :
    ∃ s', s' = createPools os me maxPackagesPool (effectiveCores ncpu cores).toUInt32.toNat 0
        ((creationStart ncpu mem sch cores flag).withBarrier os) ∧
      schCreateTaskPool os me ncpu mem (some sch) cores flag maxPackagesPool =
        some ⟨some { s'.sch with flag := s'.sch.flag ||| schFlagInit }, s'.mem, s'.acquired, [],
          .ok, false⟩ := by
  obtain ⟨-, hle, h1, h2, h3, ⟨r4, he4, h4⟩, ⟨r5, he5, h5⟩, ⟨r6, he6, h6⟩, ⟨r7, he7, h7⟩,
    hnum⟩ := hg
  have hacq : acquire os (creationStart ncpu mem sch cores flag) =
      some ((creationStart ncpu mem sch cores flag).withBarrier os, .ok) := by
    have hnum' : (sch.reset (effectiveCores ncpu cores) flag).num ≠ 0 := hnum
    simp only [acquire, next, takePool, takeDheap, takeSet, take, h1, h2, h3, if_true,
      Option.bind_some, schCreateSpinLock, schCreateMutex, schCreateConditional, createBarrier,
      lock, he4, he5, he6, he7, Option.map_some, h4, h5, h6, malloc, creationStart, if_neg hnum',
      h7]
    rfl
  refine ⟨_, rfl, ?_⟩
  simp only [schCreateTaskPool]
  rw [if_neg (show ¬ cores > ncpu from Int32.not_lt.2 hle)]
  rw [creationStart] at hacq
  rw [hacq]
  rfl

/-- When all package buffers are allocated, they follow one another in memory. -/
theorem createPools_packages (os : CreateOs) (hpkg : ∀ j, os.package j = true) (me : ℕ)
    (maxPackagesPool : UInt32) (i k : ℕ) (s : Creation) :
    (createPools os me maxPackagesPool k i s).mem = Mem.malloc^[k] s.mem ∧
      ∀ j, i ≤ j → j < i + k → ((createPools os me maxPackagesPool k i s).sch.pools j).package =
        some (s.mem.next + (j - i)) := by
  induction k generalizing i s with
  | zero => exact ⟨rfl, by omega⟩
  | succ k ih =>
    obtain ⟨hmem, hpool⟩ := ih (i + 1) (createPool os s me maxPackagesPool i)
    have hround : (createPool os s me maxPackagesPool i).mem = s.mem.malloc := by
      rw [(createPool_mem os me maxPackagesPool i s).1, if_pos (hpkg i)]
    rw [hround] at hmem hpool
    refine ⟨hmem, ?_⟩
    intro j hij hjk
    by_cases hji : j = i
    · have hlater := (createPools_spec os me maxPackagesPool (i + 1) k
        (createPool os s me maxPackagesPool i)).other j (by omega)
      simp only [createPools]
      rw [hlater.1, hji, createPool_sch]
      simp [hpkg, SchTaskPool.create]
    · simp only [createPools]
      rw [hpool j (by omega) (by omega)]
      simp only [Mem.malloc, Option.some.injEq]
      omega

theorem Mem.malloc_range (m k : ℕ) :
    Mem.malloc^[k] ⟨Finset.range m, m⟩ = ⟨Finset.range (m + k), m + k⟩ := by
  induction k generalizing m with
  | zero => rfl
  | succ k ih =>
    have hone : Mem.malloc ⟨Finset.range m, m⟩ = ⟨Finset.range (m + 1), m + 1⟩ := by
      rw [Mem.malloc, Finset.range_add_one]
    rw [Function.iterate_succ_apply, hone, ih, Nat.add_right_comm, Nat.add_assoc]

/-- **The first states of the development** are those that a successful call
    leaves in an empty memory, whatever the object held before. -/
theorem created_of_call (me : ℕ) (ncpu : Int32) (sch : SchTaskSch) (cores : Int32) (flag : Flag)
    (maxPackagesPool : UInt32) (slot : ℕ → ℕ → SchTaskPackage) (hpos : 0 < cores.toInt)
    (hle : cores ≤ ncpu) :
    ∃ r sch', schCreateTaskPool { CreateOs.allOk with slot := slot } me ncpu ⟨∅, 0⟩ (some sch)
        cores flag maxPackagesPool = some r ∧ r.status = .ok ∧ r.sch = some sch' ∧
      r.mem = (World.created me cores.toUInt32.toNat flag maxPackagesPool slot).mem ∧
      sch' = { (World.created me cores.toUInt32.toNat flag maxPackagesPool slot).sch with
        pools := sch'.pools } ∧
      ∀ i < cores.toUInt32.toNat, sch'.pools i =
        (World.created me cores.toUInt32.toNat flag maxPackagesPool slot).sch.pools i := by
  have hnum : cores.toUInt32.toNat ≠ 0 := by
    have := toUInt32_of_nonneg hpos.le
    omega
  have heff : effectiveCores ncpu cores = cores := by
    refine if_neg ?_
    rintro rfl
    exact absurd hpos (by decide)
  have hlock : LockOk (some .zero) := ⟨.zero, rfl, rfl⟩
  have hg : Granted { CreateOs.allOk with slot := slot } ncpu (some sch) cores :=
    ⟨rfl, hle, rfl, rfl, rfl, hlock, hlock, hlock, hlock, heff.symm ▸ hnum⟩
  obtain ⟨s', hs', hcall⟩ := schCreateTaskPool_granted hg me ⟨∅, 0⟩ flag maxPackagesPool
  rw [heff] at hs'
  have hloop := createPools_spec { CreateOs.allOk with slot := slot } me maxPackagesPool 0
    cores.toUInt32.toNat ((creationStart ncpu ⟨∅, 0⟩ sch cores flag).withBarrier
      { CreateOs.allOk with slot := slot })
  obtain ⟨hmem, hpkg⟩ := createPools_packages { CreateOs.allOk with slot := slot }
    (fun _ => rfl) me maxPackagesPool 0 cores.toUInt32.toNat
    ((creationStart ncpu ⟨∅, 0⟩ sch cores flag).withBarrier { CreateOs.allOk with slot := slot })
  rw [← hs'] at hloop hmem hpkg
  refine ⟨_, _, hcall, rfl, rfl, ?_, ?_, ?_⟩
  · have hseven : ((creationStart ncpu ⟨∅, 0⟩ sch cores flag).withBarrier
        { CreateOs.allOk with slot := slot }).mem = ⟨Finset.range 7, 7⟩ := Mem.malloc_range 0 7
    rw [hmem, hseven]
    exact Mem.malloc_range 7 cores.toUInt32.toNat
  · have hlen := order_length { CreateOs.allOk with slot := slot } ncpu ⟨∅, 0⟩ sch cores flag
    rw [heff] at hlen
    have horder := hloop.order_range hlen
    simp only
    rw [hloop.sch, horder]
    simp only [World.created, creationStart, SchTaskSch.reset, heff]
    rfl
  · intro i hi
    obtain ⟨p, hp, -⟩ := hloop.pool i (Nat.zero_le _) (by omega)
    have hpi := hpkg i (Nat.zero_le _) (by omega)
    rw [hp] at hpi
    simp only [hp, World.created]
    simp only [SchTaskPool.create] at hpi
    rw [hpi]
    rfl

end TaskSch
