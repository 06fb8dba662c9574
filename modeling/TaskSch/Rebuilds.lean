/-
  Task scheduler formalization — several rebuilds of the priority queue at a
  time (`schHeapify` in src/heapify.c, called by `schSubmitTask`).

  `schHeapify` takes no lock, so threads that submit at the same time swap
  entries of `dheap` under each other's hands, while workers store priorities.

  * `schHeapifySteps`: `schHeapify` with each access to the array and to a
    priority as a step of its own; `chooseSteps` goes on to read the first
    entry, the pool that `schSubmitTask` takes;
  * `eval_schHeapifySteps`: run by one thread alone, it is `schHeapify`;
  * `rebuilds_in_range`: in every interleaving, all accesses are in range, all
    entries point to pools and every choice is a pool of the scheduler;
  * `rebuilds_end`: in every interleaving, a choice takes a bounded number of
    accesses and does not run out of rounds.
-/
import TaskSch.Access
import TaskSch.SiftDown

namespace TaskSch

/-! ## `schHeapify`, access by access -/

/-- The memory that a rebuild works on. -/
inductive HeapCell where
  /-- `dheap[j]` -/
  | entry (j : ℕ)
  /-- `dheapPriority` of the pool `p` -/
  | prio (p : ℕ)
  deriving DecidableEq

/-- A pointer to a pool, or a priority. -/
abbrev HeapCell.Value : HeapCell → Type
  | .entry _ => ℕ
  | .prio _ => ℤ

abbrev HeapSteps (α : Type) := AccessProg HeapCell HeapCell.Value α

/-- One round of the loop over the children.  The pointer is read again to
    record the minimum. -/
def scanChildSteps (len index k : ℕ) (m : ℤ × Option ℕ) (i : ℕ) : HeapSteps (ℤ × Option ℕ) :=
  match getChild len index k i with
  | none => .done m
  | some c => .read (.entry c) fun (p : ℕ) => .read (.prio p) fun (v : ℤ) =>
    if v < m.1 then
      .read (.entry c) fun (p : ℕ) => .read (.prio p) fun (v : ℤ) => .done (v, some c)
    else .done m

/-- The loop over the children `i + 1`, for `i` in the list. -/
def scanSteps (len index k : ℕ) : List ℕ → ℤ × Option ℕ → HeapSteps (ℤ × Option ℕ)
  | [], m => .done m
  | i :: is, m => (scanChildSteps len index k m (i + 1)).bind (scanSteps len index k is)

/-- The comparison of `a`, whose priority was `va`, with `b`, and the swap. -/
def compareSteps (index c a b : ℕ) (va : ℤ) : HeapSteps Unit :=
  .read (.prio b) fun (vb : ℤ) =>
    if va > vb then .write (.entry index) b (.write (.entry c) a (.done ())) else .done ()

/-- The end of a round of `restoreDown`: the entries `index` and `c` are swapped
    if they are out of order. -/
def swapSteps (index c : ℕ) : HeapSteps Unit :=
  .read (.entry index) fun (a : ℕ) => .read (.entry c) fun (b : ℕ) =>
    .read (.prio a) fun (va : ℤ) => compareSteps index c a b va

/-- `restoreDown`, at most `fuel` rounds. -/
def restoreDownSteps (len k : ℕ) : ℕ → ℕ → HeapSteps Unit
  | 0, _ => .fail
  | fuel + 1, index =>
    (scanSteps len index k (List.range k) (longMax, none)).bind fun m =>
      if m.1 = longMax then .done ()
      else (AccessProg.ofOption m.2).bind fun c =>
        (swapSteps index c).bind fun _ => restoreDownSteps len k fuel c

/-- The loop over the positions below `i`. -/
def heapifyFromSteps (n : ℕ) : ℕ → HeapSteps Unit
  | 0 => .done ()
  | i + 1 => (restoreDownSteps n schHeapBreath (n + 1) i).bind fun _ => heapifyFromSteps n i

def schHeapifySteps (n : ℕ) : HeapSteps Unit := heapifyFromSteps n ((n - 1) / schHeapBreath + 1)

/-- The choice of the pool in `schSubmitTask` without `pPool`; `none` stands for
    a thread that has not made one. -/
def chooseSteps (n : ℕ) : HeapSteps (Option ℕ) :=
  (schHeapifySteps n).bind fun _ => .read (.entry 0) fun (p : ℕ) => .done (some p)

/-! ## A rebuild that nobody disturbs -/

section Alone

variable (prio : ℕ → ℤ)

/-- The array `arr` and the priorities `prio` in memory. -/
def heapMem (arr : List ℕ) : (c : HeapCell) → c.Value
  | .entry j => arr.getD j 0
  | .prio p => prio p

theorem heapMem_set {arr : List ℕ} {j : ℕ} (hj : j < arr.length) (p : ℕ) :
    Function.update (heapMem prio arr) (.entry j) p = heapMem prio (arr.set j p) := by
  funext c
  cases c with
  | prio q => simp [heapMem]
  | entry i =>
    by_cases hi : i = j
    · subst hi; simp [heapMem, hj]
    · simp [heapMem, hi, Ne.symm hi, List.getD]

theorem heapMem_store (arr : List ℕ) (p : ℕ) (v : ℤ) :
    Function.update (heapMem prio arr) (.prio p) v = heapMem (Function.update prio p v) arr := by
  funext c
  cases c with
  | entry j => simp [heapMem]
  | prio q =>
    by_cases hq : q = p
    · subst hq; simp [heapMem]
    · simp [heapMem, hq]

@[simp] theorem heapMem_prio (arr : List ℕ) (p : ℕ) : heapMem prio arr (.prio p) = prio p := rfl

theorem heapMem_get {arr : List ℕ} {j p : ℕ} (h : arr[j]? = some p) :
    heapMem prio arr (.entry j) = p := by
  simp [heapMem, List.getD, h]

variable {arr : List ℕ} {len : ℕ}

theorem eval_scanChildSteps (hlen : arr.length = len) (index k i t : ℕ) (m : ℤ × Option ℕ) :
    (scanChildSteps len index k m i).eval (heapMem prio arr) =
      (scanChild (fun _ => prio) arr len index k ⟨t, m.1, m.2⟩ i).map fun s =>
        ((s.minChild, s.minChildIndex), heapMem prio arr) := by
  unfold scanChildSteps scanChild
  cases hc : getChild len index k i with
  | none => rfl
  | some c =>
    have hlt : c < len := by
      unfold getChild at hc
      split_ifs at hc with hlt
      cases hc
      exact hlt
    obtain ⟨p, -, hp⟩ := exists_get arr (hlen ▸ hlt)
    simp only [hp, Option.map_some, AccessProg.eval, heapMem_prio, heapMem_get prio hp]
    split_ifs
    · simp only [AccessProg.eval, heapMem_prio, heapMem_get prio hp]
    · rfl

theorem eval_scanSteps (hlen : arr.length = len) (index k : ℕ) (is : List ℕ) (m : ℤ × Option ℕ)
    (t : ℕ) :
    (scanSteps len index k is m).eval (heapMem prio arr) =
      (is.foldlM (fun s i => scanChild (fun _ => prio) arr len index k s (i + 1))
        ⟨t, m.1, m.2⟩).map fun s => ((s.minChild, s.minChildIndex), heapMem prio arr) := by
  induction is generalizing m t with
  | nil => rfl
  | cons i is ih =>
    rw [scanSteps, AccessProg.eval_bind, eval_scanChildSteps prio hlen index k (i + 1) t m,
      List.foldlM_cons]
    cases scanChild (fun _ => prio) arr len index k ⟨t, m.1, m.2⟩ (i + 1) with
    | none => rfl
    | some s => exact ih (s.minChild, s.minChildIndex) s.t

theorem eval_swapSteps {index c a b : ℕ} (ha : arr[index]? = some a) (hb : arr[c]? = some b) :
    (swapSteps index c).eval (heapMem prio arr) =
      some ((), heapMem prio (if prio a > prio b then (arr.set index b).set c a else arr)) := by
  have hi : index < arr.length := (List.getElem?_eq_some_iff.1 ha).1
  have hc : c < arr.length := (List.getElem?_eq_some_iff.1 hb).1
  simp only [swapSteps, compareSteps, AccessProg.eval, heapMem_prio, heapMem_get prio ha,
    heapMem_get prio hb]
  split_ifs
  · simp only [AccessProg.eval]
    rw [heapMem_set prio hi, heapMem_set prio (by simpa using hc)]
  · rfl

theorem eval_restoreDownSteps (hlen : arr.length = len) (k fuel index t : ℕ) :
    (restoreDownSteps len k fuel index).eval (heapMem prio arr) =
      (restoreDown (fun _ => prio) len k fuel arr index t).map fun r =>
        ((), heapMem prio r.1) := by
  induction fuel generalizing arr index t with
  | zero => rfl
  | succ fuel ih =>
    obtain ⟨s, hs, hfound⟩ := scan_found (fun _ => prio) hlen index k t
    have hscan := eval_scanSteps prio hlen index k (List.range k) (longMax, none) t
    rw [show (List.range k).foldlM (fun s i => scanChild (fun _ => prio) arr len index k s (i + 1))
      ⟨t, longMax, none⟩ = some s from hs] at hscan
    simp only [restoreDownSteps, restoreDown, AccessProg.eval_bind, hscan, hs, Option.map_some,
      Option.bind_some]
    split_ifs with hmax
    · rfl
    · obtain ⟨c, hc⟩ := Option.isSome_iff_exists.1 (hfound.assigned hmax)
      obtain ⟨hchild, hn⟩ := hfound.child c hc
      have hlt := hchild.lt
      obtain ⟨a, -, ha⟩ := exists_get arr (show index < arr.length by omega)
      obtain ⟨b, -, hb⟩ := exists_get arr (show c < arr.length by omega)
      simp only [hc, ha, hb, AccessProg.eval_bind, AccessProg.eval_ofOption, Option.map_some,
        Option.bind_some, eval_swapSteps prio ha hb]
      refine ih ?_ c (s.t + 2)
      split_ifs
      · simpa using hlen
      · exact hlen

theorem eval_heapifyFromSteps {n : ℕ} (hlen : arr.length = n) (i t : ℕ) :
    (heapifyFromSteps n i).eval (heapMem prio arr) =
      (heapifyFrom (fun _ => prio) n i arr t).map fun arr => ((), heapMem prio arr) := by
  induction i generalizing arr t with
  | zero => rfl
  | succ i ih =>
    rw [heapifyFromSteps, heapifyFrom, AccessProg.eval_bind,
      eval_restoreDownSteps prio hlen _ _ i t]
    cases hr : restoreDown (fun _ => prio) n schHeapBreath (n + 1) arr i t with
    | none => rfl
    | some r => exact ih ((restoreDown_perm _ _ _ hr).length_eq.trans hlen) r.2

/-- **Run by one thread alone**, on priorities that stay put, the accesses are
    those of `schHeapify`. -/
theorem eval_schHeapifySteps {n : ℕ} (hlen : arr.length = n) :
    (schHeapifySteps n).eval (heapMem prio arr) =
      (schHeapify (fun _ => prio) n arr).map fun arr => ((), heapMem prio arr) :=
  eval_heapifyFromSteps prio hlen _ 0

end Alone

/-! ## Choices in any company -/

section Company

/-- The entries of the array and the priorities of the pools in `S`. -/
def HeapCell.InRange (n : ℕ) (S : ℕ → Prop) : HeapCell → Prop
  | .entry j => j < n
  | .prio p => S p

/-- Entries point to pools in `S`, and priorities are such as `R` allows. -/
def HeapCell.Points (S : ℕ → Prop) (R : ℕ → ℤ → Prop) : (c : HeapCell) → c.Value → Prop
  | .entry _, p => S p
  | .prio p, v => R p v

variable {n index k : ℕ} {S : ℕ → Prop} {R : ℕ → ℤ → Prop}

theorem scanSteps_safe {is : List ℕ} (his : ∀ i ∈ is, i < k) {m : ℤ × Option ℕ}
    (hm : Found n index k ⟨0, m.1, m.2⟩) :
    (scanSteps n index k is m).Safe (HeapCell.InRange n S) (HeapCell.Points S R)
      fun m => Found n index k ⟨0, m.1, m.2⟩ := by
  induction is generalizing m with
  | nil => exact hm
  | cons i is ih =>
    have hik := his i List.mem_cons_self
    refine AccessProg.Safe.bind ?_ fun m hm => ih (fun i hi => his i (List.mem_cons_of_mem _ hi)) hm
    unfold scanChildSteps getChild
    split_ifs with hlt
    · refine ⟨hlt, fun p hp => ⟨hp, fun v _ => ?_⟩⟩
      beta_reduce
      split_ifs
      · refine ⟨hlt, fun p hp => ⟨hp, fun v _ => ⟨fun _ => rfl, ?_⟩⟩⟩
        rintro c ⟨⟩
        exact ⟨⟨by omega, by omega⟩, hlt⟩
      · exact hm
    · exact hm

theorem swapSteps_safe {c : ℕ} (hi : index < n) (hc : c < n) :
    (swapSteps index c).Safe (HeapCell.InRange n S) (HeapCell.Points S R) fun _ => True := by
  refine ⟨hi, fun a ha => ⟨hc, fun b hb => ⟨ha, fun va _ => ⟨hb, fun vb _ => ?_⟩⟩⟩⟩
  beta_reduce
  split_ifs
  · exact ⟨hi, hb, hc, ha, trivial⟩
  · trivial

theorem restoreDownSteps_safe {fuel : ℕ} (hfuel : n - index < fuel) :
    (restoreDownSteps n k fuel index).Safe (HeapCell.InRange n S) (HeapCell.Points S R)
      fun _ => True := by
  induction fuel generalizing index with
  | zero => omega
  | succ fuel ih =>
    have hstart : Found n index k ⟨0, longMax, none⟩ := ⟨fun h => absurd rfl h, by simp⟩
    refine AccessProg.Safe.bind (scanSteps_safe (fun i => List.mem_range.1) hstart) ?_
    intro m hm
    split_ifs with hmax
    · trivial
    · obtain ⟨c, hc⟩ := Option.isSome_iff_exists.1 (hm.assigned hmax)
      obtain ⟨hchild, hn⟩ := hm.child c hc
      have hlt := hchild.lt
      simp only at hc
      simp only [hc, AccessProg.ofOption, AccessProg.bind]
      -- the next round starts at a greater position
      exact (swapSteps_safe (by omega) hn).bind fun _ _ => ih (by omega)

theorem heapifyFromSteps_safe (n i : ℕ) :
    (heapifyFromSteps n i).Safe (HeapCell.InRange n S) (HeapCell.Points S R) fun _ => True := by
  induction i with
  | zero => trivial
  | succ i ih => exact (restoreDownSteps_safe (by omega)).bind fun _ _ => ih

/-- **A choice is safe**: from pools in `S`, it chooses one in `S`. -/
theorem chooseSteps_safe (hn : 0 < n) :
    (chooseSteps n).Safe (HeapCell.InRange n S) (HeapCell.Points S R) fun r => ∀ p ∈ r, S p := by
  refine (heapifyFromSteps_safe n _).bind fun _ _ => ⟨hn, fun p hp => ?_⟩
  rintro q ⟨⟩
  exact hp

/-! ### The number of accesses -/

theorem scanSteps_within (is : List ℕ) (m : ℤ × Option ℕ) :
    (scanSteps n index k is m).Within (4 * is.length) := by
  induction is generalizing m with
  | nil => trivial
  | cons i is ih =>
    have hone : (scanChildSteps n index k m (i + 1)).Within 4 := by
      unfold scanChildSteps
      split
      next => trivial
      next =>
        refine ⟨3, rfl, fun p => ⟨2, rfl, fun v => ?_⟩⟩
        beta_reduce
        split_ifs
        · exact ⟨1, rfl, fun _ => ⟨0, rfl, fun _ => trivial⟩⟩
        · trivial
    exact (hone.bind ih).mono (by simp only [List.length_cons]; omega)

theorem swapSteps_within (index c : ℕ) : (swapSteps index c).Within 6 := by
  refine ⟨5, rfl, fun a => ⟨4, rfl, fun b => ⟨3, rfl, fun va => ⟨2, rfl, fun vb => ?_⟩⟩⟩⟩
  beta_reduce
  split_ifs
  · exact ⟨1, rfl, 0, rfl, trivial⟩
  · trivial

theorem restoreDownSteps_within (fuel index : ℕ) :
    (restoreDownSteps n k fuel index).Within ((4 * k + 6) * fuel) := by
  induction fuel generalizing index with
  | zero => trivial
  | succ fuel ih =>
    have hscan : (scanSteps n index k (List.range k) (longMax, none)).Within _ :=
      scanSteps_within (List.range k) _
    rw [List.length_range] at hscan
    have hrest : ∀ m : ℤ × Option ℕ, (if m.1 = longMax then .done ()
        else (AccessProg.ofOption m.2).bind fun c => (swapSteps index c).bind fun _ =>
          restoreDownSteps n k fuel c).Within (6 + (4 * k + 6) * fuel) := by
      intro m
      split_ifs
      · trivial
      · exact .ofOption_bind fun c _ => (swapSteps_within index c).bind fun _ => ih c
    exact (hscan.bind hrest).mono (by rw [Nat.mul_add]; omega)

theorem heapifyFromSteps_within (n i : ℕ) : (heapifyFromSteps n i).Within (22 * (n + 1) * i) := by
  induction i with
  | zero => trivial
  | succ i ih =>
    refine ((restoreDownSteps_within (n + 1) i).bind fun _ => ih).mono (le_of_eq ?_)
    rw [schHeapBreath]
    ring

/-- The greatest number of accesses of a choice. -/
def chooseBound (n : ℕ) : ℕ := 22 * (n + 1) * ((n - 1) / schHeapBreath + 1) + 1

theorem chooseSteps_within (n : ℕ) : (chooseSteps n).Within (chooseBound n) :=
  (heapifyFromSteps_within n _).bind fun _ => ⟨0, rfl, fun _ => trivial⟩

end Company

/-! ## Any number of submitters -/

section Submitters

variable {ι : Type} [DecidableEq ι]

abbrev Choices (ι : Type) := Share HeapCell HeapCell.Value (Option ℕ) ι

abbrev ChoiceAct (ι : Type) := ShareAct HeapCell HeapCell.Value ι

/-- Threads that choose pools, again and again, with stores of priorities by
    anybody in between. -/
abbrev choiceMachine (ι : Type) [DecidableEq ι] (n : ℕ) : Machine (Choices ι) (ChoiceAct ι) :=
  shareMachine ι (chooseSteps n)

/-- Apart from the rebuilds, only priorities are stored. -/
def ChoiceAct.StoresPrio : ChoiceAct ι → Prop
  | .store (.entry _) _ => False
  | .store (.prio _) _ | .start _ | .access _ => True

/-- The array `arr`, before any choice. -/
def Choices.start (prio : ℕ → ℤ) (arr : List ℕ) : Choices ι :=
  ⟨heapMem prio arr, fun _ => .done none⟩

omit [DecidableEq ι] in
theorem ChoiceAct.StoresPrio.allowed {a : ChoiceAct ι} (h : a.StoresPrio) (S : ℕ → Prop) :
    a.Allowed (HeapCell.Points S fun _ _ => True) := by
  cases a with
  | start | access => trivial
  | store c v =>
    cases c with
    | entry j => exact h.elim
    | prio p => trivial

/-- Entries and choices are pools in `S` in any run. -/
theorem choices_in {n : ℕ} {S : ℕ → Prop} (hn : 0 < n) {as : List (ChoiceAct ι)}
    (has : ∀ a ∈ as, ChoiceAct.StoresPrio a) {s t : Choices ι}
    (hrun : (choiceMachine ι n).run s as = some t)
    (h : s.Safe (HeapCell.InRange n S) (HeapCell.Points S fun _ _ => True) fun r => ∀ p ∈ r, S p) :
    t.Safe (HeapCell.InRange n S) (HeapCell.Points S fun _ _ => True) fun r => ∀ p ∈ r, S p :=
  Share.run_safe (chooseSteps_safe hn) (fun a ha => (has a ha).allowed S) hrun h

omit [DecidableEq ι] in
/-- Before any choice, all entries are pools. -/
theorem Choices.start_safe {n : ℕ} {prio : ℕ → ℤ} {arr : List ℕ} (hlen : arr.length = n)
    (harr : ∀ p ∈ arr, p < n) :
    (Choices.start prio arr : Choices ι).Safe (HeapCell.InRange n (· < n))
      (HeapCell.Points (· < n) fun _ _ => True) fun r => ∀ p ∈ r, p < n := by
  refine ⟨?_, fun i => by simp [Choices.start, AccessProg.Safe]⟩
  rintro (j | p) hc
  · obtain ⟨p, hp, hget⟩ := exists_get arr (hlen ▸ hc)
    simp only [HeapCell.Points, Choices.start, heapMem_get prio hget]
    exact harr p hp
  · trivial

/-- **Choices stay in range**, however many run at a time: every access is to
    one of the `n` entries or to the priority of a pool, no index is used that
    was not assigned, every entry points to a pool at any time, and every choice
    is a pool of the scheduler. -/
theorem rebuilds_in_range (n : ℕ) (hn : 0 < n) (prio : ℕ → ℤ) (arr : List ℕ)
    (hlen : arr.length = n) (harr : ∀ p ∈ arr, p < n) (as : List (ChoiceAct ι)) (s : Choices ι)
    (has : ∀ a ∈ as, ChoiceAct.StoresPrio a)
    (hrun : (choiceMachine ι n).run (.start prio arr) as = some s) :
    (∀ j < n, (s.mem (.entry j) : ℕ) < n) ∧
      ∀ i, s.prog i ≠ .fail ∧ (∀ c, (s.prog i).next = some c → c.InRange n (· < n)) ∧
        ∀ p, s.prog i = .done (some p) → p < n := by
  obtain ⟨hmem, hprog⟩ := choices_in hn has hrun (Choices.start_safe hlen harr)
  refine ⟨fun j hj => hmem (.entry j) hj,
    fun i => ⟨(hprog i).not_fail, fun c => (hprog i).next, ?_⟩⟩
  intro p hp
  have hsafe := hprog i
  rw [hp] at hsafe
  exact hsafe p rfl

/-- **Choices end**, however many run at a time: no thread makes more accesses
    than its choices allow for, whatever the others do, and one that makes none
    any more has got to the end: it never runs out of rounds. -/
theorem rebuilds_end (n : ℕ) (hn : 0 < n) (prio : ℕ → ℤ) (arr : List ℕ)
    (hlen : arr.length = n) (harr : ∀ p ∈ arr, p < n) (as : List (ChoiceAct ι)) (s : Choices ι)
    (has : ∀ a ∈ as, ChoiceAct.StoresPrio a)
    (hrun : (choiceMachine ι n).run (.start prio arr) as = some s) (i : ι) :
    as.countP (·.accesses i) ≤ chooseBound n * as.countP (·.starts i) ∧ s.prog i ≠ .fail ∧
      ((s.prog i).next = none → ∃ r, s.prog i = .done r) := by
  have hsafe := (choices_in hn has hrun (Choices.start_safe hlen harr)).prog i
  obtain ⟨m, -, hm⟩ := Share.run_within (m := 0) (i := i) (chooseSteps_within n) hrun trivial
  refine ⟨(Nat.le_add_right _ m).trans (hm.trans_eq (Nat.zero_add _)), hsafe.not_fail, ?_⟩
  intro hnext
  cases hp : s.prog i with
  | done r => exact ⟨r, rfl⟩
  | fail => exact absurd hp hsafe.not_fail
  | read | write => rw [hp] at hnext; cases hnext

/-- Two threads that have begun to choose, and a worker. -/
def twoChoices : List (ChoiceAct (Fin 2)) :=
  [.start 0, .access 0, .start 1, .access 1, .store (.prio 1) (-1 : ℤ), .access 0, .access 1]

theorem rebuilds_in_range_two : ∃ s : Choices (Fin 2),
    (choiceMachine (Fin 2) 2).run (.start (fun _ => 0) [0, 1]) twoChoices = some s ∧
    ∀ j < 2, (s.mem (.entry j) : ℕ) < 2 := by
  refine ⟨_, rfl, (rebuilds_in_range 2 (by decide) (fun _ => 0) [0, 1] rfl (by decide) twoChoices _
    ?_ rfl).1⟩
  simp [twoChoices, ChoiceAct.StoresPrio]

theorem rebuilds_end_two : ∃ s : Choices (Fin 2),
    (choiceMachine (Fin 2) 2).run (.start (fun _ => 0) [0, 1]) twoChoices = some s ∧
    twoChoices.countP (·.accesses 0) ≤ chooseBound 2 * twoChoices.countP (·.starts 0) ∧
    s.prog 0 ≠ .fail ∧ ((s.prog 0).next = none → ∃ r, s.prog 0 = .done r) := by
  refine ⟨_, rfl, rebuilds_end 2 (by decide) (fun _ => 0) [0, 1] rfl (by decide) twoChoices _
    ?_ rfl 0⟩
  simp [twoChoices, ChoiceAct.StoresPrio]

end Submitters

end TaskSch
