/-
  Task scheduler formalization — the priority queue of the pools
  (src/heapify.c).

  `dheap` is an array of pointers to the pools; here, a list of positions in
  the pool array.  Workers and submitters store to `dheapPriority` while the
  heap is rebuilt, so every single read of a priority may return another value:
  `Reads` gives the value of the `t`-th read of a rebuild.  A rebuild on
  priorities that stay put is the one with constant reads.

  An access outside of the array and the use of `min_child_index` before it was
  assigned are undefined behaviour (`none`).

  * `schHeapify_perm`: a rebuild permutes the array, whatever the reads return;
  * `restoreDown_heap`, `schHeapify_heap`: on priorities that stay put, it makes
    the array a heap with a pool of least priority in front.
-/
import TaskSch.KHeap
import TaskSch.Types

namespace TaskSch

/-- The value of the `t`-th read of a rebuild, of the priority of pool `p`. -/
abbrev Reads := ℕ → ℕ → ℤ

def longMax : ℤ := 2 ^ 63 - 1

def schHeapBreath : ℕ := 4

def getParentIndex (index depth : ℕ) : ℕ := (index - 1) / depth

/-- `child[i]`: the position of the `i`-th child of `index`, if it exists. -/
def getChild (len index k i : ℕ) : Option ℕ :=
  if k * index + i < len then some (k * index + i) else none

/-- Nothing calls it. -/
def getChildIndex (parent nthChild depth : ℕ) : ℕ := depth * parent + nthChild + 1

/-- It gives the positions of the children, of which `parent` is the parent. -/
theorem getChildIndex_spec {parent nthChild depth : ℕ} (h : nthChild < depth) (len : ℕ) :
    getParentIndex (getChildIndex parent nthChild depth) depth = parent ∧
      (getChildIndex parent nthChild depth < len →
        getChild len parent depth (nthChild + 1) = some (getChildIndex parent nthChild depth)) := by
  constructor
  · rw [getParentIndex, getChildIndex, Nat.add_sub_cancel, Nat.mul_add_div (by omega),
      Nat.div_eq_of_lt h, Nat.add_zero]
  · intro hlt
    exact if_pos hlt

/-- The search for the least child: the number of reads so far, `min_child` and
    `min_child_index` (`none` before it is assigned). -/
structure Scan where
  t : ℕ
  minChild : ℤ
  minChildIndex : Option ℕ

/-- One round of the loop over the children.  The comparison and the recording
    of the minimum read the priority separately. -/
def scanChild (rd : Reads) (arr : List ℕ) (len index k : ℕ) (s : Scan) (i : ℕ) : Option Scan :=
  match getChild len index k i with
  | none => some s
  | some c => arr[c]?.map fun p =>
    if rd s.t p < s.minChild then ⟨s.t + 2, rd (s.t + 1) p, some c⟩ else { s with t := s.t + 1 }

/-- The loop over the children `1 .. k` of `index`. -/
def scan (rd : Reads) (arr : List ℕ) (len index k t : ℕ) : Option Scan :=
  (List.range k).foldlM (fun s i => scanChild rd arr len index k s (i + 1)) ⟨t, longMax, none⟩

/-- `restoreDown`: at most `fuel` rounds of its loop, from the `t`-th read on.
    Returns the array and the number of reads. -/
def restoreDown (rd : Reads) (len k : ℕ) : ℕ → List ℕ → ℕ → ℕ → Option (List ℕ × ℕ)
  | 0, _, _, _ => none
  | fuel + 1, arr, index, t =>
    (scan rd arr len index k t).bind fun s =>
      if s.minChild = longMax then some (arr, s.t)
      else
        s.minChildIndex.bind fun c => arr[index]?.bind fun a => arr[c]?.bind fun b =>
          let arr := if rd s.t a > rd (s.t + 1) b then (arr.set index b).set c a else arr
          restoreDown rd len k fuel arr c (s.t + 2)

/-- The loop of `schHeapify` over the positions below `i`, from the last to the
    first.  A descent in an array of `n` elements takes at most `n` rounds. -/
def heapifyFrom (rd : Reads) (n : ℕ) : ℕ → List ℕ → ℕ → Option (List ℕ)
  | 0, arr, _ => some arr
  | i + 1, arr, t =>
    (restoreDown rd n schHeapBreath (n + 1) arr i t).bind fun r => heapifyFrom rd n i r.1 r.2

/-- `schHeapify` on an array of `n` pointers. -/
def schHeapify (rd : Reads) (n : ℕ) (dheap : List ℕ) : Option (List ℕ) :=
  heapifyFrom rd n ((n - 1) / schHeapBreath + 1) dheap 0

/-! ## A rebuild is a permutation -/

theorem swap_perm {arr : List ℕ} {i c a b : ℕ} (ha : arr[i]? = some a) (hb : arr[c]? = some b) :
    ((arr.set i b).set c a).Perm arr := by
  obtain ⟨hi, rfl⟩ := List.getElem?_eq_some_iff.1 ha
  obtain ⟨hc, rfl⟩ := List.getElem?_eq_some_iff.1 hb
  exact List.set_set_perm hi hc

theorem restoreDown_perm (rd : Reads) (len k : ℕ) {fuel : ℕ} {arr : List ℕ} {index t : ℕ}
    {r : List ℕ × ℕ} (h : restoreDown rd len k fuel arr index t = some r) : r.1.Perm arr := by
  induction fuel generalizing arr index t with
  | zero => cases h
  | succ fuel ih =>
    simp only [restoreDown, Option.bind_eq_some_iff] at h
    obtain ⟨s, -, h⟩ := h
    split_ifs at h
    · cases h; exact List.Perm.refl _
    · simp only [Option.bind_eq_some_iff] at h
      obtain ⟨c, -, a, ha, b, hb, h⟩ := h
      refine (ih h).trans ?_
      split_ifs
      · exact swap_perm ha hb
      · exact List.Perm.refl _

theorem heapifyFrom_perm (rd : Reads) (n : ℕ) {i : ℕ} {arr arr' : List ℕ} {t : ℕ}
    (h : heapifyFrom rd n i arr t = some arr') : arr'.Perm arr := by
  induction i generalizing arr t with
  | zero => cases h; exact List.Perm.refl _
  | succ i ih =>
    simp only [heapifyFrom, Option.bind_eq_some_iff] at h
    obtain ⟨r, hr, h⟩ := h
    exact (ih h).trans (restoreDown_perm rd n _ hr)

/-- **A rebuild permutes the array**, whatever its reads return. -/
theorem schHeapify_perm (rd : Reads) (n : ℕ) {dheap dheap' : List ℕ}
    (h : schHeapify rd n dheap = some dheap') : dheap'.Perm dheap :=
  heapifyFrom_perm rd n h

/-! ## The search for the least child -/

section Scan

variable {arr : List ℕ} {len index k j t : ℕ} {s : Scan}

/-- A round of the search looks at a child, if there is one. -/
theorem scanChild_cases (rd : Reads) (hlen : arr.length = len) (index k : ℕ) (s : Scan) (j : ℕ) :
    (len ≤ k * index + (j + 1) ∧ scanChild rd arr len index k s (j + 1) = some s) ∨
    ∃ p, arr[k * index + (j + 1)]? = some p ∧ k * index + (j + 1) < len ∧
      scanChild rd arr len index k s (j + 1) = some (if rd s.t p < s.minChild
        then ⟨s.t + 2, rd (s.t + 1) p, some (k * index + (j + 1))⟩
        else { s with t := s.t + 1 }) := by
  by_cases hlt : k * index + (j + 1) < len
  · right
    have hget : arr[k * index + (j + 1)]? = some (arr.get ⟨_, hlen ▸ hlt⟩) :=
      List.getElem?_eq_getElem _
    refine ⟨_, hget, hlt, ?_⟩
    simp only [scanChild, getChild, if_pos hlt, hget, Option.map_some]
  · left
    exact ⟨by omega, by simp only [scanChild, getChild, if_neg hlt]⟩

/-- What each round of the search keeps holds at its end. -/
theorem scan_ind (rd : Reads) {P : ℕ → Scan → Prop} (h0 : P 0 ⟨t, longMax, none⟩)
    (hstep : ∀ j s, j < k → P j s →
      ∃ s', scanChild rd arr len index k s (j + 1) = some s' ∧ P (j + 1) s') :
    ∃ s, scan rd arr len index k t = some s ∧ P k s := by
  have hprefix : ∀ j ≤ k, ∃ s, (List.range j).foldlM
      (fun s i => scanChild rd arr len index k s (i + 1)) ⟨t, longMax, none⟩ = some s ∧ P j s := by
    intro j
    induction j with
    | zero => exact fun _ => ⟨_, rfl, h0⟩
    | succ j ih =>
      intro hj
      obtain ⟨s, hs, hP⟩ := ih (by omega)
      obtain ⟨s', hs', hP'⟩ := hstep j s (by omega) hP
      refine ⟨s', ?_, hP'⟩
      rw [List.range_succ, List.foldlM_append, hs]
      simp only [Option.bind_eq_bind, Option.bind_some, List.foldlM_cons, List.foldlM_nil, hs']
      rfl
  exact hprefix k le_rfl

/-- What the search has found, whatever its reads returned. -/
structure Found (len index k : ℕ) (s : Scan) : Prop where
  assigned : s.minChild ≠ longMax → s.minChildIndex.isSome
  child : ∀ c, s.minChildIndex = some c → IsChild k index c ∧ c < len

theorem scan_found (rd : Reads) (hlen : arr.length = len) (index k t : ℕ) :
    ∃ s, scan rd arr len index k t = some s ∧ Found len index k s := by
  refine scan_ind rd (P := fun _ => Found len index k) ⟨fun h => absurd rfl h, by simp⟩ ?_
  intro j s hj h
  rcases scanChild_cases rd hlen index k s j with ⟨-, hs⟩ | ⟨p, -, hlt, hs⟩
  · exact ⟨s, hs, h⟩
  · refine ⟨_, hs, ?_⟩
    split_ifs
    · refine ⟨fun _ => rfl, ?_⟩
      rintro c ⟨⟩
      exact ⟨⟨by omega, by omega⟩, hlt⟩
    · exact ⟨h.assigned, h.child⟩

end Scan

/-- The key at each position of the array. -/
def keyAt (prio : ℕ → ℤ) (arr : List ℕ) (j : ℕ) : ℤ := prio (arr.getD j 0)

theorem keyAt_of_get (prio : ℕ → ℤ) {arr : List ℕ} {j p : ℕ} (h : arr[j]? = some p) :
    keyAt prio arr j = prio p := by
  simp [keyAt, List.getD, h]

/-- What the search has found among the first `j` children, on keys that stay
    put. -/
structure Least (prio : ℕ → ℤ) (arr : List ℕ) (len index k j : ℕ) (s : Scan) : Prop where
  le : ∀ c, k * index < c → c ≤ k * index + j → c < len → s.minChild ≤ keyAt prio arr c
  attained : ∀ c, s.minChildIndex = some c → keyAt prio arr c = s.minChild

theorem scan_least (prio : ℕ → ℤ) {arr : List ℕ} {len : ℕ} (hlen : arr.length = len)
    (index k t : ℕ) :
    ∃ s, scan (fun _ => prio) arr len index k t = some s ∧ Least prio arr len index k k s := by
  refine scan_ind _ (P := Least prio arr len index k) ⟨by omega, by simp⟩ ?_
  intro j s hj h
  rcases scanChild_cases (fun _ => prio) hlen index k s j with
    ⟨hge, hs⟩ | ⟨p, hget, hlt, hs⟩
  · exact ⟨s, hs, fun c h1 h2 h3 => h.le c h1 (by omega) h3, h.attained⟩
  · have hkey := keyAt_of_get prio hget
    refine ⟨_, hs, ?_⟩
    split_ifs with hless
    · constructor
      · intro c h1 h2 h3
        by_cases hc : c = k * index + (j + 1)
        · rw [hc, hkey]
        · exact hless.le.trans (h.le c h1 (by omega) h3)
      · rintro c ⟨⟩
        exact hkey
    · constructor
      · intro c h1 h2 h3
        by_cases hc : c = k * index + (j + 1)
        · rw [hc, hkey]; exact not_lt.1 hless
        · exact h.le c h1 (by omega) h3
      · exact h.attained

/-! ## A rebuild makes a heap -/

theorem keyAt_swap (prio : ℕ → ℤ) {arr : List ℕ} {i c a b : ℕ} (ha : arr[i]? = some a)
    (hb : arr[c]? = some b) :
    keyAt prio ((arr.set i b).set c a) = fun j => keyAt prio arr (Equiv.swap i c j) := by
  funext j
  obtain ⟨hi, rfl⟩ := List.getElem?_eq_some_iff.1 ha
  obtain ⟨hc, rfl⟩ := List.getElem?_eq_some_iff.1 hb
  by_cases hjc : j = c
  · subst hjc
    rw [Equiv.swap_apply_right]
    simp [keyAt, hc, hi]
  · by_cases hji : j = i
    · subst hji
      rw [Equiv.swap_apply_left]
      simp [keyAt, hc, hi, Ne.symm hjc]
    · rw [Equiv.swap_apply_of_ne_of_ne hji hjc]
      simp [keyAt, Ne.symm hjc, Ne.symm hji]

theorem exists_get (arr : List ℕ) {j : ℕ} (h : j < arr.length) : ∃ p ∈ arr, arr[j]? = some p :=
  ⟨arr.get ⟨j, h⟩, List.get_mem arr _, List.getElem?_eq_getElem h⟩

/-- **A sift-down restores the heap** below the position at which it starts, on
    keys that stay put. -/
theorem restoreDown_heap (prio : ℕ → ℤ) {len k fuel lo index t : ℕ} {arr : List ℕ}
    (hlen : arr.length = len) (hlong : ∀ p ∈ arr, prio p ≤ longMax) (hfuel : len - index < fuel)
    (hlo : lo ≤ index) (h : HoleFrom k len (keyAt prio arr) lo index) :
    ∃ r, restoreDown (fun _ => prio) len k fuel arr index t = some r ∧
      HeapFrom k len (keyAt prio r.1) lo := by
  induction fuel generalizing arr index t with
  | zero => omega
  | succ fuel ih =>
    obtain ⟨s, hs, hfound⟩ := scan_found (fun _ => prio) hlen index k t
    obtain ⟨s', hs', hleast⟩ := scan_least prio hlen index k t
    rw [hs] at hs'
    cases hs'
    have hmin : ∀ c, IsChild k index c → c < len → s.minChild ≤ keyAt prio arr c :=
      fun c hc hn => hleast.le c hc.1 hc.2 hn
    by_cases hmax : s.minChild = longMax
    · -- there is no child, or all children have the greatest key
      refine ⟨(arr, s.t), by simp only [restoreDown, hs, Option.bind_some, if_pos hmax], ?_⟩
      refine h.finish ?_
      intro c hc hn
      have hlt := hc.lt
      obtain ⟨a, hmem, ha⟩ := exists_get arr (show index < arr.length by omega)
      rw [keyAt_of_get _ ha]
      exact (hlong a hmem).trans (hmax ▸ hmin c hc hn)
    · obtain ⟨c, hc⟩ := Option.isSome_iff_exists.1 (hfound.assigned hmax)
      obtain ⟨hchild, hn⟩ := hfound.child c hc
      have hlt := hchild.lt
      obtain ⟨a, -, ha⟩ := exists_get arr (show index < arr.length by omega)
      obtain ⟨b, -, hb⟩ := exists_get arr (show c < arr.length by omega)
      rw [← hleast.attained c hc] at hmin
      simp only [restoreDown, hs, Option.bind_some, if_neg hmax, hc, ha, hb]
      have hka := keyAt_of_get prio ha
      have hkb := keyAt_of_get prio hb
      split_ifs with hless
      · rw [← hka, ← hkb] at hless
        have hperm := swap_perm ha hb
        have hhole := h.swap hlo hchild hn hmin hless
        rw [← keyAt_swap prio ha hb] at hhole
        exact ih (hperm.length_eq.trans hlen) (fun p hp => hlong p (hperm.mem_iff.1 hp)) (by omega)
          (by omega) hhole
      · rw [← hka, ← hkb] at hless
        exact ih hlen hlong (by omega) (by omega) (h.keep hlo hchild hmin (not_lt.1 hless))

theorem heapifyFrom_heap (prio : ℕ → ℤ) {n i t : ℕ} {arr : List ℕ} (hlen : arr.length = n)
    (hlong : ∀ p ∈ arr, prio p ≤ longMax) (h : HeapFrom schHeapBreath n (keyAt prio arr) i) :
    ∃ arr', heapifyFrom (fun _ => prio) n i arr t = some arr' ∧
      HeapFrom schHeapBreath n (keyAt prio arr') 0 := by
  induction i generalizing arr t with
  | zero => exact ⟨arr, rfl, h⟩
  | succ i ih =>
    obtain ⟨r, hr, hheap⟩ := restoreDown_heap prio (t := t) hlen hlong
      (show n - i < n + 1 by omega) le_rfl h.hole
    have hperm := restoreDown_perm _ _ _ hr
    obtain ⟨arr', h1, h2⟩ := ih (t := r.2) (hperm.length_eq.trans hlen)
      (fun p hp => hlong p (hperm.mem_iff.1 hp)) hheap
    exact ⟨arr', by simp only [heapifyFrom, hr, Option.bind_some, h1], h2⟩

/-- Positions without children are in order. -/
theorem heapFrom_leaves {n i : ℕ} (key : ℕ → ℤ) (hi : n ≤ 4 * i + 1) :
    HeapFrom schHeapBreath n key i := by
  intro p c hp hc hn
  have hlast := hc.1
  simp only [schHeapBreath] at hlast
  omega

/-- A rebuild on keys that stay put ends with a heap. -/
theorem schHeapify_heapFrom (prio : ℕ → ℤ) {n : ℕ} {dheap : List ℕ} (hlen : dheap.length = n)
    (hlong : ∀ p ∈ dheap, prio p ≤ longMax) :
    ∃ dheap', schHeapify (fun _ => prio) n dheap = some dheap' ∧
      HeapFrom schHeapBreath n (keyAt prio dheap') 0 := by
  refine heapifyFrom_heap prio hlen hlong (heapFrom_leaves _ ?_)
  rw [schHeapBreath]
  omega

/-- The order of a 4-ary heap: no pool has a key less than that of its parent. -/
def HeapOrder (prio : ℕ → ℤ) (arr : List ℕ) : Prop :=
  ∀ i < arr.length, 1 ≤ i → keyAt prio arr (getParentIndex i schHeapBreath) ≤ keyAt prio arr i

instance (prio : ℕ → ℤ) (arr : List ℕ) : Decidable (HeapOrder prio arr) :=
  inferInstanceAs (Decidable (∀ i < arr.length, 1 ≤ i → _))

theorem heapOrder_iff {prio : ℕ → ℤ} {n : ℕ} {arr : List ℕ} (hlen : arr.length = n) :
    HeapOrder prio arr ↔ HeapFrom schHeapBreath n (keyAt prio arr) 0 := by
  rw [heapFrom_zero_iff (by decide), ← hlen]
  rfl

/-- The first pool of a heap has the least key. -/
theorem heap_root {prio : ℕ → ℤ} {n : ℕ} {arr : List ℕ} (hn : 1 ≤ n) (hlen : arr.length = n)
    (h : HeapFrom schHeapBreath n (keyAt prio arr) 0) :
    ∃ root, arr[0]? = some root ∧ ∀ p ∈ arr, prio root ≤ prio p := by
  obtain ⟨root, -, hroot⟩ := exists_get arr (show 0 < arr.length by omega)
  refine ⟨root, hroot, ?_⟩
  intro p hp
  obtain ⟨j, hj, rfl⟩ := List.mem_iff_getElem.1 hp
  have hle := h.root_le (by decide) (hlen ▸ hj)
  rwa [keyAt_of_get _ hroot, keyAt_of_get _ (List.getElem?_eq_getElem hj)] at hle

/-- **`schHeapify` builds a heap** of least keys on top: on keys that stay put
    and fit a `long int`, the array is permuted such that no key is greater than
    those of its four children, and the first pool has the least key. -/
theorem schHeapify_heap (prio : ℕ → ℤ) (n : ℕ) (dheap : List ℕ) (hn : 1 ≤ n)
    (hlen : dheap.length = n) (hlong : ∀ p ∈ dheap, prio p ≤ longMax) :
    ∃ dheap', schHeapify (fun _ => prio) n dheap = some dheap' ∧ dheap'.Perm dheap ∧
      (∀ i a b, 1 ≤ i → dheap'[(i - 1) / 4]? = some a → dheap'[i]? = some b → prio a ≤ prio b) ∧
      ∃ root, dheap'[0]? = some root ∧ ∀ p ∈ dheap, prio root ≤ prio p := by
  obtain ⟨dheap', hrun, hheap⟩ := schHeapify_heapFrom prio hlen hlong
  have hperm := schHeapify_perm _ _ hrun
  have hlen' := hperm.length_eq.trans hlen
  refine ⟨dheap', hrun, hperm, ?_, ?_⟩
  · intro i a b hi ha hb
    have hib : i < n := hlen' ▸ (List.getElem?_eq_some_iff.1 hb).1
    have hle := hheap _ i (Nat.zero_le _) (IsChild.parent (by decide) hi) hib
    rwa [schHeapBreath, keyAt_of_get _ ha, keyAt_of_get _ hb] at hle
  · obtain ⟨root, hroot, hle⟩ := heap_root hn hlen' hheap
    exact ⟨root, hroot, fun p hp => hle p (hperm.mem_iff.2 hp)⟩

/-- Six pools, the last one with the least key. -/
theorem schHeapify_heap_six : ∃ dheap',
    schHeapify (fun _ p => [5, 3, 4, 1, 2, 0].getD p 0) 6 [0, 1, 2, 3, 4, 5] = some dheap' ∧
    dheap'[0]? = some 5 := by
  obtain ⟨dheap', hrun, -, -, root, hroot, hle⟩ := schHeapify_heap
    (fun p => [5, 3, 4, 1, 2, 0].getD p 0) 6 [0, 1, 2, 3, 4, 5] (by decide) rfl (by decide)
  refine ⟨dheap', hrun, ?_⟩
  have h5 := hle 5 (by decide)
  have hmem : root ∈ [0, 1, 2, 3, 4, 5] :=
    (schHeapify_perm _ _ hrun).mem_iff.1 (List.mem_of_getElem? hroot)
  fin_cases hmem <;> first | exact hroot | exact absurd h5 (by decide)

end TaskSch
