/-
  Task scheduler formalization — `restoreDown` and the textbook sift-down
  (src/heapify.c).

  The textbook sift-down stops at the first position that is in order with its
  children.  `restoreDown` goes on down to a leaf, or to a position whose
  children all have the greatest key, and compares the keys on its way.

  * `siftDown`, `buildHeap`: the textbook algorithms;
  * `restoreDown_still`: below a position that is in order, `restoreDown` changes
    nothing;
  * `heapifyFrom_still`: on a heap, neither does the whole rebuild;
  * `restoreDown_siftDown`, `heapifyFrom_buildFrom`: the same array comes out;
  * `sift_agree`: the sift-downs agree above a heap, and the rebuilds always.
-/
import TaskSch.Heapify

namespace TaskSch

/-! ## The textbook algorithms -/

/-- The first `j` children of `index` that exist, from left to right. -/
def children (len index k j : ℕ) : List ℕ :=
  ((List.range j).map fun i => k * index + (i + 1)).filter (· < len)

/-- The leftmost of the positions with the least key. -/
def leastOf (key : ℕ → ℤ) (cs : List ℕ) : Option ℕ :=
  @List.argmin ℕ ℤ Int.instLinearOrder.toPartialOrder.toPreorder Int.decLt key cs

/-- Sift-down that stops as soon as the element is not greater than its least
    child, the leftmost one on ties; at most `fuel` rounds. -/
def siftDown (prio : ℕ → ℤ) (len k : ℕ) : ℕ → List ℕ → ℕ → Option (List ℕ)
  | 0, _, _ => none
  | fuel + 1, arr, index =>
    match leastOf (keyAt prio arr) (children len index k k) with
    | none => some arr
    | some c => arr[index]?.bind fun a => arr[c]?.bind fun b =>
      if prio a ≤ prio b then some arr
      else siftDown prio len k fuel ((arr.set index b).set c a) c

/-- Sift-downs from the positions below `i`, from the last to the first. -/
def buildFrom (prio : ℕ → ℤ) (n : ℕ) : ℕ → List ℕ → Option (List ℕ)
  | 0, arr => some arr
  | i + 1, arr => (siftDown prio n 4 (n + 1) arr i).bind (buildFrom prio n i)

/-- Bottom-up heap construction, from the last position with a child on. -/
def buildHeap (prio : ℕ → ℤ) (n : ℕ) (arr : List ℕ) : Option (List ℕ) :=
  buildFrom prio n ((n - 2) / 4 + 1) arr

/-! ## The least child -/

section Children

variable {len index k j c : ℕ}

theorem mem_children : c ∈ children len index k j ↔
    k * index < c ∧ c ≤ k * index + j ∧ c < len := by
  simp only [children, List.mem_filter, List.mem_map, List.mem_range, decide_eq_true_eq]
  constructor
  · rintro ⟨⟨i, hi, rfl⟩, hlt⟩
    exact ⟨by omega, by omega, hlt⟩
  · rintro ⟨h1, h2, h3⟩
    exact ⟨⟨c - k * index - 1, by omega, by omega⟩, h3⟩

theorem children_succ (len index k j : ℕ) : children len index k (j + 1) =
    children len index k j ++
      if k * index + (j + 1) < len then [k * index + (j + 1)] else [] := by
  simp only [children, List.range_succ, List.map_append, List.filter_append, List.map_cons,
    List.map_nil, List.filter_singleton, cond_eq_ite, decide_eq_true_eq]

theorem leastOf_concat (key : ℕ → ℤ) (cs : List ℕ) (c : ℕ) :
    leastOf key (cs ++ [c]) =
      match leastOf key cs with
      | none => some c
      | some b => if key c < key b then some c else some b := by
  rw [leastOf, List.argmin_concat]
  cases h : leastOf key cs with
  | none => rw [leastOf] at h; rw [h]
  | some b => rw [leastOf] at h; rw [h]

theorem leastOf_mem {key : ℕ → ℤ} {cs : List ℕ} (h : leastOf key cs = some c) : c ∈ cs :=
  List.argmin_mem h

end Children

/-- What the search has found among the first `j` children: the leftmost least
    one, unless all of them have the greatest key. -/
structure Leftmost (prio : ℕ → ℤ) (arr : List ℕ) (len index k j : ℕ) (s : Scan) : Prop where
  found : ∀ c, s.minChildIndex = some c →
    leastOf (keyAt prio arr) (children len index k j) = some c ∧ keyAt prio arr c = s.minChild ∧
      s.minChild < longMax
  absent : s.minChildIndex = none →
    s.minChild = longMax ∧ ∀ c ∈ children len index k j, longMax ≤ keyAt prio arr c

theorem Leftmost.le {prio : ℕ → ℤ} {arr : List ℕ} {len index k j : ℕ} {s : Scan}
    (h : Leftmost prio arr len index k j s) : s.minChild ≤ longMax := by
  cases hc : s.minChildIndex with
  | none => exact (h.absent hc).1.le
  | some c => exact (h.found c hc).2.2.le

theorem scan_leftmost (prio : ℕ → ℤ) {arr : List ℕ} {len : ℕ} (hlen : arr.length = len)
    (index k t : ℕ) :
    ∃ s, scan (fun _ => prio) arr len index k t = some s ∧ Leftmost prio arr len index k k s := by
  refine scan_ind _ (P := Leftmost prio arr len index k)
    ⟨by simp, fun _ => ⟨rfl, by simp [children]⟩⟩ ?_
  intro j s hj h
  rcases scanChild_cases (fun _ => prio) hlen index k s j with ⟨hge, hs⟩ | ⟨p, hget, hlt, hs⟩
  · refine ⟨s, hs, ?_⟩
    have hsame := children_succ len index k j
    rw [if_neg (by omega), List.append_nil] at hsame
    exact ⟨by rw [hsame]; exact h.found, by rw [hsame]; exact h.absent⟩
  · have hkey := keyAt_of_get prio hget
    have hnext := children_succ len index k j
    rw [if_pos hlt] at hnext
    refine ⟨_, hs, ?_⟩
    split_ifs with hless
    · refine ⟨?_, by simp⟩
      rintro c ⟨⟩
      refine ⟨?_, hkey, hless.trans_le h.le⟩
      rw [hnext, leastOf_concat]
      cases hb : leastOf (keyAt prio arr) (children len index k j) with
      | none => rfl
      | some b =>
        -- the least one so far has a greater key than the new one
        have hgreater : s.minChild ≤ keyAt prio arr b := by
          cases hc : s.minChildIndex with
          | none => exact (h.absent hc).1 ▸ (h.absent hc).2 b (leastOf_mem hb)
          | some c =>
            obtain ⟨hc, heq, -⟩ := h.found c hc
            rw [hc] at hb
            cases hb
            exact heq.ge
        simp only
        rw [if_pos (by rw [hkey]; exact hless.trans_le hgreater)]
    · constructor
      · intro c hc
        obtain ⟨hmin, heq, hlong⟩ := h.found c hc
        refine ⟨?_, heq, hlong⟩
        rw [hnext, leastOf_concat, hmin]
        simp only
        rw [if_neg (by rw [hkey, heq]; exact hless)]
      · intro hc
        obtain ⟨hmax, hall⟩ := h.absent hc
        refine ⟨hmax, ?_⟩
        intro c hmem
        rw [hnext] at hmem
        rcases List.mem_append.1 hmem with hmem | hmem
        · exact hall c hmem
        · rw [List.mem_singleton.1 hmem, hkey, ← hmax]
          exact not_lt.1 hless

/-! ## The two sift-downs -/

section Sift

variable (prio : ℕ → ℤ) {len k fuel index t : ℕ} {arr : List ℕ}

/-- A round of `restoreDown` on keys that stay put: it ends, as all children have
    the greatest key; or it goes on at the leftmost least child. -/
theorem restoreDown_round (hlen : arr.length = len) (index t : ℕ) :
    (∃ t', (∀ fuel, restoreDown (fun _ => prio) len k (fuel + 1) arr index t = some (arr, t')) ∧
      ∀ c ∈ children len index k k, longMax ≤ keyAt prio arr c) ∨
    ∃ c a b t', leastOf (keyAt prio arr) (children len index k k) = some c ∧
      arr[index]? = some a ∧ arr[c]? = some b ∧ IsChild k index c ∧ c < len ∧
      ∀ fuel, restoreDown (fun _ => prio) len k (fuel + 1) arr index t =
        restoreDown (fun _ => prio) len k fuel
          (if prio a > prio b then (arr.set index b).set c a else arr) c t' := by
  obtain ⟨s, hs, hleft⟩ := scan_leftmost prio hlen index k t
  cases hc : s.minChildIndex with
  | none =>
    obtain ⟨hmax, hall⟩ := hleft.absent hc
    refine .inl ⟨s.t, ?_, hall⟩
    intro fuel
    simp only [restoreDown, hs, Option.bind_some, if_pos hmax]
  | some c =>
    obtain ⟨hleast, -, hlong⟩ := hleft.found c hc
    obtain ⟨h1, h2, hn⟩ := mem_children.1 (leastOf_mem hleast)
    have hchild : IsChild k index c := ⟨h1, h2⟩
    have hlt := hchild.lt
    obtain ⟨a, -, ha⟩ := exists_get arr (show index < arr.length by omega)
    obtain ⟨b, -, hb⟩ := exists_get arr (show c < arr.length by omega)
    refine .inr ⟨c, a, b, s.t + 2, hleast, ha, hb, hchild, hn, ?_⟩
    intro fuel
    simp only [restoreDown, hs, Option.bind_some, if_neg hlong.ne, hc, ha, hb]

variable {prio}

/-- Below a position that is in order, nothing is exchanged. -/
theorem restoreDown_still (hlen : arr.length = len) (hfuel : len - index < fuel)
    (hroot : ∀ c, IsChild k index c → c < len → keyAt prio arr index ≤ keyAt prio arr c)
    (hbelow : OrderBelow k len (keyAt prio arr) index) :
    ∃ t', restoreDown (fun _ => prio) len k fuel arr index t = some (arr, t') := by
  induction fuel generalizing index t with
  | zero => omega
  | succ fuel ih =>
    rcases restoreDown_round prio (k := k) hlen index t with
      ⟨t', hend, -⟩ | ⟨c, a, b, t', -, ha, hb, hchild, hn, hnext⟩
    · exact ⟨t', hend fuel⟩
    · have hlt := hchild.lt
      have hle := hroot c hchild hn
      rw [keyAt_of_get prio ha, keyAt_of_get prio hb] at hle
      rw [hnext fuel, if_neg (not_lt.2 hle)]
      exact ih (by omega) (fun d hd hdn => hbelow c d (.single hchild) hd hdn)
        (hbelow.child hchild)

/-- **`restoreDown` is the textbook sift-down** above a heap. -/
theorem restoreDown_siftDown (hlen : arr.length = len) (hlong : ∀ p ∈ arr, prio p ≤ longMax)
    (hindex : index < len) (hfuel : len - index < fuel)
    (hbelow : OrderBelow k len (keyAt prio arr) index) :
    ∃ arr' t', restoreDown (fun _ => prio) len k fuel arr index t = some (arr', t') ∧
      siftDown prio len k fuel arr index = some arr' := by
  induction fuel generalizing arr index t with
  | zero => omega
  | succ fuel ih =>
    rcases restoreDown_round prio (k := k) hlen index t with
      ⟨t', hend, hall⟩ | ⟨c, a, b, t', hleast, ha, hb, hchild, hn, hnext⟩
    · refine ⟨arr, t', hend fuel, ?_⟩
      rw [siftDown]
      cases hc : leastOf (keyAt prio arr) (children len index k k) with
      | none => rfl
      | some c =>
        have hmem := leastOf_mem hc
        have hn := (mem_children.1 hmem).2.2
        obtain ⟨a, hain, ha⟩ := exists_get arr (show index < arr.length by omega)
        obtain ⟨b, -, hb⟩ := exists_get arr (show c < arr.length by omega)
        have hmax := hall c hmem
        rw [keyAt_of_get prio hb] at hmax
        simp only [ha, hb, Option.bind_some, if_pos ((hlong a hain).trans hmax)]
    · have hlt := hchild.lt
      rw [siftDown, hleast]
      simp only [ha, hb, Option.bind_some]
      rw [hnext fuel]
      split_ifs with hgt hle hle
      · exact absurd hle (not_le.2 hgt)
      · have hperm := swap_perm ha hb
        have hbelow' := hbelow.swap hchild
        rw [← keyAt_swap prio ha hb] at hbelow'
        exact ih (hperm.length_eq.trans hlen) (fun p hp => hlong p (hperm.mem_iff.1 hp)) hn
          (by omega) hbelow'
      · -- the element has come to rest, and what is below it is in order
        obtain ⟨t'', hstill⟩ := restoreDown_still (t := t') hlen (show len - c < fuel by omega)
          (fun d hd hdn => hbelow c d (.single hchild) hd hdn) (hbelow.child hchild)
        exact ⟨arr, t'', hstill, rfl⟩
      · exact absurd (not_lt.1 hgt) hle

end Sift

/-! ## The two constructions -/

section Build

variable {prio : ℕ → ℤ} {n i t : ℕ} {arr : List ℕ}

/-- A position that is in order, like all that come after it, changes nothing. -/
theorem heapifyFrom_keep (hlen : arr.length = n)
    (h : HeapFrom schHeapBreath n (keyAt prio arr) i) (t : ℕ) :
    ∃ t', heapifyFrom (fun _ => prio) n (i + 1) arr t = heapifyFrom (fun _ => prio) n i arr t' := by
  obtain ⟨t', hstill⟩ := restoreDown_still (t := t) hlen (show n - i < n + 1 by omega)
    (fun c => h i c le_rfl) fun p c hp => h p c (IsChild.below_lt hp).le
  exact ⟨t', by simp only [heapifyFrom, hstill, Option.bind_some]⟩

/-- **A heap stays as it is.** -/
theorem heapifyFrom_still (hlen : arr.length = n)
    (h : HeapFrom schHeapBreath n (keyAt prio arr) 0) (i t : ℕ) :
    heapifyFrom (fun _ => prio) n i arr t = some arr := by
  induction i generalizing t with
  | zero => rfl
  | succ i ih =>
    obtain ⟨t', hkeep⟩ := heapifyFrom_keep hlen (fun p c _ => h p c (Nat.zero_le p)) t
    rw [hkeep]
    exact ih t'

theorem heapifyFrom_buildFrom (hlen : arr.length = n) (hlong : ∀ p ∈ arr, prio p ≤ longMax)
    (hi : i ≤ n) (h : HeapFrom schHeapBreath n (keyAt prio arr) i) :
    ∃ arr', heapifyFrom (fun _ => prio) n i arr t = some arr' ∧
      buildFrom prio n i arr = some arr' := by
  induction i generalizing arr t with
  | zero => exact ⟨arr, rfl, rfl⟩
  | succ i ih =>
    obtain ⟨arr', t', hdown, hsift⟩ := restoreDown_siftDown (t := t) hlen hlong
      (show i < n by omega) (show n - i < n + 1 by omega) h.orderBelow
    obtain ⟨r, hr, hheap⟩ := restoreDown_heap prio (t := t) hlen hlong
      (show n - i < n + 1 by omega) le_rfl h.hole
    rw [hdown] at hr
    cases hr
    have hperm := restoreDown_perm _ _ _ hdown
    obtain ⟨arr'', h1, h2⟩ := ih (t := t') (hperm.length_eq.trans hlen)
      (fun p hp => hlong p (hperm.mem_iff.1 hp)) (by omega) hheap
    refine ⟨arr'', ?_, ?_⟩
    · simp only [heapifyFrom, hdown, Option.bind_some, h1]
    · rw [schHeapBreath] at hsift
      simp only [buildFrom, hsift, Option.bind_some, h2]

/-- The rebuild starts at the last position with a child, or one later. -/
theorem schHeapify_buildHeap (hlen : arr.length = n) (hlong : ∀ p ∈ arr, prio p ≤ longMax)
    (hn : 2 ≤ n) :
    ∃ arr', schHeapify (fun _ => prio) n arr = some arr' ∧ buildHeap prio n arr = some arr' := by
  have hstart : ∃ t, schHeapify (fun _ => prio) n arr =
      heapifyFrom (fun _ => prio) n ((n - 2) / 4 + 1) arr t := by
    rcases Nat.lt_or_ge ((n - 2) / 4) ((n - 1) / 4) with hlt | hge
    · obtain ⟨t, ht⟩ := heapifyFrom_keep hlen
        (heapFrom_leaves (i := (n - 1) / 4) (keyAt prio arr) (by omega)) 0
      refine ⟨t, ?_⟩
      rw [schHeapify, schHeapBreath, ht]
      congr 1
      omega
    · refine ⟨0, ?_⟩
      rw [schHeapify, schHeapBreath]
      congr 2
      omega
  obtain ⟨t, ht⟩ := hstart
  rw [ht]
  exact heapifyFrom_buildFrom hlen hlong (by omega) (heapFrom_leaves _ (by omega))

end Build

/-- **`restoreDown` agrees with the textbook sift-down** wherever the proper
    descendants are in order among themselves, and **`schHeapify` with bottom-up
    heap construction**, for all keys that fit a `long int`. -/
theorem sift_agree (prio : ℕ → ℤ) (arr : List ℕ) (hlong : ∀ p ∈ arr, prio p ≤ longMax) :
    (∀ index t, index < arr.length → OrderBelow 4 arr.length (keyAt prio arr) index →
      ∃ arr' t', restoreDown (fun _ => prio) arr.length 4 (arr.length + 1) arr index t =
          some (arr', t') ∧
        siftDown prio arr.length 4 (arr.length + 1) arr index = some arr') ∧
    (2 ≤ arr.length → ∃ arr', schHeapify (fun _ => prio) arr.length arr = some arr' ∧
      buildHeap prio arr.length arr = some arr') := by
  constructor
  · intro index t hindex hbelow
    exact restoreDown_siftDown rfl hlong hindex (by omega) hbelow
  · intro hn
    exact schHeapify_buildHeap rfl hlong hn

/-- Six pools with two equal keys. -/
theorem sift_agree_six :
    (∃ arr' t', restoreDown (fun _ p => [5, 3, 1, 1, 2, 0].getD p 0) 6 4 7 [0, 1, 2, 3, 4, 5] 1 0 =
        some (arr', t') ∧
      siftDown (fun p => [5, 3, 1, 1, 2, 0].getD p 0) 6 4 7 [0, 1, 2, 3, 4, 5] 1 = some arr') ∧
    ∃ arr', schHeapify (fun _ p => [5, 3, 1, 1, 2, 0].getD p 0) 6 [0, 1, 2, 3, 4, 5] = some arr' ∧
      buildHeap (fun p => [5, 3, 1, 1, 2, 0].getD p 0) 6 [0, 1, 2, 3, 4, 5] = some arr' := by
  obtain ⟨hsift, hbuild⟩ :=
    sift_agree (fun p => [5, 3, 1, 1, 2, 0].getD p 0) [0, 1, 2, 3, 4, 5] (by decide)
  have hbelow := heapFrom_leaves (n := 6) (i := 2)
    (keyAt (fun p => [5, 3, 1, 1, 2, 0].getD p 0) [0, 1, 2, 3, 4, 5]) (by decide)
  exact ⟨hsift 1 0 (by decide) hbelow.orderBelow, hbuild (by decide)⟩

end TaskSch
