/-
  Task scheduler formalization — the pool allocator (src/poolAllocator.c).

  A pool is one buffer of `num` nodes, a link and `itemsize` bytes each.  Its
  first node is the head of the chain of the free nodes and is never handed out.
  The buffer is allocated with the size of the descriptor added to each item,
  narrowed to an `int`, while the nodes are laid out with the size of a link.

  Memory is a buffer of bytes: a block is obtained, returned and written to as
  addresses, and an access outside of the buffer is undefined behaviour
  (`none`).

  * `schInitPool_spec`: initialization chains the nodes in order;
  * `staysInside_iff`: it stays inside of the buffer iff there is a node, and the
    size of an item is less than `2 ^ 32 - 16`.
-/
import TaskSch.Memory

namespace TaskSch

/-! ## The allocator -/

/-- `SchPool`, of 16 bytes. -/
structure SchPool where
  num : UInt32
  itemsize : UInt32
  pool : ℤ

/-- `sizeof(SchPoolNode)`: the link only. -/
def sizeofSchPoolNode : ℕ := 8

/-- `sizeof(SchPool)`. -/
def sizeofSchPool : ℕ := 16

/-- The distance of two nodes. -/
def stride (itemsize : UInt32) : ℕ := itemsize.toNat + sizeofSchPoolNode

/-- `size`: stored in an `int`, and then converted to the `size_t` of `calloc`. -/
def nodeSize (itemsize : UInt32) : ℕ :=
  ((BitVec.ofNat 32 (itemsize.toNat + sizeofSchPool)).signExtend 64).toNat

/-- `calloc`, when it returns `base`. -/
def calloc (base : ℤ) (num size : ℕ) : Buffer := ⟨base, num * size, fun _ => 0⟩

/-- The loop of `schInitPool`, for the remaining nodes from `tmp` on. -/
def initLoop (itemsize : UInt32) : ℕ → ℤ → Buffer → Option (ℤ × Buffer)
  | 0, tmp, buf => some (tmp, buf)
  | i + 1, tmp, buf =>
    (buf.store tmp (tmp + sizeofSchPoolNode + itemsize.toNat)).bind fun buf =>
      initLoop itemsize i (tmp + (itemsize.toNat + sizeofSchPoolNode)) buf

/-- `schInitPool`, when `calloc` returns `base`. -/
def schInitPool (base : ℤ) (num itemsize : UInt32) : Option (SchPool × Buffer) :=
  let buf := calloc base num.toNat (nodeSize itemsize)
  (initLoop itemsize num.toNat base buf).bind fun r =>
    let tmp := r.1 - (itemsize.toNat + sizeofSchPoolNode)
    (r.2.store tmp 0).map fun buf => (⟨num, itemsize, base⟩, buf)

/-- `schPoolObtain`: the block, or the null pointer. -/
def schPoolObtain (allocator : SchPool) (buf : Buffer) : Option (ℤ × Buffer) :=
  (buf.load allocator.pool).bind fun tmp =>
    if tmp = 0 then some (0, buf)
    else
      (buf.load tmp).bind fun next =>
        (buf.store allocator.pool next).map fun buf => (tmp + sizeofSchPoolNode, buf)

/-- `schPoolReturn`: the node of the block is put in front of the free nodes. -/
def schPoolReturn (allocator : SchPool) (buf : Buffer) (data : ℤ) : Option (ℤ × Buffer) :=
  let tmp := data - sizeofSchPoolNode
  (buf.load allocator.pool).bind fun next =>
    (buf.store tmp next).bind fun buf =>
      (buf.store allocator.pool tmp).map fun buf => (tmp, buf)

def schPoolNumNodes (pool : SchPool) : UInt32 := pool.num

/-- `schPoolGetIndex`: the offset is divided by the size of an item.  A division
    by zero is undefined behaviour. -/
def schPoolGetIndex (pool : SchPool) (data : ℤ) : Option Int32 :=
  let offset := ((data - pool.pool) % 2 ^ 64).toNat
  if pool.itemsize.toNat = 0 then none
  else some (UInt32.ofNat (offset / pool.itemsize.toNat)).toInt32

/-- `sntPoolItemByIndex`, with the offset in a `size_t`. -/
def sntPoolItemByIndex (pool : SchPool) (index : UInt32) : ℤ :=
  pool.pool + (((stride pool.itemsize * index.toNat + sizeofSchPoolNode) % 2 ^ 64 : ℕ) : ℤ)

/-- `sizeof(struct linked_node)`: an index and two pointers. -/
def sizeofLinkedNode : UInt32 := 24

/-- The pool of `schCreateQueue`. -/
def schCreateQueue (base : ℤ) (nrReserved : UInt32) : Option (SchPool × Buffer) :=
  schInitPool base nrReserved sizeofLinkedNode

/-- The nodes of a pool. -/
def SchPool.nodes (alloc : SchPool) : List ℤ :=
  (List.range alloc.num.toNat).map fun i : ℕ => alloc.pool + stride alloc.itemsize * (i : ℤ)

/-! ## Initialization -/

/-- The size of a node, by the range of the size of an item. -/
theorem nodeSize_cases (itemsize : UInt32) :
    (itemsize.toNat + 16 < 2 ^ 31 ∧ nodeSize itemsize = itemsize.toNat + 16) ∨
    (itemsize.toNat + 16 < 2 ^ 32 ∧ itemsize.toNat + 16 ≤ nodeSize itemsize) ∨
    (2 ^ 32 ≤ itemsize.toNat + 16 ∧ nodeSize itemsize < 16) := by
  have hlt : itemsize.toNat < 2 ^ 32 := itemsize.toNat_lt
  have hmod : (BitVec.ofNat 32 (itemsize.toNat + 16)).toNat = (itemsize.toNat + 16) % 2 ^ 32 :=
    BitVec.toNat_ofNat _ _
  rw [nodeSize, sizeofSchPool, BitVec.toNat_signExtend, BitVec.toNat_setWidth, hmod,
    BitVec.msb_eq_decide, hmod]
  simp only [decide_eq_true_eq]
  split_ifs <;> omega

section Init

variable {itemsize : UInt32} {k : ℕ} {tmp : ℤ} {buf : Buffer}

/-- The loop of `schInitPool` in a buffer that has the nodes: it links them in
    order, and leaves what is before them alone. -/
theorem initLoop_spec (hin : ∀ j < k, buf.Inside (tmp + stride itemsize * j) Buffer.wordSize) :
    ∃ buf', initLoop itemsize k tmp buf = some (tmp + stride itemsize * k, buf') ∧
      buf'.base = buf.base ∧ buf'.size = buf.size ∧
      (∀ q, q + Buffer.wordSize ≤ tmp → buf'.load q = buf.load q) ∧
      (0 ≤ tmp → tmp + stride itemsize * k < 2 ^ 64 → ∀ j < k,
        buf'.load (tmp + stride itemsize * j) =
          some (tmp + stride itemsize * ((j + 1 : ℕ) : ℤ))) := by
  induction k generalizing tmp buf with
  | zero => exact ⟨buf, by simp [initLoop], rfl, rfl, fun _ _ => rfl, by omega⟩
  | succ k ih =>
    have hstride : Buffer.wordSize ≤ stride itemsize := Nat.le_add_left _ _
    have hnext : tmp + (itemsize.toNat + sizeofSchPoolNode) = tmp + stride itemsize := by
      simp [stride]
    obtain ⟨buf₁, h1⟩ := Buffer.store_of_inside (by simpa using hin 0 (by omega))
      (tmp + sizeofSchPoolNode + itemsize.toNat)
    obtain ⟨-, hbase₁, hsize₁⟩ := Buffer.store_inside h1
    have hshift : ∀ j : ℕ, tmp + stride itemsize + stride itemsize * (j : ℤ) =
        tmp + stride itemsize * ((j + 1 : ℕ) : ℤ) := by
      intro j
      push_cast
      ring
    have hin₁ : ∀ j < k,
        buf₁.Inside (tmp + stride itemsize + stride itemsize * (j : ℤ)) Buffer.wordSize := by
      intro j hj
      rw [hshift]
      simpa only [Buffer.Inside, hbase₁, hsize₁] using hin (j + 1) (by omega)
    obtain ⟨buf₂, h2, hbase₂, hsize₂, hbefore, hlinks⟩ := ih hin₁
    refine ⟨buf₂, ?_, hbase₂.trans hbase₁, hsize₂.trans hsize₁, ?_, ?_⟩
    · rw [initLoop, h1, Option.bind_some, hnext, h2, hshift]
    · intro q hq
      rw [hbefore q (by omega), Buffer.load_store_of_disjoint h1 (.inl hq)]
    · intro h0 htop j hj
      have hnonneg : (0 : ℤ) ≤ stride itemsize * (k : ℤ) := by positivity
      rw [← hshift] at htop
      cases j with
      | zero =>
        have hfirst := Buffer.load_store h1 (by omega) (by omega)
        rw [Nat.cast_zero, mul_zero, add_zero, hbefore tmp (by omega), hfirst]
        simp only [stride]
        push_cast
        congr 1
        ring
      | succ j =>
        rw [← hshift, ← hshift]
        exact hlinks (by omega) htop j (by omega)

end Init

/-- The buffer has the nodes of the pool. -/
structure Fits (alloc : SchPool) (buf : Buffer) : Prop where
  base : buf.base = alloc.pool
  size : stride alloc.itemsize * alloc.num.toNat ≤ buf.size

section Nodes

variable {alloc : SchPool} {buf : Buffer} {node node' : ℤ}

theorem mem_nodes : node ∈ alloc.nodes ↔
    ∃ i < alloc.num.toNat, node = alloc.pool + stride alloc.itemsize * (i : ℤ) := by
  simp only [SchPool.nodes, List.mem_map, List.mem_range, eq_comm]

/-- A node of smaller index ends before a node of greater index starts. -/
theorem node_before (pool : ℤ) (itemsize : UInt32) {i j : ℕ} (hij : i < j) :
    pool + stride itemsize * (i : ℤ) + stride itemsize ≤ pool + stride itemsize * (j : ℤ) := by
  have hle : stride itemsize * (i + 1) ≤ stride itemsize * j := Nat.mul_le_mul_left _ hij
  zify at hle
  linarith

theorem nodes_apart (h : node ∈ alloc.nodes) (h' : node' ∈ alloc.nodes) (hne : node ≠ node') :
    node + stride alloc.itemsize ≤ node' ∨ node' + stride alloc.itemsize ≤ node := by
  obtain ⟨i, -, rfl⟩ := mem_nodes.1 h
  obtain ⟨j, -, rfl⟩ := mem_nodes.1 h'
  rcases lt_trichotomy i j with hij | rfl | hij
  · exact .inl (node_before _ _ hij)
  · exact absurd rfl hne
  · exact .inr (node_before _ _ hij)

theorem nodes_nodup (alloc : SchPool) : alloc.nodes.Nodup := by
  refine List.Nodup.map ?_ List.nodup_range
  intro i j hij
  have hpos : (stride alloc.itemsize : ℤ) ≠ 0 := by
    simp only [stride, sizeofSchPoolNode]
    omega
  have hmul := add_left_cancel hij
  exact_mod_cast mul_left_cancel₀ hpos hmul

/-- A node lies inside of the buffer, its item included. -/
theorem Fits.inside (h : Fits alloc buf) (hnode : node ∈ alloc.nodes) :
    buf.Inside node (stride alloc.itemsize) := by
  obtain ⟨i, hi, rfl⟩ := mem_nodes.1 hnode
  have hend := node_before alloc.pool alloc.itemsize hi
  have hsize := h.size
  zify at hsize
  have hstart : (0 : ℤ) ≤ stride alloc.itemsize * (i : ℤ) := by positivity
  rw [Buffer.Inside, h.base]
  exact ⟨by linarith, by linarith⟩

theorem inside_link {itemsize : UInt32} (h : buf.Inside node (stride itemsize)) :
    buf.Inside node Buffer.wordSize := by
  simp only [Buffer.Inside, Buffer.wordSize, stride, sizeofSchPoolNode] at *
  omega

end Nodes

section Init

variable {base : ℤ} {num itemsize : UInt32}

/-- **Initialization** in a buffer that has the nodes chains them in order. -/
theorem schInitPool_spec (hnum : 1 ≤ num.toNat)
    (hfits : Fits ⟨num, itemsize, base⟩ (calloc base num.toNat (nodeSize itemsize))) :
    ∃ buf, schInitPool base num itemsize = some (⟨num, itemsize, base⟩, buf) ∧
      Fits ⟨num, itemsize, base⟩ buf ∧
      (0 < base → base + stride itemsize * num.toNat < 2 ^ 64 →
        Chain buf.load 0 base (SchPool.nodes ⟨num, itemsize, base⟩)) := by
  have hin : ∀ j < num.toNat, (calloc base num.toNat (nodeSize itemsize)).Inside
      (base + stride itemsize * (j : ℤ)) Buffer.wordSize :=
    fun j hj => inside_link (hfits.inside (mem_nodes.2 ⟨j, hj, rfl⟩))
  obtain ⟨buf₁, hloop, hbase₁, hsize₁, -, hlinks⟩ := initLoop_spec hin
  obtain ⟨k, hk⟩ : ∃ k, num.toNat = k + 1 := ⟨num.toNat - 1, by omega⟩
  have hlast : base + stride itemsize * ((k + 1 : ℕ) : ℤ) -
      (itemsize.toNat + sizeofSchPoolNode) = base + stride itemsize * (k : ℤ) := by
    simp only [stride]
    push_cast
    ring
  have hin₁ : buf₁.Inside (base + stride itemsize * (k : ℤ)) Buffer.wordSize := by
    simpa only [Buffer.Inside, hbase₁, hsize₁] using hin k (by omega)
  obtain ⟨buf₂, hstore⟩ := Buffer.store_of_inside hin₁ 0
  obtain ⟨-, hbase₂, hsize₂⟩ := Buffer.store_inside hstore
  refine ⟨buf₂, ?_, ⟨by rw [hbase₂, hbase₁]; exact hfits.base,
    by rw [hsize₂, hsize₁]; exact hfits.size⟩, ?_⟩
  · rw [hk] at hloop
    simp only [schInitPool, hk, hloop, Option.bind_some, hlast, hstore, Option.map_some]
  · intro hpos htop
    have hlinks := hlinks hpos.le htop
    have hchain : Chain buf₂.load 0 (base + stride itemsize * ((0 : ℕ) : ℤ))
        ((List.range (k + 1)).map fun j : ℕ => base + stride itemsize * (j : ℤ)) := by
      refine Chain.of_links (f := fun j : ℕ => base + stride itemsize * (j : ℤ)) ?_
        (Buffer.load_store hstore le_rfl (by decide)) ?_
      · intro j hj
        have hapart := node_before base itemsize hj
        have hword : (Buffer.wordSize : ℤ) ≤ stride itemsize := by
          exact_mod_cast Nat.le_add_left _ _
        rw [Buffer.load_store_of_disjoint hstore (.inl (by omega)), hlinks j (by omega)]
      · intro j _
        positivity
    simpa [SchPool.nodes, hk] using hchain

/-- `calloc` makes room for the nodes, unless the size is cut off. -/
theorem calloc_fits (base : ℤ) (num : UInt32) (h : itemsize.toNat < 2 ^ 32 - 16) :
    Fits ⟨num, itemsize, base⟩ (calloc base num.toNat (nodeSize itemsize)) := by
  have hnode : stride itemsize ≤ nodeSize itemsize := by
    simp only [stride, sizeofSchPoolNode]
    rcases nodeSize_cases itemsize with ⟨-, heq⟩ | ⟨-, hle⟩ | ⟨hge, -⟩ <;> omega
  refine ⟨rfl, ?_⟩
  calc stride itemsize * num.toNat ≤ nodeSize itemsize * num.toNat := Nat.mul_le_mul_right _ hnode
    _ = num.toNat * nodeSize itemsize := Nat.mul_comm _ _

/-- Without a node, the terminator is written before the buffer. -/
theorem schInitPool_zero (base : ℤ) (itemsize : UInt32) : schInitPool base 0 itemsize = none := by
  have hout : ¬ (calloc base 0 (nodeSize itemsize)).Inside
      (base - (itemsize.toNat + sizeofSchPoolNode)) Buffer.wordSize := by
    simp only [calloc, Buffer.Inside, sizeofSchPoolNode]
    omega
  simp only [schInitPool, UInt32.toNat_zero, initLoop, Option.bind_some, Buffer.store,
    if_neg hout, Option.map_none]

end Init

/-- All links that are written lie inside of the buffer, and so do the nodes
    with their items. -/
def StaysInside (base : ℤ) (num itemsize : UInt32) : Prop :=
  (schInitPool base num itemsize).isSome ∧
    ∀ node ∈ SchPool.nodes ⟨num, itemsize, base⟩,
      (calloc base num.toNat (nodeSize itemsize)).Inside node (stride itemsize)

/-- If the size is cut off, the last node is not inside of the buffer. -/
theorem not_staysInside_of_wrap {base : ℤ} {num itemsize : UInt32} (hnum : 1 ≤ num.toNat)
    (hwrap : 2 ^ 32 - 16 ≤ itemsize.toNat) : ¬ StaysInside base num itemsize := by
  rintro ⟨-, hin⟩
  have hsize : nodeSize itemsize < stride itemsize := by
    simp only [stride, sizeofSchPoolNode]
    rcases nodeSize_cases itemsize with ⟨hlt, -⟩ | ⟨hlt, -⟩ | ⟨-, hlt⟩ <;> omega
  obtain ⟨k, hk⟩ : ∃ k, num.toNat = k + 1 := ⟨num.toNat - 1, by omega⟩
  have hlast := (hin _ (mem_nodes.2 ⟨k, by simp [hk], rfl⟩)).2
  have hmul := Nat.mul_lt_mul_of_pos_left hsize (show 0 < k + 1 by omega)
  simp only [calloc, hk] at hlast
  zify at hmul
  push_cast at hlast
  linarith

/-- **When `schInitPool` stays inside of its buffer**: exactly if there is a
    node, and the size of a node is not cut off.  `schCreateQueue` passes on any
    number of nodes. -/
theorem staysInside_iff (base : ℤ) (num itemsize : UInt32) :
    (StaysInside base num itemsize ↔ 1 ≤ num.toNat ∧ itemsize.toNat < 2 ^ 32 - 16) ∧
      ((schCreateQueue base num).isSome ↔ 1 ≤ num.toNat) := by
  have hzero : ∀ itemsize, ¬ 1 ≤ num.toNat → schInitPool base num itemsize = none := by
    intro itemsize h
    have : num = 0 := UInt32.toNat_inj.1 (by simpa using h)
    rw [this, schInitPool_zero]
  have hsome : ∀ itemsize : UInt32, 1 ≤ num.toNat → itemsize.toNat < 2 ^ 32 - 16 →
      (schInitPool base num itemsize).isSome := by
    intro itemsize hnum hitem
    obtain ⟨buf, hinit, -⟩ := schInitPool_spec hnum (calloc_fits base num hitem)
    rw [hinit]
    rfl
  constructor
  · constructor
    · intro h
      have hnum : 1 ≤ num.toNat := by
        by_contra hno
        rw [StaysInside, hzero itemsize hno] at h
        exact absurd h.1 (by simp)
      refine ⟨hnum, ?_⟩
      by_contra hno
      exact not_staysInside_of_wrap hnum (not_lt.1 hno) h
    · rintro ⟨hnum, hitem⟩
      exact ⟨hsome itemsize hnum hitem, fun node => (calloc_fits base num hitem).inside⟩
  · constructor
    · intro h
      by_contra hno
      rw [schCreateQueue, hzero _ hno] at h
      exact absurd h (by simp)
    · intro hnum
      exact hsome sizeofLinkedNode hnum (by decide)

/-- A queue that reserves nothing writes before its buffer. -/
theorem no_node_outside :
    ¬ ∀ (base : ℤ) (num itemsize : UInt32), StaysInside base num itemsize := by
  intro h
  have hsome := (h 4096 0 sizeofLinkedNode).1
  rw [schInitPool_zero] at hsome
  cases hsome

end TaskSch
