/-
  Task scheduler formalization — the pool allocator as a stack
  (src/poolAllocator.c).

  What the allocator is for: a stack of free blocks, of which the last one that
  was returned is obtained first, and bytes that only those who hold a block
  change.  `BlockStack` says so without links, nodes and a buffer.

  * `Stacked`: the nodes of the free blocks are the chain of the pool, and the
    bytes of all items are those of the stack;
  * `stacked_step`: one step of the pool is one step of the stack;
  * `pool_refines_stack`: so is every run.
-/
import TaskSch.PoolRuns

namespace TaskSch

/-! ## The stack of blocks -/

/-- The free blocks, the next one first, the held ones, and the byte at every
    address. -/
structure BlockStack where
  itemsize : ℕ
  free : List ℤ
  held : List ℤ
  bytes : ℤ → UInt8

namespace BlockStack

/-- The block that is obtained next, or the null pointer. -/
def top (t : BlockStack) : ℤ := t.free.headD 0

def step (t : BlockStack) : PoolAct → Option BlockStack
  | .poolObtain =>
    match t.free with
    | [] => some t
    | b :: free => some { t with free := free, held := b :: t.held }
  | .poolReturn b =>
    if b ∈ t.held then some { t with free := b :: t.free, held := t.held.erase b } else none
  | .write p v =>
    if ∃ b ∈ t.held, b ≤ p ∧ p < b + t.itemsize then
      some { t with bytes := Function.update t.bytes p v }
    else none

/-- All blocks but the first one are free, in order, and all bytes are zero. -/
def fresh (base : ℤ) (num itemsize : UInt32) : BlockStack where
  itemsize := itemsize.toNat
  free := (List.range (num.toNat - 1)).map fun i : ℕ =>
    base + stride itemsize * ((i + 1 : ℕ) : ℤ) + sizeofSchPoolNode
  held := []
  bytes _ := 0

end BlockStack

def stackMachine : Machine BlockStack PoolAct := ⟨BlockStack.step⟩

/-! ## Bytes that the allocator leaves alone -/

/-- A store changes no byte that is not of its word. -/
theorem Buffer.store_bytes {b b' : Buffer} {p v q : ℤ} (h : b.store p v = some b')
    (hq : q < p ∨ p + wordSize ≤ q) : b'.bytes q = b.bytes q := by
  simp only [store] at h
  split_ifs at h
  cases h
  exact writeLE_of_not_mem hq

/-- The byte at `q` is of the item of a node. -/
def SchPool.Item (alloc : SchPool) (q : ℤ) : Prop :=
  ∃ node ∈ alloc.nodes, node + sizeofSchPoolNode ≤ q ∧ q < node + stride alloc.itemsize

section Items

variable {alloc : SchPool} {buf buf' : Buffer} {node q r : ℤ}

/-- An item does not meet the link of a node. -/
theorem SchPool.Item.apart (hq : alloc.Item q) (hn : node ∈ alloc.nodes) :
    q < node ∨ node + Buffer.wordSize ≤ q := by
  obtain ⟨node', hn', hlo, hhi⟩ := hq
  have hword : Buffer.wordSize = sizeofSchPoolNode := rfl
  have hstride : sizeofSchPoolNode ≤ stride alloc.itemsize := Nat.le_add_left _ _
  by_cases hne : node = node'
  · exact .inr (by rw [hne, hword]; exact hlo)
  · rcases nodes_apart hn hn' hne with h | h
    · exact .inr (by omega)
    · exact .inl (by omega)

theorem obtain_bytes (h : schPoolObtain alloc buf = some (r, buf'))
    (hhead : alloc.pool ∈ alloc.nodes) (hq : alloc.Item q) : buf'.bytes q = buf.bytes q := by
  obtain ⟨tmp, -, h⟩ := Option.bind_eq_some_iff.1 h
  split_ifs at h
  · cases h; rfl
  · obtain ⟨next, -, h⟩ := Option.bind_eq_some_iff.1 h
    obtain ⟨buf₁, hstore, h⟩ := Option.map_eq_some_iff.1 h
    cases h
    exact Buffer.store_bytes hstore (hq.apart hhead)

theorem return_bytes {b : ℤ} (h : schPoolReturn alloc buf b = some (r, buf'))
    (hhead : alloc.pool ∈ alloc.nodes) (hb : b - sizeofSchPoolNode ∈ alloc.nodes)
    (hq : alloc.Item q) : buf'.bytes q = buf.bytes q := by
  obtain ⟨next, -, h⟩ := Option.bind_eq_some_iff.1 h
  obtain ⟨buf₁, hstore₁, h⟩ := Option.bind_eq_some_iff.1 h
  obtain ⟨buf₂, hstore₂, h⟩ := Option.map_eq_some_iff.1 h
  cases h
  rw [Buffer.store_bytes hstore₂ (hq.apart hhead), Buffer.store_bytes hstore₁ (hq.apart hb)]

/-- The loop of `schInitPool` ends behind the last node, and writes links only. -/
theorem initLoop_bytes {itemsize : UInt32} {k : ℕ} {tmp tmp' : ℤ}
    (h : initLoop itemsize k tmp buf = some (tmp', buf'))
    (hq : ∀ j < k, q < tmp + stride itemsize * (j : ℤ) ∨
      tmp + stride itemsize * (j : ℤ) + Buffer.wordSize ≤ q) :
    tmp' = tmp + stride itemsize * (k : ℤ) ∧ buf'.bytes q = buf.bytes q := by
  induction k generalizing tmp buf with
  | zero => cases h; exact ⟨by simp, rfl⟩
  | succ k ih =>
    obtain ⟨buf₁, hstore, h⟩ := Option.bind_eq_some_iff.1 h
    have hstride : ((itemsize.toNat : ℤ) + sizeofSchPoolNode) = stride itemsize := by simp [stride]
    rw [hstride] at h
    have hshift : ∀ j : ℕ, tmp + stride itemsize + stride itemsize * (j : ℤ) =
        tmp + stride itemsize * ((j + 1 : ℕ) : ℤ) := by
      intro j
      push_cast
      ring
    obtain ⟨rfl, hbytes⟩ := ih h fun j hj => by
      rw [hshift]
      exact hq (j + 1) (by omega)
    refine ⟨hshift k, ?_⟩
    rw [hbytes, Buffer.store_bytes hstore (by simpa using hq 0 (by omega))]

/-- All items are zero after `schInitPool`. -/
theorem schInitPool_bytes {base : ℤ} {num itemsize : UInt32}
    (h : schInitPool base num itemsize = some (alloc, buf)) (hq : alloc.Item q) :
    buf.bytes q = 0 := by
  obtain ⟨⟨tmp, buf₁⟩, hloop, h⟩ := Option.bind_eq_some_iff.1 h
  obtain ⟨buf₂, hstore, h⟩ := Option.map_eq_some_iff.1 h
  cases h
  have hapart : ∀ j < num.toNat, q < base + stride itemsize * (j : ℤ) ∨
      base + stride itemsize * (j : ℤ) + Buffer.wordSize ≤ q :=
    fun j hj => hq.apart (mem_nodes.2 ⟨j, hj, rfl⟩)
  obtain ⟨rfl, hbytes⟩ := initLoop_bytes hloop hapart
  rcases hnum : num.toNat with _ | k
  · obtain ⟨node, hnode, -⟩ := hq
    simp [SchPool.nodes, hnum] at hnode
  · have hlast := hapart k (by omega)
    have htmp : base + stride itemsize * ((k + 1 : ℕ) : ℤ) -
        (itemsize.toNat + sizeofSchPoolNode) = base + stride itemsize * (k : ℤ) := by
      simp only [stride]
      push_cast
      ring
    rw [hnum, htmp] at hstore
    rw [Buffer.store_bytes hstore hlast, hbytes]
    rfl

end Items

/-! ## The simulation -/

/-- The pool is the stack: the chain has the nodes of the free blocks, in order,
    and the bytes of the items are the same. -/
structure Stacked (alloc : SchPool) (s : PoolState) (t : BlockStack) : Prop where
  inv : PoolInv alloc s (t.free.map fun b => b - sizeofSchPoolNode)
  itemsize : t.itemsize = alloc.itemsize.toNat
  held : s.held = t.held
  bytes : ∀ q, alloc.Item q → s.buf.bytes q = t.bytes q

section Simulation

variable {alloc : SchPool} {s : PoolState} {t : BlockStack}

/-- The byte of a held block is one of an item. -/
theorem Stacked.item (h : Stacked alloc s t) {p : ℤ} (hp : s.Owns p) : alloc.Item p := by
  obtain ⟨b, hb, hlo, hhi⟩ := hp
  refine ⟨_, h.inv.held_mem hb, by omega, ?_⟩
  rw [h.inv.alloc_eq] at hhi
  simp only [stride]
  push_cast
  omega

theorem Stacked.owns (h : Stacked alloc s t) (p : ℤ) :
    s.Owns p ↔ ∃ b ∈ t.held, b ≤ p ∧ p < b + t.itemsize := by
  rw [PoolState.Owns, h.inv.alloc_eq, h.held, h.itemsize]

/-- What `schPoolObtain` returns is the top of the stack. -/
theorem Stacked.obtained (h : Stacked alloc s t) :
    ∃ buf, schPoolObtain s.alloc s.buf = some (t.top, buf) := by
  have hinv := h.inv
  unfold BlockStack.top
  rcases hfree : t.free with _ | ⟨b, free⟩ <;> rw [hfree] at hinv
  · exact ⟨s.buf, obtain_nil hinv⟩
  · obtain ⟨buf, hobtain, -⟩ := obtain_cons hinv
    exact ⟨buf, by simpa using hobtain⟩

/-- **One step**: what happens to the pool happens to the stack. -/
theorem stacked_step (h : Stacked alloc s t) (a : PoolAct) :
    Option.Rel (Stacked alloc) (poolMachine.step s a) (stackMachine.step t a) := by
  have hhead : s.alloc.pool ∈ s.alloc.nodes := h.inv.alloc_eq ▸ h.inv.head_mem
  cases a with
  | poolObtain =>
    have hinv := h.inv
    simp only [stackMachine, BlockStack.step]
    rcases hfree : t.free with _ | ⟨b, free⟩ <;> rw [hfree] at hinv
    · rw [step_obtain_nil hinv]
      exact .some h
    · obtain ⟨buf, hobtain, hinv'⟩ := obtain_cons hinv
      have hpos := (hinv.addressed.node (hinv.free_mem List.mem_cons_self)).1
      rw [sub_add_cancel] at hobtain hinv'
      have hnull : b ≠ (0 : ℤ) := by
        rintro rfl
        simp [sizeofSchPoolNode] at hpos
      simp only [poolMachine, PoolState.step, hobtain, Option.map_some, if_neg hnull]
      refine .some ⟨?_, h.itemsize, congrArg _ h.held, ?_⟩
      · rw [h.inv.alloc_eq]; exact hinv'
      · intro q hq
        rw [← h.bytes q hq]
        rw [← h.inv.alloc_eq] at hq
        exact obtain_bytes hobtain hhead hq
  | poolReturn b =>
    simp only [poolMachine, PoolState.step, stackMachine, BlockStack.step, ← h.held]
    by_cases hb : b ∈ s.held
    · obtain ⟨buf, hreturn, hinv⟩ := return_spec h.inv hb
      rw [if_pos hb, if_pos hb, hreturn]
      refine .some ⟨?_, h.itemsize, rfl, ?_⟩
      · rw [h.inv.alloc_eq]; exact hinv
      · intro q hq
        rw [← h.bytes q hq]
        rw [← h.inv.alloc_eq] at hq
        exact return_bytes hreturn hhead (h.inv.alloc_eq ▸ h.inv.held_mem hb) hq
    · rw [if_neg hb, if_neg hb]
      exact .none
  | write p v =>
    simp only [poolMachine, PoolState.step, stackMachine, BlockStack.step, ← h.owns]
    by_cases hp : s.Owns p
    · obtain ⟨buf, hstore, hinv⟩ := write_spec h.inv hp v
      rw [if_pos hp, if_pos hp, hstore]
      refine .some ⟨?_, h.itemsize, h.held, ?_⟩
      · rw [h.inv.alloc_eq]; exact hinv
      · intro q hq
        simp only [Buffer.storeByte] at hstore
        split_ifs at hstore
        cases hstore
        by_cases hqp : q = p
        · subst hqp
          simp only [Function.update_self]
        · simp only [Function.update_of_ne hqp]
          exact h.bytes q hq
    · rw [if_neg hp, if_neg hp]
      exact .none

/-- The pool of `schInitPool` is the fresh stack. -/
theorem stacked_fresh {base : ℤ} {num itemsize : UInt32} (hnum : 1 ≤ num.toNat)
    (hitem : itemsize.toNat < 2 ^ 31 - 16) (hbase : 0 < base)
    (hfit : base + num.toNat * (itemsize.toNat + 16) ≤ 2 ^ 64) :
    ∃ s₀, freshPool base num itemsize = some s₀ ∧
      Stacked ⟨num, itemsize, base⟩ s₀ (.fresh base num itemsize) := by
  obtain ⟨s₀, free, hfresh, hheld, hinv⟩ := freshPool_spec hnum hitem hbase hfit
  obtain ⟨buf, hinit, -, hchain⟩ := schInitPool_spec hnum
    (calloc_fits base num (show itemsize.toNat < 2 ^ 32 - 16 by omega))
  obtain rfl : s₀ = ⟨⟨num, itemsize, base⟩, buf, []⟩ := by
    rw [freshPool, hinit] at hfresh
    exact (Option.some.inj hfresh).symm
  have hnodes : base :: free = SchPool.nodes ⟨num, itemsize, base⟩ :=
    hinv.chain.unique (hchain hbase hinv.addressed.top)
  refine ⟨_, hfresh, ?_, rfl, rfl, fun q hq => schInitPool_bytes hinit hq⟩
  have hfree : (BlockStack.fresh base num itemsize).free.map
      (fun b : ℤ => b - sizeofSchPoolNode) = free := by
    obtain ⟨k, hk⟩ : ∃ k, num.toNat = k + 1 := ⟨num.toNat - 1, by omega⟩
    simp only [SchPool.nodes, hk, List.range_succ_eq_map, List.map_cons, List.map_map] at hnodes
    rw [(List.cons.inj hnodes).2, BlockStack.fresh, hk, List.map_map]
    exact List.map_congr_left fun i _ => add_sub_cancel_right _ _
  rw [hfree]
  exact hinv

end Simulation

/-- **The pool allocator is a stack of blocks**: the same calls and writes are
    possible in a pool and in the stack, in any order; after them the same
    blocks are held, `schPoolObtain` returns the top of the stack, so the block
    that was returned last, and every byte of a held block is the one that was
    written last, or zero. -/
theorem pool_refines_stack (base : ℤ) (num itemsize : UInt32) (hnum : 1 ≤ num.toNat)
    (hitem : itemsize.toNat < 2 ^ 31 - 16) (hbase : 0 < base)
    (hfit : base + num.toNat * (itemsize.toNat + 16) ≤ 2 ^ 64) :
    ∃ s₀, freshPool base num itemsize = some s₀ ∧ ∀ acts,
      Option.Rel (fun s t => s.held = t.held ∧
          (∃ buf, schPoolObtain s.alloc s.buf = some (t.top, buf)) ∧
          ∀ b ∈ s.held, ∀ j < itemsize.toNat, s.buf.bytes (b + j) = t.bytes (b + j))
        (poolMachine.run s₀ acts) (stackMachine.run (.fresh base num itemsize) acts) := by
  obtain ⟨s₀, hfresh, hstacked⟩ := stacked_fresh hnum hitem hbase hfit
  refine ⟨s₀, hfresh, fun acts => ?_⟩
  have hruns := Machine.run_rel (fun s t a h => stacked_step h a) hstacked acts
  generalize poolMachine.run s₀ acts = s at hruns ⊢
  generalize stackMachine.run (.fresh base num itemsize) acts = t at hruns ⊢
  cases hruns with
  | none => exact .none
  | some h =>
    refine .some ⟨h.held, h.obtained, fun b hb j hj => h.bytes _ (h.item ⟨b, hb, by omega, ?_⟩)⟩
    rw [h.inv.alloc_eq]
    simp only
    omega

/-- A pool of three nodes: a byte that is written before the block is returned is
    still there when it is obtained again. -/
theorem pool_refines_stack_three : ∃ s₀ s, freshPool 4096 3 16 = some s₀ ∧
    poolMachine.run s₀ [.poolObtain, .poolObtain, .write 4130 7, .poolReturn 4128,
      .poolReturn 4152, .poolObtain, .poolObtain] = some s ∧
    s.held = [4128, 4152] ∧ s.buf.bytes 4130 = 7 ∧
    ∃ buf, schPoolObtain s.alloc s.buf = some (0, buf) := by
  obtain ⟨s₀, hfresh, hruns⟩ :=
    pool_refines_stack 4096 3 16 (by decide) (by decide) (by decide) (by decide)
  have hrel := hruns [.poolObtain, .poolObtain, .write 4130 7, .poolReturn 4128, .poolReturn 4152,
    .poolObtain, .poolObtain]
  have hstack : stackMachine.run (.fresh 4096 3 16) [.poolObtain, .poolObtain, .write 4130 7,
      .poolReturn 4128, .poolReturn 4152, .poolObtain, .poolObtain] =
      some ⟨16, [], [4128, 4152], Function.update (fun _ => 0) 4130 7⟩ := rfl
  rw [hstack] at hrel
  generalize hrun : poolMachine.run s₀ _ = s at hrel
  cases hrel with
  | some h =>
    obtain ⟨hheld, hobtain, hbytes⟩ := h
    refine ⟨s₀, _, hfresh, hrun, hheld, ?_, hobtain⟩
    exact (hbytes 4128 (by rw [hheld]; simp) 2 (by decide)).trans rfl

end TaskSch
