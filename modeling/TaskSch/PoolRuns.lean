/-
  Task scheduler formalization — runs of the pool allocator
  (src/poolAllocator.c).

  Blocks are obtained, returned by those who hold them, and written to inside of
  their `itemsize` bytes, in any order.

  * `PoolInv`: the chain from the head ends in the null pointer, and the head,
    the free nodes and the nodes of the held blocks are the nodes of the pool;
  * `obtain_spec`, `return_spec`, `write_spec`: one per operation;
  * `pool_partition`: the invariant holds after every run;
  * `obtain_null_iff`: a pool of `num` nodes serves `num - 1` blocks;
  * `index_iff`: index and block are inverse iff the links of all nodes together
    are smaller than an item.
-/
import TaskSch.Machine
import TaskSch.PoolAllocator

namespace TaskSch

/-- A pool, its buffer, and the blocks that are held. -/
structure PoolState where
  alloc : SchPool
  buf : Buffer
  held : List ℤ

namespace PoolState

/-- A held block of which `p` is a byte. -/
def Owns (s : PoolState) (p : ℤ) : Prop :=
  ∃ b ∈ s.held, b ≤ p ∧ p < b + s.alloc.itemsize.toNat

instance (s : PoolState) (p : ℤ) : Decidable (s.Owns p) :=
  inferInstanceAs (Decidable (∃ b ∈ s.held, _ ∧ _))

/-- The nodes of the held blocks. -/
def heldNodes (s : PoolState) : List ℤ := s.held.map fun b => b - sizeofSchPoolNode

end PoolState

inductive PoolAct where
  | poolObtain
  | poolReturn (b : ℤ)
  | write (p : ℤ) (v : UInt8)

/-- One call, or one byte written by the holder of a block.  Only held blocks
    are returned. -/
def PoolState.step (s : PoolState) : PoolAct → Option PoolState
  | .poolObtain => (schPoolObtain s.alloc s.buf).map fun r =>
    { s with buf := r.2, held := if r.1 = (0 : ℤ) then s.held else r.1 :: s.held }
  | .poolReturn b =>
    if b ∈ s.held then (schPoolReturn s.alloc s.buf b).map fun r =>
      { s with buf := r.2, held := s.held.erase b }
    else none
  | .write p v =>
    if s.Owns p then (s.buf.storeByte p v).map fun buf => { s with buf := buf } else none

def poolMachine : Machine PoolState PoolAct := ⟨PoolState.step⟩

/-- The pool of `schInitPool`, of which no block is held. -/
def freshPool (base : ℤ) (num itemsize : UInt32) : Option PoolState :=
  (schInitPool base num itemsize).map fun r => ⟨r.1, r.2, []⟩

/-- The nodes of the pool have addresses, and the null pointer is none of them. -/
structure Addressed (alloc : SchPool) : Prop where
  pos : 0 < alloc.pool
  top : alloc.pool + stride alloc.itemsize * alloc.num.toNat < 2 ^ 64

theorem Addressed.node {alloc : SchPool} {node : ℤ} (h : Addressed alloc)
    (hnode : node ∈ alloc.nodes) :
    0 < node ∧ node + stride alloc.itemsize < 2 ^ 64 := by
  obtain ⟨i, hi, rfl⟩ := mem_nodes.1 hnode
  have hend := node_before alloc.pool alloc.itemsize hi
  have hstart : (0 : ℤ) ≤ stride alloc.itemsize * (i : ℤ) := by positivity
  exact ⟨by linarith [h.pos], by linarith [h.top]⟩

/-- **The invariant of a pool**, for its free nodes. -/
structure PoolInv (alloc : SchPool) (s : PoolState) (free : List ℤ) : Prop where
  alloc_eq : s.alloc = alloc
  addressed : Addressed alloc
  fits : Fits alloc s.buf
  chain : Chain s.buf.load 0 alloc.pool (alloc.pool :: free)
  parts : (alloc.pool :: (free ++ s.heldNodes)).Perm alloc.nodes

namespace PoolInv

variable {alloc : SchPool} {s : PoolState} {free rest : List ℤ} {node b : ℤ}

theorem nodup (h : PoolInv alloc s free) : (alloc.pool :: (free ++ s.heldNodes)).Nodup :=
  h.parts.nodup_iff.2 (nodes_nodup alloc)

theorem head_mem (h : PoolInv alloc s free) : alloc.pool ∈ alloc.nodes :=
  h.parts.mem_iff.1 List.mem_cons_self

theorem free_mem (h : PoolInv alloc s free) (hn : node ∈ free) : node ∈ alloc.nodes :=
  h.parts.mem_iff.1 (List.mem_cons_of_mem _ (List.mem_append_left _ hn))

theorem free_ne_head (h : PoolInv alloc s free) (hn : node ∈ free) : node ≠ alloc.pool := by
  rintro rfl
  exact (List.nodup_cons.1 h.nodup).1 (List.mem_append_left _ hn)

theorem held_ne_head (h : PoolInv alloc s free) (hb : b ∈ s.held) :
    b - sizeofSchPoolNode ≠ alloc.pool := by
  intro he
  have hmem : alloc.pool ∈ s.heldNodes := he ▸ List.mem_map_of_mem hb
  exact (List.nodup_cons.1 h.nodup).1 (List.mem_append_right _ hmem)

theorem free_ne_held (h : PoolInv alloc s free) (hn : node ∈ free) (hb : b ∈ s.held) :
    node ≠ b - sizeofSchPoolNode := by
  rintro rfl
  have hdisjoint := List.disjoint_of_nodup_append (List.nodup_cons.1 h.nodup).2
  exact hdisjoint hn (List.mem_map_of_mem hb)

theorem held_mem (h : PoolInv alloc s free) (hb : b ∈ s.held) :
    b - sizeofSchPoolNode ∈ alloc.nodes :=
  h.parts.mem_iff.1
    (List.mem_cons_of_mem _ (List.mem_append_right _ (List.mem_map_of_mem hb)))

/-- The links of two nodes do not meet. -/
theorem links_apart {node' : ℤ} (hn : node ∈ alloc.nodes) (hn' : node' ∈ alloc.nodes)
    (hne : node ≠ node') :
    node + Buffer.wordSize ≤ node' ∨ node' + Buffer.wordSize ≤ node := by
  have hword : (Buffer.wordSize : ℤ) ≤ stride alloc.itemsize := by
    exact_mod_cast Nat.le_add_left _ _
  have := nodes_apart hn hn' hne
  omega

/-- A store to the link of a node keeps the links of all others. -/
theorem load_other {buf buf' : Buffer} {p v q : ℤ} (hstore : buf.store p v = some buf')
    (hp : p ∈ alloc.nodes) (hq : q ∈ alloc.nodes) (hne : q ≠ p) : buf'.load q = buf.load q :=
  Buffer.load_store_of_disjoint hstore (links_apart hq hp hne)

theorem link (h : PoolInv alloc s free) (hn : node ∈ alloc.nodes) :
    s.buf.Inside node Buffer.wordSize :=
  inside_link (h.fits.inside hn)

end PoolInv

/-- Stores keep the bounds of the buffer. -/
theorem Fits.store {alloc : SchPool} {buf buf' : Buffer} {p v : ℤ} (h : Fits alloc buf)
    (hstore : buf.store p v = some buf') : Fits alloc buf' := by
  obtain ⟨-, hbase, hsize⟩ := Buffer.store_inside hstore
  exact ⟨hbase.trans h.base, hsize ▸ h.size⟩

section Operations

variable {alloc : SchPool} {s : PoolState} {free rest : List ℤ} {node b : ℤ}

/-- Nothing is free: the null pointer is returned. -/
theorem obtain_nil (h : PoolInv alloc s []) : schPoolObtain s.alloc s.buf = some (0, s.buf) := by
  obtain ⟨-, -, next, hnext, hnil⟩ := h.chain
  cases hnil
  simp only [schPoolObtain, h.alloc_eq, hnext, Option.bind_some, if_true]

/-- **`schPoolObtain`** takes the first of the free nodes. -/
theorem obtain_cons (h : PoolInv alloc s (node :: rest)) :
    ∃ buf, schPoolObtain s.alloc s.buf = some (node + sizeofSchPoolNode, buf) ∧
      PoolInv alloc ⟨alloc, buf, (node + sizeofSchPoolNode) :: s.held⟩ rest := by
  obtain ⟨-, -, next, hfirst, hnode, hne, next', hnext, -⟩ := h.chain
  cases hnode
  obtain ⟨v, hv, hnonneg, htop⟩ := Buffer.load_of_inside (h.link (h.free_mem List.mem_cons_self))
  rw [hnext] at hv
  cases hv
  obtain ⟨buf, hstore⟩ := Buffer.store_of_inside (h.link h.head_mem) next'
  refine ⟨buf, ?_, rfl, h.addressed, h.fits.store hstore, ?_, ?_⟩
  · simp only [schPoolObtain, h.alloc_eq, hfirst, Option.bind_some, if_neg hne, hnext, hstore,
      Option.map_some]
  · refine h.chain.pop hnext (Buffer.load_store hstore hnonneg htop) ?_
    intro r hr
    refine PoolInv.load_other hstore h.head_mem (h.free_mem (List.mem_cons_of_mem _ hr)) ?_
    exact h.free_ne_head (List.mem_cons_of_mem _ hr)
  · refine List.Perm.trans ?_ h.parts
    simp only [PoolState.heldNodes, List.map_cons, add_sub_cancel_right]
    exact List.Perm.cons _ List.perm_middle

/-- **`schPoolReturn`** puts the node of a held block in front of the free nodes. -/
theorem return_spec (h : PoolInv alloc s free) (hb : b ∈ s.held) :
    ∃ buf, schPoolReturn s.alloc s.buf b = some (b - sizeofSchPoolNode, buf) ∧
      PoolInv alloc ⟨alloc, buf, s.held.erase b⟩ ((b - sizeofSchPoolNode) :: free) := by
  have hnode := h.held_mem hb
  have haddr := h.addressed.node hnode
  obtain ⟨first, hfirst, hnonneg, htop⟩ := Buffer.load_of_inside (h.link h.head_mem)
  obtain ⟨buf₁, hstore₁⟩ := Buffer.store_of_inside (h.link hnode) first
  have hfits₁ := h.fits.store hstore₁
  obtain ⟨buf₂, hstore₂⟩ := Buffer.store_of_inside (inside_link (hfits₁.inside h.head_mem))
    (b - sizeofSchPoolNode)
  refine ⟨buf₂, ?_, rfl, h.addressed, hfits₁.store hstore₂, ?_, ?_⟩
  · simp only [schPoolReturn, h.alloc_eq, hfirst, hstore₁, hstore₂, Option.bind_some,
      Option.map_some]
  · refine h.chain.push haddr.1.ne' hfirst ?_ (Buffer.load_store hstore₂ haddr.1.le ?_) ?_
    · rw [PoolInv.load_other hstore₂ h.head_mem hnode (h.held_ne_head hb)]
      exact Buffer.load_store hstore₁ hnonneg htop
    · omega
    · intro r hr
      rw [PoolInv.load_other hstore₂ h.head_mem (h.free_mem hr) (h.free_ne_head hr),
        PoolInv.load_other hstore₁ hnode (h.free_mem hr) (h.free_ne_held hr hb)]
  · refine List.Perm.trans (List.Perm.cons _ ?_) h.parts
    have hheld := (List.perm_cons_erase hb).map fun b => b - (sizeofSchPoolNode : ℤ)
    exact List.perm_middle.symm.trans (List.Perm.append_left _ hheld.symm)

/-- **A write** of the holder of a block changes no link. -/
theorem write_spec {p : ℤ} (h : PoolInv alloc s free) (hp : s.Owns p) (v : UInt8) :
    ∃ buf, s.buf.storeByte p v = some buf ∧ PoolInv alloc ⟨alloc, buf, s.held⟩ free := by
  obtain ⟨b, hb, hlo, hhi⟩ := hp
  rw [h.alloc_eq] at hhi
  have hnode := h.held_mem hb
  have hword : Buffer.wordSize = sizeofSchPoolNode := rfl
  have hstride : (stride alloc.itemsize : ℤ) = alloc.itemsize.toNat + sizeofSchPoolNode := by
    simp [stride]
  have hin : s.buf.Inside p 1 := by
    have hnodeIn := h.fits.inside hnode
    simp only [Buffer.Inside] at *
    omega
  obtain ⟨buf, hstore⟩ : ∃ buf, s.buf.storeByte p v = some buf := ⟨_, if_pos hin⟩
  obtain ⟨-, hbase, hsize⟩ := Buffer.storeByte_inside hstore
  have hfits : Fits alloc buf := ⟨hbase.trans h.fits.base, hsize ▸ h.fits.size⟩
  refine ⟨buf, hstore, rfl, h.addressed, hfits, ?_, h.parts⟩
  refine h.chain.congr ?_
  intro q hq
  have hfree : q ∈ alloc.nodes ∧ q ≠ b - sizeofSchPoolNode := by
    rcases List.mem_cons.1 hq with rfl | hq
    · exact ⟨h.head_mem, (h.held_ne_head hb).symm⟩
    · exact ⟨h.free_mem hq, h.free_ne_held hq hb⟩
  -- the byte lies behind the link of its node, and before the next node
  have hapart := nodes_apart hfree.1 hnode hfree.2
  exact Buffer.load_storeByte hstore (by omega)

end Operations

/-! ## Runs -/

variable {base : ℤ} {num itemsize : UInt32}

theorem freshPool_spec (hnum : 1 ≤ num.toNat) (hitem : itemsize.toNat < 2 ^ 31 - 16)
    (hbase : 0 < base) (hfit : base + num.toNat * (itemsize.toNat + 16) ≤ 2 ^ 64) :
    ∃ s₀ free, freshPool base num itemsize = some s₀ ∧ s₀.held = [] ∧
      PoolInv ⟨num, itemsize, base⟩ s₀ free := by
  have htop : base + stride itemsize * num.toNat < 2 ^ 64 := by
    simp only [stride, sizeofSchPoolNode]
    push_cast
    nlinarith
  obtain ⟨buf, hinit, hfits, hchain⟩ := schInitPool_spec hnum
    (calloc_fits base num (show itemsize.toNat < 2 ^ 32 - 16 by omega))
  obtain ⟨k, hk⟩ : ∃ k, num.toNat = k + 1 := ⟨num.toNat - 1, by omega⟩
  obtain ⟨free, hnodes⟩ : ∃ free, SchPool.nodes ⟨num, itemsize, base⟩ = base :: free := by
    simp only [SchPool.nodes, hk, List.range_succ_eq_map, List.map_cons, Nat.cast_zero, mul_zero,
      add_zero]
    exact ⟨_, rfl⟩
  refine ⟨⟨⟨num, itemsize, base⟩, buf, []⟩, free, by rw [freshPool, hinit]; rfl, rfl, rfl,
    ⟨hbase, htop⟩, hfits, hnodes ▸ hchain hbase htop, ?_⟩
  rw [PoolState.heldNodes, List.map_nil, List.append_nil, hnodes]

section Steps

variable {alloc : SchPool} {s : PoolState} {rest : List ℤ} {node : ℤ}

theorem step_obtain_nil (h : PoolInv alloc s []) : poolMachine.step s .poolObtain = some s := by
  simp only [poolMachine, PoolState.step, obtain_nil h, Option.map_some, if_true]

theorem step_obtain_cons (h : PoolInv alloc s (node :: rest)) :
    ∃ s', poolMachine.step s .poolObtain = some s' ∧
      s'.held = (node + sizeofSchPoolNode) :: s.held ∧ PoolInv alloc s' rest := by
  obtain ⟨buf, hobtain, hinv⟩ := obtain_cons h
  have hnull : node + sizeofSchPoolNode ≠ (0 : ℤ) := by
    have := (h.addressed.node (h.free_mem List.mem_cons_self)).1
    positivity
  refine ⟨⟨s.alloc, buf, (node + sizeofSchPoolNode) :: s.held⟩, ?_, rfl, ?_⟩
  · simp only [poolMachine, PoolState.step, hobtain, Option.map_some, if_neg hnull]
  · rw [h.alloc_eq]
    exact hinv

end Steps

/-- Every step keeps the invariant. -/
theorem PoolInv.step {alloc : SchPool} {s s' : PoolState} {a : PoolAct} {free : List ℤ}
    (h : PoolInv alloc s free) (hs : poolMachine.step s a = some s') :
    ∃ free', PoolInv alloc s' free' := by
  cases a with
  | poolObtain =>
    cases free with
    | nil =>
      rw [step_obtain_nil h] at hs
      cases hs
      exact ⟨[], h⟩
    | cons node rest =>
      obtain ⟨s₁, hstep, -, hinv⟩ := step_obtain_cons h
      rw [hstep] at hs
      cases hs
      exact ⟨rest, hinv⟩
  | poolReturn b =>
    simp only [poolMachine, PoolState.step] at hs
    split_ifs at hs with hb
    obtain ⟨buf, hreturn, hinv⟩ := return_spec h hb
    rw [hreturn] at hs
    cases hs
    rw [h.alloc_eq]
    exact ⟨_, hinv⟩
  | write p v =>
    simp only [poolMachine, PoolState.step] at hs
    split_ifs at hs with hp
    obtain ⟨buf, hstore, hinv⟩ := write_spec h hp v
    rw [hstore] at hs
    cases hs
    rw [h.alloc_eq]
    exact ⟨free, hinv⟩

/-- The invariant holds after every run. -/
theorem PoolInv.run {alloc : SchPool} {s s' : PoolState} {acts : List PoolAct} {free : List ℤ}
    (h : PoolInv alloc s free) (hr : poolMachine.run s acts = some s') :
    ∃ free', PoolInv alloc s' free' := by
  refine Machine.run_inv (P := fun s => ∃ free, PoolInv alloc s free) ?_ hr ⟨free, h⟩
  rintro s a s' ⟨free, h⟩ hs
  exact h.step hs

/-- What the calls return in a state with the free nodes `free`. -/
structure Serves (s : PoolState) (free : List ℤ) : Prop where
  obtained : ∃ b buf, schPoolObtain s.alloc s.buf = some (b, buf) ∧ (b = 0 ↔ free = []) ∧
    (b ≠ 0 → b - sizeofSchPoolNode ∈ free ∧ b ∉ s.held)
  returned : ∀ b ∈ s.held, ∃ tmp buf buf', schPoolReturn s.alloc s.buf b = some (tmp, buf) ∧
    schPoolObtain s.alloc buf = some (b, buf')
  written : ∀ p, s.Owns p → ∀ v, (s.buf.storeByte p v).isSome

section Serves

variable {alloc : SchPool} {s : PoolState} {free : List ℤ}

/-- **What `schPoolObtain` returns**, by the free nodes. -/
theorem obtain_spec (h : PoolInv alloc s free) :
    ∃ b buf, schPoolObtain s.alloc s.buf = some (b, buf) ∧ (b = 0 ↔ free = []) ∧
      (b ≠ 0 → b - sizeofSchPoolNode ∈ free ∧ b ∉ s.held) := by
  cases free with
  | nil => exact ⟨0, s.buf, obtain_nil h, by simp, fun hne => absurd rfl hne⟩
  | cons node rest =>
    obtain ⟨buf, hobtain, -⟩ := obtain_cons h
    have hpos := (h.addressed.node (h.free_mem List.mem_cons_self)).1
    refine ⟨_, buf, hobtain, ?_, ?_⟩
    · simp only [reduceCtorEq, iff_false]
      positivity
    · intro _
      rw [add_sub_cancel_right]
      refine ⟨List.mem_cons_self, ?_⟩
      intro hheld
      exact h.free_ne_held List.mem_cons_self hheld (add_sub_cancel_right _ _).symm

theorem PoolInv.serves (h : PoolInv alloc s free) : Serves s free := by
  refine ⟨obtain_spec h, ?_, ?_⟩
  · intro b hb
    obtain ⟨buf, hreturn, hinv⟩ := return_spec h hb
    obtain ⟨buf', hobtain, -⟩ := obtain_cons hinv
    refine ⟨_, buf, buf', hreturn, ?_⟩
    rw [h.alloc_eq]
    simpa using hobtain
  · intro p hp v
    obtain ⟨buf, hstore, -⟩ := write_spec h hp v
    rw [hstore]
    rfl

/-- The head is neither free nor held. -/
theorem PoolInv.count (h : PoolInv alloc s free) :
    free.length + s.held.length + 1 = alloc.num.toNat := by
  have hlen := h.parts.length_eq
  simpa [PoolState.heldNodes, SchPool.nodes] using hlen

/-- Blocks are obtained until no node is free. -/
theorem PoolInv.obtain_all (h : PoolInv alloc s free) (k : ℕ) :
    ∃ s', poolMachine.run s (List.replicate k .poolObtain) = some s' ∧
      s'.held.length = s.held.length + min k free.length := by
  induction k generalizing s free with
  | zero => exact ⟨s, rfl, by simp⟩
  | succ k ih =>
    cases free with
    | nil =>
      obtain ⟨s', hrun, hlen⟩ := ih h
      exact ⟨s', Machine.run_cons.2 ⟨s, step_obtain_nil h, hrun⟩, by simpa using hlen⟩
    | cons node rest =>
      obtain ⟨s₁, hstep, hheld, hinv⟩ := step_obtain_cons h
      obtain ⟨s', hrun, hlen⟩ := ih hinv
      refine ⟨s', Machine.run_cons.2 ⟨s₁, hstep, hrun⟩, ?_⟩
      rw [hheld] at hlen
      simp only [List.length_cons] at hlen ⊢
      omega

end Serves

/-- **No block is handed out twice**: after every run of a pool, the chain from
    the head ends in the null pointer; the head, the free nodes and the nodes of
    the held blocks are distinct and are the nodes of the pool; the null pointer
    is returned iff no node is free, else a block that nobody holds; and a block
    that is returned is the next one obtained. -/
theorem pool_partition (base : ℤ) (num itemsize : UInt32) (hnum : 1 ≤ num.toNat)
    (hitem : itemsize.toNat < 2 ^ 31 - 16) (hbase : 0 < base)
    (hfit : base + num.toNat * (itemsize.toNat + 16) ≤ 2 ^ 64) :
    ∃ s₀, freshPool base num itemsize = some s₀ ∧ ∀ acts s, poolMachine.run s₀ acts = some s →
      ∃ free, Chain s.buf.load 0 base (base :: free) ∧
        (base :: (free ++ s.heldNodes)).Nodup ∧
        (base :: (free ++ s.heldNodes)).Perm (SchPool.nodes ⟨num, itemsize, base⟩) ∧
        Serves s free := by
  obtain ⟨s₀, free₀, hfresh, -, hinv₀⟩ := freshPool_spec hnum hitem hbase hfit
  refine ⟨s₀, hfresh, ?_⟩
  intro acts s hrun
  obtain ⟨free, hinv⟩ := hinv₀.run hrun
  exact ⟨free, hinv.chain, hinv.nodup, hinv.parts, hinv.serves⟩

/-- A pool of three nodes, of which one block is obtained, written to and
    returned. -/
theorem pool_partition_three : ∃ s₀ s free, freshPool 4096 3 16 = some s₀ ∧
    poolMachine.run s₀ [.poolObtain, .write 4128 255, .poolReturn 4128] = some s ∧
    Chain s.buf.load 0 4096 (4096 :: free) := by
  obtain ⟨s₀, hfresh, hruns⟩ :=
    pool_partition 4096 3 16 (by decide) (by decide) (by decide) (by decide)
  have hdefined : ((freshPool 4096 3 16).bind fun s₀ => poolMachine.run s₀
      [.poolObtain, .write 4128 255, .poolReturn 4128]).isSome := by decide +kernel
  rw [hfresh, Option.bind_some] at hdefined
  obtain ⟨s, hrun⟩ := Option.isSome_iff_exists.1 hdefined
  obtain ⟨free, hchain, -⟩ := hruns _ s hrun
  exact ⟨s₀, s, free, hfresh, hrun, hchain⟩

/-- **When a pool serves as many blocks as it has nodes**: the null pointer is
    returned exactly at `num` held blocks, as long as fewer than `num - 1` are
    held; the last node cannot be obtained. -/
theorem obtain_null_iff (base : ℤ) (num itemsize : UInt32) (hnum : 1 ≤ num.toNat)
    (hitem : itemsize.toNat < 2 ^ 31 - 16) (hbase : 0 < base)
    (hfit : base + num.toNat * (itemsize.toNat + 16) ≤ 2 ^ 64) :
    ∃ s₀, freshPool base num itemsize = some s₀ ∧
      (∀ acts s, poolMachine.run s₀ acts = some s →
        ∃ b buf, schPoolObtain s.alloc s.buf = some (b, buf) ∧
          ((b = 0 ↔ s.held.length = (schPoolNumNodes s.alloc).toNat) ↔
            s.held.length + 1 < num.toNat)) ∧
      ∃ s, poolMachine.run s₀ (List.replicate num.toNat .poolObtain) = some s ∧
        s.held.length + 1 = num.toNat := by
  obtain ⟨s₀, free₀, hfresh, hheld₀, hinv₀⟩ := freshPool_spec hnum hitem hbase hfit
  refine ⟨s₀, hfresh, ?_, ?_⟩
  · intro acts s hrun
    obtain ⟨free, hinv⟩ := hinv₀.run hrun
    obtain ⟨b, buf, hobtain, hnull, -⟩ := obtain_spec hinv
    refine ⟨b, buf, hobtain, ?_⟩
    have hcount := hinv.count
    rw [hnull, ← List.length_eq_zero_iff, schPoolNumNodes, hinv.alloc_eq]
    simp only at hcount ⊢
    omega
  · obtain ⟨s, hrun, hlen⟩ := hinv₀.obtain_all num.toNat
    have hcount := hinv₀.count
    rw [hheld₀] at hcount hlen
    simp only [List.length_nil] at hcount hlen
    exact ⟨s, hrun, by omega⟩

/-- In a pool of three nodes, of which one is held. -/
theorem obtain_null_iff_three : ∃ s₀ s b buf, freshPool 4096 3 16 = some s₀ ∧
    poolMachine.run s₀ [.poolObtain] = some s ∧ s.held.length = 1 ∧
    schPoolObtain s.alloc s.buf = some (b, buf) ∧
    (b = 0 ↔ s.held.length = (schPoolNumNodes s.alloc).toNat) := by
  obtain ⟨s₀, hfresh, hruns, -⟩ :=
    obtain_null_iff 4096 3 16 (by decide) (by decide) (by decide) (by decide)
  have hheld : ((freshPool 4096 3 16).bind fun s₀ =>
      (poolMachine.run s₀ [.poolObtain]).map fun s => s.held.length) = some 1 := by decide +kernel
  rw [hfresh, Option.bind_some] at hheld
  obtain ⟨s, hrun, hlen⟩ := Option.map_eq_some_iff.1 hheld
  obtain ⟨b, buf, hobtain, hiff⟩ := hruns [.poolObtain] s hrun
  exact ⟨s₀, s, b, buf, hfresh, hrun, hlen, hobtain, hiff.2 (by rw [hlen]; decide)⟩

/-- In a pool of one node, nothing is held and nothing can be obtained. -/
theorem one_node_serves_none :
    ¬ ∀ (base : ℤ) (num itemsize : UInt32), 1 ≤ num.toNat → itemsize.toNat < 2 ^ 31 - 16 →
      0 < base → base + num.toNat * (itemsize.toNat + 16) ≤ 2 ^ 64 →
      ∀ s₀ acts s b buf, freshPool base num itemsize = some s₀ →
        poolMachine.run s₀ acts = some s → schPoolObtain s.alloc s.buf = some (b, buf) →
        (b = 0 ↔ s.held.length = (schPoolNumNodes s.alloc).toNat) := by
  intro h
  obtain ⟨s₀, free, hfresh, hheld, hinv⟩ :=
    @freshPool_spec 4096 1 8 (by decide) (by decide) (by decide) (by decide)
  obtain ⟨b, buf, hobtain, hnull, -⟩ := obtain_spec hinv
  have hiff := h 4096 1 8 (by decide) (by decide) (by decide) (by decide) s₀ [] s₀ b buf hfresh rfl
    hobtain
  have hcount := hinv.count
  rw [hheld] at hcount
  have hfree : free = [] := by simpa using hcount
  have hone := hiff.1 (hnull.2 hfree)
  rw [hheld, hinv.alloc_eq] at hone
  exact absurd hone (by decide)

/-! ## Index and block -/

section Index

variable {alloc : SchPool} {i : ℕ}

/-- The offset of a block fits a `size_t`. -/
theorem offset_lt (h : Addressed alloc) (hi : i < alloc.num.toNat) :
    stride alloc.itemsize * i + sizeofSchPoolNode < 2 ^ 64 := by
  have hnode := (h.node (mem_nodes.2 ⟨i, hi, rfl⟩)).2
  have hpos := h.pos
  simp only [stride, sizeofSchPoolNode] at *
  push_cast at hnode
  zify
  linarith

theorem sntPoolItemByIndex_eq (h : Addressed alloc) (hi : i < alloc.num.toNat) :
    sntPoolItemByIndex alloc (UInt32.ofNat i) =
      alloc.pool + stride alloc.itemsize * (i : ℤ) + sizeofSchPoolNode := by
  have hlt : i < 2 ^ 32 := hi.trans alloc.num.toNat_lt
  have hidx : (UInt32.ofNat i).toNat = i := by
    rw [UInt32.toNat_ofNat', Nat.mod_eq_of_lt hlt]
  rw [sntPoolItemByIndex, hidx, Nat.mod_eq_of_lt (offset_lt h hi)]
  push_cast
  ring

/-- The index of a block: too great by the part that its links have of an item. -/
theorem schPoolGetIndex_eq (h : Addressed alloc) (hitem : 1 ≤ alloc.itemsize.toNat)
    (hi : i < alloc.num.toNat) :
    schPoolGetIndex alloc (alloc.pool + stride alloc.itemsize * (i : ℤ) + sizeofSchPoolNode) =
      some (Int32.ofNat (i + 8 * (i + 1) / alloc.itemsize.toNat)) := by
  have hoffset : ((alloc.pool + stride alloc.itemsize * (i : ℤ) + sizeofSchPoolNode - alloc.pool) %
      2 ^ 64).toNat = alloc.itemsize.toNat * i + 8 * (i + 1) := by
    have hlt := offset_lt h hi
    have hcast : alloc.pool + stride alloc.itemsize * (i : ℤ) + sizeofSchPoolNode - alloc.pool =
        ((stride alloc.itemsize * i + sizeofSchPoolNode : ℕ) : ℤ) := by
      push_cast
      ring
    rw [hcast, Int.emod_eq_of_lt (by positivity) (by exact_mod_cast hlt), Int.toNat_natCast]
    simp only [stride, sizeofSchPoolNode]
    ring
  simp only [schPoolGetIndex, hoffset, UInt32.toInt32_ofNat']
  rw [if_neg (by omega), Nat.mul_add_div (by omega)]

/-- The index of a block is right iff its links are smaller than an item. -/
theorem index_right_iff {itemsize : ℕ} (hi : i < 2 ^ 32) (hitem : 8 < itemsize)
    (htop : itemsize < 2 ^ 32) :
    (Int32.ofNat (i + 8 * (i + 1) / itemsize)).toInt = i ↔ 8 * (i + 1) < itemsize := by
  constructor
  · intro heq
    have hlt := (Int32.ofNat (i + 8 * (i + 1) / itemsize)).toInt_lt
    have hquot : 8 * (i + 1) / itemsize ≤ i := by
      refine Nat.lt_succ_iff.1 ((Nat.div_lt_iff_lt_mul (by omega)).2 ?_)
      nlinarith
    have hzero : 8 * (i + 1) / itemsize = 0 := by
      rw [heq] at hlt
      rw [Int32.toInt_ofNat', Int.bmod_def, Int32.size] at heq
      generalize 8 * (i + 1) / itemsize = quot at *
      split_ifs at heq <;> omega
    rcases Nat.div_eq_zero_iff.1 hzero with hz | hz <;> omega
  · intro hlt
    rw [Nat.div_eq_of_lt hlt, Nat.add_zero]
    exact Int32.toInt_ofNat_of_lt (by omega)

/-- If all indices are right, items are large: the first block says that an item
    has more than eight bytes, and the last one the rest. -/
theorem items_large {num itemsize : ℕ} (hnum : 1 ≤ num) (hnumlt : num < 2 ^ 32)
    (hone : 1 ≤ itemsize) (htop : itemsize < 2 ^ 32)
    (hright : ∀ i < num, (Int32.ofNat (i + 8 * (i + 1) / itemsize)).toInt = i) :
    8 * num < itemsize := by
  have hfirst : 8 < itemsize := by
    by_contra hle
    have h0 := hright 0 (by omega)
    have hpos : 0 < 8 / itemsize := Nat.div_pos (by omega) (by omega)
    have hle8 : 8 / itemsize ≤ 8 := Nat.div_le_self _ _
    simp only [Nat.zero_add, Nat.mul_one] at h0
    rw [Int32.toInt_ofNat_of_lt (by omega)] at h0
    omega
  have hlast := (index_right_iff (by omega) hfirst htop).1 (hright (num - 1) (by omega))
  omega

/-- Index and block are inverse, for the pool `s₀`: each index is that of its
    block, and each block that can be obtained is that of its index. -/
def IndexInverse (s₀ : PoolState) : Prop :=
  (∀ i < s₀.alloc.num.toNat, ∃ index, schPoolGetIndex s₀.alloc
    (sntPoolItemByIndex s₀.alloc (UInt32.ofNat i)) = some index ∧ index.toInt = i) ∧
  ∀ acts s b buf, poolMachine.run s₀ acts = some s →
    schPoolObtain s.alloc s.buf = some (b, buf) → b ≠ 0 →
    ∃ index, schPoolGetIndex s.alloc b = some index ∧ index.toInt < s.alloc.num.toNat ∧
      sntPoolItemByIndex s.alloc index.toUInt32 = b

/-- **When index and block are inverse**: exactly if the links of all nodes
    together are smaller than an item.  The index is computed from the size of an
    item, the block from the distance of two nodes. -/
theorem index_iff (base : ℤ) (num itemsize : UInt32) (hnum : 1 ≤ num.toNat)
    (hone : 1 ≤ itemsize.toNat) (hitem : itemsize.toNat < 2 ^ 31 - 16) (hbase : 0 < base)
    (hfit : base + num.toNat * (itemsize.toNat + 16) ≤ 2 ^ 64) :
    ∃ s₀, freshPool base num itemsize = some s₀ ∧
      (IndexInverse s₀ ↔ 8 * num.toNat < itemsize.toNat) := by
  obtain ⟨s₀, free₀, hfresh, -, hinv₀⟩ := freshPool_spec hnum hitem hbase hfit
  have haddr := hinv₀.addressed
  have hnumlt : num.toNat < 2 ^ 32 := num.toNat_lt
  refine ⟨s₀, hfresh, ?_⟩
  rw [IndexInverse, hinv₀.alloc_eq]
  constructor
  · rintro ⟨hindex, -⟩
    have hright : ∀ i < num.toNat,
        (Int32.ofNat (i + 8 * (i + 1) / itemsize.toNat)).toInt = i := by
      intro i hi
      obtain ⟨index, hget, heq⟩ := hindex i hi
      rw [sntPoolItemByIndex_eq haddr hi, schPoolGetIndex_eq haddr hone hi] at hget
      cases hget
      exact heq
    exact items_large hnum hnumlt hone (by omega) hright
  · intro hlt
    have hget : ∀ i < num.toNat, schPoolGetIndex ⟨num, itemsize, base⟩
        (base + stride itemsize * (i : ℤ) + sizeofSchPoolNode) = some (Int32.ofNat i) := by
      intro i hi
      rw [schPoolGetIndex_eq haddr hone hi, Nat.div_eq_of_lt (by simp only; omega), Nat.add_zero]
    have hint : ∀ i < num.toNat, (Int32.ofNat i).toInt = i :=
      fun i hi => Int32.toInt_ofNat_of_lt (by omega)
    constructor
    · intro i hi
      refine ⟨Int32.ofNat i, ?_, hint i hi⟩
      rw [sntPoolItemByIndex_eq haddr hi]
      exact hget i hi
    · intro acts s b buf hrun hobtain hne
      obtain ⟨free, hinv⟩ := hinv₀.run hrun
      obtain ⟨b', buf', hobtain', -, hfree⟩ := obtain_spec hinv
      rw [hobtain] at hobtain'
      cases hobtain'
      obtain ⟨i, hi, hnode⟩ := mem_nodes.1 (hinv.free_mem (hfree hne).1)
      have hb : b = base + stride itemsize * (i : ℤ) + sizeofSchPoolNode := by
        rw [← hnode, sub_add_cancel]
      rw [hinv.alloc_eq, hb]
      refine ⟨Int32.ofNat i, hget i hi, by rw [hint i hi]; exact_mod_cast hi, ?_⟩
      exact sntPoolItemByIndex_eq haddr hi

/-- A block of 32 bytes is found by its index, in a pool of three nodes. -/
theorem index_iff_three : ∃ s₀, freshPool 4096 3 32 = some s₀ ∧
    ∃ index, schPoolGetIndex s₀.alloc (sntPoolItemByIndex s₀.alloc (UInt32.ofNat 2)) = some index ∧
      index.toInt = 2 := by
  obtain ⟨s₀, hfresh, hiff⟩ := index_iff 4096 3 32 (by decide) (by decide) (by decide) (by decide)
    (by decide)
  have halloc : ((freshPool 4096 3 32).map fun s => s.alloc.num) = some 3 := by decide +kernel
  rw [hfresh] at halloc
  have hnum : s₀.alloc.num = 3 := by simpa using halloc
  exact ⟨s₀, hfresh, (hiff.2 (by decide)).1 2 (by rw [hnum]; decide)⟩

/-- A block of four bytes has the wrong index. -/
theorem index_of_small_item :
    ¬ ∀ (base : ℤ) (num itemsize : UInt32), 1 ≤ num.toNat → 1 ≤ itemsize.toNat →
      itemsize.toNat < 2 ^ 31 - 16 → 0 < base →
      base + num.toNat * (itemsize.toNat + 16) ≤ 2 ^ 64 →
      ∀ s₀, freshPool base num itemsize = some s₀ → IndexInverse s₀ := by
  intro h
  obtain ⟨s₀, free, hfresh, -, hinv⟩ :=
    @freshPool_spec 4096 1 4 (by decide) (by decide) (by decide) (by decide)
  have hinverse := h 4096 1 4 (by decide) (by decide) (by decide) (by decide) (by decide) s₀ hfresh
  rw [IndexInverse, hinv.alloc_eq] at hinverse
  obtain ⟨index, hget, hzero⟩ := hinverse.1 0 (by decide)
  have htwo : schPoolGetIndex ⟨1, 4, 4096⟩ (sntPoolItemByIndex ⟨1, 4, 4096⟩ (UInt32.ofNat 0)) =
      some 2 := by decide +kernel
  rw [htwo] at hget
  cases hget
  exact absurd hzero (by decide)

end Index

end TaskSch
