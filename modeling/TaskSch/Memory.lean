/-
  Memory: bytes, words, a buffer with bounds, and chains of links.

  Memory gives a byte to each address.  A buffer is the part of it that an
  allocation returned; a load or a store that is not inside of it is undefined
  behaviour (`none`).  A chain is the list of the addresses that one meets when
  one follows the links from an address up to the null pointer.

  * `readLE_writeLE`, `readLE_writeLE_of_disjoint`: a word reads as it was
    written, and other words keep their value;
  * `Buffer.load_store`, `Buffer.load_store_of_disjoint`,
    `Buffer.load_storeByte`: the same for the accesses of a buffer;
  * `Chain.of_links`, `Chain.congr`, `Chain.pop`, `Chain.push`: where a chain
    comes from, and what stores to its links do to it.
-/
import Mathlib.Tactic

namespace TaskSch

universe u

/-! ## Words, low byte first -/

/-- The word of `w` bytes at `p`. -/
def readLE (m : ℤ → UInt8) (p : ℤ) : ℕ → ℕ
  | 0 => 0
  | w + 1 => (m p).toNat + 256 * readLE m (p + 1) w

/-- Memory after the `w` low bytes of `v` are written at `p`. -/
def writeLE (m : ℤ → UInt8) (p : ℤ) (v : ℕ) : ℕ → ℤ → UInt8
  | 0 => m
  | w + 1 => Function.update (writeLE m (p + 1) (v / 256) w) p (UInt8.ofNat v)

section Words

variable {m m' : ℤ → UInt8} {p q : ℤ} {v w n : ℕ}

theorem writeLE_of_not_mem (h : q < p ∨ p + w ≤ q) : writeLE m p v w q = m q := by
  induction w generalizing p v with
  | zero => rfl
  | succ w ih =>
    rw [writeLE, Function.update_of_ne (by omega)]
    exact ih (by omega)

theorem readLE_congr (h : ∀ q, p ≤ q → q < p + w → m q = m' q) : readLE m p w = readLE m' p w := by
  induction w generalizing p with
  | zero => rfl
  | succ w ih =>
    rw [readLE, readLE, h p le_rfl (by omega), ih fun q h1 h2 => h q (by omega) (by omega)]

theorem readLE_lt (m : ℤ → UInt8) (p : ℤ) (w : ℕ) : readLE m p w < 256 ^ w := by
  induction w generalizing p with
  | zero => exact Nat.one_pos
  | succ w ih =>
    have hbyte : (m p).toNat < 256 := (m p).toNat_lt
    have hrest := ih (p + 1)
    rw [readLE, pow_succ]
    omega

/-- A word reads as it was written. -/
theorem readLE_writeLE (hv : v < 256 ^ w) : readLE (writeLE m p v w) p w = v := by
  induction w generalizing p v with
  | zero => rw [pow_zero, Nat.lt_one_iff] at hv; rw [hv]; rfl
  | succ w ih =>
    have hsame : readLE (writeLE m p v (w + 1)) (p + 1) w =
        readLE (writeLE m (p + 1) (v / 256) w) (p + 1) w :=
      readLE_congr fun q h1 h2 => Function.update_of_ne (by omega) _ _
    have hrest := ih (p := p + 1) (Nat.div_lt_of_lt_mul (by rwa [pow_succ'] at hv))
    rw [readLE, hsame, hrest, writeLE, Function.update_self, UInt8.toNat_ofNat']
    omega

/-- Words that do not meet the one that is written keep their value. -/
theorem readLE_writeLE_of_disjoint (h : q + n ≤ p ∨ p + w ≤ q) :
    readLE (writeLE m p v w) q n = readLE m q n :=
  readLE_congr fun _ h1 h2 => writeLE_of_not_mem (by omega)

end Words

/-! ## Buffers -/

/-- The memory from `base` on, of `size` bytes. -/
structure Buffer where
  base : ℤ
  size : ℕ
  bytes : ℤ → UInt8

namespace Buffer

/-- The `len` bytes from `p` on lie inside of the buffer. -/
def Inside (b : Buffer) (p : ℤ) (len : ℕ) : Prop := b.base ≤ p ∧ p + len ≤ b.base + b.size

instance (b : Buffer) (p : ℤ) (len : ℕ) : Decidable (b.Inside p len) :=
  inferInstanceAs (Decidable (_ ∧ _))

/-- The size of a pointer. -/
def wordSize : ℕ := 8

/-- The pointer at `p`. -/
def load (b : Buffer) (p : ℤ) : Option ℤ :=
  if b.Inside p wordSize then some (readLE b.bytes p wordSize) else none

/-- The pointer `v` is written at `p`. -/
def store (b : Buffer) (p v : ℤ) : Option Buffer :=
  if b.Inside p wordSize then
    some { b with bytes := writeLE b.bytes p (v % 2 ^ 64).toNat wordSize }
  else none

/-- The byte `v` is written at `p`. -/
def storeByte (b : Buffer) (p : ℤ) (v : UInt8) : Option Buffer :=
  if b.Inside p 1 then some { b with bytes := Function.update b.bytes p v } else none

variable {b b' : Buffer} {p q v : ℤ} {x : UInt8}

theorem load_of_inside (h : b.Inside p wordSize) :
    ∃ v, b.load p = some v ∧ 0 ≤ v ∧ v < 2 ^ 64 := by
  refine ⟨_, if_pos h, Int.natCast_nonneg _, ?_⟩
  have hlt := readLE_lt b.bytes p wordSize
  simp only [wordSize] at hlt ⊢
  omega

theorem store_of_inside (h : b.Inside p wordSize) (v : ℤ) : ∃ b', b.store p v = some b' :=
  ⟨_, if_pos h⟩

/-- A store is inside, and leaves the bounds alone. -/
theorem store_inside (h : b.store p v = some b') :
    b.Inside p wordSize ∧ b'.base = b.base ∧ b'.size = b.size := by
  simp only [store] at h
  split_ifs at h with hin
  cases h
  exact ⟨hin, rfl, rfl⟩

theorem storeByte_inside (h : b.storeByte p x = some b') :
    b.Inside p 1 ∧ b'.base = b.base ∧ b'.size = b.size := by
  simp only [storeByte] at h
  split_ifs at h with hin
  cases h
  exact ⟨hin, rfl, rfl⟩

/-- A pointer reads as it was stored. -/
theorem load_store (h : b.store p v = some b') (h0 : 0 ≤ v) (hv : v < 2 ^ 64) :
    b'.load p = some v := by
  simp only [store] at h
  split_ifs at h with hin
  cases h
  rw [load, if_pos (by exact hin)]
  have hnat : (v % 2 ^ 64).toNat < 256 ^ wordSize := by
    simp only [wordSize]
    omega
  rw [readLE_writeLE hnat, Int.emod_eq_of_lt h0 hv, Int.toNat_of_nonneg h0]

/-- Pointers that do not meet the one that is stored keep their value. -/
theorem load_store_of_disjoint (h : b.store p v = some b')
    (hd : q + wordSize ≤ p ∨ p + wordSize ≤ q) : b'.load q = b.load q := by
  simp only [store] at h
  split_ifs at h
  cases h
  have hread := readLE_writeLE_of_disjoint (m := b.bytes) (v := (v % 2 ^ 64).toNat) hd
  simp only [load, hread]
  rfl

/-- Pointers that do not hold the byte that is stored keep their value. -/
theorem load_storeByte (h : b.storeByte p x = some b') (hd : q + wordSize ≤ p ∨ p < q) :
    b'.load q = b.load q := by
  simp only [storeByte] at h
  split_ifs at h
  cases h
  have hread : readLE (Function.update b.bytes p x) q wordSize = readLE b.bytes q wordSize :=
    readLE_congr fun r h1 h2 => Function.update_of_ne (by omega) _ _
  simp only [load, hread]
  rfl

end Buffer

/-! ## Chains of links -/

section Chains

variable {α : Type u}

/-- `ps` are the addresses from `p` on, up to the null pointer. -/
def Chain (load : α → Option α) (null : α) : α → List α → Prop
  | p, [] => p = null
  | p, q :: ps => p = q ∧ p ≠ null ∧ ∃ next, load p = some next ∧ Chain load null next ps

variable {load load' : α → Option α} {null p q next : α} {ps : List α}

/-- A chain is not changed by stores elsewhere. -/
theorem Chain.congr (h : Chain load null p ps) (hsame : ∀ q ∈ ps, load' q = load q) :
    Chain load' null p ps := by
  induction ps generalizing p with
  | nil => exact h
  | cons q ps ih =>
    obtain ⟨rfl, hnull, next, hnext, hrest⟩ := h
    refine ⟨rfl, hnull, next, ?_, ih hrest fun q hq => hsame q (List.mem_cons_of_mem _ hq)⟩
    rw [hsame p List.mem_cons_self, hnext]

/-- There is one chain from an address. -/
theorem Chain.unique {ps' : List α} (h : Chain load null p ps) (h' : Chain load null p ps') :
    ps = ps' := by
  induction ps generalizing p ps' with
  | nil =>
    cases ps' with
    | nil => rfl
    | cons q' ps' => exact absurd h h'.2.1
  | cons q ps ih =>
    obtain ⟨rfl, hnull, next, hnext, hrest⟩ := h
    cases ps' with
    | nil => exact absurd h' hnull
    | cons q' ps' =>
      obtain ⟨rfl, -, next', hnext', hrest'⟩ := h'
      obtain rfl : next = next' := Option.some.inj (hnext.symm.trans hnext')
      rw [ih hrest hrest']

/-- The address behind `p` is left out when `p` gets its link. -/
theorem Chain.pop (h : Chain load null p (p :: q :: ps)) (hq : load q = some next)
    (hp : load' p = some next) (hsame : ∀ r ∈ ps, load' r = load r) :
    Chain load' null p (p :: ps) := by
  obtain ⟨-, hnull, q', -, rfl, -, next', hnext, hrest⟩ := h
  rw [hq] at hnext
  cases hnext
  exact ⟨rfl, hnull, next, hp, hrest.congr hsame⟩

/-- An address goes behind `p` when it gets the link of `p`, and `p` links to
    it. -/
theorem Chain.push (h : Chain load null p (p :: ps)) (hq : q ≠ null) (hp : load p = some next)
    (hqnext : load' q = some next) (hpq : load' p = some q) (hsame : ∀ r ∈ ps, load' r = load r) :
    Chain load' null p (p :: q :: ps) := by
  obtain ⟨-, hnull, next', hnext, hrest⟩ := h
  rw [hp] at hnext
  cases hnext
  exact ⟨rfl, hnull, q, hpq, rfl, hq, next, hqnext, hrest.congr hsame⟩

/-- Addresses that link to each other in order are a chain. -/
theorem Chain.of_links {f : ℕ → α} {k : ℕ} (hlinks : ∀ j < k, load (f j) = some (f (j + 1)))
    (hlast : load (f k) = some null) (hnull : ∀ j ≤ k, f j ≠ null) :
    Chain load null (f 0) ((List.range (k + 1)).map f) := by
  induction k generalizing f with
  | zero => exact ⟨rfl, hnull 0 le_rfl, null, hlast, rfl⟩
  | succ k ih =>
    have hrest := ih (f := fun j => f (j + 1)) (fun j hj => hlinks (j + 1) (by omega)) hlast
      fun j hj => hnull (j + 1) (by omega)
    rw [List.range_succ_eq_map, List.map_cons, List.map_map]
    exact ⟨rfl, hnull 0 (by omega), f 1, hlinks 0 (by omega), hrest⟩

end Chains

end TaskSch
