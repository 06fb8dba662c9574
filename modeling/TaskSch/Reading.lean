/-
  Programs that read cells which other threads write to.

  A program reads one cell after the other, and goes on with the value that it
  gets.  Its own memory, which no other thread writes to, is noted at each read.
  Being a well-founded tree, a program ends whatever values it gets.

  * `run`: the result, when the `t`-th read of cell `i` returns `rd t i`;
  * `step`: one read, on the cells as they are;
  * `Safe P Q`: whatever the reads return, the program does not fail, its own
    memory satisfies `P` all the time and its result satisfies `Q`;
  * `Safe.bind`, `Safe.run`, `Safe.step`: the rules for it;
  * `eval`: the result on cells that nobody writes to, which the reads that were
    made so far do not change (`eval_step`);
  * `Reads C`: only cells that `C` allows are read;
  * `Begins own Q`: nothing was written to `own` before the first read.
-/
import Mathlib.Tactic

namespace TaskSch

universe u
variable {σ ι ρ α β : Type u}

/-- A program with its own memory in `σ` that reads cells `ι` with values in
    `ρ`. -/
inductive ReadProg (σ ι ρ α : Type u) : Type u where
  | done (a : α)
  | fail
  | read (own : σ) (i : ι) (k : ρ → ReadProg σ ι ρ α)

namespace ReadProg

/-- One program after the other. -/
def bind : ReadProg σ ι ρ α → (α → ReadProg σ ι ρ β) → ReadProg σ ι ρ β
  | .done a, f => f a
  | .fail, _ => .fail
  | .read own i k, f => .read own i fun v => (k v).bind f

/-- A partial result. -/
def ofOption : Option α → ReadProg σ ι ρ α
  | none => .fail
  | some a => .done a

/-- The result and the number of reads, from the `t`-th read on. -/
def run (rd : ℕ → ι → ρ) : ReadProg σ ι ρ α → ℕ → Option (α × ℕ)
  | .done a, t => some (a, t)
  | .fail, _ => none
  | .read _ i k, t => (k (rd t i)).run rd (t + 1)

/-- One read. -/
def step (mem : ι → ρ) : ReadProg σ ι ρ α → Option (ReadProg σ ι ρ α)
  | .read _ i k => some (k (mem i))
  | .done _ | .fail => none

/-- The memory of a program that returns it. -/
def now (old : σ) : ReadProg σ ι ρ σ → σ
  | .done own | .read own _ _ => own
  | .fail => old

/-- The program does not fail, with `P` for its memory and `Q` for its result. -/
def Safe (P : σ → Prop) (Q : α → Prop) : ReadProg σ ι ρ α → Prop
  | .done a => Q a
  | .fail => False
  | .read own _ k => P own ∧ ∀ v, (k v).Safe P Q

variable {P : σ → Prop} {Q : α → Prop} {R : β → Prop} {p : ReadProg σ ι ρ α}

theorem run_bind (rd : ℕ → ι → ρ) (p : ReadProg σ ι ρ α) (f : α → ReadProg σ ι ρ β) (t : ℕ) :
    (p.bind f).run rd t = (p.run rd t).bind fun r => (f r.1).run rd r.2 := by
  induction p generalizing t with
  | done a => rfl
  | fail => rfl
  | read own i k ih => exact ih (rd t i) (t + 1)

theorem run_ofOption (rd : ℕ → ι → ρ) (o : Option α) (t : ℕ) :
    (ofOption o : ReadProg σ ι ρ α).run rd t = o.map fun a => (a, t) := by
  cases o <;> rfl

theorem Safe.bind {f : α → ReadProg σ ι ρ β} (h : p.Safe P Q) (hf : ∀ a, Q a → (f a).Safe P R) :
    (p.bind f).Safe P R := by
  induction p with
  | done a => exact hf a h
  | fail => exact h.elim
  | read own i k ih =>
    obtain ⟨hown, hk⟩ := h
    exact ⟨hown, fun v => ih v (hk v)⟩

/-- A safe program has a result. -/
theorem Safe.run (h : p.Safe P Q) (rd : ℕ → ι → ρ) (t : ℕ) :
    ∃ r, p.run rd t = some r ∧ Q r.1 := by
  induction p generalizing t with
  | done a => exact ⟨(a, t), rfl, h⟩
  | fail => exact h.elim
  | read own i k ih => exact ih (rd t i) (h.2 (rd t i)) (t + 1)

/-- A safe program stays safe. -/
theorem Safe.step {mem : ι → ρ} {p' : ReadProg σ ι ρ α} (h : p.Safe P Q)
    (hs : p.step mem = some p') : p'.Safe P Q := by
  cases p with
  | done | fail => cases hs
  | read own i k =>
    cases hs
    exact h.2 (mem i)

theorem Safe.now {p : ReadProg σ ι ρ σ} (h : p.Safe P P) (old : σ) : P (p.now old) := by
  cases p with
  | done a => exact h
  | fail => exact h.elim
  | read own i k => exact h.1

theorem Safe.not_fail (h : p.Safe P Q) : p ≠ .fail := by
  rintro rfl
  exact h

/-! ## Cells that nobody writes to -/

/-- The result, when all reads return what is in `mem`. -/
def eval (mem : ι → ρ) : ReadProg σ ι ρ α → Option α
  | .done a => some a
  | .fail => none
  | .read _ i k => (k (mem i)).eval mem

/-- All reads are allowed by `C`, for the memory that is noted with them. -/
def Reads (C : σ → ι → Prop) : ReadProg σ ι ρ α → Prop
  | .done _ | .fail => True
  | .read own i k => C own i ∧ ∀ v, (k v).Reads C

/-- The first read comes before the first change of `own`; without any read, the
    result satisfies `Q`. -/
def Begins (own : σ) (Q : α → Prop) : ReadProg σ ι ρ α → Prop
  | .done a => Q a
  | .fail => True
  | .read own' _ _ => own' = own

variable {C : σ → ι → Prop} {own : σ} {mem mem' : ι → ρ}

theorem run_const (mem : ι → ρ) (p : ReadProg σ ι ρ α) (t : ℕ) :
    (p.run (fun _ => mem) t).map Prod.fst = p.eval mem := by
  induction p generalizing t with
  | done a => rfl
  | fail => rfl
  | read own i k ih => exact ih (mem i) (t + 1)

theorem eval_step {p' : ReadProg σ ι ρ α} (h : p.step mem = some p') :
    p'.eval mem = p.eval mem := by
  cases p with
  | done | fail => cases h
  | read own i k => cases h; rfl

theorem Reads.bind {f : α → ReadProg σ ι ρ β} (h : p.Reads C) (hf : ∀ a, (f a).Reads C) :
    (p.bind f).Reads C := by
  induction p with
  | done a => exact hf a
  | fail => trivial
  | read own i k ih =>
    obtain ⟨hi, hk⟩ := h
    exact ⟨hi, fun v => ih v (hk v)⟩

theorem Reads.ofOption_bind {o : Option α} {f : α → ReadProg σ ι ρ β}
    (h : ∀ a, o = some a → (f a).Reads C) : ((ofOption o).bind f).Reads C := by
  cases o with
  | none => trivial
  | some a => exact h a rfl

theorem Reads.step {p' : ReadProg σ ι ρ α} (h : p.Reads C) (hs : p.step mem = some p') :
    p'.Reads C := by
  cases p with
  | done | fail => cases hs
  | read own i k =>
    cases hs
    exact h.2 (mem i)

/-- Only the cells that are read matter. -/
theorem Safe.eval_congr (h : p.Safe P Q) (hr : p.Reads C)
    (hm : ∀ own i, P own → C own i → mem i = mem' i) : p.eval mem = p.eval mem' := by
  induction p with
  | done a => rfl
  | fail => rfl
  | read own i k ih =>
    rw [eval, eval, ← hm own i h.1 hr.1]
    exact ih (mem i) (h.2 (mem i)) (hr.2 (mem i))

theorem Begins.bind {f : α → ReadProg σ ι ρ β} (h : p.Begins own Q)
    (hf : ∀ a, Q a → (f a).Begins own R) : (p.bind f).Begins own R := by
  cases p with
  | done a => exact hf a h
  | fail => trivial
  | read own' i k => exact h

theorem Begins.ofOption_bind {o : Option α} {f : α → ReadProg σ ι ρ β}
    (h : ∀ a, o = some a → (f a).Begins own R) : ((ofOption o).bind f).Begins own R := by
  cases o with
  | none => trivial
  | some a => exact h a rfl

theorem Begins.now {p : ReadProg σ ι ρ σ} (h : p.Begins own (· = own)) : p.now own = own := by
  cases p with
  | done a => exact h
  | fail => rfl
  | read own' i k => exact h

theorem now_now (p : ReadProg σ ι ρ σ) (old : σ) : p.now (p.now old) = p.now old := by
  cases p <;> rfl

end ReadProg

end TaskSch
