/-
  Programs that share their memory, one access at a time.

  A program reads and writes cells; a read returns what the cell contains then,
  which other programs may have written.  Being a well-founded tree, a program
  ends whatever its reads return.

  * `eval`: the result of a program that nobody disturbs, and the memory it
    leaves;
  * `Safe C V Q`: as long as the cells in `C` have values allowed by `V`, the
    program does not fail, accesses cells in `C` only, writes allowed values
    only, and its result satisfies `Q`;
  * `Within n`: the program makes `n` accesses at most, whatever its reads
    return;
  * `shareMachine`: any number of programs, which are started anew at any time,
    with stores of the surroundings in between;
  * `run_safe`, `run_within`: safe programs stay safe in any company, and no
    company makes a program take longer.
-/
import TaskSch.Machine

namespace TaskSch

universe u
variable {κ α β ι : Type u} {τ : κ → Type u}

/-- A program over cells `κ`, where the cell `c` has values in `τ c`. -/
inductive AccessProg (κ : Type u) (τ : κ → Type u) (α : Type u) : Type u where
  | done (a : α)
  | fail
  | read (c : κ) (k : τ c → AccessProg κ τ α)
  | write (c : κ) (v : τ c) (k : AccessProg κ τ α)

namespace AccessProg

/-- One program after the other. -/
def bind : AccessProg κ τ α → (α → AccessProg κ τ β) → AccessProg κ τ β
  | .done a, f => f a
  | .fail, _ => .fail
  | .read c k, f => .read c fun v => (k v).bind f
  | .write c v k, f => .write c v (k.bind f)

/-- A partial result. -/
def ofOption : Option α → AccessProg κ τ α
  | none => .fail
  | some a => .done a

/-- The cell of the next access. -/
def next : AccessProg κ τ α → Option κ
  | .done _ | .fail => none
  | .read c _ | .write c _ _ => some c

variable [DecidableEq κ]

/-- The result and the memory, if nobody else writes. -/
def eval : AccessProg κ τ α → ((c : κ) → τ c) → Option (α × ((c : κ) → τ c))
  | .done a, mem => some (a, mem)
  | .fail, _ => none
  | .read c k, mem => (k (mem c)).eval mem
  | .write c v k, mem => k.eval (Function.update mem c v)

/-- One access. -/
def step (mem : (c : κ) → τ c) :
    AccessProg κ τ α → Option (((c : κ) → τ c) × AccessProg κ τ α)
  | .read c k => some (mem, k (mem c))
  | .write c v k => some (Function.update mem c v, k)
  | .done _ | .fail => none

omit [DecidableEq κ] in
theorem bind_assoc {γ : Type u} (p : AccessProg κ τ α) (f : α → AccessProg κ τ β)
    (g : β → AccessProg κ τ γ) : (p.bind f).bind g = p.bind fun a => (f a).bind g := by
  induction p with
  | done a => rfl
  | fail => rfl
  | read c k ih => exact congrArg (AccessProg.read c) (funext ih)
  | write c v k ih => exact congrArg (AccessProg.write c v) ih

omit [DecidableEq κ] in
theorem bind_done (p : AccessProg κ τ α) : p.bind .done = p := by
  induction p with
  | done a => rfl
  | fail => rfl
  | read c k ih => exact congrArg (AccessProg.read c) (funext ih)
  | write c v k ih => exact congrArg (AccessProg.write c v) ih

theorem eval_bind (p : AccessProg κ τ α) (f : α → AccessProg κ τ β) (mem : (c : κ) → τ c) :
    (p.bind f).eval mem = (p.eval mem).bind fun r => (f r.1).eval r.2 := by
  induction p generalizing mem with
  | done a => rfl
  | fail => rfl
  | read c k ih => exact ih (mem c) mem
  | write c v k ih => exact ih (Function.update mem c v)

theorem eval_ofOption (o : Option α) (mem : (c : κ) → τ c) :
    (ofOption o : AccessProg κ τ α).eval mem = o.map fun a => (a, mem) := by
  cases o <;> rfl

/-! ## What holds in any company -/

/-- The program does not fail, keeps to the cells `C` and the values `V`, and
    its result satisfies `Q`. -/
def Safe (C : κ → Prop) (V : (c : κ) → τ c → Prop) (Q : α → Prop) : AccessProg κ τ α → Prop
  | .done a => Q a
  | .fail => False
  | .read c k => C c ∧ ∀ v, V c v → (k v).Safe C V Q
  | .write c v k => C c ∧ V c v ∧ k.Safe C V Q

/-- The program makes at most `n` accesses. -/
def Within : ℕ → AccessProg κ τ α → Prop
  | _, .done _ | _, .fail => True
  | n, .read _ k => ∃ m, n = m + 1 ∧ ∀ v, (k v).Within m
  | n, .write _ _ k => ∃ m, n = m + 1 ∧ k.Within m

omit [DecidableEq κ]

variable {C : κ → Prop} {V : (c : κ) → τ c → Prop} {Q : α → Prop} {R : β → Prop}
  {p p' : AccessProg κ τ α} {mem mem' : (c : κ) → τ c}

theorem Safe.bind {f : α → AccessProg κ τ β} (h : p.Safe C V Q)
    (hf : ∀ a, Q a → (f a).Safe C V R) : (p.bind f).Safe C V R := by
  induction p with
  | done a => exact hf a h
  | fail => exact h.elim
  | read c k ih =>
    obtain ⟨hc, hk⟩ := h
    exact ⟨hc, fun v hv => ih v (hk v hv)⟩
  | write c v k ih =>
    obtain ⟨hc, hv, hk⟩ := h
    exact ⟨hc, hv, ih hk⟩

theorem Safe.not_fail (h : p.Safe C V Q) : p ≠ .fail := by
  rintro rfl
  exact h

theorem Safe.next (h : p.Safe C V Q) {c : κ} (hc : p.next = some c) : C c := by
  cases p with
  | done | fail => cases hc
  | read | write => cases hc; exact h.1

theorem Within.mono {m n : ℕ} (h : p.Within m) (hmn : m ≤ n) : p.Within n := by
  induction p generalizing m n with
  | done | fail => trivial
  | read c k ih =>
    obtain ⟨m, rfl, hk⟩ := h
    exact ⟨n - 1, by omega, fun v => ih v (hk v) (by omega)⟩
  | write c v k ih =>
    obtain ⟨m, rfl, hk⟩ := h
    exact ⟨n - 1, by omega, ih hk (by omega)⟩

theorem Within.bind {m n : ℕ} {f : α → AccessProg κ τ β} (h : p.Within m)
    (hf : ∀ a, (f a).Within n) : (p.bind f).Within (m + n) := by
  induction p generalizing m with
  | done a => exact (hf a).mono (by omega)
  | fail => trivial
  | read c k ih =>
    obtain ⟨m, rfl, hk⟩ := h
    exact ⟨m + n, by omega, fun v => ih v (hk v)⟩
  | write c v k ih =>
    obtain ⟨m, rfl, hk⟩ := h
    exact ⟨m + n, by omega, ih hk⟩

theorem Within.ofOption_bind {n : ℕ} {o : Option α} {f : α → AccessProg κ τ β}
    (h : ∀ a, o = some a → (f a).Within n) : ((ofOption o).bind f).Within n := by
  cases o with
  | none => trivial
  | some a => exact h a rfl

variable [DecidableEq κ]

/-- An access of a safe program: the memory stays allowed, and so does what is
    left of the program. -/
theorem Safe.step (h : p.Safe C V Q) (hmem : ∀ c, C c → V c (mem c))
    (hs : p.step mem = some (mem', p')) : (∀ c, C c → V c (mem' c)) ∧ p'.Safe C V Q := by
  cases p with
  | done | fail => cases hs
  | read c k =>
    cases hs
    exact ⟨hmem, h.2 _ (hmem c h.1)⟩
  | write c v k =>
    cases hs
    refine ⟨?_, h.2.2⟩
    intro c' hc'
    by_cases he : c' = c
    · subst he; simpa using h.2.1
    · simpa [he] using hmem c' hc'

theorem Within.step {n : ℕ} (h : p.Within n) (hs : p.step mem = some (mem', p')) :
    ∃ m, n = m + 1 ∧ p'.Within m := by
  cases p with
  | done | fail => cases hs
  | read c k =>
    cases hs
    obtain ⟨m, rfl, hk⟩ := h
    exact ⟨m, rfl, hk _⟩
  | write c v k =>
    cases hs
    exact h

/-- A safe program that nobody disturbs has a result. -/
theorem Safe.eval (h : p.Safe C V Q) (hmem : ∀ c, C c → V c (mem c)) :
    ∃ r, p.eval mem = some r ∧ Q r.1 ∧ ∀ c, C c → V c (r.2 c) := by
  induction p generalizing mem with
  | done a => exact ⟨(a, mem), rfl, h, hmem⟩
  | fail => exact h.elim
  | read c k ih => exact ih (mem c) (h.2 _ (hmem c h.1)) hmem
  | write c v k ih => exact ih h.2.2 (Safe.step (p := .write c v k) h hmem rfl).1

end AccessProg

/-! ## Any number of programs -/

/-- The memory and the programs that run on it. -/
structure Share (κ : Type u) (τ : κ → Type u) (α ι : Type u) where
  mem : (c : κ) → τ c
  prog : ι → AccessProg κ τ α

inductive ShareAct (κ : Type u) (τ : κ → Type u) (ι : Type u) where
  /-- the program of the thread `i` starts anew, if it has ended -/
  | start (i : ι)
  /-- the thread `i` makes an access -/
  | access (i : ι)
  /-- somebody else stores to the cell `c` -/
  | store (c : κ) (v : τ c)

variable [DecidableEq ι]

/-- An access of the thread `i`. -/
def ShareAct.accesses (i : ι) : ShareAct κ τ ι → Bool
  | .access j => decide (j = i)
  | .start _ | .store _ _ => false

/-- A start of the thread `i`. -/
def ShareAct.starts (i : ι) : ShareAct κ τ ι → Bool
  | .start j => decide (j = i)
  | .access _ | .store _ _ => false

section

variable (i j : ι) (c : κ) (v : τ c)

@[simp] theorem ShareAct.accesses_access :
    (.access j : ShareAct κ τ ι).accesses i = decide (j = i) := rfl

@[simp] theorem ShareAct.accesses_start : (.start j : ShareAct κ τ ι).accesses i = false := rfl

@[simp] theorem ShareAct.accesses_store : (.store c v : ShareAct κ τ ι).accesses i = false := rfl

@[simp] theorem ShareAct.starts_start :
    (.start j : ShareAct κ τ ι).starts i = decide (j = i) := rfl

@[simp] theorem ShareAct.starts_access : (.access j : ShareAct κ τ ι).starts i = false := rfl

@[simp] theorem ShareAct.starts_store : (.store c v : ShareAct κ τ ι).starts i = false := rfl

end

variable [DecidableEq κ]

def Share.step (main : AccessProg κ τ α) (s : Share κ τ α ι) :
    ShareAct κ τ ι → Option (Share κ τ α ι)
  | .start i =>
    match s.prog i with
    | .done _ => some { s with prog := Function.update s.prog i main }
    | .fail | .read _ _ | .write _ _ _ => none
  | .access i => ((s.prog i).step s.mem).map fun r => ⟨r.1, Function.update s.prog i r.2⟩
  | .store c v => some { s with mem := Function.update s.mem c v }

/-- Threads that run the program `main`, again and again. -/
def shareMachine (ι : Type u) [DecidableEq ι] (main : AccessProg κ τ α) :
    Machine (Share κ τ α ι) (ShareAct κ τ ι) := ⟨Share.step main⟩

/-- The surroundings store allowed values. -/
def ShareAct.Allowed (V : (c : κ) → τ c → Prop) : ShareAct κ τ ι → Prop
  | .store c v => V c v
  | .start _ | .access _ => True

namespace Share

variable {main : AccessProg κ τ α} {s s' : Share κ τ α ι} {C : κ → Prop}
  {V : (c : κ) → τ c → Prop} {Q : α → Prop}

/-- The memory is allowed and all programs are safe. -/
structure Safe (C : κ → Prop) (V : (c : κ) → τ c → Prop) (Q : α → Prop)
    (s : Share κ τ α ι) : Prop where
  mem : ∀ c, C c → V c (s.mem c)
  prog : ∀ i, (s.prog i).Safe C V Q

omit [DecidableEq κ] in
theorem update_all {P : AccessProg κ τ α → Prop} {prog : ι → AccessProg κ τ α}
    (h : ∀ i, P (prog i)) {i : ι} {p : AccessProg κ τ α} (hp : P p) (j : ι) :
    P (Function.update prog i p j) := by
  by_cases hj : j = i
  · subst hj; simpa using hp
  · simpa [hj] using h j

theorem Safe.step (hmain : main.Safe C V Q) (h : s.Safe C V Q) {a : ShareAct κ τ ι}
    (ha : a.Allowed V) (hs : s.step main a = some s') : s'.Safe C V Q := by
  cases a with
  | start i =>
    simp only [Share.step] at hs
    split at hs
    next => cases hs; exact ⟨h.mem, update_all h.prog hmain⟩
    all_goals cases hs
  | access i =>
    obtain ⟨⟨mem, p⟩, hp, rfl⟩ := Option.map_eq_some_iff.1 hs
    obtain ⟨hmem, hsafe⟩ := (h.prog i).step h.mem hp
    exact ⟨hmem, update_all h.prog hsafe⟩
  | store c v =>
    cases hs
    refine ⟨?_, h.prog⟩
    intro c' hc'
    by_cases he : c' = c
    · subst he
      simp only [Function.update_self]
      exact ha
    · simpa [he] using h.mem c' hc'

/-- **Safe programs stay safe in any company.** -/
theorem run_safe (hmain : main.Safe C V Q) {as : List (ShareAct κ τ ι)}
    (ha : ∀ a ∈ as, a.Allowed V) (hr : (shareMachine ι main).run s as = some s')
    (h : s.Safe C V Q) : s'.Safe C V Q :=
  Machine.run_along_inv (G := fun _ a => a.Allowed V) (fun _ _ _ h ha hs => h.step hmain ha hs)
    (Machine.along_of_forall s fun a hm _ => ha a hm) hr h

/-- **No company makes a program take longer**: each start of a thread allows
    for a fixed number of its accesses. -/
theorem run_within {n m : ℕ} (hmain : main.Within n) {as : List (ShareAct κ τ ι)} {i : ι}
    (hr : (shareMachine ι main).run s as = some s') (h : (s.prog i).Within m) :
    ∃ m', (s'.prog i).Within m' ∧
      as.countP (·.accesses i) + m' ≤ m + n * as.countP (·.starts i) := by
  induction as generalizing s m with
  | nil => cases hr; exact ⟨m, h, by simp⟩
  | cons a as ih =>
    obtain ⟨s₁, hs, hr⟩ := Machine.run_cons.1 hr
    simp only [List.countP_cons]
    cases a with
    | start j =>
      simp only [shareMachine, Share.step] at hs
      split at hs
      next =>
        cases hs
        by_cases hj : j = i
        · subst hj
          obtain ⟨m', h1, h2⟩ := ih (m := n) hr (by simpa using hmain)
          refine ⟨m', h1, ?_⟩
          simp only [ShareAct.accesses_start, ShareAct.starts_start, decide_true, if_true,
            Bool.false_eq_true, if_false, Nat.mul_add, Nat.mul_one]
          omega
        · obtain ⟨m', h1, h2⟩ := ih (m := m) hr (by simpa [Ne.symm hj] using h)
          exact ⟨m', h1, by simpa [hj] using h2⟩
      all_goals cases hs
    | access j =>
      obtain ⟨⟨mem, p⟩, hp, rfl⟩ := Option.map_eq_some_iff.1 hs
      by_cases hj : j = i
      · subst hj
        obtain ⟨m₁, rfl, hw⟩ := h.step hp
        obtain ⟨m', h1, h2⟩ := ih (m := m₁) hr (by simpa using hw)
        refine ⟨m', h1, ?_⟩
        simp only [ShareAct.accesses_access, ShareAct.starts_access, decide_true, if_true,
          Bool.false_eq_true, if_false, Nat.add_zero]
        omega
      · obtain ⟨m', h1, h2⟩ := ih (m := m) hr (by simpa [Ne.symm hj] using h)
        exact ⟨m', h1, by simpa [hj] using h2⟩
    | store c v =>
      cases hs
      obtain ⟨m', h1, h2⟩ := ih hr h
      exact ⟨m', h1, by simpa using h2⟩

end Share

end TaskSch
