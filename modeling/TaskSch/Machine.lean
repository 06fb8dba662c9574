/-
  Machines with one step per action, and their runs.

  A machine takes, in a state and for an action, at most one step.  A schedule
  is a list of actions, so the interleavings of a concurrent program are the
  schedules of its machine, and a concrete schedule can be evaluated.

  * `run`: the state in which a schedule ends, if all of its steps are possible;
  * `Along G`: every step of the schedule is taken in a state where `G` allows
    the action;
  * `Throughout P`: every state of the run, the first and the last one
    included, satisfies `P`;
  * `run_inv`, `run_along_inv`: the invariant rules;
  * `run_rel`: the rule of corresponding runs of two machines;
  * `total f`: what the steps of a run cost, added up;
  * `run_total_le`: the potential method.
-/
import Mathlib.Tactic

namespace TaskSch

universe u v

/-- A machine: the step of an action in a state, `none` if it is not possible. -/
structure Machine (S : Type u) (A : Type v) where
  step : S → A → Option S

namespace Machine
variable {S : Type u} {A : Type v} (M : Machine S A)

/-- The state after a schedule. -/
def run : S → List A → Option S
  | s, [] => some s
  | s, a :: as => (M.step s a).bind fun s' => run s' as

/-- What the steps of a run cost, added up. -/
def total (f : S → A → ℕ) : S → List A → ℕ
  | _, [] => 0
  | s, a :: as => f s a + (M.step s a).elim 0 fun s' => total f s' as

/-- Every action of the schedule is taken in a state where `G` allows it. -/
def Along (G : S → A → Prop) : S → List A → Prop
  | _, [] => True
  | s, a :: as => G s a ∧ ∀ s', M.step s a = some s' → Along G s' as

/-- Every state of the run satisfies `P`. -/
def Throughout (P : S → Prop) : S → List A → Prop
  | s, [] => P s
  | s, a :: as => P s ∧ ∀ s', M.step s a = some s' → Throughout P s' as

variable {M}

theorem run_cons {s t : S} {a : A} {as : List A} :
    M.run s (a :: as) = some t ↔ ∃ s', M.step s a = some s' ∧ M.run s' as = some t := by
  simp [run, Option.bind_eq_some_iff]

theorem run_append (s : S) (as bs : List A) :
    M.run s (as ++ bs) = (M.run s as).bind fun t => M.run t bs := by
  induction as generalizing s with
  | nil => rfl
  | cons a as ih =>
    simp only [List.cons_append, run, Option.bind_assoc]
    exact congrArg _ (funext ih)

theorem along_cons {G : S → A → Prop} {s s' : S} {a : A} {as : List A} (hG : G s a)
    (h : M.step s a = some s') (has : M.Along G s' as) : M.Along G s (a :: as) := by
  refine ⟨hG, ?_⟩
  intro t ht
  rw [h] at ht; cases ht
  exact has

theorem Throughout.head {P : S → Prop} {s : S} {as : List A} (h : M.Throughout P s as) : P s := by
  cases as with
  | nil => exact h
  | cons => exact h.1

/-- What holds throughout a run holds at its end. -/
theorem Throughout.last {P : S → Prop} {s t : S} {as : List A} (h : M.Throughout P s as)
    (hr : M.run s as = some t) : P t := by
  induction as generalizing s with
  | nil => cases hr; exact h
  | cons a as ih =>
    obtain ⟨s', h1, h2⟩ := run_cons.1 hr
    exact ih (h.2 s' h1) h2

theorem Throughout.along {P : S → Prop} {s : S} {as : List A} (h : M.Throughout P s as) :
    M.Along (fun s _ => P s) s as := by
  induction as generalizing s with
  | nil => trivial
  | cons a as ih => exact ⟨h.1, fun s' hs' => ih (h.2 s' hs')⟩

/-- A guard that allows every action of the schedule in all states. -/
theorem along_of_forall {G : S → A → Prop} {as : List A} (s : S) (h : ∀ a ∈ as, ∀ s, G s a) :
    M.Along G s as := by
  induction as generalizing s with
  | nil => trivial
  | cons a as ih =>
    refine ⟨h a List.mem_cons_self s, ?_⟩
    intro s' _
    exact ih s' fun b hb => h b (List.mem_cons_of_mem a hb)

/-- A guard that can be evaluated can be evaluated along a schedule. -/
instance decidableAlong {G : S → A → Prop} [∀ s a, Decidable (G s a)] :
    (s : S) → (as : List A) → Decidable (M.Along G s as)
  | _, [] => isTrue trivial
  | s, a :: as =>
    match h : M.step s a with
    | none => decidable_of_iff (G s a) ⟨fun hG => ⟨hG, by simp [h]⟩, And.left⟩
    | some s' =>
      have := decidableAlong (G := G) s' as
      decidable_of_iff (G s a ∧ M.Along G s' as)
        ⟨fun hG => along_cons hG.1 h hG.2, fun hG => ⟨hG.1, hG.2 s' h⟩⟩

/-- An invariant that every step allowed by `G` keeps holds after every run
    along `G`. -/
theorem run_along_inv {P : S → Prop} {G : S → A → Prop}
    (hstep : ∀ s a s', P s → G s a → M.step s a = some s' → P s') {as : List A} {s t : S}
    (hG : M.Along G s as) (hr : M.run s as = some t) (hs : P s) : P t := by
  induction as generalizing s with
  | nil => cases hr; exact hs
  | cons a as ih =>
    obtain ⟨s', h1, h2⟩ := run_cons.1 hr
    exact ih (hG.2 s' h1) h2 (hstep s a s' hs hG.1 h1)

/-- An invariant that every step keeps holds after every run. -/
theorem run_inv {P : S → Prop} (hstep : ∀ s a s', P s → M.step s a = some s' → P s')
    {as : List A} {s t : S} (hr : M.run s as = some t) (hs : P s) : P t := by
  induction as generalizing s with
  | nil => cases hr; exact hs
  | cons a as ih =>
    obtain ⟨s', h1, h2⟩ := run_cons.1 hr
    exact ih h2 (hstep s a s' hs h1)

/-- Two machines whose steps correspond have runs that correspond: the same
    schedules are possible, and they end in related states. -/
theorem run_rel {T : Type*} {N : Machine T A} {R : S → T → Prop}
    (hstep : ∀ s t a, R s t → Option.Rel R (M.step s a) (N.step t a)) {s : S} {t : T} (h : R s t)
    (as : List A) : Option.Rel R (M.run s as) (N.run t as) := by
  induction as generalizing s t with
  | nil => exact .some h
  | cons a as ih =>
    have ha := hstep s t a h
    simp only [run]
    cases hs : M.step s a <;> cases ht : N.step t a <;> rw [hs, ht] at ha <;> cases ha
    · exact .none
    next hst => exact ih hst

/-! ## Costs -/

theorem total_cons {f : S → A → ℕ} {s s' : S} {a : A} (h : M.step s a = some s') (as : List A) :
    M.total f s (a :: as) = f s a + M.total f s' as := by
  simp only [total, h, Option.elim_some]

theorem total_add (f g : S → A → ℕ) (s : S) (as : List A) :
    M.total (fun s a => f s a + g s a) s as = M.total f s as + M.total g s as := by
  induction as generalizing s with
  | nil => rfl
  | cons a as ih =>
    simp only [total]
    cases M.step s a with
    | none => simp only [Option.elim_none]; omega
    | some s' => simp only [Option.elim_some, ih s']; omega

theorem total_mul (k : ℕ) (f : S → A → ℕ) (s : S) (as : List A) :
    M.total (fun s a => k * f s a) s as = k * M.total f s as := by
  induction as generalizing s with
  | nil => rfl
  | cons a as ih =>
    simp only [total]
    cases M.step s a with
    | none => simp only [Option.elim_none]; ring
    | some s' => simp only [Option.elim_some, ih s']; ring

/-- **The potential method**: if every step is paid for by the potential and by
    what the step is credited with, so is every run.  The potential may depend
    on more than the state. -/
theorem run_total_le {P : S → ℕ → Prop} {G : S → A → Prop} {f g : S → A → ℕ}
    (hstep : ∀ s a s' m, P s m → G s a → M.step s a = some s' →
      ∃ m', P s' m' ∧ f s a + m' ≤ m + g s a)
    {as : List A} {s t : S} {m : ℕ} (hG : M.Along G s as) (hr : M.run s as = some t) (hs : P s m) :
    ∃ m', P t m' ∧ M.total f s as + m' ≤ m + M.total g s as := by
  induction as generalizing s m with
  | nil => cases hr; exact ⟨m, hs, by simp [total]⟩
  | cons a as ih =>
    obtain ⟨s', h1, h2⟩ := run_cons.1 hr
    obtain ⟨m₁, hs', hle⟩ := hstep s a s' m hs hG.1 h1
    obtain ⟨m₂, ht, hle'⟩ := ih (hG.2 s' h1) h2 hs'
    rw [total_cons h1, total_cons h1]
    exact ⟨m₂, ht, by omega⟩

end Machine

end TaskSch
