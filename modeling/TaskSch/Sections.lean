/-
  Critical sections under one lock.

  The threads of a program share a state which they only change in critical
  sections; between its sections a thread sees a part of it, the `view`.  A
  section is a list of steps, taken one by one while the thread has the lock.

  * `lockedMachine`: the steps of the sections are interleaved with the steps
    that other threads take outside of theirs;
  * `atomicMachine`: a section is one step;
  * `Once`: a section changes the view in one of its steps at most;
  * `locked_atomic`: if all sections are such, and a section that was begun can
    be completed, every run with single steps is a run with whole sections, in
    which each section stands between its lock and its unlock (`Linearizes`).
-/
import TaskSch.Machine

namespace TaskSch

universe u
variable {σ ν κ ρ A ι : Type u}

/-! ## Sections -/

/-- A step of a section, on the shared state and the registers of the thread. -/
abbrev Micro (σ ρ : Type u) := σ × ρ → Option (σ × ρ)

/-- The steps of a section, one after the other. -/
def runSection : List (Micro σ ρ) → σ × ρ → Option (σ × ρ)
  | [], s => some s
  | m :: ms, s => (m s).bind (runSection ms)

/-- The step leaves the view alone. -/
def Micro.Hidden (view : σ → ν) (m : Micro σ ρ) : Prop :=
  ∀ s s', m s = some s' → view s'.1 = view s.1

/-- One step at most changes the view. -/
inductive Once (view : σ → ν) : List (Micro σ ρ) → Prop
  | nil : Once view []
  | hidden {m ms} (hm : Micro.Hidden view m) (hms : Once view ms) : Once view (m :: ms)
  | publish {m ms} (hms : ∀ m' ∈ ms, Micro.Hidden view m') : Once view (m :: ms)

/-- The step is possible and keeps `G`. -/
def Micro.Keeps (G : σ → Prop) (m : Micro σ ρ) : Prop := ∀ s, G s.1 → ∃ s', m s = some s' ∧ G s'.1

theorem runSection_hidden {view : σ → ν} {ms : List (Micro σ ρ)} (h : ∀ m ∈ ms, Micro.Hidden view m)
    {s s' : σ × ρ} (hr : runSection ms s = some s') : view s'.1 = view s.1 := by
  induction ms generalizing s with
  | nil => cases hr; rfl
  | cons m ms ih =>
    obtain ⟨s₁, h1, h2⟩ := Option.bind_eq_some_iff.1 hr
    rw [ih (fun m hm => h m (List.mem_cons_of_mem _ hm)) h2]
    exact h m List.mem_cons_self s s₁ h1

theorem runSection_keeps {G : σ → Prop} {ms : List (Micro σ ρ)} (h : ∀ m ∈ ms, Micro.Keeps G m)
    {s : σ × ρ} (hG : G s.1) : ∃ s', runSection ms s = some s' ∧ G s'.1 := by
  induction ms generalizing s with
  | nil => exact ⟨s, rfl, hG⟩
  | cons m ms ih =>
    obtain ⟨s₁, h1, hG₁⟩ := h m List.mem_cons_self s hG
    obtain ⟨s', h2, hs'⟩ := ih (fun m hm => h m (List.mem_cons_of_mem _ hm)) hG₁
    exact ⟨s', Option.bind_eq_some_iff.2 ⟨s₁, h1, h2⟩, hs'⟩

/-! ## The two machines -/

/-- What the threads of the program do. -/
structure LockProg (σ ν κ ρ A : Type u) where
  /-- what a thread can read without the lock -/
  view : σ → ν
  /-- a step outside of the sections -/
  outside : κ → ν → A → Option κ
  /-- the section that the thread is about to enter -/
  body : κ → Option (List (Micro σ ρ))
  /-- the registers at the start of a section -/
  init : ρ
  /-- the thread after the section -/
  leave : κ → ρ → κ

/-- The shared state, the threads, and the one that has the lock with its
    registers and the rest of its section. -/
structure Locked (σ κ ρ ι : Type u) where
  shared : σ
  ctl : ι → κ
  holder : Option (ι × ρ × List (Micro σ ρ))

inductive SectionAct (A ι : Type u) where
  | outside (i : ι) (a : A)
  | lock (i : ι)
  | micro (i : ι)
  | unlock (i : ι)

/-- The shared state and the threads. -/
structure Atomic (σ κ ι : Type u) where
  shared : σ
  ctl : ι → κ

inductive AtomicAct (A ι : Type u) where
  | outside (i : ι) (a : A)
  | whole (i : ι)

namespace LockProg
variable [DecidableEq ι] (P : LockProg σ ν κ ρ A)

def lockedStep (f : Locked σ κ ρ ι) : SectionAct A ι → Option (Locked σ κ ρ ι)
  | .outside i a =>
    if f.holder.map Prod.fst = some i then none
    else (P.outside (f.ctl i) (P.view f.shared) a).map fun c =>
      { f with ctl := Function.update f.ctl i c }
  | .lock i =>
    if f.holder.isSome then none
    else (P.body (f.ctl i)).map fun ms => { f with holder := some (i, P.init, ms) }
  | .micro i =>
    match f.holder with
    | some (j, r, m :: ms) =>
      if j = i then (m (f.shared, r)).map fun s =>
        { f with shared := s.1, holder := some (i, s.2, ms) }
      else none
    | _ => none
  | .unlock i =>
    match f.holder with
    | some (j, r, []) =>
      if j = i then some { f with
        ctl := Function.update f.ctl i (P.leave (f.ctl i) r), holder := none }
      else none
    | _ => none

def lockedMachine : Machine (Locked σ κ ρ ι) (SectionAct A ι) := ⟨P.lockedStep⟩

def atomicStep (g : Atomic σ κ ι) : AtomicAct A ι → Option (Atomic σ κ ι)
  | .outside i a => (P.outside (g.ctl i) (P.view g.shared) a).map fun c =>
      { g with ctl := Function.update g.ctl i c }
  | .whole i => (P.body (g.ctl i)).bind fun ms => (runSection ms (g.shared, P.init)).map fun s =>
      ⟨s.1, Function.update g.ctl i (P.leave (g.ctl i) s.2)⟩

def atomicMachine : Machine (Atomic σ κ ι) (AtomicAct A ι) := ⟨P.atomicStep⟩

end LockProg

/-! ## The simulation -/

/-- The whole sections that a single step stands for: none, or the one of its
    thread. -/
inductive Emits : SectionAct A ι → List (AtomicAct A ι) → Prop
  | outside (i : ι) (a : A) : Emits (.outside i a) [.outside i a]
  | lock (i : ι) : Emits (.lock i) []
  | inside (i : ι) : Emits (.micro i) []
  | publish (i : ι) : Emits (.micro i) [.whole i]
  | unlock (i : ι) : Emits (.unlock i) []
  | leave (i : ι) : Emits (.unlock i) [.whole i]

/-- The second schedule has the steps of the first one outside of the sections,
    in their order, and a whole section for some steps of its thread inside. -/
inductive Linearizes : List (SectionAct A ι) → List (AtomicAct A ι) → Prop
  | nil : Linearizes [] []
  | cons {a as b bs} (hb : Emits a b) (hbs : Linearizes as bs) :
      Linearizes (a :: as) (b ++ bs)

namespace LockProg
variable {P : LockProg σ ν κ ρ A} {G : σ → Prop} {L : κ → Prop}

/-- Each section changes the view once, and its steps are possible as long as
    `G` holds of the shared state and `L` of the threads, which all steps keep. -/
structure Sound (P : LockProg σ ν κ ρ A) (G : σ → Prop) (L : κ → Prop) : Prop where
  outside : ∀ s c a c', G s → L c → P.outside c (P.view s) a = some c' → L c'
  once : ∀ c ms, L c → P.body c = some ms → Once P.view ms
  keeps : ∀ c ms, L c → P.body c = some ms → ∀ m ∈ ms, Micro.Keeps G m
  leave : ∀ c r, L c → L (P.leave c r)

/-- The thread `i` has to take the steps `ms` in `f`: its section has not begun
    in `g` (`before`), or is complete there (`after`). -/
inductive Inside (P : LockProg σ ν κ ρ A) (i : ι) (r : ρ) (ms : List (Micro σ ρ))
    (f : Locked σ κ ρ ι) (g : Atomic σ κ ι) : Prop
  | before {b} (hb : P.body (f.ctl i) = some b) (hc : g.ctl i = f.ctl i) (hms : Once P.view ms)
      (hr : runSection ms (f.shared, r) = runSection b (g.shared, P.init))
  | after {r'} (hc : g.ctl i = P.leave (f.ctl i) r') (hms : ∀ m ∈ ms, Micro.Hidden P.view m)
      (hr : runSection ms (f.shared, r) = some (g.shared, r'))

/-- The states agree, apart from the section under way. -/
structure Matches (P : LockProg σ ν κ ρ A) (G : σ → Prop) (L : κ → Prop) (f : Locked σ κ ρ ι)
    (g : Atomic σ κ ι) : Prop where
  shared : G f.shared
  ctl : ∀ i, L (f.ctl i)
  view : P.view f.shared = P.view g.shared
  other : ∀ j, f.holder.map Prod.fst ≠ some j → g.ctl j = f.ctl j
  free : f.holder = none → g.shared = f.shared
  inside : ∀ i r ms, f.holder = some (i, r, ms) → (∀ m ∈ ms, Micro.Keeps G m) ∧ P.Inside i r ms f g

/-- Without a section under way, the states agree. -/
theorem Matches.eq {f : Locked σ κ ρ ι} {g : Atomic σ κ ι} (h : P.Matches G L f g)
    (hf : f.holder = none) : g.shared = f.shared ∧ g.ctl = f.ctl :=
  ⟨h.free hf, funext fun j => h.other j (by simp [hf])⟩

/-- A thread is where it is, or it has left its section already. -/
theorem Matches.ctl_or {f : Locked σ κ ρ ι} {g : Atomic σ κ ι} (h : P.Matches G L f g) (j : ι) :
    g.ctl j = f.ctl j ∨ ∃ r, g.ctl j = P.leave (f.ctl j) r := by
  by_cases hj : f.holder.map Prod.fst = some j
  · obtain ⟨⟨i, r, ms⟩, hf, rfl⟩ := Option.map_eq_some_iff.1 hj
    cases (h.inside i r ms hf).2 with
    | before _ hc => exact .inl hc
    | after hc => exact .inr ⟨_, hc⟩
  · exact .inl (h.other j hj)

/-- The first states match. -/
theorem Matches.start {s : σ} {ctl : ι → κ} (hG : G s) (hL : ∀ i, L (ctl i)) :
    P.Matches G L (⟨s, ctl, none⟩ : Locked σ κ ρ ι) ⟨s, ctl⟩ :=
  ⟨hG, hL, rfl, fun _ _ => rfl, fun _ => rfl, by simp⟩

variable [DecidableEq ι]

theorem ctl_update {ctl : ι → κ} {i : ι} {c : κ} (h : ∀ i, L (ctl i)) (hc : L c) (j : ι) :
    L (Function.update ctl i c j) := by
  by_cases hj : j = i
  · subst hj; simpa using hc
  · simpa [hj] using h j

theorem Matches.outside {f f' : Locked σ κ ρ ι} {g : Atomic σ κ ι} {i : ι} {a : A}
    (h : P.Sound G L) (hm : P.Matches G L f g) (hs : P.lockedStep f (.outside i a) = some f') :
    ∃ g', P.atomicStep g (.outside i a) = some g' ∧ P.Matches G L f' g' := by
  simp only [lockedStep] at hs
  split_ifs at hs with hi
  obtain ⟨c, hc, rfl⟩ := Option.map_eq_some_iff.1 hs
  refine ⟨{ g with ctl := Function.update g.ctl i c }, ?_, hm.shared, ?_, hm.view, ?_, hm.free, ?_⟩
  · rw [atomicStep, ← hm.view, hm.other i hi, hc]; rfl
  · exact ctl_update hm.ctl (h.outside _ _ _ _ hm.shared (hm.ctl i) hc)
  · intro j hj
    by_cases hji : j = i
    · subst hji; simp
    · simpa [hji] using hm.other j hj
  · intro j r ms hj
    have hji : j ≠ i := by
      rintro rfl
      exact hi (by simp only at hj; rw [hj]; rfl)
    obtain ⟨hk, hin⟩ := hm.inside j r ms hj
    refine ⟨hk, ?_⟩
    cases hin with
    | before hb hc hms hr =>
      exact .before (by simpa [hji] using hb) (by simpa [hji] using hc) hms hr
    | after hc hms hr => exact .after (by simpa [hji] using hc) hms hr

theorem Matches.lock {f f' : Locked σ κ ρ ι} {g : Atomic σ κ ι} {i : ι}
    (h : P.Sound G L) (hm : P.Matches G L f g) (hs : P.lockedStep f (.lock i) = some f') :
    P.Matches G L f' g := by
  simp only [lockedStep] at hs
  split_ifs at hs with hf
  obtain ⟨ms, hms, rfl⟩ := Option.map_eq_some_iff.1 hs
  obtain ⟨hshared, hctl⟩ := hm.eq (by simpa using hf)
  refine ⟨hm.shared, hm.ctl, hm.view, fun j _ => congrFun hctl j, by simp, ?_⟩
  rintro j r ms' ⟨⟩
  refine ⟨h.keeps _ _ (hm.ctl i) hms, .before hms (congrFun hctl i) (h.once _ _ (hm.ctl i) hms) ?_⟩
  rw [hshared]

/-- A step inside a section: the one that changes the view stands for the whole
    section. -/
theorem Matches.micro {f f' : Locked σ κ ρ ι} {g : Atomic σ κ ι} {i : ι}
    (hm : P.Matches G L f g) (hs : P.lockedStep f (.micro i) = some f') :
    P.Matches G L f' g ∨ ∃ g', P.atomicStep g (.whole i) = some g' ∧ P.Matches G L f' g' := by
  simp only [lockedStep] at hs
  split at hs
  swap
  · cases hs
  next j r m ms hj =>
    split_ifs at hs with hji
    subst hji
    obtain ⟨s, hstep, rfl⟩ := Option.map_eq_some_iff.1 hs
    obtain ⟨hk, hin⟩ := hm.inside j r _ hj
    obtain ⟨s', hs', hG⟩ := hk m List.mem_cons_self (f.shared, r) hm.shared
    obtain rfl : s' = s := by rw [hs'] at hstep; exact Option.some.inj hstep
    have hrest : ∀ m ∈ ms, Micro.Keeps G m := fun m hm => hk m (List.mem_cons_of_mem _ hm)
    have hother : ∀ k, k ≠ j → g.ctl k = f.ctl k :=
      fun k hkj => hm.other k (by simp [hj, Ne.symm hkj])
    have hrun : runSection (m :: ms) (f.shared, r) = runSection ms s' := by
      rw [runSection, hs']; rfl
    -- a hidden step: the section stays where it is in `g`
    have hstay (hh : Micro.Hidden P.view m) (hin' : P.Inside j s'.2 ms
        { f with shared := s'.1, holder := some (j, s'.2, ms) } g) :
        P.Matches G L { f with shared := s'.1, holder := some (j, s'.2, ms) } g := by
      refine ⟨hG, hm.ctl, (hh _ _ hs').trans hm.view, ?_, by simp, ?_⟩
      · intro k hkj
        exact hother k fun h => hkj (by simp [h])
      · rintro k r' ms' ⟨⟩
        exact ⟨hrest, hin'⟩
    cases hin with
    | after hc hms hr =>
      rw [hrun] at hr
      refine .inl (hstay (hms m List.mem_cons_self) (.after hc ?_ hr))
      exact fun m hm => hms m (List.mem_cons_of_mem _ hm)
    | before hb hc hms hr =>
      rw [hrun] at hr
      cases hms with
      | hidden hh hms => exact .inl (hstay hh (.before hb hc hms hr))
      | publish hms =>
        -- the rest of the section is hidden and can be completed
        obtain ⟨t, ht, -⟩ := runSection_keeps hrest hG
        refine .inr ⟨⟨t.1, Function.update g.ctl j (P.leave (g.ctl j) t.2)⟩, ?_, hG, hm.ctl, ?_, ?_,
          by simp, ?_⟩
        · rw [atomicStep, hc, hb, Option.bind_some, ← hr, ht]; rfl
        · exact (runSection_hidden hms ht).symm
        · intro k hkj
          have hne : k ≠ j := fun h => hkj (by simp [h])
          simp only [hother k hne, Function.update_of_ne hne]
        · rintro k r' ms' ⟨⟩
          exact ⟨hrest, .after (by simp [hc]) hms ht⟩

/-- A section that never changed the view takes place when it is left. -/
theorem Matches.unlock {f f' : Locked σ κ ρ ι} {g : Atomic σ κ ι} {i : ι} (h : P.Sound G L)
    (hm : P.Matches G L f g) (hs : P.lockedStep f (.unlock i) = some f') :
    P.Matches G L f' g ∨ ∃ g', P.atomicStep g (.whole i) = some g' ∧ P.Matches G L f' g' := by
  simp only [lockedStep] at hs
  split at hs
  swap
  · cases hs
  next j r hj =>
    split_ifs at hs with hji
    subst hji
    cases hs
    have hctl := ctl_update hm.ctl (h.leave _ r (hm.ctl j)) (i := j)
    have hother : ∀ k, k ≠ j → g.ctl k = f.ctl k :=
      fun k hkj => hm.other k (by simp [hj, Ne.symm hkj])
    cases (hm.inside j r _ hj).2 with
    | after hc hms hr =>
      simp only [runSection, Option.some.injEq, Prod.mk.injEq] at hr
      obtain ⟨hshared, rfl⟩ := hr
      refine .inl ⟨hm.shared, hctl, hm.view, ?_, fun _ => hshared.symm, by simp⟩
      intro k _
      by_cases hkj : k = j
      · subst hkj; simpa using hc
      · simpa [hkj] using hother k hkj
    | before hb hc hms hr =>
      refine .inr ⟨⟨f.shared, Function.update g.ctl j (P.leave (f.ctl j) r)⟩, ?_, hm.shared, hctl,
        rfl, ?_, fun _ => rfl, by simp⟩
      · rw [atomicStep, hc, hb, Option.bind_some, ← hr]; rfl
      · intro k _
        by_cases hkj : k = j
        · subst hkj; simp
        · simpa [hkj] using hother k hkj

/-- A guard for the steps outside of the sections. -/
def Guard (O : Atomic σ κ ι → ι → A → Prop) (g : Atomic σ κ ι) : AtomicAct A ι → Prop
  | .outside i a => O g i a
  | .whole _ => True

/-- **Sections are atomic**: a run of single steps is a run of whole sections,
    and what allows the steps outside of the sections in matching states allows
    them there. -/
theorem locked_atomic {F : Locked σ κ ρ ι → SectionAct A ι → Prop} {O : Atomic σ κ ι → ι → A → Prop}
    (h : P.Sound G L)
    (hO : ∀ f g i a, P.Matches G L f g → F f (.outside i a) → O g i a)
    {as : List (SectionAct A ι)} {f f' : Locked σ κ ρ ι} {g : Atomic σ κ ι} (hm : P.Matches G L f g)
    (hF : P.lockedMachine.Along F f as) (hr : P.lockedMachine.run f as = some f') :
    ∃ bs g', Linearizes as bs ∧ P.atomicMachine.run g bs = some g' ∧
      P.atomicMachine.Along (Guard O) g bs ∧ P.Matches G L f' g' := by
  induction as generalizing f g with
  | nil => cases hr; exact ⟨[], g, .nil, rfl, trivial, hm⟩
  | cons a as ih =>
    obtain ⟨f₁, hs, hr⟩ := Machine.run_cons.1 hr
    have hF₁ := hF.2 f₁ hs
    have hstay (hb : Emits a []) (hm₁ : P.Matches G L f₁ g) : ∃ bs g',
        Linearizes (a :: as) bs ∧ P.atomicMachine.run g bs = some g' ∧
          P.atomicMachine.Along (Guard O) g bs ∧ P.Matches G L f' g' := by
      obtain ⟨bs, g', hl, hrun, hgo, hm'⟩ := ih hm₁ hF₁ hr
      exact ⟨bs, g', .cons hb hl, hrun, hgo, hm'⟩
    have hgo {b : AtomicAct A ι} {g₁ : Atomic σ κ ι} (hb : Emits a [b]) (hgu : Guard O g b)
        (hg : P.atomicStep g b = some g₁) (hm₁ : P.Matches G L f₁ g₁) : ∃ bs g',
        Linearizes (a :: as) bs ∧ P.atomicMachine.run g bs = some g' ∧
          P.atomicMachine.Along (Guard O) g bs ∧ P.Matches G L f' g' := by
      obtain ⟨bs, g', hl, hrun, hgo, hm'⟩ := ih hm₁ hF₁ hr
      exact ⟨b :: bs, g', .cons hb hl, Machine.run_cons.2 ⟨g₁, hg, hrun⟩,
        Machine.along_cons hgu hg hgo, hm'⟩
    cases a with
    | outside i a =>
      obtain ⟨g₁, hg, hm₁⟩ := hm.outside h hs
      exact hgo (.outside i a) (hO f g i a hm hF.1) hg hm₁
    | lock i => exact hstay (.lock i) (hm.lock h hs)
    | micro i =>
      rcases hm.micro hs with hm₁ | ⟨g₁, hg, hm₁⟩
      · exact hstay (.inside i) hm₁
      · exact hgo (.publish i) trivial hg hm₁
    | unlock i =>
      rcases hm.unlock h hs with hm₁ | ⟨g₁, hg, hm₁⟩
      · exact hstay (.unlock i) hm₁
      · exact hgo (.leave i) trivial hg hm₁

end LockProg

end TaskSch
