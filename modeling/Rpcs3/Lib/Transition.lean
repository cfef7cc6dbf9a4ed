import Mathlib.Logic.Relation

/-! Labelled transition systems. A system is a step relation between states
that carries a label; a run is a finite chain of steps, and a state is
reachable when some run leads to it from an initial state. The induction rule
`Reachable.invariant` turns a one-step preservation lemma into a property of
every reachable state. -/
namespace Transition

variable {σ α : Type*}

/-- A finite run of `step` from one state to another through a list of labels. -/
inductive Run (step : σ → α → σ → Prop) : σ → List α → σ → Prop where
  | refl (s : σ) : Run step s [] s
  | cons {s t u : σ} {a : α} {as : List α} :
      step s a t → Run step t as u → Run step s (a :: as) u

/-- A state that some run reaches from a state satisfying `init`. -/
def Reachable (init : σ → Prop) (step : σ → α → σ → Prop) (s : σ) : Prop :=
  ∃ s₀ as, init s₀ ∧ Run step s₀ as s

/-- `inv` holds after every step that starts in a state where it holds. -/
def Preserved (step : σ → α → σ → Prop) (inv : σ → Prop) : Prop :=
  ∀ s a t, inv s → step s a t → inv t

variable {step : σ → α → σ → Prop} {init inv : σ → Prop}

theorem Run.single {s t : σ} {a : α} (h : step s a t) : Run step s [a] t :=
  .cons h (.refl t)

theorem Run.append {s t u : σ} {as bs : List α} (h₁ : Run step s as t)
    (h₂ : Run step t bs u) : Run step s (as ++ bs) u := by
  induction h₁ with
  | refl => exact h₂
  | cons hs _ ih => exact .cons hs (ih h₂)

/-- A run through `as ++ bs` passes through a state where `as` ends. -/
theorem Run.split {s u : σ} {as bs : List α} (h : Run step s (as ++ bs) u) :
    ∃ t, Run step s as t ∧ Run step t bs u := by
  induction as generalizing s with
  | nil => exact ⟨s, .refl s, h⟩
  | cons a as ih =>
    rw [List.cons_append] at h
    cases h with
    | cons hs hr =>
      obtain ⟨t, h₁, h₂⟩ := ih hr
      exact ⟨t, .cons hs h₁, h₂⟩

theorem Run.of_single {s t : σ} {a : α} (h : Run step s [a] t) : step s a t := by
  cases h with
  | cons hs hr =>
    cases hr
    exact hs

theorem Run.invariant (hp : Preserved step inv) {s t : σ} {as : List α}
    (h : Run step s as t) (hs : inv s) : inv t := by
  induction h with
  | refl => exact hs
  | cons hst _ ih => exact ih (hp _ _ _ hs hst)

/-- A property that every step with a label satisfying `good` keeps holds at
the end of a run whose labels all satisfy `good`. -/
theorem Run.preserves {P : σ → Prop} {good : α → Prop}
    (hp : ∀ s a t, good a → P s → step s a t → P t) {s t : σ} {as : List α}
    (h : Run step s as t) (hg : ∀ a ∈ as, good a) (hs : P s) : P t := by
  induction h with
  | refl => exact hs
  | cons hst _ ih =>
    exact ih (fun a ha => hg a (List.mem_cons_of_mem _ ha))
      (hp _ _ _ (hg _ List.mem_cons_self) hs hst)

/-- Labels that can fire only while `flag` is down and raise it, where no
step lowers it, fire at most once along a run: the count of such labels plus
the flag at the start is at most the flag at the end. -/
theorem Run.count_add_flag_le (hp : Preserved step inv) {flag : σ → Bool} {good : α → Bool}
    (hkeep : ∀ s a t, inv s → step s a t → flag s = true → flag t = true)
    (hfire : ∀ s a t, inv s → step s a t → good a = true → flag s = false ∧ flag t = true)
    {s t : σ} {as : List α} (h : Run step s as t) (hs : inv s) :
    (as.filter good).length + (if flag s then 1 else 0) ≤ (if flag t then 1 else 0) := by
  induction h with
  | refl => simp
  | @cons s₁ t₁ u a as hst _ ih =>
    have ih' := ih (hp _ _ _ hs hst)
    by_cases hg : good a = true
    · obtain ⟨h1, h2⟩ := hfire _ _ _ hs hst hg
      simp only [List.filter_cons, hg, if_true, List.length_cons, h1, h2, Bool.false_eq_true,
        if_false] at ih' ⊢
      omega
    · have hle : (if flag s₁ then 1 else 0) ≤ (if flag t₁ then 1 else 0) := by
        cases hf : flag s₁
        · simp
        · simp [hkeep _ _ _ hs hst hf]
      simp only [List.filter_cons, hg] at ih' ⊢
      simp only [Bool.false_eq_true, if_false]
      omega

/-- The same count along a run from a state of the invariant: at most one. -/
theorem Run.count_le_one (hp : Preserved step inv) {flag : σ → Bool} {good : α → Bool}
    (hkeep : ∀ s a t, inv s → step s a t → flag s = true → flag t = true)
    (hfire : ∀ s a t, inv s → step s a t → good a = true → flag s = false ∧ flag t = true)
    {s t : σ} {as : List α} (h : Run step s as t) (hs : inv s) :
    (as.filter good).length ≤ 1 := by
  have := h.count_add_flag_le hp hkeep hfire hs
  split at this <;> split at this <;> omega

/-- A quantity that every step raises by one exactly when its label satisfies
`good`, and otherwise leaves alone, counts the `good` labels of a run. -/
theorem Run.count_eq (hp : Preserved step inv) {f : σ → Nat} {good : α → Bool}
    (hf : ∀ s a t, inv s → step s a t → f t = f s + if good a then 1 else 0)
    {s t : σ} {as : List α} (h : Run step s as t) (hs : inv s) :
    f t = f s + (as.filter good).length := by
  induction h with
  | refl => simp
  | @cons s₁ t₁ u a as hst _ ih =>
    have ih' := ih (hp _ _ _ hs hst)
    have hf' := hf _ _ _ hs hst
    cases hg : good a
    · simp only [hg, Bool.false_eq_true, if_false] at hf'
      simp [hg, ih', hf']
    · simp only [hg, if_true] at hf'
      simp [hg, ih', hf']
      omega

/-- A run whose labels all satisfy `good` is a run of the step relation
restricted to such labels. -/
theorem Run.restrict {good : α → Prop} {s t : σ} {as : List α} (h : Run step s as t)
    (hg : ∀ a ∈ as, good a) : Run (fun s a t => good a ∧ step s a t) s as t := by
  induction h with
  | refl => exact .refl _
  | cons hst _ ih =>
    exact .cons ⟨hg _ List.mem_cons_self, hst⟩ (ih fun a ha => hg a (List.mem_cons_of_mem _ ha))

theorem Reachable.of_init {s : σ} (h : init s) : Reachable init step s :=
  ⟨s, [], h, .refl s⟩

theorem Reachable.next {s t : σ} {a : α} (h : Reachable init step s)
    (hs : step s a t) : Reachable init step t := by
  obtain ⟨s₀, as, h₀, hr⟩ := h
  exact ⟨s₀, as ++ [a], h₀, hr.append (.single hs)⟩

theorem Reachable.run {s t : σ} {as : List α} (h : Reachable init step s)
    (hr : Run step s as t) : Reachable init step t := by
  obtain ⟨s₀, bs, h₀, hb⟩ := h
  exact ⟨s₀, bs ++ as, h₀, hb.append hr⟩

/-- The invariant rule: what holds initially and is preserved holds everywhere. -/
theorem Reachable.invariant (h₀ : ∀ s, init s → inv s) (hp : Preserved step inv)
    {s : σ} (h : Reachable init step s) : inv s := by
  obtain ⟨s₀, as, hi, hr⟩ := h
  exact hr.invariant hp (h₀ s₀ hi)

/-- A property of single steps holds along every run once it holds of the
steps taken from states that satisfy an invariant. -/
theorem Reachable.step_property {P : σ → α → σ → Prop} (h₀ : ∀ s, init s → inv s)
    (hp : Preserved step inv) (hP : ∀ s a t, inv s → step s a t → P s a t)
    {s t : σ} {a : α} (h : Reachable init step s) (hs : step s a t) : P s a t :=
  hP s a t (h.invariant h₀ hp) hs

end Transition
