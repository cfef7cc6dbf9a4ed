import Mathlib

/-! Picking one element of a list by a linear scan that starts from the head
and replaces its current pick only by a strictly better element. The pick is
always a member of the list, and a non-empty list always yields one. -/
namespace Select

variable {α : Type*}

/-- One step of the scan: keep the current pick unless `y` is strictly better. -/
def keepBetter (better : α → α → Bool) (best y : α) : α :=
  if better y best then y else best

/-- The element the scan holds when it reaches the end of the list. -/
def scanBest (better : α → α → Bool) : List α → Option α
  | [] => none
  | x :: xs => some (xs.foldl (keepBetter better) x)

@[simp] theorem scanBest_nil (better : α → α → Bool) : scanBest better [] = none := rfl

theorem foldl_keepBetter_mem (better : α → α → Bool) (x : α) (xs : List α) :
    xs.foldl (keepBetter better) x ∈ x :: xs := by
  induction xs generalizing x with
  | nil => simp
  | cons y ys ih =>
    rw [List.foldl_cons]
    by_cases hb : better y x
    · rw [show keepBetter better x y = y by simp [keepBetter, hb]]
      exact List.mem_cons_of_mem _ (ih y)
    · rw [show keepBetter better x y = x by simp [keepBetter, hb]]
      rcases List.mem_cons.mp (ih x) with h | h
      · rw [h]
        exact List.mem_cons_self
      · exact List.mem_cons_of_mem _ (List.mem_cons_of_mem _ h)

theorem scanBest_mem {better : α → α → Bool} {l : List α} {x : α}
    (h : scanBest better l = some x) : x ∈ l := by
  cases l with
  | nil => cases h
  | cons y ys =>
    simp only [scanBest, Option.some.injEq] at h
    exact h ▸ foldl_keepBetter_mem better y ys

theorem scanBest_isSome (better : α → α → Bool) {l : List α} (hl : l ≠ []) :
    ∃ x, scanBest better l = some x := by
  cases l with
  | nil => exact absurd rfl hl
  | cons y ys => exact ⟨_, rfl⟩

/-! When `better` compares by a key into a linear order, the scan ends on the first element of
least key. -/

section Key

variable {β : Type*} [LinearOrder β] {better : α → α → Bool} {key : α → β}

/-- The scan from `best` over `xs` either keeps `best`, which nothing in `xs` undercuts, or ends
on an element of `xs` below `best` and below everything before it, and not above anything after
it. -/
theorem foldl_keepBetter_cases (hkey : ∀ a b, better a b = true ↔ key a < key b) (best : α)
    (xs : List α) {r : α} (hr : xs.foldl (keepBetter better) best = r) :
    (r = best ∧ ∀ y ∈ xs, key best ≤ key y) ∨
      ∃ pre post, xs = pre ++ r :: post ∧ key r < key best ∧ (∀ y ∈ pre, key r < key y) ∧
        ∀ y ∈ post, key r ≤ key y := by
  induction xs generalizing best with
  | nil => exact .inl ⟨hr.symm, by simp⟩
  | cons y ys ih =>
    rw [List.foldl_cons] at hr
    by_cases hb : key y < key best
    · rw [show keepBetter better best y = y by simp [keepBetter, (hkey y best).2 hb]] at hr
      rcases ih y hr with ⟨rfl, hle⟩ | ⟨pre, post, rfl, hlt, hpre, hpost⟩
      · exact .inr ⟨[], ys, rfl, hb, by simp, hle⟩
      · exact .inr ⟨y :: pre, post, rfl, hlt.trans hb, List.forall_mem_cons.2 ⟨hlt, hpre⟩, hpost⟩
    · have hle : key best ≤ key y := not_lt.1 hb
      rw [show keepBetter better best y = best by
        simp [keepBetter, (hkey y best).not.2 hb]] at hr
      rcases ih best hr with ⟨rfl, hle'⟩ | ⟨pre, post, rfl, hlt, hpre, hpost⟩
      · exact .inl ⟨rfl, List.forall_mem_cons.2 ⟨hle, hle'⟩⟩
      · exact .inr ⟨y :: pre, post, rfl, hlt,
          List.forall_mem_cons.2 ⟨hlt.trans_le hle, hpre⟩, hpost⟩

/-- The pick splits the list at its first element of least key. -/
theorem scanBest_first_least (hkey : ∀ a b, better a b = true ↔ key a < key b) {l : List α}
    {x : α} (h : scanBest better l = some x) :
    ∃ pre post, l = pre ++ x :: post ∧ (∀ y ∈ pre, key x < key y) ∧ ∀ y ∈ post, key x ≤ key y := by
  cases l with
  | nil => cases h
  | cons a xs =>
    rcases foldl_keepBetter_cases hkey a xs (Option.some.inj h) with
      ⟨rfl, hle⟩ | ⟨pre, post, rfl, hlt, hpre, hpost⟩
    · exact ⟨[], xs, rfl, by simp, hle⟩
    · exact ⟨a :: pre, post, rfl, List.forall_mem_cons.2 ⟨hlt, hpre⟩, hpost⟩

theorem scanBest_le (hkey : ∀ a b, better a b = true ↔ key a < key b) {l : List α} {x : α}
    (h : scanBest better l = some x) : ∀ y ∈ l, key x ≤ key y := by
  obtain ⟨pre, post, rfl, hpre, hpost⟩ := scanBest_first_least hkey h
  intro y hy
  rcases List.mem_append.1 hy with hy | hy
  · exact (hpre y hy).le
  · rcases List.mem_cons.1 hy with rfl | hy
    · exact le_rfl
    · exact hpost y hy

end Key

end Select
