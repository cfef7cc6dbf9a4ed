import Mathlib

/-! A busy flag in a shared word, taken by a compare-and-set from `0` to `1` and given back
by storing `0`: the flag is `0` with no thread holding it, or `1` with exactly one. When a
thread changes its local state, whether the others hold the flag stays as it was, so the
three ways a step can treat the flag (leave it, take it, give it back) are one lemma each. -/
namespace BusyFlag

variable {τ α : Type*}

/-- `flag` is `0` and held by no thread, or `1` and held by exactly one. -/
def Owned (flag : ℕ) (holds : τ → Prop) : Prop :=
  (flag = 0 ∧ ∀ p, ¬holds p) ∨ (flag = 1 ∧ ∃ p, holds p ∧ ∀ q, holds q → q = p)

variable {flag : ℕ} {holds : τ → Prop}

theorem Owned.unique (h : Owned flag holds) {p q : τ} (hp : holds p) (hq : holds q) : p = q := by
  rcases h with ⟨-, hnone⟩ | ⟨-, r, -, hr⟩
  · exact absurd hp (hnone p)
  · rw [hr p hp, hr q hq]

theorem Owned.eq_one (h : Owned flag holds) {p : τ} (hp : holds p) : flag = 1 := by
  rcases h with ⟨-, hnone⟩ | ⟨h1, -⟩
  · exact absurd hp (hnone p)
  · exact h1

theorem Owned.not_holds (h : Owned flag holds) (h0 : flag = 0) (p : τ) : ¬holds p := by
  rcases h with ⟨-, hnone⟩ | ⟨h1, -⟩
  · exact hnone p
  · omega

theorem Owned.le_one (h : Owned flag holds) : flag ≤ 1 := by
  rcases h with ⟨h0, -⟩ | ⟨h1, -⟩ <;> omega

variable [DecidableEq τ] {pc : τ → α} {f : α → Bool} {p : τ} {c : α}

theorem update_iff {q : τ} (hq : q ≠ p) :
    f (Function.update pc p c q) = true ↔ f (pc q) = true := by
  rw [Function.update_of_ne hq]

/-- A thread whose new state holds the flag as its old one did leaves the flag alone. -/
theorem Owned.update (h : Owned flag fun q => f (pc q) = true) (hc : f c = f (pc p)) :
    Owned flag fun q => f (Function.update pc p c q) = true := by
  have hiff : ∀ q, f (Function.update pc p c q) = true ↔ f (pc q) = true := by
    intro q
    by_cases hq : q = p
    · rw [hq, Function.update_self, hc]
    · exact update_iff hq
  simp only [hiff]
  exact h

/-- A thread takes the free flag. -/
theorem Owned.acquire (h : Owned flag fun q => f (pc q) = true) (h0 : flag = 0) (hc : f c = true) :
    Owned 1 fun q => f (Function.update pc p c q) = true := by
  refine .inr ⟨rfl, p, by dsimp only; rw [Function.update_self]; exact hc, ?_⟩
  intro q hq
  by_contra hqp
  rw [update_iff hqp] at hq
  exact h.not_holds h0 q hq

/-- The thread that holds the flag gives it back. -/
theorem Owned.release (h : Owned flag fun q => f (pc q) = true) (hp : f (pc p) = true)
    (hc : f c = false) : Owned 0 fun q => f (Function.update pc p c q) = true := by
  refine .inl ⟨rfl, ?_⟩
  intro q hq
  by_cases hqp : q = p
  · rw [hqp, Function.update_self, hc] at hq
    cases hq
  · rw [update_iff hqp] at hq
    exact hqp (h.unique hq hp)

end BusyFlag
