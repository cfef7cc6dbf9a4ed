import Mathlib

/-! Counting the threads of a finite system by a weight of their local states.
A step of one thread changes a count by that thread's old and new weights only
(`total_update`), and with weights of at most one a count is at most the number
of threads, and at most one less when some thread weighs nothing. -/
namespace Count

open Finset

variable {ι α : Type*} [Fintype ι]

/-- The total weight of the threads' states. -/
def total (g : α → ℕ) (f : ι → α) : ℕ := ∑ i, g (f i)

theorem le_total (g : α → ℕ) (f : ι → α) (i : ι) : g (f i) ≤ total g f :=
  single_le_sum (f := fun j => g (f j)) (fun _ _ => Nat.zero_le _) (mem_univ i)

theorem total_eq_zero_iff {g : α → ℕ} {f : ι → α} : total g f = 0 ↔ ∀ i, g (f i) = 0 := by
  simp [total, sum_eq_zero_iff]

theorem total_congr {g g' : α → ℕ} {f f' : ι → α} (h : ∀ i, g (f i) = g' (f' i)) :
    total g f = total g' f' :=
  sum_congr rfl fun i _ => h i

theorem exists_of_total_pos {g : α → ℕ} {f : ι → α} (h : 0 < total g f) : ∃ i, 0 < g (f i) := by
  obtain ⟨i, -, hi⟩ := sum_pos_iff.mp h
  exact ⟨i, hi⟩

theorem total_add (g₁ g₂ : α → ℕ) (f : ι → α) :
    total (fun a => g₁ a + g₂ a) f = total g₁ f + total g₂ f :=
  sum_add_distrib

theorem total_le_card {g : α → ℕ} (hg : ∀ a, g a ≤ 1) (f : ι → α) : total g f ≤ Fintype.card ι := by
  calc total g f ≤ ∑ _i : ι, 1 := sum_le_sum fun i _ => hg _
    _ = Fintype.card ι := by simp

variable [DecidableEq ι]

/-- The others weigh at most one each. -/
theorem total_sub_add_one_le {g : α → ℕ} (hg : ∀ a, g a ≤ 1) (f : ι → α) (i : ι) :
    total g f - g (f i) + 1 ≤ Fintype.card ι := by
  have hsplit := add_sum_erase univ (fun j => g (f j)) (mem_univ i)
  have hrest : ∑ j ∈ univ.erase i, g (f j) ≤ (univ.erase i).card := by
    calc ∑ j ∈ univ.erase i, g (f j) ≤ ∑ _j ∈ univ.erase i, 1 := sum_le_sum fun j _ => hg _
      _ = (univ.erase i).card := by simp
  have hcard : (univ.erase i).card + 1 = Fintype.card ι := card_erase_add_one (mem_univ i)
  unfold total
  omega

/-- Two threads count apart. -/
theorem add_le_total (g : α → ℕ) (f : ι → α) {i j : ι} (hij : i ≠ j) :
    g (f i) + g (f j) ≤ total g f :=
  calc g (f i) + g (f j) = ∑ k ∈ {i, j}, g (f k) := (sum_pair (f := fun k => g (f k)) hij).symm
    _ ≤ total g f := sum_le_sum_of_subset (subset_univ _)

/-- A write to one thread moves the total by that thread's old and new weights. -/
theorem total_update (g : α → ℕ) (f : ι → α) (i : ι) (a : α) :
    total g (Function.update f i a) + g (f i) = total g f + g a := by
  have hrest : ∑ j ∈ univ.erase i, g (Function.update f i a j) = ∑ j ∈ univ.erase i, g (f j) :=
    sum_congr rfl fun j hj => by rw [Function.update_of_ne (ne_of_mem_erase hj)]
  have h₁ := add_sum_erase univ (fun j => g (Function.update f i a j)) (mem_univ i)
  have h₂ := add_sum_erase univ (fun j => g (f j)) (mem_univ i)
  simp only [Function.update_self] at h₁
  unfold total
  omega

end Count
