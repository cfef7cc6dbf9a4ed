import Mathlib

/-! A counted loop `for (i = s; i < s + n; i++) x = f(x, i);` as a left fold over
`List.range' s n`, and its invariant rule: a property of the state indexed by the next value of
`i` that holds at `s` and is kept by every iteration holds at `s + n`.

A copy loop `dst[d] = src[s]` over a list of index pairs `(d, s)`: where no two pairs write the
same place, it leaves `src s` at each `d` and every other place as it was. -/
namespace Loop

variable {σ : Type*}

theorem foldl_range'_invariant (f : σ → ℕ → σ) (P : ℕ → σ → Prop) {s : ℕ} {x : σ} (h₀ : P s x)
    {n : ℕ} (hstep : ∀ i y, s ≤ i → i < s + n → P i y → P (i + 1) (f y i)) :
    P (s + n) ((List.range' s n).foldl f x) := by
  induction n with
  | zero => exact h₀
  | succ n ih =>
    rw [List.range'_concat, List.foldl_append, List.foldl_cons, List.foldl_nil, Nat.one_mul,
      ← Nat.add_assoc]
    apply hstep _ _ (Nat.le_add_right s n) (by omega)
    exact ih fun i y hi hin => hstep i y hi (by omega)

/-- Two nested counted loops `for y < H: for x < W` are one loop over `y * W + x < H * W`. -/
theorem flatMap_range_map {β : Type*} (f : ℕ → β) (H W : ℕ) :
    (List.range H).flatMap (fun y => (List.range W).map fun x => f (y * W + x)) = (List.range (H * W)).map f := by
  induction H with
  | zero => simp
  | succ H ih =>
    rw [List.range_succ, List.flatMap_append, ih, Nat.succ_mul, List.range_add, List.map_append, List.map_map,
      List.flatMap_singleton]
    rfl

/-- A loop of calls that all succeed: `mapM` in `Option` gives the list of their results. -/
theorem mapM_eq_some {β γ : Type*} {g : β → Option γ} {h : β → γ} (l : List β)
    (hg : ∀ k ∈ l, g k = some (h k)) : l.mapM g = some (l.map h) := by
  induction l with
  | nil => rfl
  | cons a l ih =>
    rw [List.mapM_cons, hg a List.mem_cons_self, ih fun k hk => hg k (List.mem_cons_of_mem _ hk)]
    rfl

variable {α : Type*} {src dst : ℕ → α} {pairs : List (ℕ × ℕ)} {i j : ℕ}

/-- `for each (d, s) in pairs: dst[d] = src[s];`, in order. -/
def copy (src : ℕ → α) (pairs : List (ℕ × ℕ)) (dst : ℕ → α) : ℕ → α :=
  pairs.foldl (fun dst p => Function.update dst p.1 (src p.2)) dst

@[simp] theorem copy_nil : copy src [] dst = dst := rfl

theorem copy_cons (p : ℕ × ℕ) : copy src (p :: pairs) dst = copy src pairs (Function.update dst p.1 (src p.2)) :=
  rfl

theorem copy_of_notMem (h : i ∉ pairs.map Prod.fst) : copy src pairs dst i = dst i := by
  induction pairs generalizing dst with
  | nil => rfl
  | cons p pairs ih =>
    rw [List.map_cons, List.mem_cons, not_or] at h
    rw [copy_cons, ih h.2, Function.update_of_ne h.1]

theorem copy_of_mem (hnd : (pairs.map Prod.fst).Nodup) (h : (i, j) ∈ pairs) : copy src pairs dst i = src j := by
  induction pairs generalizing dst with
  | nil => simp at h
  | cons p pairs ih =>
    rw [List.map_cons, List.nodup_cons] at hnd
    rw [copy_cons]
    rcases List.mem_cons.mp h with rfl | h
    · -- the first pair writes `i`, and no later pair writes it again
      rw [copy_of_notMem hnd.1, Function.update_self]
    · exact ih hnd.2 h

/-- A loop over the items `l` whose item `i` makes the moves `g i` writes no place twice when no
item writes a place twice and no two items write the same place. -/
theorem nodup_map_fst_flatMap {ι : Type*} {l : List ι} (hl : l.Nodup) {g : ι → List (ℕ × ℕ)}
    (hg : ∀ i ∈ l, ((g i).map Prod.fst).Nodup)
    (hdisj : ∀ i ∈ l, ∀ j ∈ l, ∀ d, d ∈ (g i).map Prod.fst → d ∈ (g j).map Prod.fst → i = j) :
    ((l.flatMap g).map Prod.fst).Nodup := by
  rw [List.map_flatMap]
  refine List.nodup_flatMap.2 ⟨hg, hl.pairwise_of_forall_ne fun i hi j hj hij => ?_⟩
  exact fun d hdi hdj => hij (hdisj i hi j hj d hdi hdj)

end Loop
