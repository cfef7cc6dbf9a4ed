import Mathlib

/-! Searching a list for a pattern from a position on, as `std::string_view::find(pattern, pos)`
does: the least position at or after `pos` where the pattern starts, if any. The search in a
suffix is the search in the whole list, shifted (`findFrom_drop`), and the part before a first
occurrence holds no occurrence (`not_infix_take`). -/
namespace ListSearch

variable {α : Type*} [DecidableEq α]

/-- `find(pat, i)`: the least `k ≥ i` up to the end at which `pat` starts. -/
def findFrom (s pat : List α) (i : ℕ) : Option ℕ :=
  (List.range' i (s.length + 1 - i)).find? fun k => pat.isPrefixOf (s.drop k)

variable {s pat : List α} {i k : ℕ}

theorem findFrom_eq_some_iff : findFrom s pat i = some k ↔
    i ≤ k ∧ k ≤ s.length ∧ pat <+: s.drop k ∧ ∀ j, i ≤ j → j < k → ¬ pat <+: s.drop j := by
  unfold findFrom
  rw [List.find?_range'_eq_some, List.mem_range'_1]
  simp only [List.isPrefixOf_iff_prefix, Bool.not_eq_eq_eq_not, Bool.not_true,
    Bool.eq_false_iff, ne_eq]
  constructor
  · rintro ⟨hp, ⟨hi, hk⟩, hmin⟩
    exact ⟨hi, by omega, hp, hmin⟩
  · rintro ⟨hi, hk, hp, hmin⟩
    exact ⟨hp, ⟨hi, by omega⟩, hmin⟩

theorem findFrom_eq_none_iff :
    findFrom s pat i = none ↔ ∀ j, i ≤ j → j ≤ s.length → ¬ pat <+: s.drop j := by
  unfold findFrom
  rw [List.find?_eq_none]
  simp only [List.mem_range'_1, List.isPrefixOf_iff_prefix]
  constructor
  · intro h j hi hj
    exact h j ⟨hi, by omega⟩
  · rintro h j ⟨hi, hj⟩
    exact h j hi (by omega)

/-- An occurrence ends within the list. -/
theorem add_length_le (h : findFrom s pat i = some k) : k + pat.length ≤ s.length := by
  obtain ⟨-, hk, hp, -⟩ := findFrom_eq_some_iff.mp h
  have := hp.length_le
  rw [List.length_drop] at this
  omega

theorem le_of_findFrom (h : findFrom s pat i = some k) : i ≤ k :=
  (findFrom_eq_some_iff.mp h).1

/-- The list around a first occurrence: what comes before it, the pattern, and the rest. -/
theorem eq_append_of_findFrom (h : findFrom s pat i = some k) :
    s.drop k = pat ++ s.drop (k + pat.length) := by
  obtain ⟨-, -, hp, -⟩ := findFrom_eq_some_iff.mp h
  obtain ⟨t, ht⟩ := hp
  rw [← ht, ← List.drop_drop, ← ht, List.drop_left]

/-- Searching a suffix is searching the whole list from where the suffix starts. -/
theorem findFrom_drop (hi : i ≤ s.length) :
    findFrom s pat i = (findFrom (s.drop i) pat 0).map (· + i) := by
  rcases h : findFrom (s.drop i) pat 0 with _ | k
  · rw [Option.map_none, findFrom_eq_none_iff]
    rw [findFrom_eq_none_iff] at h
    intro j hj hjs
    have := h (j - i) (Nat.zero_le _) (by rw [List.length_drop]; omega)
    rwa [List.drop_drop, Nat.add_sub_cancel' hj] at this
  · obtain ⟨-, hk, hp, hmin⟩ := findFrom_eq_some_iff.mp h
    rw [Option.map_some, findFrom_eq_some_iff]
    rw [List.length_drop] at hk
    rw [List.drop_drop] at hp
    refine ⟨by omega, by omega, by rwa [Nat.add_comm], fun j hj hjk => ?_⟩
    have := hmin (j - i) (Nat.zero_le _) (by omega)
    rwa [List.drop_drop, Nat.add_sub_cancel' hj] at this

/-- Before the first occurrence the pattern does not occur, not even in part past it. -/
theorem not_infix_take (hpat : pat ≠ []) (h : findFrom s pat 0 = some k) :
    ¬ pat <:+: s.take k := by
  rintro ⟨u, v, huv⟩
  obtain ⟨-, hk, -, hmin⟩ := findFrom_eq_some_iff.mp h
  have hlen : u.length + pat.length + v.length = k := by
    have := congrArg List.length huv
    simp only [List.length_append, List.length_take] at this
    omega
  apply hmin u.length (Nat.zero_le _) (by have := List.length_pos_iff.mpr hpat; omega)
  refine ⟨v ++ s.drop k, ?_⟩
  conv_rhs => rw [← List.take_append_drop k s]
  rw [List.drop_append_of_le_length (by rw [List.length_take]; omega), ← huv]
  simp

theorem not_infix_of_findFrom_eq_none (h : findFrom s pat 0 = none) : ¬ pat <:+: s := by
  rintro ⟨u, v, huv⟩
  apply findFrom_eq_none_iff.mp h u.length (Nat.zero_le _) (by rw [← huv]; simp)
  exact ⟨v, by rw [← huv]; simp⟩

theorem findFrom_nil (hpat : pat ≠ []) : findFrom [] pat i = none := by
  rw [findFrom_eq_none_iff]
  intro j _ _ hp
  simp only [List.drop_nil, List.prefix_nil] at hp
  exact hpat hp

end ListSearch
