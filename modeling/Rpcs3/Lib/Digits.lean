import Mathlib

/-! Fixed-width big-endian digits: `digitsBE b k v` are the `k` lowest digits of `v` in base
`b`, most significant first, as a loop that takes `v % b` for the last place and goes on with
`v / b` writes them, and `ofDigitsBE b` reads such digits back. Reading the digits gives `v`
modulo `b ^ k` (`ofDigitsBE_digitsBE`), and digits below `b` are those of what they read as
(`digitsBE_ofDigitsBE`). -/
namespace Digits

/-- The `k` lowest digits of `v` in base `b`, most significant first. -/
def digitsBE (b : ℕ) : ℕ → ℕ → List ℕ
  | 0, _ => []
  | k + 1, v => digitsBE b k (v / b) ++ [v % b]

/-- The value of big-endian digits in base `b`. -/
def ofDigitsBE (b : ℕ) (l : List ℕ) : ℕ := l.foldl (fun v d => v * b + d) 0

variable {b k v : ℕ}

@[simp] theorem length_digitsBE : (digitsBE b k v).length = k := by
  induction k generalizing v with
  | zero => rfl
  | succ k ih => simp [digitsBE, ih]

theorem digitsBE_lt (hb : 0 < b) {d : ℕ} (hd : d ∈ digitsBE b k v) : d < b := by
  induction k generalizing v with
  | zero => simp [digitsBE] at hd
  | succ k ih =>
    rw [digitsBE, List.mem_append, List.mem_singleton] at hd
    rcases hd with hd | rfl
    · exact ih hd
    · exact Nat.mod_lt _ hb

/-- Place `j` holds the digit of weight `b ^ (k - 1 - j)`. -/
theorem getD_digitsBE {j : ℕ} (hj : j < k) :
    (digitsBE b k v).getD j 0 = v / b ^ (k - 1 - j) % b := by
  induction k generalizing v with
  | zero => omega
  | succ k ih =>
    rw [digitsBE]
    rcases Nat.lt_or_ge j k with h | h
    · rw [List.getD_append _ _ _ _ (by simpa using h), ih h, Nat.div_div_eq_div_mul, ← pow_succ',
        show k - 1 - j + 1 = k + 1 - 1 - j by omega]
    · obtain rfl : j = k := by omega
      rw [List.getD_append_right _ _ _ _ (by simp)]
      simp

@[simp] theorem ofDigitsBE_nil : ofDigitsBE b [] = 0 := rfl

theorem ofDigitsBE_append (l : List ℕ) (d : ℕ) :
    ofDigitsBE b (l ++ [d]) = ofDigitsBE b l * b + d := by
  simp [ofDigitsBE, List.foldl_append]

theorem ofDigitsBE_digitsBE : ofDigitsBE b (digitsBE b k v) = v % b ^ k := by
  induction k generalizing v with
  | zero => simp [digitsBE, Nat.mod_one]
  | succ k ih =>
    rw [digitsBE, ofDigitsBE_append, ih, pow_succ', Nat.mod_mul]
    ring

theorem ofDigitsBE_lt {l : List ℕ} (hl : ∀ d ∈ l, d < b) : ofDigitsBE b l < b ^ l.length := by
  induction l using List.reverseRecOn with
  | nil => simp
  | append_singleton l d ih =>
    have hd := hl d (by simp)
    have := ih fun e he => hl e (by simp [he])
    rw [ofDigitsBE_append, List.length_append, List.length_singleton, pow_succ]
    nlinarith

theorem digitsBE_ofDigitsBE {l : List ℕ} (hl : ∀ d ∈ l, d < b) :
    digitsBE b l.length (ofDigitsBE b l) = l := by
  induction l using List.reverseRecOn with
  | nil => rfl
  | append_singleton l d ih =>
    have hd := hl d (by simp)
    have hb : 0 < b := by omega
    have hdiv : (ofDigitsBE b l * b + d) / b = ofDigitsBE b l := by
      rw [Nat.mul_comm, Nat.mul_add_div hb, Nat.div_eq_of_lt hd, Nat.add_zero]
    have hmod : (ofDigitsBE b l * b + d) % b = d := by
      rw [Nat.mul_comm, Nat.mul_add_mod, Nat.mod_eq_of_lt hd]
    rw [List.length_append, List.length_singleton, digitsBE, ofDigitsBE_append, hdiv, hmod,
      ih fun e he => hl e (by simp [he])]

end Digits
