import Mathlib

/-! Paths as a file system reads them. A path is cut at the separator into
segments, empty ones dropped, and walked from the root: `.` stays, `..` goes up one
level (the root is its own parent), any other segment goes down. A path lies beneath
a directory when its walk starts with the directory's.

A walk over segments that are neither `.` nor `..` only goes down
(`walk_of_plain`), so it stays beneath where it started; each `..` undoes one level
(`walk_dotdot_append`), so enough of them leave any directory. -/
namespace Path

section Walk

variable {σ : Type*} [DecidableEq σ] (dot dotdot : σ)

/-- One segment of the walk. -/
def stepInto (st : List σ) (x : σ) : List σ :=
  if x = dot then st else if x = dotdot then st.dropLast else st ++ [x]

/-- The walk from `st` over the segments `xs`. -/
def walk (st xs : List σ) : List σ := xs.foldl (stepInto dot dotdot) st

/-- A segment that is neither `.` nor `..`. -/
def Plain (x : σ) : Prop := x ≠ dot ∧ x ≠ dotdot

variable {dot dotdot}

@[simp] theorem walk_nil (st : List σ) : walk dot dotdot st [] = st := rfl

theorem walk_cons (st : List σ) (x : σ) (xs : List σ) :
    walk dot dotdot st (x :: xs) = walk dot dotdot (stepInto dot dotdot st x) xs := rfl

theorem walk_append (st xs ys : List σ) :
    walk dot dotdot st (xs ++ ys) = walk dot dotdot (walk dot dotdot st xs) ys :=
  List.foldl_append

/-- Plain segments go down one level each. -/
theorem walk_of_plain {xs : List σ} (hxs : ∀ x ∈ xs, Plain dot dotdot x) (st : List σ) :
    walk dot dotdot st xs = st ++ xs := by
  induction xs generalizing st with
  | nil => simp
  | cons x xs ih =>
    obtain ⟨hdot, hdotdot⟩ := hxs x List.mem_cons_self
    rw [walk_cons, stepInto, if_neg hdot, if_neg hdotdot,
      ih (fun y hy => hxs y (List.mem_cons_of_mem x hy))]
    simp

/-- Without `..` the walk never leaves the directory it starts in. -/
theorem prefix_walk {xs : List σ} (hxs : ∀ x ∈ xs, x ≠ dotdot) (st : List σ) :
    st <+: walk dot dotdot st xs := by
  induction xs generalizing st with
  | nil => exact List.prefix_refl st
  | cons x xs ih =>
    have hrest := ih (fun y hy => hxs y (List.mem_cons_of_mem x hy))
    rw [walk_cons]
    unfold stepInto
    split
    · exact hrest st
    · rw [if_neg (hxs x List.mem_cons_self)]
      exact (List.prefix_append st [x]).trans (hrest _)

/-- Each `..` undoes one level. -/
theorem walk_dotdot_append (hne : dotdot ≠ dot) (st : List σ) (k : ℕ) (xs : List σ) :
    walk dot dotdot st (List.replicate k dotdot ++ xs) =
      walk dot dotdot (st.take (st.length - k)) xs := by
  induction k generalizing st with
  | zero => simp
  | succ k ih =>
    rw [List.replicate_succ, List.cons_append, walk_cons, stepInto, if_neg hne, if_pos rfl, ih]
    congr 1
    rw [List.dropLast_eq_take, List.take_take, List.length_take]
    congr 1
    omega

end Walk

section Bytes

variable {α : Type*} [DecidableEq α] (sep : α) (dot dotdot : List α)

/-- The segments of a path: cut at `sep`, the empty ones dropped. -/
def segments (p : List α) : List (List α) := (p.splitOn sep).filter (· ≠ [])

/-- Where a path leads from the root. -/
def resolve (p : List α) : List (List α) := walk dot dotdot [] (segments sep p)

/-- A path beneath a directory: its walk starts with the directory's. -/
def Beneath (dir p : List α) : Prop := resolve sep dot dotdot dir <+: resolve sep dot dotdot p

instance (dir p : List α) : Decidable (Beneath sep dot dotdot dir p) :=
  inferInstanceAs (Decidable (_ <+: _))

variable {sep}

/-- A separator between two paths separates their segments. -/
theorem segments_append_sep (p q : List α) :
    segments sep (p ++ sep :: q) = segments sep p ++ segments sep q := by
  unfold segments List.splitOn
  rw [List.splitOnP_append_cons p q (by simp), List.filter_append]

variable {dot dotdot}

/-- A path continued past a separator by plain segments lies beneath it. -/
theorem beneath_append_of_plain {p q : List α}
    (hq : ∀ x ∈ segments sep q, Plain dot dotdot x) :
    Beneath sep dot dotdot p (p ++ sep :: q) := by
  unfold Beneath resolve
  rw [segments_append_sep, walk_append, walk_of_plain hq]
  exact List.prefix_append _ _

end Bytes

end Path
