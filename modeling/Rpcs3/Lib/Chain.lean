import Mathlib.Logic.Function.Basic
import Mathlib.Data.List.Basic

/-! Singly linked lists in a heap. Each node has a link, null or another node; the chain from
a pointer lists the nodes met along the links until the null pointer. A chain is finite by
construction, and the nodes of a chain depend only on the links of those nodes (`Chain.frame`),
so writes to other nodes leave it alone. -/
namespace LinkedList

variable {α : Type*}

/-- The nodes met from `p` along `link` until the null pointer. -/
inductive Chain (link : α → Option α) : Option α → List α → Prop
  | nil : Chain link none []
  | cons {a : α} {l : List α} : Chain link (link a) l → Chain link (some a) (a :: l)

variable {link link' : α → Option α}

theorem Chain.unique {p : Option α} {l l' : List α} (h : Chain link p l) (h' : Chain link p l') :
    l = l' := by
  induction h generalizing l' with
  | nil =>
    cases h'
    rfl
  | cons _ ih =>
    cases h' with
    | cons h' => rw [ih h']

theorem chain_none_iff {l : List α} : Chain link none l ↔ l = [] := by
  constructor
  · intro h
    cases h
    rfl
  · rintro rfl
    exact .nil

theorem chain_some_iff {a : α} {l : List α} :
    Chain link (some a) l ↔ ∃ l', l = a :: l' ∧ Chain link (link a) l' := by
  constructor
  · intro h
    cases h with
    | cons h => exact ⟨_, rfl, h⟩
  · rintro ⟨l', rfl, h⟩
    exact .cons h

theorem chain_nil_iff {p : Option α} : Chain link p [] ↔ p = none := by
  constructor
  · intro h
    cases h
    rfl
  · rintro rfl
    exact .nil

theorem chain_cons_iff {p : Option α} {a : α} {l : List α} :
    Chain link p (a :: l) ↔ p = some a ∧ Chain link (link a) l := by
  constructor
  · intro h
    cases h with
    | cons h => exact ⟨rfl, h⟩
  · rintro ⟨rfl, h⟩
    exact .cons h

/-- A chain reads only the links of its own nodes. -/
theorem Chain.frame {p : Option α} {l : List α} (h : Chain link p l)
    (hagree : ∀ a ∈ l, link' a = link a) : Chain link' p l := by
  induction h with
  | nil => exact .nil
  | @cons a l _ ih =>
    apply Chain.cons
    rw [hagree a List.mem_cons_self]
    exact ih fun b hb => hagree b (List.mem_cons_of_mem a hb)

theorem Chain.update [DecidableEq α] {p : Option α} {l : List α} (h : Chain link p l) {a : α}
    (ha : a ∉ l) (v : Option α) : Chain (Function.update link a v) p l :=
  h.frame fun b hb => Function.update_of_ne (by rintro rfl; exact ha hb) _ _

/-- A node whose link is the head of a chain heads the longer chain. -/
theorem Chain.push {p : Option α} {l : List α} (h : Chain link p l) {a : α} (ha : link a = p) :
    Chain link (some a) (a :: l) :=
  .cons (ha ▸ h)

theorem Chain.head?_eq {p : Option α} {l : List α} (h : Chain link p l) : l.head? = p := by
  cases h <;> rfl

/-- The chain from the `k`-th node is what follows it in the chain. -/
theorem Chain.drop {p : Option α} {l : List α} (h : Chain link p l) (k : ℕ) :
    Chain link l[k]? (l.drop k) := by
  induction h generalizing k with
  | nil =>
    rw [List.getElem?_nil, List.drop_nil]
    exact .nil
  | @cons a l hc ih =>
    cases k with
    | zero => exact .cons hc
    | succ k => exact ih k

/-- The node after the `k`-th one is its link. -/
theorem Chain.getElem?_succ {p : Option α} {l : List α} (h : Chain link p l) {k : ℕ} {a : α}
    (hk : l[k]? = some a) : l[k + 1]? = link a := by
  have hd := h.drop k
  rw [hk, chain_some_iff] at hd
  obtain ⟨l', hl', hc⟩ := hd
  rw [← List.head?_drop, ← hc.head?_eq, List.drop_add_one_eq_tail_drop, hl', List.tail_cons]

/-- A chain ends, so it meets no node twice. -/
theorem Chain.nodup {p : Option α} {l : List α} (h : Chain link p l) : l.Nodup := by
  induction h with
  | nil => exact List.nodup_nil
  | @cons a l hc ih =>
    refine List.nodup_cons.2 ⟨fun ha => ?_, ih⟩
    -- from the second visit of `a` the chain would again be all of `a :: l`
    obtain ⟨k, hk⟩ := List.getElem?_of_mem ha
    have hd := hc.drop k
    rw [hk] at hd
    have hlen := congrArg List.length (hd.unique (.cons hc))
    simp only [List.length_drop, List.length_cons] at hlen
    omega

/-- The successor of a node of a chain is in the chain. -/
theorem Chain.mem_of_link {p : Option α} {l : List α} (h : Chain link p l) {a b : α} (ha : a ∈ l)
    (hab : link a = some b) : b ∈ l := by
  obtain ⟨k, hk⟩ := List.getElem?_of_mem ha
  apply List.mem_of_getElem? (i := k + 1)
  rw [h.getElem?_succ hk, hab]

/-- Pointing a node's link past its successor drops the successor from the chain, and the
other nodes keep their order. -/
theorem Chain.bypass [DecidableEq α] {p : Option α} {l : List α} (h : Chain link p l) {a b : α}
    (ha : a ∈ l) (hab : link a = some b) : Chain (Function.update link a (link b)) p (l.erase b) := by
  induction h with
  | nil => simp at ha
  | @cons c l hc ih =>
    have hnd := (Chain.cons hc).nodup
    by_cases hca : c = a
    · subst hca
      -- the successor `b` heads the rest of the chain
      rw [hab, chain_some_iff] at hc
      obtain ⟨l', rfl, hl'⟩ := hc
      have hcb : c ≠ b := fun hcb => (List.nodup_cons.1 hnd).1 (hcb ▸ List.mem_cons_self)
      have hcl' : c ∉ l' := fun hc' => (List.nodup_cons.1 hnd).1 (List.mem_cons_of_mem b hc')
      rw [List.erase_cons_tail (by simpa using hcb), List.erase_cons_head]
      apply Chain.cons
      rw [Function.update_self]
      exact hl'.update hcl' (link b)
    · have ha' : a ∈ l := (List.mem_cons.1 ha).resolve_left (Ne.symm hca)
      have hcb : c ≠ b := fun hcb => (List.nodup_cons.1 hnd).1 (hcb ▸ hc.mem_of_link ha' hab)
      rw [List.erase_cons_tail (by simpa using hcb)]
      apply Chain.cons
      rw [Function.update_of_ne hca]
      exact ih ha'

/-- A node that links to null may take a fresh node with a null link after it. -/
theorem Chain.snoc [DecidableEq α] {p : Option α} {l : List α} (h : Chain link p l) {a b : α}
    (ha : a ∈ l) (hnone : link a = none) (hb : b ∉ l) (hbnone : link b = none) :
    Chain (Function.update link a (some b)) p (l ++ [b]) := by
  induction h with
  | nil => simp at ha
  | @cons a' l hc ih =>
    have hba : b ≠ a := fun hba => hb (hba ▸ ha)
    by_cases haa : a' = a
    · subst haa
      rw [hnone, chain_none_iff] at hc
      subst hc
      apply Chain.cons
      rw [Function.update_self]
      apply Chain.cons
      rw [Function.update_of_ne hba, hbnone]
      exact .nil
    · apply Chain.cons
      rw [Function.update_of_ne haa]
      have ha' : a ∈ l := (List.mem_cons.1 ha).resolve_left (Ne.symm haa)
      exact ih ha' fun hbl => hb (List.mem_cons_of_mem a' hbl)

end LinkedList
