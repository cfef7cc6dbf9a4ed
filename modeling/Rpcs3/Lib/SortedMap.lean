import Mathlib

/-! Maps kept as association lists sorted by key, as `std::map` keeps its entries: iteration
runs in key order, `begin()` is the head, and `emplace` inserts a key that is not there yet and
leaves the map alone otherwise. Any relation that holds between the entries in order and that
the new entry keeps with those before and after it still holds after `emplace`
(`pairwise_emplace`); the key order is one such relation. -/
namespace SortedMap

variable {κ β : Type*} [LinearOrder κ]

/-- `std::map::emplace`: `(k, v)` at its place, unless `k` is a key already. -/
def emplace (k : κ) (v : β) : List (κ × β) → List (κ × β)
  | [] => [(k, v)]
  | (k', v') :: rest =>
    if k < k' then (k, v) :: (k', v') :: rest
    else if k = k' then (k', v') :: rest
    else (k', v') :: emplace k v rest

/-- Keys strictly increasing. -/
def WF (m : List (κ × β)) : Prop := m.Pairwise fun a b => a.1 < b.1

variable {k : κ} {v : β} {m : List (κ × β)}

theorem mem_emplace {e : κ × β} (h : e ∈ emplace k v m) : e = (k, v) ∨ e ∈ m := by
  induction m with
  | nil => simpa [emplace] using h
  | cons hd tl ih =>
    obtain ⟨k', v'⟩ := hd
    simp only [emplace] at h
    split_ifs at h
    · simpa using h
    · exact .inr h
    · rcases List.mem_cons.mp h with h | h
      · exact .inr (h ▸ List.mem_cons_self)
      · rcases ih h with h | h
        · exact .inl h
        · exact .inr (List.mem_cons_of_mem _ h)

/-- Where `k` is no key, `emplace` adds exactly `(k, v)`. -/
theorem mem_emplace_iff {e : κ × β} (h : ∀ e ∈ m, e.1 ≠ k) : e ∈ emplace k v m ↔ e = (k, v) ∨ e ∈ m := by
  refine ⟨mem_emplace, ?_⟩
  induction m with
  | nil => simp [emplace]
  | cons hd tl ih =>
    obtain ⟨k', v'⟩ := hd
    have hk : k' ≠ k := h _ List.mem_cons_self
    simp only [emplace, if_neg hk.symm]
    split_ifs
    · simp only [List.mem_cons]
      exact id
    · rintro (rfl | he)
      · exact List.mem_cons_of_mem _ (ih (fun e he => h e (List.mem_cons_of_mem _ he)) (.inl rfl))
      · rcases List.mem_cons.mp he with rfl | he
        · exact List.mem_cons_self
        · exact List.mem_cons_of_mem _ (ih (fun e he => h e (List.mem_cons_of_mem _ he)) (.inr he))

theorem emplace_of_lt (h : ∀ e ∈ m, k < e.1) : emplace k v m = (k, v) :: m := by
  cases m with
  | nil => rfl
  | cons hd tl =>
    simp only [emplace, if_pos (h hd List.mem_cons_self)]

/-- `emplace` keeps a relation between the entries in order, where the new entry keeps it with
the entries of smaller and of greater keys. -/
theorem pairwise_emplace {R : κ × β → κ × β → Prop} (hwf : WF m) (hm : m.Pairwise R)
    (hlt : ∀ e ∈ m, e.1 < k → R e (k, v)) (hgt : ∀ e ∈ m, k < e.1 → R (k, v) e) :
    (emplace k v m).Pairwise R := by
  induction m with
  | nil => simp [emplace]
  | cons hd tl ih =>
    obtain ⟨k', v'⟩ := hd
    simp only [emplace]
    split_ifs with h₁ h₂
    · -- the new entry goes first; every key after it is greater
      refine List.Pairwise.cons (fun e he => hgt e he ?_) hm
      rcases List.mem_cons.mp he with rfl | he
      · exact h₁
      · exact h₁.trans (List.rel_of_pairwise_cons hwf he)
    · exact hm
    · have hk : k' < k := lt_of_le_of_ne (not_lt.mp h₁) (Ne.symm h₂)
      refine List.Pairwise.cons (fun e he => ?_) (ih hwf.of_cons hm.of_cons
        (fun e he => hlt e (List.mem_cons_of_mem _ he)) (fun e he => hgt e (List.mem_cons_of_mem _ he)))
      rcases mem_emplace he with rfl | he
      · exact hlt _ List.mem_cons_self hk
      · exact List.rel_of_pairwise_cons hm he

theorem wf_emplace (hwf : WF m) : WF (emplace k v m) :=
  pairwise_emplace hwf hwf (fun _ _ h => h) (fun _ _ h => h)

end SortedMap
