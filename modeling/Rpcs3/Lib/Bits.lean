import Mathlib.Data.Set.Basic

/-! A 64-bit word read as the set of positions of its 1 bits. Under this
reading `&&&`, `|||` and `~~~` are intersection, union and complement, a
word is zero when its set is empty, and two words are equal when their sets
are; so a fact about masks is proved as a fact about sets. -/
namespace Bits

/-- The positions of the 1 bits of a 64-bit word. -/
def bits (x : UInt64) : Set (Fin 64) := {i | x.toBitVec[i.val]}

theorem mem_bits {x : UInt64} {i : Fin 64} : i ∈ bits x ↔ x.toBitVec[i.val] = true := Iff.rfl

@[simp] theorem bits_and (x y : UInt64) : bits (x &&& y) = bits x ∩ bits y := by
  ext i
  simp [bits, UInt64.toBitVec_and]

@[simp] theorem bits_or (x y : UInt64) : bits (x ||| y) = bits x ∪ bits y := by
  ext i
  simp [bits, UInt64.toBitVec_or]

@[simp] theorem bits_not (x : UInt64) : bits (~~~x) = (bits x)ᶜ := by
  ext i
  simp [bits, UInt64.toBitVec_not]

@[simp] theorem bits_zero : bits 0 = ∅ := by
  ext i
  simp [bits]

/-- Bit `i` of `x ^^^ y` is set where `x` and `y` differ. -/
theorem mem_bits_xor {x y : UInt64} {i : Fin 64} :
    i ∈ bits (x ^^^ y) ↔ ¬(i ∈ bits x ↔ i ∈ bits y) := by
  simp only [mem_bits, UInt64.toBitVec_xor, BitVec.getElem_xor]
  cases x.toBitVec[i.val] <;> cases y.toBitVec[i.val] <;> simp

theorem bits_injective : Function.Injective bits := by
  intro x y h
  apply UInt64.toBitVec_inj.mp
  apply BitVec.eq_of_getElem_eq
  intro i hi
  have hi' := congrArg (fun s => (⟨i, hi⟩ : Fin 64) ∈ s) h
  simpa [bits] using hi'

theorem eq_iff_bits {x y : UInt64} : x = y ↔ bits x = bits y :=
  bits_injective.eq_iff.symm

theorem eq_zero_iff {x : UInt64} : x = 0 ↔ bits x = ∅ := by
  rw [eq_iff_bits, bits_zero]

/-- `x &&& y = y` says that the bits of `y` are among those of `x`. -/
theorem and_eq_right_iff {x y : UInt64} : x &&& y = y ↔ bits y ⊆ bits x := by
  rw [eq_iff_bits, bits_and, Set.inter_eq_right]

/-- `(x ^^^ y) &&& d = 0` says that `x` and `y` agree on the bits of `d`. -/
theorem xor_and_eq_zero_iff {x y d : UInt64} :
    (x ^^^ y) &&& d = 0 ↔ ∀ i ∈ bits d, (i ∈ bits x ↔ i ∈ bits y) := by
  rw [eq_zero_iff, bits_and, Set.eq_empty_iff_forall_notMem]
  constructor
  · intro h i hd
    by_contra hne
    exact h i ⟨mem_bits_xor.mpr hne, hd⟩
  · rintro h i ⟨hx, hd⟩
    exact mem_bits_xor.mp hx (h i hd)

end Bits
