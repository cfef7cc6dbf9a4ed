import Mathlib
import Rpcs3.Lib.Transition

/-! `rsx::simple_array<Ty>` (`rpcs3/Emu/RSX/Common/simple_array.hpp`): a vector of trivially
copyable elements that keeps up to `_local_capacity` of them in a block inside the object and
moves to a heap block when it grows. An array is whether `_data` points at the inline block,
`_capacity`, `_size` and the contents of the block `_data` points at; a copy into the block
(`memcpy`, `memmove` or a store) that would write past `_capacity` makes the operation fail.

`_size` and `_capacity` are `u32`: natural numbers here, with each sum and decrement the source
computes on them taken modulo `2^32` (`wrap32`). The arrays of a program are a table indexed by
object, so that `a += b` reads `b` through the table after resizing `a`, as the source reads
`that` through its reference: for `a += a` that is the resized array. Every other operation
acts on `data()[0..size())` as the list operation it stands for and keeps `Ok` (the size within
the capacity, the inline block of `_local_capacity` elements), on every run from
default-constructed arrays, when its sizes stay below `2^32` (`simple_array_refines`); `a += a`
writes past the block of every array with at least a third of `_local_capacity` elements and
fewer than `2^31` (`append_self_overflows`), and at `2^31` it empties the array
(`exec_append_self_wrap`). `erase_if`, which fills each hole with the last entry and tests it
again, keeps exactly the entries that do not match, in some order (`erase_if_spec`). -/
namespace Rpcs3.Rsx

open Function Transition

structure SimpleArray (α : Type*) where
  isLocal : Bool
  capacity : ℕ
  size : ℕ
  buf : ℕ → α

namespace SimpleArray

variable {α : Type*}

/-- A `u32` result: the natural number modulo `2^32`. -/
def wrap32 (n : ℕ) : ℕ := n % 2 ^ 32

theorem wrap32_of_lt {n : ℕ} (h : n < 2 ^ 32) : wrap32 n = n := Nat.mod_eq_of_lt h

theorem wrap32_lt (n : ℕ) : wrap32 n < 2 ^ 32 := Nat.mod_lt _ (by norm_num)

/-- `--_size` from a size in `[1, 2^32]`. -/
theorem wrap32_pred {n : ℕ} (h₀ : 0 < n) (h : n ≤ 2 ^ 32) : wrap32 (n + 2 ^ 32 - 1) = n - 1 := by
  unfold wrap32; omega

/-- `data()[0..size())`. -/
def toList (a : SimpleArray α) : List α := (List.range a.size).map a.buf

/-- The size is within the capacity, a `u32`, and the inline block holds `_local_capacity`
elements. -/
structure Ok (L : ℕ) (a : SimpleArray α) : Prop where
  size_le : a.size ≤ a.capacity
  capacity_lt : a.capacity < 2 ^ 32
  capacity_of_isLocal : a.isLocal = true → a.capacity = L

/-- `simple_array() = default`: the inline block, empty. -/
def empty [Inhabited α] (L : ℕ) : SimpleArray α := ⟨true, L, 0, fun _ => default⟩

/-- `reserve(size)`: a heap block of `size` elements when the current one is smaller; the
contents move with it. -/
def reserve (a : SimpleArray α) (n : ℕ) : SimpleArray α :=
  if n ≤ a.capacity then a else { a with isLocal := false, capacity := n }

/-- `resize(size)`: `static_cast<u32>(size)`, reserved and made the size. -/
def resize (a : SimpleArray α) (n : ℕ) : SimpleArray α :=
  { a.reserve (wrap32 n) with size := wrap32 n }

/-- The block of `a` once `n` elements of `src` are copied to it at `off`. -/
def setRange (a : SimpleArray α) (off n : ℕ) (src : ℕ → α) : SimpleArray α :=
  { a with buf := fun k => if off ≤ k ∧ k < off + n then src (k - off) else a.buf k }

/-- `memcpy(_data + off, src, n * sizeof(Ty))`; `none` when it would write past the block. -/
def copyIn (a : SimpleArray α) (off n : ℕ) (src : ℕ → α) : Option (SimpleArray α) :=
  if off + n ≤ a.capacity then some (a.setRange off n src) else none

/-- `_data[_size++] = val`. -/
def store (a : SimpleArray α) (v : α) : Option (SimpleArray α) :=
  (a.copyIn a.size 1 fun _ => v).map fun b => { b with size := wrap32 (a.size + 1) }

/-- `if (_size >= _capacity) reserve(_capacity + 16);`, the sum a `u32`. -/
def grow (a : SimpleArray α) : SimpleArray α :=
  if a.capacity ≤ a.size then a.reserve (wrap32 (a.capacity + 16)) else a

def pushBack (a : SimpleArray α) (v : α) : Option (SimpleArray α) := a.grow.store v

/-- Constructs the element in place where `push_back` assigns it. -/
def emplaceBack (a : SimpleArray α) (v : α) : Option (SimpleArray α) := a.grow.store v

/-- `pop_back()`: `_data[--_size]`, on the `u32` size. -/
def popBack (a : SimpleArray α) : SimpleArray α × α :=
  ({ a with size := wrap32 (a.size + 2 ^ 32 - 1) }, a.buf (wrap32 (a.size + 2 ^ 32 - 1)))

/-- `insert(begin() + k, val)`: past the end it appends; otherwise `memmove` shifts the tail
up by one and `val` is stored at `k`. -/
def insert (a : SimpleArray α) (k : ℕ) (v : α) : Option (SimpleArray α) :=
  let a := a.grow
  if a.size ≤ k then a.store v
  else do
    let b ← a.copyIn (k + 1) (a.size - k) fun m => a.buf (k + m)
    let b ← b.copyIn k 1 fun _ => v
    pure { b with size := wrap32 (a.size + 1) }

def clear (a : SimpleArray α) : SimpleArray α := { a with size := 0 }

/-- The loop of `erase_if` at `ptr`, with `n = last - ptr + 1` entries left to test: a match is
overwritten by the entry at `last`, which is tested next, and a match at `last` ends the loop. -/
def eraseIfLoop (p : α → Bool) : ℕ → ℕ → SimpleArray α → Bool → SimpleArray α × Bool
  | 0, _, a, ret => (a, ret)
  | n + 1, ptr, a, ret =>
    if p (a.buf ptr) then
      if n = 0 then ({ a with size := a.size - 1 }, true)
      else eraseIfLoop p n ptr { a with buf := update a.buf ptr (a.buf (ptr + n)), size := a.size - 1 } true
    else eraseIfLoop p n (ptr + 1) a ret

/-- `erase_if(predicate)`: the array and whether anything was erased. -/
def eraseIf (a : SimpleArray α) (p : α → Bool) : SimpleArray α × Bool :=
  if a.size = 0 then (a, false) else eraseIfLoop p a.size 0 a false

/-- `*this = other` for another array, and the copy constructor on an empty one:
`resize(other._size)`, then a `memcpy` of `size_bytes()` unless empty. -/
def assign (a other : SimpleArray α) : Option (SimpleArray α) :=
  let a := a.resize other.size
  if a.size = 0 then some a else a.copyIn 0 a.size other.buf

/-- `swap(that)`, in the source's order of cases; the stack buffer is an inline block. -/
def swap [Inhabited α] (L : ℕ) (a b : SimpleArray α) : Option (SimpleArray α × SimpleArray α) :=
  if a.size = 0 ∧ b.size = 0 then some (a, b)
  else if a.isLocal = false ∧ b.isLocal = false then some (b, a)
  else if a.size = 0 then (a.assign b).map fun a' => (a', b.clear)
  else if b.size = 0 then (b.assign a).map fun b' => (a.clear, b')
  else if a.isLocal ≠ b.isLocal then do
    -- `simple_array tmp{ *this }; *this = that; that = tmp;`
    let tmp ← (empty L).assign a
    let a' ← a.assign b
    let b' ← b.assign tmp
    pure (a', b')
  else do
    -- both inline: through a stack buffer of `_local_capacity` elements
    let st ← (empty L).copyIn 0 b.size b.buf
    let b' ← b.copyIn 0 a.size a.buf
    let a' ← a.copyIn 0 b.size st.buf
    pure ({ a' with size := b.size }, { b' with size := a.size })

/-- `simple_array(initial_size)`: the elements are what the block held. -/
def ofSize [Inhabited α] (L n : ℕ) : SimpleArray α := { (empty L).reserve n with size := n }

def ofSizeFilled [Inhabited α] (L n : ℕ) (v : α) : Option (SimpleArray α) :=
  { (empty L).reserve n with size := n }.copyIn 0 n fun _ => v

/-- `simple_array{ args... }`: `reserve(size32(args))`, then `push_back` of each; `size32`
throws for a list of `2^32` elements or more. -/
def ofList [Inhabited α] (L : ℕ) (l : List α) : Option (SimpleArray α) :=
  if l.length < 2 ^ 32 then l.foldlM pushBack ((empty L).reserve l.length) else none

/-! ### The block operations -/

variable {L : ℕ} {a b : SimpleArray α} {off n k : ℕ} {src : ℕ → α} {v : α}

@[simp] theorem length_toList (a : SimpleArray α) : a.toList.length = a.size := by
  simp [toList]

@[simp] theorem getElem_toList (a : SimpleArray α) {k : ℕ} (hk : k < a.toList.length) :
    a.toList[k] = a.buf k := by
  simp [toList]

theorem toList_eq {l : List α} (hs : a.size = l.length) (hb : ∀ k (hk : k < l.length), a.buf k = l[k]) :
    a.toList = l := by
  apply List.ext_getElem (by simp [hs])
  intro k hk hk'
  rw [getElem_toList, hb k hk']

theorem toList_of_size_eq_zero (h : a.size = 0) : a.toList = [] := by
  simp [toList, h]

@[simp] theorem size_reserve : (a.reserve n).size = a.size := by
  unfold reserve; split <;> rfl

@[simp] theorem buf_reserve : (a.reserve n).buf = a.buf := by
  unfold reserve; split <;> rfl

theorem capacity_reserve : (a.reserve n).capacity = max a.capacity n := by
  unfold reserve
  split
  · omega
  · dsimp only; omega

theorem Ok.reserve (h : Ok L a) (hn : n < 2 ^ 32) : Ok L (a.reserve n) := by
  unfold SimpleArray.reserve
  split
  · exact h
  · constructor
    · have := h.size_le
      dsimp only; omega
    · exact hn
    · intro hl; cases hl

theorem Ok.size_lt (h : Ok L a) : a.size < 2 ^ 32 := lt_of_le_of_lt h.size_le h.capacity_lt

/-- An array on the block of an `Ok` one, with its size within that block, is `Ok`. -/
theorem Ok.of_eq (h : Ok L a) (hc : b.capacity = a.capacity) (hl : b.isLocal = a.isLocal)
    (hs : b.size ≤ b.capacity) : Ok L b := by
  refine ⟨hs, by rw [hc]; exact h.capacity_lt, fun hb => ?_⟩
  rw [hc]
  exact h.capacity_of_isLocal (hl ▸ hb)

@[simp] theorem size_resize : (a.resize n).size = wrap32 n := rfl

@[simp] theorem buf_resize : (a.resize n).buf = a.buf := by simp [resize]

theorem capacity_resize : (a.resize n).capacity = max a.capacity (wrap32 n) := capacity_reserve

theorem Ok.resize (h : Ok L a) : Ok L (a.resize n) := by
  have hr := h.reserve (wrap32_lt n)
  refine hr.of_eq rfl rfl ?_
  simp [capacity_resize]

@[simp] theorem size_setRange : (a.setRange off n src).size = a.size := rfl

@[simp] theorem capacity_setRange : (a.setRange off n src).capacity = a.capacity := rfl

theorem Ok.setRange (h : Ok L a) : Ok L (a.setRange off n src) := h.of_eq rfl rfl h.size_le

theorem buf_setRange_of_lt (hk : k < off) : (a.setRange off n src).buf k = a.buf k := by
  simp [setRange]; omega

theorem buf_setRange_of_mem (h₁ : off ≤ k) (h₂ : k < off + n) :
    (a.setRange off n src).buf k = src (k - off) := by
  simp [setRange, h₁, h₂]

theorem copyIn_of_le (h : off + n ≤ a.capacity) : a.copyIn off n src = some (a.setRange off n src) :=
  if_pos h

theorem copyIn_of_lt (h : a.capacity < off + n) : a.copyIn off n src = none :=
  if_neg (by omega)

/-- A store past the last element of a block with room appends, where the new size is a `u32`. -/
theorem store_spec (hlt : a.size < a.capacity) (hfit : a.size + 1 < 2 ^ 32) :
    ∃ b, a.store v = some b ∧ b.capacity = a.capacity ∧ b.isLocal = a.isLocal ∧
      b.size = a.size + 1 ∧ b.toList = a.toList ++ [v] := by
  refine ⟨{ a.setRange a.size 1 (fun _ => v) with size := a.size + 1 },
    by rw [store, copyIn_of_le (by omega), Option.map_some, wrap32_of_lt hfit], rfl, rfl, rfl, ?_⟩
  apply toList_eq (by simp)
  intro k hk
  dsimp only
  simp only [List.length_append, length_toList, List.length_singleton] at hk
  rcases Nat.lt_or_ge k a.size with hka | hka
  · rw [List.getElem_append_left (by simpa using hka), getElem_toList]
    exact buf_setRange_of_lt hka
  · rw [List.getElem_append_right (by simpa using hka), List.getElem_singleton]
    exact buf_setRange_of_mem hka hk

theorem store_spec_of_ok (h : Ok L a) (hlt : a.size < a.capacity) :
    ∃ b, a.store v = some b ∧ Ok L b ∧ b.capacity = a.capacity ∧ b.toList = a.toList ++ [v] := by
  -- an `Ok` block is below `2^32`, so the incremented size does not wrap
  obtain ⟨b, hb, hc, hl, hs, hlist⟩ := store_spec (v := v) hlt (by have := h.capacity_lt; omega)
  exact ⟨b, hb, h.of_eq hc hl (by omega), hc, hlist⟩

@[simp] theorem size_grow : a.grow.size = a.size := by
  unfold grow; split <;> simp

@[simp] theorem buf_grow : a.grow.buf = a.buf := by
  unfold grow; split <;> simp

@[simp] theorem toList_grow : a.grow.toList = a.toList := by
  simp [toList]

theorem grow_of_lt (h : a.size < a.capacity) : a.grow = a := if_neg (by omega)

theorem Ok.grow (h : Ok L a) : Ok L a.grow := by
  unfold SimpleArray.grow; split
  · exact h.reserve (wrap32_lt _)
  · exact h

/-- Growing a full array makes room for one more element while `_capacity + 16` fits a `u32`. -/
theorem size_lt_capacity_grow (h : Ok L a) (hfit : a.size + 16 < 2 ^ 32) :
    a.size < a.grow.capacity := by
  unfold grow; split
  · have := h.size_le
    rw [capacity_reserve, wrap32_of_lt (by omega)]; omega
  · omega

/-- A full array whose `_capacity + 16` wraps keeps its block, and the store runs past it. -/
theorem pushBack_of_wrap (h : Ok L a) (hfull : a.capacity ≤ a.size)
    (hwrap : 2 ^ 32 ≤ a.capacity + 16) : a.pushBack v = none := by
  have hle := h.size_le
  have hlt := h.capacity_lt
  have hg : a.grow = a := by
    rw [grow, if_pos hfull, reserve, if_pos (by unfold wrap32; omega)]
  rw [pushBack, hg, store, copyIn_of_lt (by omega), Option.map_none]

theorem pushBack_spec (h : Ok L a) (hfit : a.size + 16 < 2 ^ 32) :
    ∃ b, a.pushBack v = some b ∧ Ok L b ∧ b.toList = a.toList ++ [v] := by
  obtain ⟨b, hb, hok, -, hl⟩ :=
    store_spec_of_ok (v := v) h.grow (by simpa using size_lt_capacity_grow h hfit)
  exact ⟨b, hb, hok, by rw [hl, toList_grow]⟩

theorem emplaceBack_spec (h : Ok L a) (hfit : a.size + 16 < 2 ^ 32) :
    ∃ b, a.emplaceBack v = some b ∧ Ok L b ∧ b.toList = a.toList ++ [v] :=
  pushBack_spec h hfit

theorem popBack_eq (h₀ : 0 < a.size) (h : a.size ≤ 2 ^ 32) :
    a.popBack = ({ a with size := a.size - 1 }, a.buf (a.size - 1)) := by
  rw [popBack, wrap32_pred h₀ h]

theorem Ok.popBack (h : Ok L a) (h₀ : 0 < a.size) : Ok L a.popBack.1 := by
  have := h.size_le
  rw [popBack_eq h₀ h.size_lt.le]
  exact h.of_eq rfl rfl (by dsimp only; omega)

theorem toList_popBack (h₀ : 0 < a.size) (h : a.size ≤ 2 ^ 32) :
    a.popBack.1.toList = a.toList.dropLast := by
  rw [popBack_eq h₀ h]
  apply toList_eq (by simp)
  intro k hk
  rw [List.getElem_dropLast, getElem_toList]

/-- `pop_back` returns the last element. -/
theorem popBack_snd (h : a.toList ≠ []) (hs : a.size ≤ 2 ^ 32) :
    a.popBack.2 = a.toList.getLast h := by
  have h₀ : 0 < a.size := by
    rw [← length_toList]; exact List.length_pos_iff.mpr h
  rw [List.getLast_eq_getElem, getElem_toList, length_toList, popBack_eq h₀ hs]

theorem insert_spec (h : Ok L a) (hk : k ≤ a.size) (hfit : a.size + 16 < 2 ^ 32) :
    ∃ b, a.insert k v = some b ∧ Ok L b ∧ b.toList = a.toList.insertIdx k v := by
  have hg := h.grow
  have hcap := size_lt_capacity_grow h hfit
  by_cases hend : a.grow.size ≤ k
  · -- `_loc >= _size`: the store at the end
    have hka : k = a.toList.length := by simp at hend ⊢; omega
    obtain ⟨b, hb, hok, -, hl⟩ := store_spec_of_ok (v := v) hg (by simpa using hcap)
    refine ⟨b, by rw [insert, if_pos hend, hb], hok, ?_⟩
    rw [hl, toList_grow, hka, List.insertIdx_length_self]
  · -- the `memmove` of the tail, then the store at `k`
    simp only [size_grow] at hend
    refine ⟨{ ((a.grow.setRange (k + 1) (a.size - k) fun m => a.buf (k + m)).setRange k 1 fun _ => v)
      with size := a.size + 1 }, ?_, hg.of_eq rfl rfl ?_, ?_⟩
    · rw [insert, if_neg (by simpa using hend)]
      simp only [size_grow, buf_grow]
      rw [copyIn_of_le (by omega), Option.bind_eq_bind, Option.bind_some, copyIn_of_le (by simp; omega),
        wrap32_of_lt (by omega)]
      rfl
    · dsimp only [capacity_setRange]; omega
    · apply toList_eq (by simp [List.length_insertIdx, hk])
      intro m hm
      dsimp only
      simp only [List.length_insertIdx, length_toList, if_pos hk] at hm
      rcases lt_trichotomy m k with hmk | rfl | hmk
      · rw [List.getElem_insertIdx_of_lt hmk, getElem_toList, buf_setRange_of_lt hmk,
          buf_setRange_of_lt (by omega), buf_grow]
      · rw [List.getElem_insertIdx_self, buf_setRange_of_mem le_rfl (by omega)]
      · rw [List.getElem_insertIdx_of_gt hmk, getElem_toList, setRange]
        dsimp only
        rw [if_neg (by omega), buf_setRange_of_mem (by omega) (by omega)]
        congr 1; omega

theorem assign_spec (h : Ok L a) (o : SimpleArray α) (ho : o.size < 2 ^ 32) :
    ∃ b, a.assign o = some b ∧ Ok L b ∧ b.toList = o.toList := by
  have hr := h.resize (n := o.size)
  have hsz : (a.resize o.size).size = o.size := by rw [size_resize, wrap32_of_lt ho]
  by_cases h0 : o.size = 0
  · refine ⟨a.resize o.size, by rw [assign, if_pos (hsz.trans h0)], hr, ?_⟩
    rw [toList_of_size_eq_zero (by rw [hsz, h0]), toList_of_size_eq_zero h0]
  · have hle : 0 + o.size ≤ (a.resize o.size).capacity := by
      have := hr.size_le
      rw [hsz] at this; omega
    refine ⟨_, by rw [assign, if_neg (by rw [hsz]; exact h0), hsz, copyIn_of_le hle],
      hr.setRange, ?_⟩
    apply toList_eq (by rw [size_setRange, hsz, length_toList])
    intro m hm
    rw [getElem_toList, buf_setRange_of_mem (Nat.zero_le m) (by simpa using hm), Nat.sub_zero]

theorem Ok.clear (h : Ok L a) : Ok L a.clear := h.of_eq rfl rfl (Nat.zero_le _)

@[simp] theorem toList_clear : a.clear.toList = [] := toList_of_size_eq_zero rfl

theorem toList_resize : (a.resize n).toList =
    a.toList.take (wrap32 n) ++ (List.range' a.size (wrap32 n - a.size)).map a.buf := by
  apply toList_eq (by simp; omega)
  intro m hm
  simp only [List.length_append, List.length_take, length_toList, List.length_map,
    List.length_range'] at hm
  rw [buf_resize]
  rcases Nat.lt_or_ge m (min (wrap32 n) a.size) with hlt | hge
  · rw [List.getElem_append_left (by simpa using hlt), List.getElem_take, getElem_toList]
  · rw [List.getElem_append_right (by simpa using hge), List.getElem_map, List.getElem_range']
    simp only [List.length_take, length_toList]
    congr 1; omega

theorem append_spec (h : Ok L a) (o : SimpleArray α) (hfit : a.size + o.size < 2 ^ 32) :
    ∃ c, (a.resize (a.size + o.size)).copyIn a.size o.size o.buf = some c ∧ Ok L c ∧
      c.toList = a.toList ++ o.toList := by
  have hle : a.size + o.size ≤ (a.resize (a.size + o.size)).capacity := by
    simp [capacity_resize, wrap32_of_lt hfit]
  refine ⟨_, copyIn_of_le hle, h.resize.setRange, ?_⟩
  apply toList_eq (by simp [wrap32_of_lt hfit])
  intro m hm
  simp only [List.length_append, length_toList] at hm
  rcases Nat.lt_or_ge m a.size with hma | hma
  · rw [List.getElem_append_left (by simpa using hma), getElem_toList, buf_setRange_of_lt hma,
      buf_resize]
  · rw [List.getElem_append_right (by simpa using hma), getElem_toList, buf_setRange_of_mem hma hm,
      length_toList]

/-- `a += a`: the copy of the resized array's `2 * size` elements at offset `size` runs past a
block of fewer than `3 * size` elements, where the doubled size is a `u32`. -/
theorem append_self_eq_none (hfit : a.size + a.size < 2 ^ 32)
    (hlt : max a.capacity (a.size + a.size) < 3 * a.size) :
    (a.resize (a.size + a.size)).copyIn a.size (a.resize (a.size + a.size)).size
      (a.resize (a.size + a.size)).buf = none := by
  apply copyIn_of_lt
  rw [capacity_resize, size_resize, wrap32_of_lt hfit]
  omega

/-- `push_back` of each element of `l` into a block with room for them all appends `l`. -/
theorem foldlM_pushBack (l : List α) (hroom : a.size + l.length ≤ a.capacity)
    (hfit : a.size + l.length < 2 ^ 32) :
    ∃ b, l.foldlM pushBack a = some b ∧ b.capacity = a.capacity ∧ b.isLocal = a.isLocal ∧
      b.toList = a.toList ++ l := by
  induction l generalizing a with
  | nil => exact ⟨a, rfl, rfl, rfl, by simp⟩
  | cons x l ih =>
    simp only [List.length_cons] at hroom hfit
    obtain ⟨b, hb, hcap, hloc, hsize, hl⟩ := store_spec (v := x) (a := a) (by omega) (by omega)
    have hpush : a.pushBack x = some b := by rw [pushBack, grow_of_lt (by omega), hb]
    obtain ⟨c, hc, hccap, hcloc, hcl⟩ := ih (a := b) (by omega) (by omega)
    refine ⟨c, by rw [List.foldlM_cons, hpush]; exact hc, hccap.trans hcap, hcloc.trans hloc, ?_⟩
    rw [hcl, hl, List.append_assoc, List.singleton_append]

/-! ### `erase_if` -/

section EraseIf

variable (p : α → Bool)

/-- The loop keeps the entries before `ptr`, and of the `n` entries from `ptr` on it keeps, in
some order, those that do not match. -/
theorem eraseIfLoop_spec (n ptr : ℕ) (a : SimpleArray α) (ret : Bool) (h : a.size = ptr + n) :
    (eraseIfLoop p n ptr a ret).1.toList.Perm
      ((List.range ptr).map a.buf ++ ((List.range' ptr n).map a.buf).filter fun x => !p x) ∧
    (eraseIfLoop p n ptr a ret).2 = (ret || ((List.range' ptr n).map a.buf).any p) ∧
    (eraseIfLoop p n ptr a ret).1.capacity = a.capacity ∧
    (eraseIfLoop p n ptr a ret).1.isLocal = a.isLocal := by
  induction n generalizing ptr a ret with
  | zero =>
    simp only [eraseIfLoop, List.range'_zero, List.map_nil, List.filter_nil, List.append_nil,
      List.any_nil, Bool.or_false, and_true]
    rw [toList, h, Nat.add_zero]
  | succ n ih =>
    rw [eraseIfLoop]
    by_cases hp : p (a.buf ptr)
    · rw [if_pos hp]
      split_ifs with hn
      · -- the match is the last entry: dropping it leaves the entries before `ptr`
        subst hn
        have hsize : a.size - 1 = ptr := by omega
        refine ⟨?_, by simp [hp], rfl, rfl⟩
        simp [toList, hsize, hp]
      · -- the entry at `last = ptr + n` moves into the hole and is tested next
        obtain ⟨k, rfl⟩ : ∃ k, n = k + 1 := ⟨n - 1, by omega⟩
        obtain ⟨hperm, hret, hcap, hloc⟩ := ih ptr
          { a with buf := update a.buf ptr (a.buf (ptr + (k + 1))), size := a.size - 1 } true
          (by dsimp only; omega)
        have hpre : (List.range ptr).map (update a.buf ptr (a.buf (ptr + (k + 1)))) =
            (List.range ptr).map a.buf := by
          apply List.map_congr_left
          intro i hi
          rw [update_of_ne (List.mem_range.mp hi).ne]
        have hrest : (List.range' ptr (k + 1)).map (update a.buf ptr (a.buf (ptr + (k + 1)))) =
            a.buf (ptr + (k + 1)) :: (List.range' (ptr + 1) k).map a.buf := by
          rw [List.range'_succ, List.map_cons, update_self]
          congr 1
          apply List.map_congr_left
          intro i hi
          rw [update_of_ne (by simp [List.mem_range'] at hi; omega)]
        have hall : (List.range' ptr (k + 1 + 1)).map a.buf =
            a.buf ptr :: ((List.range' (ptr + 1) k).map a.buf ++ [a.buf (ptr + (k + 1))]) := by
          rw [List.range'_succ, List.range'_concat, List.map_cons, List.map_append]
          simp only [List.map_cons, List.map_nil]
          congr 4
          omega
        dsimp only at hperm hret
        rw [hpre, hrest] at hperm
        rw [hrest] at hret
        refine ⟨hperm.trans ?_, ?_, hcap, hloc⟩
        · rw [hall, List.filter_cons_of_neg (p := fun x => !p x) (a := a.buf ptr) (by simp [hp])]
          exact List.Perm.append_left _ (List.Perm.filter _ (List.perm_append_singleton _ _).symm)
        · simp only [hret, hall, List.any_cons, hp, Bool.true_or, Bool.or_true]
    · rw [if_neg hp]
      obtain ⟨hperm, hret, hcap, hloc⟩ := ih (ptr + 1) a ret (by omega)
      have hp' : p (a.buf ptr) = false := by simpa using hp
      refine ⟨?_, ?_, hcap, hloc⟩
      · rw [List.range'_succ, List.map_cons, List.filter_cons, if_pos (by simp [hp']),
          ← List.singleton_append, ← List.append_assoc, ← List.map_singleton (f := a.buf),
          ← List.map_append, ← List.range_succ]
        exact hperm
      · rw [hret, List.range'_succ, List.map_cons, List.any_cons, hp', Bool.false_or]

/-- `erase_if` reports whether any entry matched and keeps exactly the entries that do not
match, in some order. -/
theorem erase_if_spec (a : SimpleArray α) :
    (a.eraseIf p).2 = a.toList.any p ∧
    (a.eraseIf p).1.size = a.toList.countP (fun x => !p x) ∧
    (a.eraseIf p).1.toList.Perm (a.toList.filter fun x => !p x) := by
  have hperm : (a.eraseIf p).1.toList.Perm (a.toList.filter fun x => !p x) ∧
      (a.eraseIf p).2 = a.toList.any p := by
    unfold eraseIf
    split_ifs with h0
    · simp [toList_of_size_eq_zero h0]
    · obtain ⟨hperm, hret, -, -⟩ := eraseIfLoop_spec p a.size 0 a false (Nat.zero_add _).symm
      simp only [List.range_zero, List.map_nil, List.nil_append, Bool.false_or,
        ← List.range_eq_range'] at hperm hret
      exact ⟨hperm, hret⟩
  refine ⟨hperm.2, ?_, hperm.1⟩
  rw [← length_toList, hperm.1.length_eq, List.countP_eq_length_filter]

theorem Ok.eraseIf (h : Ok L a) : Ok L (a.eraseIf p).1 := by
  unfold SimpleArray.eraseIf
  split_ifs with h0
  · exact h
  · obtain ⟨hperm, -, hcap, hloc⟩ := eraseIfLoop_spec p a.size 0 a false (Nat.zero_add _).symm
    refine h.of_eq hcap hloc ?_
    have hlen := hperm.length_eq
    simp only [length_toList] at hlen
    have hle := List.length_filter_le (fun x => !p x) ((List.range' 0 a.size).map a.buf)
    simp only [List.length_append, List.length_map, List.length_range, List.length_range'] at hlen hle
    rw [hcap]
    have := h.size_le
    omega

end EraseIf

section Build

variable [Inhabited α]

theorem ok_empty (hL : L < 2 ^ 32) : Ok L (empty L : SimpleArray α) :=
  ⟨Nat.zero_le _, hL, fun _ => rfl⟩

theorem ofSize_spec (hL : L < 2 ^ 32) (hn : n < 2 ^ 32) :
    Ok L (ofSize L n : SimpleArray α) ∧ (ofSize L n : SimpleArray α).toList.length = n := by
  have hr := (ok_empty (α := α) hL).reserve hn
  refine ⟨hr.of_eq rfl rfl ?_, by simp [ofSize]⟩
  change n ≤ ((empty L).reserve n).capacity
  rw [capacity_reserve]; omega

theorem ofSizeFilled_spec (hL : L < 2 ^ 32) (hn : n < 2 ^ 32) (v : α) :
    ∃ b, ofSizeFilled L n v = some b ∧ Ok L b ∧ b.toList = List.replicate n v := by
  obtain ⟨hok, -⟩ := ofSize_spec (α := α) hL hn
  have hle : 0 + n ≤ (ofSize L n : SimpleArray α).capacity := by
    rw [Nat.zero_add]; exact hok.size_le
  refine ⟨_, copyIn_of_le hle, hok.setRange, ?_⟩
  apply toList_eq (by simp)
  intro m hm
  rw [List.getElem_replicate, buf_setRange_of_mem (Nat.zero_le m) (by simpa using hm)]

/-- An initializer list that `size32` accepts is pushed into a block of its own size, or the
inline block when that is larger. -/
theorem ofList_eq (L : ℕ) {l : List α} (hl : l.length < 2 ^ 32) :
    ∃ b, ofList L l = some b ∧ b.capacity = max L l.length ∧
      b.isLocal = ((empty L : SimpleArray α).reserve l.length).isLocal ∧ b.toList = l := by
  have hcap : ((empty L : SimpleArray α).reserve l.length).capacity = max L l.length :=
    capacity_reserve
  obtain ⟨b, hb, hbcap, hloc, hbl⟩ := foldlM_pushBack l
    (by rw [size_reserve, hcap]; simp [empty]) (by simpa [empty] using hl)
  refine ⟨b, by rw [ofList, if_pos hl, hb], hbcap.trans hcap, hloc, ?_⟩
  rw [hbl, toList_of_size_eq_zero (by simp [empty]), List.nil_append]

theorem ofList_spec (hL : L < 2 ^ 32) {l : List α} (hl : l.length < 2 ^ 32) :
    ∃ b, ofList L l = some b ∧ Ok L b ∧ b.toList = l := by
  obtain ⟨b, hb, hcap, hloc, hbl⟩ := ofList_eq L hl
  have hsize : b.size = l.length := by rw [← length_toList, hbl]
  have hr := (ok_empty (α := α) hL).reserve hl
  have hrcap : ((empty L : SimpleArray α).reserve l.length).capacity = max L l.length :=
    capacity_reserve
  refine ⟨b, hb, hr.of_eq (hcap.trans hrcap.symm) hloc ?_, hbl⟩
  rw [hsize, hcap]; omega

/-- Swapping two arrays exchanges their contents in each of its cases. -/
theorem swap_spec (hL : L < 2 ^ 32) (ha : Ok L a) (hb : Ok L b) :
    ∃ a' b', swap L a b = some (a', b') ∧ Ok L a' ∧ Ok L b' ∧
      a'.toList = b.toList ∧ b'.toList = a.toList := by
  unfold swap
  split_ifs with h0 hheap ha0 hb0 hmix
  · exact ⟨a, b, rfl, ha, hb, by rw [toList_of_size_eq_zero h0.1, toList_of_size_eq_zero h0.2],
      by rw [toList_of_size_eq_zero h0.1, toList_of_size_eq_zero h0.2]⟩
  · exact ⟨b, a, rfl, hb, ha, rfl, rfl⟩
  · obtain ⟨a', ha', hok, hl⟩ := assign_spec ha b hb.size_lt
    exact ⟨a', b.clear, by rw [ha']; rfl, hok, hb.clear, hl, by simp [toList_of_size_eq_zero ha0]⟩
  · obtain ⟨b', hb', hok, hl⟩ := assign_spec hb a ha.size_lt
    exact ⟨a.clear, b', by rw [hb']; rfl, ha.clear, hok, by simp [toList_of_size_eq_zero hb0], hl⟩
  · -- one inline and one on the heap: through a copy
    obtain ⟨tmp, htmp, hok, htl⟩ := assign_spec (ok_empty hL) a ha.size_lt
    obtain ⟨a', ha', haok, hal⟩ := assign_spec ha b hb.size_lt
    obtain ⟨b', hb', hbok, hbl⟩ := assign_spec hb tmp hok.size_lt
    refine ⟨a', b', ?_, haok, hbok, hal, by rw [hbl, htl]⟩
    rw [htmp, Option.bind_eq_bind, Option.bind_some, ha', Option.bind_some, hb']
    rfl
  · -- both inline: `_capacity` is `_local_capacity` on both sides
    have hloc : a.isLocal = true ∧ b.isLocal = true := by
      cases hal : a.isLocal <;> cases hbl : b.isLocal <;> simp_all
    have hca := ha.capacity_of_isLocal hloc.1
    have hcb := hb.capacity_of_isLocal hloc.2
    have hsa := ha.size_le
    have hsb := hb.size_le
    refine ⟨{ a.setRange 0 b.size ((empty L).setRange 0 b.size b.buf).buf with size := b.size },
      { b.setRange 0 a.size a.buf with size := a.size }, ?_, ha.of_eq rfl rfl ?_,
      hb.of_eq rfl rfl ?_, ?_, ?_⟩
    · rw [copyIn_of_le (by simp [empty]; omega), Option.bind_eq_bind, Option.bind_some,
        copyIn_of_le (by omega), Option.bind_some, copyIn_of_le (by omega)]
      rfl
    · dsimp only [capacity_setRange]; omega
    · dsimp only [capacity_setRange]; omega
    · apply toList_eq (by simp)
      intro m hm
      simp only [length_toList] at hm
      rw [getElem_toList]
      change (a.setRange 0 b.size _).buf m = _
      rw [buf_setRange_of_mem (Nat.zero_le m) (by omega), buf_setRange_of_mem (Nat.zero_le _) (by omega),
        Nat.sub_zero, Nat.sub_zero]
    · apply toList_eq (by simp)
      intro m hm
      simp only [length_toList] at hm
      rw [getElem_toList]
      change (b.setRange 0 a.size _).buf m = _
      rw [buf_setRange_of_mem (Nat.zero_le m) (by omega), Nat.sub_zero]

end Build

/-! ### Programs over a table of arrays -/

/-- The constructors, which build the object `i` anew, and the members called on the object
`i`, with `j` the other array. -/
inductive Op (α : Type*) where
  | construct (i : ℕ)
  | constructSized (i n : ℕ)
  | constructFilled (i n : ℕ) (v : α)
  | constructFrom (i : ℕ) (l : List α)
  | copyConstruct (i j : ℕ)
  | moveConstruct (i j : ℕ)
  | pushBack (i : ℕ) (v : α)
  | emplaceBack (i : ℕ) (v : α)
  | popBack (i : ℕ)
  | insert (i k : ℕ) (v : α)
  | append (i j : ℕ)
  | resize (i n : ℕ)
  | clear (i : ℕ)
  | copyAssign (i j : ℕ)
  | moveAssign (i j : ℕ)
  | swap (i j : ℕ)

/-- The contents of the arrays of a table. -/
def view (s : ℕ → SimpleArray α) : ℕ → List α := toList ∘ s

/-- Each operation on the contents, as lists: `insert` at `k`, appending, concatenation,
truncation or extension by any elements, and the exchange of contents. -/
inductive ListStep : (ℕ → List α) → Op α → (ℕ → List α) → Prop
  | construct ls i : ListStep ls (.construct i) (update ls i [])
  | constructSized ls i n (l : List α) : l.length = n → ListStep ls (.constructSized i n) (update ls i l)
  | constructFilled ls i n v :
      ListStep ls (.constructFilled i n v) (update ls i (List.replicate n v))
  | constructFrom ls i l : ListStep ls (.constructFrom i l) (update ls i l)
  | copyConstruct ls i j : ListStep ls (.copyConstruct i j) (update ls i (ls j))
  | moveConstruct ls i j : ListStep ls (.moveConstruct i j) (update (update ls i (ls j)) j [])
  | pushBack ls i v : ListStep ls (.pushBack i v) (update ls i (ls i ++ [v]))
  | emplaceBack ls i v : ListStep ls (.emplaceBack i v) (update ls i (ls i ++ [v]))
  | popBack ls i : ListStep ls (.popBack i) (update ls i (ls i).dropLast)
  | insert ls i k v : ListStep ls (.insert i k v) (update ls i ((ls i).insertIdx k v))
  | append ls i j : ListStep ls (.append i j) (update ls i (ls i ++ ls j))
  | resize ls i n (ext : List α) : ext.length = n - (ls i).length →
      ListStep ls (.resize i n) (update ls i ((ls i).take n ++ ext))
  | clear ls i : ListStep ls (.clear i) (update ls i [])
  | copyAssign ls i j : ListStep ls (.copyAssign i j) (update ls i (ls j))
  | moveAssign ls i j : ListStep ls (.moveAssign i j) (update (update ls i (ls j)) j (ls i))
  | swap ls i j : ListStep ls (.swap i j) (update (update ls i (ls j)) j (ls i))

/-- What the source asks of a call: a size that is a `u32` (the constructors' argument, an
initializer list that `size32` accepts, the target of `resize`), room below `2^32` for the
`_capacity + 16` of a store into a full array, `pop_back` on a non-empty array, `insert` at most
at the end, and `+=` of another array whose sizes add up to a `u32`. -/
def Op.Valid (ls : ℕ → List α) : Op α → Prop
  | .constructSized _ n => n < 2 ^ 32
  | .constructFilled _ n _ => n < 2 ^ 32
  | .constructFrom _ l => l.length < 2 ^ 32
  | .pushBack i _ => (ls i).length + 16 < 2 ^ 32
  | .emplaceBack i _ => (ls i).length + 16 < 2 ^ 32
  | .popBack i => ls i ≠ []
  | .insert i k _ => k ≤ (ls i).length ∧ (ls i).length + 16 < 2 ^ 32
  | .append i j => i ≠ j ∧ (ls i).length + (ls j).length < 2 ^ 32
  | .resize _ n => n < 2 ^ 32
  | _ => True

/-- The two arrays a swap leaves, back in the table as the objects `i` and `j`. -/
def put2 (s : ℕ → SimpleArray α) (i j : ℕ) (p : SimpleArray α × SimpleArray α) :
    ℕ → SimpleArray α :=
  update (update s i p.1) j p.2

variable {s : ℕ → SimpleArray α} {op : Op α} {i j : ℕ}

theorem view_update (s : ℕ → SimpleArray α) (i : ℕ) (a : SimpleArray α) :
    view (update s i a) = update (view s) i a.toList :=
  comp_update _ _ _ _

theorem view_put2 (p : SimpleArray α × SimpleArray α) :
    view (put2 s i j p) = update (update (view s) i p.1.toList) j p.2.toList := by
  rw [put2, view_update, view_update]

theorem ok_update (hs : ∀ n, Ok L (s n)) (ha : Ok L a) (i : ℕ) : ∀ n, Ok L (update s i a n) := by
  intro n
  rcases eq_or_ne n i with rfl | hn
  · rw [update_self]; exact ha
  · rw [update_of_ne hn]; exact hs n

/-- An operation that replaces the object `i` by a new array steps the contents as the list
operation that replaces `view s i` by its contents. -/
theorem step_of_update {f : Option (SimpleArray α)} (hs : ∀ n, Ok L (s n)) (hb : f = some b)
    (hok : Ok L b) (hl : ListStep (view s) op (update (view s) i b.toList)) :
    ∃ t, f.map (update s i) = some t ∧ (∀ n, Ok L (t n)) ∧ ListStep (view s) op (view t) := by
  refine ⟨update s i b, by rw [hb]; rfl, ok_update hs hok i, ?_⟩
  rw [view_update]
  exact hl

theorem step_of_swap {f : Option (SimpleArray α × SimpleArray α)} {a' b' : SimpleArray α}
    (hs : ∀ n, Ok L (s n)) (hf : f = some (a', b')) (ha : Ok L a') (hb : Ok L b')
    (hl : ListStep (view s) op (update (update (view s) i a'.toList) j b'.toList)) :
    ∃ t, f.map (put2 s i j) = some t ∧ (∀ n, Ok L (t n)) ∧ ListStep (view s) op (view t) := by
  refine ⟨put2 s i j (a', b'), by rw [hf]; rfl, ok_update (ok_update hs ha i) hb j, ?_⟩
  rw [view_put2]
  exact hl

variable [Inhabited α] (L)

def exec : Op α → (ℕ → SimpleArray α) → Option (ℕ → SimpleArray α)
  | .construct i, s => some (update s i (empty L))
  | .constructSized i n, s => some (update s i (ofSize L n))
  | .constructFilled i n v, s => (ofSizeFilled L n v).map (update s i)
  | .constructFrom i l, s => (ofList L l).map (update s i)
  | .copyConstruct i j, s => ((empty L).assign (s j)).map (update s i)
  | .moveConstruct i j, s => (swap L (empty L) (s j)).map (put2 s i j)
  | .pushBack i v, s => ((s i).pushBack v).map (update s i)
  | .emplaceBack i v, s => ((s i).emplaceBack v).map (update s i)
  | .popBack i, s => some (update s i (s i).popBack.1)
  | .insert i k v, s => ((s i).insert k v).map (update s i)
  | .append i j, s =>
    -- `_size + that._size` is a `u32` sum: `resize` keeps its low 32 bits
    let a := (s i).resize ((s i).size + (s j).size)
    -- `that` is read through the table once `*this` is resized: the resized array for `j = i`
    let that := update s i a j
    (a.copyIn (s i).size that.size that.buf).map (update s i)
  | .resize i n, s => some (update s i ((s i).resize n))
  | .clear i, s => some (update s i (s i).clear)
  | .copyAssign i j, s => if i = j then some s else ((s i).assign (s j)).map (update s i)
  | .moveAssign i j, s => (swap L (s i) (s j)).map (put2 s i j)
  | .swap i j, s => (swap L (s i) (s j)).map (put2 s i j)

def Step (s : ℕ → SimpleArray α) (op : Op α) (t : ℕ → SimpleArray α) : Prop :=
  op.Valid (view s) ∧ exec L op s = some t

/-- Default-constructed arrays. -/
def init : ℕ → SimpleArray α := fun _ => empty L

variable {L}

/-- Every operation the source allows runs without a write past a block, keeps `Ok` and acts on
the contents as its list operation. -/
theorem exec_spec (hL : L < 2 ^ 32) (hs : ∀ n, Ok L (s n)) (hv : op.Valid (view s)) :
    ∃ t, exec L op s = some t ∧ (∀ n, Ok L (t n)) ∧ ListStep (view s) op (view t) := by
  cases op with
  | construct i =>
    exact step_of_update (f := some (empty L)) hs rfl (ok_empty hL) (.construct _ i)
  | constructSized i n =>
    obtain ⟨hok, hlen⟩ := ofSize_spec (α := α) hL (n := n) hv
    exact step_of_update (f := some (ofSize L n)) hs rfl hok (.constructSized _ i n _ hlen)
  | constructFilled i n v =>
    obtain ⟨b, hb, hok, hl⟩ := ofSizeFilled_spec hL (n := n) hv v
    exact step_of_update hs hb hok (by rw [hl]; exact .constructFilled _ i n v)
  | constructFrom i l =>
    obtain ⟨b, hb, hok, hl⟩ := ofList_spec hL (l := l) hv
    exact step_of_update hs hb hok (by rw [hl]; exact .constructFrom _ i l)
  | copyConstruct i j =>
    obtain ⟨b, hb, hok, hl⟩ := assign_spec (ok_empty hL) (s j) (hs j).size_lt
    exact step_of_update hs hb hok (by rw [hl]; exact .copyConstruct _ i j)
  | moveConstruct i j =>
    obtain ⟨a', b', hf, ha', hb', hal, hbl⟩ := swap_spec hL (ok_empty hL) (hs j)
    refine step_of_swap hs hf ha' hb' ?_
    rw [hal, hbl, toList_of_size_eq_zero (a := empty L) rfl]
    exact .moveConstruct _ i j
  | pushBack i v =>
    obtain ⟨b, hb, hok, hl⟩ := pushBack_spec (v := v) (hs i) (by simpa [Op.Valid, view] using hv)
    exact step_of_update hs hb hok (by rw [hl]; exact .pushBack _ i v)
  | emplaceBack i v =>
    obtain ⟨b, hb, hok, hl⟩ := emplaceBack_spec (v := v) (hs i) (by simpa [Op.Valid, view] using hv)
    exact step_of_update hs hb hok (by rw [hl]; exact .emplaceBack _ i v)
  | popBack i =>
    have h₀ : 0 < (s i).size := by
      rw [← length_toList]; exact List.length_pos_iff.mpr hv
    refine step_of_update (f := some (s i).popBack.1) hs rfl ((hs i).popBack h₀) ?_
    rw [toList_popBack h₀ (hs i).size_lt.le]
    exact .popBack _ i
  | insert i k v =>
    obtain ⟨hk, hfit⟩ : k ≤ (s i).size ∧ (s i).size + 16 < 2 ^ 32 := by
      simpa [Op.Valid, view] using hv
    obtain ⟨b, hb, hok, hl⟩ := insert_spec (v := v) (hs i) hk hfit
    exact step_of_update hs hb hok (by rw [hl]; exact .insert _ i k v)
  | append i j =>
    obtain ⟨hij, hfit⟩ : i ≠ j ∧ (s i).size + (s j).size < 2 ^ 32 := by
      simpa [Op.Valid, view] using hv
    obtain ⟨b, hb, hok, hl⟩ := append_spec (hs i) (s j) hfit
    refine step_of_update hs (by simp only [update_of_ne hij.symm]; exact hb) hok ?_
    rw [hl]
    exact .append _ i j
  | resize i n =>
    have hn : n < 2 ^ 32 := hv
    refine step_of_update (f := some ((s i).resize n)) hs rfl (hs i).resize ?_
    rw [toList_resize, wrap32_of_lt hn]
    exact .resize _ i n _ (by simp [view])
  | clear i =>
    exact step_of_update (f := some (s i).clear) hs rfl (hs i).clear
      (by rw [toList_clear]; exact .clear _ i)
  | copyAssign i j =>
    by_cases hij : i = j
    · -- `&other == this`: nothing happens
      subst hij
      refine ⟨s, if_pos rfl, hs, ?_⟩
      have h := ListStep.copyAssign (view s) i i
      rwa [update_eq_self] at h
    · obtain ⟨b, hb, hok, hl⟩ := assign_spec (hs i) (s j) (hs j).size_lt
      have h := step_of_update hs hb hok (by rw [hl]; exact .copyAssign _ i j)
      rwa [exec, if_neg hij]
  | moveAssign i j =>
    obtain ⟨a', b', hf, ha', hb', hal, hbl⟩ := swap_spec hL (hs i) (hs j)
    exact step_of_swap hs hf ha' hb' (by rw [hal, hbl]; exact .moveAssign _ i j)
  | swap i j =>
    obtain ⟨a', b', hf, ha', hb', hal, hbl⟩ := swap_spec hL (hs i) (hs j)
    exact step_of_swap hs hf ha' hb' (by rw [hal, hbl]; exact .swap _ i j)

section Local

variable (hL : L < 2 ^ 32)
include hL

theorem ok_step (hs : ∀ n, Ok L (s n)) {t : ℕ → SimpleArray α} (h : Step L s op t) :
    ∀ n, Ok L (t n) := by
  obtain ⟨t', ht', hok, -⟩ := exec_spec hL hs h.1
  rw [h.2, Option.some_inj] at ht'
  rw [ht']
  exact hok

theorem ok_init (n : ℕ) : Ok L (init L n : SimpleArray α) := ok_empty hL

/-- Every run of the table from `Ok` arrays is a run of the list operations on their contents. -/
theorem listStep_of_run {ops : List (Op α)} {t : ℕ → SimpleArray α} (h : Run (Step L) s ops t)
    (hs : ∀ n, Ok L (s n)) : Run ListStep (view s) ops (view t) := by
  induction h with
  | refl => exact .refl _
  | @cons s u _ op ops hstep _ ih =>
    obtain ⟨u', hu', hok, hl⟩ := exec_spec hL hs hstep.1
    rw [hstep.2, Option.some_inj] at hu'
    subst hu'
    exact .cons hl (ih hok)

/-- The model's refinement: every array a program builds is `Ok`, every operation the source
allows runs on it as its list operation, and so does every run. `_local_capacity` is a `u32`. -/
theorem simple_array_refines (hs : Reachable (· = init L) (Step L) s) :
    (∀ n, Ok L (s n)) ∧
    (∀ op, op.Valid (view s) → ∃ t, exec L op s = some t ∧ ListStep (view s) op (view t)) ∧
    ∀ ops t, Run (Step L) s ops t → Run ListStep (view s) ops (view t) := by
  have hok : ∀ n, Ok L (s n) :=
    hs.invariant (fun _ h₀ => h₀ ▸ ok_init hL) (fun _ _ _ h hst => ok_step hL h hst)
  refine ⟨hok, ?_, fun ops t h => listStep_of_run hL h hok⟩
  intro op hv
  obtain ⟨t, ht, -, hl⟩ := exec_spec hL hok hv
  exact ⟨t, ht, hl⟩

end Local

/-- At `2^31` elements the `u32` sum of `a += a` wraps to `0`: the array is emptied and nothing
is copied. -/
theorem exec_append_self_wrap (h : Ok L (s i)) (h31 : (s i).size = 2 ^ 31) :
    ∃ t, exec L (.append i i) s = some t ∧ (t i).size = 0 := by
  have hsz : ((s i).resize ((s i).size + (s i).size)).size = 0 := by
    rw [size_resize, h31]; rfl
  have hle : (s i).size + 0 ≤ ((s i).resize ((s i).size + (s i).size)).capacity := by
    rw [capacity_resize]
    have := h.size_le
    omega
  simp only [exec, update_self]
  rw [hsz, copyIn_of_le hle, Option.map_some]
  exact ⟨_, rfl, by rw [update_self, size_setRange, hsz]⟩

/-- `a += a` on an array built from a non-empty initializer list of more than a third of
`_local_capacity` elements writes past its block, while twice its size is a `u32`. -/
theorem append_self_overflows (l : List α) (i : ℕ) (hl : l ≠ []) (hL : L < 3 * l.length)
    (hlen : l.length < 2 ^ 31) :
    ∃ s, Reachable (· = init L) (Step L) s ∧ view s i = l ∧ exec L (.append i i) s = none := by
  have hl32 : l.length < 2 ^ 32 := by omega
  obtain ⟨b, hb, hcap, -, hbl⟩ := ofList_eq L hl32
  have hlen₀ : 0 < l.length := List.length_pos_iff.mpr hl
  have hsize : b.size = l.length := by rw [← length_toList, hbl]
  have hstep : Step L (init L) (.constructFrom i l) (update (init L) i b) :=
    ⟨hl32, by simp [exec, hb]⟩
  have h0 : Reachable (· = init L) (Step L) (init L : ℕ → SimpleArray α) := Reachable.of_init rfl
  refine ⟨update (init L) i b, h0.next hstep,
    by rw [view_update, update_self, hbl], ?_⟩
  simp only [exec, update_self]
  rw [append_self_eq_none (by omega) (by rw [hcap, hsize]; omega), Option.map_none]

theorem append_self_overflows_int :
    ∃ s : ℕ → SimpleArray ℕ, Reachable (· = init 16) (Step 16) s ∧
      view s 0 = [1, 2, 3, 4, 5, 6, 7, 8, 9] ∧
      exec 16 (.append 0 0) s = none :=
  append_self_overflows [1, 2, 3, 4, 5, 6, 7, 8, 9] 0 (by decide) (by decide) (by decide)

end SimpleArray

end Rpcs3.Rsx
