import Mathlib
import Rpcs3.Lib.Transition
import Rpcs3.Lib.Chain

/-! `lf_array<T, N>` (`Utilities/lockless.h`): blocks of `N` elements chained through `m_next`,
the array itself the first block. `operator[](index)` walks one block per `N` of the index; at
a null `m_next` it allocates a block and CASes it into the first null `m_next` from where it
stands, going deeper after each failed CAS, and walks on to the block that follows its own.

Blocks are numbered, the array itself `0`, and `new` takes the next number. A thread's walk is
one step per block and each CAS of the install loop one step; a failed `ensure` (an index more
than a block past the end) ends the call. The element a call returned, its block and offset,
is kept with its index as ghost state.

On every run the blocks linked from the array form a chain that only grows at its end, each
allocated block is linked or is held by exactly one thread in its install loop, and every
element returned for an index is the one at its offset in its block of the chain (`Layout`).
So two calls return one element exactly when they ask for one index, and `size()` is `N` times
the length of the chain (`lf_array_contract`). -/
namespace Rpcs3.Util.LfArray

open Transition LinkedList

variable {τ : Type*}

/-- Where a thread is in `operator[](index)`: at the loop head with `_this = cur`, or in the
install loop with its block `new`, at `ptr`, with the `next` it determined so far. -/
inductive Pc where
  | idle
  | walk (index i cur : ℕ) (installed : Bool)
  | install (index i cur new ptr : ℕ) (next : Option ℕ)
  | failed
  deriving DecidableEq

/-- The block a thread holds: allocated and not yet linked. -/
def Pc.new : Pc → Option ℕ
  | .install _ _ _ new _ _ => some new
  | _ => none

structure State (τ : Type*) where
  next : ℕ → Option ℕ
  fresh : ℕ
  pc : τ → Pc
  /-- Ghost: the index, block and offset of each element returned. -/
  returned : List (ℕ × ℕ × ℕ)

def init : State τ := ⟨fun _ => none, 1, fun _ => .idle, []⟩

variable (N : ℕ)

/-- `size()`: `N` for each block met along `m_next`, the walk bounded by `fuel` blocks. -/
def sizeLoop (next : ℕ → Option ℕ) : ℕ → Option ℕ → ℕ
  | 0, _ => 0
  | _ + 1, none => 0
  | fuel + 1, some b => N + sizeLoop next fuel (next b)

/-- `size()` of the array, with as much fuel as there are blocks. -/
def size (s : State τ) : ℕ := sizeLoop N s.next s.fresh (some 0)

variable [DecidableEq τ] in
inductive Step : State τ → τ → State τ → Prop
  | call {s : State τ} {p : τ} {index : ℕ} (hp : s.pc p = .idle) :
      Step s p { s with pc := Function.update s.pc p (.walk index 0 0 false) }
  /-- `index - i < N`: the element is in this block. -/
  | found {s : State τ} {p : τ} {index i cur : ℕ} {installed : Bool}
      (hp : s.pc p = .walk index i cur installed) (hlt : index - i < N) :
      Step s p { s with pc := Function.update s.pc p .idle,
                        returned := s.returned ++ [(index, cur, index - i)] }
  | advance {s : State τ} {p : τ} {index i cur b : ℕ} {installed : Bool}
      (hp : s.pc p = .walk index i cur installed) (hge : ¬index - i < N)
      (hnext : s.next cur = some b) :
      Step s p { s with pc := Function.update s.pc p (.walk index (i + N) b installed) }
  /-- `ensure(!installed && index - i < N * 2)` fails at the end of the chain. -/
  | ensureFail {s : State τ} {p : τ} {index i cur : ℕ} {installed : Bool}
      (hp : s.pc p = .walk index i cur installed) (hge : ¬index - i < N)
      (hnext : s.next cur = none) (hens : ¬(installed = false ∧ index - i < N * 2)) :
      Step s p { s with pc := Function.update s.pc p .failed }
  /-- `new lf_array` at the end of the chain, and the install loop from `_this`. -/
  | alloc {s : State τ} {p : τ} {index i cur : ℕ} {installed : Bool}
      (hp : s.pc p = .walk index i cur installed) (hge : ¬index - i < N)
      (hnext : s.next cur = none) (hens : installed = false ∧ index - i < N * 2) :
      Step s p { s with fresh := s.fresh + 1,
                        pc := Function.update s.pc p (.install index i cur s.fresh cur none) }
  /-- The CAS installs the block; the loop ends and the walk goes on to `next`. -/
  | casOk {s : State τ} {p : τ} {index i cur new ptr : ℕ} {next : Option ℕ}
      (hp : s.pc p = .install index i cur new ptr next) (hnull : s.next ptr = none) :
      Step s p { s with next := Function.update s.next ptr (some new),
                        pc := Function.update s.pc p (.walk index (i + N) (next.getD new) true) }
  /-- The CAS finds a block and goes deeper; the first block found is the `next` one. -/
  | casFail {s : State τ} {p : τ} {index i cur new ptr b : ℕ} {next : Option ℕ}
      (hp : s.pc p = .install index i cur new ptr next) (hptr : s.next ptr = some b) :
      Step s p { s with pc := Function.update s.pc p (.install index i cur new b (next.or (some b))) }

theorem sizeLoop_chain {next : ℕ → Option ℕ} {p : Option ℕ} {l : List ℕ} (h : Chain next p l)
    {fuel : ℕ} (hfuel : l.length ≤ fuel) : sizeLoop N next fuel p = N * l.length := by
  induction h generalizing fuel with
  | nil =>
    cases fuel <;> rfl
  | @cons a l _ ih =>
    obtain ⟨fuel, rfl⟩ : ∃ f, fuel = f + 1 := ⟨fuel - 1, by simp at hfuel; omega⟩
    rw [sizeLoop, ih (by simpa using hfuel), List.length_cons, Nat.mul_succ, Nat.add_comm]

/-! ### The invariant -/

/-- What a thread's position says of the chain `bs`: its block is the `k`-th, with `i = N * k`
not past the index; in the install loop the index is in the block after it, its own block is
allocated and unlinked, and `ptr` is its block with nothing found yet, or a later block with
`next` the block after its own. -/
def PcOk (bs : List ℕ) (fresh : ℕ) : Pc → Prop
  | .idle => True
  | .failed => True
  | .walk index i cur installed => ∃ k, bs[k]? = some cur ∧ i = N * k ∧ i ≤ index ∧
      (installed = true → index < i + N)
  | .install index i cur new ptr next => ∃ k, bs[k]? = some cur ∧ i = N * k ∧
      i + N ≤ index ∧ index < i + N * 2 ∧ new ∉ bs ∧ new < fresh ∧
      ((ptr = cur ∧ next = none) ∨ ∃ j, k < j ∧ bs[j]? = some ptr ∧ next = bs[k + 1]?)

/-- The chain `bs` from the array, the blocks, the threads and the returned elements. -/
structure Layout (s : State τ) (bs : List ℕ) : Prop where
  chain : Chain s.next (some 0) bs
  lt_fresh : ∀ b ∈ bs, b < s.fresh
  unlinked : ∀ b, b ∉ bs → s.next b = none
  pc_ok : ∀ p, PcOk N bs s.fresh (s.pc p)
  held : ∀ b < s.fresh, b ∉ bs → ∃ p, (s.pc p).new = some b
  held_unique : ∀ p q b, (s.pc p).new = some b → (s.pc q).new = some b → p = q
  returned : ∀ x b o, (x, b, o) ∈ s.returned → bs[x / N]? = some b ∧ o = x % N

theorem getElem?_append_of_eq_some {l l' : List ℕ} {k x : ℕ} (h : l[k]? = some x) :
    (l ++ l')[k]? = some x := by
  rw [List.getElem?_append_left (List.getElem?_eq_some_iff.1 h).1, h]

/-- A thread's position stays right when the chain grows and more blocks are allocated, as
long as its own block is not among those linked. -/
theorem PcOk.mono {bs : List ℕ} {fresh fresh' : ℕ} {c : Pc} (h : PcOk N bs fresh c)
    (ext : List ℕ) (hfresh : fresh ≤ fresh') (hnew : ∀ n, c.new = some n → n ∉ ext) :
    PcOk N (bs ++ ext) fresh' c := by
  match c, h with
  | .idle, _ => trivial
  | .failed, _ => trivial
  | .walk index i cur installed, ⟨k, hk, hi, hle, hinst⟩ =>
    exact ⟨k, getElem?_append_of_eq_some hk, hi, hle, hinst⟩
  | .install index i cur new ptr next, ⟨k, hk, hi, hle, hlt, hnb, hnf, hptr⟩ =>
    refine ⟨k, getElem?_append_of_eq_some hk, hi, hle, hlt, ?_, by omega, ?_⟩
    · rw [List.mem_append, not_or]
      exact ⟨hnb, hnew new rfl⟩
    · rcases hptr with hptr | ⟨j, hkj, hj, hnext⟩
      · exact .inl hptr
      · have hk1 : k + 1 < bs.length := by
          have := (List.getElem?_eq_some_iff.1 hj).1
          omega
        refine .inr ⟨j, hkj, getElem?_append_of_eq_some hj, ?_⟩
        rw [hnext, List.getElem?_append_left hk1]

theorem div_of_block {x i k : ℕ} (hi : i = N * k) (hle : i ≤ x) (hlt : x - i < N) :
    x / N = k ∧ x - i = x % N := by
  have hki : k * N = i := by rw [hi, Nat.mul_comm]
  have hdiv : x / N = k :=
    Nat.div_eq_of_lt_le (by omega) (by rw [Nat.add_mul, Nat.one_mul]; omega)
  refine ⟨hdiv, ?_⟩
  rw [Nat.mod_eq_sub_mul_div, hdiv, hi]

theorem inv_init : Layout N (init : State τ) [0] := by
  refine ⟨.cons .nil, ?_, ?_, fun _ => trivial, ?_, ?_, ?_⟩
  · simp [init]
  · intro b _
    rfl
  · intro b hb hnb
    simp only [init] at hb
    simp_all
  · intro p q b hp
    simp [init, Pc.new] at hp
  · simp [init]

/-- The blocks a thread holds are allocated and not in the chain. -/
theorem Layout.held_block {s : State τ} {bs : List ℕ} (hl : Layout N s bs) {p : τ} {n : ℕ}
    (hn : (s.pc p).new = some n) : n ∉ bs ∧ n < s.fresh := by
  have hok := hl.pc_ok p
  cases hc : s.pc p <;> rw [hc] at hn hok <;> simp only [Pc.new, reduceCtorEq] at hn
  obtain ⟨-, -, -, -, -, hnb, hnf, -⟩ := hok
  rw [Option.some.inj hn] at hnb hnf
  exact ⟨hnb, hnf⟩

theorem Layout.record {s : State τ} {bs : List ℕ} (hl : Layout N s bs) {x b o : ℕ}
    (hb : bs[x / N]? = some b) (ho : o = x % N) :
    Layout N { s with returned := s.returned ++ [(x, b, o)] } bs := by
  refine ⟨hl.chain, hl.lt_fresh, hl.unlinked, hl.pc_ok, hl.held, hl.held_unique, ?_⟩
  intro x' b' o' hmem
  rcases List.mem_append.1 hmem with hmem | hmem
  · exact hl.returned x' b' o' hmem
  · simp only [List.mem_singleton, Prod.mk.injEq] at hmem
    obtain ⟨rfl, rfl, rfl⟩ := hmem
    exact ⟨hb, ho⟩

/-- A walk reaches the end of the chain only before it installed a block, and its `ensure`
holds exactly for an index in the block after the last one. -/
theorem Layout.ensure_iff {s : State τ} {bs : List ℕ} (hl : Layout N s bs) {p : τ}
    {index i cur : ℕ} {installed : Bool} (hp : s.pc p = .walk index i cur installed)
    (hge : ¬index - i < N) (hnext : s.next cur = none) :
    installed = false ∧ (index - i < N * 2 ↔ index < N * (bs.length + 1)) := by
  have hok := hl.pc_ok p
  rw [hp] at hok
  obtain ⟨k, hk, hi, hle, hinst⟩ := hok
  have hlen : bs.length = k + 1 := by
    have hend : bs[k + 1]? = none := by rw [hl.chain.getElem?_succ hk, hnext]
    have h1 := (List.getElem?_eq_some_iff.1 hk).1
    have h2 := List.getElem?_eq_none_iff.1 hend
    omega
  refine ⟨?_, ?_⟩
  · cases installed
    · rfl
    · have := hinst rfl
      omega
  · have hend : N * (bs.length + 1) = i + N * 2 := by
      rw [hlen, hi]
      ring
    rw [hend]
    omega

/-! ### Steps -/

variable [DecidableEq τ]

theorem new_update (pc : τ → Pc) (p q : τ) (c : Pc) :
    (Function.update pc p c q).new = if q = p then c.new else (pc q).new := by
  rw [Function.update_apply]
  split_ifs <;> rfl

/-- A thread that moves within the chain, keeping the block it holds, keeps the layout. -/
theorem Layout.setPc {s : State τ} {bs : List ℕ} (hl : Layout N s bs) {p : τ} {c : Pc}
    (hnew : c.new = (s.pc p).new) (hok : PcOk N bs s.fresh c) :
    Layout N { s with pc := Function.update s.pc p c } bs := by
  have hsame : ∀ q, (Function.update s.pc p c q).new = (s.pc q).new := by
    intro q
    rw [new_update]
    split_ifs with hq
    · rw [hq, hnew]
    · rfl
  refine ⟨hl.chain, hl.lt_fresh, hl.unlinked, ?_, ?_, ?_, hl.returned⟩
  · intro q
    dsimp only
    rw [Function.update_apply]
    split_ifs
    · exact hok
    · exact hl.pc_ok q
  · intro b hb hnb
    obtain ⟨q, hq⟩ := hl.held b hb hnb
    exact ⟨q, by rw [hsame]; exact hq⟩
  · intro q q' b hq hq'
    rw [hsame] at hq hq'
    exact hl.held_unique q q' b hq hq'

theorem Layout.call {s : State τ} {bs : List ℕ} (hl : Layout N s bs) {p : τ} {index : ℕ}
    (hp : s.pc p = .idle) :
    Layout N { s with pc := Function.update s.pc p (.walk index 0 0 false) } bs := by
  refine hl.setPc N (by rw [hp]; rfl) ⟨0, ?_, by simp, Nat.zero_le _, by simp⟩
  rw [← List.head?_eq_getElem?, hl.chain.head?_eq]

theorem Layout.found {s : State τ} {bs : List ℕ} (hl : Layout N s bs) {p : τ}
    {index i cur : ℕ} {installed : Bool} (hp : s.pc p = .walk index i cur installed)
    (hlt : index - i < N) :
    Layout N { s with pc := Function.update s.pc p .idle,
                      returned := s.returned ++ [(index, cur, index - i)] } bs := by
  have hok := hl.pc_ok p
  rw [hp] at hok
  obtain ⟨k, hk, hi, hle, -⟩ := hok
  obtain ⟨hdiv, hmod⟩ := div_of_block N hi hle hlt
  have hl' := hl.setPc N (p := p) (c := .idle) (by rw [hp]; rfl) trivial
  exact hl'.record N (by rw [hdiv]; exact hk) hmod

theorem Layout.advance {s : State τ} {bs : List ℕ} (hl : Layout N s bs) {p : τ}
    {index i cur b : ℕ} {installed : Bool} (hp : s.pc p = .walk index i cur installed)
    (hge : ¬index - i < N) (hnext : s.next cur = some b) :
    Layout N { s with pc := Function.update s.pc p (.walk index (i + N) b installed) } bs := by
  have hok := hl.pc_ok p
  rw [hp] at hok
  obtain ⟨k, hk, hi, hle, hinst⟩ := hok
  refine hl.setPc N (by rw [hp]; rfl) ⟨k + 1, ?_, by rw [hi, Nat.mul_succ], by omega, ?_⟩
  · rw [hl.chain.getElem?_succ hk, hnext]
  · intro h
    have := hinst h
    omega

theorem Layout.ensureFail {s : State τ} {bs : List ℕ} (hl : Layout N s bs) {p : τ}
    {index i cur : ℕ} {installed : Bool} (hp : s.pc p = .walk index i cur installed) :
    Layout N { s with pc := Function.update s.pc p .failed } bs :=
  hl.setPc N (by rw [hp]; rfl) trivial

/-- The new block is the next number: allocated, unlinked and held by the thread alone. -/
theorem Layout.alloc {s : State τ} {bs : List ℕ} (hl : Layout N s bs) {p : τ}
    {index i cur : ℕ} {installed : Bool} (hp : s.pc p = .walk index i cur installed)
    (hge : ¬index - i < N) (hens : installed = false ∧ index - i < N * 2) :
    Layout N { s with fresh := s.fresh + 1,
                      pc := Function.update s.pc p (.install index i cur s.fresh cur none) } bs := by
  have hok := hl.pc_ok p
  rw [hp] at hok
  obtain ⟨k, hk, hi, hle, -⟩ := hok
  have hfresh : s.fresh ∉ bs := fun h => Nat.lt_irrefl _ (hl.lt_fresh _ h)
  refine ⟨hl.chain, fun b hb => Nat.lt_succ_of_lt (hl.lt_fresh b hb), hl.unlinked, ?_, ?_, ?_,
    hl.returned⟩
  · intro q
    dsimp only
    rw [Function.update_apply]
    split_ifs
    · exact ⟨k, hk, hi, by omega, by omega, hfresh, Nat.lt_succ_self _, .inl ⟨rfl, rfl⟩⟩
    · simpa using (hl.pc_ok q).mono N [] (Nat.le_succ _) (by simp)
  · intro b hb hnb
    rcases Nat.lt_succ_iff_lt_or_eq.1 hb with hb | rfl
    · obtain ⟨q, hq⟩ := hl.held b hb hnb
      have hqp : q ≠ p := by
        rintro rfl
        rw [hp] at hq
        cases hq
      exact ⟨q, by dsimp only; rw [Function.update_of_ne hqp]; exact hq⟩
    · exact ⟨p, by simp [Pc.new]⟩
  · -- no other thread holds the new block: they hold blocks below it
    intro q q' b hq hq'
    dsimp only at hq hq'
    rw [new_update] at hq hq'
    split_ifs at hq hq' with h1 h2 h2
    · rw [h1, h2]
    · cases hq
      exact absurd (hl.held_block N hq').2 (Nat.lt_irrefl _)
    · cases hq'
      exact absurd (hl.held_block N hq).2 (Nat.lt_irrefl _)
    · exact hl.held_unique q q' b hq hq'

/-- The CAS links the thread's block after the last one: the chain grows by it, and the walk
goes on to the block after the thread's own, its block or the first one another linked. -/
theorem Layout.casOk {s : State τ} {bs : List ℕ} (hl : Layout N s bs) {p : τ}
    {index i cur new ptr : ℕ} {next : Option ℕ} (hp : s.pc p = .install index i cur new ptr next)
    (hnull : s.next ptr = none) :
    Layout N { s with next := Function.update s.next ptr (some new),
                      pc := Function.update s.pc p (.walk index (i + N) (next.getD new) true) }
      (bs ++ [new]) := by
  have hok := hl.pc_ok p
  rw [hp] at hok
  obtain ⟨k, hk, hi, hle, hlt, hnb, hnf, hptr⟩ := hok
  have hklen : k < bs.length := (List.getElem?_eq_some_iff.1 hk).1
  have hptr_mem : ptr ∈ bs := by
    rcases hptr with ⟨rfl, -⟩ | ⟨j, -, hj, -⟩
    · exact List.mem_of_getElem? hk
    · exact List.mem_of_getElem? hj
  have hafter : (bs ++ [new])[k + 1]? = some (next.getD new) := by
    rcases hptr with ⟨rfl, rfl⟩ | ⟨j, hkj, hj, hnext⟩
    · -- the thread's own block was the last one
      have hend : bs[k + 1]? = none := by rw [hl.chain.getElem?_succ hk, hnull]
      have hlen : bs.length = k + 1 := by
        have := List.getElem?_eq_none_iff.1 hend
        omega
      rw [List.getElem?_append_right (by omega), hlen, Nat.sub_self]
      rfl
    · have hk1 : k + 1 < bs.length := by
        have := (List.getElem?_eq_some_iff.1 hj).1
        omega
      obtain ⟨x, hx⟩ : ∃ x, bs[k + 1]? = some x := ⟨bs[k + 1], List.getElem?_eq_getElem hk1⟩
      rw [hnext, hx]
      exact getElem?_append_of_eq_some hx
  have hother : ∀ q, q ≠ p → ∀ n, (s.pc q).new = some n → n ∉ [new] := by
    intro q hq n hn hmem
    rw [List.mem_singleton] at hmem
    subst hmem
    exact hq (hl.held_unique q p n hn (by rw [hp]; rfl))
  refine ⟨hl.chain.snoc hptr_mem hnull hnb (hl.unlinked new hnb), ?_, ?_, ?_, ?_, ?_, ?_⟩
  · intro b hb
    rcases List.mem_append.1 hb with hb | hb
    · exact hl.lt_fresh b hb
    · rw [List.mem_singleton.1 hb]
      exact hnf
  · intro b hb
    rw [List.mem_append, not_or] at hb
    have hbp : b ≠ ptr := fun e => hb.1 (e ▸ hptr_mem)
    dsimp only
    rw [Function.update_of_ne hbp]
    exact hl.unlinked b hb.1
  · intro q
    dsimp only
    rw [Function.update_apply]
    split_ifs with hq
    · exact ⟨k + 1, hafter, by rw [hi, Nat.mul_succ], by omega, fun _ => by omega⟩
    · exact (hl.pc_ok q).mono N [new] le_rfl (hother q hq)
  · intro b hb hnb'
    rw [List.mem_append, not_or, List.mem_singleton] at hnb'
    obtain ⟨q, hq⟩ := hl.held b hb hnb'.1
    have hqp : q ≠ p := by
      rintro rfl
      rw [hp] at hq
      exact hnb'.2 (Option.some.inj hq).symm
    exact ⟨q, by dsimp only; rw [Function.update_of_ne hqp]; exact hq⟩
  · intro q q' b hq hq'
    dsimp only at hq hq'
    rw [new_update] at hq hq'
    split_ifs at hq hq' <;> first | cases hq | cases hq' | exact hl.held_unique q q' b hq hq'
  · intro x b o hmem
    obtain ⟨hb, ho⟩ := hl.returned x b o hmem
    exact ⟨getElem?_append_of_eq_some hb, ho⟩

/-- A failed CAS moves on to the block it found; the first one found follows the thread's own. -/
theorem Layout.casFail {s : State τ} {bs : List ℕ} (hl : Layout N s bs) {p : τ}
    {index i cur new ptr b : ℕ} {next : Option ℕ} (hp : s.pc p = .install index i cur new ptr next)
    (hptr : s.next ptr = some b) :
    Layout N { s with pc := Function.update s.pc p (.install index i cur new b (next.or (some b))) }
      bs := by
  have hok := hl.pc_ok p
  rw [hp] at hok
  obtain ⟨k, hk, hi, hle, hlt, hnb, hnf, hptr'⟩ := hok
  refine hl.setPc N (by rw [hp]; rfl) ⟨k, hk, hi, hle, hlt, hnb, hnf, .inr ?_⟩
  rcases hptr' with ⟨rfl, rfl⟩ | ⟨j, hkj, hj, hnext⟩
  · have hb : bs[k + 1]? = some b := by rw [hl.chain.getElem?_succ hk, hptr]
    exact ⟨k + 1, Nat.lt_succ_self k, hb, by rw [hb]; rfl⟩
  · have hj1 : bs[j + 1]? = some b := by rw [hl.chain.getElem?_succ hj, hptr]
    have hk1 : k + 1 < bs.length := by
      have := (List.getElem?_eq_some_iff.1 hj).1
      omega
    refine ⟨j + 1, by omega, hj1, ?_⟩
    rw [hnext, List.getElem?_eq_getElem hk1]
    rfl

/-! ### Runs -/

theorem inv_step {s t : State τ} {p : τ} (hs : ∃ bs, Layout N s bs) (hst : Step N s p t) :
    ∃ bs, Layout N t bs := by
  obtain ⟨bs, hl⟩ := hs
  cases hst with
  | call hp => exact ⟨bs, hl.call N hp⟩
  | found hp hlt => exact ⟨bs, hl.found N hp hlt⟩
  | advance hp hge hnext => exact ⟨bs, hl.advance N hp hge hnext⟩
  | ensureFail hp => exact ⟨bs, hl.ensureFail N hp⟩
  | alloc hp hge _ hens => exact ⟨bs, hl.alloc N hp hge hens⟩
  | casOk hp hnull => exact ⟨_, hl.casOk N hp hnull⟩
  | casFail hp hptr => exact ⟨bs, hl.casFail N hp hptr⟩

theorem layout_of_reachable {s : State τ} (h : Reachable (· = init) (Step N) s) :
    ∃ bs, Layout N s bs :=
  h.invariant (fun _ h => h ▸ ⟨[0], inv_init N⟩) (fun _ _ _ hs hst => inv_step N hs hst)

omit [DecidableEq τ] in
theorem index_eq_of_getElem? {l : List ℕ} (h : l.Nodup) {i j b : ℕ} (hi : l[i]? = some b)
    (hj : l[j]? = some b) : i = j := by
  obtain ⟨hi', hi⟩ := List.getElem?_eq_some_iff.1 hi
  obtain ⟨hj', hj⟩ := List.getElem?_eq_some_iff.1 hj
  exact h.getElem_inj_iff.1 (hi.trans hj.symm)

theorem lf_array_contract {s : State τ} (hs : Reachable (· = init) (Step N) s) :
    (∀ x y b o b' o', (x, b, o) ∈ s.returned → (y, b', o') ∈ s.returned →
      ((b, o) = (b', o') ↔ x = y)) ∧
    ∃ bs, Chain s.next (some 0) bs ∧ bs.Nodup ∧ (∀ b, b ∉ bs → s.next b = none) ∧
      size N s = N * bs.length ∧
      ∀ b < s.fresh, (b ∈ bs ∧ ∀ p, (s.pc p).new ≠ some b) ∨
        (b ∉ bs ∧ ∃! p, (s.pc p).new = some b) := by
  obtain ⟨bs, hl⟩ := layout_of_reachable N hs
  have hnd := hl.chain.nodup
  refine ⟨?_, bs, hl.chain, hnd, hl.unlinked, ?_, ?_⟩
  · intro x y b o b' o' hx hy
    obtain ⟨hbx, rfl⟩ := hl.returned x b o hx
    obtain ⟨hby, rfl⟩ := hl.returned y b' o' hy
    constructor
    · intro h
      obtain ⟨rfl, hmod⟩ := Prod.mk.inj h
      have hdiv : x / N = y / N := index_eq_of_getElem? hnd hbx hby
      rw [← Nat.div_add_mod x N, ← Nat.div_add_mod y N, hdiv, hmod]
    · rintro rfl
      rw [hbx, Option.some.injEq] at hby
      rw [hby]
  · have hlen : bs.length ≤ s.fresh := by
      simpa using (hnd.subperm fun b hb => List.mem_range.2 (hl.lt_fresh b hb)).length_le
    exact sizeLoop_chain N hl.chain hlen
  · intro b hb
    by_cases hmem : b ∈ bs
    · exact .inl ⟨hmem, fun p hp => (hl.held_block N hp).1 hmem⟩
    · obtain ⟨p, hp⟩ := hl.held b hb hmem
      exact .inr ⟨hmem, p, hp, fun q hq => hl.held_unique q p b hq hp⟩

/-- Two threads race to install the second block of an `lf_array<_, 4>`: thread 1 asks for index 5
and thread 2 for index 6; both find `m_next` null and allocate. Thread 1's CAS wins; thread 2's
fails, it goes one block deeper and installs its block there, and both return elements of the
block thread 1 linked. -/
theorem lf_array_contract_race :
    ∃ s : State ℕ, Reachable (· = init) (Step 4) s ∧ s.returned = [(5, 1, 1), (6, 1, 2)] ∧
      s.fresh = 3 ∧
      (∀ x y b o b' o', (x, b, o) ∈ s.returned → (y, b', o') ∈ s.returned →
        ((b, o) = (b', o') ↔ x = y)) ∧
      ∃ bs, Chain s.next (some 0) bs ∧ bs.Nodup ∧ (∀ b, b ∉ bs → s.next b = none) ∧
        size 4 s = 4 * bs.length ∧
        ∀ b < s.fresh, (b ∈ bs ∧ ∀ p, (s.pc p).new ≠ some b) ∨
          (b ∉ bs ∧ ∃! p, (s.pc p).new = some b) := by
  have h₀ : Reachable (· = init) (Step 4) (init : State ℕ) := Reachable.of_init rfl
  have h₁ := h₀.next (@Step.call ℕ 4 _ _ 1 5 rfl)
  have h₂ := h₁.next (@Step.call ℕ 4 _ _ 2 6 rfl)
  have h₃ := h₂.next (Step.alloc (p := 1) rfl (by decide) rfl (by decide))
  have h₄ := h₃.next (Step.alloc (p := 2) rfl (by decide) rfl (by decide))
  -- thread 1 links block 1; thread 2's CAS then meets it and moves on to its `m_next`
  have h₅ := h₄.next (Step.casOk (p := 1) rfl rfl)
  have h₆ := h₅.next (Step.casFail (p := 2) rfl rfl)
  have h₇ := h₆.next (Step.casOk (p := 2) rfl rfl)
  have h₈ := h₇.next (Step.found (p := 1) rfl (by decide))
  have h₉ := h₈.next (Step.found (p := 2) rfl (by decide))
  exact ⟨_, h₉, rfl, rfl, lf_array_contract 4 h₉⟩

end Rpcs3.Util.LfArray
