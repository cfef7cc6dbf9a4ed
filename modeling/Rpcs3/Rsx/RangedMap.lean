import Mathlib
import Rpcs3.Lib.Transition

/-! `rsx::ranged_map<T, BlockSize>` (`rpcs3/Emu/RSX/Common/ranged_map.hpp`): values keyed by
the start address of a range, kept in one map per block of `BlockSize` addresses, the block of
the start. A range query starts at the block of its start, or earlier at the `head_block`
recorded there, which `emplace` lowers on every block its range covers, and walks the blocks
up to the block of the query's end.

The blocks' maps are lists in their iteration order, with `insert_or_assign` replacing a
value in place and appending a new key; the block pointers of the iterator are integers, since
`begin_range` steps one block before the first. The end of the range emplaced at each start is
ghost state of the runs (`Sys.ext`); the `id` of the metadata is never read and is left out.

On every run the `head_block` of every block covered by a stored range is at most the block of
its start (`Inv`). Iterating from `begin_range` reaches `end()` through the entries of the
blocks it scans, in order (`visits_beginRange`), each once, and through every entry whose range
overlaps the query (`ranged_map_contract`). -/
namespace Rpcs3.Rsx.RangedMap

open Transition

variable {T : Type*}

def blockFor (blockSize address : ℕ) : ℕ := address / blockSize

/-- `m_data`, the map of each block from start addresses to values, and the `head_block` of
each block's metadata. -/
structure Map (T : Type*) where
  data : ℕ → List (ℕ × T)
  headBlock : ℕ → ℕ

/-- The constructed map: no entries, and `head_block = umax` everywhere. -/
def Map.empty : Map T := ⟨fun _ => [], fun _ => 0xFFFFFFFF⟩

/-- `broadcast_insert`: lower `head_block` to the block of the start on every block from it to
the block of the end. -/
def broadcastInsert (blockSize : ℕ) (headBlock : ℕ → ℕ) (start last : ℕ) : ℕ → ℕ :=
  let head := blockFor blockSize start
  (List.range' head (blockFor blockSize last + 1 - head)).foldl
    (fun hb b => Function.update hb b (min head (hb b))) headBlock

/-- `unordered_map::insert_or_assign`. -/
def insertOrAssign (block : List (ℕ × T)) (key : ℕ) (value : T) : List (ℕ × T) :=
  if block.any (·.1 == key) then block.map fun e => if e.1 = key then (key, value) else e
  else block ++ [(key, value)]

def emplace (blockSize : ℕ) (m : Map T) (start last : ℕ) (value : T) : Map T :=
  let headBlock := broadcastInsert blockSize m.headBlock start last
  let b := blockFor blockSize start
  ⟨Function.update m.data b (insertOrAssign (m.data b) start value), headBlock⟩

@[simp] theorem emplace_data (blockSize : ℕ) (m : Map T) (start last : ℕ) (value : T) :
    (emplace blockSize m start last value).data = Function.update m.data
      (blockFor blockSize start) (insertOrAssign (m.data (blockFor blockSize start)) start value) :=
  rfl

@[simp] theorem emplace_headBlock (blockSize : ℕ) (m : Map T) (start last : ℕ) (value : T) :
    (emplace blockSize m start last value).headBlock =
      broadcastInsert blockSize m.headBlock start last := rfl

/-- `erase(address)`. -/
def erase (blockSize : ℕ) (m : Map T) (address : ℕ) : Map T :=
  let b := blockFor blockSize address
  { m with data := Function.update m.data b ((m.data b).filter (·.1 != address)) }

def clear (m : Map T) : Map T := { m with data := fun _ => [] }

/-! ### Iterators -/

/-- An iterator: the block `m_current` (`none` for `nullptr`), the last block `m_end` and the
position of `m_it` in the current block. -/
structure Iter where
  current : Option ℤ
  last : ℤ
  pos : ℕ

/-- The loop of `forward_scan`, with one turn of fuel for each block up to the last. -/
def forwardScanLoop (data : ℕ → List (ℕ × T)) (last : ℤ) : ℕ → ℤ → Iter
  | 0, _ => ⟨none, last, 0⟩
  | fuel + 1, cur =>
    if cur < last then
      if data (cur + 1).toNat ≠ [] then ⟨some (cur + 1), last, 0⟩
      else forwardScanLoop data last fuel (cur + 1)
    else ⟨none, last, 0⟩

/-- `forward_scan` from the block `cur`: the first nonempty block after it, up to the last. -/
def forwardScan (data : ℕ → List (ℕ × T)) (cur last : ℤ) : Iter :=
  forwardScanLoop data last (last - cur).toNat cur

/-- `next`, the `++` of an iterator. -/
def next (data : ℕ → List (ℕ × T)) (it : Iter) : Iter :=
  match it.current with
  | none => it
  | some cur =>
    if it.pos + 1 < (data cur.toNat).length then { it with pos := it.pos + 1 }
    else forwardScan data cur it.last

/-- The entry an iterator points at. -/
def entry (data : ℕ → List (ℕ × T)) (it : Iter) : Option (ℕ × T) :=
  it.current.bind fun cur => (data cur.toNat)[it.pos]?

/-- `begin_range(range)`: one block before the block of the start or its `head_block`,
scanned forward up to the block of the end. -/
def beginRange (blockSize : ℕ) (m : Map T) (start last : ℕ) : Iter :=
  let startBlockId := blockFor blockSize start
  forwardScan m.data ((min startBlockId (m.headBlock startBlockId) : ℕ) - 1)
    (blockFor blockSize last)

/-- `find(key)`: the entry with that start, in an iterator that ends with its block. -/
def find (blockSize : ℕ) (m : Map T) (key : ℕ) : Iter :=
  let b := blockFor blockSize key
  match (m.data b).findIdx? (·.1 == key) with
  | some p => ⟨some b, b, p⟩
  | none => ⟨none, 0, 0⟩

/-- `iterator::erase`: the entry goes, and the iterator moves to the next one. -/
def Iter.erase (data : ℕ → List (ℕ × T)) (it : Iter) : (ℕ → List (ℕ × T)) × Iter :=
  match it.current with
  | none => (data, it)
  | some cur =>
    let data := Function.update data cur.toNat ((data cur.toNat).eraseIdx it.pos)
    if it.pos < (data cur.toNat).length then (data, it)
    else (data, forwardScan data cur it.last)

theorem Iter.erase_fst {data : ℕ → List (ℕ × T)} {it : Iter} {c : ℤ} (hc : it.current = some c) :
    (it.erase data).1 = Function.update data c.toNat ((data c.toNat).eraseIdx it.pos) := by
  simp only [Iter.erase, hc]
  split_ifs <;> rfl

/-- Iterating from `it` with `++` until `end()` goes through the entries `l`. -/
inductive Visits (data : ℕ → List (ℕ × T)) : Iter → List (ℕ × T) → Prop
  | finish {it : Iter} : it.current = none → Visits data it []
  | step {it : Iter} {e : ℕ × T} {l : List (ℕ × T)} :
      entry data it = some e → Visits data (next data it) l → Visits data it (e :: l)

/-! ### The blocks a scan goes through -/

/-- The entries of the blocks `a` to `b`, in order. -/
def blocks (data : ℕ → List (ℕ × T)) (a b : ℕ) : List (ℕ × T) :=
  (List.range' a (b + 1 - a)).flatMap data

theorem blocks_of_le {data : ℕ → List (ℕ × T)} {a b : ℕ} (h : a ≤ b) :
    blocks data a b = data a ++ blocks data (a + 1) b := by
  unfold blocks
  rw [show b + 1 - a = (b + 1 - (a + 1)) + 1 by omega, List.range'_succ, List.flatMap_cons]

theorem blocks_of_lt {data : ℕ → List (ℕ × T)} {a b : ℕ} (h : b < a) : blocks data a b = [] := by
  unfold blocks
  rw [show b + 1 - a = 0 by omega]
  rfl

theorem mem_blocks {data : ℕ → List (ℕ × T)} {a b : ℕ} {x : ℕ × T} :
    x ∈ blocks data a b ↔ ∃ c, a ≤ c ∧ c ≤ b ∧ x ∈ data c := by
  unfold blocks
  simp only [List.mem_flatMap, List.mem_range'_1]
  constructor
  · rintro ⟨c, ⟨h1, h2⟩, hx⟩
    exact ⟨c, h1, by omega, hx⟩
  · rintro ⟨c, h1, h2, hx⟩
    exact ⟨c, ⟨h1, by omega⟩, hx⟩

theorem forwardScanLoop_eq (data : ℕ → List (ℕ × T)) (last : ℤ) :
    ∀ fuel cur, (last - cur).toNat ≤ fuel →
      forwardScanLoop data last fuel cur = forwardScan data cur last
  | 0, cur, h => by
    unfold forwardScan
    rw [show (last - cur).toNat = 0 by omega]
  | fuel + 1, cur, h => by
    unfold forwardScan
    obtain ⟨n, hn⟩ : ∃ n, (last - cur).toNat = n := ⟨_, rfl⟩
    rw [hn]
    cases n with
    | zero =>
      simp only [forwardScanLoop, if_neg (show ¬cur < last by omega)]
    | succ n =>
      simp only [forwardScanLoop]
      split_ifs with hlt hne
      · rfl
      · rw [forwardScanLoop_eq data last fuel (cur + 1) (by omega),
          forwardScanLoop_eq data last n (cur + 1) (by omega)]
      · rfl

/-- From a position `p` of block `c`, iterating goes through the rest of the block and then
whatever the scan after it goes through. -/
theorem visits_within {data : ℕ → List (ℕ × T)} {c last : ℤ} {rest : List (ℕ × T)}
    (hrest : Visits data (forwardScan data c last) rest) :
    ∀ k p, (data c.toNat).length - p = k → p < (data c.toNat).length →
      Visits data ⟨some c, last, p⟩ ((data c.toNat).drop p ++ rest)
  | 0, p, hk, hp => by omega
  | k + 1, p, hk, hp => by
    rw [List.drop_eq_getElem_cons hp, List.cons_append]
    refine .step (by simp [entry, hp]) ?_
    by_cases hnext : p + 1 < (data c.toNat).length
    · have hn : next data ⟨some c, last, p⟩ = ⟨some c, last, p + 1⟩ := by
        simp [next, hnext]
      rw [hn]
      exact visits_within hrest k (p + 1) (by omega) hnext
    · have hn : next data ⟨some c, last, p⟩ = forwardScan data c last := by
        simp [next, hnext]
      rw [hn, List.drop_eq_nil_of_le (by omega), List.nil_append]
      exact hrest

/-- `forward_scan` from block `cur` goes on through the entries of the blocks after it, up to
the last. -/
theorem visits_forwardScan (data : ℕ → List (ℕ × T)) {last : ℤ} (hlast : 0 ≤ last) :
    ∀ n cur, (last - cur).toNat = n → -1 ≤ cur →
      Visits data (forwardScan data cur last) (blocks data (cur + 1).toNat last.toNat)
  | 0, cur, hn, hcur => by
    rw [blocks_of_lt (by omega)]
    unfold forwardScan
    rw [hn]
    exact .finish rfl
  | n + 1, cur, hn, hcur => by
    have ih := visits_forwardScan data hlast n (cur + 1) (by omega) (by omega)
    rw [blocks_of_le (by omega), show (cur + 1).toNat + 1 = (cur + 1 + 1).toNat by omega]
    have hscan : forwardScan data cur last =
        if data (cur + 1).toNat ≠ [] then ⟨some (cur + 1), last, 0⟩
        else forwardScan data (cur + 1) last := by
      unfold forwardScan
      rw [hn, forwardScanLoop, if_pos (by omega), show (last - (cur + 1)).toNat = n by omega]
    rw [hscan]
    split_ifs with hne
    · have := visits_within ih _ 0 rfl (List.length_pos_of_ne_nil hne)
      rwa [List.drop_zero] at this
    · rw [not_not.1 hne, List.nil_append]
      exact ih

/-- `begin_range` goes through the entries of the blocks from the block of the start, or its
`head_block` if that is lower, to the block of the end, and reaches `end()`. -/
theorem visits_beginRange (blockSize : ℕ) (m : Map T) (start last : ℕ) :
    Visits m.data (beginRange blockSize m start last)
      (blocks m.data (min (blockFor blockSize start) (m.headBlock (blockFor blockSize start)))
        (blockFor blockSize last)) := by
  have h := visits_forwardScan m.data (Int.natCast_nonneg (blockFor blockSize last)) _
    ((min (blockFor blockSize start) (m.headBlock (blockFor blockSize start)) : ℕ) - 1 : ℤ)
    rfl (by omega)
  rw [Int.toNat_natCast, show (((min (blockFor blockSize start)
    (m.headBlock (blockFor blockSize start)) : ℕ) : ℤ) - 1 + 1).toNat =
      min (blockFor blockSize start) (m.headBlock (blockFor blockSize start)) by omega] at h
  exact h

theorem Visits.unique {data : ℕ → List (ℕ × T)} {it : Iter} {l l' : List (ℕ × T)}
    (h : Visits data it l) (h' : Visits data it l') : l = l' := by
  induction h generalizing l' with
  | finish hend =>
    cases h' with
    | finish _ => rfl
    | step he _ => simp [entry, hend] at he
  | step he _ ih =>
    cases h' with
    | finish hend => simp [entry, hend] at he
    | step he' hv' =>
      rw [he] at he'
      rw [Option.some.inj he', ih hv']

/-! ### Maps -/

theorem foldl_update_min (head : ℕ) (c : ℕ) :
    ∀ (l : List ℕ) (hb : ℕ → ℕ),
      l.foldl (fun hb b => Function.update hb b (min head (hb b))) hb c =
        if c ∈ l then min head (hb c) else hb c
  | [], hb => by simp
  | b :: l, hb => by
    rw [List.foldl_cons, foldl_update_min head c l]
    by_cases hcb : c = b
    · subst hcb
      simp
    · simp [hcb]

theorem broadcastInsert_apply (blockSize : ℕ) (headBlock : ℕ → ℕ) (start last c : ℕ) :
    broadcastInsert blockSize headBlock start last c =
      if blockFor blockSize start ≤ c ∧ c ≤ blockFor blockSize last then
        min (blockFor blockSize start) (headBlock c)
      else headBlock c := by
  unfold broadcastInsert
  rw [foldl_update_min]
  congr 1
  rw [List.mem_range'_1]
  apply propext
  omega

theorem any_key_iff {l : List (ℕ × T)} {k : ℕ} :
    l.any (·.1 == k) = true ↔ k ∈ l.map Prod.fst := by
  simp

theorem keys_insertOrAssign (l : List (ℕ × T)) (k : ℕ) (v : T) :
    (insertOrAssign l k v).map Prod.fst =
      if k ∈ l.map Prod.fst then l.map Prod.fst else l.map Prod.fst ++ [k] := by
  unfold insertOrAssign
  split_ifs with hany hk hk
  · rw [List.map_map]
    congr 1
    funext e
    simp only [Function.comp_apply]
    split_ifs with he <;> simp [he]
  · exact absurd (any_key_iff.1 hany) hk
  · exact absurd (any_key_iff.2 hk) hany
  · simp

theorem mem_insertOrAssign {l : List (ℕ × T)} {k k' : ℕ} {v v' : T}
    (h : (k', v') ∈ insertOrAssign l k v) : (k' = k ∧ v' = v) ∨ ((k', v') ∈ l ∧ k' ≠ k) := by
  unfold insertOrAssign at h
  split_ifs at h with hany
  · obtain ⟨⟨k₀, v₀⟩, hmem, he⟩ := List.mem_map.1 h
    by_cases hk : k₀ = k
    · simp only [hk, if_true, Prod.mk.injEq] at he
      exact .inl ⟨he.1.symm, he.2.symm⟩
    · simp only [hk, if_false, Prod.mk.injEq] at he
      obtain ⟨rfl, rfl⟩ := he
      exact .inr ⟨hmem, hk⟩
  · rcases List.mem_append.1 h with hmem | hmem
    · refine .inr ⟨hmem, ?_⟩
      rintro rfl
      exact hany (any_key_iff.2 (List.mem_map.2 ⟨_, hmem, rfl⟩))
    · simp only [List.mem_singleton, Prod.mk.injEq] at hmem
      exact .inl hmem

/-! ### Runs -/

/-- The calls on a `ranged_map`: `emplace`, `erase` by address or through an iterator at an
entry, and `clear`. -/
inductive Op (T : Type*) where
  | emplace (start last : ℕ) (value : T)
  | erase (address : ℕ)
  | eraseIter (it : Iter)
  | clear

/-- The map, with the end of the range last emplaced at each start. -/
structure Sys (T : Type*) where
  map : Map T
  ext : ℕ → ℕ

def Init (s : Sys T) : Prop := s.map = Map.empty

inductive Step (blockSize : ℕ) : Sys T → Op T → Sys T → Prop where
  | emplace {s : Sys T} {start last : ℕ} {value : T} :
      Step blockSize s (.emplace start last value)
        ⟨emplace blockSize s.map start last value, Function.update s.ext start last⟩
  | erase {s : Sys T} {address : ℕ} :
      Step blockSize s (.erase address) ⟨erase blockSize s.map address, s.ext⟩
  | eraseIter {s : Sys T} {it : Iter} {c : ℤ} (hc : it.current = some c)
      (hp : it.pos < (s.map.data c.toNat).length) :
      Step blockSize s (.eraseIter it) ⟨{ s.map with data := (it.erase s.map.data).1 }, s.ext⟩
  | clear {s : Sys T} : Step blockSize s .clear ⟨clear s.map, s.ext⟩

/-- Every entry sits in the block of its start, once, and every block its range covers has a
`head_block` at most that block. -/
structure Inv (blockSize : ℕ) (s : Sys T) : Prop where
  block_of : ∀ b k v, (k, v) ∈ s.map.data b → blockFor blockSize k = b
  nodup : ∀ b, ((s.map.data b).map Prod.fst).Nodup
  head_le : ∀ b k v, (k, v) ∈ s.map.data b → ∀ c, blockFor blockSize k ≤ c →
    c ≤ blockFor blockSize (s.ext k) → s.map.headBlock c ≤ blockFor blockSize k

variable {blockSize : ℕ}

theorem inv_init {s : Sys T} (h : Init s) : Inv blockSize s := by
  unfold Init at h
  refine ⟨?_, ?_, ?_⟩ <;> simp [h, Map.empty]

/-- Removing entries keeps the invariant. -/
theorem Inv.of_sublist {s : Sys T} (hs : Inv blockSize s) {data : ℕ → List (ℕ × T)}
    (hsub : ∀ b, (data b).Sublist (s.map.data b)) :
    Inv blockSize ⟨{ s.map with data := data }, s.ext⟩ := by
  refine ⟨?_, ?_, ?_⟩
  · intro b k v hk
    exact hs.block_of b k v ((hsub b).subset hk)
  · intro b
    exact (hs.nodup b).sublist ((hsub b).map _)
  · intro b k v hk
    exact hs.head_le b k v ((hsub b).subset hk)

theorem inv_emplace {s : Sys T} (hs : Inv blockSize s) (start last : ℕ) (value : T) :
    Inv blockSize ⟨emplace blockSize s.map start last value, Function.update s.ext start last⟩ := by
  -- the entries of the start's block change, those of the other blocks stay
  have hmem : ∀ b k v, (k, v) ∈ (emplace blockSize s.map start last value).data b →
      (k = start ∧ b = blockFor blockSize start) ∨ ((k, v) ∈ s.map.data b ∧ k ≠ start) := by
    intro b k v hk
    by_cases hb : b = blockFor blockSize start
    · subst hb
      rw [emplace_data, Function.update_self] at hk
      rcases mem_insertOrAssign hk with ⟨rfl, -⟩ | h
      · exact .inl ⟨rfl, rfl⟩
      · exact .inr h
    · rw [emplace_data, Function.update_of_ne hb] at hk
      by_cases hks : k = start
      · subst hks
        exact absurd (hs.block_of b k v hk).symm hb
      · exact .inr ⟨hk, hks⟩
  refine ⟨?_, ?_, ?_⟩
  · intro b k v hk
    rcases hmem b k v hk with ⟨rfl, rfl⟩ | ⟨hk, -⟩
    · rfl
    · exact hs.block_of b k v hk
  · intro b
    dsimp only
    by_cases hb : b = blockFor blockSize start
    · subst hb
      rw [emplace_data, Function.update_self, keys_insertOrAssign]
      split_ifs with hk
      · exact hs.nodup _
      · refine List.nodup_append.2 ⟨hs.nodup _, List.nodup_singleton _, ?_⟩
        intro a ha a' ha'
        rw [List.mem_singleton] at ha'
        subst ha'
        rintro rfl
        exact hk ha
    · rw [emplace_data, Function.update_of_ne hb]
      exact hs.nodup b
  · -- `head_block` only goes down, and down to the start's block on the blocks of the new range
    intro b k v hk c hlo hhi
    dsimp only at hhi ⊢
    rw [emplace_headBlock, broadcastInsert_apply]
    rcases hmem b k v hk with ⟨rfl, -⟩ | ⟨hk, hks⟩
    · rw [Function.update_self] at hhi
      rw [if_pos ⟨hlo, hhi⟩]
      exact min_le_left _ _
    · rw [Function.update_of_ne hks] at hhi
      have := hs.head_le b k v hk c hlo hhi
      split_ifs <;> omega

theorem inv_step {s t : Sys T} {o : Op T} (hs : Inv blockSize s) (hst : Step blockSize s o t) :
    Inv blockSize t := by
  cases hst with
  | emplace => exact inv_emplace hs _ _ _
  | @erase address =>
    refine hs.of_sublist fun b => ?_
    by_cases hb : b = blockFor blockSize address
    · subst hb
      rw [Function.update_self]
      exact List.filter_sublist
    · rw [Function.update_of_ne hb]
  | @eraseIter it c hc hp =>
    refine hs.of_sublist fun b => ?_
    rw [Iter.erase_fst hc]
    by_cases hb : b = c.toNat
    · subst hb
      rw [Function.update_self]
      exact List.eraseIdx_sublist _ _
    · rw [Function.update_of_ne hb]
  | clear => exact hs.of_sublist fun b => List.nil_sublist _

theorem Inv.of_reachable {s : Sys T} (h : Reachable Init (Step blockSize) s) :
    Inv blockSize s :=
  h.invariant (fun _ => inv_init) (fun _ _ _ hs hst => inv_step hs hst)

/-! ### Queries -/

section Queries

variable {s : Sys T} (hs : Inv blockSize s)
include hs

/-- A stored range that overlaps the query lies in a block the scan goes through: the block
of its start is at most the block of the query's end, and it is at least the `head_block`
of the query's first block when the range starts before that block. -/
theorem mem_blocks_of_overlaps {qs ql k : ℕ} {v : T}
    (hk : (k, v) ∈ s.map.data (blockFor blockSize k)) (hlo : qs ≤ s.ext k) (hhi : k ≤ ql) :
    (k, v) ∈ blocks s.map.data
      (min (blockFor blockSize qs) (s.map.headBlock (blockFor blockSize qs)))
      (blockFor blockSize ql) := by
  rw [mem_blocks]
  refine ⟨blockFor blockSize k, ?_, Nat.div_le_div_right hhi, hk⟩
  by_cases h : blockFor blockSize qs ≤ blockFor blockSize k
  · exact (min_le_left _ _).trans h
  · have hhead := hs.head_le _ k v hk (blockFor blockSize qs) (by omega)
      (Nat.div_le_div_right hlo)
    exact (min_le_right _ _).trans hhead

/-- Distinct blocks hold distinct starts, so a scan meets every start once. -/
theorem nodup_blocks (a b : ℕ) : ((blocks s.map.data a b).map Prod.fst).Nodup := by
  unfold blocks
  rw [List.map_flatMap, List.nodup_flatMap]
  refine ⟨fun c _ => hs.nodup c, (List.pairwise_lt_range' 1).imp ?_⟩
  intro c d hcd x hxc hxd
  obtain ⟨⟨k, v⟩, hk, rfl⟩ := List.mem_map.1 hxc
  obtain ⟨⟨k', v'⟩, hk', hkk⟩ := List.mem_map.1 hxd
  have h₁ := hs.block_of c k v hk
  have h₂ := hs.block_of d k' v' hk'
  simp only at hkk
  subst hkk
  omega

theorem stored_of_mem_blocks {a b : ℕ} {e : ℕ × T} (he : e ∈ blocks s.map.data a b) :
    e ∈ s.map.data (blockFor blockSize e.1) := by
  obtain ⟨c, -, -, hc⟩ := mem_blocks.1 he
  rwa [hs.block_of c e.1 e.2 hc]

end Queries

theorem find_eq_none_iff (m : Map T) (key : ℕ) :
    (find blockSize m key).current = none ↔ ∀ v, (key, v) ∉ m.data (blockFor blockSize key) := by
  unfold find
  dsimp only
  split
  · rename_i p hp
    simp only [reduceCtorEq, false_iff, not_forall, not_not]
    obtain ⟨hlt, hkey, -⟩ := List.findIdx?_eq_some_iff_getElem.1 hp
    have hk : (m.data (blockFor blockSize key))[p].1 = key := by simpa using hkey
    refine ⟨(m.data (blockFor blockSize key))[p].2, ?_⟩
    rw [show (key, (m.data (blockFor blockSize key))[p].2) = (m.data (blockFor blockSize key))[p]
      from Prod.ext hk.symm rfl]
    exact List.getElem_mem hlt
  · rename_i hp
    simp only [true_iff]
    intro v hv
    have := List.findIdx?_eq_none_iff.1 hp _ hv
    simp at this

theorem entry_find {s : Sys T} (hs : Inv blockSize s) {key : ℕ} {v : T}
    (h : (key, v) ∈ s.map.data (blockFor blockSize key)) :
    entry s.map.data (find blockSize s.map key) = some (key, v) := by
  unfold find
  dsimp only
  split
  · rename_i p hp
    obtain ⟨hlt, hkey, -⟩ := List.findIdx?_eq_some_iff_getElem.1 hp
    simp only [entry, Option.bind_some, Int.toNat_natCast, List.getElem?_eq_getElem hlt]
    -- the start is a key of the block once, so the entry found is the stored one
    congr 1
    exact List.inj_on_of_nodup_map (hs.nodup _) (List.getElem_mem hlt) h (by simpa using hkey)
  · rename_i hp
    have := List.findIdx?_eq_none_iff.1 hp _ h
    simp at this

/-- On every run: the `head_block` invariant holds; iterating from `begin_range(q)` reaches
`end()`, meets each start once, meets only stored entries and meets every stored entry whose
emplaced range overlaps `q`; and `find(key)` is `end()` exactly when no entry starts at `key`,
and otherwise points at that entry. -/
theorem ranged_map_contract {s : Sys T} (hs : Reachable Init (Step blockSize) s) (qs ql : ℕ) :
    Inv blockSize s ∧
      (∃ l, Visits s.map.data (beginRange blockSize s.map qs ql) l) ∧
      (∀ l, Visits s.map.data (beginRange blockSize s.map qs ql) l →
        (l.map Prod.fst).Nodup ∧ (∀ e ∈ l, e ∈ s.map.data (blockFor blockSize e.1)) ∧
        ∀ k v, (k, v) ∈ s.map.data (blockFor blockSize k) → qs ≤ s.ext k → k ≤ ql →
          (k, v) ∈ l) ∧
      (∀ key, (find blockSize s.map key).current = none ↔
        ∀ v, (key, v) ∉ s.map.data (blockFor blockSize key)) ∧
      (∀ key v, (key, v) ∈ s.map.data (blockFor blockSize key) →
        entry s.map.data (find blockSize s.map key) = some (key, v)) := by
  have hinv := Inv.of_reachable hs
  have hvisit := visits_beginRange blockSize s.map qs ql
  refine ⟨hinv, ⟨_, hvisit⟩, ?_, find_eq_none_iff s.map, fun key v h => entry_find hinv h⟩
  intro l hl
  rw [hl.unique hvisit]
  exact ⟨nodup_blocks hinv _ _, fun e he => stored_of_mem_blocks hinv he,
    fun k v hk hlo hhi => mem_blocks_of_overlaps hinv hk hlo hhi⟩

/-- Two ranges emplaced in 4 KiB blocks and the second erased again: `find` misses the erased
start, finds the other, and `begin_range` over block 2 still meets the range that starts in block 1
and reaches into it. -/
theorem ranged_map_contract_emplace_erase :
    ∃ s : Sys ℕ, Reachable Init (Step 0x1000) s ∧ s.map.data 2 = [] ∧
      (find 0x1000 s.map 0x2100).current = none ∧
      entry s.map.data (find 0x1000 s.map 0x1800) = some (0x1800, 7) ∧
      ∃ l, Visits s.map.data (beginRange 0x1000 s.map 0x2000 0x2100) l ∧ (0x1800, 7) ∈ l := by
  have h₀ : Reachable Init (Step 0x1000) (⟨Map.empty, fun _ => 0⟩ : Sys ℕ) := Reachable.of_init rfl
  have h₁ := h₀.next (@Step.emplace ℕ 0x1000 _ 0x1800 0x2FFF 7)
  have h₂ := h₁.next (@Step.emplace ℕ 0x1000 _ 0x2100 0x2200 9)
  have h₃ := h₂.next (@Step.erase ℕ 0x1000 _ 0x2100)
  obtain ⟨-, ⟨l, hl⟩, hvisits, hfind, hentry⟩ := ranged_map_contract h₃ 0x2000 0x2100
  have hmem : ((0x1800 : ℕ), (7 : ℕ)) ∈ (erase 0x1000 (emplace 0x1000 (emplace 0x1000 Map.empty
      0x1800 0x2FFF 7) 0x2100 0x2200 9) 0x2100).data (blockFor 0x1000 0x1800) := by decide
  -- the erase leaves block 2 empty
  have hempty : (erase 0x1000 (emplace 0x1000 (emplace 0x1000 Map.empty 0x1800 0x2FFF 7) 0x2100
      0x2200 9) 0x2100).data (blockFor 0x1000 0x2100) = [] := by decide
  have hnone : ∀ v : ℕ, ((0x2100 : ℕ), v) ∉ (erase 0x1000 (emplace 0x1000 (emplace 0x1000
      Map.empty 0x1800 0x2FFF 7) 0x2100 0x2200 9) 0x2100).data (blockFor 0x1000 0x2100) := by
    intro v
    rw [hempty]
    exact List.not_mem_nil
  exact ⟨_, h₃, hempty, (hfind 0x2100).2 hnone, hentry _ _ hmem, l, hl,
    (hvisits l hl).2.2 _ _ hmem (by decide) (by decide)⟩

end Rpcs3.Rsx.RangedMap
