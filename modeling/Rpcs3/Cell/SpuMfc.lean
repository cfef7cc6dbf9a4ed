import Mathlib
import Rpcs3.Util.Asm

/-! The MFC command queue of an SPU thread (`Emu/Cell/SPUThread.cpp`). `do_mfc` runs
`std::remove_if` over `mfc_queue` with a predicate, `process_command`, that issues the
commands the ordering rules let through and accumulates in `barrier` and `fence` the tags
of the ones it keeps; the two masks become `mfc_barrier` and `mfc_fence`, which
`do_dma_check` reads for the next command. A command's tag selects bit `tag % 32` of a
mask through `rol32(1, tag)`, so the stall bit `0x80` of a list command's tag leaves its
bit alone.

The pass is modelled as a left fold that threads the kept prefix, as `remove_if` does; the
transfers themselves are not modelled, only which queue entries they were issued for, and
`do_list_transfer` is an oracle that says whether a list stalls. -/
namespace Rpcs3.Cell.SpuMfc

open Rpcs3.Util.Asm (rol32 toBitVec_rol32)

def mfcPutqllucCmd : UInt8 := 0xB8
def mfcBarrierCmd : UInt8 := 0xC0
def mfcBarrierMask : UInt8 := 0x01
def mfcFenceMask : UInt8 := 0x02
def mfcListMask : UInt8 := 0x04

/-- The fields of `spu_mfc_cmd` that the ordering reads. -/
structure Cmd where
  cmd : UInt8
  tag : UInt8
  deriving DecidableEq, Repr

/-- The locals of `do_mfc` that `process_command` writes, and the queue indices for which
it issued a transfer (`do_list_transfer`, `do_putlluc` or `do_dma_transfer`). -/
structure Pass where
  removed : ℕ
  barrier : UInt32
  fence : UInt32
  pending : Bool
  issued : List ℕ

/-- Keep a command that waits: `barrier |= mask` for a barriered one, and `fence |= mask`. -/
def Pass.hold (p : Pass) (args : Cmd) (mask : UInt32) : Pass :=
  { p with
    barrier := if args.cmd &&& mfcBarrierMask ≠ 0 then p.barrier ||| mask else p.barrier
    fence := p.fence ||| mask }

/-- `process_command` on `mfc_queue[i]`: whether to remove it, the entry as it is left
(a stalled list gets the stall bit), and the locals after it. `stalls i` is what
`do_list_transfer` does with entry `i`. -/
def processCommand (execMask : UInt16) (stalls : ℕ → Bool) (p : Pass) (i : ℕ) (args : Cmd) :
    Bool × Cmd × Pass :=
  let mask := rol32 1 args.tag.toUInt32
  if args.cmd &&& ~~~0xc = mfcBarrierCmd then
    if i ≤ p.removed then (true, args, { p with removed := p.removed + 1 })
    else (false, args, { p with barrier := p.barrier ||| 0xFFFFFFFF, fence := p.fence ||| mask })
  else if p.barrier &&& mask ≠ 0 then (false, args, { p with fence := p.fence ||| mask })
  else if args.cmd &&& (mfcBarrierMask ||| mfcFenceMask) ≠ 0 ∧ p.fence &&& mask ≠ 0 then
    (false, args,
      if args.cmd &&& mfcBarrierMask ≠ 0 then { p with barrier := p.barrier ||| mask } else p)
  else if execMask.toUInt32 &&& ((1 : UInt32) <<< UInt32.ofNat i) = 0 then
    -- not enabled in the execution mask: executed by a later pass
    (false, args, { p.hold args mask with pending := true })
  else if args.cmd &&& mfcListMask ≠ 0 then
    if args.tag &&& 0x80 = 0 then
      if stalls i then
        (false, { args with tag := args.tag ||| 0x80 }, { p with issued := p.issued ++ [i] }.hold args mask)
      else (true, args, { p with removed := p.removed + 1, issued := p.issued ++ [i] })
    else (false, args, p.hold args mask)
  else if args.cmd = mfcPutqllucCmd ∧ p.fence &&& mask ≠ 0 then (false, args, p)
  else
    -- a transfer of size zero is removed without a transfer; it counts as issued here
    (true, args, { p with removed := p.removed + 1, issued := p.issued ++ [i] })

/-- `std::remove_if(mfc_queue + i, ..., process_command)` from entry `i` on, threading the
entries kept so far and the locals. -/
def passFrom (execMask : UInt16) (stalls : ℕ → Bool) :
    ℕ → List Cmd → List Cmd × Pass → List Cmd × Pass
  | _, [], st => st
  | i, args :: rest, st =>
    let r := processCommand execMask stalls st.2 i args
    passFrom execMask stalls (i + 1) rest (if r.1 then st.1 else st.1 ++ [r.2.1], r.2.2)

/-- The queue state of `spu_thread`: `mfc_queue[0, mfc_size)`, `mfc_barrier`, `mfc_fence`. -/
structure Mfc where
  queue : List Cmd
  barrier : UInt32
  fence : UInt32

def Pass.init : Pass := ⟨0, 0, 0, false, []⟩

/-- One pass of the loop of `do_mfc`: `remove_if`, then `mfc_size -= removed`,
`mfc_barrier = barrier`, `mfc_fence = fence`. -/
def doMfcPass (execMask : UInt16) (stalls : ℕ → Bool) (m : Mfc) : Mfc × Pass :=
  let st := passFrom execMask stalls 0 m.queue ([], Pass.init)
  (⟨st.1, st.2.barrier, st.2.fence⟩, st.2)

/-- `do_dma_check`: whether a new command may run now. The recomputation of the masks
under `if (false)` is dead code. -/
def doDmaCheck (m : Mfc) (args : Cmd) : Bool :=
  let mask := rol32 1 args.tag.toUInt32
  if m.barrier &&& mask ≠ 0 ∨
      (args.cmd &&& (mfcBarrierMask ||| mfcFenceMask) ≠ 0 ∧ m.fence &&& mask ≠ 0) then false
  else true

/-! ## Masks as sets of tags -/

/-- `rol32(1, tag)` is bit `tag % 32`. -/
theorem toNat_rol32_one (t : UInt8) : (rol32 1 t.toUInt32).toNat = 2 ^ (t.toNat % 32) := by
  have hk : t.toNat % 32 < 32 := Nat.mod_lt _ (by norm_num)
  rw [← UInt32.toNat_toBitVec, toBitVec_rol32, UInt8.toNat_toUInt32, BitVec.toNat_rotateLeft,
    Nat.mod_eq_of_lt hk, UInt32.toBitVec_one, BitVec.toNat_one (by norm_num),
    Nat.shiftRight_eq_div_pow, Nat.div_eq_of_lt (Nat.one_lt_two_pow (by omega)), Nat.or_zero,
    Nat.one_shiftLeft, Nat.mod_eq_of_lt (Nat.pow_lt_pow_right (by norm_num) hk)]

theorem and_rol32_ne_zero (x : UInt32) (t : UInt8) :
    x &&& rol32 1 t.toUInt32 ≠ 0 ↔ x.toNat.testBit (t.toNat % 32) = true := by
  rw [ne_eq, ← UInt32.toNat_inj, UInt32.toNat_and, toNat_rol32_one, Nat.and_two_pow]
  cases x.toNat.testBit (t.toNat % 32) <;> simp

theorem cmd_and_3 (x : UInt8) : x &&& (1 ||| 2) ≠ 0 ↔ x &&& 1 ≠ 0 ∨ x &&& 2 ≠ 0 := by
  simp only [ne_eq, ← UInt8.toNat_inj, UInt8.toNat_and, UInt8.toNat_zero]
  rw [show (1 ||| 2 : UInt8).toNat = 2 ^ 2 - 1 from rfl, show (1 : UInt8).toNat = 2 ^ 1 - 1 from rfl,
    show (2 : UInt8).toNat = 2 ^ 1 from rfl, Nat.and_two_pow_sub_one_eq_mod,
    Nat.and_two_pow_sub_one_eq_mod, Nat.and_two_pow, Nat.testBit_eq_decide_div_mod_eq]
  by_cases h : x.toNat / 2 ^ 1 % 2 = 1 <;> simp <;> omega

/-- The bit of a command's tag in the masks. -/
def tagOf (c : Cmd) : ℕ := c.tag.toNat % 32

/-- The stall bit leaves the tag's bit alone. -/
theorem tagOf_stall (c : Cmd) : tagOf { c with tag := c.tag ||| 0x80 } = tagOf c := by
  simp only [tagOf, UInt8.toNat_or]
  rw [show (32 : ℕ) = 2 ^ 5 from rfl, Nat.or_mod_two_pow]
  simp

def IsBarrierClass (c : Cmd) : Prop := c.cmd &&& ~~~0xc = mfcBarrierCmd
def IsBarriered (c : Cmd) : Prop := c.cmd &&& mfcBarrierMask ≠ 0
def IsFenced (c : Cmd) : Prop := c.cmd &&& mfcFenceMask ≠ 0

/-- The test `args.cmd & (MFC_BARRIER_MASK | MFC_FENCE_MASK)`. -/
theorem orderBits_iff (c : Cmd) :
    c.cmd &&& (mfcBarrierMask ||| mfcFenceMask) ≠ 0 ↔ IsBarriered c ∨ IsFenced c :=
  cmd_and_3 c.cmd

/-- The 32-bit word `x` has bit `k` set exactly for the `k < 32` with `P k`. -/
def Covers (x : UInt32) (P : ℕ → Prop) : Prop := ∀ k < 32, x.toNat.testBit k = true ↔ P k

section Covers

variable {x : UInt32} {P Q : ℕ → Prop}

theorem Covers.test (h : Covers x P) (t : UInt8) :
    x &&& rol32 1 t.toUInt32 ≠ 0 ↔ P (t.toNat % 32) := by
  rw [and_rol32_ne_zero]
  exact h _ (Nat.mod_lt _ (by norm_num))

theorem Covers.congr (h : Covers x P) (hPQ : ∀ k < 32, P k ↔ Q k) : Covers x Q := by
  intro k hk
  rw [h k hk, hPQ k hk]

theorem covers_zero : Covers 0 fun _ => False := by
  intro k _
  simp

theorem Covers.or_rol32 (h : Covers x P) (t : UInt8) :
    Covers (x ||| rol32 1 t.toUInt32) fun k => P k ∨ t.toNat % 32 = k := by
  intro k hk
  rw [UInt32.toNat_or, Nat.testBit_or, toNat_rol32_one, Nat.testBit_two_pow, Bool.or_eq_true,
    h k hk, decide_eq_true_iff]

theorem covers_or_all : Covers (x ||| 0xFFFFFFFF) fun _ => True := by
  intro k hk
  rw [UInt32.toNat_or, Nat.testBit_or, show (0xFFFFFFFF : UInt32).toNat = 2 ^ 32 - 1 from rfl,
    Nat.testBit_two_pow_sub_one]
  simp [hk]

end Covers

/-! ## What the masks hold -/

/-- The tags of the kept commands: the bits of `fence`. -/
def FenceTags (kept : List Cmd) (k : ℕ) : Prop := ∃ d ∈ kept, tagOf d = k

/-- The bits of `barrier`: every tag behind a kept barrier-class command, and the tags of kept
barriered commands. -/
def BarrierTags (kept : List Cmd) (k : ℕ) : Prop :=
  (∃ d ∈ kept, IsBarrierClass d) ∨ ∃ d ∈ kept, IsBarriered d ∧ tagOf d = k

@[simp] theorem fenceTags_nil (k : ℕ) : FenceTags [] k ↔ False := by
  simp [FenceTags]

@[simp] theorem barrierTags_nil (k : ℕ) : BarrierTags [] k ↔ False := by
  simp [BarrierTags]

@[simp] theorem fenceTags_concat (kept : List Cmd) (a : Cmd) (k : ℕ) :
    FenceTags (kept ++ [a]) k ↔ FenceTags kept k ∨ tagOf a = k := by
  simp [FenceTags, or_and_right, exists_or]

@[simp] theorem barrierTags_concat (kept : List Cmd) (a : Cmd) (k : ℕ) :
    BarrierTags (kept ++ [a]) k ↔
      BarrierTags kept k ∨ IsBarrierClass a ∨ IsBarriered a ∧ tagOf a = k := by
  simp only [BarrierTags, List.mem_append, List.mem_singleton, or_and_right, exists_or,
    exists_eq_left]
  exact or_or_or_comm

/-- `mfc_barrier` and `mfc_fence` hold exactly the tags of the queue. -/
structure Exact (kept : List Cmd) (barrier fence : UInt32) : Prop where
  barrier : Covers barrier (BarrierTags kept)
  fence : Covers fence (FenceTags kept)

/-- The ordering rules: commands still in the queue before `c` block it when one of them is
barrier-class, or has `c`'s tag and is barriered, or has `c`'s tag and `c` is fenced or
barriered. -/
def Blocks (kept : List Cmd) (c : Cmd) : Prop :=
  (∃ d ∈ kept, IsBarrierClass d) ∨
    ∃ d ∈ kept, tagOf d = tagOf c ∧ (IsBarriered d ∨ IsBarriered c ∨ IsFenced c)

theorem blocks_iff {kept : List Cmd} {c : Cmd} : Blocks kept c ↔
    BarrierTags kept (tagOf c) ∨ ((IsBarriered c ∨ IsFenced c) ∧ FenceTags kept (tagOf c)) := by
  unfold Blocks BarrierTags FenceTags
  constructor
  · rintro (hbc | ⟨d, hd, htag, hb | hc⟩)
    · exact .inl (.inl hbc)
    · exact .inl (.inr ⟨d, hd, hb, htag⟩)
    · exact .inr ⟨hc, d, hd, htag⟩
  · rintro ((hbc | ⟨d, hd, hb, htag⟩) | ⟨hc, d, hd, htag⟩)
    · exact .inl hbc
    · exact .inr ⟨d, hd, htag, .inl hb⟩
    · exact .inr ⟨d, hd, htag, .inr hc⟩

/-- With exact masks, `do_dma_check` refuses exactly the commands the queue blocks. -/
theorem Exact.doDmaCheck_eq_false {m : Mfc} (h : Exact m.queue m.barrier m.fence) (c : Cmd) :
    doDmaCheck m c = false ↔ Blocks m.queue c := by
  unfold doDmaCheck
  dsimp only
  rw [blocks_iff, tagOf, ← h.barrier.test, ← h.fence.test, ← orderBits_iff]
  split_ifs with hc <;> simp [hc]

/-! ## One application of the predicate -/

section Keep

variable {kept : List Cmd} {p : Pass} {c : Cmd}

/-- A barrier-class command that stays sets every bit of `barrier`. -/
theorem Exact.keep_barrierClass (h : Exact kept p.barrier p.fence) (hbc : IsBarrierClass c) :
    Exact (kept ++ [c]) (p.barrier ||| 0xFFFFFFFF) (p.fence ||| rol32 1 c.tag.toUInt32) := by
  constructor
  · refine covers_or_all.congr fun k _ => ?_
    simp [hbc]
  · refine (h.fence.or_rol32 c.tag).congr fun k _ => ?_
    rw [fenceTags_concat, tagOf]

/-- A command behind a barrier on its tag stays; its tag is in `barrier` already. -/
theorem Exact.keep_behind_barrier (h : Exact kept p.barrier p.fence) (hbc : ¬IsBarrierClass c)
    (hb : p.barrier &&& rol32 1 c.tag.toUInt32 ≠ 0) :
    Exact (kept ++ [c]) p.barrier (p.fence ||| rol32 1 c.tag.toUInt32) := by
  have hin : BarrierTags kept (tagOf c) := (h.barrier.test c.tag).mp hb
  constructor
  · refine h.barrier.congr fun k _ => ?_
    rw [barrierTags_concat]
    constructor
    · exact .inl
    · rintro (hk | hk | ⟨-, rfl⟩)
      · exact hk
      · exact absurd hk hbc
      · exact hin
  · refine (h.fence.or_rol32 c.tag).congr fun k _ => ?_
    rw [fenceTags_concat, tagOf]

/-- A fenced or barriered command behind its tag stays; its tag is in `fence` already. -/
theorem Exact.keep_behind_fence (h : Exact kept p.barrier p.fence) (hbc : ¬IsBarrierClass c)
    (hf : p.fence &&& rol32 1 c.tag.toUInt32 ≠ 0) :
    Exact (kept ++ [c])
      (if c.cmd &&& mfcBarrierMask ≠ 0 then p.barrier ||| rol32 1 c.tag.toUInt32 else p.barrier)
      p.fence := by
  have hin : FenceTags kept (tagOf c) := (h.fence.test c.tag).mp hf
  constructor
  · split_ifs with hb
    · refine (h.barrier.or_rol32 c.tag).congr fun k _ => ?_
      have hb : IsBarriered c := hb
      simp [hbc, hb, tagOf]
    · refine h.barrier.congr fun k _ => ?_
      have hb : ¬IsBarriered c := hb
      simp [hbc, hb]
  · refine h.fence.congr fun k _ => ?_
    rw [fenceTags_concat]
    constructor
    · exact .inl
    · rintro (hk | rfl)
      · exact hk
      · exact hin

/-- A command that waits is kept with its tag, and its barrier if it has one. -/
theorem Exact.hold (h : Exact kept p.barrier p.fence) (hbc : ¬IsBarrierClass c) {a : Cmd}
    (htag : tagOf a = tagOf c) (hcmd : a.cmd = c.cmd) :
    Exact (kept ++ [a]) (p.hold c (rol32 1 c.tag.toUInt32)).barrier
      (p.hold c (rol32 1 c.tag.toUInt32)).fence := by
  have hbc' : ¬IsBarrierClass a := by rwa [IsBarrierClass, hcmd]
  have hb' : IsBarriered a ↔ IsBarriered c := by rw [IsBarriered, IsBarriered, hcmd]
  unfold Pass.hold
  constructor
  · dsimp only
    split_ifs with hb
    · refine (h.barrier.or_rol32 c.tag).congr fun k _ => ?_
      have hb : IsBarriered c := hb
      rw [barrierTags_concat, htag]
      simp [hbc', hb', hb, tagOf]
    · refine h.barrier.congr fun k _ => ?_
      have hb : ¬IsBarriered c := hb
      simp [hbc', hb', hb]
  · refine (h.fence.or_rol32 c.tag).congr fun k _ => ?_
    rw [fenceTags_concat, htag, tagOf]

end Keep

/-- What one application of `process_command` to `c` at index `i` can do. `Clear p c` says
that neither mask holds `c` back. -/
def Clear (p : Pass) (c : Cmd) : Prop :=
  p.barrier &&& rol32 1 c.tag.toUInt32 = 0 ∧
    ¬(c.cmd &&& (mfcBarrierMask ||| mfcFenceMask) ≠ 0 ∧ p.fence &&& rol32 1 c.tag.toUInt32 ≠ 0)

inductive Outcome (p : Pass) (i : ℕ) (c : Cmd) : Bool × Cmd × Pass → Prop
  /-- a barrier-class command with nothing left before it goes -/
  | barrierFirst : IsBarrierClass c → i ≤ p.removed →
      Outcome p i c (true, c, { p with removed := p.removed + 1 })
  /-- a barrier-class command behind others stays and blocks every tag -/
  | barrierWait : IsBarrierClass c → p.removed < i →
      Outcome p i c (false, c,
        { p with barrier := p.barrier ||| 0xFFFFFFFF, fence := p.fence ||| rol32 1 c.tag.toUInt32 })
  | behindBarrier : ¬IsBarrierClass c → p.barrier &&& rol32 1 c.tag.toUInt32 ≠ 0 →
      Outcome p i c (false, c, { p with fence := p.fence ||| rol32 1 c.tag.toUInt32 })
  | behindFence : ¬IsBarrierClass c → p.barrier &&& rol32 1 c.tag.toUInt32 = 0 →
      p.fence &&& rol32 1 c.tag.toUInt32 ≠ 0 →
      Outcome p i c (false, c, if c.cmd &&& mfcBarrierMask ≠ 0 then
        { p with barrier := p.barrier ||| rol32 1 c.tag.toUInt32 } else p)
  /-- a command the masks let through that waits: for the execution mask, for a stall, or
  as a list stalled before -/
  | hold {a : Cmd} {p' : Pass} : ¬IsBarrierClass c → Clear p c →
      (a = c ∨ a = { c with tag := c.tag ||| 0x80 }) → p'.removed = p.removed →
      p'.barrier = (p.hold c (rol32 1 c.tag.toUInt32)).barrier →
      p'.fence = (p.hold c (rol32 1 c.tag.toUInt32)).fence →
      (p'.issued = p.issued ∨ p'.issued = p.issued ++ [i]) → Outcome p i c (false, a, p')
  | issue : ¬IsBarrierClass c → Clear p c →
      Outcome p i c (true, c, { p with removed := p.removed + 1, issued := p.issued ++ [i] })

theorem processCommand_outcome (execMask : UInt16) (stalls : ℕ → Bool) (p : Pass) (i : ℕ)
    (c : Cmd) : Outcome p i c (processCommand execMask stalls p i c) := by
  unfold processCommand
  dsimp only
  split_ifs with hbc hfirst hb hf hbar hexec hlist hfresh hstall hq
  · exact .barrierFirst hbc hfirst
  · exact .barrierWait hbc (by omega)
  · exact .behindBarrier hbc hb
  · have h := Outcome.behindFence (i := i) hbc (not_not.mp hb) hf.2
    rwa [if_pos hbar] at h
  · have h := Outcome.behindFence (i := i) hbc (not_not.mp hb) hf.2
    rwa [if_neg hbar] at h
  · exact .hold hbc ⟨not_not.mp hb, hf⟩ (.inl rfl) rfl rfl rfl (.inl rfl)
  · exact .hold hbc ⟨not_not.mp hb, hf⟩ (.inr rfl) rfl rfl rfl (.inr rfl)
  · exact .issue hbc ⟨not_not.mp hb, hf⟩
  · exact .hold hbc ⟨not_not.mp hb, hf⟩ (.inl rfl) rfl rfl rfl (.inl rfl)
  · -- `MFC_PUTQLLUC_CMD` has no barrier bit
    have h := Outcome.behindFence (i := i) hbc (not_not.mp hb) hq.2
    rwa [if_neg (by rw [hq.1]; decide)] at h
  · exact .issue hbc ⟨not_not.mp hb, hf⟩

/-- The entry `remove_if` keeps for `c`: `c` itself, or `c` with the stall bit. -/
def Marks (c a : Cmd) : Prop := a = c ∨ a = { c with tag := c.tag ||| 0x80 }

/-- The ordering rules for one application of `process_command` to `c` at index `i`, with
`kept` the earlier entries still in the queue: a transfer is issued only for a command that
nothing kept blocks, a command other than a barrier-class one is removed only after its
transfer, and a barrier-class command goes exactly when nothing is left before it. -/
structure Obeys (kept : List Cmd) (i : ℕ) (c : Cmd) (p : Pass) (r : Bool × Cmd × Pass) : Prop where
  issued_or : r.2.2.issued = p.issued ∨ r.2.2.issued = p.issued ++ [i]
  allowed : r.2.2.issued = p.issued ++ [i] → ¬IsBarrierClass c ∧ ¬Blocks kept c
  removed_issued : r.1 = true → ¬IsBarrierClass c → r.2.2.issued = p.issued ++ [i]
  barrier_class : IsBarrierClass c → (r.1 = true ↔ kept = [])

section Outcome

variable {kept : List Cmd} {p : Pass} {i : ℕ} {c : Cmd} {r : Bool × Cmd × Pass}

/-- A command neither mask holds back is blocked by nothing kept. -/
theorem Exact.not_blocks (h : Exact kept p.barrier p.fence) (hc : Clear p c) :
    ¬Blocks kept c := by
  rw [blocks_iff, tagOf, ← h.barrier.test, ← h.fence.test, ← orderBits_iff]
  rintro (hb | hf)
  · exact hb hc.1
  · exact hc.2 hf

theorem Outcome.exact (ho : Outcome p i c r) (h : Exact kept p.barrier p.fence) :
    Exact (if r.1 then kept else kept ++ [r.2.1]) r.2.2.barrier r.2.2.fence := by
  cases ho with
  | barrierFirst => exact h
  | barrierWait hbc _ => exact h.keep_barrierClass hbc
  | behindBarrier hbc hb => exact h.keep_behind_barrier hbc hb
  | behindFence hbc _ hf =>
    have hk := h.keep_behind_fence hbc hf
    simp only [Bool.false_eq_true, if_false]
    by_cases hb : c.cmd &&& mfcBarrierMask ≠ 0
    · rw [if_pos hb] at hk ⊢
      exact hk
    · rw [if_neg hb] at hk ⊢
      exact hk
  | hold hbc _ ha _ hbar hfen _ =>
    rw [hbar, hfen]
    rcases ha with rfl | rfl
    · exact h.hold hbc rfl rfl
    · exact h.hold hbc (tagOf_stall c) rfl
  | issue => exact h

theorem Outcome.removed (ho : Outcome p i c r) :
    r.2.2.removed = if r.1 then p.removed + 1 else p.removed := by
  cases ho with
  | behindFence =>
    simp only [Bool.false_eq_true, if_false]
    split_ifs <;> rfl
  | hold _ _ _ hrem => exact hrem
  | _ => rfl

theorem Outcome.marks (ho : Outcome p i c r) : Marks c r.2.1 := by
  cases ho with
  | hold _ _ ha => exact ha
  | _ => exact .inl rfl

theorem Outcome.issued (ho : Outcome p i c r) :
    r.2.2.issued = p.issued ∨ r.2.2.issued = p.issued ++ [i] := by
  cases ho with
  | behindFence => dsimp only; split_ifs <;> exact .inl rfl
  | hold _ _ _ _ _ _ hiss => exact hiss
  | issue => exact .inr rfl
  | _ => exact .inl rfl

theorem Outcome.obeys (ho : Outcome p i c r) (h : Exact kept p.barrier p.fence)
    (hcount : p.removed + kept.length = i) : Obeys kept i c p r := by
  have hne : p.issued ≠ p.issued ++ [i] := by simp
  refine ⟨ho.issued, ?_, ?_, ?_⟩
  · intro hiss
    cases ho with
    | hold hbc hc => exact ⟨hbc, h.not_blocks hc⟩
    | issue hbc hc => exact ⟨hbc, h.not_blocks hc⟩
    | behindFence =>
      revert hiss
      dsimp only
      split_ifs <;> exact fun h => absurd h hne
    | _ => exact absurd hiss hne
  · intro hr hbc
    cases ho with
    | barrierFirst hbc' => exact absurd hbc' hbc
    | issue => rfl
    | behindFence => dsimp only at hr; cases hr
    | _ => cases hr
  · intro hbc
    cases ho with
    | barrierFirst _ hfirst =>
      simp only [true_iff]
      exact List.length_eq_zero_iff.mp (by omega)
    | barrierWait _ hlt =>
      simp only [Bool.false_eq_true, false_iff]
      intro hnil
      rw [hnil, List.length_nil] at hcount
      omega
    | behindBarrier hbc' => exact absurd hbc hbc'
    | behindFence hbc' => exact absurd hbc hbc'
    | hold hbc' => exact absurd hbc hbc'
    | issue hbc' => exact absurd hbc hbc'

end Outcome

/-! ## The whole pass -/

/-- What holds once `remove_if` has been through `done`, keeping `kept`: the masks hold
exactly the tags of `kept`, every entry of `done` was removed or kept, and `kept` is in
the order of `done`. -/
structure PassInv (done kept : List Cmd) (p : Pass) : Prop extends Exact kept p.barrier p.fence where
  count : p.removed + kept.length = done.length
  order : ∃ l, l.Sublist done ∧ List.Forall₂ Marks l kept

theorem passInv_init : PassInv [] [] Pass.init where
  barrier := covers_zero.congr fun k _ => by simp
  fence := covers_zero.congr fun k _ => by simp
  count := rfl
  order := ⟨[], List.Sublist.slnil, .nil⟩

section Run

variable (execMask : UInt16) (stalls : ℕ → Bool)

theorem PassInv.step {done kept : List Cmd} {p : Pass} (h : PassInv done kept p) (c : Cmd) :
    PassInv (done ++ [c])
      (if (processCommand execMask stalls p done.length c).1 then kept
        else kept ++ [(processCommand execMask stalls p done.length c).2.1])
      (processCommand execMask stalls p done.length c).2.2 := by
  have ho := processCommand_outcome execMask stalls p done.length c
  refine { toExact := ho.exact h.toExact, count := ?_, order := ?_ }
  · have hc := h.count
    rw [ho.removed, List.length_append, List.length_singleton]
    split_ifs
    · omega
    · rw [List.length_append, List.length_singleton]
      omega
  · obtain ⟨l, hl, hm⟩ := h.order
    split_ifs
    · exact ⟨l, hl.trans (List.sublist_append_left _ _), hm⟩
    · exact ⟨l ++ [c], hl.append (List.Sublist.refl _), List.rel_append hm (.cons ho.marks .nil)⟩

theorem passFrom_inv : ∀ (l done kept : List Cmd) (p : Pass), PassInv done kept p →
    PassInv (done ++ l) (passFrom execMask stalls done.length l (kept, p)).1
      (passFrom execMask stalls done.length l (kept, p)).2
  | [], done, kept, p, h => by simpa [passFrom] using h
  | c :: l, done, kept, p, h => by
    have ih := passFrom_inv l (done ++ [c]) _ _ (h.step execMask stalls c)
    rw [List.length_append, List.length_singleton, List.append_assoc, List.singleton_append] at ih
    exact ih

theorem passFrom_append : ∀ (l₁ l₂ : List Cmd) (i : ℕ) (st : List Cmd × Pass),
    passFrom execMask stalls i (l₁ ++ l₂) st =
      passFrom execMask stalls (i + l₁.length) l₂ (passFrom execMask stalls i l₁ st)
  | [], l₂, i, st => rfl
  | c :: l₁, l₂, i, st => by
    rw [List.cons_append, passFrom, passFrom, passFrom_append l₁ l₂ (i + 1), List.length_cons,
      Nat.add_assoc, Nat.add_comm 1]

/-- The pass up to entry `j`, and the application of `process_command` to entry `j`. -/
theorem passFrom_take_succ (q : List Cmd) (j : ℕ) (hj : j < q.length) :
    passFrom execMask stalls 0 q ([], Pass.init) =
      let st := passFrom execMask stalls 0 (q.take j) ([], Pass.init)
      let r := processCommand execMask stalls st.2 j q[j]
      passFrom execMask stalls (j + 1) (q.drop (j + 1)) (if r.1 then st.1 else st.1 ++ [r.2.1], r.2.2) := by
  conv_lhs => rw [← List.take_append_drop j q, List.drop_eq_getElem_cons hj]
  rw [passFrom_append, List.length_take_of_le hj.le, Nat.zero_add, passFrom]

end Run

/-- One pass of `do_mfc` over any queue, with any execution mask and any stalls: every
application of `process_command` obeys the ordering rules against the entries still queued
before it, the entries left keep their order (a stalled list with its stall bit), and the
new `mfc_barrier` and `mfc_fence` make `do_dma_check` refuse exactly the commands that the
entries left block. -/
theorem do_mfc_ordering (execMask : UInt16) (stalls : ℕ → Bool) (m : Mfc) :
    (∀ j (hj : j < m.queue.length),
      let st := passFrom execMask stalls 0 (m.queue.take j) ([], Pass.init)
      Obeys st.1 j m.queue[j] st.2 (processCommand execMask stalls st.2 j m.queue[j])) ∧
    let r := doMfcPass execMask stalls m
    r.1.queue.length + r.2.removed = m.queue.length ∧
    (∃ l, l.Sublist m.queue ∧ List.Forall₂ Marks l r.1.queue) ∧
    ∀ c, doDmaCheck r.1 c = false ↔ Blocks r.1.queue c := by
  have hrun := fun l => passFrom_inv execMask stalls l [] [] Pass.init passInv_init
  refine ⟨fun j hj => ?_, ?_⟩
  · have h := hrun (m.queue.take j)
    simp only [List.nil_append, List.length_nil] at h
    apply (processCommand_outcome ..).obeys h.toExact
    rw [h.count, List.length_take_of_le hj.le]
  · have h := hrun m.queue
    simp only [List.nil_append, List.length_nil] at h
    refine ⟨?_, h.order, h.doDmaCheck_eq_false⟩
    have := h.count
    dsimp only [doMfcPass]
    omega

end Rpcs3.Cell.SpuMfc
