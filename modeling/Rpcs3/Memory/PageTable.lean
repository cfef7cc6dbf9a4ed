import Mathlib
import Rpcs3.Lib.Loop
import Rpcs3.Memory.VmBlock

/-! `vm::check_addr` and `vm::page_protect` (`Emu/Memory/vm.cpp`) on the page table
`g_pages`, one flag byte per 4 KiB page.

`check_addr` tests the flags of the pages of a range, stepping from a page of a 64 KiB or 1 MiB
page straight to the next such boundary. `page_protect` checks its range, then walks its pages
once, one past the end, grouping consecutive pages by their new flags `(old | set) & ~clear`:
when the next page's new flags differ, it writes the group, but only when the group's first
page does not already hold them. `page_executable` alone, which no allocated page holds, stands
for the value before the first page and after the last. The range locks and the host memory
protection around each write do not change `g_pages` and are left out.

Every page ends with its old or its new flags and no page outside the range changes
(`pageProtect_old_or_new`); when adjacent pages with equal new flags have equal old flags, and
the last page's new flags are not `page_executable`, every page of the range ends with its new
flags (`pageProtect_eq_of_groups`). A page in a group whose first page already holds the
group's flags keeps its own (`page_protect_skips_group`). -/
namespace Rpcs3.Memory.PageTable

open VmBlock (pageReadable pageWritable pageExecutable page64kSize page1mSize pageAllocated setPages)

/-- `utils::align(x, a)` on page numbers, which stay far below 2^32. -/
def alignUp (x a : ℕ) : ℕ := (x + a - 1) / a * a

/-- The loop of `check_addr` from page `i` to page `max`; `fuel` bounds the iterations, and
`max + 1` of them are enough. -/
def checkPages (pages : ℕ → UInt8) (flags : UInt8) (max : ℕ) : ℕ → ℕ → Bool
  | 0, _ => true
  | fuel + 1, i =>
    if max < i then true
    else if ~~~(pages i) &&& flags ≠ 0 then false
    else if pages i &&& page1mSize ≠ 0 then checkPages pages flags max fuel (alignUp (i + 1) 256)
    else if pages i &&& page64kSize ≠ 0 then checkPages pages flags max fuel (alignUp (i + 1) 16)
    else checkPages pages flags max fuel (i + 1)

def checkAddr (pages : ℕ → UInt8) (addr : ℕ) (flags : UInt8) (size : ℕ) : Bool :=
  if size = 0 then true
  else if 0x100000000 - addr < size then false
  else
    let max := (addr + size - 1) / 4096
    checkPages pages (flags ||| pageAllocated) max (max + 1) (addr / 4096)

/-- The variables of the loop of `page_protect`: `start_value`, `start` and the table. -/
structure Pass where
  startValue : UInt8
  start : ℕ
  pages : ℕ → UInt8

/-- `new_val` at page `i` of a range ending at page `e`. -/
def newValue (pages : ℕ → UInt8) (set clear : UInt8) (e i : ℕ) : UInt8 :=
  if i < e then (pages i ||| set) &&& ~~~clear else pageExecutable

/-- One iteration of the loop of `page_protect`, at page `i`. -/
def protectStep (set clear : UInt8) (e : ℕ) (p : Pass) (i : ℕ) : Pass :=
  let newVal := newValue p.pages set clear e i
  if newVal ≠ p.startValue then
    let oldVal := p.pages p.start
    let pageSize := (i - p.start) * 4096
    let pages := if pageSize ≠ 0 ∧ oldVal ≠ p.startValue then
        setPages p.pages p.start (i - p.start) p.startValue
      else p.pages
    ⟨newVal, i, pages⟩
  else p

/-- `page_protect(addr, size, flags_test, flags_set, flags_clear)`: `none` where it throws. -/
def pageProtect (pages : ℕ → UInt8) (addr size : ℕ) (flagsTest flagsSet flagsClear : UInt8) :
    Option (Bool × (ℕ → UInt8)) :=
  if size = 0 ∨ (size ||| addr) % 4096 ≠ 0 then none
  else
    let flagsBoth := flagsSet &&& flagsClear
    let flagsTest := flagsTest ||| pageAllocated
    let flagsSet := flagsSet &&& ~~~flagsBoth
    let flagsClear := flagsClear &&& ~~~flagsBoth
    if !checkAddr pages addr flagsTest size then some (false, pages)
    else if flagsSet = 0 ∧ flagsClear = 0 then some (true, pages)
    else
      let start := addr / 4096
      let e := start + size / 4096
      let p := (List.range' start (e + 1 - start)).foldl (protectStep flagsSet flagsClear e)
        ⟨pageExecutable, start, pages⟩
      some (true, p.pages)

/-- The flags a page is to have: its old flags with `set` and without `clear`, where the bits
in both are dropped from both. -/
def protectedFlags (old set clear : UInt8) : UInt8 :=
  (old ||| (set &&& ~~~(set &&& clear))) &&& ~~~(clear &&& ~~~(set &&& clear))

/-! ### `check_addr` -/

section Check

variable {g : ℕ → UInt8} {flags : UInt8} {max : ℕ}

theorem lt_alignUp (x : ℕ) {a : ℕ} (ha : 0 < a) : x ≤ alignUp (x + 1) a := by
  unfold alignUp
  have h := Nat.lt_div_mul_add (a := x + 1 + a - 1) ha
  omega

/-- The loop passes when every page it can reach has the flags. -/
theorem checkPages_of_forall (hok : ∀ k, i ≤ k → k ≤ max → ~~~(g k) &&& flags = 0) (fuel : ℕ) :
    checkPages g flags max fuel i = true := by
  induction fuel generalizing i with
  | zero => rfl
  | succ fuel ih =>
    unfold checkPages
    by_cases hi : max < i
    · rw [if_pos hi]
    · have hki := hok i le_rfl (by omega)
      rw [if_neg hi, if_neg (by simpa using hki)]
      have hskip : ∀ a, 0 < a → checkPages g flags max fuel (alignUp (i + 1) a) = true := by
        intro a ha
        exact ih fun k hk hkm => hok k (by have := lt_alignUp i ha; omega) hkm
      split_ifs
      · exact hskip 256 (by norm_num)
      · exact hskip 16 (by norm_num)
      · exact ih fun k hk hkm => hok k (by omega) hkm

/-- Without 64 KiB and 1 MiB pages the loop fails at the first page without the flags. -/
theorem checkPages_eq_false (hsmall : ∀ k, i ≤ k → k ≤ max →
      g k &&& page1mSize = 0 ∧ g k &&& page64kSize = 0)
    {k : ℕ} (hik : i ≤ k) (hkm : k ≤ max) (hk : ~~~(g k) &&& flags ≠ 0) {fuel : ℕ}
    (hfuel : max + 1 - i ≤ fuel) : checkPages g flags max fuel i = false := by
  induction fuel generalizing i with
  | zero => omega
  | succ fuel ih =>
    unfold checkPages
    rw [if_neg (by omega)]
    by_cases hki : ~~~(g i) &&& flags = 0
    · have hne : i ≠ k := by rintro rfl; exact hk hki
      obtain ⟨h1m, h64k⟩ := hsmall i le_rfl (by omega)
      rw [if_neg (by simpa using hki), if_neg (by simpa using h1m), if_neg (by simpa using h64k)]
      exact ih (fun k' hk' hkm' => hsmall k' (by omega) hkm') (by omega) (by omega)
    · rw [if_pos hki]

end Check

/-! ### The loop of `page_protect` -/

section Loop

variable {g : ℕ → UInt8} {set clear : UInt8} {s e : ℕ}

/-- What the loop keeps before iteration `i`, over the range `[s, e)` of `g`: `start` lies
between `s` and `i`, the pages of the open group `[start, i)` share the new value
`start_value`, the pages from `start` on are as in `g`, and each page before `start` has its
old flags or its new ones. -/
structure PassOk (g : ℕ → UInt8) (set clear : UInt8) (s e i : ℕ) (p : Pass) : Prop where
  le_start : s ≤ p.start
  start_le : p.start ≤ i
  start_le_end : p.start ≤ e
  group : ∀ m, p.start ≤ m → m < i → newValue g set clear e m = p.startValue
  unwritten : ∀ k, p.start ≤ k → p.pages k = g k
  written : ∀ k, k < p.start → p.pages k = g k ∨ (s ≤ k ∧ p.pages k = newValue g set clear e k)

/-- The loop reads the new value of page `i` and the old value of the group's first page from
pages it has not written yet. -/
theorem newValue_pages {p : Pass} {i : ℕ} (hu : ∀ k, p.start ≤ k → p.pages k = g k)
    (hi : p.start ≤ i) : newValue p.pages set clear e i = newValue g set clear e i := by
  simp only [newValue, hu i hi]

theorem setPages_apply {pages : ℕ → UInt8} {first count : ℕ} {value : UInt8} {k : ℕ} :
    setPages pages first count value k = if first ≤ k ∧ k < first + count then value else pages k :=
  rfl

/-- An iteration whose page has a new value other than `start_value` closes the group
`[start, i)`, writing it when it is not empty and its first page does not hold the value. -/
theorem protectStep_of_ne {p : Pass} {i : ℕ} (hsi : p.start ≤ i)
    (hne : newValue p.pages set clear e i ≠ p.startValue) :
    protectStep set clear e p i = ⟨newValue p.pages set clear e i, i, fun k =>
      if p.start ≤ k ∧ k < i ∧ p.pages p.start ≠ p.startValue then p.startValue else p.pages k⟩ := by
  unfold protectStep
  rw [if_pos hne]
  dsimp only
  congr 1
  funext k
  split_ifs <;> simp_all [setPages_apply]
  omega

theorem protectStep_of_eq {p : Pass} {i : ℕ} (h : newValue p.pages set clear e i = p.startValue) :
    protectStep set clear e p i = p :=
  if_neg (not_not.mpr h)

theorem PassOk.step {i : ℕ} {p : Pass} (hp : PassOk g set clear s e i p) (hie : i ≤ e) :
    PassOk g set clear s e (i + 1) (protectStep set clear e p i) := by
  have hsi := hp.start_le
  have hls := hp.le_start
  by_cases hne : newValue p.pages set clear e i ≠ p.startValue
  · rw [protectStep_of_ne hsi hne]
    refine ⟨by dsimp only; omega, Nat.le_succ i, hie, ?_, ?_, ?_⟩ <;> dsimp only
    · intro m hm hmi
      rw [show m = i by omega, newValue_pages hp.unwritten hsi]
    · intro k hk
      rw [if_neg (by omega)]
      exact hp.unwritten k (by omega)
    · intro k hk
      split_ifs with hw
      · exact .inr ⟨by omega, (hp.group k hw.1 hw.2.1).symm⟩
      · by_cases hks : k < p.start
        · exact hp.written k hks
        · exact .inl (hp.unwritten k (by omega))
  · rw [protectStep_of_eq (not_not.mp hne)]
    refine ⟨hls, by omega, hp.start_le_end, ?_, hp.unwritten, hp.written⟩
    intro m hm hmi
    rcases Nat.lt_succ_iff_lt_or_eq.mp hmi with hmi | rfl
    · exact hp.group m hm hmi
    · rw [← newValue_pages hp.unwritten hsi]
      exact not_not.mp hne

theorem passOk_init (hse : s ≤ e) : PassOk g set clear s e s ⟨pageExecutable, s, g⟩ :=
  ⟨le_rfl, le_rfl, hse, fun _ hm hms => absurd (lt_of_le_of_lt hm hms) (lt_irrefl s), fun _ _ => rfl,
    fun _ _ => .inl rfl⟩

theorem passOk_foldl (hse : s ≤ e) :
    PassOk g set clear s e (e + 1)
      ((List.range' s (e + 1 - s)).foldl (protectStep set clear e) ⟨pageExecutable, s, g⟩) := by
  have h := Loop.foldl_range'_invariant (protectStep set clear e) (PassOk g set clear s e)
    (passOk_init hse) (n := e + 1 - s) fun i p _ hi hp => hp.step (by omega)
  rwa [show s + (e + 1 - s) = e + 1 by omega] at h

/-- `PassOk`, with every page before `start` at its new value. -/
structure PassExact (g : ℕ → UInt8) (set clear : UInt8) (s e i : ℕ) (p : Pass) : Prop
    extends PassOk g set clear s e i p where
  pages_eq : ∀ k, p.pages k = if s ≤ k ∧ k < p.start then newValue g set clear e k else g k

theorem passExact_init (hse : s ≤ e) : PassExact g set clear s e s ⟨pageExecutable, s, g⟩ :=
  ⟨passOk_init hse, fun k => by simp⟩

/-! When adjacent pages of the range with equal new values have equal old ones, a group whose
first page already holds the group's value is all at that value, and the loop leaves every page
before `start` at its new value. -/

section Groups

variable (hgroups : ∀ k, s ≤ k → k + 1 < e →
  newValue g set clear e k = newValue g set clear e (k + 1) → g k = g (k + 1))
include hgroups

theorem old_eq_of_group {st i : ℕ} {v : UInt8} (hs : s ≤ st) (hie : i ≤ e)
    (hgroup : ∀ m, st ≤ m → m < i → newValue g set clear e m = v) (d : ℕ) (hd : st + d < i) :
    g (st + d) = g st := by
  induction d with
  | zero => rfl
  | succ d ih =>
    rw [← ih (by omega)]
    symm
    apply hgroups (st + d) (by omega) (by omega)
    rw [hgroup _ (by omega) (by omega), hgroup _ (by omega) (by omega)]

theorem PassExact.step {i : ℕ} {p : Pass} (hp : PassExact g set clear s e i p) (hie : i ≤ e) :
    PassExact g set clear s e (i + 1) (protectStep set clear e p i) := by
  have hsi := hp.start_le
  have hok := hp.toPassOk.step hie
  by_cases hne : newValue p.pages set clear e i ≠ p.startValue
  · rw [protectStep_of_ne hsi hne] at hok ⊢
    refine ⟨hok, ?_⟩
    intro k
    dsimp only
    rw [hp.pages_eq k, hp.unwritten _ le_rfl]
    by_cases hks : k < p.start
    · -- before the group: as it was
      rw [if_neg fun h => absurd h.1 (by omega)]
      simp only [hks, and_true, show k < i by omega]
    · by_cases hki : k < i
      · -- in the group `[start, i)`: written, or already at the group's value
        have hsk : s ≤ k := le_trans hp.le_start (by omega)
        rw [if_neg (show ¬(s ≤ k ∧ k < p.start) by omega), if_pos (show s ≤ k ∧ k < i from ⟨hsk, hki⟩),
          hp.group k (by omega) hki]
        split_ifs with hw
        · rfl
        · have hold := old_eq_of_group hgroups hp.le_start hie hp.group (k - p.start) (by omega)
          rw [Nat.add_sub_cancel' (by omega)] at hold
          rw [hold]
          exact not_not.mp fun h => hw ⟨by omega, hki, h⟩
      · rw [if_neg fun h => hki h.2.1, if_neg (show ¬(s ≤ k ∧ k < p.start) by omega),
          if_neg fun h => hki h.2]
  · rw [protectStep_of_eq (not_not.mp hne)] at hok ⊢
    exact ⟨hok, hp.pages_eq⟩

theorem passExact_foldl (hse : s ≤ e) :
    PassExact g set clear s e (e + 1)
      ((List.range' s (e + 1 - s)).foldl (protectStep set clear e) ⟨pageExecutable, s, g⟩) := by
  have h := Loop.foldl_range'_invariant (protectStep set clear e) (PassExact g set clear s e)
    (passExact_init hse) (n := e + 1 - s) fun i p _ hi hp => hp.step hgroups (by omega)
  rwa [show s + (e + 1 - s) = e + 1 by omega] at h

end Groups

/-- The last group is closed by the sentinel unless its value is the sentinel itself. -/
theorem start_eq_of_passExact {p : Pass} (hp : PassExact g set clear s e (e + 1) p)
    (hlast : newValue g set clear e (e - 1) ≠ pageExecutable) : p.start = e := by
  by_contra hne
  have hlt : p.start < e := lt_of_le_of_ne hp.start_le_end hne
  have hend : newValue g set clear e e = pageExecutable := if_neg (lt_irrefl e)
  apply hlast
  rw [hp.group (e - 1) (by omega) (by omega), ← hp.group e (by omega) (by omega), hend]

end Loop

/-! ### `page_protect` -/

section Protect

variable {g : ℕ → UInt8} {addr size : ℕ} {test set clear : UInt8}

theorem lor_mod_4096 {a b : ℕ} (ha : a % 4096 = 0) (hb : b % 4096 = 0) : (a ||| b) % 4096 = 0 := by
  have h := Nat.or_mod_two_pow (a := a) (b := b) (n := 12)
  norm_num at h
  rw [h, ha, hb]
  rfl

/-- The last page the check looks at is the last page of the range. -/
theorem last_page (hsize : 0 < size) (haddr : addr % 4096 = 0) (hsz : size % 4096 = 0) :
    (addr + size - 1) / 4096 = addr / 4096 + size / 4096 - 1 := by
  omega

theorem newValue_of_lt {k e : ℕ} (hk : k < e) :
    newValue g (set &&& ~~~(set &&& clear)) (clear &&& ~~~(set &&& clear)) e k =
      protectedFlags (g k) set clear :=
  if_pos hk

/-- Every page ends with its old flags or its new ones, only pages of the range change, and a
failed check changes nothing. -/
theorem pageProtect_old_or_new {r : Bool} {g' : ℕ → UInt8}
    (h : pageProtect g addr size test set clear = some (r, g')) :
    (r = false → g' = g) ∧ ∀ k, g' k = g k ∨
      (addr / 4096 ≤ k ∧ k < addr / 4096 + size / 4096 ∧ g' k = protectedFlags (g k) set clear) := by
  simp only [pageProtect] at h
  split_ifs at h with h0 hc hz
  · -- the check fails, or there is nothing to set or clear
    cases h
    exact ⟨fun _ => rfl, fun _ => .inl rfl⟩
  · cases h
    exact ⟨fun _ => rfl, fun _ => .inl rfl⟩
  · cases h
    refine ⟨fun h => absurd h Bool.noConfusion, fun k => ?_⟩
    have hp := @passOk_foldl g (set &&& ~~~(set &&& clear)) (clear &&& ~~~(set &&& clear))
      (addr / 4096) (addr / 4096 + size / 4096) (by omega)
    generalize List.foldl _ _ _ = p at hp ⊢
    have hse := hp.start_le_end
    by_cases hk : k < p.start
    · rcases hp.written k hk with h | ⟨hs, h⟩
      · exact .inl h
      · exact .inr ⟨hs, by omega, by rw [h, newValue_of_lt (by omega)]⟩
    · exact .inl (hp.unwritten k (by omega))

theorem test_or_allocated (test : UInt8) :
    test ||| pageAllocated ||| pageAllocated = test ||| pageAllocated := by
  rw [UInt8.or_assoc, UInt8.or_self]

/-- The check passes when every page of the range has the tested flags and `page_allocated`. -/
theorem checkAddr_of_forall (hsize : 0 < size) (haddr : addr % 4096 = 0) (hsz : size % 4096 = 0)
    (hfit : addr + size ≤ 2 ^ 32)
    (htest : ∀ k, addr / 4096 ≤ k → k < addr / 4096 + size / 4096 →
      ~~~(g k) &&& (test ||| pageAllocated) = 0) :
    checkAddr g addr (test ||| pageAllocated) size = true := by
  unfold checkAddr
  rw [if_neg (by omega), if_neg (by omega), test_or_allocated]
  apply checkPages_of_forall
  intro k hk hkm
  exact htest k hk (by rw [last_page hsize haddr hsz] at hkm; omega)

theorem not_throws (hsize : 0 < size) (haddr : addr % 4096 = 0) (hsz : size % 4096 = 0) :
    ¬(size = 0 ∨ (size ||| addr) % 4096 ≠ 0) := by
  rw [lor_mod_4096 hsz haddr]
  omega

/-- When adjacent pages of the range with equal new flags have equal old flags, and the last
page's new flags are not `page_executable`, every page of the range ends with its new flags. -/
theorem pageProtect_eq_of_groups (hsize : 0 < size) (haddr : addr % 4096 = 0)
    (hsz : size % 4096 = 0) (hfit : addr + size ≤ 2 ^ 32)
    (htest : ∀ k, addr / 4096 ≤ k → k < addr / 4096 + size / 4096 →
      ~~~(g k) &&& (test ||| pageAllocated) = 0)
    (hgroups : ∀ k, addr / 4096 ≤ k → k + 1 < addr / 4096 + size / 4096 →
      protectedFlags (g k) set clear = protectedFlags (g (k + 1)) set clear → g k = g (k + 1))
    (hlast : protectedFlags (g (addr / 4096 + size / 4096 - 1)) set clear ≠ pageExecutable) :
    pageProtect g addr size test set clear = some (true, fun k =>
      if addr / 4096 ≤ k ∧ k < addr / 4096 + size / 4096 then protectedFlags (g k) set clear
      else g k) := by
  simp only [pageProtect]
  rw [if_neg (not_throws hsize haddr hsz), checkAddr_of_forall hsize haddr hsz hfit htest]
  simp only [Bool.not_true, Bool.false_eq_true, if_false]
  split_ifs with hz
  · -- nothing to set or clear: every page keeps its flags
    congr 2
    funext k
    split_ifs
    · simp [protectedFlags, hz.1, hz.2]
    · rfl
  · have hgroups' : ∀ k, addr / 4096 ≤ k → k + 1 < addr / 4096 + size / 4096 →
        newValue g (set &&& ~~~(set &&& clear)) (clear &&& ~~~(set &&& clear))
            (addr / 4096 + size / 4096) k =
          newValue g (set &&& ~~~(set &&& clear)) (clear &&& ~~~(set &&& clear))
            (addr / 4096 + size / 4096) (k + 1) → g k = g (k + 1) := by
      intro k hk hk1
      rw [newValue_of_lt (by omega), newValue_of_lt hk1]
      exact hgroups k hk hk1
    have hp := passExact_foldl hgroups' (by omega)
    generalize List.foldl _ _ _ = p at hp ⊢
    have hstart := start_eq_of_passExact hp (by rw [newValue_of_lt (by omega)]; exact hlast)
    congr 2
    funext k
    rw [hp.pages_eq k, hstart]
    split_ifs with hk
    · exact newValue_of_lt hk.2
    · rfl

/-- Page 0 already readable and page 1 not: `page_protect(0, 0x2000, 0, page_readable, 0)`
puts both pages in one group, finds its first page at the group's flags and writes neither,
so it returns `true` with page 1 still not readable. -/
theorem page_protect_skips_group :
    ∃ g', pageProtect (Function.update (Function.update (fun _ => 0) 0
        (pageAllocated ||| pageReadable)) 1 pageAllocated) 0 0x2000 0 pageReadable 0 =
      some (true, g') ∧ g' 1 = pageAllocated ∧
      protectedFlags pageAllocated pageReadable 0 = pageAllocated ||| pageReadable :=
  ⟨_, rfl, by decide, by decide⟩

/-- Without 64 KiB and 1 MiB pages in the range, a page without the tested flags or
`page_allocated` fails the call, which leaves the table as it is. -/
theorem pageProtect_of_missing (hsize : 0 < size) (haddr : addr % 4096 = 0)
    (hsz : size % 4096 = 0)
    (hsmall : ∀ k, addr / 4096 ≤ k → k < addr / 4096 + size / 4096 →
      g k &&& page1mSize = 0 ∧ g k &&& page64kSize = 0)
    {k : ℕ} (hk : addr / 4096 ≤ k) (hke : k < addr / 4096 + size / 4096)
    (hmiss : ~~~(g k) &&& (test ||| pageAllocated) ≠ 0) :
    pageProtect g addr size test set clear = some (false, g) := by
  have hcheck : checkAddr g addr (test ||| pageAllocated) size = false := by
    unfold checkAddr
    rw [if_neg (by omega), test_or_allocated]
    split_ifs
    · rfl
    · have hlast := last_page hsize haddr hsz
      apply checkPages_eq_false _ hk (by omega) hmiss (by omega)
      intro k' hk' hkm'
      exact hsmall k' hk' (by omega)
  simp only [pageProtect]
  rw [if_neg (not_throws hsize haddr hsz), hcheck]
  rfl

/-- A 64 KiB page at page 0 and an unallocated page 1: `check_addr` checks page 0 and steps
past page 1, so `page_protect(0, 0x2000, 0, page_writable, 0)` returns `true` and marks page 1
writable. -/
theorem page_protect_passes_unallocated :
    ∃ g', pageProtect (Function.update (fun _ => 0) 0 (pageAllocated ||| page64kSize)) 0 0x2000 0
        pageWritable 0 = some (true, g') ∧ g' 1 = pageWritable :=
  ⟨_, rfl, by decide⟩

end Protect

end Rpcs3.Memory.PageTable
