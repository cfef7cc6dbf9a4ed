import Rpcs3.Cell.PpuReservation
import Rpcs3.Lib.Replay

/-! Threads that use PPU reservations. Every thread runs `lwarx`/`ldarx`
and then `stwcx`/`stdcx`, over and over, at addresses of its choice; each
atomic load, `fetch_op`, CAS and `vm::writer_lock` section is one step, and
the steps of all threads interleave arbitrarily.

Three properties are proved. The lock bits of every reservation word are
exactly those of the store, if any, that holds it (`LockInv`). The time of a
word grows by 128 at each successful store on it and at no other step
(`time_step`). And when no load reads the first 128-byte line, the pairs
whose store succeeded are linearizable: replaying them one at a time in the
order of their commits gives the values the loads returned and the memory
(`commit_step`). The first line is never mapped (the lowest block, `main`,
starts at 0x10000), so a load there faults before it returns; the model still
lets it run, and there it meets the initial `res_cached` of 0, takes the
"cached" path and keeps a time read on another line, after which a store that
leaves the value unchanged can succeed on a stale value
(`lwarx_line_zero_stale_store`). -/
namespace Rpcs3.Cell.PpuReservationSystem

open Rpcs3.Cell.PpuReservation Transition

/-- The setting `ppu_128_reservations_loop_max_length`. -/
structure Setup where
  loopMax : Int

/-- The calls a thread makes. -/
inductive Call
  | lwarx (w : Width) (addr : Nat)
  | stwcx (w : Width) (addr : Nat) (reg : UInt64)
  deriving DecidableEq

/-- What a call returns at its last step. -/
inductive Ret
  | loaded (v : UInt64)
  | stored (ok : Bool)
  deriving DecidableEq

/-- A load and its conditional store as one atomic operation. -/
structure Pair where
  loadWidth : Width
  loadAddr : Nat
  storeWidth : Width
  storeAddr : Nat
  reg : UInt64

/-- The abstract behaviour of a pair, run on its own: the load's value, then
the memory after the store. This is what a linearizable run refines. -/
def Pair.exec (m : Mem) (p : Pair) : UInt64 × Mem :=
  (loadValue p.loadWidth p.loadAddr (m (wordOf p.loadAddr)),
    Function.update m (wordOf p.storeAddr)
      (storeData p.storeWidth p.storeAddr (m (wordOf p.storeAddr)) p.reg))

/-- The pair a store completes. -/
def pairOf (ld : Loaded) (c : Stcx) : Pair :=
  ⟨ld.width, ld.addr, c.width, c.addr, c.reg⟩

/-- The call a store's locals belong to. -/
def callOf (c : Stcx) : Call := .stwcx c.width c.addr c.reg

/-- A step: its thread, the call it belongs to, what the call returns if
this is its last step, and the pair and value it commits if it is the
store's linearization point. -/
structure Label where
  thread : Nat
  call : Call
  ret : Option Ret
  commit : Option (Pair × UInt64)

/-- A load of the first 128-byte line, whose address matches the initial and
cleared `res_cached` of 0. No guest memory is mapped there, so the load faults. -/
def Call.onLineZero : Call → Bool
  | .lwarx _ addr => lineOf addr == 0
  | .stwcx .. => false

/-- A successful store on reservation word `ri`. -/
def Label.storedOn (ri : Nat) (l : Label) : Bool :=
  match l.call, l.ret with
  | .stwcx _ addr _, some (.stored true) => resIdx addr == ri
  | _, _ => false

structure State where
  mem : Mem
  res : Nat → Nat
  ppu : Nat → Ppu
  pc : Nat → Pc

/-- Fresh threads, and no store inside its locked part. -/
def State.Init (s : State) : Prop :=
  (∀ ri, lockBits (s.res ri) = 0) ∧ (∀ t, s.ppu t = {}) ∧ (∀ t, s.pc t = .idle)

def State.setThread (s : State) (t : Nat) (p : Ppu) (pc : Pc) : State :=
  { s with ppu := Function.update s.ppu t p, pc := Function.update s.pc t pc }

def State.runThread (s : State) (t : Nat) (r : Ppu × Pc) : State := s.setThread t r.1 r.2

def State.setRes (s : State) (ri r : Nat) : State := { s with res := Function.update s.res ri r }

def State.setMem (s : State) (w : Nat) (d : UInt64) : State :=
  { s with mem := Function.update s.mem w d }

section Updates
variable {s : State} {t u ri r w : Nat} {p : Ppu} {pc : Pc} {d : UInt64}

@[simp] theorem State.setThread_mem : (s.setThread t p pc).mem = s.mem := rfl
@[simp] theorem State.setThread_res : (s.setThread t p pc).res = s.res := rfl
@[simp] theorem State.setThread_ppu_self : (s.setThread t p pc).ppu t = p := by
  simp [State.setThread]
@[simp] theorem State.setThread_pc_self : (s.setThread t p pc).pc t = pc := by
  simp [State.setThread]
theorem State.setThread_ppu_other (h : u ≠ t) : (s.setThread t p pc).ppu u = s.ppu u := by
  simp [State.setThread, h]
theorem State.setThread_pc_other (h : u ≠ t) : (s.setThread t p pc).pc u = s.pc u := by
  simp [State.setThread, h]
@[simp] theorem State.runThread_eq (x : Ppu × Pc) : s.runThread t x = s.setThread t x.1 x.2 := rfl
@[simp] theorem State.setRes_mem : (s.setRes ri r).mem = s.mem := rfl
@[simp] theorem State.setRes_ppu : (s.setRes ri r).ppu = s.ppu := rfl
@[simp] theorem State.setRes_pc : (s.setRes ri r).pc = s.pc := rfl
@[simp] theorem State.setRes_res : (s.setRes ri r).res = Function.update s.res ri r := rfl
@[simp] theorem State.setMem_res : (s.setMem w d).res = s.res := rfl
@[simp] theorem State.setMem_ppu : (s.setMem w d).ppu = s.ppu := rfl
@[simp] theorem State.setMem_pc : (s.setMem w d).pc = s.pc := rfl
@[simp] theorem State.setMem_mem : (s.setMem w d).mem = Function.update s.mem w d := rfl

end Updates

/-- One atomic access of one thread. The load's steps are the functions of
`PpuReservation`; the store's steps follow the branches of
`ppu_store_reservation`, a failed one returning through its common exit
(`Ppu.fail`) and a successful one through the notification code, which
touches neither memory nor reservations (`Ppu.succeed`). -/
inductive Step (S : Setup) : State → Label → State → Prop
  | larxEnter {s : State} {t : Nat} {w : Width} {addr : Nat} (accurate recent : Bool)
      (hpc : s.pc t = .idle) (hal : addr % w.bytes = 0) :
      Step S s ⟨t, .lwarx w addr, none, none⟩
        (s.runThread t (larxEnter S.loopMax w addr accurate recent (s.ppu t) (s.res (resIdx addr))))
  | larxFast {s : State} {t : Nat} {w : Width} {addr : Nat} (hpc : s.pc t = .larxFast w addr) :
      Step S s
        ⟨t, .lwarx w addr, (larxFastData w addr (s.ppu t) (s.mem (wordOf addr))).2.returned.map .loaded, none⟩
        (s.runThread t (larxFastData w addr (s.ppu t) (s.mem (wordOf addr))))
  | larxTime {s : State} {t : Nat} {w : Width} {addr : Nat} (hpc : s.pc t = .larxTime w addr) :
      Step S s ⟨t, .lwarx w addr, none, none⟩
        (s.runThread t (larxTime w addr (s.ppu t) (s.res (resIdx addr))))
  | larxData {s : State} {t : Nat} {w : Width} {addr : Nat} (hpc : s.pc t = .larxData w addr) :
      Step S s ⟨t, .lwarx w addr, some (.loaded (loadValue w addr (s.mem (wordOf addr)))), none⟩
        (s.runThread t (larxData w addr (s.ppu t) (s.mem (wordOf addr))))
  | larxCopy {s : State} {t : Nat} {w : Width} {addr i : Nat}
      (hpc : s.pc t = .larxCopy w addr i) :
      Step S s ⟨t, .lwarx w addr,
          (larxCopy w addr i (s.ppu t) (s.mem (lineOf addr * 16 + i))).2.returned.map .loaded, none⟩
        (s.runThread t (larxCopy w addr i (s.ppu t) (s.mem (lineOf addr * 16 + i))))
  /-- The address test fails, or the word no longer holds `old_data`. -/
  | stcxCheckFail {s : State} {t : Nat} {ld : Loaded} {w : Width} {addr : Nat} {reg : UInt64}
      (hpc : s.pc t = .reserved ld) (hal : addr % w.bytes = 0)
      (hf : ¬(addrOk (s.ppu t) addr = true ∧
        (Stcx.make (s.ppu t) w addr reg).oldData = s.mem (wordOf addr))) :
      Step S s ⟨t, .stwcx w addr reg, some (.stored false), none⟩
        (s.setThread t (s.ppu t).fail .idle)
  | stcxCheck {s : State} {t : Nat} {ld : Loaded} {w : Width} {addr : Nat} {reg : UInt64}
      (hpc : s.pc t = .reserved ld) (hal : addr % w.bytes = 0)
      (hok : addrOk (s.ppu t) addr = true)
      (hd : (Stcx.make (s.ppu t) w addr reg).oldData = s.mem (wordOf addr)) :
      Step S s ⟨t, .stwcx w addr reg, none, none⟩
        (s.setThread t (s.ppu t) (.stcxTime ld (Stcx.make (s.ppu t) w addr reg)))
  | stcxTimeFail {s : State} {t : Nat} {ld : Loaded} {c : Stcx} (hpc : s.pc t = .stcxTime ld c)
      (ht : (s.ppu t).rtime ≠ timeOf (s.res (resIdx c.addr))) :
      Step S s ⟨t, callOf c, some (.stored false), none⟩ (s.setThread t (s.ppu t).fail .idle)
  | stcxTime {s : State} {t : Nat} {ld : Loaded} {c : Stcx} (hpc : s.pc t = .stcxTime ld c)
      (ht : (s.ppu t).rtime = timeOf (s.res (resIdx c.addr))) :
      Step S s ⟨t, callOf c, none, none⟩ (s.setThread t (s.ppu t) (afterCheck (s.ppu t) ld c))
  | stcxLockFail {s : State} {t : Nat} {ld : Loaded} {c : Stcx} (hpc : s.pc t = .stcxLock ld c)
      (hl : lockOp (s.ppu t).rtime (s.res (resIdx c.addr)) = none) :
      Step S s ⟨t, callOf c, some (.stored false), none⟩
        (s.setThread t (s.ppu t).lockFailed.fail .idle)
  | stcxLock {s : State} {t : Nat} {ld : Loaded} {c : Stcx} {r : Nat}
      (hpc : s.pc t = .stcxLock ld c) (hl : lockOp (s.ppu t).rtime (s.res (resIdx c.addr)) = some r) :
      Step S s ⟨t, callOf c, none, none⟩
        ((s.setRes (resIdx c.addr) r).setThread t (s.ppu t)
          (if (s.ppu t).useFullRdata then .stcxSection ld c else .stcxDataCas ld c))
  /-- The `writer_lock` section finds the line as reserved: it stores and
  adds the lock bit again, which clears it and advances the time. -/
  | stcxSectionOk {s : State} {t : Nat} {ld : Loaded} {c : Stcx}
      (hpc : s.pc t = .stcxSection ld c)
      (hm : lineMatches (s.ppu t).rdata s.mem (lineOf c.addr) = true) :
      Step S s ⟨t, callOf c, some (.stored true), some (pairOf ld c, ld.value)⟩
        (((s.setMem (wordOf c.addr) c.newData).setRes (resIdx c.addr)
          (s.res (resIdx c.addr) + rsrvUniqueLock)).setThread t (s.ppu t).succeed .idle)
  | stcxSectionFail {s : State} {t : Nat} {ld : Loaded} {c : Stcx}
      (hpc : s.pc t = .stcxSection ld c)
      (hm : lineMatches (s.ppu t).rdata s.mem (lineOf c.addr) = false) :
      Step S s ⟨t, callOf c, some (.stored false), none⟩
        ((s.setRes (resIdx c.addr) (s.res (resIdx c.addr) - rsrvUniqueLock)).setThread t
          (s.ppu t).fail .idle)
  | stcxTimeCasOk {s : State} {t : Nat} {ld : Loaded} {c : Stcx}
      (hpc : s.pc t = .stcxTimeCas ld c) (hr : s.res (resIdx c.addr) = (s.ppu t).rtime) :
      Step S s ⟨t, callOf c, some (.stored true), some (pairOf ld c, ld.value)⟩
        ((s.setRes (resIdx c.addr) ((s.ppu t).rtime + 128)).setThread t
          { s.ppu t with lastFaddr := 0 }.succeed .idle)
  | stcxTimeCasFail {s : State} {t : Nat} {ld : Loaded} {c : Stcx}
      (hpc : s.pc t = .stcxTimeCas ld c) (hr : s.res (resIdx c.addr) ≠ (s.ppu t).rtime) :
      Step S s ⟨t, callOf c, some (.stored false), none⟩
        (s.setThread t { s.ppu t with lastFaddr := 0 }.fail .idle)
  | stcxDataCasOk {s : State} {t : Nat} {ld : Loaded} {c : Stcx}
      (hpc : s.pc t = .stcxDataCas ld c) (hd : s.mem (wordOf c.addr) = c.oldData) :
      Step S s ⟨t, callOf c, none, some (pairOf ld c, ld.value)⟩
        ((s.setMem (wordOf c.addr) c.newData).setThread t (s.ppu t) (.stcxRelease ld c))
  | stcxDataCasFail {s : State} {t : Nat} {ld : Loaded} {c : Stcx}
      (hpc : s.pc t = .stcxDataCas ld c) (hd : s.mem (wordOf c.addr) ≠ c.oldData) :
      Step S s ⟨t, callOf c, none, none⟩
        (s.setThread t (s.ppu t) (.stcxUnlock ld c (s.mem (wordOf c.addr))))
  /-- `res += 128 - lock_bits`. -/
  | stcxRelease {s : State} {t : Nat} {ld : Loaded} {c : Stcx} (hpc : s.pc t = .stcxRelease ld c) :
      Step S s ⟨t, callOf c, some (.stored true), none⟩
        ((s.setRes (resIdx c.addr) (s.res (resIdx c.addr) + (128 - rsrvUniqueLock))).setThread t
          (s.ppu t).succeed .idle)
  /-- `res.fetch_sub(lock_bits)` after the data CAS found `cur`. -/
  | stcxUnlock {s : State} {t : Nat} {ld : Loaded} {c : Stcx} {cur : UInt64}
      (hpc : s.pc t = .stcxUnlock ld c cur) :
      Step S s ⟨t, callOf c, some (.stored false), none⟩
        ((s.setRes (resIdx c.addr) (s.res (resIdx c.addr) - rsrvUniqueLock)).setThread t
          ((s.ppu t).casFailed S.loopMax c (s.res (resIdx c.addr)) cur).fail .idle)

/-! ### The lock bits -/

def State.Holds (s : State) (t ri : Nat) : Prop := (s.pc t).lockedRes = some ri

/-- Every lock bit belongs to the one store inside its locked part, and the
times a thread keeps are time stamps. -/
structure LockInv (s : State) : Prop where
  held : ∀ t ri, s.Holds t ri → lockBits (s.res ri) = rsrvUniqueLock
  free : ∀ ri, (∀ t, ¬s.Holds t ri) → lockBits (s.res ri) = 0
  unique : ∀ t u ri, s.Holds t ri → s.Holds u ri → t = u
  aligned : ∀ t, (s.ppu t).Aligned

section LockInv
variable {S : Setup} {s s' : State} {l : Label} {t u ri r : Nat} {p : Ppu} {pc : Pc}

theorem State.holds_of (ri : Nat) (hpc : s.pc t = pc) (hl : pc.lockedRes = some ri) : s.Holds t ri := by
  unfold State.Holds
  rw [hpc]
  exact hl

theorem LockInv.not_holds (h : LockInv s) (hb : lockBits (s.res ri) = 0) : ¬s.Holds u ri := by
  intro hu
  have := h.held u ri hu
  rw [hb] at this
  cases this

theorem LockInv.holds_only (h : LockInv s) (ht : s.Holds t ri) (hu : u ≠ t) : ¬s.Holds u ri :=
  fun hu' => hu (h.unique u t ri hu' ht)

theorem State.holds_setThread_other (hu : u ≠ t) :
    (s.setThread t p pc).Holds u ri ↔ s.Holds u ri := by
  simp [State.Holds, State.setThread_pc_other hu]

/-- A step of `t` that keeps its lock bit, if any, and keeps its times
aligned. -/
theorem LockInv.setThread (h : LockInv s) (hl : pc.lockedRes = (s.pc t).lockedRes)
    (ha : p.Aligned) : LockInv (s.setThread t p pc) := by
  have hh : ∀ u ri, (s.setThread t p pc).Holds u ri ↔ s.Holds u ri := by
    intro u ri
    by_cases hu : u = t
    · subst hu
      simp [State.Holds, hl]
    · exact State.holds_setThread_other hu
  refine ⟨fun u ri hu => h.held u ri ((hh u ri).mp hu),
    fun ri hn => h.free ri fun u hu => hn u ((hh u ri).mpr hu),
    fun u v ri hu hv => h.unique u v ri ((hh u ri).mp hu) ((hh v ri).mp hv), fun u => ?_⟩
  by_cases hu : u = t
  · subst hu
    simpa using ha
  · rw [State.setThread_ppu_other hu]
    exact h.aligned u

theorem LockInv.setMem (h : LockInv s) {w : Nat} {d : UInt64} : LockInv (s.setMem w d) :=
  ⟨h.held, h.free, h.unique, h.aligned⟩

/-- A step of `t` that writes reservation word `ri`: `t` may take, keep or
give up its lock bit on `ri`, and the new word's lock bits say whether it
holds it. No other thread may hold `ri`. -/
theorem LockInv.update (h : LockInv s)
    (hout : ∀ ri', ri' ≠ ri → (pc.lockedRes = some ri' ↔ (s.pc t).lockedRes = some ri'))
    (hbits : lockBits r = if pc.lockedRes = some ri then rsrvUniqueLock else 0)
    (hother : ∀ u, u ≠ t → ¬s.Holds u ri)
    (ha : p.Aligned) : LockInv ((s.setRes ri r).setThread t p pc) := by
  -- away from `ri`, holding is as before
  have hh : ∀ u ri', ri' ≠ ri → (((s.setRes ri r).setThread t p pc).Holds u ri' ↔ s.Holds u ri') := by
    intro u ri' hne
    by_cases hu : u = t
    · subst hu
      simpa [State.Holds] using hout ri' hne
    · simp [State.Holds, State.setThread_pc_other hu]
  -- on `ri`, only `t` can hold
  have hri : ∀ u, ((s.setRes ri r).setThread t p pc).Holds u ri → u = t ∧ pc.lockedRes = some ri := by
    intro u hu
    by_cases hut : u = t
    · subst hut
      simpa [State.Holds] using hu
    · rw [State.holds_setThread_other hut] at hu
      exact absurd hu (hother u hut)
  refine ⟨fun u ri' hu => ?_, fun ri' hn => ?_, fun u v ri' hu hv => ?_, fun u => ?_⟩
  · by_cases hne : ri' = ri
    · subst hne
      obtain ⟨-, hl⟩ := hri u hu
      simpa [hl] using hbits
    · simpa [hne] using h.held u ri' ((hh u ri' hne).mp hu)
  · by_cases hne : ri' = ri
    · subst hne
      have hl : pc.lockedRes ≠ some ri' := fun hl => hn t (by simpa [State.Holds] using hl)
      simpa [hl] using hbits
    · simpa [hne] using h.free ri' fun u hu => hn u ((hh u ri' hne).mpr hu)
  · by_cases hne : ri' = ri
    · subst hne
      rw [(hri u hu).1, (hri v hv).1]
    · exact h.unique u v ri' ((hh u ri' hne).mp hu) ((hh v ri' hne).mp hv)
  · by_cases hu : u = t
    · subst hu
      simpa using ha
    · rw [State.setThread_ppu_other hu]
      exact h.aligned u

theorem lockInv_init (h : s.Init) : LockInv s := by
  obtain ⟨hres, hppu, hpc⟩ := h
  refine ⟨fun t ri ht => ?_, fun ri _ => hres ri, fun t u ri ht _ => ?_, fun t => by simp [hppu t, Ppu.Aligned]⟩
  · simp [State.Holds, hpc t, Pc.lockedRes] at ht
  · simp [State.Holds, hpc t, Pc.lockedRes] at ht

/-- Every step keeps the lock bits those of the holders. -/
theorem lockInv_step (h : LockInv s) (hs : Step S s l s') : LockInv s' := by
  cases hs with
  | larxEnter _ _ hpc _ =>
    exact h.setThread (by rw [larxEnter_lockedRes, hpc]; rfl) (h.aligned _).larxEnter
  | larxFast hpc =>
    exact h.setThread (by rw [larxFastData_lockedRes, hpc]; rfl) (h.aligned _).larxFastData
  | larxTime hpc => exact h.setThread (by rw [larxTime_lockedRes, hpc]; rfl) (h.aligned _).larxTime
  | larxData hpc => exact h.setThread (by rw [larxData_lockedRes, hpc]; rfl) (h.aligned _).larxData
  | larxCopy hpc => exact h.setThread (by rw [larxCopy_lockedRes, hpc]; rfl) (h.aligned _).larxCopy
  | stcxCheckFail hpc _ _ => exact h.setThread (by rw [hpc]; rfl) (h.aligned _).fail
  | stcxCheck hpc _ _ _ => exact h.setThread (by rw [hpc]; rfl) (h.aligned _)
  | stcxTimeFail hpc _ => exact h.setThread (by rw [hpc]; rfl) (h.aligned _).fail
  | stcxTime hpc _ => exact h.setThread (by rw [afterCheck_lockedRes, hpc]; rfl) (h.aligned _)
  | stcxLockFail hpc _ =>
    exact h.setThread (by rw [hpc]; rfl) (h.aligned _).lockFailed.fail
  | @stcxLock t ld c r hpc hl =>
    -- the lock is taken from a word without lock bits
    obtain ⟨-, hb, rfl⟩ := lockOp_eq_some.mp hl
    have hnew : (if (s.ppu t).useFullRdata then Pc.stcxSection ld c else .stcxDataCas ld c).lockedRes =
        some (resIdx c.addr) := by
      split <;> rfl
    refine h.update (fun ri' hne => ?_) ?_ (fun u _ => h.not_holds hb) (h.aligned t)
    · rw [hnew, hpc]
      simp [Pc.lockedRes, Ne.symm hne]
    · simpa [hnew] using (lock_add hb).2.1
  | @stcxSectionOk t ld c hpc _ =>
    have ht := State.holds_of (resIdx c.addr) hpc rfl
    have hb := h.held t _ ht
    refine h.setMem.update (fun ri' hne => ?_) ?_ (fun u hu => h.holds_only ht hu)
      (h.aligned t).succeed
    · simp [hpc, Pc.lockedRes, Ne.symm hne]
    · simpa [Pc.lockedRes] using (release_add hb).2.1
  | @stcxSectionFail t ld c hpc _ =>
    have ht := State.holds_of (resIdx c.addr) hpc rfl
    have hb := h.held t _ ht
    refine h.update (fun ri' hne => ?_) ?_ (fun u hu => h.holds_only ht hu) (h.aligned t).fail
    · simp [hpc, Pc.lockedRes, Ne.symm hne]
    · simpa [Pc.lockedRes] using (unlock_sub hb).2.1
  | @stcxTimeCasOk t ld c hpc hr =>
    -- the CAS succeeds only on a word without lock bits
    obtain ⟨-, -, hb, hb', -⟩ := time_add (h.aligned t).1
    rw [← hr] at hb
    refine h.update (fun ri' hne => ?_) ?_ (fun u _ => h.not_holds hb) (h.aligned t)
    · simp [hpc, Pc.lockedRes]
    · simpa [Pc.lockedRes] using hb'
  | stcxTimeCasFail hpc _ => exact h.setThread (by rw [hpc]; rfl) (h.aligned _)
  | stcxDataCasOk hpc _ =>
    exact h.setMem.setThread (by rw [State.setMem_pc, hpc]; rfl) (h.aligned _)
  | stcxDataCasFail hpc _ => exact h.setThread (by rw [hpc]; rfl) (h.aligned _)
  | @stcxRelease t ld c hpc =>
    have ht := State.holds_of (resIdx c.addr) hpc rfl
    have hb := h.held t _ ht
    refine h.update (fun ri' hne => ?_) ?_ (fun u hu => h.holds_only ht hu) (h.aligned t).succeed
    · simp [hpc, Pc.lockedRes, Ne.symm hne]
    · simpa [Pc.lockedRes, rsrvUniqueLock] using (release_add hb).2.1
  | @stcxUnlock t ld c cur hpc =>
    have ht := State.holds_of (resIdx c.addr) hpc rfl
    have hb := h.held t _ ht
    refine h.update (fun ri' hne => ?_) ?_ (fun u hu => h.holds_only ht hu)
      (h.aligned t).casFailed.fail
    · simp [hpc, Pc.lockedRes, Ne.symm hne]
    · simpa [Pc.lockedRes] using (unlock_sub hb).2.1

end LockInv

/-! ### The time stamps -/

section Time
variable {S : Setup} {s s' : State} {l : Label}

/-- A reservation word advances by one time unit at each successful store
on it, and only then. -/
theorem time_step (h : LockInv s) (hs : Step S s l s') (ri : Nat) :
    s'.res ri / 128 = s.res ri / 128 + if l.storedOn ri then 1 else 0 := by
  cases hs with
  | larxEnter => simp [Label.storedOn]
  | larxFast => simp [Label.storedOn]
  | larxTime => simp [Label.storedOn]
  | larxData => simp [Label.storedOn]
  | larxCopy => simp [Label.storedOn]
  | stcxCheckFail => simp [Label.storedOn]
  | stcxCheck => simp [Label.storedOn]
  | stcxTimeFail => simp [Label.storedOn, callOf]
  | stcxTime => simp [Label.storedOn, callOf]
  | stcxLockFail => simp [Label.storedOn, callOf]
  | @stcxLock t ld c r hpc hl =>
    obtain ⟨-, hb, rfl⟩ := lockOp_eq_some.mp hl
    by_cases hri : ri = resIdx c.addr
    · subst hri
      simp [Label.storedOn, callOf, (lock_add hb).2.2]
    · simp [Label.storedOn, callOf, Function.update_of_ne hri]
  | @stcxSectionOk t ld c hpc _ =>
    have hb := h.held t _ (State.holds_of (resIdx c.addr) hpc rfl)
    by_cases hri : ri = resIdx c.addr
    · subst hri
      simp [Label.storedOn, callOf, (release_add hb).2.2]
    · simp [Label.storedOn, callOf, Function.update_of_ne hri, Ne.symm hri]
  | @stcxSectionFail t ld c hpc _ =>
    have hb := h.held t _ (State.holds_of (resIdx c.addr) hpc rfl)
    by_cases hri : ri = resIdx c.addr
    · subst hri
      simp [Label.storedOn, callOf, (unlock_sub hb).2.2]
    · simp [Label.storedOn, callOf, Function.update_of_ne hri]
  | @stcxTimeCasOk t ld c hpc hr =>
    have ha := time_add (h.aligned t).1
    by_cases hri : ri = resIdx c.addr
    · subst hri
      simp [Label.storedOn, callOf, hr, ha.2.2.2.2]
    · simp [Label.storedOn, callOf, Function.update_of_ne hri, Ne.symm hri]
  | stcxTimeCasFail => simp [Label.storedOn, callOf]
  | stcxDataCasOk => simp [Label.storedOn, callOf]
  | stcxDataCasFail => simp [Label.storedOn, callOf]
  | @stcxRelease t ld c hpc =>
    have hb := h.held t _ (State.holds_of (resIdx c.addr) hpc rfl)
    by_cases hri : ri = resIdx c.addr
    · subst hri
      simpa [Label.storedOn, callOf, rsrvUniqueLock] using (release_add hb).2.2
    · simp [Label.storedOn, callOf, Function.update_of_ne hri, Ne.symm hri]
  | @stcxUnlock t ld c cur hpc =>
    have hb := h.held t _ (State.holds_of (resIdx c.addr) hpc rfl)
    by_cases hri : ri = resIdx c.addr
    · subst hri
      simp [Label.storedOn, callOf, (unlock_sub hb).2.2]
    · simp [Label.storedOn, callOf, Function.update_of_ne hri]

end Time

/-! ### Frames: what a step leaves of the other threads' view

A store's data CAS writes memory before its release advances the time, so
between the two a word can differ from a reservation taken at the current
time; the word's reservation word is then `Dirty`. -/

/-- Some store has written memory under reservation word `ri` and not yet
released its lock bit. -/
def State.Dirty (s : State) (ri : Nat) : Prop := ∃ u, (s.pc u).releaseRes = some ri

/-- What a step does to the words and times others read: no time goes back,
and while a time stays, each word under it keeps its value unless its
reservation word is dirty, and a dirty reservation word stays dirty. -/
structure Frame (s s' : State) : Prop where
  time_le : ∀ ri, timeOf (s.res ri) ≤ timeOf (s'.res ri)
  word : ∀ a, timeOf (s'.res (resIdx a)) = timeOf (s.res (resIdx a)) →
    (s'.mem (wordOf a) = s.mem (wordOf a) ∨ s'.Dirty (resIdx a)) ∧
      (s.Dirty (resIdx a) → s'.Dirty (resIdx a))

section Frame
variable {S : Setup} {s s' : State} {l : Label} {t u ri r w : Nat} {p : Ppu} {pc : Pc}
  {d : UInt64}

theorem LockInv.not_dirty (h : LockInv s) (hb : lockBits (s.res ri) = 0) : ¬s.Dirty ri :=
  fun ⟨_, hu⟩ => h.not_holds hb (Pc.lockedRes_of_releaseRes hu)

theorem State.dirty_setThread (hd : s.Dirty ri) (ht : (s.pc t).releaseRes ≠ some ri) :
    (s.setThread t p pc).Dirty ri := by
  obtain ⟨u, hu⟩ := hd
  by_cases hut : u = t
  · subst hut
    exact absurd hu ht
  · exact ⟨u, by rw [State.setThread_pc_other hut]; exact hu⟩

/-- A step that keeps every time. -/
theorem Frame.same (htime : ∀ ri, timeOf (s'.res ri) = timeOf (s.res ri))
    (hmem : ∀ a, s'.mem (wordOf a) = s.mem (wordOf a) ∨ s'.Dirty (resIdx a))
    (hdirty : ∀ ri, s.Dirty ri → s'.Dirty ri) : Frame s s' :=
  ⟨fun ri => Nat.le_of_eq (htime ri).symm, fun a _ => ⟨hmem a, hdirty _⟩⟩

/-- A step that advances the time of `ri` and may write the words under it. -/
theorem Frame.advance (ri : Nat) (hres : ∀ ri', ri' ≠ ri → s'.res ri' = s.res ri')
    (ht : timeOf (s'.res ri) = timeOf (s.res ri) + 128)
    (hmem : ∀ a, resIdx a ≠ ri → s'.mem (wordOf a) = s.mem (wordOf a))
    (hdirty : ∀ ri', ri' ≠ ri → s.Dirty ri' → s'.Dirty ri') : Frame s s' := by
  refine ⟨fun ri' => ?_, fun a ha => ?_⟩
  · by_cases hne : ri' = ri
    · subst hne
      omega
    · exact Nat.le_of_eq (by rw [hres ri' hne])
  · have hne : resIdx a ≠ ri := by
      rintro hri
      rw [hri] at ha
      omega
    exact ⟨.inl (hmem a hne), hdirty _ hne⟩

/-- A step of `t` that changes no shared word or time, taken outside the
release of a written store. -/
theorem Frame.setThread (hr : (s.pc t).releaseRes = none) : Frame s (s.setThread t p pc) :=
  Frame.same (fun _ => rfl) (fun _ => .inl rfl)
    (fun _ hd => State.dirty_setThread hd (by simp [hr]))

end Frame

/-! ### What each thread keeps -/

/-- A reservation on one 8-byte word: its time is at most the word's, and
while the word still has that time, memory holds the reservation's copy
unless a store under it has written and not yet released. -/
def SeqOk (s : State) (p : Ppu) (a : Nat) : Prop :=
  p.rtime ≤ timeOf (s.res (resIdx a)) ∧
    (timeOf (s.res (resIdx a)) = p.rtime →
      s.mem (wordOf a) = p.rdata (slotOf a) ∨ s.Dirty (resIdx a))

/-- The time kept for the "cached" line is at most the line's time. Nothing
is claimed for `res_cached` on the first line, which stands for "none". -/
def Cached (s : State) (p : Ppu) : Prop :=
  lineOf p.resCached ≠ 0 → p.rtime ≤ timeOf (s.res (resIdx p.resCached))

/-- A returned load: its value comes from the reservation's copy, and the
copy is a whole line (`use_full_rdata`) or one word kept under `SeqOk`. -/
def ReservedOk (s : State) (p : Ppu) (ld : Loaded) : Prop :=
  ld.value = loadValue ld.width ld.addr (p.rdata (slotOf ld.addr)) ∧
    (p.useFullRdata = true → lineOf p.raddr = lineOf ld.addr) ∧
    (p.useFullRdata = false → p.raddr = ld.addr ∧ SeqOk s p ld.addr)

/-- A store's locals, from its reservation: `old_data` is the copy of the
stored word, and the store hits the reserved word, or line. -/
def StcxOk (s : State) (p : Ppu) (ld : Loaded) (c : Stcx) : Prop :=
  ReservedOk s p ld ∧ c.oldData = p.rdata (slotOf c.addr) ∧
    c.newData = storeData c.width c.addr c.oldData c.reg ∧
    (p.useFullRdata = true → lineOf ld.addr = lineOf c.addr) ∧
    (p.useFullRdata = false → wordOf ld.addr = wordOf c.addr)

/-- What a thread with registers `p` keeps at each point of a call. -/
def PcInv (s : State) (p : Ppu) : Pc → Prop
  | .idle => Cached s p
  | .larxFast _ addr => Cached s p ∧ lineOf addr ≠ 0 ∧ p.raddr = addr ∧
      p.lastFtime ≤ timeOf (s.res (resIdx addr)) ∧ sameFaddr p.useFullRdata addr p.lastFaddr = true
  | .larxTime _ addr => p.raddr = addr
  | .larxData _ addr =>
      p.raddr = addr ∧ p.useFullRdata = false ∧ p.rtime ≤ timeOf (s.res (resIdx addr))
  | .larxCopy _ addr _ => p.useFullRdata = true ∧ lineOf p.raddr = lineOf addr
  | .reserved ld => ReservedOk s p ld
  | .stcxTime ld c | .stcxLock ld c => StcxOk s p ld c
  | .stcxTimeCas ld c => StcxOk s p ld c ∧ p.useFullRdata = false ∧ c.newData = c.oldData
  | .stcxSection ld c =>
      StcxOk s p ld c ∧ p.useFullRdata = true ∧ timeOf (s.res (resIdx c.addr)) = p.rtime
  | .stcxDataCas ld c | .stcxRelease ld c | .stcxUnlock ld c _ =>
      StcxOk s p ld c ∧ p.useFullRdata = false ∧ timeOf (s.res (resIdx c.addr)) = p.rtime

/-- The invariant of runs whose loads avoid the first line. -/
structure Inv (s : State) : Prop where
  lock : LockInv s
  threads : ∀ t, PcInv s (s.ppu t) (s.pc t)

section Keep
variable {S : Setup} {s s' : State} {p : Ppu} {pc : Pc} {a : Nat} {ld : Loaded} {c : Stcx}

theorem SeqOk.frame (hf : Frame s s') (h : SeqOk s p a) : SeqOk s' p a := by
  obtain ⟨hle, heq⟩ := h
  have hmono := hf.time_le (resIdx a)
  refine ⟨Nat.le_trans hle hmono, fun ht => ?_⟩
  -- the time is back at the reservation's only if it never moved
  have hsame : timeOf (s'.res (resIdx a)) = timeOf (s.res (resIdx a)) := by omega
  obtain ⟨hw, hd⟩ := hf.word a hsame
  rcases heq (by omega) with hm | hdirty
  · rcases hw with hw | hw
    · exact .inl (hw.trans hm)
    · exact .inr hw
  · exact .inr (hd hdirty)

theorem Cached.frame (hf : Frame s s') (h : Cached s p) : Cached s' p :=
  fun hl => Nat.le_trans (h hl) (hf.time_le _)

theorem ReservedOk.frame (hf : Frame s s') (h : ReservedOk s p ld) : ReservedOk s' p ld :=
  ⟨h.1, h.2.1, fun hu => ⟨(h.2.2 hu).1, (h.2.2 hu).2.frame hf⟩⟩

theorem StcxOk.frame (hf : Frame s s') (h : StcxOk s p ld c) : StcxOk s' p ld c :=
  ⟨h.1.frame hf, h.2⟩

/-- What a thread keeps survives a step of any thread that keeps the time
of the word whose lock bit it holds. -/
theorem PcInv.frame (hf : Frame s s')
    (hheld : ∀ ri, pc.lockedRes = some ri → timeOf (s'.res ri) = timeOf (s.res ri))
    (h : PcInv s p pc) : PcInv s' p pc := by
  cases pc with
  | idle => exact Cached.frame hf h
  | larxFast w addr =>
    obtain ⟨hC, hl, hra, hle, hsame⟩ := h
    exact ⟨hC.frame hf, hl, hra, Nat.le_trans hle (hf.time_le _), hsame⟩
  | larxTime => exact h
  | larxData w addr => exact ⟨h.1, h.2.1, Nat.le_trans h.2.2 (hf.time_le _)⟩
  | larxCopy => exact h
  | reserved ld => exact ReservedOk.frame hf h
  | stcxTime ld c => exact StcxOk.frame hf h
  | stcxLock ld c => exact StcxOk.frame hf h
  | stcxTimeCas ld c => exact ⟨h.1.frame hf, h.2⟩
  | stcxSection ld c => exact ⟨h.1.frame hf, h.2.1, by rw [hheld _ rfl]; exact h.2.2⟩
  | stcxDataCas ld c => exact ⟨h.1.frame hf, h.2.1, by rw [hheld _ rfl]; exact h.2.2⟩
  | stcxRelease ld c => exact ⟨h.1.frame hf, h.2.1, by rw [hheld _ rfl]; exact h.2.2⟩
  | stcxUnlock ld c cur => exact ⟨h.1.frame hf, h.2.1, by rw [hheld _ rfl]; exact h.2.2⟩

end Keep

/-! ### Each step's frame -/

section StepFrame
variable {S : Setup} {s s' : State} {l : Label} {u ri : Nat}

theorem timeOf_update {f : Nat → Nat} {ri r : Nat} (h : timeOf r = timeOf (f ri)) (ri' : Nat) :
    timeOf (Function.update f ri r ri') = timeOf (f ri') := by
  by_cases hne : ri' = ri
  · subst hne
    simpa using h
  · simp [Function.update_of_ne hne]

/-- Every step has a frame. -/
theorem step_frame (h : LockInv s) (hs : Step S s l s') : Frame s s' := by
  cases hs with
  | larxEnter _ _ hpc _ => exact Frame.setThread (by rw [hpc]; rfl)
  | larxFast hpc => exact Frame.setThread (by rw [hpc]; rfl)
  | larxTime hpc => exact Frame.setThread (by rw [hpc]; rfl)
  | larxData hpc => exact Frame.setThread (by rw [hpc]; rfl)
  | larxCopy hpc => exact Frame.setThread (by rw [hpc]; rfl)
  | stcxCheckFail hpc _ _ => exact Frame.setThread (by rw [hpc]; rfl)
  | stcxCheck hpc _ _ _ => exact Frame.setThread (by rw [hpc]; rfl)
  | stcxTimeFail hpc _ => exact Frame.setThread (by rw [hpc]; rfl)
  | stcxTime hpc _ => exact Frame.setThread (by rw [hpc]; rfl)
  | stcxLockFail hpc _ => exact Frame.setThread (by rw [hpc]; rfl)
  | @stcxLock t ld c r hpc hl =>
    obtain ⟨-, hb, rfl⟩ := lockOp_eq_some.mp hl
    exact Frame.same (timeOf_update (lock_add hb).1) (fun _ => .inl rfl)
      (fun _ hd => State.dirty_setThread hd (by rw [State.setRes_pc, hpc]; simp [Pc.releaseRes]))
  | @stcxSectionOk t ld c hpc _ =>
    have hb := h.held t _ (State.holds_of (resIdx c.addr) hpc rfl)
    refine Frame.advance (resIdx c.addr) (fun ri' hne => by simp [Function.update_of_ne hne])
      (by simpa using (release_add hb).1) (fun a ha => ?_)
      (fun _ _ hd => State.dirty_setThread hd (by simp [hpc, Pc.releaseRes]))
    simp [Function.update_of_ne (wordOf_ne_of_resIdx_ne ha)]
  | @stcxSectionFail t ld c hpc _ =>
    have hb := h.held t _ (State.holds_of (resIdx c.addr) hpc rfl)
    exact Frame.same (timeOf_update (unlock_sub hb).1) (fun _ => .inl rfl)
      (fun _ hd => State.dirty_setThread hd (by simp [hpc, Pc.releaseRes]))
  | @stcxTimeCasOk t ld c hpc hr =>
    have ha := time_add (h.aligned t).1
    refine Frame.advance (resIdx c.addr) (fun ri' hne => by simp [Function.update_of_ne hne])
      (by simp [hr, ha.1, ha.2.1]) (fun a _ => rfl)
      (fun _ _ hd => State.dirty_setThread hd (by simp [hpc, Pc.releaseRes]))
  | stcxTimeCasFail hpc _ => exact Frame.setThread (by rw [hpc]; rfl)
  | @stcxDataCasOk t ld c hpc _ =>
    -- the written word's reservation word is dirty until the release
    refine Frame.same (fun _ => rfl) (fun a => ?_)
      (fun _ hd => State.dirty_setThread hd (by simp [hpc, Pc.releaseRes]))
    by_cases hw : wordOf a = wordOf c.addr
    · refine .inr ⟨t, ?_⟩
      simp [Pc.releaseRes, resIdx_eq_of_lineOf_eq (lineOf_eq_of_wordOf_eq hw)]
    · exact .inl (by simp [Function.update_of_ne hw])
  | stcxDataCasFail hpc _ => exact Frame.setThread (by rw [hpc]; rfl)
  | @stcxRelease t ld c hpc =>
    have hb := h.held t _ (State.holds_of (resIdx c.addr) hpc rfl)
    refine Frame.advance (resIdx c.addr) (fun ri' hne => by simp [Function.update_of_ne hne])
      ?_ (fun a _ => rfl) (fun ri' hne hd => State.dirty_setThread hd ?_)
    · simpa [rsrvUniqueLock] using (release_add hb).1
    · simp [hpc, Pc.releaseRes, Ne.symm hne]
  | @stcxUnlock t ld c cur hpc =>
    have hb := h.held t _ (State.holds_of (resIdx c.addr) hpc rfl)
    exact Frame.same (timeOf_update (unlock_sub hb).1) (fun _ => .inl rfl)
      (fun _ hd => State.dirty_setThread hd (by simp [hpc, Pc.releaseRes]))

/-- A step changes only its own thread. -/
theorem step_others (hs : Step S s l s') (hu : u ≠ l.thread) :
    s'.ppu u = s.ppu u ∧ s'.pc u = s.pc u := by
  cases hs <;> exact ⟨State.setThread_ppu_other hu, State.setThread_pc_other hu⟩

/-- After a step, the time of a word whose lock bit is held is the time it
had before: only a releasing step advances a time, and it leaves the word
free. -/
theorem step_held (h : LockInv s) (hs : Step S s l s') (hu : s'.Holds u ri) :
    timeOf (s'.res ri) = timeOf (s.res ri) := by
  cases hs with
  | @stcxLock t ld c r hpc hl =>
    obtain ⟨-, hb, rfl⟩ := lockOp_eq_some.mp hl
    exact timeOf_update (lock_add hb).1 ri
  | @stcxSectionOk t ld c hpc _ =>
    have ht := State.holds_of (resIdx c.addr) hpc rfl
    by_cases hri : ri = resIdx c.addr
    · subst hri
      by_cases hut : u = t
      · subst hut
        simp [State.Holds, Pc.lockedRes] at hu
      · rw [State.holds_setThread_other hut] at hu
        exact absurd hu (h.holds_only ht hut)
    · simp [Function.update_of_ne hri]
  | @stcxSectionFail t ld c hpc _ =>
    have hb := h.held t _ (State.holds_of (resIdx c.addr) hpc rfl)
    exact timeOf_update (unlock_sub hb).1 ri
  | @stcxTimeCasOk t ld c hpc hr =>
    have hb : lockBits (s.res (resIdx c.addr)) = 0 := by
      rw [hr]
      exact (time_add (h.aligned t).1).2.2.1
    by_cases hri : ri = resIdx c.addr
    · subst hri
      by_cases hut : u = t
      · subst hut
        simp [State.Holds, Pc.lockedRes] at hu
      · rw [State.holds_setThread_other hut] at hu
        exact absurd hu (h.not_holds hb)
    · simp [Function.update_of_ne hri]
  | @stcxRelease t ld c hpc =>
    have ht := State.holds_of (resIdx c.addr) hpc rfl
    by_cases hri : ri = resIdx c.addr
    · subst hri
      by_cases hut : u = t
      · subst hut
        simp [State.Holds, Pc.lockedRes] at hu
      · rw [State.holds_setThread_other hut] at hu
        exact absurd hu (h.holds_only ht hut)
    · simp [Function.update_of_ne hri]
  | @stcxUnlock t ld c cur hpc =>
    have hb := h.held t _ (State.holds_of (resIdx c.addr) hpc rfl)
    exact timeOf_update (unlock_sub hb).1 ri
  | larxEnter => rfl
  | larxFast => rfl
  | larxTime => rfl
  | larxData => rfl
  | larxCopy => rfl
  | stcxCheckFail => rfl
  | stcxCheck => rfl
  | stcxTimeFail => rfl
  | stcxTime => rfl
  | stcxLockFail => rfl
  | stcxTimeCasFail => rfl
  | stcxDataCasOk => rfl
  | stcxDataCasFail => rfl

end StepFrame

/-! ### The stepping thread -/

section Own
variable {S : Setup} {s s' : State} {l : Label} {p : Ppu} {loopMax : Int} {w : Width}
  {addr i r : Nat} {accurate recent : Bool} {ld : Loaded} {c : Stcx}

theorem cached_of_resCached (h : p.resCached = 0) : Cached s p := by
  intro hl
  rw [h] at hl
  exact absurd rfl hl

theorem StcxOk.resIdx_raddr (h : StcxOk s p ld c) : resIdx p.raddr = resIdx c.addr := by
  apply resIdx_eq_of_lineOf_eq
  cases hf : p.useFullRdata
  · rw [(h.1.2.2 hf).1]
    exact lineOf_eq_of_wordOf_eq (h.2.2.2.2 hf)
  · exact (h.1.2.1 hf).trans (h.2.2.2.1 hf)

/-- After a successful store the cached line is the stored one, whose time
has not fallen below the reservation's. -/
theorem cached_succeed (h : StcxOk s p ld c) (ht : p.rtime ≤ timeOf (s.res (resIdx c.addr))) :
    Cached s p.succeed := by
  intro _
  show p.rtime ≤ timeOf (s.res (resIdx p.raddr))
  rwa [h.resIdx_raddr]

theorem pcInv_afterTime (hra : p.raddr = addr)
    (hle : p.useFullRdata = false → p.rtime ≤ timeOf (s.res (resIdx addr))) :
    PcInv s p (afterTime p w addr) := by
  unfold afterTime
  split
  · rename_i hf
    exact ⟨hf, by rw [hra]⟩
  · rename_i hf
    have hf' : p.useFullRdata = false := by simpa using hf
    exact ⟨hra, hf', hle hf'⟩

/-- The "cached" path keeps a time at most the word's: the line's own, by
`Cached`, since a load off the first line cannot match the cleared
`res_cached`. -/
theorem pcInv_reload (hC : Cached s p) (hl : lineOf addr ≠ 0) (hra : p.raddr = addr) :
    PcInv s p (reload p w addr) := by
  unfold reload
  split
  · rename_i hline
    refine pcInv_afterTime hra fun _ => ?_
    have h := hC (hline ▸ hl)
    rwa [resIdx_eq_of_lineOf_eq hline]
  · exact hra

theorem pcInv_larxEnter (hC : Cached s p) (hl : lineOf addr ≠ 0) :
    PcInv s (larxEnter loopMax w addr accurate recent p (s.res (resIdx addr))).1
      (larxEnter loopMax w addr accurate recent p (s.res (resIdx addr))).2 := by
  unfold larxEnter
  dsimp only
  split
  · rename_i hc
    simp only [Bool.and_eq_true, beq_iff_eq] at hc
    exact ⟨hC, hl, rfl, Nat.le_of_eq hc.2.symm, hc.1.1⟩
  · exact pcInv_reload hC hl rfl

/-- The retry path's load returns the word it found, under the time it found
a moment before: a fresh reservation. -/
theorem pcInv_larxFastData (h : PcInv s p (.larxFast w addr)) :
    PcInv s (larxFastData w addr p (s.mem (wordOf addr))).1
      (larxFastData w addr p (s.mem (wordOf addr))).2 := by
  obtain ⟨hC, hl, hra, hle, hsame⟩ := h
  unfold larxFastData
  dsimp only
  split
  · rename_i hd
    refine ⟨by dsimp only; rw [hd], fun hf => ?_, fun hf => ?_⟩
    · have hf' : p.useFullRdata = true := hf
      simp only [sameFaddr, hf', if_true, beq_iff_eq] at hsame
      exact hsame.symm
    · have hf' : p.useFullRdata = false := hf
      simp only [sameFaddr, hf', Bool.false_eq_true, if_false, beq_iff_eq] at hsame
      exact ⟨hsame.symm, hle, fun _ => .inl hd.symm⟩
  · exact pcInv_reload hC hl hra

theorem pcInv_larxTime (hra : p.raddr = addr) :
    PcInv s (larxTime w addr p (s.res (resIdx addr))).1
      (larxTime w addr p (s.res (resIdx addr))).2 := by
  unfold larxTime
  exact pcInv_afterTime hra fun _ => Nat.le_refl _

/-- The 8-byte load returns the word it reads, which is then the copy. -/
theorem pcInv_larxData (h : PcInv s p (.larxData w addr)) :
    PcInv s (larxData w addr p (s.mem (wordOf addr))).1
      (larxData w addr p (s.mem (wordOf addr))).2 := by
  obtain ⟨hra, hf, hle⟩ := h
  refine ⟨by simp [larxData], fun hf' => ?_, fun _ => ⟨hra, hle, fun _ => .inl (by simp [larxData])⟩⟩
  exact Bool.noConfusion (hf'.symm.trans hf)

theorem pcInv_larxCopy (h : PcInv s p (.larxCopy w addr i)) {d : UInt64} :
    PcInv s (larxCopy w addr i p d).1 (larxCopy w addr i p d).2 := by
  obtain ⟨hf, hra⟩ := h
  unfold larxCopy
  dsimp only
  split
  · exact ⟨hf, hra⟩
  · exact ⟨rfl, fun _ => hra, fun hf' => Bool.noConfusion (hf.symm.trans hf')⟩

theorem pcInv_stcxCheck (h : ReservedOk s p ld) (hok : addrOk p addr = true) {reg : UInt64} :
    PcInv s p (.stcxTime ld (Stcx.make p w addr reg)) := by
  refine ⟨h, rfl, rfl, fun hf => ?_, fun hf => ?_⟩
  · rw [← h.2.1 hf]
    exact addrOk_line hok
  · rw [← (h.2.2 hf).1]
    exact addrOk_word hok hf

theorem pcInv_afterCheck (h : StcxOk s p ld c) : PcInv s p (afterCheck p ld c) := by
  unfold afterCheck
  split
  · exact h
  · split
    · rename_i hf heq
      exact ⟨h, by simpa using hf, heq⟩
    · exact h

theorem pcInv_stcxLock (h : StcxOk s p ld c)
    (hl : lockOp p.rtime (s.res (resIdx c.addr)) = some r) :
    PcInv s p (if p.useFullRdata then .stcxSection ld c else .stcxDataCas ld c) := by
  obtain ⟨ht, -, -⟩ := lockOp_eq_some.mp hl
  split
  · rename_i hf
    exact ⟨h, hf, ht⟩
  · rename_i hf
    exact ⟨h, by simpa using hf, ht⟩

/-- The thread that steps keeps its part of the invariant, read in the state
before the step. -/
theorem own_step (h : Inv s) (hs : Step S s l s') (hg : l.call.onLineZero = false) :
    PcInv s (s'.ppu l.thread) (s'.pc l.thread) := by
  have hown := h.threads l.thread
  cases hs with
  | larxEnter _ _ hpc _ =>
    rw [hpc] at hown
    simpa using pcInv_larxEnter hown (by simpa [Call.onLineZero] using hg)
  | larxFast hpc =>
    rw [hpc] at hown
    simpa using pcInv_larxFastData hown
  | larxTime hpc =>
    rw [hpc] at hown
    simpa using pcInv_larxTime hown
  | larxData hpc =>
    rw [hpc] at hown
    simpa using pcInv_larxData hown
  | larxCopy hpc =>
    rw [hpc] at hown
    simpa using pcInv_larxCopy hown
  | stcxCheckFail => simpa [PcInv] using cached_of_resCached rfl
  | stcxCheck hpc _ hok _ =>
    rw [hpc] at hown
    simpa using pcInv_stcxCheck hown hok
  | stcxTimeFail => simpa [PcInv] using cached_of_resCached rfl
  | stcxTime hpc _ =>
    rw [hpc] at hown
    simpa using pcInv_afterCheck hown
  | stcxLockFail => simpa [PcInv] using cached_of_resCached rfl
  | stcxLock hpc hl =>
    rw [hpc] at hown
    simpa using pcInv_stcxLock hown hl
  | stcxSectionOk hpc _ =>
    rw [hpc] at hown
    simpa [PcInv] using cached_succeed hown.1 (Nat.le_of_eq hown.2.2.symm)
  | stcxSectionFail => simpa [PcInv] using cached_of_resCached rfl
  | @stcxTimeCasOk t ld c hpc hr =>
    rw [hpc] at hown
    -- the successful compare saw the reservation at exactly the thread's time
    have ht : (s.ppu t).rtime ≤ timeOf (s.res (resIdx c.addr)) :=
      Nat.le_of_eq (by rw [hr, (time_add (h.lock.aligned t).1).1])
    simpa [PcInv] using cached_succeed (p := { s.ppu t with lastFaddr := 0 }) hown.1 ht
  | stcxTimeCasFail => simpa [PcInv] using cached_of_resCached rfl
  | stcxDataCasOk hpc _ =>
    rw [hpc] at hown
    simpa [PcInv] using hown
  | stcxDataCasFail hpc _ =>
    rw [hpc] at hown
    simpa [PcInv] using hown
  | stcxRelease hpc =>
    rw [hpc] at hown
    simpa [PcInv] using cached_succeed hown.1 (Nat.le_of_eq hown.2.2.symm)
  | stcxUnlock => simpa [PcInv] using cached_of_resCached rfl

end Own

/-! ### The invariant and the linearization points -/

section Serial
variable {S : Setup} {s s' : State} {l : Label} {p : Ppu} {ld : Loaded} {c : Stcx} {a : Nat}

theorem inv_init (h : s.Init) : Inv s := by
  refine ⟨lockInv_init h, fun t => ?_⟩
  rw [h.2.2 t, h.2.1 t]
  exact cached_of_resCached rfl

/-- Steps of loads off the first line keep the invariant. -/
theorem inv_step : Preserved (fun s l t => l.call.onLineZero = false ∧ Step S s l t) Inv := by
  rintro s l s' h ⟨hg, hs⟩
  have hf := step_frame h.lock hs
  refine ⟨lockInv_step h.lock hs, fun u => ?_⟩
  have hheld : ∀ ri, (s'.pc u).lockedRes = some ri → timeOf (s'.res ri) = timeOf (s.res ri) :=
    fun _ hu => step_held h.lock hs hu
  by_cases hu : u = l.thread
  · subst hu
    exact (own_step h hs hg).frame hf hheld
  · -- another thread's registers and place are those it had
    obtain ⟨hp, hpc⟩ := step_others hs hu
    rw [hpc] at hheld
    rw [hp, hpc]
    exact (h.threads u).frame hf hheld

/-- The time-only CAS saw the reservation at the load's time, with no lock
bit: the word still holds the copy, since no store is between its data write
and its release. -/
theorem SeqOk.word_of_time (hL : LockInv s) (h : SeqOk s p a)
    (ht : s.res (resIdx a) = p.rtime) (ha : p.rtime % 128 = 0) :
    s.mem (wordOf a) = p.rdata (slotOf a) := by
  have hA := time_add ha
  have hT : timeOf (s.res (resIdx a)) = p.rtime := by rw [ht, hA.1]
  rcases h.2 hT with hm | hd
  · exact hm
  · exact absurd hd (hL.not_dirty (by rw [ht]; exact hA.2.2.1))

/-- A pair whose loaded word and stored word still hold the reservation's
copy runs as one atomic operation. -/
theorem StcxOk.exec (h : StcxOk s p ld c) {m : Mem}
    (hl : m (wordOf ld.addr) = p.rdata (slotOf ld.addr)) (hc : m (wordOf c.addr) = c.oldData) :
    Pair.exec m (pairOf ld c) = (ld.value, Function.update m (wordOf c.addr) c.newData) := by
  simp only [Pair.exec, pairOf, hl, hc, h.1.1, h.2.2.1]

/-- On the 8-byte path the stored word is the loaded one. -/
theorem StcxOk.word_of_load (h : StcxOk s p ld c) (hf : p.useFullRdata = false) {m : Mem}
    (hl : m (wordOf ld.addr) = p.rdata (slotOf ld.addr)) : m (wordOf c.addr) = c.oldData := by
  have hw := h.2.2.2.2 hf
  rw [← hw, hl, h.2.1, slotOf_eq_of_wordOf_eq hw]

/-- Every step commits at most one pair, at the value its load returned. -/
theorem commit_step (h : Inv s) (hs : Step S s l s') : Commits Pair.exec s.mem l.commit s'.mem := by
  cases hs with
  | @stcxSectionOk t ld c hpc hm =>
    have hown := h.threads t
    rw [hpc] at hown
    obtain ⟨hok, hf, -⟩ := hown
    -- the writer lock found the whole line as copied
    have hl := lineMatches_word (hok.2.2.2.1 hf) hm
    have hc : s.mem (wordOf c.addr) = c.oldData := by
      rw [hok.2.1]
      exact lineMatches_word rfl hm
    exact hok.exec hl hc
  | @stcxTimeCasOk t ld c hpc hr =>
    have hown := h.threads t
    rw [hpc] at hown
    obtain ⟨hok, hf, hnew⟩ := hown
    obtain ⟨hra, hseq⟩ := hok.1.2.2 hf
    have hri : resIdx ld.addr = resIdx c.addr :=
      resIdx_eq_of_lineOf_eq (lineOf_eq_of_wordOf_eq (hok.2.2.2.2 hf))
    have hl := hseq.word_of_time h.lock (hri ▸ hr) (h.lock.aligned t).1
    have hc := hok.word_of_load hf hl
    -- the value is unchanged, so the memory is as it was
    have hm : Function.update s.mem (wordOf c.addr) c.newData = s.mem := by
      rw [hnew, ← hc]
      exact Function.update_eq_self _ _
    show Pair.exec s.mem (pairOf ld c) = (ld.value, s.mem)
    rw [hok.exec hl hc, hm]
  | @stcxDataCasOk t ld c hpc hd =>
    have hown := h.threads t
    rw [hpc] at hown
    obtain ⟨hok, hf, -⟩ := hown
    have hw := hok.2.2.2.2 hf
    have hl : s.mem (wordOf ld.addr) = (s.ppu t).rdata (slotOf ld.addr) := by
      rw [hw, hd, hok.2.1, slotOf_eq_of_wordOf_eq hw]
    exact hok.exec hl hd
  | larxEnter => rfl
  | larxFast => rfl
  | larxTime => rfl
  | larxData => rfl
  | larxCopy => rfl
  | stcxCheckFail => rfl
  | stcxCheck => rfl
  | stcxTimeFail => rfl
  | stcxTime => rfl
  | stcxLockFail => rfl
  | stcxLock => rfl
  | stcxSectionFail => rfl
  | stcxTimeCasFail => rfl
  | stcxDataCasFail => rfl
  | stcxRelease => rfl
  | stcxUnlock => rfl

end Serial

/-! ### The contract -/

/-- Zeroed memory, fresh threads and the reservation words `res`. -/
def State.start (res : Nat → Nat) : State :=
  ⟨fun _ => 0, res, fun _ => {}, fun _ => .idle⟩

theorem State.start_init {res : Nat → Nat} (h : ∀ ri, lockBits (res ri) = 0) :
    (State.start res).Init :=
  ⟨h, fun _ => rfl, fun _ => rfl⟩

/-- What a run from a state with no store inside its locked part guarantees.
The lock bits of a word are those of the one store inside its locked part,
so a completed store leaves them as it found them; the time of a word has
advanced by 128 for each successful store on it; and when no load reads the
first line, replaying the committed pairs in commit order gives the values
their loads returned and the final memory. -/
structure ReservationContract (s₀ : State) (as : List Label) (s : State) : Prop where
  held : ∀ t ri, s.Holds t ri → lockBits (s.res ri) = rsrvUniqueLock
  free : ∀ ri, (∀ t, ¬s.Holds t ri) → lockBits (s.res ri) = 0
  unique : ∀ t u ri, s.Holds t ri → s.Holds u ri → t = u
  time : ∀ ri, s.res ri / 128 = s₀.res ri / 128 + (as.filter (Label.storedOn ri)).length
  serial : (∀ l ∈ as, l.call.onLineZero = false) →
    replay Pair.exec s₀.mem ((as.filterMap Label.commit).map Prod.fst) =
      ((as.filterMap Label.commit).map Prod.snd, s.mem)

theorem reservation_contract (S : Setup) {s₀ s : State} {as : List Label} (h₀ : s₀.Init)
    (h : Run (Step S) s₀ as s) : ReservationContract s₀ as s := by
  have hlock : Preserved (Step S) LockInv := fun _ _ _ => lockInv_step
  have hL := h.invariant hlock (lockInv_init h₀)
  refine ⟨hL.held, hL.free, hL.unique, fun ri => ?_, fun hg => ?_⟩
  · exact h.count_eq hlock (fun _ _ _ hi hs => time_step hi hs ri) (lockInv_init h₀)
  · -- the run is one of steps that keep `Inv`, each committing at most one pair
    exact (h.restrict hg).replay inv_step (fun _ _ _ hi hs => commit_step hi hs.2) (inv_init h₀)

/-- Two threads reserve the same word and race to store: thread 1 takes the lock bit first;
thread 2 passes its value and time checks, fails to take the bit and gives up; thread 1's data
CAS and release then commit its store alone, and the time of the line advances once. -/
theorem reservation_contract_race :
    ∃ as s, Run (Step ⟨0⟩) (State.start fun _ => 0) as s ∧ s.mem 16 = 7 ∧ s.res 1 = 128 ∧
      (as.filterMap Label.commit).length = 1 ∧
      ReservationContract (State.start fun _ => 0) as s := by
  have h : Run (Step ⟨0⟩) (State.start fun _ => 0) _ _ :=
    .cons (@Step.larxEnter _ _ 1 .dword 128 false false (by rfl) (by decide)) <|
    .cons (Step.larxTime (t := 1) (w := .dword) (by rfl)) <|
    .cons (Step.larxData (t := 1) (w := .dword) (by rfl)) <|
    .cons (@Step.larxEnter _ _ 2 .dword 128 false false (by rfl) (by decide)) <|
    .cons (Step.larxTime (t := 2) (w := .dword) (by rfl)) <|
    .cons (Step.larxData (t := 2) (w := .dword) (by rfl)) <|
    .cons (@Step.stcxCheck _ _ 1 _ .dword 128 7 (by rfl) (by decide) (by decide) (by decide)) <|
    .cons (Step.stcxTime (t := 1) (by rfl) (by decide)) <|
    .cons (Step.stcxLock (t := 1) (r := 64) (by rfl) (by decide)) <|
    -- thread 2 finds the lock bit of thread 1 set
    .cons (@Step.stcxCheck _ _ 2 _ .dword 128 9 (by rfl) (by decide) (by decide) (by decide)) <|
    .cons (Step.stcxTime (t := 2) (by rfl) (by decide)) <|
    .cons (Step.stcxLockFail (t := 2) (by rfl) (by decide)) <|
    .cons (Step.stcxDataCasOk (t := 1) (by rfl) (by decide)) <|
    .cons (Step.stcxRelease (t := 1) (by rfl)) <|
    .refl _
  exact ⟨_, _, h, by decide, by decide, by decide,
    reservation_contract ⟨0⟩ (State.start_init fun _ => rfl) h⟩

/-- Why `serial` excludes the first line: in the model, a load there keeps a
time read on line 1 (`res_cached` is 0 after the failed store), and its
unchanged-value store then succeeds after another thread's store changed the
word, so the commits are not serial. The code faults on those addresses. -/
theorem lwarx_line_zero_stale_store :
    (State.start fun ri => if ri = 1 then 128 else 0).Init ∧
    ∃ as s, Run (Step ⟨0⟩) (State.start fun ri => if ri = 1 then 128 else 0) as s ∧
      (as.filterMap Label.commit).map Prod.snd = [0, 0] ∧ s.mem 0 = 5 ∧
      replay Pair.exec (State.start fun ri => if ri = 1 then 128 else 0).mem
        ((as.filterMap Label.commit).map Prod.fst) ≠ ([0, 0], s.mem) := by
  refine ⟨State.start_init fun ri => by by_cases h : ri = 1 <;> simp [h, lockBits], ?_⟩
  -- thread 1 reserves line 1 at time 128 and fails a store to word 0; thread 2
  -- then stores 5 to word 0; thread 1's store of 0, reserved on the cached
  -- path, passes its time check at word 0's new time 128
  have h : Run (Step ⟨0⟩) (State.start fun ri => if ri = 1 then 128 else 0) _ _ :=
    .cons (@Step.larxEnter _ _ 1 .dword 128 false false (by rfl) (by decide)) <|
    .cons (Step.larxTime (t := 1) (w := .dword) (by rfl)) <|
    .cons (Step.larxData (t := 1) (w := .dword) (by rfl)) <|
    .cons (@Step.stcxCheckFail _ _ 1 _ .dword 0 0 (by rfl) (by decide) (by decide)) <|
    .cons (@Step.larxEnter _ _ 1 .dword 0 false false (by rfl) (by decide)) <|
    .cons (Step.larxData (t := 1) (w := .dword) (by rfl)) <|
    .cons (@Step.stcxCheck _ _ 1 _ .dword 0 0 (by rfl) (by decide) (by decide) (by decide)) <|
    .cons (@Step.larxEnter _ _ 2 .dword 0 false false (by rfl) (by decide)) <|
    .cons (Step.larxData (t := 2) (w := .dword) (by rfl)) <|
    .cons (@Step.stcxCheck _ _ 2 _ .dword 0 5 (by rfl) (by decide) (by decide) (by decide)) <|
    .cons (Step.stcxTime (t := 2) (by rfl) (by decide)) <|
    .cons (Step.stcxLock (t := 2) (r := 64) (by rfl) (by decide)) <|
    .cons (Step.stcxDataCasOk (t := 2) (by rfl) (by decide)) <|
    .cons (Step.stcxRelease (t := 2) (by rfl)) <|
    .cons (Step.stcxTime (t := 1) (by rfl) (by decide)) <|
    .cons (Step.stcxTimeCasOk (t := 1) (by rfl) (by decide)) <|
    .refl _
  refine ⟨_, _, h, by decide, by decide, fun he => ?_⟩
  -- in commit order the second load would have returned 5
  have h1 := congrArg Prod.fst he
  revert h1
  decide

end Rpcs3.Cell.PpuReservationSystem
