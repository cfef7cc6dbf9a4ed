import Mathlib
import Rpcs3.Lib.Chain
import Rpcs3.Lv2.Sync

/-! The sleep queues of `lv2_obj` (sys_sync.h) as the code keeps them in memory: an object
holds the head pointer of a list of PPU threads linked through their `next_cpu` fields, newest
first. `unqueue` and `schedule` walk the list while keeping a pointer to the link they may have
to rewrite, the head pointer itself or the `next_cpu` of the thread before, and `emplace`
pushes at the head and stamps the thread's order tag.

`Queue.Holds q l` reads the list of threads `l` off the links (`LinkedList.Chain`), and each
walk acts on that list as the list model of `Sync` says: `unqueue_of_mem`,
`unqueue_of_not_mem` and `schedule_refines`. A picked thread with `cpu_flag::again` set (a
savestate is being taken of it) stays linked. The walks write only the head pointer and the
`next_cpu` fields of the queue's own threads (`Touches`), so the queues of other objects, which
share the threads' nodes, are left as they were. The loops run on explicit fuel, and the length
of the queue is always enough. -/
namespace Rpcs3.Lv2.SleepQueue

open LinkedList
open Sync (PpuId PpuPrio Lv2Protocol)

/-- The fields of a `ppu_thread` that the sleep-queue code reads and writes. -/
structure Node where
  nextCpu : Option PpuId
  prio : PpuPrio
  /-- `prio.preserve_bit`: the next `emplace` keeps the order tag. -/
  preserveBit : Bool
  /-- `cpu_flag::again` is in `state`. -/
  again : Bool

/-- A sleep queue in memory: the object's head pointer and every thread's node. -/
structure Queue where
  first : Option PpuId
  nodes : PpuId → Node

/-- A link the walks may rewrite: the head pointer, or a thread's `next_cpu`. -/
inductive Link where
  | first
  | nextCpu (t : PpuId)

namespace Queue

def next (q : Queue) (t : PpuId) : Option PpuId := (q.nodes t).nextCpu

def prio (q : Queue) (t : PpuId) : PpuPrio := (q.nodes t).prio

def again (q : Queue) (t : PpuId) : Bool := (q.nodes t).again

def read (q : Queue) : Link → Option PpuId
  | .first => q.first
  | .nextCpu t => q.next t

/-- `atomic_storage<T*>::release(link, v)`. -/
def write (q : Queue) : Link → Option PpuId → Queue
  | .first, v => { q with first := v }
  | .nextCpu t, v => { q with nodes := Function.update q.nodes t { q.nodes t with nextCpu := v } }

/-- The queue holds the threads of `l`, in order from the head. -/
def Holds (q : Queue) (l : List PpuId) : Prop := Chain q.next q.first l

@[simp] theorem first_write_first (q : Queue) (v : Option PpuId) : (q.write .first v).first = v :=
  rfl

@[simp] theorem nodes_write_first (q : Queue) (v : Option PpuId) :
    (q.write .first v).nodes = q.nodes := rfl

@[simp] theorem first_write_nextCpu (q : Queue) (t : PpuId) (v : Option PpuId) :
    (q.write (.nextCpu t) v).first = q.first := rfl

@[simp] theorem next_write_first (q : Queue) (v : Option PpuId) : (q.write .first v).next = q.next :=
  rfl

@[simp] theorem next_write_nextCpu (q : Queue) (t : PpuId) (v : Option PpuId) :
    (q.write (.nextCpu t) v).next = Function.update q.next t v := by
  funext u
  by_cases h : u = t
  · subst h
    simp [write, next]
  · simp [write, next, h]

end Queue

/-- The stores that take `found` out once a walk has stopped at the link `parent` that points
at it: `parent` skips to `found`'s successor and, with `modifyNode`, `found`'s own `next_cpu`
is cleared. -/
def unlink (modifyNode : Bool) (q : Queue) (parent : Link) (found : PpuId) : Queue :=
  let q' := q.write parent (q.next found)
  if modifyNode then q'.write (.nextCpu found) none else q'

/-! ### The three operations -/

/-- The loop of `unqueue` past the head: `it` is the current thread, and when its `next_cpu` is
`object` that link skips it. -/
def unqueueFrom (modifyNode : Bool) (object : PpuId) :
    ℕ → Queue → Option PpuId → Option (Queue × Option PpuId)
  | _, q, none => some (q, none)
  | 0, _, some _ => none
  | fuel + 1, q, some it =>
    if q.next it = some object then some (unlink modifyNode q (.nextCpu it) object, some object)
    else unqueueFrom modifyNode object fuel q (q.next it)

/-- `lv2_obj::unqueue<ModifyNode>(first, object)`: take `object` out of the queue and return it,
or return null when it is not queued. `none` when the fuel runs out. -/
def unqueue (fuel : ℕ) (modifyNode : Bool) (q : Queue) (object : PpuId) :
    Option (Queue × Option PpuId) :=
  if q.first = some object then some (unlink modifyNode q .first object, some object)
  else unqueueFrom modifyNode object fuel q q.first

/-- The FIFO walk of `schedule`: follow `next_cpu` to the tail, keeping in `parent` the link that
points at `it`. -/
def fifoTail : ℕ → Queue → Link → PpuId → Option (Link × PpuId)
  | 0, _, _, _ => none
  | fuel + 1, q, parent, it =>
    match q.next it with
    | some next => fifoTail fuel q (.nextCpu it) next
    | none => some (parent, it)

/-- The priority scan of `schedule`: `found` is the best thread so far, `parentFound` the link
that points at it and `prio` its priority; `it` is the thread whose successor comes next. -/
def prioScan : ℕ → Queue → Link → PpuId → PpuPrio → PpuId → Option (Link × PpuId)
  | 0, _, _, _, _, _ => none
  | fuel + 1, q, parentFound, found, prio, it =>
    match q.next it with
    | none => some (parentFound, found)
    | some next =>
      -- strict on the pair: of two threads with one `(prio, order)` the first one stays
      if (q.prio next).before prio then prioScan fuel q (.nextCpu it) next (q.prio next) next
      else prioScan fuel q parentFound found prio next

/-- `lv2_obj::schedule(first, protocol, modify_node)`: the thread the protocol picks, taken out
of the queue unless it has `cpu_flag::again`. `none` when the fuel runs out. -/
def schedule (fuel : ℕ) (q : Queue) (protocol : Lv2Protocol) (modifyNode : Bool) :
    Option (Queue × Option PpuId) :=
  match q.first with
  | none => some (q, none)
  | some it =>
    if protocol = .fifo then
      (fifoTail fuel q .first it).map fun (parent, found) =>
        (if q.again found then q else q.write parent none, some found)
    else
      (prioScan fuel q .first it (q.prio it) it).map fun (parentFound, found) =>
        (if q.again found then q else unlink modifyNode q parentFound found, some found)

/-- The `prio.atomic_op` of `emplace`: a set `preserve_bit` is cleared and the order tag kept (a
thread put back from a savestate); otherwise the thread takes the new tag. -/
def Node.stamp (node : Node) (order : ℕ) : Node :=
  if node.preserveBit then { node with preserveBit := false }
  else { node with prio := { node.prio with order := order } }

/-- `lv2_obj::emplace(first, object)`: `object` links to the old head and becomes the head, and
`++g_priority_order_tag` is its order tag. Returns the new tag with the queue. -/
def emplace (tag : ℕ) (q : Queue) (object : PpuId) : ℕ × Queue :=
  let q' := (q.write (.nextCpu object) q.first).write .first (some object)
  (tag + 1, { q' with nodes := Function.update q'.nodes object ((q'.nodes object).stamp (tag + 1)) })

/-- A run of `emplace`s: the threads of `ts` are pushed in turn, the first of them first. -/
def emplaceAll (tag : ℕ) (q : Queue) : List PpuId → ℕ × Queue
  | [] => (tag, q)
  | t :: ts => emplaceAll (emplace tag q t).1 (emplace tag q t).2 ts


/-! ### What a write may change -/

/-- `q'` is `q` with at most the head pointer and the `next_cpu` links of the threads of `l`
rewritten. -/
structure Touches (l : List PpuId) (q q' : Queue) : Prop where
  nodes_eq : ∀ u, q'.nodes u = { q.nodes u with nextCpu := q'.next u }
  next_eq : ∀ u ∉ l, q'.next u = q.next u

theorem Touches.refl (l : List PpuId) (q : Queue) : Touches l q q :=
  ⟨fun _ => rfl, fun _ _ => rfl⟩

theorem Touches.trans {l : List PpuId} {q q' q'' : Queue} (h : Touches l q q')
    (h' : Touches l q' q'') : Touches l q q'' where
  nodes_eq u := by rw [h'.nodes_eq u, h.nodes_eq u]
  next_eq u hu := (h'.next_eq u hu).trans (h.next_eq u hu)

theorem Touches.prio_eq {l : List PpuId} {q q' : Queue} (h : Touches l q q') : q'.prio = q.prio := by
  funext u
  simp only [Queue.prio, h.nodes_eq u]

theorem Touches.again_eq {l : List PpuId} {q q' : Queue} (h : Touches l q q') :
    q'.again = q.again := by
  funext u
  simp only [Queue.again, h.nodes_eq u]

/-- A queue made of other threads keeps its links. -/
theorem Touches.chain {l l' : List PpuId} {q q' : Queue} (h : Touches l q q') {p : Option PpuId}
    (hc : Chain q.next p l') (hdisj : ∀ u ∈ l', u ∉ l) : Chain q'.next p l' :=
  hc.frame fun u hu => h.next_eq u (hdisj u hu)

/-- `lk` points at `t` and is a link of the queue holding `l`: its head pointer or the
`next_cpu` of one of its threads. -/
structure LinkIn (q : Queue) (l : List PpuId) (lk : Link) (t : PpuId) : Prop where
  read_eq : q.read lk = some t
  mem : ∀ u, lk = .nextCpu u → u ∈ l

theorem touches_write {q : Queue} {l : List PpuId} {lk : Link} (hlk : ∀ u, lk = .nextCpu u → u ∈ l)
    (v : Option PpuId) : Touches l q (q.write lk v) := by
  cases lk with
  | first => exact ⟨fun _ => rfl, fun _ _ => rfl⟩
  | nextCpu t =>
    have ht := hlk t rfl
    constructor
    · intro u
      by_cases h : u = t
      · subst h
        simp [Queue.write, Queue.next]
      · simp [Queue.write, Queue.next, h]
    · intro u hu
      have h : u ≠ t := fun h => hu (h ▸ ht)
      simp [h]

theorem touches_unlink {q : Queue} {l : List PpuId} {lk : Link} {t : PpuId} (hlk : LinkIn q l lk t)
    (ht : t ∈ l) (modifyNode : Bool) : Touches l q (unlink modifyNode q lk t) := by
  have h := touches_write (q := q) hlk.mem (q.next t)
  unfold unlink
  cases modifyNode with
  | false => exact h
  | true => exact h.trans (touches_write (fun u (hu : Link.nextCpu t = .nextCpu u) => Link.nextCpu.inj hu ▸ ht) none)

/-! ### Taking a thread out -/

section Unlink

variable {q : Queue} {l : List PpuId} {lk : Link} {t : PpuId}

theorem LinkIn.mem_of_holds (h : q.Holds l) (hlk : LinkIn q l lk t) : t ∈ l := by
  have hr := hlk.read_eq
  cases lk with
  | first =>
    have hf : q.first = some t := hr
    have hl := h.head?_eq
    rw [hf] at hl
    exact List.mem_of_mem_head? hl
  | nextCpu u => exact h.mem_of_link (hlk.mem u rfl) hr

/-- Pointing the link at `t` past it takes `t` out of the queue. -/
theorem Queue.Holds.bypass (h : q.Holds l) (hlk : LinkIn q l lk t) :
    (q.write lk (q.next t)).Holds (l.erase t) := by
  unfold Queue.Holds at h ⊢
  cases lk with
  | first =>
    have hf : q.first = some t := hlk.read_eq
    rw [hf, chain_some_iff] at h
    obtain ⟨l', rfl, hl'⟩ := h
    rw [List.erase_cons_head]
    simpa using hl'
  | nextCpu u =>
    simpa using h.bypass (hlk.mem u rfl) hlk.read_eq

theorem Queue.Holds.unlink (h : q.Holds l) (hlk : LinkIn q l lk t) (modifyNode : Bool) :
    (unlink modifyNode q lk t).Holds (l.erase t) := by
  have h' := h.bypass hlk
  unfold SleepQueue.unlink
  cases modifyNode with
  | false => exact h'
  | true =>
    -- clearing `t`'s own link does not touch the queue it has left
    have ht : t ∉ l.erase t := (Chain.nodup h).not_mem_erase
    unfold Queue.Holds at h' ⊢
    simpa using h'.update ht none

end Unlink


/-! ### The walks

Each walk is proved over the list that the links from its current thread read (`Chain`), by
induction on that list, with the fuel one step ahead of it. -/

section Walks

variable {q : Queue} {l : List PpuId}

theorem unqueueFrom_of_not_mem {modifyNode : Bool} {object : PpuId} {p : Option PpuId}
    {s : List PpuId} (hs : Chain q.next p s) {fuel : ℕ} (hfuel : s.length ≤ fuel)
    (hmem : object ∉ s) : unqueueFrom modifyNode object fuel q p = some (q, none) := by
  induction s generalizing p fuel with
  | nil =>
    rw [chain_nil_iff.1 hs]
    cases fuel <;> rfl
  | cons a s ih =>
    obtain ⟨rfl, hc⟩ := chain_cons_iff.1 hs
    obtain ⟨fuel, rfl⟩ : ∃ f, fuel = f + 1 := ⟨fuel - 1, by simp at hfuel; omega⟩
    have hne : q.next a ≠ some object := by
      intro h
      rw [h] at hc
      exact hmem (List.mem_cons_of_mem a (List.mem_of_mem_head? hc.head?_eq))
    rw [unqueueFrom, if_neg hne]
    exact ih hc (by simpa using hfuel) (fun h => hmem (List.mem_cons_of_mem a h))

theorem unqueueFrom_of_mem {modifyNode : Bool} {object : PpuId} {p : Option PpuId}
    {s : List PpuId} (hs : Chain q.next p s) (hsl : ∀ u ∈ s, u ∈ l) {fuel : ℕ}
    (hfuel : s.length ≤ fuel) (hmem : object ∈ s.tail) :
    ∃ lk, LinkIn q l lk object ∧
      unqueueFrom modifyNode object fuel q p = some (unlink modifyNode q lk object, some object) := by
  induction s generalizing p fuel with
  | nil => simp at hmem
  | cons a s ih =>
    obtain ⟨rfl, hc⟩ := chain_cons_iff.1 hs
    obtain ⟨fuel, rfl⟩ : ∃ f, fuel = f + 1 := ⟨fuel - 1, by simp at hfuel; omega⟩
    by_cases hn : q.next a = some object
    · refine ⟨.nextCpu a, ⟨hn, fun u hu => Link.nextCpu.inj hu ▸ hsl a List.mem_cons_self⟩, ?_⟩
      rw [unqueueFrom, if_pos hn]
    · -- the link of `a` leads to another thread, and `object` lies beyond it
      have hmem' : object ∈ s.tail := by
        rw [List.tail_cons] at hmem
        cases s with
        | nil => simp at hmem
        | cons b s' =>
          rcases List.mem_cons.1 hmem with rfl | h
          · exact absurd hc.head?_eq.symm hn
          · exact h
      obtain ⟨lk, hlk, hrun⟩ :=
        ih hc (fun u hu => hsl u (List.mem_cons_of_mem a hu)) (by simpa using hfuel) hmem'
      refine ⟨lk, hlk, ?_⟩
      rw [unqueueFrom, if_neg hn]
      exact hrun

theorem fifoTail_spec {parent : Link} {it : PpuId} (hlk : LinkIn q l parent it) (hit : it ∈ l)
    {s : List PpuId} (hs : Chain q.next (q.next it) s) (hsl : ∀ u ∈ s, u ∈ l) {fuel : ℕ}
    (hfuel : s.length < fuel) :
    ∃ parent' x, fifoTail fuel q parent it = some (parent', x) ∧ (it :: s).getLast? = some x ∧
      q.next x = none ∧ LinkIn q l parent' x := by
  induction s generalizing parent it fuel with
  | nil =>
    have hn : q.next it = none := (chain_nil_iff.1 hs)
    obtain ⟨fuel, rfl⟩ : ∃ f, fuel = f + 1 := ⟨fuel - 1, by simp at hfuel; omega⟩
    exact ⟨parent, it, by simp [fifoTail, hn], rfl, hn, hlk⟩
  | cons b s ih =>
    obtain ⟨hb, hc⟩ := chain_cons_iff.1 hs
    obtain ⟨fuel, rfl⟩ : ∃ f, fuel = f + 1 := ⟨fuel - 1, by simp at hfuel; omega⟩
    have hlk' : LinkIn q l (.nextCpu it) b := ⟨hb, fun u hu => Link.nextCpu.inj hu ▸ hit⟩
    obtain ⟨parent', x, hrun, hlast, hx, hlkx⟩ :=
      ih hlk' (hsl b List.mem_cons_self) hc (fun u hu => hsl u (List.mem_cons_of_mem b hu))
        (by simpa using hfuel)
    refine ⟨parent', x, ?_, by rw [List.getLast?_cons_cons, hlast], hx, hlkx⟩
    simp [fifoTail, hb, hrun]

/-- The scan keeps the pick of `Select.keepBetter` under `PpuPrio.before`, and the link that
points at it. -/
theorem prioScan_spec {parentFound : Link} {found it : PpuId} (hlk : LinkIn q l parentFound found)
    (hit : it ∈ l) {r : List PpuId} (hr : Chain q.next (q.next it) r) (hrl : ∀ u ∈ r, u ∈ l)
    {fuel : ℕ} (hfuel : r.length < fuel) :
    ∃ parent', prioScan fuel q parentFound found (q.prio found) it =
        some (parent', r.foldl (Select.keepBetter fun a b => (q.prio a).before (q.prio b)) found) ∧
      LinkIn q l parent' (r.foldl (Select.keepBetter fun a b => (q.prio a).before (q.prio b)) found) := by
  induction r generalizing parentFound found it fuel with
  | nil =>
    have hn : q.next it = none := (chain_nil_iff.1 hr)
    obtain ⟨fuel, rfl⟩ : ∃ f, fuel = f + 1 := ⟨fuel - 1, by simp at hfuel; omega⟩
    exact ⟨parentFound, by simp [prioScan, hn], hlk⟩
  | cons b r ih =>
    obtain ⟨hb, hc⟩ := chain_cons_iff.1 hr
    obtain ⟨fuel, rfl⟩ : ∃ f, fuel = f + 1 := ⟨fuel - 1, by simp at hfuel; omega⟩
    have hbl : b ∈ l := hrl b List.mem_cons_self
    have hrl' : ∀ u ∈ r, u ∈ l := fun u hu => hrl u (List.mem_cons_of_mem b hu)
    have hfuel' : r.length < fuel := by simpa using hfuel
    rw [List.foldl_cons]
    by_cases hbetter : (q.prio b).before (q.prio found)
    · -- `b` is the new pick, behind the link of `it`
      have hlk' : LinkIn q l (.nextCpu it) b := ⟨hb, fun u hu => Link.nextCpu.inj hu ▸ hit⟩
      obtain ⟨parent', hrun, hlkx⟩ := ih hlk' hbl hc hrl' hfuel'
      rw [show Select.keepBetter _ found b = b by simp [Select.keepBetter, hbetter]]
      exact ⟨parent', by simp [prioScan, hb, hbetter, hrun], hlkx⟩
    · obtain ⟨parent', hrun, hlkx⟩ := ih hlk hbl hc hrl' hfuel'
      rw [show Select.keepBetter _ found b = found by simp [Select.keepBetter, hbetter]]
      exact ⟨parent', by simp [prioScan, hb, hbetter, hrun], hlkx⟩

end Walks


/-! ### The operations on the list they hold -/

section Refines

variable {q : Queue} {l : List PpuId}

/-- A queued thread is taken out and returned, the others staying in order; only links of the
queue change. -/
theorem unqueue_of_mem (h : q.Holds l) {fuel : ℕ} (hfuel : l.length ≤ fuel) (modifyNode : Bool)
    {object : PpuId} (hmem : object ∈ l) :
    ∃ q', unqueue fuel modifyNode q object = some (q', some object) ∧ q'.Holds (l.erase object) ∧
      Touches l q q' := by
  by_cases hfirst : q.first = some object
  · have hlk : LinkIn q l .first object := ⟨hfirst, fun _ hu => by cases hu⟩
    exact ⟨_, by rw [unqueue, if_pos hfirst], h.unlink hlk modifyNode,
      touches_unlink hlk hmem modifyNode⟩
  · -- the head is another thread, so `object` is in the rest of the list
    have htail : object ∈ l.tail := by
      cases l with
      | nil => simp at hmem
      | cons a l' =>
        rcases List.mem_cons.1 hmem with rfl | h'
        · exact absurd (Chain.head?_eq h).symm hfirst
        · exact h'
    have hwalk : ∃ lk, LinkIn q l lk object ∧ unqueueFrom modifyNode object fuel q q.first =
        some (unlink modifyNode q lk object, some object) :=
      unqueueFrom_of_mem h (fun _ hu => hu) hfuel htail
    obtain ⟨lk, hlk, hrun⟩ := hwalk
    exact ⟨_, by rw [unqueue, if_neg hfirst, hrun], h.unlink hlk modifyNode,
      touches_unlink hlk hmem modifyNode⟩

/-- A thread that is not queued is not found, and nothing is written. -/
theorem unqueue_of_not_mem (h : q.Holds l) {fuel : ℕ} (hfuel : l.length ≤ fuel)
    (modifyNode : Bool) {object : PpuId} (hmem : object ∉ l) :
    unqueue fuel modifyNode q object = some (q, none) := by
  have hfirst : q.first ≠ some object := fun hf =>
    hmem (List.mem_of_mem_head? ((Chain.head?_eq h).trans hf))
  rw [unqueue, if_neg hfirst]
  exact unqueueFrom_of_not_mem h hfuel hmem

/-- The queue `schedule` leaves once it picked `r`: without the thread, unless
`cpu_flag::again` keeps it linked. -/
def afterSchedule (again : PpuId → Bool) (l : List PpuId) : Option PpuId → List PpuId
  | none => l
  | some t => if again t then l else l.erase t

/-- `schedule` picks the thread of the list model `Sync.schedule`, at the queue's current
priorities, and leaves the queue `afterSchedule` says. -/
theorem schedule_refines (h : q.Holds l) {fuel : ℕ} (hfuel : l.length ≤ fuel)
    (protocol : Lv2Protocol) (modifyNode : Bool) :
    ∃ q', schedule fuel q protocol modifyNode = some (q', Sync.schedule protocol q.prio l) ∧
      q'.Holds (afterSchedule q.again l (Sync.schedule protocol q.prio l)) ∧ Touches l q q' := by
  cases hfirst : q.first with
  | none =>
    have hl : l = [] := by
      have h' : Chain q.next none l := hfirst ▸ h
      exact chain_none_iff.1 h'
    subst hl
    exact ⟨q, by simp [schedule, hfirst], by simpa [afterSchedule] using h, Touches.refl _ _⟩
  | some it =>
    have h' : Chain q.next (some it) l := hfirst ▸ h
    obtain ⟨r, rfl, hr⟩ := chain_some_iff.1 h'
    have hlk : LinkIn q (it :: r) .first it := ⟨hfirst, fun _ hu => by cases hu⟩
    have hrl : ∀ u ∈ r, u ∈ it :: r := fun u hu => List.mem_cons_of_mem it hu
    have hfuel' : r.length < fuel := by simpa using hfuel
    by_cases hp : protocol = .fifo
    · obtain ⟨parent, x, hrun, hlast, hx, hlkx⟩ :=
        fifoTail_spec hlk List.mem_cons_self hr hrl hfuel'
      have hsched : Sync.schedule protocol q.prio (it :: r) = some x := by
        rw [Sync.schedule, if_pos hp, hlast]
      rw [hsched]
      by_cases hagain : q.again x
      · exact ⟨q, by simp [schedule, hfirst, hp, hrun, hagain], by simpa [afterSchedule, hagain] using h,
          Touches.refl _ _⟩
      · -- the tail links to null, so nulling its parent link is the bypass
        have hbypass := h.bypass hlkx
        rw [hx] at hbypass
        exact ⟨_, by simp [schedule, hfirst, hp, hrun, hagain],
          by simpa [afterSchedule, hagain] using hbypass, touches_write hlkx.mem none⟩
    · obtain ⟨parent, hrun, hlkx⟩ := prioScan_spec hlk List.mem_cons_self hr hrl hfuel'
      have hsched : Sync.schedule protocol q.prio (it :: r) =
          some (r.foldl (Select.keepBetter fun a b => (q.prio a).before (q.prio b)) it) := by
        rw [Sync.schedule, if_neg hp]
        rfl
      rw [hsched]
      have hmem := hlkx.mem_of_holds h
      by_cases hagain : q.again (r.foldl (Select.keepBetter fun a b => (q.prio a).before (q.prio b)) it)
      · exact ⟨q, by simp [schedule, hfirst, hp, hrun, hagain], by simpa [afterSchedule, hagain] using h,
          Touches.refl _ _⟩
      · exact ⟨_, by simp [schedule, hfirst, hp, hrun, hagain],
          by simpa [afterSchedule, hagain] using h.unlink hlkx modifyNode,
          touches_unlink hlkx hmem modifyNode⟩

end Refines


/-! ### `emplace` and the queues it builds -/

section Emplace

variable {q : Queue} {l : List PpuId}

@[simp] theorem Node.nextCpu_stamp (node : Node) (order : ℕ) :
    (node.stamp order).nextCpu = node.nextCpu := by
  unfold Node.stamp
  split <;> rfl

@[simp] theorem Node.again_stamp (node : Node) (order : ℕ) : (node.stamp order).again = node.again := by
  unfold Node.stamp
  split <;> rfl

theorem Node.prio_stamp (node : Node) (order : ℕ) :
    (node.stamp order).prio =
      if node.preserveBit then node.prio else { node.prio with order := order } := by
  unfold Node.stamp
  split <;> rfl

@[simp] theorem Node.prio_prio_stamp (node : Node) (order : ℕ) :
    (node.stamp order).prio.prio = node.prio.prio := by
  rw [Node.prio_stamp]
  split <;> rfl

theorem nodes_emplace (tag : ℕ) (q : Queue) (t : PpuId) :
    (emplace tag q t).2.nodes =
      Function.update q.nodes t ({ q.nodes t with nextCpu := q.first }.stamp (tag + 1)) := by
  simp [emplace, Queue.write]

@[simp] theorem tag_emplace (tag : ℕ) (q : Queue) (t : PpuId) : (emplace tag q t).1 = tag + 1 := rfl

@[simp] theorem first_emplace (tag : ℕ) (q : Queue) (t : PpuId) :
    (emplace tag q t).2.first = some t := rfl

theorem next_emplace (tag : ℕ) (q : Queue) (t : PpuId) :
    (emplace tag q t).2.next = Function.update q.next t q.first := by
  funext u
  by_cases h : u = t
  · subst h
    simp [Queue.next, nodes_emplace]
  · simp [Queue.next, nodes_emplace, h]

theorem nodes_emplace_of_ne (tag : ℕ) (q : Queue) {t u : PpuId} (h : u ≠ t) :
    (emplace tag q t).2.nodes u = q.nodes u := by
  simp [nodes_emplace, h]

/-- `emplace` pushes a thread that is not queued at the head. -/
theorem emplace_holds (h : q.Holds l) {t : PpuId} (ht : t ∉ l) (tag : ℕ) :
    (emplace tag q t).2.Holds (Sync.emplace l t) := by
  unfold Queue.Holds at h ⊢
  rw [next_emplace, first_emplace]
  exact (h.update ht q.first).push (Function.update_self ..)

theorem emplaceAll_holds (h : q.Holds l) {ts : List PpuId} (hts : ts.Nodup)
    (hdisj : ∀ t ∈ ts, t ∉ l) (tag : ℕ) : (emplaceAll tag q ts).2.Holds (ts.reverse ++ l) := by
  induction ts generalizing tag q l with
  | nil => simpa [emplaceAll] using h
  | cons t ts ih =>
    have h' := emplace_holds h (hdisj t List.mem_cons_self) tag
    obtain ⟨hts₁, hts₂⟩ := List.nodup_cons.1 hts
    have hdisj' : ∀ u ∈ ts, u ∉ Sync.emplace l t := by
      intro u hu
      simp only [Sync.emplace, List.mem_cons, not_or]
      exact ⟨fun hut => hts₁ (hut ▸ hu), hdisj u (List.mem_cons_of_mem t hu)⟩
    rw [emplaceAll, List.reverse_cons, List.append_assoc, List.singleton_append]
    exact ih h' hts₂ hdisj' _

/-- Threads that a run does not emplace keep their nodes. -/
theorem nodes_emplaceAll_of_not_mem (tag : ℕ) (q : Queue) {ts : List PpuId} {u : PpuId}
    (hu : u ∉ ts) : (emplaceAll tag q ts).2.nodes u = q.nodes u := by
  induction ts generalizing tag q with
  | nil => rfl
  | cons t ts ih =>
    rw [List.mem_cons, not_or] at hu
    rw [emplaceAll, ih _ _ hu.2, nodes_emplace_of_ne _ _ hu.1]

theorem again_emplaceAll (tag : ℕ) (q : Queue) (ts : List PpuId) :
    (emplaceAll tag q ts).2.again = q.again := by
  induction ts generalizing tag q with
  | nil => rfl
  | cons t ts ih =>
    rw [emplaceAll, ih]
    funext u
    by_cases h : u = t
    · subst h
      simp [Queue.again, nodes_emplace]
    · simp [Queue.again, nodes_emplace_of_ne _ _ h]

/-- A run of `emplace`s changes no thread's priority value, only order tags. -/
theorem prio_prio_emplaceAll (tag : ℕ) (q : Queue) (ts : List PpuId) (u : PpuId) :
    ((emplaceAll tag q ts).2.prio u).prio = (q.prio u).prio := by
  induction ts generalizing tag q with
  | nil => rfl
  | cons t ts ih =>
    rw [emplaceAll, ih]
    by_cases h : u = t
    · subst h
      simp [Queue.prio, nodes_emplace]
    · simp [Queue.prio, nodes_emplace_of_ne _ _ h]

/-- A thread emplaced without `preserve_bit` takes the tag of its turn in the run, so of two
such threads the older has the smaller tag. -/
theorem order_emplaceAll (tag : ℕ) (q : Queue) {ts : List PpuId} (hts : ts.Nodup) {u : PpuId}
    (hu : u ∈ ts) (hbit : (q.nodes u).preserveBit = false) :
    ((emplaceAll tag q ts).2.prio u).order = tag + ts.idxOf u + 1 := by
  induction ts generalizing tag q with
  | nil => simp at hu
  | cons t ts ih =>
    obtain ⟨hts₁, hts₂⟩ := List.nodup_cons.1 hts
    rw [emplaceAll]
    by_cases h : u = t
    · -- stamped now, and left alone by the rest of the run
      subst h
      rw [Queue.prio, nodes_emplaceAll_of_not_mem _ _ hts₁, nodes_emplace, List.idxOf_cons_self]
      simp [Node.prio_stamp, hbit]
    · have hu' : u ∈ ts := (List.mem_cons.1 hu).resolve_left h
      rw [ih _ _ hts₂ hu' (by rw [nodes_emplace_of_ne _ _ h]; exact hbit),
        List.idxOf_cons_ne _ (Ne.symm h), tag_emplace]
      omega

end Emplace


/-! ### Queues built by `emplace` -/

/-- On a queue built by `emplace`s from an empty one, `schedule` returns the oldest thread for
FIFO and otherwise the first thread, newest first, of least `(prio, order)`, and unlinks it
unless it has `cpu_flag::again`; `unqueue` takes out exactly the thread asked for, or returns
null and leaves the queue as it was. -/
theorem sleep_queue_schedule_unqueue (tag : ℕ) (nodes : PpuId → Node) (ts : List PpuId)
    (hts : ts.Nodup) (fuel : ℕ) (hfuel : ts.length ≤ fuel) (protocol : Lv2Protocol)
    (modifyNode : Bool) (t : PpuId) :
    let q := (emplaceAll tag { first := none, nodes := nodes } ts).2
    q.Holds ts.reverse ∧
      (∃ q' found, schedule fuel q protocol modifyNode = some (q', found) ∧
        (found = none ↔ ts = []) ∧
        (protocol = .fifo → found = ts.head?) ∧
        (protocol ≠ .fifo → ∀ x, found = some x →
          ∃ pre post, ts.reverse = pre ++ x :: post ∧ (∀ u ∈ pre, (q.prio x).key < (q.prio u).key) ∧
            ∀ u ∈ post, (q.prio x).key ≤ (q.prio u).key) ∧
        ∀ x, found = some x → q'.Holds (if q.again x then ts.reverse else ts.reverse.erase x)) ∧
      ∃ q', unqueue fuel modifyNode q t = some (q', if t ∈ ts then some t else none) ∧
        q'.Holds (ts.reverse.erase t) ∧ (t ∉ ts → q' = q) := by
  intro q
  have h : q.Holds ts.reverse := by
    simpa using emplaceAll_holds (q := ⟨none, nodes⟩) (l := []) .nil hts (by simp) tag
  have hfuel' : ts.reverse.length ≤ fuel := by simpa using hfuel
  refine ⟨h, ?_, ?_⟩
  · obtain ⟨q', hrun, hq', -⟩ := schedule_refines h hfuel' protocol modifyNode
    refine ⟨q', _, hrun, ?_, ?_, ?_, ?_⟩
    · constructor
      · intro hn
        exact List.reverse_eq_nil_iff.1 (Sync.schedule_eq_none hn)
      · rintro rfl
        simp
    · intro hp
      rw [Sync.schedule, if_pos hp, List.getLast?_reverse]
    · intro hp x hx
      rw [Sync.schedule, if_neg hp] at hx
      exact Select.scanBest_first_least (fun a b => PpuPrio.before_iff (q.prio a) (q.prio b)) hx
    · intro x hx
      rw [hx] at hq'
      simpa [afterSchedule] using hq'
  · by_cases ht : t ∈ ts
    · obtain ⟨q', hrun, hq', -⟩ := unqueue_of_mem h hfuel' modifyNode (List.mem_reverse.2 ht)
      exact ⟨q', by simpa [ht] using hrun, hq', fun h' => absurd ht h'⟩
    · have ht' : t ∉ ts.reverse := mt List.mem_reverse.1 ht
      refine ⟨q, by simpa [ht] using unqueue_of_not_mem h hfuel' modifyNode ht', ?_, fun _ => rfl⟩
      rw [List.erase_of_not_mem ht']
      exact h


/-- Without `preserve_bit` the tags of an `emplace` run all differ, so the priority pick is,
among the threads of least priority value, the one emplaced first: "the earliest element to be
pushed is popped", as the comment in `schedule` says. -/
theorem schedule_emplaced_oldest {tag : ℕ} {nodes : PpuId → Node} {ts : List PpuId}
    (hts : ts.Nodup) (hbits : ∀ u ∈ ts, (nodes u).preserveBit = false) {fuel : ℕ}
    (hfuel : ts.length ≤ fuel) {protocol : Lv2Protocol} (hp : protocol ≠ .fifo)
    {modifyNode : Bool} {q' : Queue} {x : PpuId}
    (hrun : schedule fuel (emplaceAll tag ⟨none, nodes⟩ ts).2 protocol modifyNode =
      some (q', some x)) :
    x ∈ ts ∧ ∀ u ∈ ts, (nodes x).prio.prio ≤ (nodes u).prio.prio ∧
      ((nodes u).prio.prio = (nodes x).prio.prio → ts.idxOf x ≤ ts.idxOf u) := by
  set q := (emplaceAll tag ⟨none, nodes⟩ ts).2 with hq
  have h : q.Holds ts.reverse := by
    simpa using emplaceAll_holds (q := ⟨none, nodes⟩) (l := []) .nil hts (by simp) tag
  obtain ⟨q'', hrun', -, -⟩ := schedule_refines h (by simpa using hfuel) protocol modifyNode
  rw [hrun, Option.some.injEq, Prod.mk.injEq] at hrun'
  have hx : Sync.schedule protocol q.prio ts.reverse = some x := hrun'.2.symm
  have hxts : x ∈ ts := List.mem_reverse.1 (Sync.schedule_mem hx)
  rw [Sync.schedule, if_neg hp] at hx
  have hle := Select.scanBest_le (fun a b => PpuPrio.before_iff (q.prio a) (q.prio b)) hx
  -- the pair of each thread: its own priority value and the tag of its turn
  have hpair : ∀ u ∈ ts, q.prio u = ⟨(nodes u).prio.prio, tag + ts.idxOf u + 1⟩ := by
    intro u hu
    have hprio : (q.prio u).prio = (nodes u).prio.prio := prio_prio_emplaceAll tag ⟨none, nodes⟩ ts u
    have horder := order_emplaceAll tag ⟨none, nodes⟩ hts hu (hbits u hu)
    rw [← hprio, ← horder]
  refine ⟨hxts, fun u hu => ?_⟩
  have hkey := hle u (List.mem_reverse.2 hu)
  rw [hpair x hxts, hpair u hu, PpuPrio.key, PpuPrio.key, Prod.Lex.toLex_le_toLex] at hkey
  constructor
  · rcases hkey with hlt | ⟨heq, -⟩
    · exact hlt.le
    · exact heq.le
  · intro heq
    rcases hkey with hlt | ⟨-, hord⟩
    · exact absurd heq (ne_of_gt hlt)
    · simpa using hord

/-- The thread with id 3. -/
def sleeperThree : PpuId := ⟨3, PpuId.pos_three⟩

/-- The thread with id 4. -/
def sleeperFour : PpuId := ⟨4, PpuId.pos_four⟩

/-- A thread that is not queued, at priority `prio`. -/
def idleNode (prio : ℤ) : Node := ⟨none, ⟨prio, 0⟩, false, false⟩

theorem sleep_queue_schedule_unqueue_two_threads :
    [sleeperThree, sleeperFour].Nodup ∧ [sleeperThree, sleeperFour].length ≤ 2 ∧
      let q := (emplaceAll 0 { first := none, nodes := fun _ => idleNode 0 }
        [sleeperThree, sleeperFour]).2
      q.Holds [sleeperThree, sleeperFour].reverse ∧
        (∃ q' found, schedule 2 q .priority true = some (q', found) ∧
          (found = none ↔ [sleeperThree, sleeperFour] = []) ∧
          (Lv2Protocol.priority = .fifo → found = [sleeperThree, sleeperFour].head?) ∧
          (Lv2Protocol.priority ≠ .fifo → ∀ x, found = some x →
            ∃ pre post, [sleeperThree, sleeperFour].reverse = pre ++ x :: post ∧
              (∀ u ∈ pre, (q.prio x).key < (q.prio u).key) ∧
              ∀ u ∈ post, (q.prio x).key ≤ (q.prio u).key) ∧
          ∀ x, found = some x → q'.Holds (if q.again x then [sleeperThree, sleeperFour].reverse
            else [sleeperThree, sleeperFour].reverse.erase x)) ∧
        ∃ q', unqueue 2 true q sleeperThree = some (q', if sleeperThree ∈ [sleeperThree, sleeperFour]
            then some sleeperThree else none) ∧
          q'.Holds ([sleeperThree, sleeperFour].reverse.erase sleeperThree) ∧
          (sleeperThree ∉ [sleeperThree, sleeperFour] → q' = q) :=
  ⟨by decide, by decide, sleep_queue_schedule_unqueue 0 (fun _ => idleNode 0)
    [sleeperThree, sleeperFour] (by decide) 2 (by decide) .priority true sleeperThree⟩

/-- The thread with id 5. -/
def sleeperFive : PpuId := ⟨5, PpuId.pos_five⟩

/-- Threads 3, 4 and 5 emplaced in turn, 4 and 5 at priority value `0` and 3 at `1`, and
scheduled by priority: the pick is 4, the older of the two at `0`. -/
theorem schedule_emplaced_oldest_tie :
    let nodes : PpuId → Node := fun t => idleNode (if t = sleeperThree then 1 else 0)
    let ts := [sleeperThree, sleeperFour, sleeperFive]
    ∃ q' : Queue, schedule 3 (emplaceAll 0 ⟨none, nodes⟩ ts).2 .priority true =
        some (q', some sleeperFour) ∧
      ∀ u ∈ ts, (nodes sleeperFour).prio.prio ≤ (nodes u).prio.prio ∧
        ((nodes u).prio.prio = (nodes sleeperFour).prio.prio → ts.idxOf sleeperFour ≤ ts.idxOf u) := by
  intro nodes ts
  obtain ⟨q', hq⟩ : ∃ q' : Queue, schedule 3 (emplaceAll 0 ⟨none, nodes⟩ ts).2 .priority true =
      some (q', some sleeperFour) := ⟨_, rfl⟩
  have hnd : ts.Nodup := by
    show [sleeperThree, sleeperFour, sleeperFive].Nodup
    decide
  exact ⟨q', hq, (schedule_emplaced_oldest hnd (fun _ _ => rfl) le_rfl (by decide) hq).2⟩

end Rpcs3.Lv2.SleepQueue
