import Mathlib
import Rpcs3.Lib.Transition
import Rpcs3.Lib.Chain

/-! `lf_queue<T>` (`Utilities/lockless.h`): producers push onto a singly linked list by a CAS
on its head, and one consumer takes the whole list with an exchange, reverses it in place for
`pop_all` (oldest first) or keeps it for `pop_all_reversed` (newest first), and walks the slice
it got, deleting each node.

The heap maps each node to its `m_link` and, while it is allocated, its `m_data`; `new` takes
any free node, and the slice's `pop_front` frees it again. A producer's `push` is its load of
the head with the allocation of its node, its CASes, and the `m_link` rewrite after each failed
one; the consumer's reversal and walk take one step per node. The order of the successful CASes
and the lists the pops returned are ghost state of the runs.

On every run the lists returned so far, each `pop_all_reversed` list turned back, are a prefix
of the pushed values in CAS order, and with the consumer idle they and the values still in the
queue, oldest first, are exactly the pushed values (`Inv`): no value is lost, duplicated or
reordered. `push` returns `true` exactly when its CAS found the queue empty
(`lf_queue_contract`). -/
namespace Rpcs3.Util.LfQueue

open Transition LinkedList

variable {τ T : Type*}

/-- Where a producer is in `push`: at its CAS with its node and the head it expects, rewriting
the node's link after a failed CAS, or returning whether the queue was empty. -/
inductive PPc where
  | idle
  | cas (item : ℕ) (oldv : Option ℕ)
  | relink (item : ℕ) (oldv : Option ℕ)
  | done (result : Bool)
  deriving DecidableEq

/-- The node a producer owns, not yet in the queue. -/
def PPc.item : PPc → Option ℕ
  | .cas item _ => some item
  | .relink item _ => some item
  | _ => none

/-- Where the consumer is: reversing the list taken by `pop_all`, with the reversed part from
`head` and the rest from `prev`, or walking a slice from `cur`, with the values it gave so far. -/
inductive CPc (T : Type*) where
  | idle
  | reversing (head : ℕ) (prev : Option ℕ)
  | draining (cur : Option ℕ) (reversed : Bool) (acc : List T)

/-- The call the consumer is in: none while idle, else whether it is `pop_all_reversed`. -/
def CPc.mode : CPc T → Option Bool
  | .idle => none
  | .reversing _ _ => some false
  | .draining _ reversed _ => some reversed

structure State (τ T : Type*) where
  head : Option ℕ
  link : ℕ → Option ℕ
  data : ℕ → Option T
  pc : τ → PPc
  cpc : CPc T
  /-- Ghost: the pushed values, in the order of the successful CASes. -/
  pushed : List (τ × T)
  /-- Ghost: the lists the pops returned, each with whether it came from `pop_all_reversed`. -/
  returned : List (Bool × List T)

inductive Label (τ T : Type*) where
  | start (p : τ) (v : T) (item : ℕ)
  | casOk (p : τ)
  | casFail (p : τ)
  | relink (p : τ)
  | finish (p : τ)
  | popAll
  | popAllReversed
  | reverseStep
  | reverseDone
  | drain
  | drainDone

def init : State τ T := ⟨none, fun _ => none, fun _ => none, fun _ => .idle, .idle, [], []⟩

/-! ### The invariant -/

/-- The returned lists in push order: a `pop_all_reversed` list turned back. -/
def linear (returned : List (Bool × List T)) : List T :=
  returned.flatMap fun r => if r.1 then r.2.reverse else r.2

@[simp] theorem linear_append (r r' : List (Bool × List T)) :
    linear (r ++ r') = linear r ++ linear r' := by
  simp [linear]

/-- The consumer's nodes `cs` and the values it holds `vs`, in push order: the list being
reversed, the reversed part after the rest turned back, or the slice being walked after the
values it already gave (turned back for `pop_all_reversed`). -/
def ConsumerOk (link : ℕ → Option ℕ) (data : ℕ → Option T) : CPc T → List ℕ → List T → Prop
  | .idle, cs, vs => cs = [] ∧ vs = []
  | .reversing head prev, cs, vs => ∃ r p, Chain link (some head) r ∧ Chain link prev p ∧
      cs = p.reverse ++ r ∧ vs = cs.filterMap data
  | .draining cur false acc, cs, vs => Chain link cur cs ∧ vs = acc ++ cs.filterMap data
  | .draining cur true acc, cs, vs =>
      Chain link cur cs ∧ vs = (cs.filterMap data).reverse ++ acc.reverse

/-- The queue from the head, newest first, and the consumer's nodes are distinct allocated
nodes apart from the producers' own; the returned values, the consumer's and the queue's,
oldest first, are the pushed values. -/
structure Layout (s : State τ T) (ns cs : List ℕ) (vs : List T) : Prop where
  queue : Chain s.link s.head ns
  consumer : ConsumerOk s.link s.data s.cpc cs vs
  nodup : (ns ++ cs).Nodup
  alloc : ∀ n ∈ ns ++ cs, (s.data n).isSome
  items : ∀ p n, (s.pc p).item = some n → n ∉ ns ++ cs
  values : linear s.returned ++ vs ++ ns.reverse.filterMap s.data = s.pushed.map Prod.snd

/-- The invariant, with the values `vs` the consumer holds: those its last exchange took and it
has not returned yet, oldest first. -/
structure Inv (s : State τ T) (vs : List T) : Prop where
  layout : ∃ ns cs, Layout s ns cs vs
  item_alloc : ∀ p n, (s.pc p).item = some n → (s.data n).isSome
  item_unique : ∀ p q n, (s.pc p).item = some n → (s.pc q).item = some n → p = q
  cas_link : ∀ p item oldv, s.pc p = .cas item oldv → s.link item = oldv

theorem filterMap_update_of_not_mem {data : ℕ → Option T} {l : List ℕ} {m : ℕ} (hm : m ∉ l)
    (v : Option T) : l.filterMap (Function.update data m v) = l.filterMap data :=
  List.filterMap_congr fun n hn => Function.update_of_ne (by rintro rfl; exact hm hn) _ _

/-- The consumer's chains read only the links and values of its own nodes. -/
theorem ConsumerOk.frame {link link' : ℕ → Option ℕ} {data data' : ℕ → Option T} {c : CPc T}
    {cs : List ℕ} {vs : List T} (h : ConsumerOk link data c cs vs)
    (hl : ∀ n ∈ cs, link' n = link n) (hd : ∀ n ∈ cs, data' n = data n) :
    ConsumerOk link' data' c cs vs := by
  have hf : cs.filterMap data' = cs.filterMap data := List.filterMap_congr hd
  match c, h with
  | .idle, h => exact h
  | .reversing head prev, ⟨r, p, hr, hp, hcs, hvs⟩ =>
    subst hcs
    refine ⟨r, p, hr.frame fun n hn => hl n (by simp [hn]),
      hp.frame fun n hn => hl n (by simp [hn]), rfl, ?_⟩
    rw [hvs, hf]
  | .draining cur false acc, ⟨hc, hvs⟩ => exact ⟨hc.frame hl, by rw [hvs, hf]⟩
  | .draining cur true acc, ⟨hc, hvs⟩ => exact ⟨hc.frame hl, by rw [hvs, hf]⟩

theorem inv_init : Inv (init : State τ T) [] := by
  refine ⟨⟨[], [], ?_⟩, ?_, ?_, ?_⟩
  · exact ⟨.nil, ⟨rfl, rfl⟩, List.nodup_nil, by simp, by simp [init, PPc.item], by simp [init, linear]⟩
  · simp [init, PPc.item]
  · simp [init, PPc.item]
  · simp [init]

/-- A step of the consumer keeps the producers' facts when it writes no producer's node. -/
theorem Inv.of_consumer {s t : State τ T} {vs vs' : List T} (hs : Inv s vs) (hpc : t.pc = s.pc)
    (hlay : ∃ ns cs, Layout t ns cs vs')
    (hnode : ∀ p n, (s.pc p).item = some n → t.link n = s.link n ∧ t.data n = s.data n) :
    Inv t vs' := by
  refine ⟨hlay, ?_, ?_, ?_⟩
  · intro p n hn
    rw [hpc] at hn
    rw [(hnode p n hn).2]
    exact hs.item_alloc p n hn
  · intro p q n hp hq
    rw [hpc] at hp hq
    exact hs.item_unique p q n hp hq
  · intro p item oldv hp
    rw [hpc] at hp
    rw [(hnode p item (by simp [hp, PPc.item])).1]
    exact hs.cas_link p item oldv hp

/-- A layout survives a step that keeps the head, the consumer, the ghost lists and the nodes
of the layout, and gives the producers only nodes outside it. -/
theorem Layout.frame {s t : State τ T} {ns cs : List ℕ} {vs : List T} (h : Layout s ns cs vs)
    (hhead : t.head = s.head) (hcpc : t.cpc = s.cpc) (hret : t.returned = s.returned)
    (hpush : t.pushed = s.pushed) (hl : ∀ n ∈ ns ++ cs, t.link n = s.link n)
    (hd : ∀ n ∈ ns ++ cs, t.data n = s.data n)
    (hitems : ∀ p n, (t.pc p).item = some n → n ∉ ns ++ cs) : Layout t ns cs vs := by
  refine ⟨?_, ?_, h.nodup, ?_, hitems, ?_⟩
  · rw [hhead]
    exact h.queue.frame fun n hn => hl n (List.mem_append_left _ hn)
  · rw [hcpc]
    exact h.consumer.frame (fun n hn => hl n (List.mem_append_right _ hn))
      (fun n hn => hd n (List.mem_append_right _ hn))
  · intro n hn
    rw [hd n hn]
    exact h.alloc n hn
  · rw [hret, hpush, ← h.values, List.filterMap_congr fun n hn =>
      hd n (List.mem_append_left _ (List.mem_reverse.1 hn))]

/-! ### Steps -/

/-- `pop_all` up to the loop of `reverse()`: the head is exchanged for null; a list of one node
is already reversed, a longer one has its first link cut. -/
def popAll (s : State τ T) : State τ T :=
  match s.head with
  | none => { s with cpc := .draining none false [] }
  | some h =>
    match s.link h with
    | none => { s with head := none, cpc := .draining (some h) false [] }
    | some prev =>
      { s with head := none, link := Function.update s.link h none,
               cpc := .reversing h (some prev) }

variable [DecidableEq τ] in
inductive Step : State τ T → Label τ T → State τ T → Prop
  /-- `oldv = m_head.load()`, and `new lf_queue_item(load(oldv), args)` on a free node. -/
  | start {s : State τ T} {p : τ} {v : T} {item : ℕ} (hp : s.pc p = .idle)
      (hfree : s.data item = none) :
      Step s (.start p v item)
        { s with link := Function.update s.link item s.head,
                 data := Function.update s.data item (some v),
                 pc := Function.update s.pc p (.cas item s.head) }
  /-- The CAS finds the expected head and publishes the node. -/
  | casOk {s : State τ T} {p : τ} {item : ℕ} {oldv : Option ℕ} {v : T}
      (hp : s.pc p = .cas item oldv) (hhead : s.head = oldv) (hv : s.data item = some v) :
      Step s (.casOk p)
        { s with head := some item, pc := Function.update s.pc p (.done oldv.isNone),
                 pushed := s.pushed ++ [(p, v)] }
  /-- The CAS fails and loads the head it found into `oldv`. -/
  | casFail {s : State τ T} {p : τ} {item : ℕ} {oldv : Option ℕ}
      (hp : s.pc p = .cas item oldv) (hhead : s.head ≠ oldv) :
      Step s (.casFail p) { s with pc := Function.update s.pc p (.relink item s.head) }
  /-- `item->m_link = load(oldv)` before the next CAS. -/
  | relink {s : State τ T} {p : τ} {item : ℕ} {oldv : Option ℕ}
      (hp : s.pc p = .relink item oldv) :
      Step s (.relink p)
        { s with link := Function.update s.link item oldv,
                 pc := Function.update s.pc p (.cas item oldv) }
  | finish {s : State τ T} {p : τ} {r : Bool} (hp : s.pc p = .done r) :
      Step s (.finish p) { s with pc := Function.update s.pc p .idle }
  | popAll {s : State τ T} (hc : s.cpc = .idle) : Step s .popAll (popAll s)
  /-- `pop_all_reversed`: the head is exchanged for null, and the list is walked as it is. -/
  | popAllReversed {s : State τ T} (hc : s.cpc = .idle) :
      Step s .popAllReversed { s with head := none, cpc := .draining s.head true [] }
  /-- One turn of the reversal loop: `pprev = prev->m_link; prev->m_link = head;
  head = prev; prev = pprev`. -/
  | reverseStep {s : State τ T} {head prev : ℕ} (hc : s.cpc = .reversing head (some prev)) :
      Step s .reverseStep
        { s with link := Function.update s.link prev (some head),
                 cpc := .reversing prev (s.link prev) }
  | reverseDone {s : State τ T} {head : ℕ} (hc : s.cpc = .reversing head none) :
      Step s .reverseDone { s with cpc := .draining (some head) false [] }
  /-- The slice gives the value of its head and `pop_front` deletes the node. -/
  | drain {s : State τ T} {n : ℕ} {reversed : Bool} {acc : List T} {v : T}
      (hc : s.cpc = .draining (some n) reversed acc) (hv : s.data n = some v) :
      Step s .drain
        { s with link := Function.update s.link n none, data := Function.update s.data n none,
                 cpc := .draining (s.link n) reversed (acc ++ [v]) }
  | drainDone {s : State τ T} {reversed : Bool} {acc : List T}
      (hc : s.cpc = .draining none reversed acc) :
      Step s .drainDone { s with cpc := .idle, returned := s.returned ++ [(reversed, acc)] }

/-! ### Producer steps -/

section Producer

variable [DecidableEq τ]

theorem pc_update_item (pc : τ → PPc) (p q : τ) (c : PPc) :
    (Function.update pc p c q).item = if q = p then c.item else (pc q).item := by
  rw [Function.update_apply]
  split_ifs <;> rfl

/-- A producer step that publishes nothing: it writes at most the node the producer then owns,
a free one or the one it owned, and leaves the other producers alone. -/
theorem Inv.of_producer {s t : State τ T} {vs : List T} (hs : Inv s vs) {p : τ}
    (hhead : t.head = s.head) (hcpc : t.cpc = s.cpc) (hret : t.returned = s.returned)
    (hpush : t.pushed = s.pushed) (hpc : ∀ q, q ≠ p → t.pc q = s.pc q)
    (hnew : ∀ n, (t.pc p).item = some n → s.data n = none ∨ (s.pc p).item = some n)
    (hwrite : ∀ n, (t.pc p).item ≠ some n → t.link n = s.link n ∧ t.data n = s.data n)
    (halloc : ∀ n, (t.pc p).item = some n → (t.data n).isSome)
    (hcas : ∀ item oldv, t.pc p = .cas item oldv → t.link item = oldv) : Inv t vs := by
  obtain ⟨ns, cs, hl⟩ := hs.layout
  -- the node `p` owns after the step is outside the layout and owned by no other producer
  have hout : ∀ n, (t.pc p).item = some n → n ∉ ns ++ cs := by
    intro n hn hmem
    rcases hnew n hn with hfree | hold
    · have := hl.alloc n hmem
      simp [hfree] at this
    · exact hl.items p n hold hmem
  have hother : ∀ q n, q ≠ p → (s.pc q).item = some n → (t.pc p).item ≠ some n := by
    intro q n hqp hq hn
    rcases hnew n hn with hfree | hold
    · have := hs.item_alloc q n hq
      simp [hfree] at this
    · exact hqp (hs.item_unique q p n hq hold)
  have hlayout : ∀ n ∈ ns ++ cs, (t.pc p).item ≠ some n := fun n hmem hn => hout n hn hmem
  refine ⟨⟨ns, cs, hl.frame hhead hcpc hret hpush (fun n hn => (hwrite n
    (hlayout n hn)).1) (fun n hn => (hwrite n (hlayout n hn)).2) ?_⟩, ?_, ?_, ?_⟩
  · intro q n hq
    by_cases hqp : q = p
    · subst hqp
      exact hout n hq
    · rw [hpc q hqp] at hq
      exact hl.items q n hq
  · intro q n hq
    by_cases hqp : q = p
    · subst hqp
      exact halloc n hq
    · rw [hpc q hqp] at hq
      rw [(hwrite n (hother q n hqp hq)).2]
      exact hs.item_alloc q n hq
  · intro q q' n hq hq'
    by_cases hqp : q = p <;> by_cases hqp' : q' = p
    · rw [hqp, hqp']
    · rw [hpc q' hqp'] at hq'
      exact absurd (hqp ▸ hq) (hother q' n hqp' hq')
    · rw [hpc q hqp] at hq
      exact absurd (hqp' ▸ hq') (hother q n hqp hq)
    · rw [hpc q hqp] at hq
      rw [hpc q' hqp'] at hq'
      exact hs.item_unique q q' n hq hq'
  · intro q item oldv hq
    by_cases hqp : q = p
    · subst hqp
      exact hcas item oldv hq
    · rw [hpc q hqp] at hq
      rw [(hwrite item (hother q item hqp (by simp [hq, PPc.item]))).1]
      exact hs.cas_link q item oldv hq

theorem inv_start {s : State τ T} {vs : List T} (hs : Inv s vs) {p : τ} {v : T} {item : ℕ}
    (hfree : s.data item = none) :
    Inv { s with link := Function.update s.link item s.head,
                 data := Function.update s.data item (some v),
                 pc := Function.update s.pc p (.cas item s.head) } vs := by
  refine hs.of_producer (p := p) rfl rfl rfl rfl (fun q hq => Function.update_of_ne hq _ _)
    ?_ ?_ ?_ ?_
  · intro n hn
    simp only [Function.update_self, PPc.item, Option.some.injEq] at hn
    subst hn
    exact .inl hfree
  · intro n hn
    simp only [Function.update_self, PPc.item, ne_eq, Option.some.injEq] at hn
    exact ⟨Function.update_of_ne (Ne.symm hn) _ _, Function.update_of_ne (Ne.symm hn) _ _⟩
  · intro n hn
    simp only [Function.update_self, PPc.item, Option.some.injEq] at hn
    subst hn
    simp
  · intro item' oldv h
    simp only [Function.update_self, PPc.cas.injEq] at h
    obtain ⟨rfl, rfl⟩ := h
    simp

theorem inv_casFail {s : State τ T} {vs : List T} (hs : Inv s vs) {p : τ} {item : ℕ} {oldv : Option ℕ}
    (hp : s.pc p = .cas item oldv) :
    Inv { s with pc := Function.update s.pc p (.relink item s.head) } vs := by
  refine hs.of_producer (p := p) rfl rfl rfl rfl (fun q hq => Function.update_of_ne hq _ _)
    ?_ (fun _ _ => ⟨rfl, rfl⟩) ?_ ?_
  · intro n hn
    simp only [Function.update_self, PPc.item] at hn
    exact .inr (by simpa [hp, PPc.item] using hn)
  · intro n hn
    simp only [Function.update_self, PPc.item, Option.some.injEq] at hn
    subst hn
    exact hs.item_alloc p _ (by simp [hp, PPc.item])
  · intro item' oldv' h
    simp at h

theorem inv_relink {s : State τ T} {vs : List T} (hs : Inv s vs) {p : τ} {item : ℕ} {oldv : Option ℕ}
    (hp : s.pc p = .relink item oldv) :
    Inv { s with link := Function.update s.link item oldv,
                 pc := Function.update s.pc p (.cas item oldv) } vs := by
  refine hs.of_producer (p := p) rfl rfl rfl rfl (fun q hq => Function.update_of_ne hq _ _)
    ?_ ?_ ?_ ?_
  · intro n hn
    simp only [Function.update_self, PPc.item] at hn
    exact .inr (by simpa [hp, PPc.item] using hn)
  · intro n hn
    simp only [Function.update_self, PPc.item, ne_eq, Option.some.injEq] at hn
    exact ⟨Function.update_of_ne (Ne.symm hn) _ _, rfl⟩
  · intro n hn
    simp only [Function.update_self, PPc.item, Option.some.injEq] at hn
    subst hn
    exact hs.item_alloc p _ (by simp [hp, PPc.item])
  · intro item' oldv' h
    simp only [Function.update_self, PPc.cas.injEq] at h
    obtain ⟨rfl, rfl⟩ := h
    simp

theorem inv_finish {s : State τ T} {vs : List T} (hs : Inv s vs) {p : τ} :
    Inv { s with pc := Function.update s.pc p .idle } vs := by
  refine hs.of_producer (p := p) rfl rfl rfl rfl (fun q hq => Function.update_of_ne hq _ _)
    ?_ (fun _ _ => ⟨rfl, rfl⟩) ?_ ?_ <;> simp [PPc.item]

/-- A successful CAS puts the producer's node, linked to the head it found, at the head of the
queue, and its value after all pushed values. -/
theorem inv_casOk {s : State τ T} {vs : List T} (hs : Inv s vs) {p : τ} {item : ℕ} {oldv : Option ℕ} {v : T}
    (hp : s.pc p = .cas item oldv) (hhead : s.head = oldv) (hv : s.data item = some v) :
    Inv { s with head := some item, pc := Function.update s.pc p (.done oldv.isNone),
                 pushed := s.pushed ++ [(p, v)] } vs := by
  obtain ⟨ns, cs, hl⟩ := hs.layout
  have hitem : (s.pc p).item = some item := by simp [hp, PPc.item]
  have hout := hl.items p item hitem
  have hdone : ∀ q n, (Function.update s.pc p (.done oldv.isNone) q).item = some n →
      q ≠ p ∧ (s.pc q).item = some n := by
    intro q n hq
    rw [pc_update_item] at hq
    split_ifs at hq with hqp
    · simp [PPc.item] at hq
    · exact ⟨hqp, hq⟩
  refine ⟨⟨item :: ns, cs, ⟨?_, hl.consumer, ?_, ?_, ?_, ?_⟩⟩, ?_, ?_, ?_⟩
  · exact hl.queue.push ((hs.cas_link p item oldv hp).trans hhead.symm)
  · exact List.nodup_cons.2 ⟨hout, hl.nodup⟩
  · intro n hn
    rcases List.mem_cons.1 hn with rfl | hn
    · simp [hv]
    · exact hl.alloc n hn
  · intro q n hq hn
    obtain ⟨hqp, hq'⟩ := hdone q n hq
    rcases List.mem_cons.1 hn with rfl | hn
    · exact hqp (hs.item_unique q p n hq' hitem)
    · exact hl.items q n hq' hn
  · dsimp only
    rw [List.reverse_cons, List.filterMap_append, List.map_append, ← hl.values]
    simp [hv]
  · intro q n hq
    exact hs.item_alloc q n (hdone q n hq).2
  · intro q q' n hq hq'
    exact hs.item_unique q q' n (hdone q n hq).2 (hdone q' n hq').2
  · intro q item' oldv' hq
    dsimp only at hq
    have hqp : q ≠ p := by
      rintro rfl
      simp at hq
    rw [Function.update_of_ne hqp] at hq
    exact hs.cas_link q item' oldv' hq

end Producer

/-! ### Consumer steps -/

/-- The facts of a layout that depend only on which nodes it holds move to another
arrangement of the same nodes. -/
theorem Layout.perm {s : State τ T} {ns cs ns' cs' : List ℕ} {vs : List T}
    (hl : Layout s ns cs vs) (hperm : (ns' ++ cs').Perm (ns ++ cs)) :
    (ns' ++ cs').Nodup ∧ (∀ n ∈ ns' ++ cs', (s.data n).isSome) ∧
      ∀ p n, (s.pc p).item = some n → n ∉ ns' ++ cs' :=
  ⟨hperm.nodup_iff.2 hl.nodup, fun n hn => hl.alloc n (hperm.mem_iff.1 hn),
    fun p n hp hn => hl.items p n hp (hperm.mem_iff.1 hn)⟩

theorem Layout.idle {s : State τ T} {ns cs : List ℕ} {vs : List T} (hl : Layout s ns cs vs)
    (hc : s.cpc = .idle) : cs = [] ∧ vs = [] := by
  have h := hl.consumer
  rw [hc] at h
  exact h

/-- A node of the consumer is in no producer's hands and not in the queue. -/
theorem Layout.item_ne {s : State τ T} {ns cs : List ℕ} {vs : List T} (hl : Layout s ns cs vs)
    {p : τ} {n m : ℕ} (hp : (s.pc p).item = some n) (hm : m ∈ ns ++ cs) : n ≠ m := by
  rintro rfl
  exact hl.items p n hp hm

theorem Layout.not_mem_queue {s : State τ T} {ns cs : List ℕ} {vs : List T}
    (hl : Layout s ns cs vs) {m : ℕ} (hm : m ∈ cs) : m ∉ ns :=
  fun hn => List.disjoint_of_nodup_append hl.nodup hn hm

/-- `pop_all` takes the whole queue: the consumer then holds its values, oldest first. -/
theorem inv_popAll {s : State τ T} {vs : List T} (hs : Inv s vs) (hc : s.cpc = .idle) :
    ∃ ns, Chain s.link s.head ns ∧ Inv (popAll s) (ns.reverse.filterMap s.data) := by
  obtain ⟨ns, cs, hl⟩ := hs.layout
  obtain ⟨rfl, rfl⟩ := hl.idle hc
  have hq := hl.queue
  have hvals := hl.values
  refine ⟨ns, hq, ?_⟩
  rcases hh : s.head with _ | h
  · -- an empty queue: an empty slice
    rw [hh, chain_none_iff] at hq
    subst hq
    simp only [popAll, hh]
    exact hs.of_consumer rfl ⟨[], [], ⟨.nil, ⟨.nil, rfl⟩, List.nodup_nil, by simp,
      by simp, by simpa using hvals⟩⟩ fun _ _ _ => ⟨rfl, rfl⟩
  · rw [hh, chain_some_iff] at hq
    obtain ⟨ns', rfl, hq'⟩ := hq
    rcases hlink : s.link h with _ | prev
    · -- one node: the slice is that node
      rw [hlink, chain_none_iff] at hq'
      subst hq'
      simp only [popAll, hh, hlink]
      have hf := hl.perm (show ([] ++ [h]).Perm ([h] ++ []) by simp)
      exact hs.of_consumer rfl ⟨[], [h],
        ⟨.nil, ⟨.cons (by rw [hlink]; exact .nil), by simp⟩, hf.1, hf.2.1, hf.2.2,
          by simpa using hvals⟩⟩ fun _ _ _ => ⟨rfl, rfl⟩
    · -- a longer list: its first node, cut from the rest, is the reversed part
      rw [hlink] at hq'
      simp only [popAll, hh, hlink]
      have hnd := hl.nodup
      simp only [List.append_nil, List.nodup_cons] at hnd
      have hperm : ([] ++ (ns'.reverse ++ [h])).Perm ((h :: ns') ++ []) := by
        simpa using (List.perm_append_singleton h ns'.reverse).trans
          ((List.reverse_perm ns').cons h)
      have hf := hl.perm hperm
      refine hs.of_consumer rfl ⟨[], ns'.reverse ++ [h],
        ⟨.nil, ⟨[h], ns', .cons (by dsimp only; rw [Function.update_self]; exact .nil),
          hq'.update hnd.1 none, rfl, by simp⟩, hf.1, hf.2.1, hf.2.2, by simpa using hvals⟩⟩ ?_
      intro p n hp
      exact ⟨Function.update_of_ne (hl.item_ne hp (by simp)) _ _, rfl⟩

/-- `pop_all_reversed` takes the whole queue too; the consumer holds the same values. -/
theorem inv_popAllReversed {s : State τ T} {vs : List T} (hs : Inv s vs) (hc : s.cpc = .idle) :
    ∃ ns, Chain s.link s.head ns ∧
      Inv { s with head := none, cpc := .draining s.head true [] } (ns.reverse.filterMap s.data) := by
  obtain ⟨ns, cs, hl⟩ := hs.layout
  obtain ⟨rfl, rfl⟩ := hl.idle hc
  have hf := hl.perm (show ([] ++ ns).Perm (ns ++ []) by simp)
  refine ⟨ns, hl.queue, hs.of_consumer rfl ⟨[], ns,
    ⟨.nil, ⟨hl.queue, by simp [List.filterMap_reverse]⟩, hf.1, hf.2.1, hf.2.2, ?_⟩⟩
    fun _ _ _ => ⟨rfl, rfl⟩⟩
  rw [← hl.values]
  simp

/-- A turn of the reversal loop moves the next node from the rest to the reversed part: the
consumer's nodes, read back from the rest, stay the same list. -/
theorem inv_reverseStep {s : State τ T} {vs : List T} (hs : Inv s vs) {head prev : ℕ}
    (hc : s.cpc = .reversing head (some prev)) :
    Inv { s with link := Function.update s.link prev (some head),
                 cpc := .reversing prev (s.link prev) } vs := by
  obtain ⟨ns, cs, hl⟩ := hs.layout
  have hcons := hl.consumer
  rw [hc] at hcons
  obtain ⟨r, p, hr, hp, hcs, hvs⟩ := hcons
  rw [chain_some_iff] at hp
  obtain ⟨p', rfl, hp'⟩ := hp
  have hmem : prev ∈ cs := by simp [hcs]
  -- `prev` is neither in the reversed part nor further in the rest
  have hprev : prev ∉ p'.reverse ++ r := by
    have hnd : (p'.reverse ++ prev :: r).Nodup := by
      simpa [hcs] using (List.nodup_append.1 hl.nodup).2.1
    exact (List.nodup_cons.1 (List.nodup_middle.1 hnd)).1
  have hpr : prev ∉ p' ∧ prev ∉ r := by simpa using hprev
  refine hs.of_consumer rfl ⟨ns, cs, ⟨hl.queue.update (hl.not_mem_queue hmem) _, ?_,
    hl.nodup, hl.alloc, hl.items, hl.values⟩⟩ ?_
  · refine ⟨prev :: r, p', .cons ?_, hp'.update hpr.1 _, by simp [hcs], hvs⟩
    dsimp only
    rw [Function.update_self]
    exact hr.update hpr.2 _
  · intro q n hq
    exact ⟨Function.update_of_ne (hl.item_ne hq (List.mem_append_right _ hmem)) _ _, rfl⟩

theorem inv_reverseDone {s : State τ T} {vs : List T} (hs : Inv s vs) {head : ℕ}
    (hc : s.cpc = .reversing head none) :
    Inv { s with cpc := .draining (some head) false [] } vs := by
  obtain ⟨ns, cs, hl⟩ := hs.layout
  have hcons := hl.consumer
  rw [hc] at hcons
  obtain ⟨r, p, hr, hp, rfl, rfl⟩ := hcons
  rw [chain_none_iff] at hp
  subst hp
  exact hs.of_consumer rfl ⟨ns, [].reverse ++ r,
    ⟨hl.queue, ⟨by simpa using hr, by simp⟩, hl.nodup, hl.alloc, hl.items, hl.values⟩⟩
    fun _ _ _ => ⟨rfl, rfl⟩

/-- The head of a slice gives its value, and the rest of the slice still accounts for the
values the consumer holds, in either order. -/
theorem ConsumerOk.draining_cons {link : ℕ → Option ℕ} {data : ℕ → Option T} {n : ℕ}
    {reversed : Bool} {acc : List T} {cs : List ℕ} {vs : List T} {v : T}
    (h : ConsumerOk link data (.draining (some n) reversed acc) cs vs) (hv : data n = some v) :
    ∃ cs', cs = n :: cs' ∧ ConsumerOk link data (.draining (link n) reversed (acc ++ [v])) cs' vs := by
  -- the two orders differ only in where the head's value goes
  cases reversed <;>
  · obtain ⟨hc, rfl⟩ := h
    obtain ⟨cs', rfl, hc'⟩ := chain_some_iff.1 hc
    exact ⟨cs', rfl, hc', by simp [hv]⟩

/-- An empty slice leaves the consumer with the values it gave, in the order given. -/
theorem ConsumerOk.draining_none {link : ℕ → Option ℕ} {data : ℕ → Option T}
    {reversed : Bool} {acc : List T} {cs : List ℕ} {vs : List T}
    (h : ConsumerOk link data (.draining none reversed acc) cs vs) :
    cs = [] ∧ vs = if reversed then acc.reverse else acc := by
  cases reversed <;>
  · obtain ⟨hc, rfl⟩ := h
    obtain rfl := chain_none_iff.1 hc
    simp

/-- `pop_front` frees the head of the slice; the slice goes on from its link. -/
theorem inv_drain {s : State τ T} {vs : List T} (hs : Inv s vs) {n : ℕ} {reversed : Bool}
    {acc : List T} {v : T} (hc : s.cpc = .draining (some n) reversed acc) (hv : s.data n = some v) :
    Inv { s with link := Function.update s.link n none, data := Function.update s.data n none,
                 cpc := .draining (s.link n) reversed (acc ++ [v]) } vs := by
  obtain ⟨ns, cs, hl⟩ := hs.layout
  have hcons := hl.consumer
  rw [hc] at hcons
  obtain ⟨cs', rfl, hok⟩ := hcons.draining_cons hv
  have hn : n ∉ ns ++ cs' := (List.nodup_cons.1 (List.nodup_middle.1 hl.nodup)).1
  have hsub : ∀ m ∈ ns ++ cs', m ∈ ns ++ n :: cs' := by
    intro m hm
    simp only [List.mem_append, List.mem_cons] at hm ⊢
    tauto
  have hne : ∀ m ∈ ns ++ cs', m ≠ n := fun m hm hmn => hn (hmn ▸ hm)
  refine hs.of_consumer rfl ⟨ns, cs', ⟨?_, ?_, ?_, ?_, ?_, ?_⟩⟩ ?_
  · exact hl.queue.update (fun h => hn (List.mem_append_left _ h)) _
  · exact hok.frame (fun m hm => Function.update_of_ne (hne m (List.mem_append_right _ hm)) _ _)
      (fun m hm => Function.update_of_ne (hne m (List.mem_append_right _ hm)) _ _)
  · exact (List.nodup_cons.1 (List.nodup_middle.1 hl.nodup)).2
  · intro m hm
    dsimp only
    rw [Function.update_of_ne (hne m hm)]
    exact hl.alloc m (hsub m hm)
  · exact fun p m hp hm => hl.items p m hp (hsub m hm)
  · dsimp only
    rw [filterMap_update_of_not_mem (by simpa using fun h => hn (List.mem_append_left _ h))]
    exact hl.values
  · intro p m hp
    have hmn := hl.item_ne hp (List.mem_append_right ns List.mem_cons_self)
    exact ⟨Function.update_of_ne hmn _ _, Function.update_of_ne hmn _ _⟩

/-- At the end of its slice the consumer has given every value it held, in the order of its
call. -/
theorem Inv.held_drained {s : State τ T} {vs : List T} (hs : Inv s vs) {reversed : Bool}
    {acc : List T} (hc : s.cpc = .draining none reversed acc) :
    vs = if reversed then acc.reverse else acc := by
  obtain ⟨ns, cs, hl⟩ := hs.layout
  have hcons := hl.consumer
  rw [hc] at hcons
  exact hcons.draining_none.2

/-- The slice is used up: its values, in the order given, join the returned lists. -/
theorem inv_drainDone {s : State τ T} {vs : List T} (hs : Inv s vs) {reversed : Bool}
    {acc : List T} (hc : s.cpc = .draining none reversed acc) :
    Inv { s with cpc := .idle, returned := s.returned ++ [(reversed, acc)] } [] := by
  obtain ⟨ns, cs, hl⟩ := hs.layout
  have hcons := hl.consumer
  rw [hc] at hcons
  obtain ⟨rfl, rfl⟩ := hcons.draining_none
  refine hs.of_consumer rfl ⟨ns, [], ⟨hl.queue, ⟨rfl, rfl⟩, hl.nodup, hl.alloc, hl.items,
    ?_⟩⟩ fun _ _ _ => ⟨rfl, rfl⟩
  rw [← hl.values]
  simp [linear]

/-! ### Runs -/

variable [DecidableEq τ]

theorem inv_step {s t : State τ T} {a : Label τ T} {vs : List T} (hs : Inv s vs)
    (hst : Step s a t) : ∃ vs', Inv t vs' := by
  cases hst with
  | start _ hfree => exact ⟨vs, inv_start hs hfree⟩
  | casOk hp hhead hv => exact ⟨vs, inv_casOk hs hp hhead hv⟩
  | casFail hp _ => exact ⟨vs, inv_casFail hs hp⟩
  | relink hp => exact ⟨vs, inv_relink hs hp⟩
  | finish _ => exact ⟨vs, inv_finish hs⟩
  | popAll hc =>
    obtain ⟨ns, -, h⟩ := inv_popAll hs hc
    exact ⟨_, h⟩
  | popAllReversed hc =>
    obtain ⟨ns, -, h⟩ := inv_popAllReversed hs hc
    exact ⟨_, h⟩
  | reverseStep hc => exact ⟨vs, inv_reverseStep hs hc⟩
  | reverseDone hc => exact ⟨vs, inv_reverseDone hs hc⟩
  | drain hc hv => exact ⟨vs, inv_drain hs hc hv⟩
  | drainDone hc => exact ⟨[], inv_drainDone hs hc⟩

theorem Inv.of_reachable {s : State τ T} (h : Reachable (· = init) Step s) : ∃ vs, Inv s vs := by
  have hp : Preserved Step fun s : State τ T => ∃ vs, Inv s vs :=
    fun _ _ _ ⟨_, hs⟩ hst => inv_step hs hst
  exact h.invariant (fun _ h => h ▸ ⟨[], inv_init⟩) hp

/-- While the consumer is inside a pop, every step but the one that ends it keeps the values it
holds, the call it is in and the lists returned: the producers never reach its slice. -/
theorem inv_keep {s t : State τ T} {a : Label τ T} {vs : List T} {b : Bool} (hs : Inv s vs)
    (hm : s.cpc.mode = some b) (hst : Step s a t) (ha : a ≠ .drainDone) :
    Inv t vs ∧ t.cpc.mode = some b ∧ t.returned = s.returned := by
  cases hst with
  | start _ hfree => exact ⟨inv_start hs hfree, hm, rfl⟩
  | casOk hp hhead hv => exact ⟨inv_casOk hs hp hhead hv, hm, rfl⟩
  | casFail hp _ => exact ⟨inv_casFail hs hp, hm, rfl⟩
  | relink hp => exact ⟨inv_relink hs hp, hm, rfl⟩
  | finish _ => exact ⟨inv_finish hs, hm, rfl⟩
  | popAll hc => simp [hc, CPc.mode] at hm
  | popAllReversed hc => simp [hc, CPc.mode] at hm
  | reverseStep hc =>
    rw [hc] at hm
    exact ⟨inv_reverseStep hs hc, hm, rfl⟩
  | reverseDone hc =>
    rw [hc] at hm
    exact ⟨inv_reverseDone hs hc, hm, rfl⟩
  | drain hc hv =>
    rw [hc] at hm
    exact ⟨inv_drain hs hc hv, hm, rfl⟩
  | drainDone _ => exact absurd rfl ha

/-- The step that ends a pop returns the values the consumer held, turned back for
`pop_all_reversed`. -/
theorem returned_drainDone {s t : State τ T} {vs : List T} {b : Bool} (hs : Inv s vs)
    (hm : s.cpc.mode = some b) (hst : Step s .drainDone t) :
    t.returned = s.returned ++ [(b, if b then vs.reverse else vs)] := by
  cases hst with
  | drainDone hc =>
    rw [hc] at hm
    cases hm
    rw [hs.held_drained hc]
    split <;> simp

/-- A pop returns, at the first step that ends it, the values its exchange took, whatever the
producers do in between. -/
theorem returned_of_run {t u : State τ T} {as : List (Label τ T)} {vs : List T} {b : Bool}
    (ht : Inv t vs) (hm : t.cpc.mode = some b) (hr : Run Step t (as ++ [.drainDone]) u)
    (hd : .drainDone ∉ as) :
    u.returned = t.returned ++ [(b, if b then vs.reverse else vs)] := by
  obtain ⟨w, hw, hlast⟩ := hr.split
  -- the steps before it keep the slice: `inv_keep` along the run
  have hstep : ∀ w₁ (a : Label τ T) w₂, a ≠ .drainDone →
      (Inv w₁ vs ∧ w₁.cpc.mode = some b ∧ w₁.returned = t.returned) → Step w₁ a w₂ →
      Inv w₂ vs ∧ w₂.cpc.mode = some b ∧ w₂.returned = t.returned := by
    rintro w₁ a w₂ ha ⟨hi, hmi, hri⟩ hst
    obtain ⟨hi', hmi', hri'⟩ := inv_keep hi hmi hst ha
    exact ⟨hi', hmi', hri'.trans hri⟩
  obtain ⟨hw', hmw, hrw⟩ := hw.preserves hstep (fun a ha had => hd (had ▸ ha)) ⟨ht, hm, rfl⟩
  rw [returned_drainDone hw' hmw hlast.of_single, hrw]

omit [DecidableEq τ] in
theorem popAll_mode (s : State τ T) : (popAll s).cpc.mode = some false := by
  unfold popAll
  split
  · rfl
  · split <;> rfl

omit [DecidableEq τ] in
theorem popAll_returned (s : State τ T) : (popAll s).returned = s.returned := by
  unfold popAll
  split
  · rfl
  · split <;> rfl

/-- On every run: the lists returned, each `pop_all_reversed` list turned back, are a prefix of
the pushed values in CAS order, and with the consumer idle the rest are the values in the queue,
oldest first; a `pop_all` returns, once it has walked its slice, exactly the values in the queue
at its exchange, oldest first, and a `pop_all_reversed` the same values newest first; and `push`
returns `true` exactly when its CAS found the queue empty. -/
theorem lf_queue_contract {s : State τ T} (hs : Reachable (· = init) Step s) :
    linear s.returned <+: s.pushed.map Prod.snd ∧
    (s.cpc = .idle → ∃ ns, Chain s.link s.head ns ∧
      linear s.returned ++ ns.reverse.filterMap s.data = s.pushed.map Prod.snd) ∧
    (∀ t as u, Step s .popAll t → Run Step t (as ++ [.drainDone]) u → .drainDone ∉ as →
      ∃ ns, Chain s.link s.head ns ∧
        u.returned = s.returned ++ [(false, ns.reverse.filterMap s.data)]) ∧
    (∀ t as u, Step s .popAllReversed t → Run Step t (as ++ [.drainDone]) u → .drainDone ∉ as →
      ∃ ns, Chain s.link s.head ns ∧ u.returned = s.returned ++ [(true, ns.filterMap s.data)]) ∧
    ∀ p t, Step s (.casOk p) t → (t.pc p = .done true ↔ s.head = none) := by
  obtain ⟨vs, hinv⟩ := Inv.of_reachable hs
  obtain ⟨ns, cs, hl⟩ := hinv.layout
  refine ⟨⟨_, List.append_assoc _ _ _ ▸ hl.values⟩, ?_, ?_, ?_, ?_⟩
  · intro hc
    obtain ⟨rfl, rfl⟩ := hl.idle hc
    exact ⟨ns, hl.queue, by simpa using hl.values⟩
  · intro t as u hst hr hd
    cases hst with
    | popAll hc =>
      obtain ⟨ns, hq, ht⟩ := inv_popAll hinv hc
      refine ⟨ns, hq, ?_⟩
      rw [returned_of_run ht (popAll_mode s) hr hd, popAll_returned]
      rfl
  · intro t as u hst hr hd
    cases hst with
    | popAllReversed hc =>
      obtain ⟨ns, hq, ht⟩ := inv_popAllReversed hinv hc
      refine ⟨ns, hq, ?_⟩
      rw [returned_of_run ht rfl hr hd]
      simp [List.filterMap_reverse]
  · intro p t hst
    cases hst with
    | casOk _ hhead _ => simp [hhead]

/-- Two producers push 10 and 20; the second CAS fails against the first node, relinks and
succeeds. `pop_all` then exchanges the head, reverses the two nodes and walks them: by the
contract it returns the queue at its exchange, oldest first, `[10, 20]`. -/
theorem lf_queue_contract_pop_all :
    ∃ s u : State ℕ ℕ, Reachable (· = init) Step s ∧ s.pushed = [(1, 10), (2, 20)] ∧
      Run Step s [.popAll, .reverseStep, .reverseDone, .drain, .drain, .drainDone] u ∧
      u.returned = [(false, [10, 20])] := by
  have h₀ : Reachable (· = init) Step (init : State ℕ ℕ) := Reachable.of_init rfl
  have h₁ := h₀.next (@Step.start ℕ ℕ _ _ 1 10 0 rfl rfl)
  have h₂ := h₁.next (@Step.start ℕ ℕ _ _ 2 20 1 rfl rfl)
  have h₃ := h₂.next (Step.casOk (p := 1) rfl rfl rfl)
  -- the second CAS finds the first node at the head: reload it and link to it
  have h₄ := h₃.next (Step.casFail (p := 2) rfl (by decide))
  have h₅ := h₄.next (Step.relink (p := 2) rfl)
  have h₆ := h₅.next (Step.casOk (p := 2) rfl rfl rfl)
  obtain ⟨s, u, hs, hpushed, hret, hq, hd, hpop, hrest⟩ : ∃ s u : State ℕ ℕ,
      Reachable (· = init) Step s ∧ s.pushed = [(1, 10), (2, 20)] ∧ s.returned = [] ∧
      Chain s.link s.head [1, 0] ∧ [0, 1].filterMap s.data = [10, 20] ∧
      Step s .popAll (popAll s) ∧
      Run Step (popAll s) ([.reverseStep, .reverseDone, .drain, .drain] ++ [.drainDone]) u :=
    ⟨_, _, h₆, rfl, rfl, .cons (.cons .nil), rfl, Step.popAll rfl,
      .cons (Step.reverseStep rfl) (.cons (Step.reverseDone rfl) (.cons (Step.drain rfl rfl)
        (.cons (Step.drain rfl rfl) (.cons (Step.drainDone rfl) (.refl _)))))⟩
  obtain ⟨ns, hns, hu⟩ := (lf_queue_contract hs).2.2.1 _ _ _ hpop hrest (by simp)
  obtain rfl := hns.unique hq
  exact ⟨s, u, hs, hpushed, .cons hpop hrest, by
    rw [hu, hret, show ([1, 0] : List ℕ).reverse = [0, 1] from rfl, hd]
    rfl⟩

end Rpcs3.Util.LfQueue
