import Mathlib
import Rpcs3.Lib.SortedMap

/-! The receiving side of a STREAM-P2P socket (`Emu/Cell/lv2/sys_net/lv2_socket_p2ps.cpp`):
`lv2_socket_p2ps::handle_connected` files each data segment in `received_data` under its
sequence number and answers with `send_ack`, which sets `data_available` from the entries
chained from `data_beg_seq`; `recvfrom` copies `data_available` bytes at most from the entries
in key order, starting at `begin()`.

`received_data` is a `std::map`, here a list sorted by key (`SortedMap`). Sequence numbers are
`u64` in the source: natural numbers here, with every sum and difference the source computes on
them taken modulo `2^64` (`wrap64`). The results about whole streams assume the stream ends
below `2^64`, where no sum wraps. What `handle_connected` returns only goes to a log line of its
caller and is left out, as are the sender's side (the acknowledgements it confirms) and the
wake-up of pollers. -/
namespace Rpcs3.Lv2.P2ps

open SortedMap

/-- `p2ps_tcp_flags`. -/
def P2psTcpFlags.fin : UInt8 := 1
def P2psTcpFlags.syn : UInt8 := 2
def P2psTcpFlags.rst : UInt8 := 4
def P2psTcpFlags.psh : UInt8 := 8
def P2psTcpFlags.ack : UInt8 := 16

/-- `p2ps_stream_status`. -/
inductive P2psStreamStatus
  | streamClosed | streamListening | streamHandshaking | streamConnected
  deriving DecidableEq

/-- The fields of `lv2_socket_p2ps` that receiving reads and writes. -/
structure Sock (α : Type) where
  status : P2psStreamStatus
  dataBegSeq : ℕ
  dataAvailable : ℕ
  /-- `received_data`, in key order -/
  receivedData : List (ℕ × List α)
  soNbio : Bool

variable {α : Type}

/-- A `u64` result: the natural number modulo `2^64`. -/
def wrap64 (n : ℕ) : ℕ := n % 2 ^ 64

theorem wrap64_of_lt {n : ℕ} (h : n < 2 ^ 64) : wrap64 n = n := Nat.mod_eq_of_lt h

theorem wrap64_lt (n : ℕ) : wrap64 n < 2 ^ 64 := Nat.mod_lt _ (by norm_num)

@[simp] theorem wrap64_wrap64 (n : ℕ) : wrap64 (wrap64 n) = wrap64 n := Nat.mod_mod _ _

/-- The `while` loop of `send_ack`, for `fuel` rounds at most; `none` where it has not ended. -/
def ackLoop (m : List (ℕ × List α)) : ℕ → ℕ → Option ℕ
  | 0, _ => none
  | fuel + 1, finalAck =>
    match m.lookup finalAck with
    | none => some finalAck
    | some v => ackLoop m fuel (wrap64 (finalAck + v.length))

/-- `send_ack`: the acknowledgement sent, and `data_available` set from it. The loop meets each
entry once at most unless it meets an empty one, where it never ends (`ackLoop_ends`,
`ackLoop_empty`): `none`. -/
def sendAck (s : Sock α) : Option (ℕ × Sock α) :=
  (ackLoop s.receivedData (s.receivedData.length + 1) s.dataBegSeq).map fun finalAck =>
    (finalAck, { s with dataAvailable := wrap64 (finalAck + 2 ^ 64 - s.dataBegSeq) })

/-- `handle_connected` for a segment with `flags`, `seq` and payload `data`: the acknowledgement
it sends, if any. `none`: `send_ack` does not return. -/
def handleConnected (s : Sock α) (flags : UInt8) (seq : ℕ) (data : List α) :
    Option (Option ℕ × Sock α) :=
  match s.status with
  | .streamHandshaking =>
    if flags = P2psTcpFlags.syn ||| P2psTcpFlags.ack then
      (sendAck { s with dataBegSeq := wrap64 (seq + 1), status := .streamConnected }).map
        fun (a, s') => (some a, s')
    else some (none, s)
  | .streamConnected =>
    if flags = 0 ∨ flags = P2psTcpFlags.psh ∨ flags = P2psTcpFlags.ack ∨
        flags = P2psTcpFlags.syn ∨ flags = P2psTcpFlags.syn ||| P2psTcpFlags.ack then
      if seq < s.dataBegSeq then
        -- data already processed
        if flags ≠ P2psTcpFlags.ack then (sendAck s).map fun (a, s') => (some a, s')
        else some (none, s)
      else
        let s := if s.receivedData.lookup seq = none then
          { s with receivedData := emplace seq data s.receivedData } else s
        (sendAck s).map fun (a, s') => (some a, s')
    else if flags = P2psTcpFlags.rst ∨ flags = P2psTcpFlags.fin then
      some (none, { s with status := .streamClosed })
    else some (none, s)
  | _ => some (none, s)

/-- The copy loop of `recvfrom`: `left` bytes from the entries in key order. An entry is read
whole where `left` covers it; otherwise its unread bytes go back under the key of the first of
them (`emplace`, which does nothing where that key is taken), `erase(begin())` drops the entry
and `left` is `0`. `none`: `begin()` of an empty map. -/
def recvLoop : ℕ → List (ℕ × List α) → Option (List α × List (ℕ × List α))
  | 0, m => some ([], m)
  | _ + 1, [] => none
  | left + 1, (k, v) :: rest =>
    if v.length ≤ left + 1 then
      (recvLoop (left + 1 - v.length) rest).map fun (out, m) => (v ++ out, m)
    else
      some (v.take (left + 1),
        (emplace (wrap64 (k + (left + 1))) (v.drop (left + 1)) ((k, v) :: rest)).tail)

/-- What `recvfrom` returns. -/
inductive Recv (α : Type)
  | data (bytes : List α)
  /-- the stream is closed and nothing is left: `0` -/
  | eof
  | wouldBlock
  /-- nothing available on a blocking socket: the call waits -/
  | block

/-- `recvfrom(flags, len)`; `dontWait` is `flags & SYS_NET_MSG_DONTWAIT`. `none`: the copy loop
reads an empty map. -/
def recvfrom (s : Sock α) (len : ℕ) (dontWait : Bool) : Option (Recv α × Sock α) :=
  if s.dataAvailable = 0 then
    if s.status = .streamClosed then some (.eof, s)
    else if s.soNbio || dontWait then some (.wouldBlock, s)
    else some (.block, s)
  else
    let toGive := min s.dataAvailable len
    (recvLoop toGive s.receivedData).map fun (out, m) =>
      (.data out, { s with receivedData := m, dataAvailable := s.dataAvailable - toGive,
                           dataBegSeq := wrap64 (s.dataBegSeq + toGive) })

/-- A call on the socket: a segment for `handle_connected`, or `recvfrom`. -/
inductive Event (α : Type)
  | segment (flags : UInt8) (seq : ℕ) (data : List α)
  | recv (len : ℕ) (dontWait : Bool)

/-- What a call gives back. -/
inductive Out (α : Type)
  | acked (finalAck : Option ℕ)
  | received (r : Recv α)

def exec (s : Sock α) : Event α → Option (Out α × Sock α)
  | .segment flags seq data => (handleConnected s flags seq data).map fun (a, s') => (.acked a, s')
  | .recv len dontWait => (recvfrom s len dontWait).map fun (r, s') => (.received r, s')

/-- The calls one after another (the socket's mutex orders them): what each gives back, and
the last state. `none`: a call does not return, or reads an empty map. -/
def run (s : Sock α) : List (Event α) → Option (List (Out α) × Sock α)
  | [] => some ([], s)
  | e :: es =>
    match exec s e with
    | none => none
    | some (o, s') => (run s' es).map fun (os, t) => (o :: os, t)

/-- The bytes a call hands to the caller. -/
def Out.bytes : Out α → List α
  | .received (.data b) => b
  | _ => []

/-- A connected socket whose stream starts at `init`, with nothing received. -/
def connected (init : ℕ) : Sock α := ⟨.streamConnected, init, 0, [], false⟩

/-! ### The loop of `send_ack` -/

section AckLoop

variable {m : List (ℕ × List α)}

theorem mem_of_lookup {k : ℕ} {v : List α} (h : m.lookup k = some v) : (k, v) ∈ m := by
  obtain ⟨l₁, l₂, rfl, -⟩ := List.lookup_eq_some_iff.mp h
  simp

theorem ackLoop_of_lookup {fuel k : ℕ} {v : List α} (h : m.lookup k = some v) :
    ackLoop m (fuel + 1) k = ackLoop m fuel (wrap64 (k + v.length)) := by
  simp [ackLoop, h]

/-- The loop ends at a `u64`: where it started, or at a sum taken modulo `2^64`. -/
theorem ackLoop_lt {fuel k r : ℕ} (hk : k < 2 ^ 64) (h : ackLoop m fuel k = some r) :
    r < 2 ^ 64 := by
  induction fuel generalizing k with
  | zero => simp [ackLoop] at h
  | succ fuel ih =>
    cases hl : m.lookup k with
    | none =>
      simp [ackLoop, hl] at h
      omega
    | some v =>
      rw [ackLoop_of_lookup hl] at h
      exact ih (wrap64_lt _) h

/-- An empty entry where the loop arrives keeps it there for ever. -/
theorem ackLoop_empty {k : ℕ} (hk : k < 2 ^ 64) (h : m.lookup k = some []) (fuel : ℕ) :
    ackLoop m fuel k = none := by
  induction fuel with
  | zero => rfl
  | succ fuel ih => rw [ackLoop_of_lookup h, List.length_nil, Nat.add_zero, wrap64_of_lt hk, ih]

/-- Each round that finds a non-empty entry leaves fewer keys ahead. -/
theorem countP_lt_of_lookup {k : ℕ} {v : List α} (h : m.lookup k = some v) (hv : v ≠ []) :
    m.countP (fun e => k + v.length ≤ e.1) < m.countP (fun e => k ≤ e.1) := by
  obtain ⟨l₁, l₂, rfl, -⟩ := List.lookup_eq_some_iff.mp h
  have hlen : 0 < v.length := List.length_pos_iff.mpr hv
  have h₁ := List.countP_mono_left (l := l₁) (p := fun e => k + v.length ≤ e.1)
    (q := fun e => k ≤ e.1) (by simp only [decide_eq_true_eq]; intro e _ he; omega)
  have h₂ := List.countP_mono_left (l := l₂) (p := fun e => k + v.length ≤ e.1)
    (q := fun e => k ≤ e.1) (by simp only [decide_eq_true_eq]; intro e _ he; omega)
  simp only [List.countP_append, List.countP_cons, decide_eq_true_eq, le_refl, if_true]
  split_ifs with h₃
  · omega
  · omega

/-- With no empty entry, and every entry ending below `2^64`, the loop ends within one round per
entry. -/
theorem ackLoop_ends (hm : ∀ e ∈ m, e.2 ≠ []) (hb : ∀ e ∈ m, e.1 + e.2.length < 2 ^ 64) (k : ℕ) :
    ∃ r, ackLoop m (m.length + 1) k = some r := by
  suffices h : ∀ fuel k, m.countP (fun e => k ≤ e.1) < fuel → ∃ r, ackLoop m fuel k = some r from
    h _ k (Nat.lt_succ_of_le (List.countP_le_length))
  intro fuel
  induction fuel with
  | zero => intro k hk; omega
  | succ fuel ih =>
    intro k hk
    cases hl : m.lookup k with
    | none => exact ⟨k, by simp [ackLoop, hl]⟩
    | some v =>
      have hkv := mem_of_lookup hl
      have hend : k + v.length < 2 ^ 64 := hb _ hkv
      rw [ackLoop_of_lookup hl, wrap64_of_lt hend]
      exact ih _ (by have := countP_lt_of_lookup hl (hm _ hkv); omega)

end AckLoop

/-! ### What every run keeps -/

theorem sendAck_fields {s s' : Sock α} {a : ℕ} (h : sendAck s = some (a, s')) :
    s'.dataBegSeq = s.dataBegSeq ∧ s'.receivedData = s.receivedData ∧ s'.status = s.status := by
  obtain ⟨r, -, he⟩ := Option.map_eq_some_iff.mp h
  cases he
  exact ⟨rfl, rfl, rfl⟩

/-- The acknowledgement is `data_beg_seq + data_available` on `u64`. -/
theorem sendAck_ack {s s' : Sock α} {a : ℕ} (h : sendAck s = some (a, s'))
    (hk : s.dataBegSeq < 2 ^ 64) : a = wrap64 (s'.dataBegSeq + s'.dataAvailable) := by
  obtain ⟨r, hr, he⟩ := Option.map_eq_some_iff.mp h
  cases he
  have := ackLoop_lt hk hr
  dsimp only
  unfold wrap64
  omega

/-- The acknowledgement `handle_connected` sends is `data_beg_seq + data_available`. -/
theorem handleConnected_ack {s s' : Sock α} {flags : UInt8} {seq : ℕ} {data : List α} {a : ℕ}
    (h : handleConnected s flags seq data = some (some a, s')) (hk : s.dataBegSeq < 2 ^ 64) :
    a = wrap64 (s'.dataBegSeq + s'.dataAvailable) := by
  unfold handleConnected at h
  split at h
  · -- the handshake sets `data_beg_seq` to a `u64` itself
    split_ifs at h
    · obtain ⟨⟨a', s''⟩, hs, he⟩ := Option.map_eq_some_iff.mp h
      cases he
      exact sendAck_ack hs (wrap64_lt _)
    · cases h
  · split_ifs at h
    all_goals first
      | cases h
      | (obtain ⟨⟨a', s''⟩, hs, he⟩ := Option.map_eq_some_iff.mp h
         cases he
         exact sendAck_ack hs hk)
  · cases h

/-- A socket past its handshake: `handle_connected` leaves `data_beg_seq` alone. -/
theorem handleConnected_dataBegSeq {s s' : Sock α} {flags : UInt8} {seq : ℕ} {data : List α}
    {a : Option ℕ} (hs : s.status ≠ .streamHandshaking)
    (h : handleConnected s flags seq data = some (a, s')) :
    s'.dataBegSeq = s.dataBegSeq ∧ s'.status ≠ .streamHandshaking := by
  unfold handleConnected at h
  split at h
  · contradiction
  · rename_i hc
    split_ifs at h
    all_goals first
      | (cases h; exact ⟨rfl, by simp [hc]⟩)
      | (obtain ⟨⟨a', s''⟩, hs', he⟩ := Option.map_eq_some_iff.mp h
         cases he
         obtain ⟨h₁, -, h₂⟩ := sendAck_fields hs'
         exact ⟨h₁, by simp [h₂, hc]⟩)
  · cases h
    exact ⟨rfl, hs⟩

theorem length_of_recvLoop {n : ℕ} {m m' : List (ℕ × List α)} {out : List α}
    (h : recvLoop n m = some (out, m')) : out.length = n := by
  induction m generalizing n out with
  | nil =>
    cases n with
    | zero =>
      cases h
      rfl
    | succ n => cases h
  | cons e rest ih =>
    obtain ⟨k, v⟩ := e
    cases n with
    | zero =>
      cases h
      rfl
    | succ n =>
      simp only [recvLoop] at h
      split_ifs at h with hv
      · obtain ⟨⟨out', m''⟩, h', he⟩ := Option.map_eq_some_iff.mp h
        cases he
        rw [List.length_append, ih h']
        omega
      · cases h
        simp only [List.length_take]
        omega

theorem exec_dataBegSeq {s s' : Sock α} {e : Event α} {o : Out α}
    (hs : s.status ≠ .streamHandshaking) (h : exec s e = some (o, s')) :
    wrap64 s'.dataBegSeq = wrap64 (s.dataBegSeq + o.bytes.length) ∧
      s'.status ≠ .streamHandshaking := by
  cases e with
  | segment flags seq data =>
    obtain ⟨⟨a, s''⟩, h', he⟩ := Option.map_eq_some_iff.mp h
    cases he
    obtain ⟨h₁, h₂⟩ := handleConnected_dataBegSeq hs h'
    exact ⟨by simp [Out.bytes, h₁], h₂⟩
  | recv len dontWait =>
    obtain ⟨⟨r, s''⟩, h', he⟩ := Option.map_eq_some_iff.mp h
    cases he
    unfold recvfrom at h'
    split_ifs at h'
    all_goals first
      | (cases h'; exact ⟨rfl, hs⟩)
      | (obtain ⟨⟨out, m⟩, hl, he⟩ := Option.map_eq_some_iff.mp h'
         cases he
         exact ⟨by simp [Out.bytes, length_of_recvLoop hl], hs⟩)

/-- Along every run of a socket past its handshake, `data_beg_seq` moves on by the bytes
`recvfrom` hands out, and by nothing else, on `u64`. -/
theorem run_dataBegSeq {s t : Sock α} {evs : List (Event α)} {os : List (Out α)}
    (hs : s.status ≠ .streamHandshaking) (h : run s evs = some (os, t)) :
    wrap64 t.dataBegSeq = wrap64 (s.dataBegSeq + (os.flatMap Out.bytes).length) := by
  induction evs generalizing s os with
  | nil =>
    cases h
    simp
  | cons e es ih =>
    simp only [run] at h
    split at h
    · cases h
    · rename_i o s' he
      obtain ⟨⟨os', t'⟩, hr, hq⟩ := Option.map_eq_some_iff.mp h
      dsimp only at hq
      cases hq
      obtain ⟨h₁, h₂⟩ := exec_dataBegSeq hs he
      rw [ih h₂ hr, List.flatMap_cons, List.length_append]
      unfold wrap64 at h₁ ⊢
      omega

/-! ### Entries that never overlap

Where no two entries overlap, `send_ack` ends at the end of the entries chained from
`data_beg_seq` (`ackLoop_eq_chainEnd`), and `recvfrom` hands out the stream's bytes from
`data_beg_seq` on and keeps the entries from the new `data_beg_seq` on (`recvLoop_eq`). -/

section Layout

variable {m rest : List (ℕ × List α)}

/-- The entries lie in key order, each ending at or before the next begins, and none is
empty. -/
structure Layout (m : List (ℕ × List α)) : Prop where
  disjoint : m.Pairwise fun a b => a.1 + a.2.length ≤ b.1
  nonempty : ∀ e ∈ m, e.2 ≠ []

theorem Layout.wf (hm : Layout m) : WF m :=
  hm.disjoint.imp_of_mem fun {a _} ha _ h => by
    have := List.length_pos_iff.mpr (hm.nonempty a ha)
    omega

theorem Layout.of_cons {e : ℕ × List α} (hm : Layout (e :: m)) : Layout m :=
  ⟨hm.disjoint.of_cons, fun e' he => hm.nonempty e' (List.mem_cons_of_mem _ he)⟩

theorem Layout.rest_le {k : ℕ} {v : List α} (hm : Layout ((k, v) :: rest)) :
    ∀ e ∈ rest, k + v.length ≤ e.1 :=
  fun _ he => List.rel_of_pairwise_cons hm.disjoint he

theorem Layout.length_pos {k : ℕ} {v : List α} (hm : Layout ((k, v) :: rest)) : 0 < v.length :=
  List.length_pos_iff.mpr (hm.nonempty _ List.mem_cons_self)

/-- Byte `b` lies in an entry. -/
def Covers (m : List (ℕ × List α)) (b : ℕ) : Prop := ∃ e ∈ m, e.1 ≤ b ∧ b < e.1 + e.2.length

/-- Each entry holds the stream's bytes at its sequence numbers. -/
def Carries (D : ℕ → α) (m : List (ℕ × List α)) : Prop :=
  ∀ e ∈ m, e.2 = (List.range' e.1 e.2.length).map D

/-- The end of the entries chained from `k`, each starting where the last one ended. -/
def chainEnd : ℕ → List (ℕ × List α) → ℕ
  | k, [] => k
  | k, (k', v) :: rest => if k' = k then chainEnd (k + v.length) rest else k

@[simp] theorem chainEnd_cons_self (k : ℕ) (v : List α) (rest : List (ℕ × List α)) :
    chainEnd k ((k, v) :: rest) = chainEnd (k + v.length) rest := by
  simp [chainEnd]

theorem chainEnd_cons_of_ne {k k' : ℕ} {v : List α} (h : k' ≠ k) (rest : List (ℕ × List α)) :
    chainEnd k ((k', v) :: rest) = k := by
  simp [chainEnd, h]

theorem le_chainEnd (k : ℕ) (m : List (ℕ × List α)) : k ≤ chainEnd k m := by
  induction m generalizing k with
  | nil => exact le_refl k
  | cons e rest ih =>
    obtain ⟨k', v⟩ := e
    simp only [chainEnd]
    split_ifs
    · exact le_trans (Nat.le_add_right k _) (ih _)
    · exact le_refl k

/-- The chain ends where it starts, or at the end of an entry. -/
theorem chainEnd_eq_or_lt {k : ℕ} (hb : ∀ e ∈ m, e.1 + e.2.length < 2 ^ 64) :
    chainEnd k m = k ∨ chainEnd k m < 2 ^ 64 := by
  induction m generalizing k with
  | nil => exact .inl rfl
  | cons e rest ih =>
    obtain ⟨k', v⟩ := e
    have hend : k' + v.length < 2 ^ 64 := hb _ List.mem_cons_self
    simp only [chainEnd]
    split_ifs with hkk
    · rcases ih (k := k + v.length) fun e he => hb e (List.mem_cons_of_mem _ he) with h | h
      · exact .inr (by omega)
      · exact .inr h
    · exact .inl rfl

/-- Past the head's key, the loop never looks at the head. -/
theorem ackLoop_cons_of_lt {k k' : ℕ} {v : List α} (h : k' < k) (fuel : ℕ)
    (hb : ∀ e ∈ rest, e.1 + e.2.length < 2 ^ 64) :
    ackLoop ((k', v) :: rest) fuel k = ackLoop rest fuel k := by
  induction fuel generalizing k with
  | zero => rfl
  | succ fuel ih =>
    have hne : (k == k') = false := by simp only [beq_eq_false_iff_ne]; omega
    cases hl : rest.lookup k with
    | none => simp [ackLoop, List.lookup_cons, hne, hl]
    | some w =>
      have hend : k + w.length < 2 ^ 64 := hb _ (mem_of_lookup hl)
      simp only [ackLoop, List.lookup_cons, hne, hl, wrap64_of_lt hend]
      exact ih (by omega)

theorem ackLoop_eq_chainEnd {k fuel : ℕ} (hm : Layout m) (hk : ∀ e ∈ m, k ≤ e.1)
    (hb : ∀ e ∈ m, e.1 + e.2.length < 2 ^ 64) (hf : m.length < fuel) :
    ackLoop m fuel k = some (chainEnd k m) := by
  induction m generalizing k fuel with
  | nil =>
    obtain ⟨fuel, rfl⟩ : ∃ f, fuel = f + 1 := ⟨fuel - 1, by simp at hf; omega⟩
    rfl
  | cons e rest ih =>
    obtain ⟨k', v⟩ := e
    obtain ⟨fuel, rfl⟩ : ∃ f, fuel = f + 1 := ⟨fuel - 1, by simp at hf; omega⟩
    have hlen := hm.length_pos
    have hbrest : ∀ e ∈ rest, e.1 + e.2.length < 2 ^ 64 := fun e he =>
      hb e (List.mem_cons_of_mem _ he)
    by_cases hkk : k' = k
    · subst hkk
      have hend : k' + v.length < 2 ^ 64 := hb _ List.mem_cons_self
      rw [ackLoop_of_lookup List.lookup_cons_self, wrap64_of_lt hend,
        ackLoop_cons_of_lt (by omega) _ hbrest]
      rw [chainEnd_cons_self]
      exact ih hm.of_cons hm.rest_le hbrest (by simp at hf; omega)
    · -- the head's key is past `k`, and so are the others: the loop stops at once
      have hlt : k < k' := lt_of_le_of_ne (hk _ List.mem_cons_self) (Ne.symm hkk)
      have hnone : ((k', v) :: rest).lookup k = none := by
        refine List.lookup_eq_none_iff.mpr fun p hp => ?_
        rcases List.mem_cons.mp hp with rfl | hp
        · simp only [bne_iff_ne]
          omega
        · have := hm.rest_le p hp
          simp only [bne_iff_ne]
          omega
      simp [ackLoop, hnone, chainEnd, hkk]

theorem covers_of_lt_chainEnd {k b : ℕ} (hm : Layout m) (hb : k ≤ b) (hb' : b < chainEnd k m) :
    Covers m b := by
  induction m generalizing k with
  | nil => exact absurd hb' (by simp [chainEnd]; omega)
  | cons e rest ih =>
    obtain ⟨k', v⟩ := e
    simp only [chainEnd] at hb'
    split_ifs at hb' with hkk
    · subst hkk
      by_cases hin : b < k' + v.length
      · exact ⟨_, List.mem_cons_self, hb, hin⟩
      · obtain ⟨e, he, h⟩ := ih hm.of_cons (by omega) hb'
        exact ⟨e, List.mem_cons_of_mem _ he, h⟩
    · omega

theorem not_covers_chainEnd {k : ℕ} (hm : Layout m) (hk : ∀ e ∈ m, k ≤ e.1) :
    ¬ Covers m (chainEnd k m) := by
  induction m generalizing k with
  | nil =>
    rintro ⟨e, he, -⟩
    cases he
  | cons e rest ih =>
    obtain ⟨k', v⟩ := e
    rintro ⟨e, he, h₁, h₂⟩
    simp only [chainEnd] at h₁ h₂
    split_ifs at h₁ h₂ with hkk
    · subst hkk
      rcases List.mem_cons.mp he with rfl | he
      · have := le_chainEnd (k' + v.length) rest
        dsimp only at h₁ h₂
        omega
      · exact ih hm.of_cons hm.rest_le ⟨e, he, h₁, h₂⟩
    · -- no entry reaches back to `k`
      have hlt : k < k' := lt_of_le_of_ne (hk _ List.mem_cons_self) (Ne.symm hkk)
      rcases List.mem_cons.mp he with rfl | he
      · omega
      · have := hm.rest_le e he
        omega

/-- The entries from byte `c` on: those that end by `c` go, and one that `c` falls in keeps its
bytes from `c`. -/
def cut (c : ℕ) (m : List (ℕ × List α)) : List (ℕ × List α) :=
  m.filterMap fun e =>
    if e.1 + e.2.length ≤ c then none else if e.1 < c then some (c, e.2.drop (c - e.1)) else some e

theorem mem_cut {c : ℕ} {e' : ℕ × List α} :
    e' ∈ cut c m ↔ ∃ e ∈ m, c < e.1 + e.2.length ∧
      e' = if e.1 < c then (c, e.2.drop (c - e.1)) else e := by
  simp only [cut, List.mem_filterMap]
  refine exists_congr fun e => and_congr_right fun _ => ?_
  split_ifs <;> simp_all [eq_comm]

theorem cut_of_le {c : ℕ} (hm : Layout m) (h : ∀ e ∈ m, c ≤ e.1) : cut c m = m := by
  induction m with
  | nil => rfl
  | cons e rest ih =>
    have hlen := List.length_pos_iff.mpr (hm.nonempty e List.mem_cons_self)
    have hc := h e List.mem_cons_self
    simp only [cut, List.filterMap_cons, if_neg (show ¬e.1 + e.2.length ≤ c by omega),
      if_neg (show ¬e.1 < c by omega)]
    exact congrArg _ (ih hm.of_cons fun e' he' => h e' (List.mem_cons_of_mem _ he'))

theorem cut_cons_of_le {c : ℕ} {e : ℕ × List α} (h : e.1 + e.2.length ≤ c) :
    cut c (e :: m) = cut c m := by
  simp [cut, h]

theorem le_of_mem_cut {c : ℕ} {e' : ℕ × List α} (h : e' ∈ cut c m) : c ≤ e'.1 := by
  obtain ⟨e, -, -, rfl⟩ := mem_cut.mp h
  split_ifs with hc
  · exact le_refl c
  · exact not_lt.mp hc

theorem Layout.cut (hm : Layout m) (c : ℕ) : Layout (cut c m) where
  disjoint := by
    refine hm.disjoint.filterMap _ fun a a' h b hb b' hb' => ?_
    split_ifs at hb hb' <;> cases hb <;> cases hb' <;>
      first | omega | (simp only [List.length_drop]; omega)
  nonempty e' he' := by
    obtain ⟨e, he, hc, rfl⟩ := mem_cut.mp he'
    split_ifs with hlt
    · simp only [ne_eq, List.drop_eq_nil_iff]
      omega
    · exact hm.nonempty e he

theorem Carries.cut {D : ℕ → α} (hD : Carries D m) (c : ℕ) : Carries D (cut c m) := by
  intro e' he'
  obtain ⟨e, he, hc, rfl⟩ := mem_cut.mp he'
  split_ifs with hlt
  · obtain ⟨k, v⟩ := e
    have h : v = (List.range' k v.length).map D := hD _ he
    dsimp only at hlt ⊢
    rw [List.length_drop]
    nth_rewrite 1 [h]
    rw [← List.map_drop, List.drop_range', Nat.mul_one, Nat.add_sub_cancel' hlt.le]
  · exact hD e he

theorem covers_cut {c b : ℕ} : Covers (cut c m) b ↔ Covers m b ∧ c ≤ b := by
  constructor
  · rintro ⟨e', he', h₁, h₂⟩
    obtain ⟨e, he, hc, rfl⟩ := mem_cut.mp he'
    split_ifs at h₁ h₂ with hlt
    · simp only [List.length_drop] at h₂
      exact ⟨⟨e, he, by omega, by omega⟩, h₁⟩
    · exact ⟨⟨e, he, h₁, h₂⟩, by omega⟩
  · rintro ⟨⟨e, he, h₁, h₂⟩, hb⟩
    refine ⟨if e.1 < c then (c, e.2.drop (c - e.1)) else e, mem_cut.mpr ⟨e, he, by omega, rfl⟩, ?_⟩
    split_ifs with hlt
    · simp only [List.length_drop]
      omega
    · exact ⟨h₁, h₂⟩

/-- What is left of an entry after a cut is a whole entry from past `c`, or the end of one
that `c` falls in. -/
theorem mem_cut_of {c : ℕ} {e' : ℕ × List α} (h : e' ∈ cut c m) :
    ∃ e ∈ m, e'.1 + e'.2.length = e.1 + e.2.length ∧ (e' = e ∨ e'.1 = c ∧ e.1 < c) := by
  obtain ⟨e, he, hc, rfl⟩ := mem_cut.mp h
  refine ⟨e, he, ?_⟩
  split_ifs with hlt
  · refine ⟨?_, .inr ⟨rfl, hlt⟩⟩
    simp only [List.length_drop]
    omega
  · exact ⟨rfl, .inl rfl⟩

theorem chainEnd_cut {k c : ℕ} (hm : Layout m) (hk : ∀ e ∈ m, k ≤ e.1) (hkc : k ≤ c)
    (hc : c ≤ chainEnd k m) : chainEnd c (cut c m) = chainEnd k m := by
  induction m generalizing k with
  | nil => simp [cut, chainEnd] at hc ⊢; omega
  | cons e rest ih =>
    obtain ⟨k', v⟩ := e
    have hlen := hm.length_pos
    by_cases hkk : k' = k
    · subst hkk
      rw [chainEnd_cons_self] at hc ⊢
      by_cases hend : k' + v.length ≤ c
      · rw [cut_cons_of_le hend]
        exact ih hm.of_cons hm.rest_le hend hc
      · -- `c` falls in the head: it stays, cut at `c`
        have hrest : cut c rest = rest :=
          cut_of_le hm.of_cons fun e he => by have := hm.rest_le e he; omega
        by_cases hck : k' = c
        · subst hck
          rw [cut_of_le hm hk]
          simp [chainEnd]
        · have hcut : cut c ((k', v) :: rest) = (c, v.drop (c - k')) :: rest := by
            simp only [cut, List.filterMap_cons, if_neg hend, if_pos (show k' < c by omega)]
            exact congrArg _ hrest
          rw [hcut]
          rw [chainEnd_cons_self, List.length_drop]
          congr 1
          omega
    · -- the chain from `k` is empty, and then `c = k` and nothing is cut
      have hck : c = k := by simp [chainEnd, hkk] at hc; omega
      subst hck
      rw [cut_of_le hm hk]

theorem take_range' {k n L : ℕ} (h : n ≤ L) : (List.range' k L).take n = List.range' k n := by
  rw [show L = n + (L - n) by omega, ← List.range'_append_1, List.take_left']
  simp

/-- `recvfrom`'s copy loop, where the entries lie apart from `k` on and chain from `k` for at
least `n` bytes: the stream's `n` bytes from `k`, and the entries from `k + n` on. -/
theorem recvLoop_eq {D : ℕ → α} {k n : ℕ} (hm : Layout m) (hk : ∀ e ∈ m, k ≤ e.1)
    (hb : ∀ e ∈ m, e.1 + e.2.length < 2 ^ 64) (hD : Carries D m) (hn : k + n ≤ chainEnd k m) :
    recvLoop n m = some ((List.range' k n).map D, cut (k + n) m) := by
  induction m generalizing k n with
  | nil =>
    simp only [chainEnd] at hn
    obtain rfl : n = 0 := by omega
    rfl
  | cons e rest ih =>
    obtain ⟨k', v⟩ := e
    cases n with
    | zero => simp [recvLoop, cut_of_le hm hk]
    | succ n =>
      have hlen := hm.length_pos
      -- a byte to give: the chain from `k` starts at the head
      obtain rfl : k' = k := by
        by_contra hkk
        simp [chainEnd, hkk] at hn
      rw [chainEnd_cons_self] at hn
      have hv := hD _ List.mem_cons_self
      dsimp only at hv
      simp only [recvLoop]
      split_ifs with hle
      · -- the whole head, then the rest from its end
        have hsplit : v ++ (List.range' (k' + v.length) (n + 1 - v.length)).map D =
            (List.range' k' (n + 1)).map D := by
          conv_lhs => arg 1; rw [hv]
          rw [← List.map_append, List.range'_append_1, Nat.add_sub_cancel' hle]
        rw [ih hm.of_cons hm.rest_le (fun e he => hb e (List.mem_cons_of_mem _ he))
          (fun e he => hD e (List.mem_cons_of_mem _ he)) (by omega),
          cut_cons_of_le (by dsimp only; omega)]
        have hend : k' + v.length + (n + 1 - v.length) = k' + (n + 1) := by omega
        simp only [Option.map_some, hsplit, hend]
      · -- part of the head: its unread bytes go back under `k + n + 1`, inside the head
        have hend : k' + v.length < 2 ^ 64 := hb _ List.mem_cons_self
        rw [wrap64_of_lt (show k' + (n + 1) < 2 ^ 64 by omega)]
        have hrest : ∀ e ∈ rest, k' + (n + 1) < e.1 := fun e he => by
          have := hm.rest_le e he
          omega
        have hemp : (emplace (k' + (n + 1)) (v.drop (n + 1)) ((k', v) :: rest)).tail =
            (k' + (n + 1), v.drop (n + 1)) :: rest := by
          simp only [emplace, if_neg (show ¬k' + (n + 1) < k' by omega),
            if_neg (show k' + (n + 1) ≠ k' by omega), List.tail_cons]
          exact emplace_of_lt hrest
        have hcut : cut (k' + (n + 1)) ((k', v) :: rest) = (k' + (n + 1), v.drop (n + 1)) :: rest := by
          simp only [cut, List.filterMap_cons, if_neg (show ¬k' + v.length ≤ k' + (n + 1) by omega),
            if_pos (show k' < k' + (n + 1) by omega), Nat.add_sub_cancel_left]
          exact congrArg _ (cut_of_le hm.of_cons fun e he => (hrest e he).le)
        rw [hemp, hcut, hv, ← List.map_take, take_range' (by omega)]

end Layout

/-! ### Delivery where segments never overlap in part

Where any two segments are equal or lie apart, as `sendto` cuts a stream and resends the same
segments, every run delivers the stream in order and exactly once (`stream_in_order`). The
invariant keeps the map's entries apart and above `data_beg_seq`, covering exactly the bytes
received from there on, each entry a whole segment or the end of one read in part. -/

section Stream

/-- Two segments span the same sequence numbers, or none in common. -/
def Apart (g h : ℕ × List α) : Prop :=
  (g.1 = h.1 ∧ g.2.length = h.2.length) ∨ g.1 + g.2.length ≤ h.1 ∨ h.1 + h.2.length ≤ g.1

/-- The flags `handle_connected` takes a connected socket's data with. -/
def IsData (flags : UInt8) : Prop :=
  flags = 0 ∨ flags = P2psTcpFlags.psh ∨ flags = P2psTcpFlags.ack ∨ flags = P2psTcpFlags.syn ∨
    flags = P2psTcpFlags.syn ||| P2psTcpFlags.ack

/-- The segment a call hands to `handle_connected`. -/
def Event.segment? : Event α → Option (ℕ × List α)
  | .segment _ seq data => some (seq, data)
  | .recv _ _ => none

theorem covers_append {H : List (ℕ × List α)} {g : ℕ × List α} {b : ℕ} :
    Covers (H ++ [g]) b ↔ Covers H b ∨ (g.1 ≤ b ∧ b < g.1 + g.2.length) := by
  simp only [Covers, List.mem_append, List.mem_singleton]
  constructor
  · rintro ⟨e, he | rfl, hb⟩
    · exact .inl ⟨e, he, hb⟩
    · exact .inr hb
  · rintro (⟨e, he, hb⟩ | hb)
    · exact ⟨e, .inl he, hb⟩
    · exact ⟨g, .inr rfl, hb⟩

/-- A segment that shares a byte with one received before brings no new byte. -/
theorem covers_append_of_overlap {H : List (ℕ × List α)} {g h : ℕ × List α} (hh : h ∈ H)
    (hap : Apart g h) (hne : g.2 ≠ []) (h₁ : h.1 ≤ g.1) (h₂ : g.1 < h.1 + h.2.length) (b : ℕ) :
    Covers (H ++ [g]) b ↔ Covers H b := by
  have hlen := List.length_pos_iff.mpr hne
  rw [covers_append]
  refine ⟨?_, .inl⟩
  rintro (hb | hb)
  · exact hb
  · exact ⟨h, hh, by rcases hap with hap | hap | hap <;> omega⟩

theorem covers_mono {H H' : List (ℕ × List α)} (h : H ⊆ H') {b : ℕ} (hb : Covers H b) :
    Covers H' b := by
  obtain ⟨e, he, hb⟩ := hb
  exact ⟨e, h he, hb⟩

variable (D : ℕ → α) (init : ℕ)

/-- The socket after the segments `H` and some reads, for the stream `D` from `init`. -/
structure StreamInv (H : List (ℕ × List α)) (s : Sock α) : Prop where
  connected : s.status = .streamConnected
  init_le : init ≤ s.dataBegSeq
  layout : Layout s.receivedData
  above : ∀ e ∈ s.receivedData, s.dataBegSeq ≤ e.1
  carries : Carries D s.receivedData
  /-- from `data_beg_seq` on, the entries hold exactly the bytes received -/
  covers : ∀ b, s.dataBegSeq ≤ b → (Covers H b ↔ Covers s.receivedData b)
  consumed : ∀ b, init ≤ b → b < s.dataBegSeq → Covers H b
  /-- an entry is a whole segment, or the end of one read in part -/
  origin : ∀ e ∈ s.receivedData, ∃ g ∈ H, (e.1 = g.1 ∧ e.2.length = g.2.length) ∨
    (e.1 = s.dataBegSeq ∧ g.1 < s.dataBegSeq ∧ e.1 + e.2.length = g.1 + g.2.length)
  available : s.dataBegSeq + s.dataAvailable = chainEnd s.dataBegSeq s.receivedData
  /-- the stream so far lies below `2^64` -/
  beg_lt : s.dataBegSeq < 2 ^ 64
  bounded : ∀ e ∈ s.receivedData, e.1 + e.2.length < 2 ^ 64

variable {D init}

theorem streamInv_connected (hinit : init < 2 ^ 64) :
    StreamInv D init [] (connected init : Sock α) where
  connected := rfl
  init_le := le_refl init
  layout := ⟨List.Pairwise.nil, fun _ h => by cases h⟩
  above _ h := by cases h
  carries _ h := by cases h
  covers b _ := by simp [Covers, connected]
  consumed b h₁ h₂ := absurd h₂ (by simp [connected]; omega)
  origin _ h := by cases h
  available := rfl
  beg_lt := hinit
  bounded _ h := by cases h

theorem sendAck_eq_chainEnd {s : Sock α} (hm : Layout s.receivedData)
    (hk : ∀ e ∈ s.receivedData, s.dataBegSeq ≤ e.1)
    (hb : ∀ e ∈ s.receivedData, e.1 + e.2.length < 2 ^ 64) :
    sendAck s = some (chainEnd s.dataBegSeq s.receivedData,
      { s with dataAvailable := chainEnd s.dataBegSeq s.receivedData - s.dataBegSeq }) := by
  have hle := le_chainEnd s.dataBegSeq s.receivedData
  have hend := chainEnd_eq_or_lt (k := s.dataBegSeq) hb
  -- the difference on `u64` is the difference: the chain does not wrap
  have hdiff : wrap64 (chainEnd s.dataBegSeq s.receivedData + 2 ^ 64 - s.dataBegSeq) =
      chainEnd s.dataBegSeq s.receivedData - s.dataBegSeq := by
    unfold wrap64
    omega
  rw [sendAck, ackLoop_eq_chainEnd hm hk hb (Nat.lt_succ_self _), Option.map_some, hdiff]

variable {H : List (ℕ × List α)} {s : Sock α}

theorem StreamInv.sendAck (hs : StreamInv D init H s) :
    P2ps.sendAck s = some (s.dataBegSeq + s.dataAvailable, s) := by
  rw [sendAck_eq_chainEnd hs.layout hs.above hs.bounded, ← hs.available]
  congr
  omega

/-- A segment that brings no new byte from `data_beg_seq` on leaves the invariant. -/
theorem StreamInv.extend {g : ℕ × List α} (hs : StreamInv D init H s)
    (hcov : ∀ b, Covers (H ++ [g]) b ↔ Covers H b) : StreamInv D init (H ++ [g]) s where
  connected := hs.connected
  init_le := hs.init_le
  layout := hs.layout
  above := hs.above
  carries := hs.carries
  covers b hb := (hcov b).trans (hs.covers b hb)
  consumed b h₁ h₂ := (hcov b).mpr (hs.consumed b h₁ h₂)
  origin e he := by
    obtain ⟨g', hg', h⟩ := hs.origin e he
    exact ⟨g', List.mem_append_left _ hg', h⟩
  available := hs.available
  beg_lt := hs.beg_lt
  bounded := hs.bounded

/-- An entry lies in the segment it came from. -/
theorem StreamInv.within (hs : StreamInv D init H s) {e : ℕ × List α} (he : e ∈ s.receivedData) :
    ∃ g ∈ H, g.1 ≤ e.1 ∧ e.1 + e.2.length = g.1 + g.2.length ∧
      (e.1 = g.1 ∨ g.1 < s.dataBegSeq) := by
  obtain ⟨g, hg, ⟨h₁, h₂⟩ | ⟨h₁, h₂, h₃⟩⟩ := hs.origin e he
  · exact ⟨g, hg, h₁.ge, by omega, .inl h₁⟩
  · exact ⟨g, hg, by omega, h₃, .inr h₂⟩

section Segment

variable {flags : UInt8} {seq : ℕ} {data : List α}

/-- A segment below `data_beg_seq`: its bytes were all received before. -/
theorem StreamInv.old (hs : StreamInv D init H s) (hseq : init ≤ seq) (hne : data ≠ [])
    (hap : ∀ h ∈ H, Apart (seq, data) h) (hlt : seq < s.dataBegSeq) (b : ℕ) :
    Covers (H ++ [(seq, data)]) b ↔ Covers H b := by
  obtain ⟨h, hh, h₁, h₂⟩ := hs.consumed seq hseq hlt
  exact covers_append_of_overlap hh (hap h hh) hne h₁ h₂ b

/-- A segment whose key is taken: equal to the segment that entry came from. -/
theorem StreamInv.dup (hs : StreamInv D init H s) (hne : data ≠ [])
    (hap : ∀ h ∈ H, Apart (seq, data) h) {v : List α} (hv : (seq, v) ∈ s.receivedData) (b : ℕ) :
    Covers (H ++ [(seq, data)]) b ↔ Covers H b := by
  obtain ⟨h, hh, h₁, h₂, -⟩ := hs.within hv
  have hlen : 0 < v.length := List.length_pos_iff.mpr (hs.layout.nonempty _ hv)
  dsimp only at h₁ h₂
  exact covers_append_of_overlap hh (hap h hh) hne h₁ (show seq < _ by omega) b

/-- A new segment lies apart from every entry. -/
theorem StreamInv.apart (hs : StreamInv D init H s) (hne : data ≠ [])
    (hap : ∀ h ∈ H, Apart (seq, data) h) (hge : s.dataBegSeq ≤ seq)
    (hnew : ∀ e ∈ s.receivedData, e.1 ≠ seq) :
    ∀ e ∈ s.receivedData, e.1 + e.2.length ≤ seq ∨ seq + data.length ≤ e.1 := by
  intro e he
  by_contra hover
  obtain ⟨h, hh, h₁, h₂, h₃⟩ := hs.within he
  have hlen := List.length_pos_iff.mpr hne
  -- sharing a byte with the entry, the segment shares one with its origin, so equals it
  have hgh := hap h hh
  dsimp only [Apart] at hgh
  have heq : seq = h.1 := by
    rcases hgh with hgh | hgh | hgh
    · exact hgh.1
    · omega
    · omega
  rcases h₃ with h₃ | h₃
  · exact hnew e he (h₃.trans heq.symm)
  · omega

theorem covers_emplace {m : List (ℕ × List α)} {k b : ℕ} {v : List α} (h : ∀ e ∈ m, e.1 ≠ k) :
    Covers (emplace k v m) b ↔ Covers m b ∨ (k ≤ b ∧ b < k + v.length) := by
  simp only [Covers, mem_emplace_iff h]
  constructor
  · rintro ⟨e, rfl | he, hb⟩
    · exact .inr hb
    · exact .inl ⟨e, he, hb⟩
  · rintro (⟨e, he, hb⟩ | hb)
    · exact ⟨e, .inr he, hb⟩
    · exact ⟨(k, v), .inl rfl, hb⟩

/-- A new segment at or past `data_beg_seq` goes in at its place. -/
theorem StreamInv.insert (hs : StreamInv D init H s)
    (hD : data = (List.range' seq data.length).map D) (hne : data ≠ [])
    (hend : seq + data.length < 2 ^ 64)
    (hap : ∀ h ∈ H, Apart (seq, data) h) (hge : s.dataBegSeq ≤ seq)
    (hnew : s.receivedData.lookup seq = none) :
    StreamInv D init (H ++ [(seq, data)])
      { s with receivedData := emplace seq data s.receivedData,
               dataAvailable :=
                 chainEnd s.dataBegSeq (emplace seq data s.receivedData) - s.dataBegSeq } := by
  have hkey : ∀ e ∈ s.receivedData, e.1 ≠ seq := fun e he h => by
    have := List.lookup_eq_none_iff.mp hnew e he
    simp [h] at this
  have hsep := hs.apart hne hap hge hkey
  have hlen := List.length_pos_iff.mpr hne
  have hmem : ∀ e, e ∈ emplace seq data s.receivedData ↔ e = (seq, data) ∨ e ∈ s.receivedData :=
    fun e => mem_emplace_iff hkey
  refine
    { connected := hs.connected
      init_le := hs.init_le
      layout := ⟨pairwise_emplace hs.layout.wf hs.layout.disjoint (fun e he hlt => ?_)
        (fun e he hgt => ?_), fun e he => ?_⟩
      above := fun e he => ?_
      carries := fun e he => ?_
      covers := fun b hb => ?_
      consumed := fun b h₁ h₂ => covers_mono (List.subset_append_left _ _) (hs.consumed b h₁ h₂)
      origin := fun e he => ?_
      available := ?_
      beg_lt := hs.beg_lt
      bounded := fun e he => ?_ }
  · rcases hsep e he with h | h
    · exact h
    · omega
  · rcases hsep e he with h | h
    · have := List.length_pos_iff.mpr (hs.layout.nonempty e he)
      omega
    · exact h
  · rcases (hmem e).mp he with rfl | he
    · exact hne
    · exact hs.layout.nonempty e he
  · rcases (hmem e).mp he with rfl | he
    · exact hge
    · exact hs.above e he
  · rcases (hmem e).mp he with rfl | he
    · exact hD
    · exact hs.carries e he
  · rw [covers_append, hs.covers b hb, covers_emplace hkey]
  · rcases (hmem e).mp he with rfl | he
    · exact ⟨(seq, data), List.mem_append_right _ List.mem_cons_self, .inl ⟨rfl, rfl⟩⟩
    · obtain ⟨g, hg, h⟩ := hs.origin e he
      exact ⟨g, List.mem_append_left _ hg, h⟩
  · have := le_chainEnd s.dataBegSeq (emplace seq data s.receivedData)
    dsimp only
    omega
  · rcases (hmem e).mp he with rfl | he
    · exact hend
    · exact hs.bounded e he

/-- `handle_connected` with a data segment keeps the invariant. -/
theorem StreamInv.segment (hs : StreamInv D init H s) (hf : IsData flags) (hseq : init ≤ seq)
    (hne : data ≠ []) (hD : data = (List.range' seq data.length).map D)
    (hend : seq + data.length < 2 ^ 64)
    (hap : ∀ h ∈ H, Apart (seq, data) h) :
    ∃ a s', handleConnected s flags seq data = some (a, s') ∧
      StreamInv D init (H ++ [(seq, data)]) s' := by
  obtain ⟨st, dbs, avail, m, nbio⟩ := s
  obtain rfl : st = .streamConnected := hs.connected
  unfold IsData at hf
  simp only [handleConnected, if_pos hf]
  by_cases hlt : seq < dbs
  · -- already processed: no new byte
    have hinv := hs.extend (hs.old hseq hne hap hlt)
    rw [if_pos hlt]
    split_ifs
    · exact ⟨_, _, by rw [hs.sendAck]; rfl, hinv⟩
    · exact ⟨_, _, rfl, hinv⟩
  · rw [if_neg hlt]
    cases hl : m.lookup seq with
    | some v =>
      -- a duplicate of the segment that entry came from
      have hinv := hs.extend (hs.dup hne hap (mem_of_lookup hl))
      simp only [reduceCtorEq, if_false]
      exact ⟨_, _, by rw [hs.sendAck]; rfl, hinv⟩
    | none =>
      have hinv := hs.insert hD hne hend hap (not_lt.mp hlt) hl
      have hsend := sendAck_eq_chainEnd
        (s := ⟨.streamConnected, dbs, avail, emplace seq data m, nbio⟩) hinv.layout hinv.above
        hinv.bounded
      simp only [if_true]
      exact ⟨_, _, by rw [hsend]; rfl, hinv⟩

end Segment

/-- Reading `n` bytes of the chain from `data_beg_seq` keeps the invariant. -/
theorem StreamInv.read (hs : StreamInv D init H s) {n : ℕ}
    (hn : s.dataBegSeq + n ≤ chainEnd s.dataBegSeq s.receivedData) :
    StreamInv D init H { s with receivedData := cut (s.dataBegSeq + n) s.receivedData,
                                dataAvailable := s.dataAvailable - n,
                                dataBegSeq := s.dataBegSeq + n } where
  connected := hs.connected
  init_le := le_trans hs.init_le (Nat.le_add_right _ _)
  layout := hs.layout.cut _
  above _ he := le_of_mem_cut he
  carries := hs.carries.cut _
  covers b hb := by
    rw [hs.covers b (le_trans (Nat.le_add_right _ _) hb), covers_cut]
    exact (and_iff_left hb).symm
  consumed b h₁ h₂ := by
    by_cases hb : b < s.dataBegSeq
    · exact hs.consumed b h₁ hb
    · -- a byte just read lay in the chain
      exact (hs.covers b (not_lt.mp hb)).mpr
        (covers_of_lt_chainEnd hs.layout (not_lt.mp hb) (by dsimp only at h₂; omega))
  origin e' he' := by
    obtain ⟨e, he, hend, he'e⟩ := mem_cut_of he'
    have hc := le_of_mem_cut he'
    obtain ⟨g, hg, ⟨h₁, h₂⟩ | ⟨h₁, h₂, h₃⟩⟩ := hs.origin e he
    · rcases he'e with rfl | ⟨h₄, h₅⟩
      · exact ⟨g, hg, .inl ⟨h₁, h₂⟩⟩
      · exact ⟨g, hg, .inr ⟨h₄, by dsimp only; omega, by omega⟩⟩
    · rcases he'e with rfl | ⟨h₄, h₅⟩
      · exact ⟨g, hg, .inr ⟨by dsimp only at hc ⊢; omega, by dsimp only; omega, h₃⟩⟩
      · exact ⟨g, hg, .inr ⟨h₄, by dsimp only; omega, by omega⟩⟩
  available := by
    dsimp only
    rw [chainEnd_cut hs.layout hs.above (Nat.le_add_right _ _) hn, ← hs.available]
    have := hs.available
    omega
  beg_lt := by
    dsimp only
    have := hs.beg_lt
    rcases chainEnd_eq_or_lt (k := s.dataBegSeq) hs.bounded with h | h <;> omega
  bounded e' he' := by
    obtain ⟨e, he, hend, -⟩ := mem_cut_of he'
    rw [hend]
    exact hs.bounded e he

/-- `recvfrom` hands out the stream's bytes from `data_beg_seq` on and keeps the invariant. -/
theorem StreamInv.recv (hs : StreamInv D init H s) (len : ℕ) (dontWait : Bool) :
    ∃ r s', recvfrom s len dontWait = some (r, s') ∧
      (Out.received r).bytes = (List.range' s.dataBegSeq (s'.dataBegSeq - s.dataBegSeq)).map D ∧
      s.dataBegSeq ≤ s'.dataBegSeq ∧ StreamInv D init H s' := by
  unfold recvfrom
  split_ifs with h₀
  · exact ⟨_, _, rfl, by simp [Out.bytes], le_refl _, hs⟩
  · exact ⟨_, _, rfl, by simp [Out.bytes], le_refl _, hs⟩
  · exact ⟨_, _, rfl, by simp [Out.bytes], le_refl _, hs⟩
  · have hn : s.dataBegSeq + min s.dataAvailable len ≤ chainEnd s.dataBegSeq s.receivedData := by
      have := hs.available
      omega
    have hlt : s.dataBegSeq + min s.dataAvailable len < 2 ^ 64 := by
      have := hs.beg_lt
      rcases chainEnd_eq_or_lt (k := s.dataBegSeq) hs.bounded with h | h <;> omega
    dsimp only
    rw [recvLoop_eq hs.layout hs.above hs.bounded hs.carries hn, wrap64_of_lt hlt]
    exact ⟨_, _, rfl, by simp [Out.bytes], by simp, hs.read hn⟩

/-- The invariant along a run whose segments are data segments of the stream from `init`, no
two of them overlapping in part. -/
theorem StreamInv.run (hs : StreamInv D init H s) (evs : List (Event α))
    (hseg : ∀ flags seq data, Event.segment flags seq data ∈ evs →
      IsData flags ∧ init ≤ seq ∧ data ≠ [] ∧ data = (List.range' seq data.length).map D ∧
        seq + data.length < 2 ^ 64)
    (hap : ∀ g ∈ H ++ evs.filterMap Event.segment?, ∀ h ∈ H ++ evs.filterMap Event.segment?,
      Apart g h) :
    ∃ os t, P2ps.run s evs = some (os, t) ∧
      os.flatMap Out.bytes = (List.range' s.dataBegSeq (t.dataBegSeq - s.dataBegSeq)).map D ∧
      s.dataBegSeq ≤ t.dataBegSeq ∧ StreamInv D init (H ++ evs.filterMap Event.segment?) t := by
  induction evs generalizing H s with
  | nil => exact ⟨[], s, rfl, by simp, le_refl _, by simpa using hs⟩
  | cons e es ih =>
    -- one call keeps the invariant, with the segment it brings added to the history
    obtain ⟨o, s', hexec, hbytes, hle, hinv⟩ : ∃ o s', exec s e = some (o, s') ∧
        o.bytes = (List.range' s.dataBegSeq (s'.dataBegSeq - s.dataBegSeq)).map D ∧
        s.dataBegSeq ≤ s'.dataBegSeq ∧ StreamInv D init (H ++ (e.segment?).toList) s' := by
      cases e with
      | segment flags seq data =>
        obtain ⟨hf, hseq, hne, hD, hend⟩ := hseg flags seq data List.mem_cons_self
        obtain ⟨a, s', h, hinv⟩ := hs.segment hf hseq hne hD hend fun h hh =>
          hap _ (List.mem_append_right _ (by simp [Event.segment?])) h (List.mem_append_left _ hh)
        have hdbs := handleConnected_dataBegSeq (by rw [hs.connected]; decide) h
        exact ⟨.acked a, s', by simp [exec, h], by simp [Out.bytes, hdbs.1], by rw [hdbs.1],
          by simpa [Event.segment?] using hinv⟩
      | recv len dontWait =>
        obtain ⟨r, s', h, hbytes, hle, hinv⟩ := hs.recv len dontWait
        exact ⟨.received r, s', by simp [exec, h], hbytes, hle, by simpa [Event.segment?] using hinv⟩
    have hrest : H ++ (e :: es).filterMap Event.segment? =
        (H ++ (e.segment?).toList) ++ es.filterMap Event.segment? := by
      cases e <;> simp [Event.segment?, List.filterMap_cons]
    obtain ⟨os, t, hrun, hos, hle', hinv'⟩ := ih hinv
      (fun flags seq data h => hseg flags seq data (List.mem_cons_of_mem _ h))
      (by rw [← hrest]; exact hap)
    refine ⟨o :: os, t, by simp [P2ps.run, hexec, hrun], ?_, le_trans hle hle', by rwa [hrest]⟩
    obtain ⟨d, hd⟩ : ∃ d, s'.dataBegSeq = s.dataBegSeq + d := ⟨_, (Nat.add_sub_cancel' hle).symm⟩
    rw [List.flatMap_cons, hbytes, hos, ← List.map_append, hd, Nat.add_sub_cancel_left,
      List.range'_append_1]
    congr 2
    omega

/-- Where the segments are data segments of the stream `D` from `init`, none empty, no two
overlapping in part and all below `2^64`, every run returns; `recvfrom` hands out the stream from `init` in order
and exactly once, and `data_available` is the longest run of received bytes from
`data_beg_seq`. -/
theorem stream_in_order (D : ℕ → α) (init : ℕ) (hinit : init < 2 ^ 64) (evs : List (Event α))
    (hseg : ∀ flags seq data, Event.segment flags seq data ∈ evs →
      IsData flags ∧ init ≤ seq ∧ data ≠ [] ∧ data = (List.range' seq data.length).map D ∧
        seq + data.length < 2 ^ 64)
    (hap : ∀ g ∈ evs.filterMap Event.segment?, ∀ h ∈ evs.filterMap Event.segment?, Apart g h) :
    ∃ os t, run (connected init) evs = some (os, t) ∧
      os.flatMap Out.bytes = (List.range' init (t.dataBegSeq - init)).map D ∧
      t.dataBegSeq = init + (os.flatMap Out.bytes).length ∧
      (∀ b, t.dataBegSeq ≤ b → b < t.dataBegSeq + t.dataAvailable →
        Covers (evs.filterMap Event.segment?) b) ∧
      ¬ Covers (evs.filterMap Event.segment?) (t.dataBegSeq + t.dataAvailable) := by
  have h₀ : StreamInv D init [] (connected init : Sock α) := streamInv_connected hinit
  obtain ⟨os, t, hrun, hbytes, hle, hinv⟩ := h₀.run evs hseg (by simpa using hap)
  rw [List.nil_append] at hinv
  change _ = (List.range' init (t.dataBegSeq - init)).map D at hbytes
  refine ⟨os, t, hrun, hbytes, ?_, fun b h₁ h₂ => ?_, fun h => ?_⟩
  · rw [hbytes, List.length_map, List.length_range']
    have : init ≤ t.dataBegSeq := hle
    omega
  · -- below the end of the chain every byte lies in an entry, so was received
    rw [hinv.available] at h₂
    exact (hinv.covers b h₁).mpr (covers_of_lt_chainEnd hinv.layout h₁ h₂)
  · -- the chain's end lies in no entry, so was not received
    rw [hinv.available] at h
    exact not_covers_chainEnd hinv.layout hinv.above
      ((hinv.covers _ (le_chainEnd _ _)).mp h)

end Stream

/-- Two segments that overlap without being equal: the first chain ends at `11` while byte `11`
was received, and once the first segment is read the second stays behind `data_beg_seq` under
key `6`, so the next `recvfrom` serves its bytes `6..10` again where `11..15` are due. -/
theorem recv_serves_stale_bytes :
    (run (connected 1) [.segment P2psTcpFlags.psh 1 ((List.range' 1 10).map UInt8.ofNat),
      .segment P2psTcpFlags.psh 6 ((List.range' 6 10).map UInt8.ofNat)]).map
        (·.2.dataAvailable) = some 10 ∧
    ∃ os t, run (connected 1) [.segment P2psTcpFlags.psh 1 ((List.range' 1 10).map UInt8.ofNat),
        .segment P2psTcpFlags.psh 6 ((List.range' 6 10).map UInt8.ofNat), .recv 10 false,
        .segment P2psTcpFlags.psh 11 ((List.range' 11 5).map UInt8.ofNat), .recv 5 false] =
        some (os, t) ∧
      os.flatMap Out.bytes = (List.range' 1 10).map UInt8.ofNat ++ (List.range' 6 5).map UInt8.ofNat ∧
      os.flatMap Out.bytes ≠ (List.range' 1 15).map UInt8.ofNat :=
  ⟨rfl, _, _, rfl, rfl, by decide⟩

end Rpcs3.Lv2.P2ps
