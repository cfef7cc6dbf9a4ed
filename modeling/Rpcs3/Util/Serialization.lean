import Rpcs3.Lib.Leb128
import Mathlib

/-! `utils::serial` (util/serialization.hpp), the savestate serializer. A serial
holds a byte buffer `data` and a position `pos`; while writing, `raw_serialize`
inserts bytes at `pos` (appends when `pos` is at the end), and while reading it
copies bytes from `pos`. Both advance `pos`. Sizes of containers are written by
`serialize_vle`, a base-128 varint, and read back by `deserialize_vle`.

The types modelled are those `serialize` handles by itself: `Bitcopy` scalars
(arithmetic types, enums, `Integral` and `enable_bitcopy` types, whose value is
their object representation), `std::vector`/`std::basic_string` (bitcopy
elements bulk-copied), C arrays and `std::array`, the node containers
(`std::deque`, `std::list`, the sets and maps, read back by inserting at the
end), and `std::pair`; a tuple is written as its elements in order, which is
the byte string of nested pairs. A container is its sequence of elements in
iteration order, and a map element is a key-value pair. The buffer is in memory
(`data_offset` is 0 and there is no file handler). -/
namespace Rpcs3.Util.Serialization

/-- The serializable types. -/
inductive Ty
  | bitcopy (size : Nat)
  | vector (elem : Ty)
  | array (n : Nat) (elem : Ty)
  | list (elem : Ty)
  | pair (fst snd : Ty)
  deriving DecidableEq, Repr

/-- The values of a type: a bitcopy value is its `sizeof` bytes. -/
@[reducible] def Ty.Val : Ty → Type
  | .bitcopy size => List.Vector UInt8 size
  | .vector elem => List elem.Val
  | .array n elem => List.Vector elem.Val n
  | .list elem => List elem.Val
  | .pair fst snd => fst.Val × snd.Val

/-- `utils::serial`: the direction, the buffer and the position. -/
structure Serial where
  isWriting : Bool
  data : List UInt8
  pos : Nat

/-- A new serial: writing, empty. -/
def Serial.empty : Serial := ⟨true, [], 0⟩

/-- `set_reading_state()` with no new buffer: read the saved bytes from the start. -/
def Serial.setReadingState (ar : Serial) : Serial :=
  { ar with isWriting := false, pos := 0 }

/-- `raw_serialize` while writing: insert the bytes at `pos` and step over them. -/
def Serial.rawWrite (ar : Serial) (bytes : List UInt8) : Serial :=
  { ar with data := ar.data.take ar.pos ++ bytes ++ ar.data.drop ar.pos,
            pos := ar.pos + bytes.length }

/-- `raw_serialize` while reading: `size` bytes from `pos`. Past the end of the
buffer the source asks the file handler, and without one its `ensure` fails. -/
def Serial.rawRead (ar : Serial) (size : Nat) : Option (List UInt8 × Serial) :=
  if size = 0 then some ([], ar)
  else if ar.pos + size ≤ ar.data.length then
    some ((ar.data.drop ar.pos).take size, { ar with pos := ar.pos + size })
  else none

/-- `serialize_vle` at an unsigned type: write the low 7 bits of `i`, with the top
bit set while `i >> 7` is not zero, one byte at a time. -/
def Serial.serializeVle (ar : Serial) (value : Nat) : Serial :=
  let i := value >>> 7
  let toWrite := UInt8.ofNat (value % 0x80) ||| (if i ≠ 0 then 0x80 else 0)
  let ar := ar.rawWrite [toWrite]
  if i = 0 then ar else ar.serializeVle i
termination_by value
decreasing_by
  rw [Nat.shiftRight_eq_div_pow]
  omega

/-- `serialize_vle` at a signed type, run for at most `fuel` rounds of its loop:
`i >> 7` is an arithmetic shift, and `static_cast<u8>(i) % 0x80` is `i mod 128`. -/
def Serial.serializeVleSigned : Nat → Serial → Int → Option Serial
  | 0, _, _ => none
  | fuel + 1, ar, value =>
    let i := value >>> (7 : Nat)
    let toWrite := UInt8.ofNat (value % 0x80).toNat ||| (if i ≠ 0 then 0x80 else 0)
    let ar := ar.rawWrite [toWrite]
    if i = 0 then some ar else Serial.serializeVleSigned fuel ar i

/-- The loop of `deserialize_vle` into a `w`-bit unsigned `value`, over the bytes from
`pos`: `value |= static_cast<T>(byte % 0x80) << i` until a byte without the top bit.
Returns the value and the number of bytes read. -/
def deserializeVleFrom (w : Nat) (value i : Nat) : List UInt8 → Option (Nat × Nat)
  | [] => none
  | b :: rest =>
    let value := value ||| ((b.toNat % 0x80) <<< i) % 2 ^ w
    if b &&& 0x80 = 0 then some (value, 1)
    else (deserializeVleFrom w value (i + 7) rest).map fun vk => (vk.1, vk.2 + 1)

/-- `deserialize_vle` into a `w`-bit unsigned type. -/
def Serial.deserializeVle (ar : Serial) (w : Nat) : Option (Nat × Serial) :=
  (deserializeVleFrom w 0 0 (ar.data.drop ar.pos)).map fun vk =>
    (vk.1, { ar with pos := ar.pos + vk.2 })

/-- `sizeof(usz)` in bits: container sizes are `usz`. -/
def uszBits : Nat := 64

/-- `serialize` while writing. A vector of bitcopy elements and a bitcopy array are
copied in one `raw_serialize`; other containers write their elements one by one, a
pair element as its first and then its second member. -/
def Serial.write (ar : Serial) : (t : Ty) → t.Val → Serial
  | .bitcopy _, v => ar.rawWrite v.toList
  | .vector (.bitcopy _), xs => (ar.serializeVle xs.length).rawWrite (xs.map List.Vector.toList).flatten
  | .vector elem, xs => xs.foldl (fun ar x => ar.write elem x) (ar.serializeVle xs.length)
  | .array _ (.bitcopy _), xs => ar.rawWrite (xs.toList.map List.Vector.toList).flatten
  | .array _ elem, xs => xs.toList.foldl (fun ar x => ar.write elem x) ar
  | .list elem, xs => xs.foldl (fun ar x => ar.write elem x) (ar.serializeVle xs.length)
  | .pair fst snd, p => (ar.write fst p.1).write snd p.2

/-- The source's element loops while reading: `count` reads, one after the other. -/
def readMany {α : Type} (read : Serial → Option (α × Serial)) : Nat → Serial → Option (List α × Serial)
  | 0, ar => some ([], ar)
  | count + 1, ar => do
    let (x, ar) ← read ar
    let (xs, ar) ← readMany read count ar
    pure (x :: xs, ar)

/-- A block read in one `raw_serialize`, seen as `count` objects of `size` bytes. -/
def chunks (size : Nat) : Nat → List UInt8 → Option (List (List.Vector UInt8 size))
  | 0, _ => some []
  | count + 1, bytes =>
    if h : (bytes.take size).length = size then
      (chunks size count (bytes.drop size)).map (⟨bytes.take size, h⟩ :: ·)
    else none

/-- A list read for a fixed-size array, as the array. -/
def asVector {α : Type} (n : Nat) (xs : List α) : Option (List.Vector α n) :=
  if h : xs.length = n then some ⟨xs, h⟩ else none

/-- `serialize` while reading, and `operator T` for the elements of node containers
(which builds each element the same way and inserts it at the end). -/
def Serial.read (ar : Serial) : (t : Ty) → Option (t.Val × Serial)
  | .bitcopy size => do
    let (bytes, ar) ← ar.rawRead size
    let v ← asVector size bytes
    pure (v, ar)
  | .vector (.bitcopy size) => do
    let (count, ar) ← ar.deserializeVle uszBits
    let (bytes, ar) ← ar.rawRead (size * count)
    let xs ← chunks size count bytes
    pure (xs, ar)
  | .vector elem => do
    let (count, ar) ← ar.deserializeVle uszBits
    readMany (fun ar => ar.read elem) count ar
  | .array n (.bitcopy size) => do
    let (bytes, ar) ← ar.rawRead (size * n)
    let xs ← chunks size n bytes
    let v ← asVector n xs
    pure (v, ar)
  | .array n elem => do
    let (xs, ar) ← readMany (fun ar => ar.read elem) n ar
    let v ← asVector n xs
    pure (v, ar)
  | .list elem => do
    let (count, ar) ← ar.deserializeVle uszBits
    readMany (fun ar => ar.read elem) count ar
  | .pair fst snd => do
    let (x, ar) ← ar.read fst
    let (y, ar) ← ar.read snd
    pure ((x, y), ar)

/-- `operator()(args...)` while writing: the arguments in order. -/
def Serial.writeAll (ar : Serial) (vs : List (Σ t : Ty, t.Val)) : Serial :=
  vs.foldl (fun ar v => ar.write v.1 v.2) ar

/-- Reading values of the given types in order. -/
def Serial.readAll (ar : Serial) : List Ty → Option (List (Σ t : Ty, t.Val) × Serial)
  | [] => some ([], ar)
  | t :: ts => do
    let (v, ar) ← ar.read t
    let (vs, ar) ← ar.readAll ts
    pure (⟨t, v⟩ :: vs, ar)

/-! ### The byte string of a value

What the serializer is for: each value stands for one byte string, a container
being its size as a varint and then its elements. Both directions are proved
against it: writing inserts it at `pos`, and reading at a position where it
begins gives the value back and steps over it. -/

/-- The bytes of a value. -/
def encodeVal : (t : Ty) → t.Val → List UInt8
  | .bitcopy _, v => v.toList
  | .vector elem, xs => Leb128.encode xs.length ++ (xs.map (encodeVal elem)).flatten
  | .array _ elem, xs => (xs.toList.map (encodeVal elem)).flatten
  | .list elem, xs => Leb128.encode xs.length ++ (xs.map (encodeVal elem)).flatten
  | .pair fst snd, p => encodeVal fst p.1 ++ encodeVal snd p.2

@[simp] theorem encodeVal_bitcopy (size : Nat) : encodeVal (.bitcopy size) = List.Vector.toList :=
  rfl

/-- A value every size in which is a `usz`, as `size()` returns it. -/
def Ty.SizesFit : (t : Ty) → t.Val → Prop
  | .bitcopy _, _ => True
  | .vector elem, (xs : List elem.Val) => xs.length < 2 ^ uszBits ∧ ∀ x ∈ xs, elem.SizesFit x
  | .array _ elem, xs => ∀ x ∈ xs.toList, elem.SizesFit x
  | .list elem, (xs : List elem.Val) => xs.length < 2 ^ uszBits ∧ ∀ x ∈ xs, elem.SizesFit x
  | .pair fst snd, p => fst.SizesFit p.1 ∧ snd.SizesFit p.2

/-! ### Writing -/

@[simp] theorem rawWrite_nil (ar : Serial) : ar.rawWrite [] = ar := by
  simp [Serial.rawWrite]

/-- Two inserts at `pos` are one insert of both strings. -/
theorem rawWrite_rawWrite (ar : Serial) (a b : List UInt8) :
    (ar.rawWrite a).rawWrite b = ar.rawWrite (a ++ b) := by
  obtain ⟨isWriting, data, pos⟩ := ar
  simp only [Serial.rawWrite, List.length_append, Serial.mk.injEq, true_and]
  refine ⟨?_, by omega⟩
  by_cases hp : pos ≤ data.length
  · have hl : (data.take pos ++ a).length = pos + a.length := by
      rw [List.length_append, List.length_take_of_le hp]
    rw [← hl, List.take_left, List.drop_left]
    simp only [List.append_assoc]
  · -- past the end, the insert is an append and the new position stays past the end
    have hd : data.drop pos = [] := List.drop_eq_nil_of_le (by omega)
    have ht : data.take pos = data := List.take_of_length_le (by omega)
    have hl : (data ++ a ++ []).length ≤ pos + a.length := by simp; omega
    rw [ht, hd, List.take_of_length_le hl, List.drop_eq_nil_of_le hl]
    simp only [List.append_nil, List.append_assoc]

/-- The position stays inside the buffer, as the writing path of
`raw_serialize` ensures. -/
theorem rawWrite_pos_le (ar : Serial) (bytes : List UInt8) (h : ar.pos ≤ ar.data.length) :
    (ar.rawWrite bytes).pos ≤ (ar.rawWrite bytes).data.length := by
  simp only [Serial.rawWrite, List.length_append, List.length_take, List.length_drop]
  omega

/-- One round of `serialize_vle` writes the byte the varint starts with. -/
theorem vleByte_eq (n : Nat) :
    (UInt8.ofNat (n % 0x80) ||| if n >>> 7 ≠ 0 then 0x80 else 0) =
      if n / 128 = 0 then UInt8.ofNat n else UInt8.ofNat (n % 128 + 128) := by
  rw [Nat.shiftRight_eq_div_pow]
  apply UInt8.toNat_inj.mp
  by_cases h : n / 128 = 0
  · have hn : n % 128 = n := Nat.mod_eq_of_lt (by omega)
    simp [h, hn]
  · -- the low seven bits and the continuation bit are disjoint, so the or is a sum
    have hm : n % 128 < 2 ^ 7 := Nat.mod_lt n (by decide)
    have hor : 128 ||| n % 128 = 128 + n % 128 := by
      simpa using (Nat.two_pow_add_eq_or_of_lt hm 1).symm
    have h2 : n / 2 ^ 7 ≠ 0 := h
    rw [if_pos h2, if_neg h, UInt8.toNat_or, UInt8.toNat_ofNat', UInt8.toNat_ofNat',
      Nat.mod_eq_of_lt (by omega : n % 128 < 2 ^ 8), Nat.mod_eq_of_lt (by omega : n % 128 + 128 < 2 ^ 8)]
    change n % 128 ||| 128 = n % 128 + 128
    rw [Nat.or_comm, hor, Nat.add_comm]

theorem serializeVle_eq (ar : Serial) (n : Nat) :
    ar.serializeVle n = ar.rawWrite (Leb128.encode n) := by
  induction n using Nat.strong_induction_on generalizing ar with
  | _ n ih =>
    have hs : n >>> 7 = n / 128 := Nat.shiftRight_eq_div_pow n 7
    rw [Serial.serializeVle, Leb128.encode]
    rw [vleByte_eq, hs]
    by_cases h : n / 128 = 0
    · simp [h]
    · simp only [h, ↓reduceIte]
      rw [ih (n / 128) (by omega), rawWrite_rawWrite]
      rfl

/-- A loop of writes, each inserting its element's bytes, inserts them all. -/
theorem foldl_rawWrite {α : Type} (f : Serial → α → Serial) (enc : α → List UInt8)
    (xs : List α) (hx : ∀ x ∈ xs, ∀ ar, f ar x = ar.rawWrite (enc x)) (ar : Serial) :
    xs.foldl f ar = ar.rawWrite (xs.map enc).flatten := by
  induction xs generalizing ar with
  | nil => simp
  | cons x xs ih =>
    rw [List.foldl_cons, hx x List.mem_cons_self, ih (fun y hy => hx y (List.mem_cons_of_mem x hy)),
      rawWrite_rawWrite, List.map_cons, List.flatten_cons]

/-- Writing a value inserts its bytes at `pos`. -/
theorem write_eq (t : Ty) (ar : Serial) (v : t.Val) :
    ar.write t v = ar.rawWrite (encodeVal t v) := by
  induction t generalizing ar with
  | bitcopy size => rfl
  | vector elem ih =>
    cases elem
    -- the block copy of bitcopy elements writes what the element loop would
    case bitcopy size =>
      simp only [Serial.write]
      rw [serializeVle_eq, rawWrite_rawWrite]
      rfl
    -- the element loop; unfolding the write would unfold the element writes too
    all_goals
      refine (foldl_rawWrite _ (encodeVal _) _ (fun x _ ar => ih ar x) _).trans ?_
      rw [serializeVle_eq, rawWrite_rawWrite]
      rfl
  | array n elem ih =>
    cases elem
    case bitcopy size => rfl
    all_goals exact foldl_rawWrite _ (encodeVal _) _ (fun x _ ar => ih ar x) _
  | list elem ih =>
    refine (foldl_rawWrite _ (encodeVal _) _ (fun x _ ar => ih ar x) _).trans ?_
    rw [serializeVle_eq, rawWrite_rawWrite]
    rfl
  | pair fst snd ihf ihs =>
    change (ar.write fst v.1).write snd v.2 = _
    rw [ihf, ihs, rawWrite_rawWrite]
    rfl

theorem writeAll_eq (ar : Serial) (vs : List (Σ t : Ty, t.Val)) :
    ar.writeAll vs = ar.rawWrite (vs.map fun v => encodeVal v.1 v.2).flatten :=
  foldl_rawWrite _ _ vs (fun v _ ar => write_eq v.1 ar v.2) ar

/-! ### Reading -/

/-- A reader gives `x` back from a position where `bytes` begin, and steps over them. -/
def ReadsBack {α : Type} (read : Serial → Option (α × Serial)) (x : α) (bytes : List UInt8) : Prop :=
  ∀ ar rest, ar.data.drop ar.pos = bytes ++ rest →
    read ar = some (x, { ar with pos := ar.pos + bytes.length })

theorem drop_pos_add (ar : Serial) {bytes rest : List UInt8}
    (h : ar.data.drop ar.pos = bytes ++ rest) : ar.data.drop (ar.pos + bytes.length) = rest := by
  rw [← List.drop_drop, h, List.drop_left]

theorem rawRead_reads_back (bytes : List UInt8) :
    ReadsBack (·.rawRead bytes.length) bytes bytes := by
  intro ar rest h
  dsimp only
  unfold Serial.rawRead
  by_cases hb : bytes = []
  · subst hb
    simp
  · have hlen := congrArg List.length h
    have hpos : bytes.length ≠ 0 := by simpa using hb
    simp only [List.length_drop, List.length_append] at hlen
    rw [if_neg hpos, if_pos (by omega), h, List.take_left]

/-- The seven-bit groups of `n` at `i`, the low one and the rest above it. -/
theorem vleGroups_or (n i w : Nat) :
    ((n % 128) <<< i) % 2 ^ w ||| ((n / 128) <<< (i + 7)) % 2 ^ w = (n <<< i) % 2 ^ w := by
  have hsplit : n = 2 ^ 7 * (n / 128) ||| n % 128 := by
    rw [← Nat.two_pow_add_eq_or_of_lt (Nat.mod_lt n (by decide)) (n / 128)]
    omega
  have hhigh : (2 ^ 7 * (n / 128)) <<< i = (n / 128) <<< (i + 7) := by
    rw [Nat.shiftLeft_eq, Nat.shiftLeft_eq, pow_add]
    ring
  rw [← Nat.or_mod_two_pow]
  conv_rhs => rw [hsplit, Nat.shiftLeft_or_distrib, hhigh, Nat.or_comm]

theorem deserializeVleFrom_encode (w value i n : Nat) (rest : List UInt8) :
    deserializeVleFrom w value i (Leb128.encode n ++ rest) =
      some (value ||| (n <<< i) % 2 ^ w, (Leb128.encode n).length) := by
  induction n using Nat.strong_induction_on generalizing value i with
  | _ n ih =>
    rw [Leb128.encode]
    by_cases h : n / 128 = 0
    · have hb : (UInt8.ofNat n).toNat = n := by rw [UInt8.toNat_ofNat']; omega
      rw [if_pos h, List.singleton_append, deserializeVleFrom,
        if_pos ((Leb128.and_0x80_eq_zero _).mpr (by rw [hb]; omega)), hb,
        Nat.mod_eq_of_lt (show n < 0x80 by omega)]
      rfl
    · -- a continued byte: its group goes in at `i`, the rest from `i + 7`
      have hb : (UInt8.ofNat (n % 128 + 128)).toNat = n % 128 + 128 := by
        rw [UInt8.toNat_ofNat']; omega
      rw [if_neg h, List.cons_append, deserializeVleFrom,
        if_neg (by rw [Leb128.and_0x80_eq_zero, hb]; omega), ih (n / 128) (by omega),
        Option.map_some, hb, show (n % 128 + 128) % 0x80 = n % 128 by omega, Nat.or_assoc,
        vleGroups_or]
      rfl

theorem deserializeVle_reads_back {w n : Nat} (hn : n < 2 ^ w) :
    ReadsBack (·.deserializeVle w) n (Leb128.encode n) := by
  intro ar rest h
  dsimp only
  rw [Serial.deserializeVle, h, deserializeVleFrom_encode, Option.map_some, Nat.zero_or,
    Nat.shiftLeft_zero, Nat.mod_eq_of_lt hn]

theorem asVector_toList {α : Type} {n : Nat} (v : List.Vector α n) : asVector n v.toList = some v := by
  rw [asVector, dif_pos v.toList_length]
  rfl

theorem length_flatten_toList {α : Type} {n : Nat} (xs : List (List.Vector α n)) :
    (xs.map List.Vector.toList).flatten.length = n * xs.length := by
  induction xs with
  | nil => rfl
  | cons x xs ih =>
    rw [List.map_cons, List.flatten_cons, List.length_append, ih, List.Vector.toList_length,
      List.length_cons, Nat.mul_succ, Nat.add_comm]

theorem chunks_flatten (size : Nat) (xs : List (List.Vector UInt8 size)) (rest : List UInt8) :
    chunks size xs.length ((xs.map List.Vector.toList).flatten ++ rest) = some xs := by
  induction xs with
  | nil => rfl
  | cons x xs ih =>
    have ht : (x.toList ++ ((xs.map List.Vector.toList).flatten ++ rest)).take size = x.toList :=
      List.take_left' x.toList_length
    have hd : (x.toList ++ ((xs.map List.Vector.toList).flatten ++ rest)).drop size =
        (xs.map List.Vector.toList).flatten ++ rest :=
      List.drop_left' x.toList_length
    simp only [List.map_cons, List.flatten_cons, List.append_assoc, List.length_cons, chunks, ht, hd, ih]
    rw [dif_pos x.toList_length, Option.map_some]
    rfl

theorem readMany_reads_back {α : Type} (read : Serial → Option (α × Serial)) (enc : α → List UInt8)
    (xs : List α) (hx : ∀ x ∈ xs, ReadsBack read x (enc x)) :
    ReadsBack (readMany read xs.length) xs (xs.map enc).flatten := by
  induction xs with
  | nil =>
    intro ar rest h
    simp [readMany]
  | cons x xs ih =>
    intro ar rest h
    rw [List.map_cons, List.flatten_cons, List.append_assoc] at h
    have h1 := hx x List.mem_cons_self ar _ h
    have h2 := ih (fun y hy => hx y (List.mem_cons_of_mem x hy))
      { ar with pos := ar.pos + (enc x).length } rest (drop_pos_add ar h)
    simp [readMany, h1, h2, Nat.add_assoc]

/-- The element loop of a container: its size, then its elements one by one. -/
theorem readElements_reads_back (elem : Ty) (xs : List elem.Val) (hlen : xs.length < 2 ^ uszBits)
    (hx : ∀ x ∈ xs, ReadsBack (·.read elem) x (encodeVal elem x)) :
    ReadsBack (fun ar => do
        let (count, ar) ← ar.deserializeVle uszBits
        readMany (fun ar => ar.read elem) count ar)
      xs (Leb128.encode xs.length ++ (xs.map (encodeVal elem)).flatten) := by
  intro ar rest h
  rw [List.append_assoc] at h
  have h1 := deserializeVle_reads_back hlen ar _ h
  have h2 := readMany_reads_back _ _ xs hx
    { ar with pos := ar.pos + (Leb128.encode xs.length).length } rest (drop_pos_add ar h)
  simp [h1, h2, Nat.add_assoc]

/-- The element loop of a fixed-size array. -/
theorem readArray_reads_back (elem : Ty) (n : Nat) (v : List.Vector elem.Val n)
    (hx : ∀ x ∈ v.toList, ReadsBack (·.read elem) x (encodeVal elem x)) :
    ReadsBack (fun ar => do
        let (xs, ar) ← readMany (fun ar => ar.read elem) n ar
        let v ← asVector n xs
        pure (v, ar))
      v (v.toList.map (encodeVal elem)).flatten := by
  intro ar rest h
  have h1 := readMany_reads_back _ _ v.toList hx ar rest h
  rw [List.Vector.toList_length] at h1
  simp [h1, asVector_toList]

theorem read_reads_back (t : Ty) (v : t.Val) (hv : t.SizesFit v) :
    ReadsBack (·.read t) v (encodeVal t v) := by
  induction t with
  | bitcopy size =>
    intro ar rest h
    have h1 := rawRead_reads_back v.toList ar rest h
    rw [List.Vector.toList_length] at h1
    simp [Serial.read, h1, asVector_toList]
  | vector elem ih =>
    cases elem
    case bitcopy size =>
      intro ar rest h
      rw [encodeVal, encodeVal_bitcopy] at h ⊢
      rw [List.append_assoc] at h
      have h1 := deserializeVle_reads_back hv.1 ar _ h
      have h2 := rawRead_reads_back _
        { ar with pos := ar.pos + (Leb128.encode v.length).length } rest (drop_pos_add ar h)
      rw [length_flatten_toList] at h2
      have h3 := chunks_flatten size v []
      rw [List.append_nil] at h3
      rw [List.length_append, length_flatten_toList]
      simp [Serial.read, h1, h2, h3, Nat.add_assoc]
    all_goals exact readElements_reads_back _ v hv.1 (fun x hx => ih x (hv.2 x hx))
  | array n elem ih =>
    cases elem
    -- the block copy of a bitcopy array, cut back into its elements
    case bitcopy size =>
      intro ar rest h
      rw [encodeVal, encodeVal_bitcopy] at h ⊢
      have h1 := rawRead_reads_back _ ar rest h
      rw [length_flatten_toList, List.Vector.toList_length] at h1
      have h2 := chunks_flatten size v.toList []
      rw [List.append_nil, List.Vector.toList_length] at h2
      rw [length_flatten_toList, List.Vector.toList_length]
      simp [Serial.read, h1, h2, asVector_toList]
    all_goals exact readArray_reads_back _ n v (fun x hx => ih x (hv x hx))
  | list elem ih => exact readElements_reads_back _ v hv.1 (fun x hx => ih x (hv.2 x hx))
  | pair fst snd ihf ihs =>
    intro ar rest h
    rw [encodeVal, List.append_assoc] at h
    have h1 := ihf v.1 hv.1 ar _ h
    have h2 := ihs v.2 hv.2 { ar with pos := ar.pos + (encodeVal fst v.1).length } rest
      (drop_pos_add ar h)
    simp [Serial.read, h1, h2, encodeVal, Nat.add_assoc]

theorem readAll_reads_back (vs : List (Σ t : Ty, t.Val)) (hvs : ∀ v ∈ vs, v.1.SizesFit v.2) :
    ReadsBack (·.readAll (vs.map Sigma.fst)) vs (vs.map fun v => encodeVal v.1 v.2).flatten := by
  induction vs with
  | nil =>
    intro ar rest h
    simp [Serial.readAll]
  | cons v vs ih =>
    intro ar rest h
    rw [List.map_cons, List.flatten_cons, List.append_assoc] at h
    have h1 := read_reads_back v.1 v.2 (hvs v List.mem_cons_self) ar _ h
    have h2 := ih (fun u hu => hvs u (List.mem_cons_of_mem v hu))
      { ar with pos := ar.pos + (encodeVal v.1 v.2).length } rest (drop_pos_add ar h)
    simp [Serial.readAll, h1, h2, Nat.add_assoc]

/-- Values written at any position inside the buffer (the bytes after it move up) are
read back from that position, which ends where the writer ended. -/
theorem writeAll_readAll (ar : Serial) (vs : List (Σ t : Ty, t.Val))
    (hpos : ar.pos ≤ ar.data.length) (hvs : ∀ v ∈ vs, v.1.SizesFit v.2) :
    { ar.writeAll vs with isWriting := false, pos := ar.pos }.readAll (vs.map Sigma.fst) =
      some (vs, { ar.writeAll vs with isWriting := false }) := by
  rw [writeAll_eq]
  -- the bytes written begin at the old position, with the old tail after them
  have hd : (ar.rawWrite (vs.map fun v => encodeVal v.1 v.2).flatten).data.drop ar.pos =
      (vs.map fun v => encodeVal v.1 v.2).flatten ++ ar.data.drop ar.pos := by
    simp only [Serial.rawWrite, List.append_assoc]
    exact List.drop_left' (List.length_take_of_le hpos)
  exact readAll_reads_back vs hvs
    { ar.rawWrite (vs.map fun v => encodeVal v.1 v.2).flatten with isWriting := false, pos := ar.pos }
    _ hd

/-! ### `serialize_vle` at signed types -/

/-- On a negative value the arithmetic shift stays negative, so the loop never ends. -/
theorem serializeVleSigned_of_neg (fuel : Nat) (ar : Serial) (x : Int) (hx : x < 0) :
    ar.serializeVleSigned fuel x = none := by
  induction fuel generalizing ar x with
  | zero => rfl
  | succ fuel ih =>
    have hs : x >>> (7 : Nat) < 0 := by rw [Int.shiftRight_eq_div_pow]; omega
    rw [Serial.serializeVleSigned, if_neg (by omega)]
    exact ih _ _ hs

/-- `serialize_vle(s32{-1})` runs for ever: every round writes `0xff` and shifts back to -1. -/
theorem serializeVle_minus_one_never_ends :
    (fun fuel => Serial.empty.serializeVleSigned fuel (-1)) = fun _ => none :=
  funext fun fuel => serializeVleSigned_of_neg fuel _ _ (by decide)

/-- On a non-negative value the loop ends, having written what the unsigned loop writes. -/
theorem serializeVleSigned_of_nonneg (fuel : Nat) (ar : Serial) (x : Int) (hx : 0 ≤ x)
    (hf : (Leb128.encode x.toNat).length ≤ fuel) :
    ar.serializeVleSigned fuel x = some (ar.serializeVle x.toNat) := by
  induction fuel generalizing ar x with
  | zero =>
    rw [Leb128.length_encode] at hf
    omega
  | succ fuel ih =>
    have hs : x >>> (7 : Nat) = ((x.toNat >>> 7 : Nat) : Int) := by
      rw [Int.shiftRight_eq_div_pow, Nat.shiftRight_eq_div_pow]
      push_cast
      omega
    have hb : (x % 0x80).toNat = x.toNat % 0x80 := by omega
    rw [Serial.serializeVleSigned, Serial.serializeVle]
    simp only [hs, hb, ne_eq, Int.natCast_eq_zero]
    by_cases h : x.toNat >>> 7 = 0
    · simp [h]
    · -- one more byte, and the rest of the value needs one round less
      have h7 : x.toNat >>> 7 = x.toNat / 128 := Nat.shiftRight_eq_div_pow _ 7
      have hrest : (Leb128.encode (x.toNat >>> 7)).length ≤ fuel := by
        rw [Leb128.encode, if_neg (by omega), List.length_cons] at hf
        rw [h7]
        omega
      simp only [h, ↓reduceIte]
      rw [ih _ _ (by omega) (by rw [Int.toNat_natCast]; exact hrest), Int.toNat_natCast]

/-! ### The round trips -/

/-- Values written into a new serial, read back after `set_reading_state` in the same
order, are the values written, and reading ends at the number of bytes written; a varint
of a value that fits its width decodes to it, in `max 1 ⌈bitlen/7⌉` bytes; and at a
signed type `serialize_vle` ends on every non-negative value, writing the unsigned
varint. -/
theorem serial_round_trip :
    (∀ vs : List (Σ t : Ty, t.Val), (∀ v ∈ vs, v.1.SizesFit v.2) →
      (Serial.empty.writeAll vs).setReadingState.readAll (vs.map Sigma.fst) =
          some (vs, { Serial.empty.writeAll vs with isWriting := false }) ∧
        (Serial.empty.writeAll vs).pos = (Serial.empty.writeAll vs).data.length) ∧
    (∀ w x : Nat, x < 2 ^ w →
      (Serial.empty.serializeVle x).setReadingState.deserializeVle w =
          some (x, { Serial.empty.serializeVle x with isWriting := false }) ∧
        (Serial.empty.serializeVle x).pos = max 1 ((x.size + 6) / 7)) ∧
    (∀ (ar : Serial) (x : Int), 0 ≤ x →
      ∃ fuel, ar.serializeVleSigned fuel x = some (ar.serializeVle x.toNat)) := by
  refine ⟨fun vs hvs => ⟨?_, ?_⟩, fun w x hx => ⟨?_, ?_⟩, fun ar x hx => ?_⟩
  · exact writeAll_readAll Serial.empty vs (Nat.zero_le _) hvs
  · simp [writeAll_eq, Serial.rawWrite, Serial.empty]
  · rw [serializeVle_eq]
    have hd : (Serial.empty.rawWrite (Leb128.encode x)).setReadingState.data.drop 0 =
        Leb128.encode x ++ [] := by
      simp [Serial.setReadingState, Serial.rawWrite, Serial.empty]
    exact deserializeVle_reads_back hx (Serial.empty.rawWrite (Leb128.encode x)).setReadingState
      [] hd
  · rw [serializeVle_eq, ← Leb128.length_encode]
    simp [Serial.rawWrite, Serial.empty]
  · exact ⟨_, serializeVleSigned_of_nonneg _ ar x hx le_rfl⟩

theorem serial_round_trip_at_small_values :
    let vs : List (Σ t : Ty, t.Val) :=
      [⟨.list (.pair (.bitcopy 1) (.vector (.bitcopy 2))), [(⟨[7], rfl⟩, [⟨[1, 2], rfl⟩])]⟩]
    ((∀ v ∈ vs, v.1.SizesFit v.2) ∧
      (Serial.empty.writeAll vs).setReadingState.readAll (vs.map Sigma.fst) =
        some (vs, { Serial.empty.writeAll vs with isWriting := false })) ∧
    (300 < 2 ^ 16 ∧
      (Serial.empty.serializeVle 300).setReadingState.deserializeVle 16 =
        some (300, { Serial.empty.serializeVle 300 with isWriting := false })) ∧
    ((0 : Int) ≤ 300 ∧
      ∃ fuel, Serial.empty.serializeVleSigned fuel 300 = some (Serial.empty.serializeVle 300)) := by
  intro vs
  have hvs : ∀ v ∈ vs, v.1.SizesFit v.2 := by simp [vs, Ty.SizesFit, uszBits]; decide
  exact ⟨⟨hvs, (serial_round_trip.1 vs hvs).1⟩, ⟨by decide, (serial_round_trip.2.1 16 300 (by decide)).1⟩,
    ⟨by decide, serial_round_trip.2.2 Serial.empty 300 (by decide)⟩⟩

end Rpcs3.Util.Serialization
