import Mathlib
import Rpcs3.Emu.Vfs
import Rpcs3.Lib.Path

/-! TAR extraction (`rpcs3/Loader/TAR.cpp`), for an archive read from a file. The scan reads
one 512-byte header after another into a map sorted by entry name, and `extract` joins each
name to the destination with `/`, through `vfs::get` in VFS mode. Nothing between the two
stops a name from climbing out with `..`: in VFS mode `get` resolves it across mount points,
on the host the file system does (`tar_extract_escapes`, `tar_extract_host_escapes`). Paths
are those of a POSIX host, where `/` is the only separator. -/
namespace Rpcs3.Loader.Tar
open Rpcs3.Emu

/-- `umax` at 64 bits. -/
def umax : ℕ := 2 ^ 64 - 1

/-- `octal_text_to_u64`: the octal number at the start of `sv`, which must end at a NUL or a
space inside the field; `umax` otherwise, as `from_chars` leaves the value alone without a
digit or on overflow. -/
def octalTextToU64 (sv : List UInt8) : ℕ :=
  let digits := sv.takeWhile fun b => 0x30 ≤ b ∧ b ≤ 0x37
  let value := digits.foldl (fun n b => 8 * n + (b - 0x30).toNat) 0
  if digits = [] ∨ umax < value then umax
  else
    match sv.drop digits.length with
    | [] => umax
    | b :: _ => if b ≠ 0 ∧ b ≠ 0x20 then umax else value

/-- The fields of `TARHeader` the loader reads. -/
structure Header where
  name : List UInt8
  size : List UInt8
  mtime : List UInt8
  filetype : UInt8
  magic : List UInt8
  prefixName : List UInt8
  padding : List UInt8

/-- `read_header`: the header at `offset`, zeroed when the file ends before it does. -/
def readHeader (file : List UInt8) (offset : ℕ) : Header :=
  let read := (file.drop offset).take 512
  let block := if read.length = 512 then read else List.replicate 512 0
  { name := block.take 100
    size := (block.drop 124).take 12
    mtime := (block.drop 136).take 12
    filetype := block.getD 156 0
    magic := (block.drop 257).take 6
    prefixName := (block.drop 345).take 155
    padding := (block.drop 500).take 12 }

/-- A field up to its first NUL. -/
def cstr (field : List UInt8) : List UInt8 := field.takeWhile (· ≠ 0)

/-- `emplace_single_entry`: the size the header at `offset` gives (`umax` without the `ustar`
magic) and, when it passes the checks, the entry's name (`prefix` then `name`). -/
def emplaceSingleEntry (file : List UInt8) (offset maxSize : ℕ) :
    ℕ × Option (List UInt8 × Header) :=
  let header := readHeader file offset
  let offset := offset + 512
  if header.magic.take 5 = Vfs.ascii "ustar" then
    let size := octalTextToU64 header.size
    if (header.name.headD 0 ≠ 0 ∨ header.prefixName.headD 0 ≠ 0) ∧ 512 ≤ umax - size ∧
        size ≤ maxSize ∧ offset ≤ maxSize - size then
      (size, some (cstr header.prefixName ++ cstr header.name, header))
    else (size, none)
  else (umax, none)

/-- `m_map.insert_or_assign`, on a map kept sorted by name. -/
def insertOrAssign {α : Type} : List (List UInt8 × α) → List UInt8 → α → List (List UInt8 × α)
  | [], k, v => [(k, v)]
  | (k', v') :: rest, k, v =>
    if k = k' then (k, v) :: rest
    else if k < k' then (k, v) :: (k', v') :: rest
    else (k', v') :: insertOrAssign rest k v

section InsertOrAssign

variable {α : Type} {map : List (List UInt8 × α)} {k k' : List UInt8} {v : α}

theorem lookup_cons {k₀ : List UInt8} {v₀ : α} {rest : List (List UInt8 × α)} :
    ((k₀, v₀) :: rest).lookup k' = if k' = k₀ then some v₀ else rest.lookup k' := by
  by_cases h : k' = k₀
  · subst h
    simp [List.lookup]
  · have hb : (k' == k₀) = false := by simpa using h
    simp [List.lookup, hb, h]

/-- After `insert_or_assign`, `k` finds the new value and every other name what it found before:
the entries before the place of `k` all have smaller names. -/
theorem lookup_insertOrAssign : (insertOrAssign map k v).lookup k' = if k' = k then some v else map.lookup k' := by
  induction map with
  | nil => simp [insertOrAssign, lookup_cons, List.lookup]
  | cons e rest ih =>
    obtain ⟨k₀, v₀⟩ := e
    simp only [insertOrAssign]
    split_ifs with h₁ h₂ <;> by_cases h : k' = k <;> simp_all [lookup_cons]

theorem mem_keys_insertOrAssign : k' ∈ (insertOrAssign map k v).map Prod.fst ↔ k' = k ∨ k' ∈ map.map Prod.fst := by
  induction map with
  | nil => simp [insertOrAssign]
  | cons e rest ih =>
    obtain ⟨k₀, v₀⟩ := e
    simp only [insertOrAssign]
    split_ifs with h₁ h₂
    · subst h₁
      simp
    · simp
    · simp only [List.map_cons, List.mem_cons, ih]
      tauto

/-- `insert_or_assign` keeps the names of the map in increasing order, each once. -/
theorem pairwise_insertOrAssign (h : (map.map Prod.fst).Pairwise (· < ·)) :
    ((insertOrAssign map k v).map Prod.fst).Pairwise (· < ·) := by
  induction map with
  | nil => simp [insertOrAssign]
  | cons e rest ih =>
    obtain ⟨k₀, v₀⟩ := e
    simp only [List.map_cons, List.pairwise_cons] at h
    obtain ⟨hlt, hrest⟩ := h
    simp only [insertOrAssign]
    split_ifs with h₁ h₂
    · subst h₁
      simp only [List.map_cons, List.pairwise_cons]
      exact ⟨hlt, hrest⟩
    · -- `k` goes before `k₀`, and so before every later name
      simp only [List.map_cons, List.pairwise_cons, List.mem_cons]
      exact ⟨fun x hx => hx.elim (· ▸ h₂) fun hx => List.lt_trans h₂ (hlt x hx), hlt, hrest⟩
    · -- `k` goes after `k₀`
      have hk : k₀ < k := Std.lt_of_le_of_ne (List.not_lt.mp h₂) (Ne.symm h₁)
      simp only [List.map_cons, List.pairwise_cons]
      refine ⟨fun x hx => ?_, ih hrest⟩
      rcases mem_keys_insertOrAssign.mp hx with rfl | hx
      · exact hk
      · exact hlt x hx

end InsertOrAssign

/-- `utils::align` to 512 bytes. -/
def align512 (size : ℕ) : ℕ := (size + 511) / 512 * 512

/-- The scan of `get_file("")` from `offset` on: each turn reads a header and skips the data
of the entries that give a size. `m_map` holds, for each name, the offset of its data and the
header; the source caches the parsed size in the header's `size` field, which the model parses
again when it needs it. -/
def scan (file : List UInt8) :
    ℕ → ℕ → List (List UInt8 × ℕ × Header) → List (List UInt8 × ℕ × Header)
  | 0, _, map => map
  | fuel + 1, offset, map =>
    if offset < file.length then
      let (size, entry) := emplaceSingleEntry file offset file.length
      let map := match entry with
        | some (name, header) => insertOrAssign map name (offset + 512, header)
        | none => map
      if size = umax then scan file fuel (offset + 512) map
      else scan file fuel (offset + 512 + align512 size) map
    else map

/-- The entries of an archive in a file, by name; every turn of the scan moves on by at least
one header. -/
def entries (file : List UInt8) : List (List UInt8 × ℕ × Header) :=
  scan file (file.length / 512 + 1) 0 []

/-- `get_filenames`: the names of the map after the scan, in order. -/
def getFilenames (file : List UInt8) : List (List UInt8) := (entries file).map Prod.fst

/-- `get_file(path)` once the archive is scanned: the view of the file at the entry's data offset
with the entry's size; `none` for a name the archive does not hold. -/
def getFile (file path : List UInt8) : Option (List UInt8) :=
  ((entries file).lookup path).map fun e => (file.drop e.1).take (octalTextToU64 e.2.size)

/-- `fs::get_parent_dir_view` with one level: each `.` it meets costs one more level, each
`..` two. -/
def getParentDir (path : List UInt8) : List UInt8 :=
  finish (loop (path.length + 1) path 1)
where
  trim (p : List UInt8) : List UInt8 := (p.reverse.dropWhile (· = 0x2F)).reverse
  finish (p : List UInt8) : List UInt8 := if trim p = [] then [0x2F] else trim p
  loop : ℕ → List UInt8 → ℕ → List UInt8
    | 0, result, _ => result
    | _, result, 0 => result
    | fuel + 1, result, toRemove + 1 =>
      let result := trim result
      if result = [] then [0x2F]
      else
        let elem := (result.reverse.takeWhile (· ≠ 0x2F)).reverse
        if elem.length = result.length then result
        else
          let toRemove :=
            if elem = [0x2E] then toRemove + 1
            else if elem = [0x2E, 0x2E] then toRemove + 2 else toRemove
          loop fuel (result.take (result.length - elem.length)) toRemove

/-- What extraction does to the host file system. -/
inductive Effect where
  | createPath (path : List UInt8)
  | writeFile (path : List UInt8)
  | setTime (path : List UInt8)
  deriving DecidableEq

/-- The path an effect touches. -/
def Effect.path : Effect → List UInt8
  | .createPath p | .writeFile p | .setTime p => p

/-- One entry of `extract`: its effects, or `none` where extraction stops with `false`. File
system calls are taken to succeed. -/
def extractEntry (get : List UInt8 → List UInt8) (prefixPath : List UInt8) (isVfs : Bool)
    (name : List UInt8) (header : Header) : Option (List Effect) :=
  -- names holding `＄` are read but not written
  let shouldIgnore := [0xEF, 0xBC, 0x84] <:+: name
  let (result, isVfs) :=
    if prefixPath ≠ [] then (prefixPath ++ 0x2F :: name, isVfs) else (0x2F :: name, true)
  let result := if isVfs then get result else result
  if isVfs ∧ result = [] then none
  else
    let mtime := octalTextToU64 header.mtime
    let retime := if mtime ≠ umax then [Effect.setTime result] else []
    if header.filetype = 0 ∨ header.filetype = 0x30 then
      let parent := if prefixPath ≠ [] then [Effect.createPath (getParentDir result)] else []
      if shouldIgnore then some parent else some (parent ++ Effect.writeFile result :: retime)
    else if header.filetype = 0x35 then
      if shouldIgnore then some [] else some (Effect.createPath result :: retime)
    else none

/-- `tar_object::extract` over the entries in map order: the effects, and whether it
succeeded. -/
def extractAll (get : List UInt8 → List UInt8) (prefixPath : List UInt8) (isVfs : Bool) :
    List (List UInt8 × ℕ × Header) → List Effect × Bool
  | [] => ([], true)
  | (name, _, header) :: rest =>
    match extractEntry get prefixPath isVfs name header with
    | none => ([], false)
    | some effects =>
      let (more, ok) := extractAll get prefixPath isVfs rest
      (effects ++ more, ok)

/-- `tar_object::extract` for an archive in `file`, resolving VFS paths under the mount tree
`root`. -/
def extract (configDir : List UInt8) (root : Vfs.Dir) (file prefixPath : List UInt8)
    (isVfs : Bool) : List Effect × Bool :=
  extractAll (Vfs.get configDir root) prefixPath isVfs (entries file)

/-- An effect confined to the host directory `dir`: its path lies beneath `dir` once `.` and
`..` are resolved. -/
def Confined (dir : List UInt8) (e : Effect) : Prop :=
  Path.Beneath 0x2F [0x2E] [0x2E, 0x2E] dir e.path

instance (dir : List UInt8) (e : Effect) : Decidable (Confined dir e) :=
  inferInstanceAs (Decidable (Path.Beneath _ _ _ _ _))

/-- A field of `n` bytes holding `s`, NUL-padded. -/
def field (s : String) (n : ℕ) : List UInt8 := (Vfs.ascii s ++ List.replicate n 0).take n

/-- A `ustar` header of an empty regular file named `name`, with time 0. -/
def fileHeader (name : String) : List UInt8 :=
  field name 100 ++ List.replicate 24 0 ++ field "00000000000" 12 ++ field "00000000000" 12 ++
    List.replicate 8 0 ++ [0x30] ++ List.replicate 100 0 ++ field "ustar" 6 ++
    List.replicate 82 0 ++ List.replicate 155 0 ++ List.replicate 12 0

/-- The mounts of a firmware extraction: `/dev_flash`, and `/pup_extract` on the user's
directory. -/
def pupMounts : Vfs.Dir :=
  .mk [] [(Vfs.ascii "dev_flash", .mk (Vfs.ascii "/home/u/.config/rpcs3/dev_flash/") []),
    (Vfs.ascii "pup_extract", .mk (Vfs.ascii "/home/u/pup/") [])]

theorem tar_extract_escapes :
    extract (Vfs.ascii "/cfg/") pupMounts (fileHeader "../dev_flash/sys/evil")
        (Vfs.ascii "/pup_extract") true =
      ([.createPath (Vfs.ascii "/home/u/.config/rpcs3/dev_flash/sys"),
        .writeFile (Vfs.ascii "/home/u/.config/rpcs3/dev_flash/sys/evil"),
        .setTime (Vfs.ascii "/home/u/.config/rpcs3/dev_flash/sys/evil")], true) ∧
    Vfs.get (Vfs.ascii "/cfg/") pupMounts (Vfs.ascii "/pup_extract") = Vfs.ascii "/home/u/pup/" ∧
    ¬ Confined (Vfs.ascii "/home/u/pup/")
      (.writeFile (Vfs.ascii "/home/u/.config/rpcs3/dev_flash/sys/evil")) := by
  decide +kernel

theorem tar_extract_host_escapes :
    extract (Vfs.ascii "/cfg/") pupMounts (fileHeader "../evil") (Vfs.ascii "/home/u/save")
        false =
      ([.createPath (Vfs.ascii "/home/u/save/.."), .writeFile (Vfs.ascii "/home/u/save/../evil"),
        .setTime (Vfs.ascii "/home/u/save/../evil")], true) ∧
    ¬ Confined (Vfs.ascii "/home/u/save") (.writeFile (Vfs.ascii "/home/u/save/../evil")) := by
  decide +kernel

end Rpcs3.Loader.Tar
