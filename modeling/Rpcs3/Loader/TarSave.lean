import Mathlib
import Rpcs3.Loader.Tar
import Rpcs3.Lib.Digits

/-! `tar_object::save_directory` (`rpcs3/Loader/TAR.cpp`) without a `process_func`, for a host
directory tree, and what the reader of `Tar` makes of its archive. Each entry is a 512-byte
header, with the path relative to the source directory split into `prefix` and `name` and the
numbers written in octal, followed for a file by its bytes padded to a multiple of 512.

`System.cpp` saves in two passes: a first pass with a null serializer only records the entries,
a second writes them. Read back, that archive holds exactly the entries of the tree, under their
relative paths, with each file's bytes and with the size and times of every entry. A call that
writes to a real serializer without recorded entries fails its `ensure(!entries.empty())` before
it writes anything. -/
namespace Rpcs3.Loader.Tar
open Rpcs3.Emu Digits

/-- The fields of `fs::stat_t` that `save_directory` reads. -/
structure Stat where
  isDirectory : Bool
  size : ℕ
  mtime : ℕ
  atime : ℕ

mutual
/-- A host file system tree: a file with its bytes, or a directory with its entries. -/
inductive Tree where
  | file (mtime atime : ℕ) (data : List UInt8)
  | dir (mtime atime : ℕ) (listing : Listing)
/-- The entries of a directory in the order `fs::dir` lists them, `.` and `..` left out. -/
inductive Listing where
  | nil
  | cons (name : List UInt8) (entry : Tree) (rest : Listing)
end

/-- What `fs::get_stat` or `fs::dir` report for a tree; a directory's size is not read. -/
def Tree.stat : Tree → Stat
  | .file mtime atime data => ⟨false, data.length, mtime, atime⟩
  | .dir mtime atime _ => ⟨true, 0, mtime, atime⟩

/-- The bytes of a file, nothing for a directory. -/
def Tree.data : Tree → List UInt8
  | .file _ _ data => data
  | .dir .. => []

/-- A `fs::dir_entry`, with the bytes `save_file` reads from the file it names. -/
structure DirEntry where
  name : List UInt8
  stat : Stat
  data : List UInt8

/-- The `utils::serial` being written: its bytes and `pos`; a null serializer (the first pass)
only moves `pos`. -/
structure Serial where
  isNull : Bool
  data : List UInt8
  pos : ℕ

/-! ### The header -/

/-- `write_octal` into a 12-byte field: `i` in octal from the start of the field,
`ceil(bit_width(i) / 3)` digits (a single `0` for zero), the rest of the zeroed field left. -/
def writeOctal (i : ℕ) : List UInt8 :=
  let digits := if i = 0 then [0x30] else
    (digitsBE 8 ((Nat.log2 i + 1 + 2) / 3) i).map fun d => UInt8.ofNat (0x30 + d)
  (digits ++ List.replicate 12 0).take 12

/-- A field of `n` bytes holding `bytes` after a `memcpy` into the zeroed header. -/
def zeroPad (bytes : List UInt8) (n : ℕ) : List UInt8 := bytes ++ List.replicate (n - bytes.length) 0

/-- The 512 bytes of the `TARHeader` that `save_header` serializes: zeroed, then `magic`, the
path split into `prefix` (`clamp(size, 100, 255) - 100` bytes) and `name` (the rest, up to 255),
`size` (0 for a directory), `mtime`, the access time in `padding`, and `filetype`. -/
def headerBytes (savedPath : List UInt8) (stat : Stat) : List UInt8 :=
  let prefixSize := min (max savedPath.length 100) 255 - 100
  let nameSize := min savedPath.length 255 - prefixSize
  zeroPad ((savedPath.drop prefixSize).take nameSize) 100 ++ List.replicate 24 0 ++
    writeOctal (if stat.isDirectory then 0 else stat.size) ++ writeOctal stat.mtime ++
    List.replicate 8 0 ++ [if stat.isDirectory then 0x35 else 0x30] ++ List.replicate 100 0 ++
    Vfs.ascii "ustar " ++ List.replicate 82 0 ++ zeroPad (savedPath.take prefixSize) 155 ++
    writeOctal stat.atime

/-- The path `save_header` stores for `name`: past the source directory, without its leading
`/`, or `/` for the source directory itself. -/
def savedPath (srcDirPos : ℕ) (name : List UInt8) : List UInt8 :=
  match (name.drop srcDirPos).dropWhile (· = 0x2F) with
  | [] => [0x2F]
  | p => p

/-- `save_header`. -/
def saveHeader (srcDirPos : ℕ) (ar : Serial) (stat : Stat) (name : List UInt8) : Serial :=
  if ar.isNull then { ar with pos := ar.pos + 512 }
  else { ar with data := ar.data ++ headerBytes (savedPath srcDirPos name) stat, pos := ar.pos + 512 }

/-- `save_file` without a `process_func`: nothing for an empty file; otherwise the file's bytes
and zeros up to a multiple of 512, or only the move of `pos` on a null serializer. -/
def saveFile (ar : Serial) (e : DirEntry) : Serial :=
  if e.stat.size = 0 then ar
  else if ar.isNull then { ar with pos := ar.pos + align512 e.stat.size }
  else
    { ar with
      data := ar.data ++ e.data ++ List.replicate (align512 e.data.length - e.data.length) 0
      pos := ar.pos + align512 e.data.length }

/-! ### `save_directory` -/

/-- The entries `save_directory` passes over: names of dots only (`.`, `..`), and names that
start with `＄`. -/
def skipName (name : List UInt8) : Bool :=
  name.all (· = 0x2E) || [0xEF, 0xBC, 0x84].isPrefixOf name

/-- The path of an entry of `target_path`: `target_path + name`, with a `/` between unless
`target_path` ends with one. -/
def joinPath (targetPath name : List UInt8) : List UInt8 :=
  if targetPath.getLast? = some 0x2F then targetPath ++ name else targetPath ++ 0x2F :: name

mutual
/-- `save_directory` with `has_evaluated_results == false` at `target_path`, whose tree is `t`:
the header of `t` (from `get_stat` in the first call, which the first pass also records, and from
`entries.back()` in the recursive ones), then the entries of a directory or the bytes of a file.
The `ensure`s on this path hold: the recursive calls have `entries.back()`, and `fs::dir` also
lists `.` and `..`, so `exists` is set. -/
def walk (srcDirPos : ℕ) (targetPath : List UInt8) :
    Tree → Serial → List DirEntry → Serial × List DirEntry
  | .file mtime atime data, ar, entries =>
    let e : DirEntry := ⟨targetPath, ⟨false, data.length, mtime, atime⟩, data⟩
    let ar' := saveHeader srcDirPos ar e.stat targetPath
    (saveFile ar' e, if entries = [] ∧ ar.isNull then entries ++ [e] else entries)
  | .dir mtime atime listing, ar, entries =>
    let stat : Stat := ⟨true, 0, mtime, atime⟩
    walkListing srcDirPos targetPath listing (saveHeader srcDirPos ar stat targetPath)
      (if entries = [] ∧ ar.isNull then entries ++ [⟨targetPath, stat, []⟩] else entries)

/-- The loop over `fs::dir(target_path)`: a file gets its header and bytes and joins `entries`;
a directory joins `entries` (cleared first on a real serializer) and is saved by the recursive
call. -/
def walkListing (srcDirPos : ℕ) (targetPath : List UInt8) :
    Listing → Serial → List DirEntry → Serial × List DirEntry
  | .nil, ar, entries => (ar, entries)
  | .cons name t rest, ar, entries =>
    if skipName name then walkListing srcDirPos targetPath rest ar entries
    else
      let path := joinPath targetPath name
      match t with
      | .file mtime atime data =>
        let e : DirEntry := ⟨path, ⟨false, data.length, mtime, atime⟩, data⟩
        walkListing srcDirPos targetPath rest (saveFile (saveHeader srcDirPos ar e.stat path) e)
          (entries ++ [e])
      | .dir mtime atime _ =>
        let r := walk srcDirPos path t ar
          ((if ar.isNull then entries else []) ++ [⟨path, ⟨true, 0, mtime, atime⟩, []⟩])
        walkListing srcDirPos targetPath rest r.1 r.2
end

/-- `save_directory` with `has_evaluated_results`: the header of every recorded entry and the
bytes of every file, after `ensure(entry.name.starts_with(target_path))`. -/
def saveEntries (srcDirPos : ℕ) (targetPath : List UInt8) : List DirEntry → Serial → Option Serial
  | [], ar => some ar
  | e :: rest, ar =>
    if targetPath.isPrefixOf e.name then
      let ar := saveHeader srcDirPos ar e.stat e.name
      saveEntries srcDirPos targetPath rest (if e.stat.isDirectory then ar else saveFile ar e)
    else none

/-- `tar_object::save_directory(target_path, ar, {}, entries, has_evaluated_results)` for the
tree `root` at `target_path`; `none` where an `ensure` fails. -/
def saveDirectory (targetPath : List UInt8) (root : Tree) (ar : Serial) (entries : List DirEntry)
    (hasEvaluatedResults : Bool) : Option (Serial × List DirEntry) :=
  if (!ar.isNull || hasEvaluatedResults) && entries.isEmpty then none
  else if hasEvaluatedResults then
    (saveEntries targetPath.length targetPath entries ar).map fun ar => (ar, entries)
  else some (walk targetPath.length targetPath root ar entries)

/-- The two passes of `System.cpp`: the entries from a run on a null serializer, then a run on
`ar` that saves them. -/
def saveTwoPass (targetPath : List UInt8) (root : Tree) (ar : Serial) : Option Serial := do
  let (_, entries) ← saveDirectory targetPath root ⟨true, [], 0⟩ [] false
  let (ar, _) ← saveDirectory targetPath root ar entries true
  pure ar

/-! ### Octal numbers read back -/

section Octal

/-- The byte of an octal digit: within `'0'..'7'`, and it reads back as the digit. -/
theorem octal_digit_byte {d : ℕ} (hd : d < 8) :
    (0x30 ≤ UInt8.ofNat (0x30 + d) ∧ UInt8.ofNat (0x30 + d) ≤ 0x37) ∧
      (UInt8.ofNat (0x30 + d) - 0x30).toNat = d := by
  interval_cases d <;> decide

/-- `octal_text_to_u64` reads octal digits that a NUL ends. -/
theorem octalTextToU64_digits {ds : List ℕ} (hds : ∀ d ∈ ds, d < 8) (hne : ds ≠ [])
    (hv : ofDigitsBE 8 ds ≤ umax) {rest : List UInt8} (hrest : rest.head? = some 0) :
    octalTextToU64 (ds.map (fun d => UInt8.ofNat (0x30 + d)) ++ rest) = ofDigitsBE 8 ds := by
  obtain ⟨rest, rfl⟩ : ∃ r, rest = 0 :: r := by
    cases rest with
    | nil => simp at hrest
    | cons b r => simp only [List.head?_cons, Option.some.injEq] at hrest; exact ⟨r, by rw [hrest]⟩
  have htake : (ds.map (fun d => UInt8.ofNat (0x30 + d)) ++ 0 :: rest).takeWhile
      (fun b => decide (0x30 ≤ b ∧ b ≤ 0x37)) = ds.map (fun d => UInt8.ofNat (0x30 + d)) := by
    rw [List.takeWhile_append_of_pos]
    · simp
    · intro b hb
      obtain ⟨d, hd, rfl⟩ := List.mem_map.mp hb
      simpa using (octal_digit_byte (hds d hd)).1
  have hfold : (ds.map (fun d => UInt8.ofNat (0x30 + d))).foldl (fun n b => 8 * n + (b - 0x30).toNat) 0 =
      ofDigitsBE 8 ds := by
    rw [List.foldl_map, ofDigitsBE]
    apply List.foldl_ext
    intro v d hd
    rw [(octal_digit_byte (hds d hd)).2, Nat.mul_comm]
  simp only [octalTextToU64, htake, hfold, List.map_eq_nil_iff, hne, false_or, not_lt.mpr hv,
    ↓reduceIte, List.drop_left, ne_eq, not_true_eq_false, false_and]

/-- The digits `write_octal` places, in a field that a NUL ends. -/
theorem writeOctal_eq {i : ℕ} (hi : i < 8 ^ 11) :
    ∃ ds : List ℕ, (∀ d ∈ ds, d < 8) ∧ ds ≠ [] ∧ ds.length ≤ 11 ∧ ofDigitsBE 8 ds = i ∧
      writeOctal i = ds.map (fun d => UInt8.ofNat (0x30 + d)) ++ List.replicate (12 - ds.length) 0 := by
  by_cases h0 : i = 0
  · subst h0
    exact ⟨[0], by simp, by simp, by simp, rfl, by decide⟩
  · -- `ceil(bit_width(i) / 3)` digits hold `i`, and there are at most 11 of them
    have hlog : Nat.log2 i < 33 := (Nat.log2_lt h0).mpr (by simpa using hi)
    have hlt : i < 8 ^ ((Nat.log2 i + 1 + 2) / 3) := by
      calc i < 2 ^ (Nat.log2 i + 1) := Nat.lt_log2_self
        _ ≤ 2 ^ (3 * ((Nat.log2 i + 1 + 2) / 3)) := Nat.pow_le_pow_right two_pos (by omega)
        _ = 8 ^ ((Nat.log2 i + 1 + 2) / 3) := by rw [Nat.pow_mul]
    refine ⟨digitsBE 8 ((Nat.log2 i + 1 + 2) / 3) i, fun d hd => digitsBE_lt (by norm_num) hd,
      List.ne_nil_of_length_pos (by rw [length_digitsBE]; omega), by rw [length_digitsBE]; omega,
      by rw [ofDigitsBE_digitsBE, Nat.mod_eq_of_lt hlt], ?_⟩
    rw [writeOctal, if_neg h0, List.take_append, List.take_of_length_le (by simp; omega),
      List.take_replicate, List.length_map, length_digitsBE]
    congr 2
    omega

theorem length_writeOctal (i : ℕ) : (writeOctal i).length = 12 := by
  simp [writeOctal]

/-- A number below `8 ^ 11` that `write_octal` writes reads back. -/
theorem octalTextToU64_writeOctal {i : ℕ} (hi : i < 8 ^ 11) : octalTextToU64 (writeOctal i) = i := by
  obtain ⟨ds, hds, hne, hlen, hval, hw⟩ := writeOctal_eq hi
  have hrest : (List.replicate (12 - ds.length) (0 : UInt8)).head? = some 0 := by
    rw [show 12 - ds.length = (11 - ds.length) + 1 by omega, List.replicate_succ, List.head?_cons]
  rw [hw, octalTextToU64_digits hds hne (by rw [hval, umax]; omega) hrest, hval]

end Octal

/-! ### A header read back -/

section Header

/-- The fields of `headerBytes` as `read_header` cuts them out. -/
def headerFields (savedPath : List UInt8) (stat : Stat) : Header :=
  let prefixSize := min (max savedPath.length 100) 255 - 100
  let nameSize := min savedPath.length 255 - prefixSize
  { name := zeroPad ((savedPath.drop prefixSize).take nameSize) 100
    size := writeOctal (if stat.isDirectory then 0 else stat.size)
    mtime := writeOctal stat.mtime
    filetype := if stat.isDirectory then 0x35 else 0x30
    magic := Vfs.ascii "ustar "
    prefixName := zeroPad (savedPath.take prefixSize) 155
    padding := writeOctal stat.atime }

theorem length_zeroPad {bytes : List UInt8} {n : ℕ} (h : bytes.length ≤ n) : (zeroPad bytes n).length = n := by
  simp only [zeroPad, List.length_append, List.length_replicate]
  omega

theorem cstr_zeroPad {bytes : List UInt8} (h : 0 ∉ bytes) (n : ℕ) : cstr (zeroPad bytes n) = bytes := by
  rw [cstr, zeroPad, List.takeWhile_append_of_pos fun b hb => by simpa using ne_of_mem_of_not_mem hb h]
  cases n - bytes.length with
  | zero => simp
  | succ k => simp [List.replicate_succ]

theorem length_headerBytes (p : List UInt8) (s : Stat) : (headerBytes p s).length = 512 := by
  simp only [headerBytes, List.length_append, List.length_replicate, length_writeOctal, List.length_singleton]
  rw [length_zeroPad (by simp), length_zeroPad (by simp)]
  rfl

/-- The fields of a block laid out as `TARHeader` is, cut out at their offsets. -/
theorem header_layout {n₁ n₂ n₃ n₄ n₅ n₆ n₇ n₈ n₉ n₁₀ n₁₁ : List UInt8} (h₁ : n₁.length = 100)
    (h₂ : n₂.length = 24) (h₃ : n₃.length = 12) (h₄ : n₄.length = 12) (h₅ : n₅.length = 8)
    (h₆ : n₆.length = 1) (h₇ : n₇.length = 100) (h₈ : n₈.length = 6) (h₉ : n₉.length = 82)
    (h₁₀ : n₁₀.length = 155) (h₁₁ : n₁₁.length = 12) :
    (n₁ ++ n₂ ++ n₃ ++ n₄ ++ n₅ ++ n₆ ++ n₇ ++ n₈ ++ n₉ ++ n₁₀ ++ n₁₁).take 100 = n₁ ∧
    ((n₁ ++ n₂ ++ n₃ ++ n₄ ++ n₅ ++ n₆ ++ n₇ ++ n₈ ++ n₉ ++ n₁₀ ++ n₁₁).drop 124).take 12 = n₃ ∧
    ((n₁ ++ n₂ ++ n₃ ++ n₄ ++ n₅ ++ n₆ ++ n₇ ++ n₈ ++ n₉ ++ n₁₀ ++ n₁₁).drop 136).take 12 = n₄ ∧
    (n₁ ++ n₂ ++ n₃ ++ n₄ ++ n₅ ++ n₆ ++ n₇ ++ n₈ ++ n₉ ++ n₁₀ ++ n₁₁).getD 156 0 = n₆.headD 0 ∧
    ((n₁ ++ n₂ ++ n₃ ++ n₄ ++ n₅ ++ n₆ ++ n₇ ++ n₈ ++ n₉ ++ n₁₀ ++ n₁₁).drop 257).take 6 = n₈ ∧
    ((n₁ ++ n₂ ++ n₃ ++ n₄ ++ n₅ ++ n₆ ++ n₇ ++ n₈ ++ n₉ ++ n₁₀ ++ n₁₁).drop 345).take 155 = n₁₀ ∧
    ((n₁ ++ n₂ ++ n₃ ++ n₄ ++ n₅ ++ n₆ ++ n₇ ++ n₈ ++ n₉ ++ n₁₀ ++ n₁₁).drop 500).take 12 = n₁₁ := by
  simp only [List.append_assoc]
  refine ⟨?_, ?_, ?_, ?_, ?_, ?_, ?_⟩ <;>
  simp [List.drop_append, h₁, h₂, h₃, h₄, h₅, h₆, h₇, h₈, h₉, h₁₀, h₁₁,
    List.drop_eq_nil_of_le, List.take_of_length_le, List.getD_eq_getElem?_getD]
  obtain ⟨x, rfl⟩ : ∃ x, n₆ = [x] := List.length_eq_one_iff.mp h₆
  simp

/-- `read_header` at a header that `save_header` wrote. -/
theorem readHeader_of_drop {file rest p : List UInt8} {offset : ℕ} {s : Stat}
    (h : file.drop offset = headerBytes p s ++ rest) : readHeader file offset = headerFields p s := by
  have hlen := length_headerBytes p s
  obtain ⟨h₁, h₃, h₄, h₆, h₈, h₁₀, h₁₁⟩ := header_layout
    (@length_zeroPad ((p.drop (min (max p.length 100) 255 - 100)).take
      (min p.length 255 - (min (max p.length 100) 255 - 100))) 100 (by simp))
    (List.length_replicate (n := 24) (a := (0 : UInt8))) (length_writeOctal _) (length_writeOctal s.mtime)
    (List.length_replicate (n := 8) (a := (0 : UInt8)))
    (List.length_singleton (a := if s.isDirectory then (0x35 : UInt8) else 0x30))
    (List.length_replicate (n := 100) (a := (0 : UInt8))) (show (Vfs.ascii "ustar ").length = 6 from rfl)
    (List.length_replicate (n := 82) (a := (0 : UInt8)))
    (@length_zeroPad (p.take (min (max p.length 100) 255 - 100)) 155 (by simp))
    (length_writeOctal s.atime)
  rw [readHeader, h, List.take_left' hlen, if_pos hlen]
  simp only [headerBytes] at h₁ h₃ h₄ h₆ h₈ h₁₀ h₁₁ ⊢
  rw [h₁, h₃, h₄, h₆, h₈, h₁₀, h₁₁]
  rfl

/-- The name the reader puts together from `prefix` and `name` is the saved path. -/
theorem cstr_prefix_name {p : List UInt8} (hlen : p.length ≤ 255) (h0 : 0 ∉ p) (s : Stat) :
    cstr (headerFields p s).prefixName ++ cstr (headerFields p s).name = p := by
  simp only [headerFields]
  rw [cstr_zeroPad (fun h => h0 (List.mem_of_mem_take h)),
    cstr_zeroPad (fun h => h0 (List.mem_of_mem_drop (List.mem_of_mem_take h)))]
  -- the name part is all of the path past the prefix
  have hrest : (p.drop (min (max p.length 100) 255 - 100)).take
      (min p.length 255 - (min (max p.length 100) 255 - 100)) = p.drop (min (max p.length 100) 255 - 100) :=
    List.take_of_length_le (by simp only [List.length_drop]; omega)
  rw [hrest, List.take_append_drop]

/-- A nonempty saved path puts a byte other than NUL first in `name` or in `prefix`. -/
theorem headD_name_or_prefixName {p : List UInt8} (hne : p ≠ []) (h0 : 0 ∉ p) (s : Stat) :
    (headerFields p s).name.headD 0 ≠ 0 ∨ (headerFields p s).prefixName.headD 0 ≠ 0 := by
  obtain ⟨b, q, rfl⟩ := List.exists_cons_of_ne_nil hne
  have hb : b ≠ 0 := fun hb => h0 (hb ▸ List.mem_cons_self)
  simp only [headerFields]
  by_cases hshort : (b :: q).length ≤ 100
  · left
    rw [show min (max (b :: q).length 100) 255 - 100 = 0 by omega, List.drop_zero,
      List.take_of_length_le (by omega)]
    simpa [zeroPad] using hb
  · right
    rw [show min (max (b :: q).length 100) 255 - 100 = (min (b :: q).length 255 - 100 - 1) + 1 by omega,
      List.take_succ_cons]
    simpa [zeroPad] using hb

end Header

/-! ### The scan of an archive the second pass wrote -/

section Scan

/-- What the second pass writes for an entry: its header, then a file's bytes padded to a
multiple of 512. -/
def entryBytes (srcDirPos : ℕ) (e : DirEntry) : List UInt8 :=
  headerBytes (savedPath srcDirPos e.name) e.stat ++
    if e.stat.isDirectory ∨ e.stat.size = 0 then []
    else e.data ++ List.replicate (align512 e.data.length - e.data.length) 0

/-- An entry that reads back: a saved path of at most 255 bytes without NUL, numbers below
`8 ^ 11`, a file holding its size in bytes, and a directory with size 0 and no bytes. -/
structure EntryOk (srcDirPos : ℕ) (e : DirEntry) : Prop where
  path_length : (savedPath srcDirPos e.name).length ≤ 255
  path_nul : 0 ∉ savedPath srcDirPos e.name
  size_lt : e.stat.size < 8 ^ 11
  mtime_lt : e.stat.mtime < 8 ^ 11
  atime_lt : e.stat.atime < 8 ^ 11
  data_length : e.data.length = e.stat.size
  dir_empty : e.stat.isDirectory → e.stat.size = 0

theorem savedPath_ne_nil (srcDirPos : ℕ) (name : List UInt8) : savedPath srcDirPos name ≠ [] := by
  unfold savedPath
  split <;> simp_all

theorem le_align512 (size : ℕ) : size ≤ align512 size := by
  unfold align512
  omega

variable {n : ℕ} {e : DirEntry}

theorem length_entryBytes (he : EntryOk n e) : (entryBytes n e).length = 512 + align512 e.stat.size := by
  have hal := le_align512 e.stat.size
  rw [entryBytes, List.length_append, length_headerBytes]
  split
  · rename_i h
    rcases h with h | h
    · simp [he.dir_empty h, align512]
    · simp [h, align512]
  · simp only [List.length_append, List.length_replicate, he.data_length]
    omega

/-- The size field of a written entry reads back as its size, 0 for a directory. -/
theorem octalTextToU64_size (he : EntryOk n e) (p : List UInt8) :
    octalTextToU64 (headerFields p e.stat).size = e.stat.size := by
  have hlt : (if e.stat.isDirectory then 0 else e.stat.size) < 8 ^ 11 := by
    split
    · positivity
    · exact he.size_lt
  simp only [headerFields]
  rw [octalTextToU64_writeOctal hlt]
  split
  · rename_i hd
    exact (he.dir_empty hd).symm
  · rfl

/-- The entry after a written one starts past its header and its padded bytes. -/
theorem drop_after_entry {file rest : List UInt8} {offset : ℕ} (he : EntryOk n e)
    (h : file.drop offset = entryBytes n e ++ rest) : file.drop (offset + 512 + align512 e.stat.size) = rest := by
  rw [show offset + 512 + align512 e.stat.size = offset + (entryBytes n e).length by
      rw [length_entryBytes he]; omega,
    ← List.drop_drop, h, List.drop_left]

/-- The scan meets a written entry: it reads its size and keeps its saved path and header. -/
theorem emplaceSingleEntry_entry {file rest : List UInt8} {offset : ℕ} (he : EntryOk n e)
    (h : file.drop offset = entryBytes n e ++ rest) :
    emplaceSingleEntry file offset file.length =
      (e.stat.size, some (savedPath n e.name, headerFields (savedPath n e.name) e.stat)) := by
  have hdrop : file.drop offset = headerBytes (savedPath n e.name) e.stat ++
      ((if e.stat.isDirectory ∨ e.stat.size = 0 then []
        else e.data ++ List.replicate (align512 e.data.length - e.data.length) 0) ++ rest) := by
    rw [h, entryBytes, List.append_assoc]
  have hlen : file.length = offset + (entryBytes n e).length + rest.length := by
    have := congrArg List.length h
    rw [List.length_drop, List.length_append] at this
    have := length_entryBytes he
    omega
  have hentry := length_entryBytes he
  have hal := le_align512 e.stat.size
  have hmagic : (headerFields (savedPath n e.name) e.stat).magic.take 5 = Vfs.ascii "ustar" := rfl
  rw [emplaceSingleEntry, readHeader_of_drop hdrop, if_pos hmagic]
  simp only [octalTextToU64_size he]
  rw [if_pos ⟨headD_name_or_prefixName (savedPath_ne_nil n e.name) he.path_nul e.stat,
      by have := he.size_lt; rw [umax]; omega, by omega, by omega⟩,
    cstr_prefix_name he.path_length he.path_nul]

/-- The map that the scan builds from entries laid out from `offset` on. -/
def insertAll (n : ℕ) : ℕ → List DirEntry → List (List UInt8 × ℕ × Header) →
    List (List UInt8 × ℕ × Header)
  | _, [], map => map
  | offset, e :: es, map => insertAll n (offset + 512 + align512 e.stat.size) es
      (insertOrAssign map (savedPath n e.name) (offset + 512, headerFields (savedPath n e.name) e.stat))

/-- The scan over entries the second pass wrote reads each of them in turn. The induction is on
the entries; each step reads one header and skips its data. -/
theorem scan_entries {file : List UInt8} : ∀ (es : List DirEntry) (fuel offset : ℕ) map,
    file.drop offset = es.flatMap (entryBytes n) → (∀ e ∈ es, EntryOk n e) → es.length ≤ fuel →
      scan file fuel offset map = insertAll n offset es map := by
  intro es
  induction es with
  | nil =>
    intro fuel offset map h _ _
    have hend : file.length ≤ offset := by simpa using h
    cases fuel with
    | zero => rfl
    | succ fuel => simp [scan, Nat.not_lt.mpr hend, insertAll]
  | cons e es ih =>
    intro fuel offset map h hok hfuel
    obtain ⟨fuel, rfl⟩ : ∃ f, fuel = f + 1 := ⟨fuel - 1, by simp at hfuel; omega⟩
    have he := hok e List.mem_cons_self
    rw [List.flatMap_cons] at h
    have hlen := length_entryBytes he
    have hlt : offset < file.length := by
      have := congrArg List.length h
      rw [List.length_drop, List.length_append] at this
      omega
    rw [scan, if_pos hlt, emplaceSingleEntry_entry he h]
    simp only [show e.stat.size ≠ umax by have := he.size_lt; rw [umax]; omega, ↓reduceIte]
    exact ih fuel _ _ (drop_after_entry he h) (fun e he => hok e (List.mem_cons_of_mem _ he))
      (by simpa using hfuel)

theorem length_flatMap_entryBytes : ∀ es : List DirEntry, 512 * es.length ≤ (es.flatMap (entryBytes n)).length
  | [] => by simp
  | e :: es => by
    have h₁ : 512 ≤ (entryBytes n e).length := by
      rw [entryBytes, List.length_append, length_headerBytes]
      omega
    have h₂ := length_flatMap_entryBytes es
    rw [List.flatMap_cons, List.length_append, List.length_cons]
    omega

/-- The scan of a file that the second pass wrote meets every entry: each takes at least one
block, so the fuel of `entries` suffices. -/
theorem entries_flatMap {es : List DirEntry} (hok : ∀ e ∈ es, EntryOk n e) :
    entries (es.flatMap (entryBytes n)) = insertAll n 0 es [] := by
  have hlen := length_flatMap_entryBytes (n := n) es
  exact scan_entries es _ 0 [] (by simp) hok (by omega)

/-- What `get_file` views of a written entry, its size in bytes from the data offset on, is its
bytes. -/
theorem take_drop_entry {file rest : List UInt8} {off : ℕ} (he : EntryOk n e)
    (h : file.drop off = entryBytes n e ++ rest) : (file.drop (off + 512)).take e.stat.size = e.data := by
  rw [← List.drop_drop, h, entryBytes, List.append_assoc, List.drop_left' (length_headerBytes _ _)]
  split
  · rename_i hz
    have h0 : e.stat.size = 0 := hz.elim he.dir_empty id
    rw [h0, List.take_zero, eq_comm, ← List.length_eq_zero_iff, he.data_length, h0]
  · rw [List.append_assoc, List.take_left' he.data_length]

section Map

variable {k : List UInt8}

theorem lookup_insertAll_of_notMem : ∀ (es : List DirEntry) (offset : ℕ) map,
    k ∉ es.map (fun e => savedPath n e.name) → (insertAll n offset es map).lookup k = map.lookup k
  | [], _, _, _ => rfl
  | e :: es, offset, map, hk => by
    simp only [List.map_cons, List.mem_cons, not_or] at hk
    rw [insertAll, lookup_insertAll_of_notMem es _ _ hk.2, lookup_insertOrAssign, if_neg hk.1]

theorem mem_keys_insertAll : ∀ (es : List DirEntry) (offset : ℕ) map,
    k ∈ (insertAll n offset es map).map Prod.fst ↔
      k ∈ es.map (fun e => savedPath n e.name) ∨ k ∈ map.map Prod.fst
  | [], _, _ => by simp [insertAll]
  | e :: es, offset, map => by
    rw [insertAll, mem_keys_insertAll es, mem_keys_insertOrAssign, List.map_cons, List.mem_cons]
    tauto

theorem pairwise_keys_insertAll : ∀ (es : List DirEntry) (offset : ℕ) map,
    (map.map Prod.fst).Pairwise (· < ·) → ((insertAll n offset es map).map Prod.fst).Pairwise (· < ·)
  | [], _, _, h => h
  | _ :: es, _, _, h => pairwise_keys_insertAll es _ _ (pairwise_insertOrAssign h)

end Map

/-- Each entry laid out from `offset` on is found under its saved path, with the offset of its
data and the header written for it, when no two entries share a saved path. -/
theorem lookup_insertAll {file : List UInt8} : ∀ (es : List DirEntry) (offset : ℕ) map,
    file.drop offset = es.flatMap (entryBytes n) → (∀ e ∈ es, EntryOk n e) →
    (es.map fun e => savedPath n e.name).Nodup → ∀ e ∈ es, ∃ off rest,
      file.drop off = entryBytes n e ++ rest ∧
      (insertAll n offset es map).lookup (savedPath n e.name) =
        some (off + 512, headerFields (savedPath n e.name) e.stat)
  | [], _, _, _, _, _, _, he => by simp at he
  | e₀ :: es, offset, map, h, hok, hnd, e, he => by
    rw [List.map_cons, List.nodup_cons] at hnd
    rw [List.flatMap_cons] at h
    rcases List.mem_cons.mp he with rfl | he
    · -- the first entry: no later one has its saved path
      refine ⟨offset, _, h, ?_⟩
      rw [insertAll, lookup_insertAll_of_notMem es _ _ hnd.1, lookup_insertOrAssign, if_pos rfl]
    · rw [insertAll]
      exact lookup_insertAll es _ _ (drop_after_entry (hok e₀ List.mem_cons_self) h)
        (fun e he => hok e (List.mem_cons_of_mem _ he)) hnd.2 e he

/-- What the reader makes of the entries the second pass wrote, when no two share a saved path:
their saved paths as its names, and under each the entry's bytes and the header written for it. -/
theorem readBack {es : List DirEntry} (hok : ∀ e ∈ es, EntryOk n e)
    (hnd : (es.map fun e => savedPath n e.name).Nodup) :
    (getFilenames (es.flatMap (entryBytes n))).Perm (es.map fun e => savedPath n e.name) ∧
    ∀ e ∈ es, getFile (es.flatMap (entryBytes n)) (savedPath n e.name) = some e.data ∧
      ∃ off, (entries (es.flatMap (entryBytes n))).lookup (savedPath n e.name) =
        some (off, headerFields (savedPath n e.name) e.stat) := by
  have hentries := entries_flatMap hok
  refine ⟨?_, fun e he => ?_⟩
  · -- the map is sorted, so its names are distinct, and they are the saved paths
    rw [getFilenames, hentries]
    refine (List.perm_ext_iff_of_nodup (pairwise_keys_insertAll es 0 [] List.Pairwise.nil).nodup hnd).mpr
      fun k => ?_
    rw [mem_keys_insertAll]
    simp
  · obtain ⟨off, rest, hdrop, hlook⟩ := lookup_insertAll es 0 [] List.drop_zero hok hnd e he
    refine ⟨?_, off + 512, by rw [hentries, hlook]⟩
    rw [getFile, hentries, hlook, Option.map_some, octalTextToU64_size (hok e he),
      take_drop_entry (hok e he) hdrop]

end Scan

/-! ### The two passes -/

section Passes

@[simp] theorem isNull_saveHeader (n : ℕ) (ar : Serial) (s : Stat) (p : List UInt8) :
    (saveHeader n ar s p).isNull = ar.isNull := by
  unfold saveHeader
  split <;> rfl

@[simp] theorem isNull_saveFile (ar : Serial) (e : DirEntry) : (saveFile ar e).isNull = ar.isNull := by
  unfold saveFile
  split_ifs <;> rfl

/-- How far the null serializer of the first pass moves for an entry: its header, and a file's
bytes padded to a multiple of 512. -/
def nullSize (e : DirEntry) : ℕ := 512 + if e.stat.isDirectory ∨ e.stat.size = 0 then 0 else align512 e.stat.size

mutual
/-- The entries below the entry at `path` in the order the walk meets them: each entry of a
listing, then what lies below it. -/
def Tree.entriesBelow (path : List UInt8) : Tree → List DirEntry
  | .file .. => []
  | .dir _ _ listing => listing.entriesBelow path
/-- The entries of a listing and below them, in the order of the walk. -/
def Listing.entriesBelow (path : List UInt8) : Listing → List DirEntry
  | .nil => []
  | .cons name t rest =>
    if skipName name then rest.entriesBelow path
    else ⟨joinPath path name, t.stat, t.data⟩ :: t.entriesBelow (joinPath path name) ++ rest.entriesBelow path
end

mutual
/-- The first pass: on a null serializer the walk records the entry it starts at when nothing is
recorded yet, then every entry below it, and moves `pos` over all of them. -/
theorem walk_null (n : ℕ) (path : List UInt8) : ∀ (t : Tree) (ar : Serial) (es : List DirEntry),
    ar.isNull = true → (walk n path t ar es).1.isNull = true ∧
      (walk n path t ar es).1.pos = ar.pos + ((⟨path, t.stat, t.data⟩ :: t.entriesBelow path).map nullSize).sum ∧
      (walk n path t ar es).2 = (if es = [] then [⟨path, t.stat, t.data⟩] else es) ++ t.entriesBelow path
  | .file mtime atime data, ar, es, h => by
    refine ⟨by simp [walk, h], ?_, ?_⟩
    · by_cases h0 : data.length = 0 <;>
        simp [walk, saveFile, saveHeader, h, h0, nullSize, Tree.entriesBelow, Tree.stat, Nat.add_assoc]
    · by_cases hes : es = [] <;> simp [walk, hes, h, Tree.entriesBelow, Tree.stat, Tree.data]
  | .dir mtime atime listing, ar, es, h => by
    have hes : (if es = [] ∧ ar.isNull = true then es ++ [⟨path, ⟨true, 0, mtime, atime⟩, []⟩] else es) =
        if es = [] then [⟨path, ⟨true, 0, mtime, atime⟩, []⟩] else es := by
      by_cases h' : es = [] <;> simp [h', h]
    have hpos : (saveHeader n ar ⟨true, 0, mtime, atime⟩ path).pos = ar.pos + 512 := by simp [saveHeader, h]
    obtain ⟨h₁, h₂, h₃⟩ := walkListing_null n path listing (saveHeader n ar ⟨true, 0, mtime, atime⟩ path)
      (if es = [] ∧ ar.isNull = true then es ++ [⟨path, ⟨true, 0, mtime, atime⟩, []⟩] else es) (by simp [h])
    simp only [walk]
    refine ⟨h₁, ?_, ?_⟩
    · rw [h₂, hpos]
      simp [nullSize, Tree.entriesBelow, Tree.stat, Nat.add_assoc]
    · rw [h₃, hes]
      by_cases h' : es = [] <;> simp [h', Tree.entriesBelow, Tree.stat, Tree.data]
/-- The first pass over a listing: every entry not skipped, and what lies below it. -/
theorem walkListing_null (n : ℕ) (path : List UInt8) : ∀ (l : Listing) (ar : Serial) (es : List DirEntry),
    ar.isNull = true → (walkListing n path l ar es).1.isNull = true ∧
      (walkListing n path l ar es).1.pos = ar.pos + ((l.entriesBelow path).map nullSize).sum ∧
      (walkListing n path l ar es).2 = es ++ l.entriesBelow path
  | .nil, ar, es, h => by simp [walkListing, Listing.entriesBelow, h]
  | .cons name t rest, ar, es, h => by
    have ht := walk_null n (joinPath path name) t
    have hrest := walkListing_null n path rest
    by_cases hskip : skipName name
    · simpa [walkListing, Listing.entriesBelow, hskip] using hrest ar es h
    have hskip' : skipName name = false := by simpa using hskip
    cases t with
    | file mtime atime data =>
      -- a file: its header and bytes, and it joins the entries
      obtain ⟨h₁, h₂, h₃⟩ := hrest
        (saveFile (saveHeader n ar ⟨false, data.length, mtime, atime⟩ (joinPath path name))
          ⟨joinPath path name, ⟨false, data.length, mtime, atime⟩, data⟩)
        (es ++ [⟨joinPath path name, ⟨false, data.length, mtime, atime⟩, data⟩]) (by simp [h])
      simp only [walkListing, hskip', Bool.false_eq_true, ↓reduceIte]
      refine ⟨h₁, ?_, ?_⟩
      · rw [h₂]
        by_cases h0 : data.length = 0 <;>
          simp [saveFile, saveHeader, h, h0, nullSize, Listing.entriesBelow, hskip', Tree.entriesBelow,
            Tree.stat, Nat.add_assoc]
      · rw [h₃]
        simp [Listing.entriesBelow, hskip', Tree.entriesBelow, Tree.stat, Tree.data]
    | dir mtime atime listing =>
      -- a directory: it joins the entries, and the recursive call walks it
      obtain ⟨h₁, h₂, h₃⟩ := ht ar (es ++ [⟨joinPath path name, ⟨true, 0, mtime, atime⟩, []⟩]) h
      obtain ⟨h₄, h₅, h₆⟩ := hrest _ _ h₁
      simp only [walkListing, hskip', Bool.false_eq_true, ↓reduceIte, h]
      refine ⟨h₄, ?_, ?_⟩
      · rw [h₅, h₂]
        simp [Listing.entriesBelow, hskip', Tree.stat, Tree.data, Nat.add_assoc]
      · rw [h₆, h₃]
        simp [Listing.entriesBelow, hskip', Tree.stat, Tree.data]
end

mutual
/-- Every entry below `path` is named by a path that extends it. -/
theorem prefix_name_entriesBelow : ∀ (t : Tree) (path : List UInt8), ∀ e ∈ t.entriesBelow path, path <+: e.name
  | .file .., path => by simp [Tree.entriesBelow]
  | .dir _ _ listing, path => by simpa [Tree.entriesBelow] using prefix_name_listing_entriesBelow listing path
/-- Every entry of a listing at `path`, and below it, is named by a path that extends it. -/
theorem prefix_name_listing_entriesBelow : ∀ (l : Listing) (path : List UInt8),
    ∀ e ∈ l.entriesBelow path, path <+: e.name
  | .nil, path => by simp [Listing.entriesBelow]
  | .cons name t rest, path => by
    have ht := prefix_name_entriesBelow t (joinPath path name)
    have hrest := prefix_name_listing_entriesBelow rest path
    have hjoin : path <+: joinPath path name := by
      unfold joinPath
      split <;> simp
    intro e he
    by_cases hskip : skipName name
    · simp only [Listing.entriesBelow, hskip, ↓reduceIte] at he
      exact hrest e he
    · simp only [Listing.entriesBelow, hskip, Bool.false_eq_true, ↓reduceIte, List.cons_append,
        List.mem_cons, List.mem_append] at he
      rcases he with rfl | he | he
      · exact hjoin
      · exact hjoin.trans (ht e he)
      · exact hrest e he
end

/-- One entry that the second pass saves on a real serializer: its header, and a file's bytes. -/
theorem saveEntry_real {n : ℕ} {ar : Serial} (h : ar.isNull = false) (e : DirEntry) :
    (if e.stat.isDirectory then saveHeader n ar e.stat e.name else saveFile (saveHeader n ar e.stat e.name) e) =
      { ar with data := ar.data ++ entryBytes n e, pos := ar.pos + (entryBytes n e).length } := by
  have hal := le_align512 e.data.length
  by_cases hd : e.stat.isDirectory
  · simp [hd, saveHeader, h, entryBytes, length_headerBytes]
  · by_cases h0 : e.stat.size = 0
    · simp [hd, h0, saveHeader, saveFile, h, entryBytes, length_headerBytes]
    · simp [hd, h0, saveHeader, saveFile, h, entryBytes, length_headerBytes]
      omega

/-- The second pass on a real serializer appends the bytes of every recorded entry. -/
theorem saveEntries_real (n : ℕ) (path : List UInt8) : ∀ (es : List DirEntry) (ar : Serial),
    ar.isNull = false → (∀ e ∈ es, path <+: e.name) →
      saveEntries n path es ar = some { ar with
        data := ar.data ++ es.flatMap (entryBytes n)
        pos := ar.pos + (es.flatMap (entryBytes n)).length }
  | [], ar, _, _ => by simp [saveEntries]
  | e :: es, ar, h, hpre => by
    have hp : path.isPrefixOf e.name = true := List.isPrefixOf_iff_prefix.mpr (hpre e List.mem_cons_self)
    rw [saveEntries, if_pos hp]
    dsimp only
    have hrest := saveEntries_real n path es
      { ar with data := ar.data ++ entryBytes n e, pos := ar.pos + (entryBytes n e).length } h
      fun e' he' => hpre e' (List.mem_cons_of_mem _ he')
    rw [saveEntry_real h, hrest]
    simp [Nat.add_assoc]

/-- The direct call on a real serializer, without the entries of a first pass, stops at its
`ensure(!entries.empty())`. -/
theorem saveDirectory_real_fresh (targetPath : List UInt8) (root : Tree) (ar : Serial) (h : ar.isNull = false) :
    saveDirectory targetPath root ar [] false = none := by
  simp [saveDirectory, h]

/-- The two passes of `System.cpp` on a real serializer append the bytes of the entry at
`targetPath` and of every entry below it, in the order of the walk. -/
theorem saveTwoPass_real (targetPath : List UInt8) (root : Tree) (ar : Serial) (h : ar.isNull = false) :
    saveTwoPass targetPath root ar = some { ar with
      data := ar.data ++ (⟨targetPath, root.stat, root.data⟩ :: root.entriesBelow targetPath).flatMap
        (entryBytes targetPath.length)
      pos := ar.pos + ((⟨targetPath, root.stat, root.data⟩ :: root.entriesBelow targetPath).flatMap
        (entryBytes targetPath.length)).length } := by
  obtain ⟨-, -, hfirst⟩ := walk_null targetPath.length targetPath root ⟨true, [], 0⟩ [] rfl
  have hpre : ∀ e ∈ (⟨targetPath, root.stat, root.data⟩ :: root.entriesBelow targetPath : List DirEntry),
      targetPath <+: e.name := by
    rintro e (_ | ⟨_, he⟩)
    · exact List.prefix_refl _
    · exact prefix_name_entriesBelow root targetPath e he
  rw [if_pos rfl, List.singleton_append] at hfirst
  simp [saveTwoPass, saveDirectory, h, hfirst, saveEntries_real _ _ _ _ h hpre]

end Passes

end Rpcs3.Loader.Tar
