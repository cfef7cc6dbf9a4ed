import Mathlib
import Rpcs3.Emu.Vfs
import Rpcs3.Lib.Path

/-! Where a PKG installs its files (`rpcs3/Crypto/unpkg.cpp`). The install directory is the
title id of the header, or the text of metadata packet 0xA, taken as it is; each entry name is
decrypted, stripped of trailing NULs and escaped with `vfs::escape`, which keeps `/` and `..`.
Files go to the `weakly_canonical` form of the joined path, so a name that climbs with `..`
leaves the content directory (`pkg_install_escapes`). No part of the paths is taken to be a
symbolic link, so `weakly_canonical` resolves `.` and `..` lexically. -/
namespace Rpcs3.Crypto.Unpkg
open Rpcs3.Emu

/-- `m_install_dir`: the nine bytes of the title id, or the bytes of packet 0xA from the ninth
on up to a NUL when the packet holds more than eight. -/
def installDir (titleId : List UInt8) (packet : Option (List UInt8)) : List UInt8 :=
  match packet with
  | some p => if 8 < p.length then (p.drop 8).takeWhile (· ≠ 0) else titleId
  | none => titleId

/-- The directory under `dev_hdd0` that `set_install_path` chooses for a content type. -/
def contentDir (usr : List UInt8) (contentType : UInt32) : List UInt8 :=
  if contentType = 0x09 then Vfs.ascii "theme/"
  else if contentType = 0x0A then Vfs.ascii "widget/"
  else if contentType = 0x0B then Vfs.ascii "home/" ++ usr ++ Vfs.ascii "/exdata/"
  else if contentType = 0x0C then Vfs.ascii "vsh/modules/"
  else if contentType = 0x0D then Vfs.ascii "home/" ++ usr ++ Vfs.ascii "/psn_avatar/"
  else if contentType = 0x11 then Vfs.ascii "tmp/vmc/"
  else Vfs.ascii "game/"

/-- `set_install_path`: licenses go straight into the content directory, everything else into
the install directory below it. -/
def installPath (hdd0 usr : List UInt8) (contentType : UInt32) (dir : List UInt8) :
    List UInt8 :=
  hdd0 ++ contentDir usr contentType ++ if contentType ≠ 0x0B then dir ++ [0x2F] else []

/-- An entry of the package: its decrypted name, padding included, and its type. -/
structure Entry where
  nameSize : ℕ
  name : List UInt8
  type : UInt32

/-- What installation does to the host file system. -/
inductive Effect where
  | createPath (path : List UInt8)
  | openFile (path : List UInt8)
  deriving DecidableEq

/-- `std::filesystem::weakly_canonical`, lexically. -/
def weaklyCanonical (p : List UInt8) : List UInt8 :=
  0x2F :: [0x2F].intercalate (Path.resolve 0x2F [0x2E] [0x2E, 0x2E] p)

/-- `fmt::trim_back(name, "\\0")`. -/
def trimNul (name : List UInt8) : List UInt8 := (name.reverse.dropWhile (· = 0)).reverse

/-- `fill_data`: the directories it creates, the file entries with their canonical paths, and
whether it succeeded; a name longer than 256 bytes stops it. -/
def fillData (path : List UInt8) : List Entry → List Effect × List (List UInt8 × Entry) × Bool
  | [] => ([], [], true)
  | e :: rest =>
    if 256 < e.nameSize then ([], [], false)
    else
      let entryPath := path ++ Vfs.escape (trimNul e.name) false
      let (effects, files, ok) := fillData path rest
      if e.type % 256 = 0x04 ∨ e.type % 256 = 0x12 then
        (Effect.createPath entryPath :: effects, files, ok)
      else (effects, (weaklyCanonical entryPath, e) :: files, ok)

/-- The overwrite flag of an entry's type. -/
def overwrites (e : Entry) : Bool := e.type &&& 0x80000000 ≠ 0

/-- The index of the entry `all_install_entries` keeps for each path: the first one, replaced
by a later one that carries the overwrite flag. -/
def winners : List (List UInt8 × Entry) → ℕ → List (List UInt8 × ℕ) → List (List UInt8 × ℕ)
  | [], _, map => map
  | (p, e) :: rest, i, map =>
    match map.lookup p with
    | some _ =>
      if overwrites e then winners rest (i + 1) ((p, i) :: map.filter (·.1 ≠ p))
      else winners rest (i + 1) map
    | none => winners rest (i + 1) ((p, i) :: map)

/-- The entry types `extract_worker` writes as files. -/
def isFileType (t : UInt32) : Bool :=
  t ∈ [1, 2, 9, 3, 5, 6, 0xE, 0x10, 0x11, 0x13, 0x14, 0x15, 0x16, 0x18, 0x19]

/-- `extract_worker`: the files it opens for writing, `isFile` telling which already exist. -/
def extractWorker (isFile : List UInt8 → Bool) (files : List (List UInt8 × Entry)) :
    List Effect :=
  let map := winners files 0 []
  (files.zipIdx.filter fun ((p, e), i) =>
      map.lookup p = some i ∧ isFileType (e.type % 256) ∧ ¬ (isFile p ∧ ¬ overwrites e)).map
    fun ((p, _), _) => .openFile p

/-- A package's installation: the directories created and the files written. -/
def install (hdd0 usr : List UInt8) (contentType : UInt32) (titleId : List UInt8)
    (packet : Option (List UInt8)) (entries : List Entry) (isFile : List UInt8 → Bool) :
    List Effect :=
  let path := installPath hdd0 usr contentType (installDir titleId packet)
  let (effects, files, ok) := fillData path entries
  Effect.createPath path :: effects ++ if ok then extractWorker isFile files else []

theorem pkg_install_escapes :
    install (Vfs.ascii "/home/u/.config/rpcs3/dev_hdd0/") (Vfs.ascii "00000001") 0x04
        (Vfs.ascii "NPUB12345") none [⟨16, Vfs.ascii "../../../../evil", 3⟩] (fun _ => false) =
      [.createPath (Vfs.ascii "/home/u/.config/rpcs3/dev_hdd0/game/NPUB12345/"),
        .openFile (Vfs.ascii "/home/u/.config/evil")] ∧
    ¬ Path.Beneath 0x2F [0x2E] [0x2E, 0x2E] (Vfs.ascii "/home/u/.config/rpcs3/dev_hdd0/game/")
      (Vfs.ascii "/home/u/.config/evil") := by
  decide +kernel

end Rpcs3.Crypto.Unpkg
