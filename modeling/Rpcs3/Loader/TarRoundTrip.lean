import Mathlib
import Rpcs3.Loader.TarSave

/-! What an archive of `tar_object::save_directory` holds when `tar_object` reads it back, stated
over the directory tree it was written from. A tree as a host file system has it names each entry
once in its directory, with no `/` or NUL in a name. Written in the two passes of `System.cpp`, the
archive holds every entry of such a tree under its path relative to the saved directory (`/` for the
directory itself), with the bytes of each file and the size and times of every entry. -/
namespace Rpcs3.Loader.Tar

/-! ### What the archive should hold -/

/-- The path of `name` in the directory at relative path `rel`: `rel/name`, or `name` at the top. -/
def relPath (rel name : List UInt8) : List UInt8 := if rel = [] then name else rel ++ 0x2F :: name

mutual
/-- The entries below a tree whose relative path is `rel`, each with its own relative path, a
directory before what it holds. -/
def Tree.relEntries (rel : List UInt8) : Tree → List (List UInt8 × Tree)
  | .file .. => []
  | .dir _ _ listing => listing.relEntries rel
/-- The entries of a listing of the directory at `rel`, and below them. -/
def Listing.relEntries (rel : List UInt8) : Listing → List (List UInt8 × Tree)
  | .nil => []
  | .cons name t rest => (relPath rel name, t) :: t.relEntries (relPath rel name) ++ rest.relEntries rel
end

/-- Every entry of a tree under its path relative to the top, the top itself as `/`. -/
def Tree.contents (t : Tree) : List (List UInt8 × Tree) := ([0x2F], t) :: t.relEntries []

/-- The names of a listing. -/
def Listing.names : Listing → List (List UInt8)
  | .nil => []
  | .cons name _ rest => name :: rest.names

/-- A name that `save_directory` keeps (not all dots, not starting with `＄`) and that a host
allows (no `/`, no NUL). -/
def HostName (name : List UInt8) : Prop := skipName name = false ∧ 0x2F ∉ name ∧ 0 ∉ name

mutual
/-- The names of a tree are host names, each once in its directory. -/
def Tree.HostNames : Tree → Prop
  | .file .. => True
  | .dir _ _ listing => listing.HostNames
/-- `Tree.HostNames` for a listing. -/
def Listing.HostNames : Listing → Prop
  | .nil => True
  | .cons name t rest => HostName name ∧ name ∉ rest.names ∧ t.HostNames ∧ rest.HostNames
end

theorem Tree.length_data (t : Tree) : t.data.length = t.stat.size := by
  cases t <;> rfl

theorem Tree.size_of_isDirectory {t : Tree} (h : t.stat.isDirectory) : t.stat.size = 0 := by
  cases t with
  | file => simp [Tree.stat] at h
  | dir => rfl

theorem HostName.ne_nil {name : List UInt8} (h : HostName name) : name ≠ [] := by
  rintro rfl
  exact absurd h.1 (by decide)

theorem relPath_ne_nil {rel name : List UInt8} (h : name ≠ []) : relPath rel name ≠ [] := by
  unfold relPath
  split <;> simp [h]

/-! ### Paths along the walk -/

section Paths

/-- The walk from `targetPath` stands at `path` for the entry at relative path `rel`: `path` is
`targetPath`, then separators and `rel`, and it ends in a separator only at the top. -/
structure At (targetPath path rel : List UInt8) : Prop where
  eq_append : ∃ s, path = targetPath ++ s ∧ s.dropWhile (· = 0x2F) = rel
  getLast_ne : rel ≠ [] → path.getLast? ≠ some 0x2F

variable {targetPath path rel name : List UInt8}

theorem at_top (targetPath : List UInt8) : At targetPath targetPath [] :=
  ⟨⟨[], by simp, rfl⟩, fun h => absurd rfl h⟩

/-- `save_header` cuts the walk's path down to the relative path, `/` at the top. -/
theorem savedPath_of_at (h : At targetPath path rel) :
    savedPath targetPath.length path = if rel = [] then [0x2F] else rel := by
  obtain ⟨s, rfl, hs⟩ := h.eq_append
  unfold savedPath
  rw [List.drop_left, hs]
  cases rel <;> rfl

/-- A step of the walk into the entry `name`: `target_path + name`, with a `/` between unless the
path ends with one. -/
theorem joinPath_at (h : At targetPath path rel) (hne : name ≠ []) (hslash : 0x2F ∉ name) :
    At targetPath (joinPath path name) (relPath rel name) := by
  obtain ⟨s, rfl, hs⟩ := h.eq_append
  obtain ⟨b, q, rfl⟩ := List.exists_cons_of_ne_nil hne
  have hb : b ≠ 0x2F := fun hb => hslash (hb ▸ List.mem_cons_self)
  have hdrop : (b :: q).dropWhile (· = 0x2F) = b :: q := by simp [hb]
  -- the path after the step ends where the name does
  have hlast : (b :: q).getLast? ≠ some 0x2F := fun h' => hslash (List.mem_of_getLast? h')
  unfold joinPath
  split
  · rename_i hend
    have hrel : rel = [] := by
      by_contra hrel
      exact h.getLast_ne hrel hend
    refine ⟨⟨s ++ b :: q, by simp, ?_⟩, fun _ => ?_⟩
    · simp [List.dropWhile_append, hs, hrel, hdrop, relPath]
    · rwa [List.getLast?_append_of_ne_nil _ hne]
  · refine ⟨⟨s ++ 0x2F :: b :: q, by simp, ?_⟩, fun _ => ?_⟩
    · by_cases hrel : rel = [] <;> simp [List.dropWhile_append, hs, hrel, hdrop, relPath]
    · rwa [List.getLast?_append_of_ne_nil _ (List.cons_ne_nil _ _), List.getLast?_cons_cons]

end Paths

/-! ### Properties of every relative path -/

section Invariant

mutual
/-- A property of paths that holds at the entries of the directory at `rel` and that each step
down to a host name keeps holds at every entry below. -/
theorem forall_relEntries (I : List UInt8 → Prop)
    (hstep : ∀ rel name, I rel → HostName name → I (relPath rel name)) :
    ∀ (t : Tree) (rel : List UInt8), (∀ name, HostName name → I (relPath rel name)) → t.HostNames →
      ∀ c ∈ t.relEntries rel, I c.1
  | .file .., _, _, _, c, hc => by simp [Tree.relEntries] at hc
  | .dir _ _ listing, rel, h0, h, c, hc => forall_listing_relEntries I hstep listing rel h0 h c hc
/-- `forall_relEntries` for a listing. -/
theorem forall_listing_relEntries (I : List UInt8 → Prop)
    (hstep : ∀ rel name, I rel → HostName name → I (relPath rel name)) :
    ∀ (l : Listing) (rel : List UInt8), (∀ name, HostName name → I (relPath rel name)) → l.HostNames →
      ∀ c ∈ l.relEntries rel, I c.1
  | .nil, _, _, _, c, hc => by simp [Listing.relEntries] at hc
  | .cons name t rest, rel, h0, ⟨hn, _, ht, hrest⟩, c, hc => by
    simp only [Listing.relEntries, List.cons_append, List.mem_cons, List.mem_append] at hc
    rcases hc with rfl | hc | hc
    · exact h0 name hn
    · exact forall_relEntries I hstep t _ (fun name' hn' => hstep _ _ (h0 name hn) hn') ht c hc
    · exact forall_listing_relEntries I hstep rest rel h0 hrest c hc
end

variable {t : Tree}

/-- No relative path holds a NUL. -/
theorem nul_notMem_contents (h : t.HostNames) : ∀ c ∈ t.contents, 0 ∉ c.1 := by
  have hstep : ∀ rel name, 0 ∉ rel → HostName name → 0 ∉ relPath rel name := by
    intro rel name hrel hn
    unfold relPath
    split <;> simp [hrel, hn.2.2]
  rintro c (_ | ⟨_, hc⟩)
  · simp
  · exact forall_relEntries (0 ∉ ·) hstep t [] (fun name hn => hstep [] name (by simp) hn) h c hc

/-- The top's path `/` is no other entry's. -/
theorem slash_notMem_relEntries (h : t.HostNames) : ∀ c ∈ t.relEntries [], c.1 ≠ [0x2F] := by
  -- a step down ends in a name, which is not `/`
  have hstep : ∀ rel name, True → HostName name → relPath rel name ≠ [0x2F] := by
    intro rel name _ hn
    unfold relPath
    split
    · rintro rfl
      exact hn.2.1 List.mem_cons_self
    · intro heq
      have := congrArg List.length heq
      simp only [List.length_append, List.length_cons, List.length_nil] at this
      exact hn.ne_nil (List.length_eq_zero_iff.mp (by omega))
  exact forall_relEntries (· ≠ [0x2F]) (fun rel name _ hn => hstep rel name trivial hn) t []
    (fun name hn => hstep [] name trivial hn) h

/-- Every entry below the one at `rel` lies below `rel/`. -/
theorem prefix_relEntries {rel : List UInt8} (hrel : rel ≠ []) (h : t.HostNames) :
    ∀ c ∈ t.relEntries rel, rel ++ [0x2F] <+: c.1 := by
  have hchild : ∀ r name, r ≠ [] → r ++ [0x2F] <+: relPath r name := by
    intro r name hr
    rw [relPath, if_neg hr]
    exact ⟨name, by simp⟩
  refine forall_relEntries (rel ++ [0x2F] <+: ·) (fun r name hr hn => ?_) t rel
    (fun name _ => hchild rel name hrel) h
  have hr' : r ≠ [] := by
    rintro rfl
    simpa using hr.length_le
  exact hr.trans ((List.prefix_append r [0x2F]).trans (hchild r name hr'))

end Invariant

/-! ### Distinct relative paths -/

section Distinct

/-- `q` is the path `r` or lies below it. -/
def Within (r q : List UInt8) : Prop := q = r ∨ r ++ [0x2F] <+: q

/-- A path within `r` continues after `r` with nothing or with a separator. -/
theorem exists_sep_of_within {r q : List UInt8} (h : Within r q) :
    ∃ x, q = r ++ x ∧ (x = [] ∨ x.head? = some 0x2F) := by
  rcases h with rfl | ⟨z, rfl⟩
  · exact ⟨[], by simp, .inl rfl⟩
  · exact ⟨0x2F :: z, by simp, .inr rfl⟩

/-- A name ends at the first separator after it. -/
theorem takeWhile_name {a x : List UInt8} (ha : 0x2F ∉ a) (hx : x = [] ∨ x.head? = some 0x2F) :
    (a ++ x).takeWhile (· ≠ 0x2F) = a := by
  rw [List.takeWhile_append_of_pos fun b hb => by simpa using ne_of_mem_of_not_mem hb ha]
  rcases hx with rfl | hx
  · simp
  · obtain ⟨z, rfl⟩ : ∃ z, x = 0x2F :: z := by
      cases x with
      | nil => simp at hx
      | cons y z => simp only [List.head?_cons, Option.some.injEq] at hx; exact ⟨z, by rw [hx]⟩
    simp

/-- Two names of one directory with a path within both are the same name. -/
theorem name_eq_of_within {rel a b q : List UInt8} (ha : 0x2F ∉ a) (hb : 0x2F ∉ b)
    (hqa : Within (relPath rel a) q) (hqb : Within (relPath rel b) q) : a = b := by
  obtain ⟨x, hx, hx'⟩ := exists_sep_of_within hqa
  obtain ⟨y, hy, hy'⟩ := exists_sep_of_within hqb
  have heq : relPath rel a ++ x = relPath rel b ++ y := hx.symm.trans hy
  unfold relPath at heq
  split at heq
  · rw [← takeWhile_name ha hx', heq, takeWhile_name hb hy']
  · simp only [List.append_assoc, List.cons_append, List.append_cancel_left_eq, List.cons.injEq,
      true_and] at heq
    rw [← takeWhile_name ha hx', heq, takeWhile_name hb hy']

/-- Each entry of a listing and below it lies within the path of one of its names. -/
theorem exists_within : ∀ (l : Listing) (rel : List UInt8), l.HostNames → ∀ c ∈ l.relEntries rel,
    ∃ name ∈ l.names, HostName name ∧ Within (relPath rel name) c.1
  | .nil, _, _, c, hc => by simp [Listing.relEntries] at hc
  | .cons name t rest, rel, ⟨hn, _, ht, hrest⟩, c, hc => by
    simp only [Listing.relEntries, List.cons_append, List.mem_cons, List.mem_append] at hc
    rcases hc with rfl | hc | hc
    · exact ⟨name, List.mem_cons_self, hn, .inl rfl⟩
    · exact ⟨name, List.mem_cons_self, hn, .inr (prefix_relEntries (relPath_ne_nil hn.ne_nil) ht c hc)⟩
    · obtain ⟨b, hb, hbn, hw⟩ := exists_within rest rel hrest c hc
      exact ⟨b, List.mem_cons_of_mem _ hb, hbn, hw⟩

mutual
/-- No two entries below a tree share a relative path. -/
theorem nodup_relEntries : ∀ (t : Tree) (rel : List UInt8), t.HostNames →
    ((t.relEntries rel).map Prod.fst).Nodup
  | .file .., _, _ => by simp [Tree.relEntries]
  | .dir _ _ listing, rel, h => nodup_listing_relEntries listing rel h
/-- `nodup_relEntries` for a listing. The entry `name` and what lies below it are within its
path; every later entry is within the path of another name. -/
theorem nodup_listing_relEntries : ∀ (l : Listing) (rel : List UInt8), l.HostNames →
    ((l.relEntries rel).map Prod.fst).Nodup
  | .nil, _, _ => by simp [Listing.relEntries]
  | .cons name t rest, rel, ⟨hn, hfresh, ht, hrest⟩ => by
    have hbelow := @prefix_relEntries t (relPath rel name) (relPath_ne_nil hn.ne_nil) ht
    simp only [Listing.relEntries, List.map_cons, List.map_append]
    rw [List.nodup_append]
    refine ⟨List.nodup_cons.mpr ⟨fun hmem => ?_, nodup_relEntries t _ ht⟩,
      nodup_listing_relEntries rest rel hrest, fun q hq q' hq' hqq' => ?_⟩
    · -- `name`'s own path is shorter than every path below it
      obtain ⟨c, hc, hc1⟩ := List.mem_map.mp hmem
      have hlen := (hbelow c hc).length_le
      rw [hc1, List.length_append] at hlen
      simp at hlen
    · have hwq : Within (relPath rel name) q := by
        rcases List.mem_cons.mp hq with rfl | hq
        · exact .inl rfl
        · obtain ⟨c, hc, rfl⟩ := List.mem_map.mp hq
          exact .inr (hbelow c hc)
      obtain ⟨c', hc', rfl⟩ := List.mem_map.mp hq'
      obtain ⟨b, hb, hbn, hwb⟩ := exists_within rest rel hrest c' hc'
      subst hqq'
      exact hfresh (name_eq_of_within hn.2.1 hbn.2.1 hwq hwb ▸ hb)
end

theorem nodup_contents {t : Tree} (h : t.HostNames) : (t.contents.map Prod.fst).Nodup := by
  rw [Tree.contents, List.map_cons, List.nodup_cons]
  refine ⟨fun hmem => ?_, nodup_relEntries t [] h⟩
  obtain ⟨c, hc, hc1⟩ := List.mem_map.mp hmem
  exact slash_notMem_relEntries h c hc hc1

end Distinct

/-! ### The round trip -/

section RoundTrip

mutual
/-- The entries the walk records below `path`, with their saved paths, are the entries below the
tree at `rel`. -/
theorem map_entriesBelow {targetPath : List UInt8} : ∀ (t : Tree) (path rel : List UInt8),
    At targetPath path rel → t.HostNames →
      (t.entriesBelow path).map (fun e => (savedPath targetPath.length e.name, e.stat, e.data)) =
        (t.relEntries rel).map fun c => (c.1, c.2.stat, c.2.data)
  | .file .., _, _, _, _ => by simp [Tree.entriesBelow, Tree.relEntries]
  | .dir _ _ listing, path, rel, hat, h => by
    rw [Tree.entriesBelow, Tree.relEntries]
    exact map_listing_entriesBelow listing path rel hat h
/-- `map_entriesBelow` for a listing: no name is skipped, and each step of the walk is a step down
the relative path. -/
theorem map_listing_entriesBelow {targetPath : List UInt8} : ∀ (l : Listing) (path rel : List UInt8),
    At targetPath path rel → l.HostNames →
      (l.entriesBelow path).map (fun e => (savedPath targetPath.length e.name, e.stat, e.data)) =
        (l.relEntries rel).map fun c => (c.1, c.2.stat, c.2.data)
  | .nil, _, _, _, _ => by simp [Listing.entriesBelow, Listing.relEntries]
  | .cons name t rest, path, rel, hat, ⟨hn, _, ht, hrest⟩ => by
    have hat' := joinPath_at hat hn.ne_nil hn.2.1
    have hsaved : savedPath targetPath.length (joinPath path name) = relPath rel name := by
      rw [savedPath_of_at hat', if_neg (relPath_ne_nil hn.ne_nil)]
    simp only [Listing.entriesBelow, hn.1, Bool.false_eq_true, ↓reduceIte, Listing.relEntries,
      List.map_cons, List.map_append, List.cons_append, hsaved]
    rw [map_entriesBelow t _ _ hat' ht, map_listing_entriesBelow rest path rel hat hrest]
end

/-- The entries the first pass records, with their saved paths, are the contents of the tree. -/
theorem map_firstPass (targetPath : List UInt8) (root : Tree) (h : root.HostNames) :
    (⟨targetPath, root.stat, root.data⟩ :: root.entriesBelow targetPath : List DirEntry).map
        (fun e => (savedPath targetPath.length e.name, e.stat, e.data)) =
      root.contents.map fun c => (c.1, c.2.stat, c.2.data) := by
  rw [List.map_cons, map_entriesBelow root targetPath [] (at_top targetPath) h, Tree.contents,
    List.map_cons, savedPath_of_at (at_top targetPath), if_pos rfl]

/-- A recorded entry that is an entry of the tree within the bounds of the header reads back. -/
theorem entryOk_of_contents {n : ℕ} {e : DirEntry} {c : List UInt8 × Tree}
    (hc : (c.1, c.2.stat, c.2.data) = (savedPath n e.name, e.stat, e.data))
    (hfit : c.1.length ≤ 255 ∧ c.2.stat.size < 8 ^ 11 ∧ c.2.stat.mtime < 8 ^ 11 ∧ c.2.stat.atime < 8 ^ 11)
    (hnul : 0 ∉ c.1) : EntryOk n e := by
  simp only [Prod.mk.injEq] at hc
  obtain ⟨hpath, hstat, hdata⟩ := hc
  obtain ⟨hlen, hsize, hmtime, hatime⟩ := hfit
  constructor
  · rwa [← hpath]
  · rwa [← hpath]
  · rwa [← hstat]
  · rwa [← hstat]
  · rwa [← hstat]
  · rw [← hdata, ← hstat, Tree.length_data]
  · rw [← hstat]
    exact Tree.size_of_isDirectory

/-- The archive that the two passes of `System.cpp` append to a real serializer, read back by
`tar_object`: its names are the relative paths of the tree's entries, each once, and under each the
reader finds the entry's bytes and a header whose size, mtime and atime read back. -/
theorem save_directory_round_trip (targetPath : List UInt8) (root : Tree) (ar : Serial)
    (hnull : ar.isNull = false) (hnames : root.HostNames)
    (hfit : ∀ c ∈ root.contents, c.1.length ≤ 255 ∧ c.2.stat.size < 8 ^ 11 ∧ c.2.stat.mtime < 8 ^ 11 ∧
      c.2.stat.atime < 8 ^ 11) :
    ∃ tar, (saveTwoPass targetPath root ar).map Serial.data = some (ar.data ++ tar) ∧
      (getFilenames tar).Perm (root.contents.map Prod.fst) ∧
      ∀ c ∈ root.contents, getFile tar c.1 = some c.2.data ∧
        ∃ off header, (entries tar).lookup c.1 = some (off, header) ∧
          octalTextToU64 header.size = c.2.stat.size ∧ octalTextToU64 header.mtime = c.2.stat.mtime ∧
          octalTextToU64 header.padding = c.2.stat.atime := by
  have hmap := map_firstPass targetPath root hnames
  set es : List DirEntry := ⟨targetPath, root.stat, root.data⟩ :: root.entriesBelow targetPath
  -- the saved paths of the recorded entries are the relative paths of the tree
  have hpaths : es.map (fun e => savedPath targetPath.length e.name) = root.contents.map Prod.fst := by
    have := congrArg (List.map Prod.fst) hmap
    simpa only [List.map_map, Function.comp_def] using this
  have hok : ∀ e ∈ es, EntryOk targetPath.length e := by
    intro e he
    have hmem := List.mem_map_of_mem (f := fun e => (savedPath targetPath.length e.name, e.stat, e.data)) he
    rw [hmap] at hmem
    obtain ⟨c, hc, hce⟩ := List.mem_map.mp hmem
    exact entryOk_of_contents hce (hfit c hc) (nul_notMem_contents hnames c hc)
  have hnd : (es.map fun e => savedPath targetPath.length e.name).Nodup := by
    rw [hpaths]
    exact nodup_contents hnames
  obtain ⟨hperm, hfiles⟩ := readBack hok hnd
  refine ⟨es.flatMap (entryBytes targetPath.length), by rw [saveTwoPass_real targetPath root ar hnull]; rfl,
    hpaths ▸ hperm, fun c hc => ?_⟩
  -- the entry of the tree is a recorded entry
  have hmem := List.mem_map_of_mem (f := fun c : List UInt8 × Tree => (c.1, c.2.stat, c.2.data)) hc
  rw [← hmap] at hmem
  obtain ⟨e, he, hec⟩ := List.mem_map.mp hmem
  simp only [Prod.mk.injEq] at hec
  obtain ⟨hpath, hstat, hdata⟩ := hec
  obtain ⟨hget, off, hlook⟩ := hfiles e he
  rw [← hpath, ← hdata, ← hstat]
  exact ⟨hget, off, _, hlook, octalTextToU64_size (hok e he) _,
    octalTextToU64_writeOctal (hok e he).mtime_lt, octalTextToU64_writeOctal (hok e he).atime_lt⟩

/-- The directory `/d` holding the one-byte file `a`, saved in two passes. -/
theorem save_directory_round_trip_one_file :
    (Tree.dir 1 2 (.cons [0x61] (.file 3 4 [7]) .nil)).HostNames ∧
    (∀ c ∈ (Tree.dir 1 2 (.cons [0x61] (.file 3 4 [7]) .nil)).contents, c.1.length ≤ 255 ∧
      c.2.stat.size < 8 ^ 11 ∧ c.2.stat.mtime < 8 ^ 11 ∧ c.2.stat.atime < 8 ^ 11) ∧
    ∃ tar, (saveTwoPass [0x2F, 0x64] (Tree.dir 1 2 (.cons [0x61] (.file 3 4 [7]) .nil)) ⟨false, [], 0⟩).map
        Serial.data = some ([] ++ tar) ∧
      (getFilenames tar).Perm ((Tree.dir 1 2 (.cons [0x61] (.file 3 4 [7]) .nil)).contents.map Prod.fst) ∧
      ∀ c ∈ (Tree.dir 1 2 (.cons [0x61] (.file 3 4 [7]) .nil)).contents, getFile tar c.1 = some c.2.data ∧
        ∃ off header, (entries tar).lookup c.1 = some (off, header) ∧
          octalTextToU64 header.size = c.2.stat.size ∧ octalTextToU64 header.mtime = c.2.stat.mtime ∧
          octalTextToU64 header.padding = c.2.stat.atime := by
  have hnames : (Tree.dir 1 2 (.cons [0x61] (.file 3 4 [7]) .nil)).HostNames :=
    ⟨⟨rfl, by decide, by decide⟩, by simp [Listing.names], trivial, trivial⟩
  have hfit : ∀ c ∈ (Tree.dir 1 2 (.cons [0x61] (.file 3 4 [7]) .nil)).contents, c.1.length ≤ 255 ∧
      c.2.stat.size < 8 ^ 11 ∧ c.2.stat.mtime < 8 ^ 11 ∧ c.2.stat.atime < 8 ^ 11 := by
    decide
  exact ⟨hnames, hfit, save_directory_round_trip _ _ _ rfl hnames hfit⟩

/-- The same directory saved by a direct call on a real serializer: its `ensure` fails and no
archive is written. -/
theorem save_directory_direct_one_file :
    (Tree.dir 1 2 (.cons [0x61] (.file 3 4 [7]) .nil)).HostNames ∧
    (∀ c ∈ (Tree.dir 1 2 (.cons [0x61] (.file 3 4 [7]) .nil)).contents, c.1.length ≤ 255 ∧
      c.2.stat.size < 8 ^ 11 ∧ c.2.stat.mtime < 8 ^ 11 ∧ c.2.stat.atime < 8 ^ 11) ∧
    saveDirectory [0x2F, 0x64] (Tree.dir 1 2 (.cons [0x61] (.file 3 4 [7]) .nil)) ⟨false, [], 0⟩ [] false =
      none :=
  ⟨⟨⟨rfl, by decide, by decide⟩, by simp [Listing.names], trivial, trivial⟩, by decide, rfl⟩

end RoundTrip

end Rpcs3.Loader.Tar
