import Mathlib
import Rpcs3.Lib.ListSearch
import Rpcs3.Lib.Digits
import Rpcs3.Lib.Loop

/-! String utilities of `Utilities/StrFmt.cpp` and `StrUtil.h`, on strings as lists of
characters.

`fmt::replace_all` walks an index through the source, finding the next occurrence from it and
counting replacements; it replaces the first `count` leftmost non-overlapping occurrences
(`replace_all_eq`). `fmt::merge` of `fmt::split` with one separator gives the string back, less a
last scan match that ends it, and no piece holds the separator (`merge_split`).

`fmt::base57` writes eleven base-57 digits for each big-endian block of eight bytes and cuts the
last block's digits to `s_tail`; `from_string` reads the missing low digits as zeros. Whole
blocks come back (`fromString_format_of_dvd`), but a last block comes back floored to a multiple
of the weight of its first missing digit (`fromString_format`), which changes its bytes
(`base57_tail_rounds_down`). -/
namespace Rpcs3.Util.StrFmt

open ListSearch Digits

/-! ### `fmt::replace_all` -/

/-- The loop of `fmt::replace_all` at index `i`, after `replaced` replacements, appending to
`target`; `fuel` bounds its turns. -/
def replaceAllLoop (src from' to' : List Char) (count : ℕ) :
    ℕ → ℕ → ℕ → List Char → List Char
  | 0, _, _, target => target
  | fuel + 1, i, replaced, target =>
    if i < src.length then
      match findFrom src from' i with
      | none => target ++ src.drop i
      | some pos =>
        -- `replaced++ >= count` is only reached once a match is found
        if count ≤ replaced then target ++ src.drop i
        else replaceAllLoop src from' to' count fuel (pos + from'.length) (replaced + 1)
          (target ++ (src.drop i).take (pos - i) ++ to')
    else target

/-- `fmt::replace_all(src, from, to, count)`. -/
def replaceAll (src from' to' : List Char) (count : ℕ) : List Char :=
  if src = [] then []
  else if from' = [] ∨ count = 0 then src
  else replaceAllLoop src from' to' count (src.length + 1) 0 0 []

/-- The first `n` leftmost non-overlapping occurrences of `from'` in `s`, replaced by `to`. -/
def replaceFirst (from' to' : List Char) : ℕ → List Char → List Char
  | 0, s => s
  | n + 1, s =>
    match findFrom s from' 0 with
    | none => s
    | some k => s.take k ++ to' ++ replaceFirst from' to' n (s.drop (k + from'.length))

section ReplaceAll

variable {src from' to' : List Char} {count : ℕ}

theorem replaceFirst_nil (hpat : from' ≠ []) (n : ℕ) : replaceFirst from' to' n [] = [] := by
  cases n with
  | zero => rfl
  | succ n => rw [replaceFirst, findFrom_nil hpat]

theorem replaceFirst_of_none {s : List Char} (h : findFrom s from' 0 = none) (n : ℕ) :
    replaceFirst from' to' n s = s := by
  cases n with
  | zero => rfl
  | succ n => rw [replaceFirst, h]

/-- The loop from index `i` replaces in the rest of the source what the replacements left. -/
theorem replaceAllLoop_eq (hpat : from' ≠ []) (fuel i replaced : ℕ) (target : List Char)
    (hi : i ≤ src.length) (hfuel : src.length - i < fuel) (hc : replaced ≤ count) :
    replaceAllLoop src from' to' count fuel i replaced target =
      target ++ replaceFirst from' to' (count - replaced) (src.drop i) := by
  induction fuel generalizing i replaced target with
  | zero => omega
  | succ fuel ih =>
    rw [replaceAllLoop]
    by_cases hlt : i < src.length
    · rw [if_pos hlt]
      rcases hf : findFrom src from' i with _ | pos
      · rw [replaceFirst_of_none (by simpa [findFrom_drop hi] using hf)]
      · have hshift : findFrom (src.drop i) from' 0 = some (pos - i) := by
          rw [findFrom_drop hi] at hf
          obtain ⟨k, hk, rfl⟩ := Option.map_eq_some_iff.mp hf
          rw [hk, Nat.add_sub_cancel]
        dsimp only
        by_cases hcount : count ≤ replaced
        · rw [if_pos hcount, show count - replaced = 0 by omega, replaceFirst]
        · -- a replacement: the loop goes on past the match, with one replacement fewer left
          have hend := add_length_le hf
          have hle := le_of_findFrom hf
          have hlen := List.length_pos_iff.mpr hpat
          rw [if_neg hcount, ih (pos + from'.length) (replaced + 1) _ hend (by omega) (by omega),
            show count - replaced = count - (replaced + 1) + 1 by omega, replaceFirst, hshift]
          dsimp only
          rw [List.drop_drop, show i + (pos - i + from'.length) = pos + from'.length by omega]
          simp only [List.append_assoc]
    · rw [if_neg hlt, show i = src.length by omega, List.drop_length, replaceFirst_nil hpat,
        List.append_nil]

/-- `replace_all` replaces the first `count` leftmost non-overlapping occurrences of `from`. -/
theorem replace_all_eq (src from' to' : List Char) (count : ℕ) (hpat : from' ≠ []) :
    replaceAll src from' to' count = replaceFirst from' to' count src := by
  unfold replaceAll
  split_ifs with hsrc hcount
  · rw [hsrc, replaceFirst_nil hpat]
  · rcases hcount with h | h
    · exact absurd h hpat
    · rw [h, replaceFirst]
  · rw [replaceAllLoop_eq hpat _ 0 0 [] (Nat.zero_le _) (by omega) (Nat.zero_le _), List.drop_zero,
      Nat.sub_zero, List.nil_append]

theorem replace_all_eq_overlapping :
    ['a', 'a'] ≠ [] ∧
    replaceAll ['a', 'a', 'a'] ['a', 'a'] ['b'] 5 = replaceFirst ['a', 'a'] ['b'] 5 ['a', 'a', 'a'] :=
  ⟨by decide, replace_all_eq ['a', 'a', 'a'] ['a', 'a'] ['b'] 5 (by decide)⟩

example : replaceFirst ['a', 'a'] ['b'] 5 ['a', 'a', 'a'] = ['b', 'a'] := by decide

end ReplaceAll

/-! ### `fmt::split` and `fmt::merge` -/

/-- The inner loop of `fmt::split`: the earliest occurrence from `index` over the separators,
the first listed winning a tie, and its size; `none` is `pos = -1`. -/
def pickSeparator (source : List Char) (index : ℕ) (separators : List (List Char)) :
    Option ℕ × ℕ :=
  separators.foldl (fun acc separator =>
    match findFrom source separator index, acc.1 with
    | some pos0, none => (some pos0, separator.length)
    | some pos0, some pos => if pos0 < pos then (some pos0, separator.length) else acc
    | none, _ => acc) (none, 0)

/-- The loop of `fmt::split` from `index`, appending to `result`; `fuel` bounds its turns. -/
def splitLoop (source : List Char) (separators : List (List Char)) (isSkipEmpty : Bool) :
    ℕ → ℕ → List (List Char) → List (List Char)
  | 0, _, result => result
  | fuel + 1, index, result =>
    if index < source.length then
      match pickSeparator source index separators with
      | (some pos, sepSize + 1) =>
        let piece := (source.drop index).take (pos - index)
        if piece = [] ∧ isSkipEmpty then
          splitLoop source separators isSkipEmpty fuel (pos + (sepSize + 1)) result
        else splitLoop source separators isSkipEmpty fuel (pos + (sepSize + 1)) (result ++ [piece])
      -- `!sep_size`: nothing found, or an empty separator; the rest is the last piece
      | _ => result ++ [source.drop index]
    else result

/-- `fmt::split(source, separators, is_skip_empty)`. -/
def split (source : List Char) (separators : List (List Char)) (isSkipEmpty : Bool) :
    List (List Char) :=
  let result := splitLoop source separators isSkipEmpty (source.length + 1) 0 []
  if result = [] ∧ isSkipEmpty = false then [[]] else result

/-- `fmt::merge(source, separator)`. -/
def merge (source : List (List Char)) (separator : List Char) : List Char :=
  if source = [] then []
  else source.dropLast.foldl (fun result s => result ++ (s ++ separator)) [] ++
    source.getLast?.getD []

set_option linter.unusedVariables false in
/-- The positions of the left-to-right, non-overlapping scan for `pat` in `s`. -/
def scanMatches (pat s : List Char) : List ℕ :=
  if hpat : pat = [] then []
  else
    match hf : findFrom s pat 0 with
    | none => []
    | some k => k :: (scanMatches pat (s.drop (k + pat.length))).map (· + (k + pat.length))
termination_by s.length
decreasing_by
  have := add_length_le hf
  have := List.length_pos_iff.mpr hpat
  rw [List.length_drop]
  omega

section Split

variable {s sep : List Char}

theorem pickSeparator_single (index : ℕ) :
    pickSeparator s index [sep] =
      match findFrom s sep index with
      | some pos => (some pos, sep.length)
      | none => (none, 0) := by
  rcases h : findFrom s sep index with _ | pos <;> simp [pickSeparator, h]

theorem splitLoop_of_none {b : Bool} {fuel index : ℕ} {result : List (List Char)}
    (hlt : index < s.length) (hf : findFrom s sep index = none) :
    splitLoop s [sep] b (fuel + 1) index result = result ++ [s.drop index] := by
  rw [splitLoop, if_pos hlt, pickSeparator_single, hf]

theorem splitLoop_of_some {b : Bool} {fuel index pos : ℕ} {result : List (List Char)}
    (hsep : sep ≠ []) (hlt : index < s.length) (hf : findFrom s sep index = some pos) :
    splitLoop s [sep] b (fuel + 1) index result =
      if (s.drop index).take (pos - index) = [] ∧ b then
        splitLoop s [sep] b fuel (pos + sep.length) result
      else splitLoop s [sep] b fuel (pos + sep.length) (result ++ [(s.drop index).take (pos - index)]) := by
  obtain ⟨n, hn⟩ : ∃ n, sep.length = n + 1 :=
    ⟨sep.length - 1, by have := List.length_pos_iff.mpr hsep; omega⟩
  rw [splitLoop, if_pos hlt, pickSeparator_single, hf]
  dsimp only
  rw [hn]

theorem scanMatches_of_none (h : findFrom s sep 0 = none) : scanMatches sep s = [] := by
  rw [scanMatches]
  split
  · rfl
  · split <;> simp_all

theorem scanMatches_of_some {k : ℕ} (hsep : sep ≠ []) (h : findFrom s sep 0 = some k) :
    scanMatches sep s =
      k :: (scanMatches sep (s.drop (k + sep.length))).map (· + (k + sep.length)) := by
  rw [scanMatches, dif_neg hsep]
  split <;> simp_all

theorem scanMatches_nil (hsep : sep ≠ []) : scanMatches sep [] = [] :=
  scanMatches_of_none (findFrom_nil hsep)

theorem foldl_merge (init : List Char) (l : List (List Char)) :
    l.foldl (fun result s => result ++ (s ++ sep)) init =
      init ++ l.foldl (fun result s => result ++ (s ++ sep)) [] := by
  induction l generalizing init with
  | nil => simp
  | cons a l ih => rw [List.foldl_cons, List.foldl_cons, ih, ih (_ ++ _), List.nil_append,
      List.append_assoc]

theorem merge_eq_intercalate (l : List (List Char)) : merge l sep = sep.intercalate l := by
  induction l with
  | nil => rfl
  | cons a l ih =>
    rcases l with _ | ⟨b, l⟩
    · simp [merge]
    · rw [List.intercalate_cons_cons, ← ih]
      simp only [merge, reduceCtorEq, if_false, List.dropLast_cons_cons, List.foldl_cons,
        List.nil_append, List.getLast?_cons_cons]
      rw [foldl_merge (a ++ sep)]
      simp only [List.append_assoc]

/-- Where a scan from `index` finds `sep` at `pos`, the rest from `index` is the piece before
it, `sep`, and the rest after it. -/
theorem drop_eq_piece {index pos : ℕ} (hf : findFrom s sep index = some pos) :
    s.drop index = (s.drop index).take (pos - index) ++ sep ++ s.drop (pos + sep.length) := by
  have hle := le_of_findFrom hf
  rw [List.append_assoc, ← eq_append_of_findFrom hf]
  conv_lhs => rw [← List.take_append_drop (pos - index) (s.drop index)]
  rw [List.drop_drop, Nat.add_sub_cancel' hle]

/-- The loop of `split(s, {sep}, false)` from `index` appends pieces that `sep` joins back into
the rest of `s`, but for a scan match that ends the string. -/
theorem splitLoop_eq (hsep : sep ≠ []) (fuel index : ℕ) (result : List (List Char))
    (hi : index ≤ s.length) (hfuel : s.length - index < fuel) :
    ∃ L, splitLoop s [sep] false fuel index result = result ++ L ∧ (L = [] ↔ index = s.length) ∧
      sep.intercalate L ++
        (if ∃ k ∈ scanMatches sep (s.drop index), k + sep.length = s.length - index then sep
          else []) = s.drop index := by
  induction fuel generalizing index result with
  | zero => omega
  | succ fuel ih =>
    by_cases hlt : index < s.length
    · rcases hf : findFrom s sep index with _ | pos
      · -- no match: the rest is the last piece, and the scan of the rest finds nothing
        have hnone : findFrom (s.drop index) sep 0 = none := by simpa [findFrom_drop hi] using hf
        refine ⟨[s.drop index], splitLoop_of_none hlt hf, by simp; omega, ?_⟩
        simp [scanMatches_of_none hnone]
      · have hshift : findFrom (s.drop index) sep 0 = some (pos - index) := by
          rw [findFrom_drop hi] at hf
          obtain ⟨k, hk, rfl⟩ := Option.map_eq_some_iff.mp hf
          rw [hk, Nat.add_sub_cancel]
        have hend := add_length_le hf
        have hle := le_of_findFrom hf
        have hlen := List.length_pos_iff.mpr hsep
        obtain ⟨L, hL, hnil, hcat⟩ := ih (pos + sep.length)
          (result ++ [(s.drop index).take (pos - index)]) hend (by omega)
        refine ⟨(s.drop index).take (pos - index) :: L, ?_, by simp; omega, ?_⟩
        · rw [splitLoop_of_some hsep hlt hf, if_neg (by simp), hL, List.append_assoc]
          rfl
        -- the scan of the rest from `index` is this match and the scan from past it
        have hscan : scanMatches sep (s.drop index) = (pos - index) ::
            (scanMatches sep (s.drop (pos + sep.length))).map (· + (pos - index + sep.length)) := by
          rw [scanMatches_of_some hsep hshift, List.drop_drop,
            show index + (pos - index + sep.length) = pos + sep.length by omega]
        rw [hscan]
        conv_rhs => rw [drop_eq_piece hf]
        rcases L with _ | ⟨l, L⟩
        · -- the match ends the string
          have hpos : pos + sep.length = s.length := hnil.mp rfl
          rw [if_pos ⟨pos - index, List.mem_cons_self, by omega⟩, hpos, List.drop_length]
          simp
        · have hpos : pos + sep.length ≠ s.length := fun h => by simp at hnil; exact hnil h
          have hcond : (∃ k ∈ (pos - index) :: (scanMatches sep (s.drop (pos + sep.length))).map
                (· + (pos - index + sep.length)), k + sep.length = s.length - index) ↔
              ∃ k ∈ scanMatches sep (s.drop (pos + sep.length)),
                k + sep.length = s.length - (pos + sep.length) := by
            simp only [List.mem_cons, List.mem_map, exists_eq_or_imp, exists_exists_and_eq_and]
            constructor
            · rintro (h | ⟨k, hk, h⟩)
              · omega
              · exact ⟨k, hk, by omega⟩
            · rintro ⟨k, hk, h⟩
              exact .inr ⟨k, hk, by omega⟩
          rw [List.intercalate_cons_cons]
          simp only [hcond]
          conv_rhs => rw [← hcat]
          simp only [List.append_assoc]
    · rw [splitLoop, if_neg hlt]
      have hidx : index = s.length := by omega
      refine ⟨[], by simp, by simp [hidx], ?_⟩
      simp [hidx, scanMatches_nil hsep]

/-- No piece the loop appends holds the separator. -/
theorem not_infix_splitLoop (hsep : sep ≠ []) (isSkipEmpty : Bool) (fuel index : ℕ)
    (result : List (List Char)) (hi : index ≤ s.length) :
    ∀ p ∈ splitLoop s [sep] isSkipEmpty fuel index result, p ∈ result ∨ ¬ sep <:+: p := by
  induction fuel generalizing index result with
  | zero => exact fun p hp => .inl hp
  | succ fuel ih =>
    intro p hp
    by_cases hlt : index < s.length
    · rcases hf : findFrom s sep index with _ | pos
      · rw [splitLoop_of_none hlt hf] at hp
        rcases List.mem_append.mp hp with hp | hp
        · exact .inl hp
        · rw [List.mem_singleton.mp hp]
          exact .inr (not_infix_of_findFrom_eq_none (by simpa [findFrom_drop hi] using hf))
      · have hshift : findFrom (s.drop index) sep 0 = some (pos - index) := by
          rw [findFrom_drop hi] at hf
          obtain ⟨k, hk, rfl⟩ := Option.map_eq_some_iff.mp hf
          rw [hk, Nat.add_sub_cancel]
        have hend := add_length_le hf
        rw [splitLoop_of_some hsep hlt hf] at hp
        split_ifs at hp
        · exact ih _ _ hend p hp
        · rcases ih _ _ hend p hp with hp | hp
          · rcases List.mem_append.mp hp with hp | hp
            · exact .inl hp
            · rw [List.mem_singleton.mp hp]
              exact .inr (not_infix_take hsep hshift)
          · exact .inr hp
    · rw [splitLoop, if_neg hlt] at hp
      exact .inl hp

/-- `merge(split(s, {sep}, false), sep)` is `s`, less a final scan match that ends it; and no
piece of `split(s, {sep}, ...)` holds `sep`. -/
theorem merge_split (s sep : List Char) (hsep : sep ≠ []) :
    merge (split s [sep] false) sep =
      (if ∃ k ∈ scanMatches sep s, k + sep.length = s.length then s.take (s.length - sep.length)
        else s) ∧
    ∀ isSkipEmpty, ∀ p ∈ split s [sep] isSkipEmpty, ¬ sep <:+: p := by
  refine ⟨?_, fun isSkipEmpty p hp => ?_⟩
  · obtain ⟨L, hL, hnil, hcat⟩ := splitLoop_eq (s := s) hsep (s.length + 1) 0 [] (Nat.zero_le _)
      (by omega)
    rw [List.nil_append] at hL
    rw [List.drop_zero, Nat.sub_zero] at hcat
    unfold split
    dsimp only
    rw [hL]
    by_cases hs : s = []
    · subst hs
      rw [if_pos ⟨hnil.mpr rfl, rfl⟩, scanMatches_nil hsep]
      simp [merge]
    · have hL' : L ≠ [] := fun h => hs (List.length_eq_zero_iff.mp (hnil.mp h).symm)
      rw [if_neg (fun h => hL' h.1), merge_eq_intercalate]
      split_ifs at hcat ⊢ with hend
      · rw [← hcat, List.length_append, Nat.add_sub_cancel, List.take_left']
        rfl
      · rw [← hcat, List.append_nil]
  · unfold split at hp
    dsimp only at hp
    split_ifs at hp with hempty
    · rw [List.mem_singleton.mp hp]
      intro h
      exact hsep (List.infix_nil.mp h)
    · rcases not_infix_splitLoop hsep isSkipEmpty _ 0 [] (Nat.zero_le _) p hp with h | h
      · cases h
      · exact h

theorem merge_split_trailing :
    ['a', 'a'] ≠ [] ∧
    merge (split ['a', 'a', 'a'] [['a', 'a']] false) ['a', 'a'] =
      (if ∃ k ∈ scanMatches ['a', 'a'] ['a', 'a', 'a'], k + 2 = 3 then ['a'] else ['a', 'a', 'a']) ∧
    ∀ isSkipEmpty, ∀ p ∈ split ['a', 'a', 'a'] [['a', 'a']] isSkipEmpty, ¬ ['a', 'a'] <:+: p :=
  ⟨by decide, merge_split ['a', 'a', 'a'] ['a', 'a'] (by decide)⟩

example : split ['a', 'a', 'a'] [['a', 'a']] false = [[], ['a']] := by decide

example : split ['x', ',', 'y', ','] [[',']] false = [['x'], ['y']] := by decide

end Split

/-! ### `fmt::base57` -/

/-- `s_tail`: the digits written for a last block of `n % 8` bytes. -/
def sTail : List ℕ := [0, 2, 3, 5, 6, 7, 9, 10]

/-- The 57 digits. -/
def base57Alphabet : List Char := "0123456789ACEFGHJKLMNPQRSTUVWXYZabcdefghijkmnopqrstuvwxyz".toList

/-- The bytes `8 k ..< 8 k + 8` of `d`, padded with zeros as the `memset` and `memcpy` do. -/
def block (d : List UInt8) (k : ℕ) : List UInt8 :=
  (d.drop (8 * k)).take 8 ++ List.replicate (8 - ((d.drop (8 * k)).take 8).length) 0

/-- A block loaded into a `be_t<u64>`. -/
def blockValue (b : List UInt8) : ℕ := ofDigitsBE 256 (b.map UInt8.toNat)

/-- `fmt_class_string<fmt::base57>::format`: eleven digits a block, most significant first
(the loop stores `value % 57` at place `j` from `10` down and divides), of which the places
below `out_size` are written. -/
def format (d : List UInt8) : List Char :=
  if d = [] then []
  else
    let outSize := d.length / 8 * 11 + sTail.getD (d.length % 8) 0
    ((List.range ((d.length + 7) / 8)).flatMap fun k =>
      (digitsBE 57 11 (blockValue (block d k))).map fun digit => base57Alphabet.getD digit '0').take
      outSize

/-- The `to_val` lambda of `from_string` on the character's code; `none` is `umax`. -/
def toVal (c : Char) : Option ℕ :=
  let c := c.toNat
  if '0'.toNat ≤ c ∧ c ≤ '9'.toNat then some (c - '0'.toNat)
  else if 'A'.toNat ≤ c ∧ c ≤ 'Z'.toNat then
    if c = 'B'.toNat ∨ c = 'D'.toNat ∨ c = 'I'.toNat ∨ c = 'O'.toNat then none
    else
      let c := if 'O'.toNat < c then c - 4 else if 'I'.toNat < c then c - 3
        else if 'D'.toNat < c then c - 2 else if 'B'.toNat < c then c - 1 else c
      some (c - 'A'.toNat + 10)
  else if 'a'.toNat ≤ c ∧ c ≤ 'z'.toNat then
    if c = 'l'.toNat then none
    else
      let c := if 'l'.toNat < c then c - 1 else c
      some (c - 'a'.toNat + 10 + 22)
  else none

/-- The digit loop of `from_string` over the places `j` from `10` down to `0`, with the weight
`multiplier` of the place before and the `value` so far: a place past the string is skipped,
and an invalid character or an overflow of the `u64` fails. -/
def decodeLoop (beValue : List Char) : List ℕ → ℕ → ℕ → Option ℕ
  | [], _, value => some value
  | j :: js, multiplier, value =>
    let multiplier := if multiplier = 0 then 1 else multiplier * 57
    if j < beValue.length then
      match toVal (beValue.getD j ' ') with
      | none => none
      | some res =>
        if (2 ^ 64 - 1) / multiplier < res then none
        else if 2 ^ 64 - 1 - value < res * multiplier then none
        else decodeLoop beValue js multiplier (value + res * multiplier)
    else decodeLoop beValue js multiplier value

/-- The bytes of a `be_t<u64>`. -/
def beBytes (value : ℕ) : List UInt8 := (digitsBE 256 8 value).map UInt8.ofNat

/-- `fmt::base57_result::from_string`: the bytes of the buffer, eight a block of eleven
characters; a failure leaves an empty buffer. -/
def fromString (str : List Char) : List UInt8 :=
  let size := str.length / 11 * 8 + (if str.length % 11 = 0 then 0 else 8)
  match (List.range (size / 8)).mapM fun k =>
      decodeLoop (str.drop (11 * k)) (List.range 11).reverse 0 0 with
  | some values => values.flatMap beBytes
  | none => []

section Base57

theorem toVal_alphabet : ∀ d < 57, toVal (base57Alphabet.getD d '0') = some d := by
  decide

theorem mod_pow_le_mod_pow {V b s c : ℕ} (h : s ≤ c) : V % b ^ s ≤ V % b ^ c := by
  rw [← Nat.mod_mod_of_dvd V (pow_dvd_pow b h)]
  exact Nat.mod_le _ _

/-- The weight of place `r` of the digit loop, from the weight of the place before. -/
theorem decode_multiplier {r : ℕ} (hr : r < 11) :
    (if (if r + 1 = 11 then 0 else 57 ^ (10 - (r + 1))) = 0 then 1
      else (if r + 1 = 11 then 0 else 57 ^ (10 - (r + 1))) * 57) = 57 ^ (10 - r) := by
  by_cases h : r + 1 = 11
  · rw [if_pos h, if_pos rfl, show 10 - r = 0 by omega, pow_zero]
  · rw [if_neg h, if_neg (by positivity), ← pow_succ, show 10 - (r + 1) + 1 = 10 - r by omega]

/-- Where a block's string holds the first `t` of the eleven digits of `V`, the digit loop
reads `V` with the missing places as zeros: `V` floored to a multiple of `57 ^ (11 - t)`. After
the places `10` down to `r`, the value is `V` modulo `57 ^ (11 - r)` less its skipped places. -/
theorem decodeLoop_eq {V t : ℕ} {str : List Char} (hV : V < 2 ^ 64) (hlen : min str.length 11 = t)
    (hdig : ∀ j < t, str.getD j ' ' = base57Alphabet.getD (V / 57 ^ (10 - j) % 57) '0') :
    ∀ r ≤ 11, decodeLoop str (List.range r).reverse (if r = 11 then 0 else 57 ^ (10 - r))
      (V % 57 ^ (11 - r) - V % 57 ^ min (11 - r) (11 - t)) = some (V - V % 57 ^ (11 - t)) := by
  have ht : t ≤ 11 := hlen ▸ min_le_right _ _
  have hV57 : V < 57 ^ 11 := lt_of_lt_of_le hV (by norm_num)
  intro r hr
  induction r with
  | zero =>
    simp only [List.range_zero, List.reverse_nil, decodeLoop, Nat.sub_zero]
    rw [Nat.mod_eq_of_lt hV57, min_eq_right (by omega)]
  | succ r ih =>
    have ih' := ih (by omega)
    rw [if_neg (show r ≠ 11 by omega)] at ih'
    rw [List.range_succ, List.reverse_append, List.reverse_singleton, List.singleton_append,
      decodeLoop, decode_multiplier hr, ← ih', show 11 - (r + 1) = 10 - r by omega]
    have hsplit : V % 57 ^ (11 - r) = V % 57 ^ (10 - r) + V / 57 ^ (10 - r) % 57 * 57 ^ (10 - r) := by
      rw [show 11 - r = 10 - r + 1 by omega, Nat.mod_pow_succ, Nat.mul_comm]
    have hmodle : V % 57 ^ (11 - r) ≤ V := Nat.mod_le _ _
    by_cases hrt : r < t
    · -- place `r` holds a digit: its weight is `57 ^ (10 - r)`, and no check fails
      have hs : min (10 - r) (11 - t) = 11 - t := min_eq_right (by omega)
      have hs' : min (11 - r) (11 - t) = 11 - t := min_eq_right (by omega)
      have hle := mod_pow_le_mod_pow (V := V) (b := 57) (show 11 - t ≤ 10 - r by omega)
      rw [if_pos (by omega), hdig r hrt, toVal_alphabet _ (Nat.mod_lt _ (by norm_num))]
      dsimp only
      rw [hs, hs']
      generalize V / 57 ^ (10 - r) % 57 = D at hsplit ⊢
      generalize V % 57 ^ (11 - r) = M at hsplit hmodle ⊢
      rw [if_neg (not_lt.mpr ((Nat.le_div_iff_mul_le (by positivity)).mpr (by omega))),
        if_neg (by omega)]
      congr 1
      omega
    · -- place `r` is past the string: skipped, and nothing is read yet
      have hs : min (10 - r) (11 - t) = 10 - r := min_eq_left (by omega)
      have hs' : min (11 - r) (11 - t) = 11 - r := min_eq_left (by omega)
      rw [if_neg (by omega), hs, hs', Nat.sub_self, Nat.sub_self]

/-! The text of `format`: eleven characters a block, the last block cut to `out_size`. -/

theorem length_flatMap_const {β : Type*} {f : ℕ → List β} {w : ℕ} (hf : ∀ k, (f k).length = w)
    (l : List ℕ) : (l.flatMap f).length = w * l.length := by
  induction l with
  | nil => simp
  | cons a l ih =>
    rw [List.flatMap_cons, List.length_append, ih, hf, List.length_cons]
    ring

theorem drop_flatMap_range {β : Type*} {f : ℕ → List β} {w : ℕ} (hf : ∀ k, (f k).length = w)
    {n k : ℕ} (hk : k < n) :
    ((List.range n).flatMap f).drop (w * k) =
      f k ++ (List.range' (k + 1) (n - (k + 1))).flatMap f := by
  have hrange : List.range n = List.range k ++ k :: List.range' (k + 1) (n - (k + 1)) := by
    have h := (List.range'_append_1 (s := 0) (m := k) (n := n - k)).symm
    rw [Nat.zero_add, Nat.add_sub_cancel' hk.le] at h
    rw [List.range_eq_range', List.range_eq_range', h, show n - k = n - (k + 1) + 1 by omega,
      List.range'_succ]
  rw [hrange, List.flatMap_append, List.flatMap_cons,
    List.drop_left' (by rw [length_flatMap_const hf, List.length_range])]

/-- The digits of block `k` as characters. -/
def blockText (d : List UInt8) (k : ℕ) : List Char :=
  (digitsBE 57 11 (blockValue (block d k))).map fun digit => base57Alphabet.getD digit '0'

/-- `out_size`. -/
def outSize (n : ℕ) : ℕ := n / 8 * 11 + sTail.getD (n % 8) 0

theorem sTail_bounds : ∀ m < 8, 0 < m → 2 ≤ sTail.getD m 0 ∧ sTail.getD m 0 ≤ 10 := by
  decide

theorem outSize_le (n : ℕ) : outSize n ≤ 11 * ((n + 7) / 8) := by
  unfold outSize
  rcases Nat.eq_zero_or_pos (n % 8) with h | h
  · rw [h]
    simp only [sTail, List.getD_cons_zero]
    omega
  · have := sTail_bounds (n % 8) (Nat.mod_lt _ (by norm_num)) h
    omega

theorem length_blockText (d : List UInt8) (k : ℕ) : (blockText d k).length = 11 := by
  simp [blockText]

theorem format_eq {d : List UInt8} (hd : d ≠ []) :
    format d = ((List.range ((d.length + 7) / 8)).flatMap (blockText d)).take (outSize d.length) :=
  if_neg hd

/-- Block `k` of the text is the first `out_size - 11 k` of its eleven digits, at most. -/
theorem drop_format {d : List UInt8} {k : ℕ} (hd : d ≠ []) (hk : k < (d.length + 7) / 8) :
    min ((format d).drop (11 * k)).length 11 = min (outSize d.length - 11 * k) 11 ∧
    ∀ j < min (outSize d.length - 11 * k) 11, ((format d).drop (11 * k)).getD j ' ' =
      base57Alphabet.getD (blockValue (block d k) / 57 ^ (10 - j) % 57) '0' := by
  have hdrop : (format d).drop (11 * k) = (blockText d k ++
      (List.range' (k + 1) ((d.length + 7) / 8 - (k + 1))).flatMap (blockText d)).take
        (outSize d.length - 11 * k) := by
    rw [format_eq hd, List.drop_take, drop_flatMap_range (length_blockText d) hk]
  rw [hdrop]
  refine ⟨?_, fun j hj => ?_⟩
  · simp only [List.length_take, List.length_append, length_blockText]
    omega
  · rw [List.getD_eq_getElem?_getD, List.getElem?_take, if_pos (by omega),
      List.getElem?_append_left (by rw [length_blockText]; omega), ← List.getD_eq_getElem?_getD]
    have hdig := getD_digitsBE (b := 57) (k := 11) (v := blockValue (block d k)) (j := j) (by omega)
    rw [List.getD_eq_getElem?_getD, List.getElem?_eq_getElem (by simp; omega)] at hdig
    unfold blockText
    rw [List.getD_eq_getElem?_getD, List.getElem?_map, List.getElem?_eq_getElem (by simp; omega)]
    simp only [Option.map_some, Option.getD_some] at hdig ⊢
    rw [hdig, show 11 - 1 - j = 10 - j by omega]

/-! The decoder on that text. -/

@[simp] theorem length_block (d : List UInt8) (k : ℕ) : (block d k).length = 8 := by
  simp only [block, List.length_append, List.length_replicate, List.length_take]
  omega

theorem blockValue_lt (d : List UInt8) (k : ℕ) : blockValue (block d k) < 2 ^ 64 := by
  have h := ofDigitsBE_lt (b := 256) (l := (block d k).map UInt8.toNat)
    (fun x hx => by
      obtain ⟨y, -, rfl⟩ := List.mem_map.mp hx
      exact y.toNat_lt)
  rw [List.length_map, length_block] at h
  exact lt_of_lt_of_eq h (by norm_num)

theorem beBytes_blockValue {b : List UInt8} (hb : b.length = 8) : beBytes (blockValue b) = b := by
  have h := digitsBE_ofDigitsBE (b := 256) (l := b.map UInt8.toNat)
    (fun x hx => by
      obtain ⟨y, -, rfl⟩ := List.mem_map.mp hx
      exact y.toNat_lt)
  rw [List.length_map, hb] at h
  rw [beBytes, blockValue, h, List.map_map]
  conv_rhs => rw [← List.map_id b]
  apply List.map_congr_left
  intro x _
  exact UInt8.ofNat_toNat

theorem length_format {d : List UInt8} (hd : d ≠ []) : (format d).length = outSize d.length := by
  rw [format_eq hd, List.length_take, length_flatMap_const (length_blockText d), List.length_range]
  exact min_eq_left (outSize_le _)

/-- The buffer `from_string` makes for the text of `n > 0` bytes has a block of eight bytes for
each block of the data. -/
theorem fromString_blocks (n : ℕ) :
    (outSize n / 11 * 8 + (if outSize n % 11 = 0 then 0 else 8)) / 8 = (n + 7) / 8 := by
  unfold outSize
  rcases Nat.eq_zero_or_pos (n % 8) with h | h
  · simp only [h, sTail, List.getD_cons_zero, Nat.add_zero]
    rw [if_pos (by omega)]
    omega
  · have := sTail_bounds (n % 8) (Nat.mod_lt _ (by norm_num)) h
    rw [if_neg (by omega)]
    omega

/-- `from_string` of a `format` text: each block read back with its missing low digits as zeros,
that is floored to a multiple of `57 ^ (11 - t)` for the `t` digits written. -/
theorem fromString_format (d : List UInt8) :
    fromString (format d) = (List.range ((d.length + 7) / 8)).flatMap fun k =>
      beBytes (blockValue (block d k) -
        blockValue (block d k) % 57 ^ (11 - min (outSize d.length - 11 * k) 11)) := by
  by_cases hd : d = []
  · subst hd
    rfl
  unfold fromString
  dsimp only
  rw [length_format hd, fromString_blocks, Loop.mapM_eq_some (h := fun k => blockValue (block d k) -
      blockValue (block d k) % 57 ^ (11 - min (outSize d.length - 11 * k) 11)) _ fun k hk => ?_]
  · dsimp only
    rw [List.flatMap_map]
  · obtain ⟨hlen, hdig⟩ := drop_format hd (List.mem_range.mp hk)
    have h := decodeLoop_eq (blockValue_lt d k) hlen hdig 11 le_rfl
    simpa using h

theorem flatMap_block {d : List UInt8} {m : ℕ} (hm : 8 * m ≤ d.length) :
    (List.range m).flatMap (block d) = d.take (8 * m) := by
  induction m with
  | zero => simp
  | succ m ih =>
    rw [List.range_succ, List.flatMap_append, ih (by omega), List.flatMap_singleton,
      show 8 * (m + 1) = 8 * m + 8 by ring, List.take_add, block]
    have hlen : ((d.drop (8 * m)).take 8).length = 8 := by simp; omega
    rw [hlen, Nat.sub_self, List.replicate_zero, List.append_nil]

/-- Data of whole blocks comes back: eleven digits hold a `u64`. -/
theorem fromString_format_of_dvd {d : List UInt8} (h : d.length % 8 = 0) :
    fromString (format d) = d := by
  rw [fromString_format]
  have hfull : ∀ k ∈ List.range ((d.length + 7) / 8),
      beBytes (blockValue (block d k) -
        blockValue (block d k) % 57 ^ (11 - min (outSize d.length - 11 * k) 11)) = block d k := by
    intro k hk
    have hk := List.mem_range.mp hk
    have hmin : min (outSize d.length - 11 * k) 11 = 11 := by
      unfold outSize
      simp only [h, sTail, List.getD_cons_zero]
      omega
    rw [hmin, Nat.sub_self, pow_zero, Nat.mod_one, Nat.sub_zero, beBytes_blockValue (length_block d k)]
  rw [List.flatMap_congr hfull, flatMap_block (by omega), List.take_of_length_le (by omega)]

/-- One byte `1`: its two digits `0C` weigh `11 * 57 ^ 9`, below `2 ^ 56`, so the byte comes back
as `0`, followed by seven bytes of the remainder. -/
theorem base57_tail_rounds_down :
    format [1] = ['0', 'C'] ∧ fromString (format [1]) = [0, 248, 54, 212, 186, 52, 176, 179] := by
  decide

end Base57

end Rpcs3.Util.StrFmt
