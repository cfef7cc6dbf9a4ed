import Mathlib

/-! The name translation of the virtual file system (`rpcs3/Emu/VFS.cpp`). `escape` turns
a guest file name into a host one, writing each byte Windows refuses as a full-width
character; `unescape` reads such a name back. Bytes are `UInt8`, as `char8_t` is, and the
loops' `get_char` reads a NUL past the end of the name.

Every escaped name is a legal Windows path component (`escape_legal`). `unescape` undoes
`escape` on every byte but the control bytes: their cases in `unescape` leave the loop
through `continue` and skip nothing, so the two bytes after the lead byte of `０`..`９` and
`Ａ`..`Ｖ` are copied as well (`unescape_escape`). -/
namespace Rpcs3.Emu.Vfs

/-- `get_char`: the byte at `pos`, or NUL past the end of the name. -/
def getChar (name : List UInt8) (pos : ℕ) : UInt8 := name.getD pos 0

@[simp] theorem getChar_nil (pos : ℕ) : getChar [] pos = 0 := rfl

@[simp] theorem getChar_cons_zero (b : UInt8) (l : List UInt8) : getChar (b :: l) 0 = b := rfl

@[simp] theorem getChar_cons_succ (b : UInt8) (l : List UInt8) (pos : ℕ) :
    getChar (b :: l) (pos + 1) = getChar l pos := rfl

/-- A full-width character of U+FF01..U+FF5E after a lead byte `0xEF`: `EF BC 81..BF` or
`EF BD 80..9E`. -/
def FullWidthTail (c2 c3 : UInt8) : Prop :=
  (c2 = 0xBC ∧ 0x81 ≤ c3 ∧ c3 ≤ 0xBF) ∨ (c2 = 0xBD ∧ 0x80 ≤ c3 ∧ c3 ≤ 0x9E)

instance (c2 c3 : UInt8) : Decidable (FullWidthTail c2 c3) :=
  inferInstanceAs (Decidable (_ ∨ _))

/-- What the loop of `escape` appends for the byte `c`, `c2` and `c3` being the two after it. -/
def escapeChar (escapeSlash : Bool) (c c2 c3 : UInt8) : List UInt8 :=
  match c with
  | 0x3C => [0xEF, 0xBC, 0x9C]
  | 0x3E => [0xEF, 0xBC, 0x9E]
  | 0x3A => [0xEF, 0xBC, 0x9A]
  | 0x22 => [0xEF, 0xBC, 0x82]
  | 0x5C => [0xEF, 0xBC, 0xBC]
  | 0x7C => [0xEF, 0xBD, 0x9C]
  | 0x3F => [0xEF, 0xBC, 0x9F]
  | 0x2A => [0xEF, 0xBC, 0x8A]
  | 0x2F => if escapeSlash then [0xEF, 0xBC, 0x8F] else [0x2F]
  -- a period or a space may not end a name on Windows
  | 0x2E => if c2 = 0 then [0xEF, 0xBC, 0x8E] else [0x2E]
  | 0x20 => if c2 = 0 then [0xEF, 0xBC, 0xBF] else [0x20]
  -- a full-width character already there is marked with `！`
  | 0xEF =>
    (if FullWidthTail c2 c3 then [0xEF, 0xBC, 0x81] else []) ++ [0xEF]
  | _ =>
    if c ≤ 9 then [0xEF, 0xBC, 0x90 + c]
    else if c ≤ 31 then [0xEF, 0xBC, 0xA1 + c - 10]
    else [c]

/-- The loop of `escape`, from a byte on. -/
def escapeFrom (escapeSlash : Bool) : List UInt8 → List UInt8
  | [] => []
  | c :: rest =>
    escapeChar escapeSlash c (getChar rest 0) (getChar rest 1) ++ escapeFrom escapeSlash rest

/-- `toupper` on a byte. A byte above `0x7F` is a negative `char`, which it returns as it is. -/
def toUpper (b : UInt8) : UInt8 := if 0x61 ≤ b ∧ b ≤ 0x7A then b - 0x20 else b

/-- A name `escape` prefixes with `！`: `COM1`..`COM9`, `LPT1`..`LPT9`, `NUL`, `CON`, `AUX` or
`PRN` in any case, alone or before a period. -/
def reservedDevice : List UInt8 → Bool
  | a :: b :: c :: rest =>
    let triple := [toUpper a, toUpper b, toUpper c]
    if triple = [0x43, 0x4F, 0x4D] ∨ triple = [0x4C, 0x50, 0x54] then
      match rest with
      | d :: more => 0x31 ≤ d && d ≤ 0x39 && (more.isEmpty || more.head? == some 0x2E)
      | [] => false
    else if triple = [0x4E, 0x55, 0x4C] ∨ triple = [0x43, 0x4F, 0x4E] ∨
        triple = [0x41, 0x55, 0x58] ∨ triple = [0x50, 0x52, 0x4E] then
      rest.isEmpty || rest.head? == some 0x2E
    else false
  | _ => false

/-- `vfs::escape`. -/
def escape (name : List UInt8) (escapeSlash : Bool) : List UInt8 :=
  if name.length ≤ 2 ∧ name.all (· == 0x2E) then name
  else (if reservedDevice name then [0xEF, 0xBC, 0x81] else []) ++ escapeFrom escapeSlash name

/-- One turn of the loop of `unescape`: append `out` and go on after `skip` more bytes, or
append `out` and return. -/
inductive Action where
  | next (out : List UInt8) (skip : ℕ)
  | stop (out : List UInt8)

/-- One turn of the loop of `unescape` at the byte `c`, `c2`, `c3` and `c4` being the three
after it and `atStart` telling whether `c` is the first byte. -/
def unescapeChar (atStart : Bool) (c c2 c3 c4 : UInt8) : Action :=
  match c with
  | 0xEF =>
    match c2 with
    | 0xBC =>
      if 0x81 ≤ c3 ∧ c3 ≤ 0xBF then
        match c3 with
        -- `！`: the byte after it as it is, or the end at a NUL
        | 0x81 => if c4 ≠ 0 then .next [c4] 3 else .stop []
        | 0xBF => .next [0x20] 2
        | 0x8E => .next [0x2E] 2
        | 0x9C => .next [0x3C] 2
        | 0x9E => .next [0x3E] 2
        | 0x9A => .next [0x3A] 2
        | 0x82 => .next [0x22] 2
        | 0xBC => .next [0x5C] 2
        | 0x9F => .next [0x3F] 2
        | 0x8A => .next [0x2A] 2
        -- a name starting with `＄` was left by `vfs::host::unlink`
        | 0x84 => if atStart then .stop [0x2E] else .next [] 2
        | _ =>
          -- `０`..`９` and `Ａ`..`Ｖ` leave through `continue`, skipping nothing
          if 0x90 ≤ c3 ∧ c3 ≤ 0x99 then .next [c3 - 0x90] 0
          else if 0xA1 ≤ c3 ∧ c3 ≤ 0xB6 then .next [c3 - 0xA1 + 10] 0
          else .next [] 2
      else .next [0xEF] 0
    | 0xBD =>
      if 0x80 ≤ c3 ∧ c3 ≤ 0x9E then .next (if c3 = 0x9C then [0x7C] else []) 2
      else .next [0xEF] 0
    | _ => .next [0xEF] 0
  -- NTS detected
  | 0 => .stop []
  | _ => .next [c] 0

/-- The loop of `unescape`, from a byte on. -/
def unescapeFrom (atStart : Bool) : List UInt8 → List UInt8
  | [] => []
  | c :: rest =>
    match unescapeChar atStart c (getChar rest 0) (getChar rest 1) (getChar rest 2) with
    | .next out skip => out ++ unescapeFrom false (rest.drop skip)
    | .stop out => out
termination_by l => l.length
decreasing_by simp only [List.length_drop, List.length_cons]; omega

/-- `vfs::unescape`. -/
def unescape (name : List UInt8) : List UInt8 := unescapeFrom true name

/-! ### `escape`, byte by byte -/

theorem escapeFrom_cons (s : Bool) (c : UInt8) (rest : List UInt8) :
    escapeFrom s (c :: rest) =
      escapeChar s c (getChar rest 0) (getChar rest 1) ++ escapeFrom s rest := rfl

/-- Each byte is copied or written as a sequence starting with the lead byte `0xEF`. -/
theorem escapeChar_head (s : Bool) (c c2 c3 : UInt8) :
    escapeChar s c c2 c3 = [c] ∨ ∃ t, escapeChar s c c2 c3 = 0xEF :: t := by
  unfold escapeChar
  split
  all_goals repeat' split
  all_goals first | exact .inl rfl | exact .inr ⟨_, rfl⟩

theorem escapeChar_ne_nil (s : Bool) (c c2 c3 : UInt8) : escapeChar s c c2 c3 ≠ [] := by
  rcases escapeChar_head s c c2 c3 with h | ⟨t, h⟩ <;> simp [h]

theorem escapeFrom_eq_nil {s : Bool} {l : List UInt8} : escapeFrom s l = [] ↔ l = [] := by
  cases l with
  | nil => simp [escapeFrom]
  | cons c rest => simp [escapeFrom_cons, escapeChar_ne_nil]

theorem escapeChar_high {c : UInt8} (h : 0x80 ≤ c) (hef : c ≠ 0xEF) (s : Bool) (c2 c3 : UInt8) :
    escapeChar s c c2 c3 = [c] := by
  unfold escapeChar
  split
  all_goals first | exact absurd h (by decide) | exact absurd rfl hef | skip
  rw [if_neg (by grind), if_neg (by grind)]

theorem escapeChar_alpha {c : UInt8} (h : 0x41 ≤ c ∧ c ≤ 0x5A ∨ 0x61 ≤ c ∧ c ≤ 0x7A)
    (s : Bool) (c2 c3 : UInt8) : escapeChar s c c2 c3 = [c] := by
  unfold escapeChar
  split
  all_goals first | exact absurd h (by decide) | skip
  rw [if_neg (by grind), if_neg (by grind)]

/-- The first byte of an escaped name is the name's first byte or a lead byte. -/
theorem getChar_escapeFrom (s : Bool) (l : List UInt8) :
    getChar (escapeFrom s l) 0 = getChar l 0 ∨ getChar (escapeFrom s l) 0 = 0xEF := by
  cases l with
  | nil => exact .inl rfl
  | cons c r =>
    rcases escapeChar_head s c (getChar r 0) (getChar r 1) with h | ⟨t, h⟩
    · left; simp [escapeFrom_cons, h]
    · right; simp [escapeFrom_cons, h]

/-- Where `escape` did not mark a lead byte, `unescape` sees no full-width character after it. -/
theorem not_fullWidthTail_escapeFrom (s : Bool) (rest : List UInt8)
    (h : ¬ FullWidthTail (getChar rest 0) (getChar rest 1)) :
    ¬ FullWidthTail (getChar (escapeFrom s rest) 0) (getChar (escapeFrom s rest) 1) := by
  cases rest with
  | nil => simp [escapeFrom, FullWidthTail]
  | cons b r =>
    by_cases hb : b = 0xBC ∨ b = 0xBD
    · -- `b` is copied; the byte after it is the first of `r` or a lead byte
      have hc := escapeChar_high (c := b) (by grind) (by grind) s (getChar r 0) (getChar r 1)
      have h1 := getChar_escapeFrom s r
      simp only [escapeFrom_cons, hc, List.singleton_append, getChar_cons_zero,
        getChar_cons_succ] at h ⊢
      unfold FullWidthTail at h ⊢
      grind
    · have h0 := getChar_escapeFrom s (b :: r)
      simp only [getChar_cons_zero] at h0
      unfold FullWidthTail
      grind

/-- Bytes of an escaped name that are not lead bytes were copied from the name. -/
theorem escapeFrom_eq_append {s : Bool} {p : List UInt8} (hp : ∀ b ∈ p, b ≠ 0xEF) :
    ∀ {l t : List UInt8}, escapeFrom s l = p ++ t → ∃ r, l = p ++ r ∧ escapeFrom s r = t := by
  induction p with
  | nil => exact fun h => ⟨_, rfl, h⟩
  | cons b p ih =>
    intro l t h
    cases l with
    | nil => simp [escapeFrom] at h
    | cons c rest =>
      rw [escapeFrom_cons] at h
      rcases escapeChar_head s c (getChar rest 0) (getChar rest 1) with hc | ⟨u, hc⟩
      · rw [hc, List.cons_append, List.cons_append, List.nil_append, List.cons.injEq] at h
        obtain ⟨rfl, h⟩ := h
        obtain ⟨r, rfl, hr⟩ := ih (fun x hx => hp x (List.mem_cons_of_mem c hx)) h
        exact ⟨r, rfl, hr⟩
      · rw [hc, List.cons_append, List.cons_append, List.cons.injEq] at h
        exact absurd h.1.symm (hp b List.mem_cons_self)

/-! ### `unescape`, turn by turn -/

@[simp] theorem unescapeFrom_nil (a : Bool) : unescapeFrom a [] = [] := by
  rw [unescapeFrom]

theorem unescapeFrom_next {a : Bool} {c : UInt8} {rest out : List UInt8} {skip : ℕ}
    (h : unescapeChar a c (getChar rest 0) (getChar rest 1) (getChar rest 2) = .next out skip) :
    unescapeFrom a (c :: rest) = out ++ unescapeFrom false (rest.drop skip) := by
  rw [unescapeFrom, h]

theorem unescapeChar_plain {c : UInt8} (h0 : c ≠ 0) (hef : c ≠ 0xEF) (a : Bool)
    (c2 c3 c4 : UInt8) : unescapeChar a c c2 c3 c4 = .next [c] 0 := by
  unfold unescapeChar
  split
  · exact absurd rfl hef
  · exact absurd rfl h0
  · rfl

theorem unescapeFrom_plain {c : UInt8} (h0 : c ≠ 0) (hef : c ≠ 0xEF) (a : Bool)
    (rest : List UInt8) : unescapeFrom a (c :: rest) = c :: unescapeFrom false rest := by
  rw [unescapeFrom_next (unescapeChar_plain h0 hef a _ _ _)]
  rfl

theorem unescapeFrom_wide {a : Bool} {c2 c3 o : UInt8} {T : List UInt8}
    (h : unescapeChar a 0xEF c2 c3 (getChar T 0) = .next [o] 2) :
    unescapeFrom a (0xEF :: c2 :: c3 :: T) = o :: unescapeFrom false T := by
  rw [unescapeFrom_next h]
  rfl

theorem unescapeFrom_mark {a : Bool} {c4 : UInt8} (h : c4 ≠ 0) (T : List UInt8) :
    unescapeFrom a (0xEF :: 0xBC :: 0x81 :: c4 :: T) = c4 :: unescapeFrom false T := by
  have hc : unescapeChar a 0xEF 0xBC 0x81 c4 = .next [c4] 3 := by simp [unescapeChar, h]
  rw [unescapeFrom_next hc]
  rfl

theorem unescapeChar_lead {a : Bool} {c2 c3 : UInt8} (h : ¬ FullWidthTail c2 c3) (c4 : UInt8) :
    unescapeChar a 0xEF c2 c3 c4 = .next [0xEF] 0 := by
  unfold FullWidthTail at h
  simp only [unescapeChar]
  split
  · rw [if_neg (by grind)]
  · rw [if_neg (by grind)]
  · rfl

theorem unescapeChar_digit {a : Bool} {c3 : UInt8} (h : 0x90 ≤ c3 ∧ c3 ≤ 0x99) (c4 : UInt8) :
    unescapeChar a 0xEF 0xBC c3 c4 = .next [c3 - 0x90] 0 := by
  have hr : 0x81 ≤ c3 ∧ c3 ≤ 0xBF := by grind
  simp only [unescapeChar]
  rw [if_pos hr]
  split
  all_goals first | exact absurd h (by decide) | rw [if_pos h]

theorem unescapeChar_letter {a : Bool} {c3 : UInt8} (h : 0xA1 ≤ c3 ∧ c3 ≤ 0xB6) (c4 : UInt8) :
    unescapeChar a 0xEF 0xBC c3 c4 = .next [c3 - 0xA1 + 10] 0 := by
  have hr : 0x81 ≤ c3 ∧ c3 ≤ 0xBF := by grind
  simp only [unescapeChar]
  rw [if_pos hr]
  split
  all_goals first | exact absurd h (by decide) | rw [if_neg (by grind), if_pos h]

/-- A digit or letter case leaves through `continue`: the last two bytes of its sequence are
read again as bytes of their own. -/
theorem unescapeFrom_control {a : Bool} {c3 o : UInt8} {T : List UInt8}
    (hc3 : c3 ≠ 0 ∧ c3 ≠ 0xEF) (h : unescapeChar a 0xEF 0xBC c3 (getChar T 0) = .next [o] 0) :
    unescapeFrom a (0xEF :: 0xBC :: c3 :: T) = o :: 0xBC :: c3 :: unescapeFrom false T := by
  rw [unescapeFrom_next h, List.drop_zero, unescapeFrom_plain (by decide) (by decide),
    unescapeFrom_plain hc3.1 hc3.2]
  rfl

/-! ### The round trip -/

/-- What `unescape (escape name false)` makes of one byte of `name`: a control byte comes
back followed by the last two bytes of its full-width form, every other byte as it is. -/
def roundTrip (c : UInt8) : List UInt8 :=
  if c ≤ 9 then [c, 0xBC, 0x90 + c] else if c ≤ 31 then [c, 0xBC, 0xA1 + c - 10] else [c]

theorem unescapeFrom_escapeChar (a : Bool) (c : UInt8) (rest : List UInt8) :
    unescapeFrom a (escapeChar false c (getChar rest 0) (getChar rest 1) ++ escapeFrom false rest) =
      roundTrip c ++ unescapeFrom false (escapeFrom false rest) := by
  unfold escapeChar
  split
  -- `< > : " \ | ? *` come back from their full-width forms
  any_goals exact unescapeFrom_wide rfl
  -- a slash is kept
  · exact unescapeFrom_plain (by decide) (by decide) a _
  -- a period or a space, escaped at the end of the name
  · split
    · exact unescapeFrom_wide rfl
    · exact unescapeFrom_plain (by decide) (by decide) a _
  · split
    · exact unescapeFrom_wide rfl
    · exact unescapeFrom_plain (by decide) (by decide) a _
  -- a lead byte, marked when a full-width character follows
  · split
    · exact unescapeFrom_mark (by decide) _
    · have h := unescapeChar_lead (a := a)
        (not_fullWidthTail_escapeFrom false rest ‹_›) (getChar (escapeFrom false rest) 2)
      rw [List.nil_append, List.singleton_append, unescapeFrom_next h]
      rfl
  -- a control byte, and every other byte
  · rename_i hef
    split
    · rw [roundTrip, if_pos ‹_›]
      rw [List.cons_append, List.cons_append, List.cons_append, List.nil_append,
        unescapeFrom_control (by grind) (unescapeChar_digit (by grind) _), add_sub_cancel_left]
      rfl
    · split
      · rw [roundTrip, if_neg ‹_›, if_pos ‹_›]
        rw [List.cons_append, List.cons_append, List.cons_append, List.nil_append,
          unescapeFrom_control (by grind) (unescapeChar_letter (by grind) _)]
        congr 1
        grind
      · rw [roundTrip, if_neg ‹_›, if_neg ‹_›, List.singleton_append]
        exact unescapeFrom_plain (by grind) (fun h => hef h) a _

theorem unescapeFrom_escapeFrom (a : Bool) (name : List UInt8) :
    unescapeFrom a (escapeFrom false name) = name.flatMap roundTrip := by
  induction name generalizing a with
  | nil => simp [escapeFrom]
  | cons c rest ih =>
    rw [escapeFrom_cons, unescapeFrom_escapeChar, ih, List.flatMap_cons]

theorem alpha_of_toUpper {a u : UInt8} (h : toUpper a = u) (hu : 0x41 ≤ u ∧ u ≤ 0x5A) :
    0x41 ≤ a ∧ a ≤ 0x5A ∨ 0x61 ≤ a ∧ a ≤ 0x7A := by
  unfold toUpper at h
  split at h <;> grind

theorem reservedDevice_head {name : List UInt8} (h : reservedDevice name = true) :
    ∃ a r, name = a :: r ∧ (0x41 ≤ a ∧ a ≤ 0x5A ∨ 0x61 ≤ a ∧ a ≤ 0x7A) := by
  match name, h with
  | a :: b :: c :: rest, h =>
    refine ⟨a, b :: c :: rest, rfl, ?_⟩
    simp only [reservedDevice] at h
    split_ifs at h with h1 h2
    · rcases h1 with h1 | h1 <;> exact alpha_of_toUpper (List.cons.inj h1).1 (by decide)
    · rcases h2 with h2 | h2 | h2 | h2 <;> exact alpha_of_toUpper (List.cons.inj h2).1 (by decide)

/-- `unescape` after `escape`, for every name. -/
theorem unescape_escape (name : List UInt8) :
    unescape (escape name false) = name.flatMap roundTrip := by
  unfold escape unescape
  split
  · -- `""`, `.` and `..` are returned as they are
    rename_i h
    rcases name with _ | ⟨d, _ | ⟨e, _ | ⟨f, r⟩⟩⟩
    · simp
    · have hd : d = 0x2E := by simpa using h
      subst hd
      rw [unescapeFrom_plain (by decide) (by decide), unescapeFrom_nil]
      rfl
    · have hd : d = 0x2E ∧ e = 0x2E := by simpa using h
      obtain ⟨rfl, rfl⟩ := hd
      rw [unescapeFrom_plain (by decide) (by decide), unescapeFrom_plain (by decide) (by decide),
        unescapeFrom_nil]
      rfl
    · simp at h
  · split
    · -- a device name: the mark `！` and its first letter
      obtain ⟨c, r, rfl, hc⟩ := reservedDevice_head ‹_›
      rw [escapeFrom_cons, escapeChar_alpha hc, List.cons_append, List.cons_append,
        List.cons_append, List.nil_append, List.singleton_append,
        unescapeFrom_mark (by grind), unescapeFrom_escapeFrom, List.flatMap_cons, roundTrip,
        if_neg (by grind), if_neg (by grind), List.singleton_append]
    · rw [List.nil_append, unescapeFrom_escapeFrom]

theorem unescape_escape_control : unescape (escape [0x01] false) = [0x01, 0xBC, 0x91] := by
  rw [unescape_escape]
  rfl

/-! ### Escaped names are legal on Windows -/

/-- The bytes a Windows path component may not hold: the control bytes, `< > : " \ | ? *`,
and the slash where slashes are escaped. -/
def Forbidden (escapeSlash : Bool) (b : UInt8) : Prop :=
  b ≤ 31 ∨ b = 0x3C ∨ b = 0x3E ∨ b = 0x3A ∨ b = 0x22 ∨ b = 0x5C ∨ b = 0x7C ∨ b = 0x3F ∨
    b = 0x2A ∨ (escapeSlash = true ∧ b = 0x2F)

/-- The device names Windows reserves, in capitals: `CON`, `PRN`, `AUX`, `NUL`, `COM1`..`COM9`
and `LPT1`..`LPT9`. -/
def DeviceStem : List UInt8 → Prop
  | [a, b, c] => [a, b, c] = [0x43, 0x4F, 0x4E] ∨ [a, b, c] = [0x50, 0x52, 0x4E] ∨
      [a, b, c] = [0x41, 0x55, 0x58] ∨ [a, b, c] = [0x4E, 0x55, 0x4C]
  | [a, b, c, d] => ([a, b, c] = [0x43, 0x4F, 0x4D] ∨ [a, b, c] = [0x4C, 0x50, 0x54]) ∧
      0x31 ≤ d ∧ d ≤ 0x39
  | _ => False

/-- A component Windows reads as a device: a reserved name in any case, alone or before an
extension. -/
def IsDevice (out : List UInt8) : Prop :=
  ∃ stem ext, out = stem ++ ext ∧ DeviceStem (stem.map toUpper) ∧
    (ext = [] ∨ ext.head? = some 0x2E)

/-- A legal Windows path component. -/
structure Legal (escapeSlash : Bool) (out : List UInt8) : Prop where
  allowed : ∀ b ∈ out, ¬ Forbidden escapeSlash b
  not_period_end : out.getLast? ≠ some 0x2E
  not_space_end : out.getLast? ≠ some 0x20
  not_device : ¬ IsDevice out

theorem escapeChar_allowed (s : Bool) (c c2 c3 : UInt8) :
    ∀ b ∈ escapeChar s c c2 c3, ¬ Forbidden s b := by
  unfold escapeChar
  split
  all_goals repeat' split
  all_goals simp only [List.forall_mem_cons, List.cons_append, List.nil_append]
  all_goals repeat' apply And.intro
  all_goals unfold Forbidden; grind

theorem escapeFrom_allowed (s : Bool) (l : List UInt8) : ∀ b ∈ escapeFrom s l, ¬ Forbidden s b := by
  induction l with
  | nil => simp [escapeFrom]
  | cons c rest ih =>
    rw [escapeFrom_cons]
    intro b hb
    rcases List.mem_append.mp hb with hb | hb
    · exact escapeChar_allowed s c _ _ b hb
    · exact ih b hb

/-- The last byte, followed by the NUL `get_char` reads past the end, is never a period or a
space. -/
theorem escapeChar_last (s : Bool) (c : UInt8) :
    (escapeChar s c 0 0).getLast? ≠ some 0x2E ∧ (escapeChar s c 0 0).getLast? ≠ some 0x20 := by
  unfold escapeChar
  split
  all_goals repeat' split
  all_goals simp only [List.getLast?_cons_cons, List.getLast?_singleton, List.cons_append,
    List.nil_append, ne_eq, Option.some.injEq]
  all_goals grind

theorem getLast?_escapeFrom (s : Bool) (l : List UInt8) (c : UInt8) :
    (escapeFrom s (l ++ [c])).getLast? = (escapeChar s c 0 0).getLast? := by
  induction l with
  | nil => simp [escapeFrom_cons, escapeFrom]
  | cons d l ih =>
    have hne : escapeFrom s (l ++ [c]) ≠ [] := by simp [escapeFrom_eq_nil]
    rw [List.cons_append, escapeFrom_cons, List.getLast?_append_of_ne_nil _ hne, ih]

theorem deviceStem_le {l : List UInt8} (h : DeviceStem l) : l ≠ [] ∧ ∀ x ∈ l, x ≤ 0x5A := by
  match l, h with
  | [a, b, c], h =>
    simp only [DeviceStem, List.cons.injEq, and_true] at h
    refine ⟨List.cons_ne_nil _ _, ?_⟩
    simp only [List.forall_mem_cons]
    grind
  | [a, b, c, d], h =>
    simp only [DeviceStem, List.cons.injEq, and_true] at h
    refine ⟨List.cons_ne_nil _ _, ?_⟩
    simp only [List.forall_mem_cons]
    grind

theorem ne_lead_of_toUpper_le {b : UInt8} (h : toUpper b ≤ 0x5A) : b ≠ 0xEF := by
  rintro rfl
  exact absurd h (by decide)

theorem reservedDevice_of_stem {stem r : List UInt8} (hs : DeviceStem (stem.map toUpper))
    (hr : r = [] ∨ r.head? = some 0x2E) : reservedDevice (stem ++ r) = true := by
  have hr' : (r.isEmpty || r.head? == some 0x2E) = true := by
    rcases hr with rfl | hr <;> simp [*]
  match stem, hs with
  | [a, b, c], hs =>
    simp only [List.map_cons, List.map_nil, DeviceStem] at hs
    simp only [List.cons_append, List.nil_append, reservedDevice]
    rw [if_neg (by grind), if_pos (by rcases hs with h | h | h | h <;> simp [h])]
    exact hr'
  | [a, b, c, d], hs =>
    simp only [List.map_cons, List.map_nil, DeviceStem] at hs
    simp only [List.cons_append, List.nil_append, reservedDevice]
    rw [if_pos hs.1]
    have hd : toUpper d = d := by
      have h := hs.2
      unfold toUpper at h ⊢
      split <;> grind
    rw [hd] at hs
    simp only [hr', Bool.and_true, Bool.and_eq_true, decide_eq_true_eq]
    exact hs.2

theorem escape_of_not_dots {name : List UInt8}
    (h : name ≠ [] ∧ name ≠ [0x2E] ∧ name ≠ [0x2E, 0x2E]) (s : Bool) :
    escape name s =
      (if reservedDevice name then [0xEF, 0xBC, 0x81] else []) ++ escapeFrom s name := by
  rw [escape, if_neg]
  rintro ⟨hlen, hall⟩
  rcases name with _ | ⟨d, _ | ⟨e, _ | ⟨f, r⟩⟩⟩
  · exact h.1 rfl
  · exact h.2.1 (by simpa using hall)
  · exact h.2.2 (by simpa using hall)
  · simp at hlen

/-- Every name but `""`, `.` and `..` escapes to a legal Windows path component. -/
theorem escape_legal {name : List UInt8} (h : name ≠ [] ∧ name ≠ [0x2E] ∧ name ≠ [0x2E, 0x2E])
    (s : Bool) : Legal s (escape name s) := by
  have hprefix : ∀ b ∈ (if reservedDevice name then [0xEF, 0xBC, 0x81] else []),
      ¬ Forbidden s b := by
    split <;> simp [Forbidden]
  have hlast : (escape name s).getLast? = (escapeChar s (name.getLast h.1) 0 0).getLast? := by
    rw [escape_of_not_dots h, List.getLast?_append_of_ne_nil _ (by simp [escapeFrom_eq_nil, h.1])]
    conv_lhs => rw [← List.dropLast_append_getLast h.1]
    rw [getLast?_escapeFrom]
  refine ⟨?_, ?_, ?_, ?_⟩
  · rw [escape_of_not_dots h]
    intro b hb
    rcases List.mem_append.mp hb with hb | hb
    · exact hprefix b hb
    · exact escapeFrom_allowed s _ b hb
  · rw [hlast]
    exact (escapeChar_last s _).1
  · rw [hlast]
    exact (escapeChar_last s _).2
  · rintro ⟨stem, ext, heq, hs, hext⟩
    obtain ⟨hne, hle⟩ := deviceStem_le hs
    have hlead : ∀ b ∈ stem, b ≠ 0xEF := fun b hb =>
      ne_lead_of_toUpper_le (hle _ (List.mem_map_of_mem hb))
    rw [escape_of_not_dots h] at heq
    split at heq
    · -- the mark `！` starts with a lead byte, which no device name does
      obtain ⟨x, xs, rfl⟩ := List.exists_cons_of_ne_nil (by simpa using hne)
      rw [List.cons_append, List.cons_append] at heq
      exact hlead x List.mem_cons_self (List.cons.inj heq).1.symm
    · -- otherwise the device name was in the name, and `escape` would have marked it
      rename_i hres
      obtain ⟨r, hr, hext'⟩ := escapeFrom_eq_append hlead (by simpa using heq)
      apply hres
      rw [hr]
      apply reservedDevice_of_stem hs
      rcases hext with rfl | hext
      · exact .inl (escapeFrom_eq_nil.mp hext')
      · obtain ⟨e, rfl⟩ : ∃ e, ext = 0x2E :: e := by
          cases ext with
          | nil => simp at hext
          | cons x e => exact ⟨e, by simpa using hext⟩
        have hdot : ∀ b ∈ [(0x2E : UInt8)], b ≠ 0xEF := by simp
        obtain ⟨r', hr', -⟩ := escapeFrom_eq_append hdot (t := e) hext'
        rw [hr']
        exact .inr rfl

/-! ### Resolving a virtual path -/

/-- A directory of the virtual file system (`vfs_directory`): the host path mounted on it,
empty if none, and its virtual subdirectories by name. -/
inductive Dir where
  | mk (path : List UInt8) (dirs : List (List UInt8 × Dir))

def Dir.path : Dir → List UInt8
  | .mk path _ => path

def Dir.dirs : Dir → List (List UInt8 × Dir)
  | .mk _ dirs => dirs

/-- A string's characters as bytes, for writing paths. -/
def ascii (s : String) : List UInt8 := s.toList.map Char.toUInt8

/-- Where `get` sends a relative path: a place that does not exist under the configuration
directory. -/
def nowhere (configDir : List UInt8) : List UInt8 :=
  configDir ++ ascii "delete_this_dir.../delete_this..."

/-- The last directory of the walk, from the end, that is mounted (or the root when the walk
is the root alone), with its position in the walk. -/
def lastMounted (single : Bool) : ℕ → List (Option Dir) → Option (ℕ × List UInt8)
  | _, [] => none
  | k, some d :: rest => if d.path ≠ [] ∨ single then some (k, d.path) else lastMounted single (k - 1) rest
  | k, none :: rest => lastMounted single (k - 1) rest

/-- The end of the loop of `get`: the path mounted last on the walk, and the fragments after
it escaped and joined by `/`; nothing when no directory of the walk is mounted. -/
def finalize (list : List (Option Dir)) (result : List (List UInt8)) (trailing : Bool) :
    List UInt8 :=
  match lastMounted (list.length == 1) (list.length - 1) list.reverse with
  | none => []
  | some (k, base) =>
    if base = [] then []
    else
      base ++ [0x2F].intercalate
        ((result.drop k ++ if trailing then [[]] else []).map fun sv => escape sv false)

/-- The loop of `get`: `list` is the walk of directories from the root (`none` where a
fragment names no virtual directory) and `result` the fragments after the root. Each turn
takes one fragment off `vpath`, so the fuel `get` gives is never used up. -/
def getLoop (configDir : List UInt8) :
    ℕ → List UInt8 → List (Option Dir) → List (List UInt8) → List UInt8
  | 0, _, _, _ => []
  | fuel + 1, vpath, list, result =>
    let rest := vpath.dropWhile (· == 0x2F)
    -- a path that does not start with `/` is relative
    if vpath ≠ [] ∧ vpath.head? ≠ some 0x2F then nowhere configDir
    else if rest = [] then finalize list result (vpath ≠ [])
    else
      let name := rest.takeWhile (· != 0x2F)
      let vpath := rest.dropWhile (· != 0x2F)
      if name = [0x2E] then getLoop configDir fuel vpath list result
      else if name = [0x2E, 0x2E] then
        -- the root is its own parent
        if list.length = 1 then getLoop configDir fuel vpath list result
        else getLoop configDir fuel vpath list.dropLast result.dropLast
      else
        match list.getLast?.join.bind fun last => (last.dirs.find? (·.1 == name)).map (·.2) with
        | none => getLoop configDir fuel vpath (list ++ [none]) (result ++ [name])
        | some dir =>
          -- `/host_root`: the rest of the path, neither escaped nor resolved
          if dir.path = [0x2F] then
            if vpath.length ≤ 1 then nowhere configDir else vpath.drop 1
          else getLoop configDir fuel vpath (list ++ [some dir]) (result ++ [name])

/-- `vfs::get`: the host path of a virtual path, under the mount tree `root`; empty when no
directory on the way is mounted. -/
def get (configDir : List UInt8) (root : Dir) (vpath : List UInt8) : List UInt8 :=
  let vpath := if vpath = [] then [0x2E] else vpath
  getLoop configDir (vpath.length + 1) vpath [some root] []

end Rpcs3.Emu.Vfs
