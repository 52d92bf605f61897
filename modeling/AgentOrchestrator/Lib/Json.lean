import Mathlib.Data.List.Basic
import Mathlib.Data.String.Basic

/-!
# Lists of strings as JSON texts

`dumps` writes a list of strings as Python's `json.dumps` does, in ASCII with a pair of surrogates for a character
outside the basic plane.  `loads` reads a JSON text that has to be an array of strings: it takes white space wherever
JSON allows it, the escapes that are never written, and digits of either case.  A lone surrogate is not a character and
is rejected.  What is read of a text that was written is the list that was written (`loads_dumps`).
-/

namespace Json

/-! ### Writing -/

/-- The characters with an escape of their own, and its second character. -/
def shortEscapes : List (Char × Char) :=
  [('\\', '\\'), ('\x22', '\x22'), ('\n', 'n'), ('\r', 'r'), ('\t', 't'), ('\x0c', 'f'), ('\x08', 'b')]

def hexDigits (n : Nat) : List Char :=
  [Nat.digitChar (n / 4096), Nat.digitChar (n / 256 % 16), Nat.digitChar (n / 16 % 16), Nat.digitChar (n % 16)]

/-- A code unit as an escape. -/
def unicodeEscape (n : Nat) : List Char := '\\' :: 'u' :: hexDigits n

def escape (c : Char) : List Char :=
  match shortEscapes.lookup c with
  | some d => ['\\', d]
  | none =>
    if ' ' ≤ c ∧ c ≤ '~' then [c]
    else if c.toNat < 0x10000 then unicodeEscape c.toNat
    else unicodeEscape (0xd800 + (c.toNat - 0x10000) / 0x400) ++ unicodeEscape (0xdc00 + (c.toNat - 0x10000) % 0x400)

def writeString (s : String) : List Char := '\x22' :: (s.toList.flatMap escape ++ ['\x22'])

/-- The items after the first one. -/
def writeRest (l : List String) : List Char := l.flatMap fun s => ',' :: ' ' :: writeString s

def dumps : List String → String
  | [] => String.ofList ['[', ']']
  | s :: l => String.ofList ('[' :: (writeString s ++ (writeRest l ++ [']'])))

/-! ### Reading -/

/-- The escapes of one character. -/
def backslash : List (Char × Char) :=
  [('\x22', '\x22'), ('\\', '\\'), ('/', '/'), ('b', '\x08'), ('f', '\x0c'), ('n', '\n'), ('r', '\r'), ('t', '\t')]

def hexValue (c : Char) : Option Nat :=
  if '0' ≤ c ∧ c ≤ '9' then some (c.toNat - 0x30)
  else if 'a' ≤ c ∧ c ≤ 'f' then some (c.toNat - 0x57)
  else if 'A' ≤ c ∧ c ≤ 'F' then some (c.toNat - 0x37)
  else none

/-- Four digits. -/
def readHex : List Char → Option (Nat × List Char)
  | a :: b :: c :: d :: rest =>
    match hexValue a, hexValue b, hexValue c, hexValue d with
    | some a, some b, some c, some d => some (((a * 16 + b) * 16 + c) * 16 + d, rest)
    | _, _, _, _ => none
  | _ => none

/-- The second half of a pair of surrogates, whose first half is `high`. -/
def readLow (high : Nat) : List Char → Option (Char × List Char)
  | '\\' :: 'u' :: l =>
    match readHex l with
    | some (low, rest) =>
      if 0xdc00 ≤ low ∧ low < 0xe000 then
        some (Char.ofNat (0x10000 + (high - 0xd800) * 0x400 + (low - 0xdc00)), rest)
      else none
    | none => none
  | _ => none

/-- What follows a backslash and a `u`. -/
def readUnicode (l : List Char) : Option (Char × List Char) :=
  match readHex l with
  | some (n, rest) =>
    if 0xd800 ≤ n ∧ n < 0xdc00 then readLow n rest
    else if 0xdc00 ≤ n ∧ n < 0xe000 then none
    else some (Char.ofNat n, rest)
  | none => none

/-- What follows a backslash. -/
def readEscape : List Char → Option (Char × List Char)
  | 'u' :: rest => readUnicode rest
  | c :: rest => (backslash.lookup c).map fun d => (d, rest)
  | [] => none

/-- One character of a string, whose text begins with `c`.  Control characters are not allowed. -/
def readChar (c : Char) (rest : List Char) : Option (Char × List Char) :=
  if c = '\\' then readEscape rest
  else if c < ' ' then none
  else some (c, rest)

theorem readHex_shortens {l rest : List Char} {n : Nat} (h : readHex l = some (n, rest)) : rest.length < l.length := by
  unfold readHex at h
  split at h
  · split at h
    · obtain ⟨-, rfl⟩ := Prod.mk.inj (Option.some.inj h)
      simp
      omega
    · exact absurd h (by simp)
  · exact absurd h (by simp)

theorem readLow_shortens {high : Nat} {l rest : List Char} {d : Char} (h : readLow high l = some (d, rest)) :
    rest.length < l.length := by
  unfold readLow at h
  split at h
  · split at h
    · rename_i hhex
      have hlt := readHex_shortens hhex
      split at h
      · obtain ⟨-, rfl⟩ := Prod.mk.inj (Option.some.inj h)
        simp only [List.length_cons]
        omega
      · exact absurd h (by simp)
    · exact absurd h (by simp)
  · exact absurd h (by simp)

theorem readUnicode_shortens {l rest : List Char} {d : Char} (h : readUnicode l = some (d, rest)) :
    rest.length < l.length := by
  unfold readUnicode at h
  split at h
  · rename_i hhex
    have hlt := readHex_shortens hhex
    split at h
    · exact (readLow_shortens h).trans hlt
    · split at h
      · exact absurd h (by simp)
      · obtain ⟨-, rfl⟩ := Prod.mk.inj (Option.some.inj h)
        exact hlt
  · exact absurd h (by simp)

theorem readChar_shortens {c d : Char} {l rest : List Char} (h : readChar c l = some (d, rest)) :
    rest.length ≤ l.length := by
  unfold readChar at h
  split at h
  · unfold readEscape at h
    split at h
    · exact (readUnicode_shortens h).le.trans (Nat.le_succ _)
    · obtain ⟨_, _, hd⟩ := Option.map_eq_some_iff.1 h
      obtain ⟨-, rfl⟩ := Prod.mk.inj hd
      exact Nat.le_succ _
    · exact absurd h (by simp)
  · split at h
    · exact absurd h (by simp)
    · obtain ⟨-, rfl⟩ := Prod.mk.inj (Option.some.inj h)
      exact le_refl _

/-- The rest of a string, up to its closing quote. -/
def readString : List Char → Option (List Char × List Char)
  | [] => none
  | c :: l =>
    if c = '\x22' then some ([], l)
    else
      match _h : readChar c l with
      | some (d, rest) => (readString rest).map fun e => (d :: e.1, e.2)
      | none => none
termination_by l => l.length
decreasing_by exact Nat.lt_succ_of_le (readChar_shortens _h)

theorem readString_shortens {l rest s : List Char} (h : readString l = some (s, rest)) : rest.length < l.length := by
  fun_induction readString l generalizing s with
  | case1 => exact absurd h (by simp)
  | case2 l =>
    obtain ⟨-, rfl⟩ := Prod.mk.inj (Option.some.inj h)
    exact Nat.lt_succ_self _
  | case3 c l hc d rest' hd ih =>
    obtain ⟨e, he, heq⟩ := Option.map_eq_some_iff.1 h
    obtain ⟨-, rfl⟩ := Prod.mk.inj heq
    have hlt : e.2.length < rest'.length := ih he
    have hle : rest'.length ≤ l.length := readChar_shortens hd
    exact (hlt.trans_le hle).trans (Nat.lt_succ_self _)
  | case4 c l hc hd => exact absurd h (by simp)

def isSpace (c : Char) : Bool := c = ' ' || c = '\t' || c = '\n' || c = '\r'

def skipSpace (l : List Char) : List Char := l.dropWhile isSpace

theorem skipSpace_length_le (l : List Char) : (skipSpace l).length ≤ l.length := l.dropWhile_suffix isSpace |>.length_le

/-- A value, which has to be a string. -/
def readItem : List Char → Option (String × List Char)
  | [] => none
  | c :: l => if c = '\x22' then (readString l).map fun e => (String.ofList e.1, e.2) else none

theorem readItem_shortens {l rest : List Char} {s : String} (h : readItem l = some (s, rest)) :
    rest.length < l.length := by
  unfold readItem at h
  split at h
  · exact absurd h (by simp)
  · split at h
    · obtain ⟨e, he, heq⟩ := Option.map_eq_some_iff.1 h
      obtain ⟨-, rfl⟩ := Prod.mk.inj heq
      exact (readString_shortens he).trans (Nat.lt_succ_self _)
    · exact absurd h (by simp)

/-- The items of an array that is not empty, up to its closing bracket. -/
def readItems (l : List Char) : Option (List String × List Char) :=
  match _h : readItem l with
  | some (s, rest) =>
    match _h' : skipSpace rest with
    | c :: rest' =>
      if c = ']' then some ([s], rest')
      else if c = ',' then (readItems (skipSpace rest')).map fun e => (s :: e.1, e.2)
      else none
    | [] => none
  | none => none
termination_by l.length
decreasing_by
  have hitem := readItem_shortens _h
  have hskip := skipSpace_length_le rest
  have hskip' := skipSpace_length_le rest'
  rw [_h'] at hskip
  simp only [List.length_cons] at hskip
  omega

/-- What follows the opening bracket of an array. -/
def readArray (l : List Char) : Option (List String × List Char) :=
  match skipSpace l with
  | c :: rest => if c = ']' then some ([], rest) else readItems (c :: rest)
  | [] => none

def loads (text : String) : Option (List String) :=
  match skipSpace text.toList with
  | c :: l =>
    if c = '[' then
      match readArray l with
      | some (items, rest) => if skipSpace rest = [] then some items else none
      | none => none
    else none
  | [] => none

/-! ### Reading what was written -/

theorem hexValue_digitChar : ∀ n < 16, hexValue (Nat.digitChar n) = some n := by decide

theorem readHex_hexDigits {n : Nat} (h : n < 0x10000) (rest : List Char) :
    readHex (hexDigits n ++ rest) = some (n, rest) := by
  have h₁ := hexValue_digitChar (n / 4096) (by omega)
  have h₂ := hexValue_digitChar (n / 256 % 16) (by omega)
  have h₃ := hexValue_digitChar (n / 16 % 16) (by omega)
  have h₄ := hexValue_digitChar (n % 16) (by omega)
  have hn : ((n / 4096 * 16 + n / 256 % 16) * 16 + n / 16 % 16) * 16 + n % 16 = n := by omega
  simp only [hexDigits, List.cons_append, List.nil_append, readHex, h₁, h₂, h₃, h₄, hn]

/-- A code unit that is not a surrogate is a character. -/
theorem readUnicode_hexDigits {c : Char} (h : c.toNat < 0x10000) (rest : List Char) :
    readUnicode (hexDigits c.toNat ++ rest) = some (c, rest) := by
  have hvalid : c.toNat < 0xd800 ∨ 0xdfff < c.toNat ∧ c.toNat < 0x110000 := c.valid
  unfold readUnicode
  rw [readHex_hexDigits h]
  dsimp only
  rw [if_neg (by omega), if_neg (by omega), Char.ofNat_toNat]

/-- A pair of surrogates is one character. -/
theorem readUnicode_surrogates {high low : Nat} (hhigh : 0xd800 ≤ high ∧ high < 0xdc00)
    (hlow : 0xdc00 ≤ low ∧ low < 0xe000) (rest : List Char) :
    readUnicode (hexDigits high ++ (unicodeEscape low ++ rest)) =
      some (Char.ofNat (0x10000 + (high - 0xd800) * 0x400 + (low - 0xdc00)), rest) := by
  unfold readUnicode
  rw [readHex_hexDigits (by omega)]
  dsimp only
  rw [if_pos hhigh]
  simp only [unicodeEscape, List.cons_append, readLow]
  rw [readHex_hexDigits (by omega)]
  dsimp only
  rw [if_pos hlow]

/-- The escapes that are written are among those that are read. -/
theorem lookup_backslash : ∀ e ∈ shortEscapes, e.2 ≠ 'u' ∧ backslash.lookup e.2 = some e.1 := by decide

theorem readEscape_of_mem {e : Char × Char} (h : e ∈ shortEscapes) (rest : List Char) :
    readEscape (e.2 :: rest) = some (e.1, rest) := by
  obtain ⟨hu, hlookup⟩ := lookup_backslash e h
  unfold readEscape
  split
  · rename_i heq
    exact absurd (List.cons.inj heq).1 hu
  · rename_i heq
    obtain ⟨rfl, rfl⟩ := List.cons.inj heq
    rw [hlookup]
    rfl
  · rename_i heq
    exact absurd heq (by simp)

theorem readChar_unicode (l : List Char) : readChar '\\' ('u' :: l) = readUnicode l := by
  unfold readChar
  rw [if_pos rfl, readEscape]

/-- What is written for a character is read as that character, and does not begin with a quote. -/
theorem readChar_escape (c : Char) : ∃ d t, escape c = d :: t ∧ d ≠ '\x22' ∧
    ∀ rest, readChar d (t ++ rest) = some (c, rest) := by
  have hvalid : c.toNat < 0xd800 ∨ 0xdfff < c.toNat ∧ c.toNat < 0x110000 := c.valid
  unfold escape
  split
  · rename_i d hd
    obtain ⟨l₁, l₂, heq, -⟩ := List.lookup_eq_some_iff.1 hd
    have hmem : (c, d) ∈ shortEscapes := by
      rw [heq]
      simp
    exact ⟨'\\', [d], rfl, by decide, readEscape_of_mem hmem⟩
  · rename_i hshort
    have hne : ∀ d ∈ shortEscapes.map Prod.fst, c ≠ d := by
      intro d hd
      obtain ⟨e, he, rfl⟩ := List.mem_map.1 hd
      simpa using List.lookup_eq_none_iff.1 hshort e he
    split
    · rename_i hplain
      refine ⟨c, [], rfl, hne _ (by decide), fun rest => ?_⟩
      unfold readChar
      rw [if_neg (hne _ (by decide)), if_neg (not_lt_of_ge hplain.1)]
      rfl
    · split
      · rename_i hbasic
        refine ⟨'\\', 'u' :: hexDigits c.toNat, rfl, by decide, fun rest => ?_⟩
        rw [List.cons_append, readChar_unicode, readUnicode_hexDigits hbasic]
      · rename_i hbasic
        generalize hhigh : 0xd800 + (c.toNat - 0x10000) / 0x400 = high
        generalize hlow : 0xdc00 + (c.toNat - 0x10000) % 0x400 = low
        have hc : 0x10000 + (high - 0xd800) * 0x400 + (low - 0xdc00) = c.toNat := by omega
        refine ⟨'\\', 'u' :: (hexDigits high ++ unicodeEscape low), rfl, by decide, fun rest => ?_⟩
        rw [List.cons_append, List.append_assoc, readChar_unicode, readUnicode_surrogates (by omega) (by omega), hc,
          Char.ofNat_toNat]

theorem readString_escape (l rest : List Char) : readString (l.flatMap escape ++ '\x22' :: rest) = some (l, rest) := by
  induction l with
  | nil =>
    rw [List.flatMap_nil, List.nil_append, readString, if_pos rfl]
  | cons c l ih =>
    obtain ⟨d, t, hescape, hd, hread⟩ := readChar_escape c
    rw [List.flatMap_cons, hescape, List.append_assoc, List.cons_append, readString, if_neg hd]
    split
    · rename_i d' rest' hd'
      obtain ⟨rfl, rfl⟩ := Prod.mk.inj (Option.some.inj ((hread _).symm.trans hd'))
      rw [ih]
      rfl
    · rename_i hnone
      exact absurd ((hread _).symm.trans hnone) (by simp)

theorem readItem_writeString (s : String) (rest : List Char) :
    readItem (writeString s ++ rest) = some (s, rest) := by
  have hstring : readString (s.toList.flatMap escape ++ ['\x22'] ++ rest) = some (s.toList, rest) := by
    rw [List.append_assoc]
    exact readString_escape s.toList rest
  unfold writeString
  rw [List.cons_append, readItem, if_pos rfl, hstring]
  simp

/-- The text of a string begins with a quote, which is no white space. -/
theorem skipSpace_writeString (s : String) (rest : List Char) :
    skipSpace (writeString s ++ rest) = writeString s ++ rest :=
  List.dropWhile_cons_of_neg (by decide)

/-- The items that are written are read up to the bracket. -/
theorem readItems_write (s : String) (l : List String) (rest : List Char) :
    readItems (writeString s ++ (writeRest l ++ ']' :: rest)) = some (s :: l, rest) := by
  induction l generalizing s with
  | nil =>
    rw [readItems, readItem_writeString]
    rfl
  | cons s' l ih =>
    have hskip : skipSpace (' ' :: (writeString s' ++ (writeRest l ++ ']' :: rest))) =
        writeString s' ++ (writeRest l ++ ']' :: rest) := skipSpace_writeString s' _
    have hrest : writeRest (s' :: l) ++ ']' :: rest =
        ',' :: ' ' :: (writeString s' ++ (writeRest l ++ ']' :: rest)) := by
      simp [writeRest]
    have hcomma : skipSpace (',' :: ' ' :: (writeString s' ++ (writeRest l ++ ']' :: rest))) =
        ',' :: ' ' :: (writeString s' ++ (writeRest l ++ ']' :: rest)) := List.dropWhile_cons_of_neg (by decide)
    rw [hrest, readItems, readItem_writeString]
    dsimp only
    rw [hcomma]
    dsimp only
    rw [if_neg (by decide), if_pos rfl, hskip, ih]
    rfl

/-- What is read of a text that was written is the list that was written. -/
theorem loads_dumps (l : List String) : loads (dumps l) = some l := by
  unfold loads dumps
  cases l with
  | nil => simp [skipSpace, isSpace, readArray]
  | cons s l =>
    have hopen : skipSpace ('[' :: (writeString s ++ (writeRest l ++ [']']))) =
        '[' :: (writeString s ++ (writeRest l ++ [']'])) := List.dropWhile_cons_of_neg (by decide)
    have harray : readArray (writeString s ++ (writeRest l ++ [']'])) = some (s :: l, []) := by
      unfold readArray
      rw [skipSpace_writeString]
      exact readItems_write s l []
    dsimp only
    rw [String.toList_ofList, hopen]
    dsimp only
    rw [if_pos rfl, harray]
    rfl

end Json
