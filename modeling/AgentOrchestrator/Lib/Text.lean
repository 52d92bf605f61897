import Mathlib.Algebra.GroupWithZero.Nat
import Mathlib.Data.List.DropRight

/-!
# Stripping and containment of text

`strip` is Python's `str.strip()` without arguments.  What a program may rely on when it appends text to a stripped
text and strips again: the old text is still contained (`contains_strip_append`), and so is the appended text, unless
it ended in whitespace itself (`contains_strip_of_append`).
-/

namespace Text

/-- The characters for which Python's `str.isspace` holds. -/
def isSpace (c : Char) : Bool :=
  let n := c.toNat
  (0x09 ≤ n ∧ n ≤ 0x0d) || (0x1c ≤ n ∧ n ≤ 0x20) || n = 0x85 || n = 0xa0 || n = 0x1680 || (0x2000 ≤ n ∧ n ≤ 0x200a) ||
    n = 0x2028 || n = 0x2029 || n = 0x202f || n = 0x205f || n = 0x3000

def stripChars (l : List Char) : List Char := (l.dropWhile isSpace).rdropWhile isSpace

/-- Remove the whitespace at both ends. -/
def strip (s : String) : String := String.ofList (stripChars s.toList)

/-- `t in s`. -/
def Contains (s t : String) : Prop := t.toList <:+: s.toList

/-- The last character is whitespace. -/
def EndsInSpace (s : String) : Prop := ∃ c ∈ s.toList.getLast?, isSpace c = true

private theorem rdropWhile_append_of_last {p : Char → Bool} {a g : List Char} (hg : g ≠ [])
    (hlast : ¬ p (g.getLast hg) = true) : (a ++ g).rdropWhile p = a ++ g := by
  rw [List.rdropWhile_eq_self_iff]
  intro h
  rwa [List.getLast_append_of_ne_nil h hg]

private theorem dropWhile_append_of_mem {p : Char → Bool} {a g : List Char} (h : ∃ c ∈ a, ¬ p c = true) :
    (a ++ g).dropWhile p = a.dropWhile p ++ g := by
  induction a with
  | nil => simp at h
  | cons c a ih =>
    rw [List.cons_append, List.dropWhile_cons, List.dropWhile_cons]
    split
    · rename_i hc
      apply ih
      obtain ⟨x, hx, hpx⟩ := h
      rcases List.mem_cons.1 hx with rfl | hx
      · exact absurd hc hpx
      · exact ⟨x, hx, hpx⟩
    · rfl

/-- Text appended after a visible character survives stripping, if it does not end in whitespace. -/
theorem contains_strip_of_append {a g : String} (ha : ∃ c ∈ a.toList, isSpace c = false) (hg : g ≠ "")
    (hs : ¬ EndsInSpace g) : Contains (strip (a ++ g)) g := by
  have hne : g.toList ≠ [] := by simpa using hg
  have hlast : ¬ isSpace (g.toList.getLast hne) = true := fun h =>
    hs ⟨_, by rw [List.getLast?_eq_some_getLast hne]; rfl, h⟩
  unfold Contains strip stripChars
  rw [String.toList_ofList, String.toList_append,
    dropWhile_append_of_mem (by obtain ⟨c, hc, h⟩ := ha; exact ⟨c, hc, by simp [h]⟩),
    rdropWhile_append_of_last hne hlast]
  exact (List.suffix_append _ _).isInfix

private theorem stripChars_append_infix (m x : List Char) (hm : stripChars m = m) : m <:+: stripChars (m ++ x) := by
  rcases m with _ | ⟨c, m⟩
  · exact List.nil_infix
  have hc : ¬ isSpace c = true := by
    intro hc
    have hl := congrArg List.length hm
    unfold stripChars at hl
    rw [List.dropWhile_cons_of_pos hc] at hl
    have h1 := (List.rdropWhile_prefix isSpace (m.dropWhile isSpace)).length_le
    have h2 := (List.dropWhile_suffix (l := m) isSpace).length_le
    simp only [List.length_cons] at hl
    omega
  have hd : ∀ y, (c :: m ++ y).dropWhile isSpace = c :: m ++ y := fun y =>
    List.dropWhile_cons_of_neg (l := m ++ y) hc
  unfold stripChars at hm ⊢
  rw [hd]
  have hr : (c :: m).rdropWhile isSpace = c :: m := by
    have := hd []
    rw [List.append_nil] at this
    rwa [this] at hm
  induction x using List.reverseRecOn with
  | nil =>
    have heq : (c :: m ++ []).rdropWhile isSpace = c :: m := by rwa [List.append_nil]
    refine ⟨[], [], ?_⟩
    show c :: m ++ [] = _
    rw [heq, List.append_nil]
  | append_singleton x y ih =>
    rw [← List.append_assoc, List.rdropWhile_concat]
    split
    · exact ih
    · rw [List.append_assoc]
      exact (List.prefix_append _ _).isInfix

/-- A stripped text survives when something is appended and the result is stripped. -/
theorem contains_strip_append {m x : String} (hm : strip m = m) : Contains (strip (m ++ x)) m := by
  unfold Contains strip
  rw [String.toList_ofList, String.toList_append]
  apply stripChars_append_infix
  have := congrArg String.toList hm
  rwa [strip, String.toList_ofList] at this

private theorem dropWhile_rdropWhile (l : List Char) (h : ∀ c ∈ l.head?, ¬ isSpace c = true) :
    (l.rdropWhile isSpace).dropWhile isSpace = l.rdropWhile isSpace := by
  rcases hr : l.rdropWhile isSpace with _ | ⟨c, r⟩
  · rfl
  · have hp := List.rdropWhile_prefix isSpace l
    rw [hr] at hp
    obtain ⟨t, rfl⟩ := hp
    exact List.dropWhile_cons_of_neg (h c rfl)

/-- Stripping twice is stripping once. -/
theorem strip_strip (s : String) : strip (strip s) = strip s := by
  have h : ∀ l : List Char, stripChars (stripChars l) = stripChars l := by
    intro l
    unfold stripChars
    rw [dropWhile_rdropWhile, List.rdropWhile_idempotent]
    intro c hc
    exact fun hs => absurd (List.head?_dropWhile_not isSpace l) (by rw [Option.mem_def.1 hc]; simp [hs])
  unfold strip
  rw [String.toList_ofList, h]

theorem Contains.trans {s t u : String} (h : Contains s t) (h' : Contains t u) : Contains s u :=
  List.IsInfix.trans h' h

/-- Joined text: every part and a separator for each but one. -/
theorem length_intercalate (sep : String) (l : List String) :
    (sep.intercalate l).length = (l.map fun s => s.length + sep.length).sum - sep.length := by
  induction l with
  | nil => simp
  | cons a l ih =>
    cases l with
    | nil => simp
    | cons b l =>
      rw [String.intercalate_cons_cons, String.length_append, String.length_append, ih]
      simp only [List.map_cons, List.sum_cons]
      omega

end Text
