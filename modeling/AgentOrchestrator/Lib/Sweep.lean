import Mathlib.Data.List.Induction
import Mathlib.Data.Set.Basic

/-!
# Sweeps

A sweep goes through a list once.  An element that is gone when it comes to its turn is passed over; any other one acts,
and what it reaches is gone, be it later or earlier in the list.

Which elements act is decided by the list and by what reaches what alone: an element acts unless an earlier one that acts
reaches it (`Acts`).  One set has this property (`exists_acts`), what is gone in the end is what it reaches
(`Acts.mem_swept_iff`), and each element that is gone went in the turn of the first that reaches it
(`Acts.taken_eq_some_iff`).
-/

variable {α : Type}

open Classical in
/-- What is gone after a sweep that starts with `gone`. -/
noncomputable def swept (reach : α → α → Prop) : List α → Set α → Set α
  | [], gone => gone
  | a :: l, gone => if a ∈ gone then swept reach l gone else swept reach l (gone ∪ {x | reach a x})

/-- The elements of the list that are in `acting` are those which no earlier one of them reaches. -/
def Acts (reach : α → α → Prop) (l : List α) (acting : Set α) : Prop :=
  ∀ l₁ a l₂, l = l₁ ++ a :: l₂ → (a ∈ acting ↔ ∀ b ∈ l₁, b ∈ acting → ¬ reach b a)

section

variable {reach : α → α → Prop} {l : List α} {acting : Set α} {a x y : α}

theorem swept_cons_of_mem {gone : Set α} (h : a ∈ gone) : swept reach (a :: l) gone = swept reach l gone := if_pos h

theorem swept_cons_of_not_mem {gone : Set α} (h : a ∉ gone) :
    swept reach (a :: l) gone = swept reach l (gone ∪ {x | reach a x}) := if_neg h

open Classical in
theorem swept_snoc (l : List α) (a : α) (gone : Set α) :
    swept reach (l ++ [a]) gone =
      if a ∈ swept reach l gone then swept reach l gone else swept reach l gone ∪ {x | reach a x} := by
  induction l generalizing gone with
  | nil => rfl
  | cons b l ih =>
    rw [List.cons_append, swept, swept]
    split
    · exact ih gone
    · exact ih _

theorem Acts.of_snoc (h : Acts reach (l ++ [a]) acting) : Acts reach l acting := by
  intro l₁ b l₂ hl
  refine h l₁ b (l₂ ++ [a]) ?_
  rw [hl, List.append_assoc, List.cons_append]

theorem Acts.last (h : Acts reach (l ++ [a]) acting) : a ∈ acting ↔ ∀ b ∈ l, b ∈ acting → ¬ reach b a := h l a [] rfl

/-- What is gone in the end is what those reach that act. -/
theorem Acts.mem_swept_iff (h : Acts reach l acting) : x ∈ swept reach l ∅ ↔ ∃ a ∈ l, a ∈ acting ∧ reach a x := by
  induction l using List.reverseRecOn generalizing x with
  | nil => simp [swept]
  | append_singleton l a ih =>
    have hacts : a ∈ acting ↔ a ∉ swept reach l ∅ := by
      rw [h.last, ih h.of_snoc]
      constructor
      · rintro hfree ⟨b, hb, hacting, hreach⟩
        exact hfree b hb hacting hreach
      · intro hnot b hb hacting hreach
        exact hnot ⟨b, hb, hacting, hreach⟩
    rw [swept_snoc]
    by_cases ha : a ∈ swept reach l ∅
    · rw [if_pos ha, ih h.of_snoc]
      constructor
      · rintro ⟨b, hb, hx⟩
        exact ⟨b, List.mem_append_left _ hb, hx⟩
      · rintro ⟨b, hb, hacting, hx⟩
        rcases List.mem_append.1 hb with hb | hb
        · exact ⟨b, hb, hacting, hx⟩
        · obtain rfl := List.mem_singleton.1 hb
          exact absurd ha (hacts.1 hacting)
    · rw [if_neg ha, Set.mem_union, ih h.of_snoc]
      constructor
      · rintro (⟨b, hb, hx⟩ | hx)
        · exact ⟨b, List.mem_append_left _ hb, hx⟩
        · exact ⟨a, List.mem_append_right _ (List.mem_singleton_self a), hacts.2 ha, hx⟩
      · rintro ⟨b, hb, hacting, hx⟩
        rcases List.mem_append.1 hb with hb | hb
        · exact Or.inl ⟨b, hb, hacting, hx⟩
        · obtain rfl := List.mem_singleton.1 hb
          exact Or.inr hx

/-! ### In whose turn an element goes -/

open Classical in
/-- For each element that is gone after a sweep, the one in whose turn it went; `into` has those gone before. -/
noncomputable def taken (reach : α → α → Prop) : List α → (α → Option α) → α → Option α
  | [], into => into
  | a :: l, into =>
    if into a = none then taken reach l fun x => if into x = none ∧ reach a x then some a else into x
    else taken reach l into

/-- `a` is the first of those that act which reaches `x`. -/
def TakenBy (reach : α → α → Prop) (l : List α) (acting : Set α) (x a : α) : Prop :=
  ∃ l₁ l₂, l = l₁ ++ a :: l₂ ∧ a ∈ acting ∧ reach a x ∧ ∀ b ∈ l₁, b ∈ acting → ¬ reach b x

theorem taken_cons_of_some {into : α → Option α} (h : into a ≠ none) :
    taken reach (a :: l) into = taken reach l into := if_neg h

open Classical in
theorem taken_cons_of_none {into : α → Option α} (h : into a = none) :
    taken reach (a :: l) into = taken reach l fun x => if into x = none ∧ reach a x then some a else into x := if_pos h

/-- The turn of an element that is still there. -/
theorem taken_turn {into into' : α → Option α} (h : into a = none)
    (hnew : ∀ x, into x = none ∧ reach a x → into' x = some a)
    (hold : ∀ x, ¬ (into x = none ∧ reach a x) → into' x = into x) :
    taken reach (a :: l) into = taken reach l into' := by
  rw [taken_cons_of_none h]
  congr 1
  funext x
  by_cases hx : into x = none ∧ reach a x
  · rw [if_pos hx, hnew x hx]
  · rw [if_neg hx, hold x hx]

open Classical in
theorem taken_snoc (l : List α) (a : α) (into : α → Option α) :
    taken reach (l ++ [a]) into =
      if taken reach l into a = none then
        fun x => if taken reach l into x = none ∧ reach a x then some a else taken reach l into x
      else taken reach l into := by
  induction l generalizing into with
  | nil => rfl
  | cons b l ih =>
    by_cases hb : into b = none
    · rw [List.cons_append, taken_cons_of_none hb, taken_cons_of_none hb]
      exact ih _
    · rw [List.cons_append, taken_cons_of_some hb, taken_cons_of_some hb]
      exact ih into

theorem swept_eq_taken (l : List α) (into : α → Option α) :
    swept reach l {x | into x ≠ none} = {x | taken reach l into x ≠ none} := by
  classical
  induction l generalizing into with
  | nil => rfl
  | cons a l ih =>
    by_cases ha : into a = none
    · have hmem : a ∉ {x | into x ≠ none} := fun h => h ha
      rw [swept_cons_of_not_mem hmem, taken_cons_of_none ha, ← ih]
      congr 1
      ext x
      by_cases hx : into x = none
      · simp [hx]
      · simp [hx]
    · have hmem : a ∈ {x | into x ≠ none} := ha
      rw [swept_cons_of_mem hmem, taken_cons_of_some ha, ih]

theorem Acts.taken_eq_none_iff (h : Acts reach l acting) :
    taken reach l (fun _ => none) x = none ↔ ∀ a ∈ l, a ∈ acting → ¬ reach a x := by
  have hswept : swept reach l _ = _ := swept_eq_taken l fun _ => none
  have hempty : {x : α | (fun _ => none : α → Option α) x ≠ none} = ∅ := by simp
  rw [hempty] at hswept
  have hmem : x ∈ swept reach l ∅ ↔ taken reach l (fun _ => none) x ≠ none := by rw [hswept]; rfl
  rw [← not_iff_not, ← ne_eq, ← hmem, h.mem_swept_iff]
  push Not
  rfl

theorem takenBy_snoc : TakenBy reach (l ++ [a]) acting x y ↔
    TakenBy reach l acting x y ∨ y = a ∧ a ∈ acting ∧ reach a x ∧ ∀ b ∈ l, b ∈ acting → ¬ reach b x := by
  constructor
  · rintro ⟨l₁, l₂, hl, hacting, hreach, hfirst⟩
    rcases List.eq_nil_or_concat l₂ with rfl | ⟨l₃, c, rfl⟩
    · obtain ⟨rfl, hy⟩ := List.append_inj' hl rfl
      obtain rfl := List.singleton_inj.1 hy
      exact Or.inr ⟨rfl, hacting, hreach, hfirst⟩
    · have hsplit : l ++ [a] = (l₁ ++ y :: l₃) ++ [c] := by
        rw [hl, List.concat_eq_append, List.append_assoc, List.cons_append]
      obtain ⟨rfl, -⟩ := List.append_inj' hsplit rfl
      exact Or.inl ⟨l₁, l₃, rfl, hacting, hreach, hfirst⟩
  · rintro (⟨l₁, l₂, rfl, htaken⟩ | ⟨rfl, htaken⟩)
    · exact ⟨l₁, l₂ ++ [a], by simp, htaken⟩
    · exact ⟨l, [], rfl, htaken⟩

/-- What has gone went in the turn of the first that reaches it. -/
theorem Acts.taken_eq_some_iff (h : Acts reach l acting) :
    taken reach l (fun _ => none) x = some y ↔ TakenBy reach l acting x y := by
  induction l using List.reverseRecOn with
  | nil => simp [taken, TakenBy]
  | append_singleton l a ih =>
    have hacts : a ∈ acting ↔ taken reach l (fun _ => none) a = none := by
      rw [h.last, h.of_snoc.taken_eq_none_iff]
    rw [takenBy_snoc, ← ih h.of_snoc, ← h.of_snoc.taken_eq_none_iff, taken_snoc]
    by_cases ha : taken reach l (fun _ => none) a = none
    · rw [if_pos ha]
      by_cases hx : taken reach l (fun _ => none) x = none ∧ reach a x
      · rw [if_pos hx]
        simp [hx.1, hx.2, hacts.2 ha, eq_comm]
      · rw [if_neg hx]
        exact (or_iff_left fun hy => hx ⟨hy.2.2.2, hy.2.2.1⟩).symm
    · rw [if_neg ha]
      exact (or_iff_left fun hy => ha (hacts.1 hy.2.1)).symm

end

/-- Every list without repetitions has a set of elements that act. -/
theorem exists_acts (reach : α → α → Prop) {l : List α} (hnodup : l.Nodup) :
    ∃ acting, Acts reach l acting ∧ ∀ a ∈ acting, a ∈ l := by
  induction l using List.reverseRecOn with
  | nil => exact ⟨∅, fun l₁ a l₂ h => absurd h (by simp), fun a ha => ha.elim⟩
  | append_singleton l a ih =>
    obtain ⟨hl, -, hdisjoint⟩ := List.nodup_append.1 hnodup
    have hfresh : a ∉ l := fun hm => hdisjoint a hm a (List.mem_singleton_self a) rfl
    obtain ⟨acting, hacts, hsub⟩ := ih hl
    let free : Prop := ∀ b ∈ l, b ∈ acting → ¬ reach b a
    -- the new element joins if nothing before it reaches it, and no other one is affected
    have hmem : ∀ b ∈ l, (b ∈ {b | b ∈ acting ∨ b = a ∧ free} ↔ b ∈ acting) := by
      intro b hb
      have hne : b ≠ a := fun h => hfresh (h ▸ hb)
      simp [hne]
    refine ⟨{b | b ∈ acting ∨ b = a ∧ free}, fun l₁ b l₂ h => ?_, fun b hb => ?_⟩
    · rcases List.eq_nil_or_concat l₂ with rfl | ⟨l₃, c, rfl⟩
      · obtain ⟨rfl, hba⟩ := List.append_inj' h rfl
        obtain rfl := List.singleton_inj.1 hba
        have hnot : a ∉ acting := fun ha => hfresh (hsub a ha)
        have hself : a ∈ {b | b ∈ acting ∨ b = a ∧ free} ↔ free := by simp [hnot]
        rw [hself]
        refine forall_congr' fun b => forall_congr' fun hb => ?_
        rw [hmem b hb]
      · rw [List.concat_eq_append] at h
        have hsplit : l ++ [a] = (l₁ ++ b :: l₃) ++ [c] := by rw [h, List.append_assoc, List.cons_append]
        obtain ⟨rfl, -⟩ := List.append_inj' hsplit rfl
        rw [hmem b (by simp), hacts l₁ b l₃ rfl]
        refine forall_congr' fun d => forall_congr' fun hd => ?_
        rw [hmem d (List.mem_append_left _ hd)]
    · rcases hb with hb | ⟨rfl, -⟩
      · exact List.mem_append_left _ (hsub b hb)
      · exact List.mem_append_right _ (List.mem_singleton_self b)
