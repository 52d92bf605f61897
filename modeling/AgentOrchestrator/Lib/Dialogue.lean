import Mathlib.Data.List.Nodup
import Mathlib.Data.List.TakeWhile

/-!
# Dialogues

In a dialogue some utterances ask for several things at once, each to be answered before the dialogue goes on.
`WellFormed` states this of a whole dialogue.  `Waiting` builds dialogues utterance by utterance, with what is still to be
answered; one that waits for nothing is well formed if no utterance asks twice for the same
(`Waiting.wellFormed`), and one that ends with a question is not.
-/

/-- An utterance that asks, one that answers, or any other. -/
inductive Utterance (ι : Type) where
  | tells
  | asks (ids : List ι)
  | answers (id : ι)

namespace Utterance

variable {ι : Type}

def answer? : Utterance ι → Option ι
  | .answers id => some id
  | _ => none

end Utterance

namespace Dialogue

variable {ι : Type}

/-- The answers that come before any other utterance. -/
def promptAnswers (l : List (Utterance ι)) : List ι := (l.takeWhile (·.answer?.isSome)).filterMap (·.answer?)

/-- Everything asked for is answered exactly once before the next utterance of another kind, and nothing else is
answered. -/
structure WellFormed [DecidableEq ι] (l : List (Utterance ι)) : Prop where
  answered : ∀ pre ids post, l = pre ++ .asks ids :: post → ∀ id ∈ ids, (promptAnswers post).count id = 1
  asked : ∀ pre id post, l = pre ++ .answers id :: post →
    ∃ pre' ids, ∃ done : List ι, pre = pre' ++ .asks ids :: done.map .answers ∧ id ∈ ids

/-- A dialogue in which everything asked for is answered in order, up to the last question, of which `pending` is still
to be answered. -/
inductive Waiting : (pending : List ι) → List (Utterance ι) → Prop
  | nil : Waiting [] []
  | tells {l : List (Utterance ι)} (h : Waiting [] l) : Waiting [] (l ++ [.tells])
  | asks {l : List (Utterance ι)} (ids : List ι) (h : Waiting [] l) : Waiting ids (l ++ [.asks ids])
  | answers {l : List (Utterance ι)} {id : ι} {ids : List ι} (h : Waiting (id :: ids) l) :
      Waiting ids (l ++ [.answers id])

private theorem snoc_eq_append_cons {α : Type} {l pre post : List α} {u a : α} (h : l ++ [u] = pre ++ a :: post) :
    (u = a ∧ l = pre ∧ post = []) ∨ ∃ post', post = post' ++ [u] ∧ l = pre ++ a :: post' := by
  rcases List.eq_nil_or_concat' post with rfl | ⟨post', b, rfl⟩
  · obtain ⟨hl, hu⟩ := List.append_inj' h rfl
    exact .inl ⟨(List.cons.inj hu).1, hl, rfl⟩
  · rw [← List.cons_append, ← List.append_assoc] at h
    obtain ⟨hl, hu⟩ := List.append_inj' h rfl
    exact .inr ⟨post', by rw [(List.cons.inj hu).1], hl⟩

theorem promptAnswers_append (done : List ι) {rest : List (Utterance ι)}
    (hrest : ∀ u ∈ rest.head?, u.answer? = none) : promptAnswers (done.map .answers ++ rest) = done := by
  unfold promptAnswers
  have hdone : ∀ u ∈ done.map Utterance.answers, u.answer?.isSome = true := by simp [Utterance.answer?]
  rw [List.takeWhile_append_of_pos hdone, List.filterMap_append, List.filterMap_map]
  have hstop : rest.takeWhile (·.answer?.isSome) = [] := by
    cases rest with
    | nil => rfl
    | cons u rest => simp [hrest u rfl]
  rw [hstop]
  simp [Function.comp_def, Utterance.answer?]

private theorem answer?_of_mem_head {rest : List (Utterance ι)} {u : Utterance ι}
    (h : ∀ v ∈ rest.head?, v.answer? = none) (hu : u.answer? = none) : ∀ v ∈ (rest ++ [u]).head?, v.answer? = none := by
  intro v hv
  cases rest with
  | nil => exact (Option.mem_some_iff.1 hv) ▸ hu
  | cons w rest => exact h v hv

/-- A dialogue that ends with a question is not well formed. -/
theorem not_wellFormed_of_asks [DecidableEq ι] {pre : List (Utterance ι)} {ids : List ι} (h : ids ≠ []) :
    ¬WellFormed (pre ++ [.asks ids]) := by
  intro hwell
  obtain ⟨id, hid⟩ := List.exists_mem_of_ne_nil ids h
  exact absurd (hwell.answered pre ids [] rfl id hid) (by simp [promptAnswers])

namespace Waiting

variable {pending : List ι} {l : List (Utterance ι)}

/-- What is still to be answered has been asked for last. -/
theorem exists_question (h : Waiting pending l) (hpending : pending ≠ []) :
    ∃ pre, ∃ done : List ι, l = pre ++ .asks (done ++ pending) :: done.map .answers := by
  induction h with
  | nil => exact absurd rfl hpending
  | tells h => exact absurd rfl hpending
  | @asks l ids h => exact ⟨l, [], rfl⟩
  | @answers l id ids h ih =>
    obtain ⟨pre, done, rfl⟩ := ih (List.cons_ne_nil _ _)
    exact ⟨pre, done ++ [id], by simp⟩

/-- What follows a question: the answers to all of it and then something else, or all the answers so far. -/
theorem after_question (h : Waiting pending l) {pre post : List (Utterance ι)} {ids : List ι}
    (hl : l = pre ++ .asks ids :: post) :
    ∃ (done : List ι) (rest : List (Utterance ι)), post = done.map .answers ++ rest ∧ (∀ u ∈ rest.head?, u.answer? = none) ∧
      ((rest ≠ [] ∧ ids = done) ∨ (rest = [] ∧ ids = done ++ pending)) := by
  induction h generalizing post with
  | nil => exact absurd hl (by simp)
  | @tells l h ih =>
    rcases snoc_eq_append_cons hl with ⟨hu, -⟩ | ⟨post', rfl, hl'⟩
    · exact absurd hu (by simp)
    · obtain ⟨done, rest, rfl, hrest, hids⟩ := ih hl'
      refine ⟨done, rest ++ [.tells], by simp, answer?_of_mem_head hrest rfl, .inl ⟨by simp, ?_⟩⟩
      simpa using hids.imp And.right And.right
  | @asks l ids' h ih =>
    rcases snoc_eq_append_cons hl with ⟨hu, -, rfl⟩ | ⟨post', rfl, hl'⟩
    · exact ⟨[], [], rfl, by simp, .inr ⟨rfl, (Utterance.asks.inj hu).symm⟩⟩
    · obtain ⟨done, rest, rfl, hrest, hids⟩ := ih hl'
      refine ⟨done, rest ++ [.asks ids'], by simp, answer?_of_mem_head hrest rfl, .inl ⟨by simp, ?_⟩⟩
      simpa using hids.imp And.right And.right
  | @answers l id ids' h ih =>
    rcases snoc_eq_append_cons hl with ⟨hu, -⟩ | ⟨post', rfl, hl'⟩
    · exact absurd hu (by simp)
    · obtain ⟨done, rest, rfl, hrest, hids⟩ := ih hl'
      rcases hids with ⟨hne, rfl⟩ | ⟨rfl, rfl⟩
      · refine ⟨ids, rest ++ [.answers id], by simp, fun v hv => ?_, .inl ⟨by simp, rfl⟩⟩
        rw [List.head?_append_of_ne_nil _ hne] at hv
        exact hrest v hv
      · exact ⟨done ++ [id], [], by simp, by simp, .inr ⟨rfl, by simp⟩⟩

/-- Every answer comes after the question it belongs to, with nothing but answers in between. -/
theorem before_answer (h : Waiting pending l) {pre post : List (Utterance ι)} {id : ι}
    (hl : l = pre ++ .answers id :: post) :
    ∃ pre' ids, ∃ done : List ι, pre = pre' ++ .asks ids :: done.map .answers ∧ id ∈ ids := by
  induction h generalizing post with
  | nil => exact absurd hl (by simp)
  | @tells l h ih =>
    rcases snoc_eq_append_cons hl with ⟨hu, -⟩ | ⟨post', -, hl'⟩
    · exact absurd hu (by simp)
    · exact ih hl'
  | @asks l ids h ih =>
    rcases snoc_eq_append_cons hl with ⟨hu, -⟩ | ⟨post', -, hl'⟩
    · exact absurd hu (by simp)
    · exact ih hl'
  | @answers l id' ids h ih =>
    rcases snoc_eq_append_cons hl with ⟨hu, rfl, -⟩ | ⟨post', -, hl'⟩
    · obtain rfl := Utterance.answers.inj hu
      obtain ⟨pre', done, hpre⟩ := h.exists_question (List.cons_ne_nil _ _)
      exact ⟨pre', _, done, hpre, by simp⟩
    · exact ih hl'

theorem wellFormed [DecidableEq ι] (h : Waiting [] l) (hnodup : ∀ ids, .asks ids ∈ l → ids.Nodup) : WellFormed l where
  answered pre ids post hl id hid := by
    obtain ⟨done, rest, rfl, hrest, hids⟩ := h.after_question hl
    have hdone : ids = done := by simpa using hids.imp And.right And.right
    rw [promptAnswers_append done hrest, ← hdone]
    exact List.count_eq_one_of_mem (hnodup ids (hl ▸ by simp)) hid
  asked pre id post hl := h.before_answer hl

end Waiting

end Dialogue
