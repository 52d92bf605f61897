import Mathlib.Algebra.BigOperators.Group.List.Basic
import Mathlib.Algebra.Ring.Nat
import Mathlib.Data.List.Induction
import Mathlib.Order.WellFounded

/-!
# Runs of a labelled transition relation

`Exec R s tr t` is a finite run of `R` from `s` to `t` with the labels `tr`, oldest first.  Properties of runs are
proved by `Exec.invariant`, whose motive sees the labels so far and the state, and are stated with `Since`, the
past-time operator "`p` happened, and no `q` has happened after it".  A condition on runs that depends on what has
happened before is stated with an observer (`Along`).  For a transition function, `runScript` computes the run of a list
of inputs, so that a concrete run is found by evaluation.
-/

/-- Finite runs of `R` from `s`: the labels, oldest first, and the state reached. -/
inductive Exec {σ ε : Type} (R : σ → ε → σ → Prop) (s : σ) : List ε → σ → Prop
  | refl : Exec R s [] s
  | snoc {tr : List ε} {t u : σ} {e : ε} : Exec R s tr t → R t e u → Exec R s (tr ++ [e]) u

namespace Exec

variable {σ ε : Type} {R R' : σ → ε → σ → Prop} {s t u : σ} {tr tr' : List ε} {e : ε}

theorem single (h : R s e t) : Exec R s [e] t := refl.snoc h

theorem trans (h : Exec R s tr t) (h' : Exec R t tr' u) : Exec R s (tr ++ tr') u := by
  induction h' with
  | refl => rwa [List.append_nil]
  | snoc _ hs ih =>
    rw [← List.append_assoc]
    exact ih.snoc hs

theorem cons (h : R s e t) (h' : Exec R t tr u) : Exec R s (e :: tr) u := (single h).trans h'

theorem mono (hR : ∀ s e t, R s e t → R' s e t) (h : Exec R s tr t) : Exec R' s tr t := by
  induction h with
  | refl => exact refl
  | snoc _ hs ih => exact ih.snoc (hR _ _ _ hs)

/-- A run is one of every relation that its own labels allow. -/
theorem restrict {q : ε → Prop} (h : Exec R s tr t) (hq : ∀ e ∈ tr, q e) :
    Exec (fun s e t => R s e t ∧ q e) s tr t := by
  induction h with
  | refl => exact refl
  | @snoc tr t u e _ hs ih =>
    have hlast : q e := hq e (by simp)
    exact (ih fun x hx => hq x (List.mem_append_left _ hx)).snoc ⟨hs, hlast⟩

/-- The run rule: what holds at the start and is kept by every step of a run holds at its end. -/
theorem invariant (P : List ε → σ → Prop) (h0 : P [] s)
    (hstep : ∀ tr t e u, Exec R s tr t → P tr t → R t e u → P (tr ++ [e]) u) (h : Exec R s tr t) : P tr t := by
  induction h with
  | refl => exact h0
  | snoc hr hs ih => exact hstep _ _ _ _ hr ih hs

/-- The run rule for a property of states. -/
theorem stateInvariant (P : σ → Prop) (h0 : P s) (hstep : ∀ t e u, P t → R t e u → P u) (h : Exec R s tr t) :
    P t :=
  h.invariant (fun _ => P) h0 fun _ t e u _ hp hs => hstep t e u hp hs

section Erase

variable {τ δ : Type} {S : τ → δ → τ → Prop} {view : σ → τ} {erase : ε → Option δ}

/-- If every step of `R` is one of `S` or is not seen at all, the runs of `R` are seen as runs of `S`. -/
theorem erased (I : σ → Prop) (hs : I s) (hI : ∀ s e t, I s → R s e t → I t)
    (hstep : ∀ s e t, I s → R s e t →
      (∃ d, erase e = some d ∧ S (view s) d (view t)) ∨ erase e = none ∧ view t = view s)
    (h : Exec R s tr t) : Exec S (view s) (tr.filterMap erase) (view t) := by
  refine (h.invariant (fun tr t => I t ∧ Exec S (view s) (tr.filterMap erase) (view t)) ⟨hs, .refl⟩ ?_).2
  rintro tr t e u - ⟨ht, hr⟩ hs
  refine ⟨hI _ _ _ ht hs, ?_⟩
  rw [List.filterMap_append]
  rcases hstep _ _ _ ht hs with ⟨d, hd, hS⟩ | ⟨hnone, hsame⟩
  · rw [List.filterMap_cons_some hd]
    exact hr.snoc hS
  · rw [List.filterMap_cons_none hnone, hsame]
    exact (List.append_nil (tr.filterMap erase)).symm ▸ hr

/-- If every step of `S` is seen of some run of `R`, every run of `S` is. -/
theorem lifted (I : σ → Prop) (hs : I s)
    (hstep : ∀ s d u, I s → S (view s) d u → ∃ tr t, Exec R s tr t ∧ I t ∧ tr.filterMap erase = [d] ∧ view t = u)
    {seen : List δ} {u : τ} (h : Exec S (view s) seen u) :
    ∃ tr t, Exec R s tr t ∧ I t ∧ tr.filterMap erase = seen ∧ view t = u := by
  induction h with
  | refl => exact ⟨[], s, .refl, hs, rfl, rfl⟩
  | snoc _ hlast ih =>
    obtain ⟨tr, t, hr, ht, rfl, rfl⟩ := ih
    obtain ⟨tr', t', hr', ht', htr', rfl⟩ := hstep _ _ _ ht hlast
    exact ⟨tr ++ tr', t', hr.trans hr', ht', by rw [List.filterMap_append, htr'], rfl⟩

end Erase


/-- The run rule for a supply: what the steps of a run use up and what is left is no more than there was. -/
theorem budget {cost : ε → ℕ} {left : σ → ℕ} (I : σ → Prop) (hs : I s)
    (hstep : ∀ s e t, I s → R s e t → I t ∧ cost e + left t ≤ left s) (h : Exec R s tr t) :
    (tr.map cost).sum + left t ≤ left s := by
  have hall : I t ∧ (tr.map cost).sum + left t ≤ left s := by
    induction h with
    | refl => exact ⟨hs, by simp⟩
    | @snoc tr t u e _ hs' ih =>
      obtain ⟨hI, hle⟩ := ih
      obtain ⟨hI', hle'⟩ := hstep t e u hI hs'
      refine ⟨hI', ?_⟩
      rw [List.map_append, List.sum_append, List.map_singleton, List.sum_singleton]
      omega
  exact hall.2

/-- A run on which something decreases in a well-founded order does not go on for ever. -/
theorem not_infinite {α : Type} [LT α] [WellFoundedLT α] {rank : σ → α} (I : σ → Prop) (hs : I s)
    (hstep : ∀ s e t, I s → R s e t → I t ∧ rank t < rank s) :
    ¬ ∃ f : ℕ → σ, f 0 = s ∧ ∀ i, ∃ e, R (f i) e (f (i + 1)) := by
  rintro ⟨f, rfl, hf⟩
  have hI : ∀ i, I (f i) := by
    intro i
    induction i with
    | zero => exact hs
    | succ i ih =>
      obtain ⟨e, he⟩ := hf i
      exact (hstep _ e _ ih he).1
  obtain ⟨n, hn⟩ := WellFounded.not_rel_apply_succ (r := (· < ·)) fun i => rank (f i)
  obtain ⟨e, he⟩ := hf n
  exact hn (hstep _ e _ (hI n) he).2

/-- A run with a list of labels in two parts is two runs. -/
theorem of_append (h : Exec R s (tr ++ tr') u) : ∃ t, Exec R s tr t ∧ Exec R t tr' u := by
  induction tr' using List.reverseRecOn generalizing u with
  | nil => exact ⟨u, by rwa [List.append_nil] at h, refl⟩
  | append_singleton tr' e ih =>
    rw [← List.append_assoc] at h
    generalize hlabels : tr ++ tr' ++ [e] = labels at h
    cases h with
    | refl => exact absurd hlabels (by simp)
    | snoc hr hs =>
      obtain ⟨rfl, he⟩ := List.append_inj' hlabels rfl
      obtain rfl := (List.cons.inj he).1
      obtain ⟨t, h₁, h₂⟩ := ih hr
      exact ⟨t, h₁, h₂.snoc hs⟩

/-- A run is over at once or starts with a step. -/
theorem cases_head (h : Exec R s tr t) : (tr = [] ∧ t = s) ∨ ∃ e u tr', tr = e :: tr' ∧ R s e u ∧ Exec R u tr' t := by
  induction h with
  | refl => exact Or.inl ⟨rfl, rfl⟩
  | @snoc tr t u e _ hs ih =>
    rcases ih with ⟨rfl, rfl⟩ | ⟨e', u', tr', rfl, hs', hr⟩
    · exact Or.inr ⟨e, u, [], rfl, hs, refl⟩
    · exact Or.inr ⟨e', u', tr' ++ [e], rfl, hs', hr.snoc hs⟩

theorem of_cons (h : Exec R s (e :: tr) u) : ∃ t, R s e t ∧ Exec R t tr u := by
  rcases h.cases_head with ⟨hnil, -⟩ | ⟨e', t, tr', hcons, hs, hr⟩
  · exact absurd hnil (by simp)
  · obtain ⟨rfl, rfl⟩ := List.cons.inj hcons
    exact ⟨t, hs, hr⟩

end Exec

/-! ### Labels that come before a state -/

/-- No run from `s` comes to a state with `q` before a label with `p`. -/
def Precedes {σ ε : Type} (R : σ → ε → σ → Prop) (p : ε → Prop) (q : σ → Prop) (s : σ) : Prop :=
  ∀ tr t, Exec R s tr t → q t → ∃ e ∈ tr, p e

namespace Precedes

variable {σ ε : Type} {R : σ → ε → σ → Prop} {p : ε → Prop} {q : σ → Prop} {s t : σ} {e : ε}

/-- The step rule. -/
theorem step (hq : ¬ q s) (h : ∀ e t, R s e t → p e ∨ Precedes R p q t) : Precedes R p q s := by
  intro tr t hr ht
  rcases hr.cases_head with ⟨rfl, rfl⟩ | ⟨e, u, tr', rfl, hs, hr'⟩
  · exact absurd ht hq
  · rcases h e u hs with he | hu
    · exact ⟨e, List.mem_cons_self, he⟩
    · obtain ⟨x, hx, hpx⟩ := hu tr' t hr' ht
      exact ⟨x, List.mem_cons_of_mem _ hx, hpx⟩

theorem not_now (h : Precedes R p q s) : ¬ q s := by
  intro hq
  obtain ⟨e, he, -⟩ := h [] s .refl hq
  exact absurd he List.not_mem_nil

theorem next (h : Precedes R p q s) (hs : R s e t) (he : ¬ p e) : Precedes R p q t := by
  intro tr u hr hu
  obtain ⟨x, hx, hpx⟩ := h (e :: tr) u (.cons hs hr) hu
  rcases List.mem_cons.1 hx with rfl | hx
  · exact absurd hpx he
  · exact ⟨x, hx, hpx⟩

theorem mono {p' : ε → Prop} (hp : ∀ e, p e → p' e) (h : Precedes R p q s) : Precedes R p' q s := by
  intro tr t hr ht
  obtain ⟨e, he, hpe⟩ := h tr t hr ht
  exact ⟨e, he, hp e hpe⟩

/-- Where no run comes to a state with `q`, nothing has to come before. -/
theorem of_invariant (I : σ → Prop) (hs : I s) (hstep : ∀ s e t, I s → R s e t → I t) (hq : ∀ s, I s → ¬ q s) :
    Precedes R p q s := by
  intro tr t hr ht
  exact absurd ht (hq t (hr.stateInvariant I hs hstep))

end Precedes

/-! ### Past-time properties of a list of labels -/

/-- Some `p` has happened, and no `q` has happened after the last one. -/
def Since {ε : Type} (p q : ε → Prop) (tr : List ε) : Prop :=
  ∃ pre e post, tr = pre ++ e :: post ∧ p e ∧ ∀ x ∈ post, ¬ q x

namespace Since

variable {ε : Type} {p p' q q' : ε → Prop} {tr : List ε} {e : ε}

theorem now (h : p e) : Since p q (tr ++ [e]) := ⟨tr, e, [], rfl, h, by simp⟩

theorem keep (h : Since p q tr) (he : ¬ q e) : Since p q (tr ++ [e]) := by
  obtain ⟨pre, x, post, rfl, hx, hpost⟩ := h
  refine ⟨pre, x, post ++ [e], by simp, hx, ?_⟩
  intro y hy
  rcases List.mem_append.1 hy with hy | hy
  · exact hpost y hy
  · rwa [List.mem_singleton.1 hy]

theorem snoc_iff : Since p q (tr ++ [e]) ↔ p e ∨ Since p q tr ∧ ¬ q e := by
  constructor
  · rintro ⟨pre, x, post, htr, hx, hpost⟩
    rcases List.eq_nil_or_concat post with rfl | ⟨post', y, rfl⟩
    · obtain ⟨-, heq⟩ := List.append_inj' htr rfl
      obtain rfl := (List.cons.inj heq).1
      exact Or.inl hx
    · have htr' : tr ++ [e] = (pre ++ x :: post') ++ [y] := by simpa using htr
      obtain ⟨rfl, heq⟩ := List.append_inj' htr' rfl
      obtain rfl := (List.cons.inj heq).1
      refine Or.inr ⟨⟨pre, x, post', rfl, hx, fun z hz => hpost z ?_⟩, hpost e ?_⟩
      · simp [hz]
      · simp
  · rintro (he | ⟨h, he⟩)
    · exact now he
    · exact h.keep he

theorem not_nil : ¬ Since p q [] := by
  rintro ⟨pre, x, post, htr, -⟩
  exact absurd htr (by simp)

theorem imp (hp : ∀ x, p x → p' x) (hq : ∀ x, q' x → q x) (h : Since p q tr) : Since p' q' tr := by
  obtain ⟨pre, x, post, rfl, hx, hpost⟩ := h
  exact ⟨pre, x, post, rfl, hp x hx, fun y hy hy' => hpost y hy (hq y hy')⟩

/-- If `p` events are themselves `q` events, the last `q` before the end is a `p`. -/
theorem last (h : Since p q tr) {pre post : List ε} {x : ε} (htr : tr = pre ++ x :: post) (hx : q x)
    (hpost : ∀ y ∈ post, ¬ q y) : p x ∨ ∃ y ∈ post, p y := by
  obtain ⟨pre', y, post', rfl, hy, hpost'⟩ := h
  rcases List.append_eq_append_iff.1 htr with ⟨as, -, has⟩ | ⟨as, -, has⟩
  · rcases as with _ | ⟨a, as⟩
    · exact Or.inl ((List.cons.inj has).1 ▸ hy)
    · obtain ⟨rfl, rfl⟩ := List.cons.inj has
      exact absurd hx (hpost' x (by simp))
  · rcases as with _ | ⟨a, as⟩
    · exact Or.inl ((List.cons.inj has).1 ▸ hy)
    · obtain ⟨rfl, rfl⟩ := List.cons.inj has
      exact Or.inr ⟨y, by simp, hy⟩

end Since

/-! ### Observers -/

/-- Every label satisfies `C`, seen by an observer that is in state `w` at first and moves on with each label. -/
def Along {ω ε : Type} (next : ω → ε → ω) (C : ω → ε → Prop) : ω → List ε → Prop
  | _, [] => True
  | w, e :: tr => C w e ∧ Along next C (next w e) tr

instance Along.decidable {ω ε : Type} {next : ω → ε → ω} {C : ω → ε → Prop} [∀ w e, Decidable (C w e)] :
    (w : ω) → (tr : List ε) → Decidable (Along next C w tr)
  | _, [] => inferInstanceAs (Decidable True)
  | w, e :: tr =>
    have : Decidable (Along next C (next w e) tr) := Along.decidable (next w e) tr
    inferInstanceAs (Decidable (C w e ∧ Along next C (next w e) tr))

theorem along_append {ω ε : Type} {next : ω → ε → ω} {C : ω → ε → Prop} {w : ω} {tr tr' : List ε} :
    Along next C w (tr ++ tr') ↔ Along next C w tr ∧ Along next C (tr.foldl next w) tr' := by
  induction tr generalizing w with
  | nil => exact ⟨fun h => ⟨trivial, h⟩, fun h => h.2⟩
  | cons x tr ih =>
    show C w x ∧ Along next C (next w x) (tr ++ tr') ↔ (C w x ∧ Along next C (next w x) tr) ∧ _
    rw [ih, and_assoc]
    rfl

theorem along_snoc {ω ε : Type} {next : ω → ε → ω} {C : ω → ε → Prop} {w : ω} {tr : List ε} {e : ε} :
    Along next C w (tr ++ [e]) ↔ Along next C w tr ∧ C (tr.foldl next w) e := by
  rw [along_append]
  exact and_congr_right fun _ => ⟨fun h => h.1, fun h => ⟨h, trivial⟩⟩

/-- The run rule for what relates an observer to the state. -/
theorem Exec.observed {ω σ ε : Type} {R : σ → ε → σ → Prop} {next : ω → ε → ω} {C : ω → ε → Prop} {s t : σ}
    {tr : List ε} {w : ω} (P : ω → σ → Prop) (h0 : P w s)
    (hstep : ∀ w t e u, P w t → C w e → R t e u → P (next w e) u) (h : Exec R s tr t) (hC : Along next C w tr) :
    P (tr.foldl next w) t := by
  induction h with
  | refl => exact h0
  | @snoc tr t u e _ hs ih =>
    obtain ⟨hbefore, hlast⟩ := along_snoc.1 hC
    rw [List.foldl_append]
    exact hstep _ t e u (ih hbefore) hlast hs

/-! ### Evaluating a transition function -/

/-- Feed a list of inputs to a transition function and collect the labels. -/
def runScript {σ ι ε χ : Type} (step : σ → ι → Except χ (ε × σ)) : σ → List ι → Except χ (List ε × σ)
  | s, [] => .ok ([], s)
  | s, i :: is =>
    match step s i with
    | .error x => .error x
    | .ok (e, t) =>
      match runScript step t is with
      | .error x => .error x
      | .ok (tr, u) => .ok (e :: tr, u)

/-- A script that evaluates without an error is a run. -/
theorem exec_of_runScript {σ ι ε χ : Type} {step : σ → ι → Except χ (ε × σ)} {s u : σ} {is : List ι}
    {tr : List ε} (h : runScript step s is = .ok (tr, u)) :
    Exec (fun s e t => ∃ i, step s i = .ok (e, t)) s tr u := by
  induction is generalizing s tr with
  | nil =>
    obtain ⟨rfl, rfl⟩ := Prod.mk.inj (Except.ok.inj h)
    exact .refl
  | cons i is ih =>
    unfold runScript at h
    split at h
    · exact absurd h (by simp)
    · rename_i e t hs
      split at h
      · exact absurd h (by simp)
      · rename_i tr' u' hr
        obtain ⟨rfl, rfl⟩ := Prod.mk.inj (Except.ok.inj h)
        exact .cons ⟨i, hs⟩ (ih hr)

/-- A script evaluates without an error, and `p` holds of its labels and of the state it ends in. -/
def scriptEnds {σ ι ε χ : Type} (step : σ → ι → Except χ (ε × σ)) (s : σ) (is : List ι) (p : List ε → σ → Bool) :
    Bool :=
  match runScript step s is with
  | .error _ => false
  | .ok (tr, u) => p tr u

/-- A checked script gives a run with the property checked. -/
theorem exec_of_scriptEnds {σ ι ε χ : Type} {step : σ → ι → Except χ (ε × σ)} {s : σ} {is : List ι}
    {p : List ε → σ → Bool} (h : scriptEnds step s is p = true) :
    ∃ tr u, Exec (fun s e t => ∃ i, step s i = .ok (e, t)) s tr u ∧ p tr u = true := by
  unfold scriptEnds at h
  split at h
  · exact absurd h (by simp)
  · rename_i tr u hr
    exact ⟨tr, u, exec_of_runScript hr, h⟩

/-- The same for a relation that contains the steps of the function. -/
theorem exists_exec_of_scriptEnds {σ ι ε χ : Type} {step : σ → ι → Except χ (ε × σ)} {R : σ → ε → σ → Prop} {s : σ}
    {is : List ι} {p : List ε → σ → Bool} (hR : ∀ s i e t, step s i = .ok (e, t) → R s e t)
    (h : scriptEnds step s is p = true) : ∃ tr u, Exec R s tr u ∧ p tr u = true := by
  obtain ⟨tr, u, hr, hp⟩ := exec_of_scriptEnds h
  refine ⟨tr, u, hr.mono fun s e t hs => ?_, hp⟩
  obtain ⟨i, hi⟩ := hs
  exact hR s i e t hi

/-- A transition function that takes only steps with `q`. -/
def guarded {σ ι ε : Type} (step : σ → ι → Except Unit (ε × σ)) (q : σ → ε → Prop) [∀ s e, Decidable (q s e)] (s : σ)
    (i : ι) : Except Unit (ε × σ) :=
  match step s i with
  | .error x => .error x
  | .ok (e, t) => if q s e then .ok (e, t) else .error ()

theorem of_guarded {σ ι ε : Type} {step : σ → ι → Except Unit (ε × σ)} {q : σ → ε → Prop}
    [∀ s e, Decidable (q s e)] {s t : σ} {i : ι} {e : ε} (h : guarded step q s i = .ok (e, t)) :
    step s i = .ok (e, t) ∧ q s e := by
  unfold guarded at h
  split at h
  · exact absurd h (by simp)
  · rename_i e' t' hs
    split at h
    · rename_i hq
      obtain ⟨rfl, rfl⟩ := Prod.mk.inj (Except.ok.inj h)
      exact ⟨hs, hq⟩
    · exact absurd h (by simp)
