import AgentOrchestrator.Lib.Pool
import Mathlib.Algebra.BigOperators.Group.List.Defs

/-!
# Attempts

`Prog.Goes` is a run of a program alone that may stop anywhere: the commands that have taken effect so far, each with its
answer and the store it found, what is left of the program, and the store.  A run that has come to its end is one with
nothing left but the value returned, and a run that is cut off by a failure is one with anything left.
-/

namespace Prog

variable {Cmd : Type} {Res : Cmd → Type} {σ α β γ : Type}

/-- A command with its answer, and the store it has found. -/
structure Exchange (Cmd : Type) (Res : Cmd → Type) (σ : Type) where
  before : σ
  cmd : Cmd
  answer : Res cmd

def Exchange.map {τ : Type} (view : σ → τ) (e : Exchange Cmd Res σ) : Exchange Cmd Res τ := ⟨view e.before, e.cmd, e.answer⟩

/-- The program, run alone from `s`, has got as far as `q` and `t`. -/
inductive Goes (exec : (c : Cmd) → σ → Res c → σ → Prop) :
    Prog Cmd Res α → σ → List (Exchange Cmd Res σ) → Prog Cmd Res α → σ → Prop
  | here {p : Prog Cmd Res α} {s : σ} : Goes exec p s [] p s
  | call {c : Cmd} {k : Res c → Prog Cmd Res α} {r : Res c} {s t u : σ} {tr : List (Exchange Cmd Res σ)}
      {q : Prog Cmd Res α} (h : exec c s r t) (hg : Goes exec (k r) t tr q u) :
      Goes exec (.call c k) s (⟨s, c, r⟩ :: tr) q u

namespace Goes

variable {exec : (c : Cmd) → σ → Res c → σ → Prop} {p q : Prog Cmd Res α} {s t u : σ}
  {tr tr' : List (Exchange Cmd Res σ)}

theorem trans {q' : Prog Cmd Res α} (h : Goes exec p s tr q t) (h' : Goes exec q t tr' q' u) :
    Goes exec p s (tr ++ tr') q' u := by
  induction h with
  | here => exact h'
  | call he _ ih => exact .call he (ih h')

/-- A run that has come to its end. -/
theorem runs {a : α} (h : Goes exec p s tr (.ret a) t) : p.Runs exec s a t := by
  generalize hq : Prog.ret a = q at h
  induction h with
  | here =>
    subst hq
    exact .ret
  | call he _ ih => exact .call he (ih hq)

/-- A run on a store of which the program sees a part. -/
theorem map {τ : Type} {exec' : (c : Cmd) → τ → Res c → τ → Prop} (view : σ → τ)
    (hexec : ∀ c s r t, exec c s r t → exec' c (view s) r (view t)) (h : Goes exec p s tr q t) :
    Goes exec' p (view s) (tr.map (Exchange.map view)) q (view t) := by
  induction h with
  | here => exact .here
  | call he _ ih => exact .call (hexec _ _ _ _ he) ih

/-- A program can go on to its end, wherever it is, if every command is answered. -/
theorem exists_end (hexec : ∀ c s, ∃ r t, exec c s r t) (p : Prog Cmd Res α) (s : σ) :
    ∃ tr a t, Goes exec p s tr (.ret a) t := by
  induction p generalizing s with
  | ret a => exact ⟨[], a, s, .here⟩
  | call c k ih =>
    obtain ⟨r, t, he⟩ := hexec c s
    obtain ⟨tr, a, u, hg⟩ := ih r t
    exact ⟨_, a, u, .call he hg⟩

end Goes

theorem Runs.goes {exec : (c : Cmd) → σ → Res c → σ → Prop} {p : Prog Cmd Res α} {s t : σ} {a : α}
    (h : p.Runs exec s a t) : ∃ tr, Goes exec p s tr (.ret a) t := by
  induction h with
  | ret => exact ⟨[], .here⟩
  | call he _ ih =>
    obtain ⟨tr, hg⟩ := ih
    exact ⟨_, .call he hg⟩

/-- Issue at most `n` commands, with a function that executes them. -/
def go (f : (c : Cmd) → σ → Res c × σ) : Nat → Prog Cmd Res α → σ → List (Exchange Cmd Res σ) × Prog Cmd Res α × σ
  | 0, p, s => ([], p, s)
  | _ + 1, .ret a, s => ([], .ret a, s)
  | n + 1, .call c k, s =>
    let out := go f n (k (f c s).1) (f c s).2
    (⟨s, c, (f c s).1⟩ :: out.1, out.2)

theorem goes_go {exec : (c : Cmd) → σ → Res c → σ → Prop} {f : (c : Cmd) → σ → Res c × σ}
    (hf : ∀ c s, exec c s (f c s).1 (f c s).2) (n : Nat) (p : Prog Cmd Res α) (s : σ) :
    Goes exec p s (go f n p s).1 (go f n p s).2.1 (go f n p s).2.2 := by
  induction n generalizing p s with
  | zero => exact .here
  | succ n ih =>
    cases p with
    | ret a => exact .here
    | call c k => exact .call (hf c s) (ih _ _)

end Prog

/-- Where the commands of an attempt have moved the ghost state. -/
def Protocol.after {Cmd : Type} {Res : Cmd → Type} {σ γ : Type} (P : Protocol Cmd Res γ) (g : γ)
    (tr : List (Prog.Exchange Cmd Res σ)) : γ := tr.foldl (fun g e => P.next g e.cmd e.answer) g

section After

variable {Cmd : Type} {Res : Cmd → Type} {σ β γ : Type} {P : Protocol Cmd Res γ}

/-- A part of the ghost state to which every command adds what it has to add. -/
theorem Protocol.after_filterMap {f : γ → List β} {h : (c : Cmd) → Res c → Option β}
    (hf : ∀ g c r, f (P.next g c r) = f g ++ (h c r).toList) (g : γ) (tr : List (Prog.Exchange Cmd Res σ)) :
    f (P.after g tr) = f g ++ tr.filterMap fun e => h e.cmd e.answer := by
  induction tr generalizing g with
  | nil => exact (List.append_nil _).symm
  | cons e tr ih =>
    have hrest : f (P.after g (e :: tr)) = _ := ih (P.next g e.cmd e.answer)
    rw [hrest, hf, List.append_assoc, List.filterMap_cons]
    cases h e.cmd e.answer with
    | none => rfl
    | some b => rfl

theorem Protocol.after_sum [AddMonoid β] {f : γ → β} {h : (c : Cmd) → Res c → β}
    (hf : ∀ g c r, f (P.next g c r) = f g + h c r) (g : γ) (tr : List (Prog.Exchange Cmd Res σ)) :
    f (P.after g tr) = f g + (tr.map fun e => h e.cmd e.answer).sum := by
  induction tr generalizing g with
  | nil => exact (add_zero _).symm
  | cons e tr ih =>
    have hrest : f (P.after g (e :: tr)) = _ := ih (P.next g e.cmd e.answer)
    rw [hrest, hf, List.map_cons, List.sum_cons, add_assoc]

end After

/-- The rule for an attempt: what is left of the program follows the protocol, and the invariant holds. -/
theorem Prog.Follows.goes {Cmd : Type} {Res : Cmd → Type} {σ α γ : Type} {exec : (c : Cmd) → σ → Res c → σ → Prop}
    {P : Protocol Cmd Res γ} {post : γ → α → Prop} {I : γ → σ → Prop} {p q : Prog Cmd Res α} {s t : σ} {g : γ}
    {tr : List (Prog.Exchange Cmd Res σ)}
    (hI : ∀ g s c r t, I g s → P.guarantee g c → exec c s r t → P.rely g c r ∧ I (P.next g c r) t)
    (h : p.Follows P post g) (hs : I g s) (hgoes : p.Goes exec s tr q t) :
    q.Follows P post (P.after g tr) ∧ I (P.after g tr) t := by
  induction hgoes generalizing g with
  | here => exact ⟨h, hs⟩
  | call he _ ih =>
    obtain ⟨hrely, hI'⟩ := hI _ _ _ _ _ hs h.1 he
    exact ih (h.2 _ hrely) hI'

/-- Every command of an attempt has been allowed by the protocol, in a store with the invariant. -/
theorem Prog.Follows.exchanges {Cmd : Type} {Res : Cmd → Type} {σ α γ : Type} {exec : (c : Cmd) → σ → Res c → σ → Prop}
    {P : Protocol Cmd Res γ} {post : γ → α → Prop} {I : γ → σ → Prop} {p q : Prog Cmd Res α} {s t : σ} {g : γ}
    {tr : List (Prog.Exchange Cmd Res σ)}
    (hI : ∀ g s c r t, I g s → P.guarantee g c → exec c s r t → P.rely g c r ∧ I (P.next g c r) t)
    (h : p.Follows P post g) (hs : I g s) (hgoes : p.Goes exec s tr q t) :
    ∀ e ∈ tr, ∃ g' u, I g' e.before ∧ P.guarantee g' e.cmd ∧ exec e.cmd e.before e.answer u := by
  induction hgoes generalizing g with
  | here => exact fun e he => absurd he List.not_mem_nil
  | call he _ ih =>
    intro e hmem
    rcases List.mem_cons.1 hmem with rfl | hmem
    · exact ⟨g, _, hs, h.1, he⟩
    · obtain ⟨hrely, hI'⟩ := hI _ _ _ _ _ hs h.1 he
      exact ih (h.2 _ hrely) hI' e hmem
