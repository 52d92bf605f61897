import AgentOrchestrator.Lib.Exec
import AgentOrchestrator.Lib.Program
import Mathlib.Logic.Function.Basic

/-!
# Programs on a shared store

The meaning of the commands is a relation: `exec c s r s'` says that `c`, issued in the store `s`, may answer `r` and
leave `s'`.  `Prog.Runs` is the run of one program alone, and a `Pool` holds several programs, of which any one may
issue its next command.

`Prog.Follows` is the rely-guarantee judgement of `Prog.Safe` with a ghost state: a `Protocol` says how each command
and its answer move the ghost state on, which commands may be issued in it and which answers may be expected.  A program
that follows a protocol keeps an invariant of the ghost state and the store if it runs alone (`Prog.Follows.runs`); in a
pool every program follows its own protocol, in the ghost state that its own moves have led to (`Pool.Follow.step`).
-/

variable {Cmd : Type} {Res : Cmd → Type} {σ α β γ : Type}

namespace Prog

/-- The program, run alone from `s`, returns `a` and leaves `t`. -/
inductive Runs (exec : (c : Cmd) → σ → Res c → σ → Prop) : Prog Cmd Res α → σ → α → σ → Prop
  | ret {a : α} {s : σ} : Runs exec (.ret a) s a s
  | call {c : Cmd} {k : Res c → Prog Cmd Res α} {r : Res c} {s t u : σ} {a : α} (h : exec c s r t)
      (hr : Runs exec (k r) t a u) : Runs exec (.call c k) s a u

def returned : Prog Cmd Res α → Bool
  | .ret _ => true
  | .call _ _ => false

theorem exists_of_returned {p : Prog Cmd Res α} (h : p.returned = true) : ∃ a, p = .ret a := by
  cases p with
  | ret a => exact ⟨a, rfl⟩
  | call c k => exact absurd h (by simp [returned])

/-- Run a program alone with a function that executes the commands. -/
def eval (f : (c : Cmd) → σ → Res c × σ) : Prog Cmd Res α → σ → α × σ
  | .ret a, s => (a, s)
  | .call c k, s => (k (f c s).1).eval f (f c s).2

@[simp] theorem eval_pure (f : (c : Cmd) → σ → Res c × σ) (a : α) (s : σ) :
    (pure a : Prog Cmd Res α).eval f s = (a, s) := rfl

@[simp] theorem eval_perform (f : (c : Cmd) → σ → Res c × σ) (c : Cmd) (s : σ) :
    (perform c : Prog Cmd Res (Res c)).eval f s = f c s := rfl

@[simp] theorem eval_bind (f : (c : Cmd) → σ → Res c × σ) (p : Prog Cmd Res α) (g : α → Prog Cmd Res β) (s : σ) :
    (p >>= g).eval f s = (g (p.eval f s).1).eval f (p.eval f s).2 := by
  induction p generalizing s with
  | ret a => rfl
  | call c k ih => exact ih _ _

@[simp] theorem eval_map (f : (c : Cmd) → σ → Res c × σ) (p : Prog Cmd Res α) (g : α → β) (s : σ) :
    (g <$> p).eval f s = (g (p.eval f s).1, (p.eval f s).2) := by
  rw [← bind_pure_comp, eval_bind]
  rfl

theorem runs_of_eval {exec : (c : Cmd) → σ → Res c → σ → Prop} {f : (c : Cmd) → σ → Res c × σ}
    (hf : ∀ c s, exec c s (f c s).1 (f c s).2) (p : Prog Cmd Res α) (s : σ) :
    Runs exec p s (p.eval f s).1 (p.eval f s).2 := by
  induction p generalizing s with
  | ret a => exact .ret
  | call c k ih => exact .call (hf c s) (ih _ _)

/-- The commands of such a run are issued only in states that pass a check. -/
def checks (f : (c : Cmd) → σ → Res c × σ) (ok : Cmd → σ → Bool) : Prog Cmd Res α → σ → Bool
  | .ret _, _ => true
  | .call c k, s => ok c s && (k (f c s).1).checks f ok (f c s).2

theorem runs_of_checks {exec : (c : Cmd) → σ → Res c → σ → Prop} {f : (c : Cmd) → σ → Res c × σ} {ok : Cmd → σ → Bool}
    (hf : ∀ c s, ok c s = true → exec c s (f c s).1 (f c s).2) {p : Prog Cmd Res α} {s : σ}
    (h : p.checks f ok s = true) : Runs exec p s (p.eval f s).1 (p.eval f s).2 := by
  induction p generalizing s with
  | ret a => exact .ret
  | call c k ih =>
    obtain ⟨hc, hk⟩ := Bool.and_eq_true_iff.1 h
    exact .call (hf c s hc) (ih _ hk)

namespace Runs

variable {exec : (c : Cmd) → σ → Res c → σ → Prop} {p : Prog Cmd Res α} {f : α → Prog Cmd Res β} {s t : σ}

theorem ret_iff {a b : α} : Runs exec (.ret a : Prog Cmd Res α) s b t ↔ b = a ∧ t = s := by
  constructor
  · intro h
    cases h with
    | ret => exact ⟨rfl, rfl⟩
  · rintro ⟨rfl, rfl⟩
    exact .ret

theorem bind_iff {b : β} : Runs exec (p >>= f) s b t ↔ ∃ a u, Runs exec p s a u ∧ Runs exec (f a) u b t := by
  constructor
  · intro h
    induction p generalizing s with
    | ret a => exact ⟨a, s, .ret, h⟩
    | call c k ih =>
      rw [call_bind] at h
      cases h with
      | call he hr =>
        obtain ⟨a, u, hk, hf⟩ := ih _ hr
        exact ⟨a, u, .call he hk, hf⟩
  · rintro ⟨a, u, hp, hf⟩
    induction hp with
    | ret => exact hf
    | call he _ ih => exact .call he (ih hf)

theorem perform_iff {c : Cmd} {r : Res c} : Runs exec (perform c) s r t ↔ exec c s r t := by
  constructor
  · intro h
    cases h with
    | call he hr =>
      obtain ⟨rfl, rfl⟩ := ret_iff.1 hr
      exact he
  · exact fun h => .call h .ret

theorem map_iff {g : α → β} {b : β} : Runs exec (g <$> p) s b t ↔ ∃ a, Runs exec p s a t ∧ b = g a := by
  rw [← bind_pure_comp, bind_iff]
  constructor
  · rintro ⟨a, u, hp, hr⟩
    obtain ⟨rfl, rfl⟩ := ret_iff.1 hr
    exact ⟨a, hp, rfl⟩
  · rintro ⟨a, hp, rfl⟩
    exact ⟨a, t, hp, .ret⟩

/-- A run on a richer store is one on the part of it that the commands are about. -/
theorem image {τ : Type} {exec' : (c : Cmd) → τ → Res c → τ → Prop} (part : τ → σ)
    (hpart : ∀ c s r t, exec' c s r t → exec c (part s) r (part t)) {s t : τ} {a : α} (h : Runs exec' p s a t) :
    Runs exec p (part s) a (part t) := by
  induction h with
  | ret => exact .ret
  | call he _ ih => exact .call (hpart _ _ _ _ he) ih

end Runs

end Prog

/-! ### Protocols -/

/-- What a program may do and expect, by a ghost state that its own commands move on. -/
structure Protocol (Cmd : Type) (Res : Cmd → Type) (γ : Type) where
  next : γ → (c : Cmd) → Res c → γ
  guarantee : γ → Cmd → Prop
  rely : γ → (c : Cmd) → Res c → Prop

/-- From the ghost state `g` the program follows the protocol, and returns only in accordance with `post`. -/
def Prog.Follows (P : Protocol Cmd Res γ) (post : γ → α → Prop) : Prog Cmd Res α → γ → Prop
  | .ret a, g => post g a
  | .call c k, g => P.guarantee g c ∧ ∀ r, P.rely g c r → (k r).Follows P post (P.next g c r)

namespace Prog.Follows

variable {P : Protocol Cmd Res γ} {post : γ → α → Prop} {post' : γ → β → Prop} {p : Prog Cmd Res α} {g : γ}

theorem mono {post' : γ → α → Prop} (h : p.Follows P post g) (hp : ∀ g a, post g a → post' g a) :
    p.Follows P post' g := by
  induction p generalizing g with
  | ret a => exact hp g a h
  | call c k ih => exact ⟨h.1, fun r hr => ih r (h.2 r hr)⟩

theorem bind {f : α → Prog Cmd Res β} (h : p.Follows P post g) (hf : ∀ g a, post g a → (f a).Follows P post' g) :
    (p >>= f).Follows P post' g := by
  induction p generalizing g with
  | ret a => exact hf g a h
  | call c k ih =>
    rw [call_bind]
    exact ⟨h.1, fun r hr => ih r (h.2 r hr)⟩

/-- The rule for a command. -/
theorem perform {c : Cmd} {f : Res c → Prog Cmd Res β} (hc : P.guarantee g c)
    (hf : ∀ r, P.rely g c r → (f r).Follows P post' (P.next g c r)) : (Prog.perform c >>= f).Follows P post' g :=
  ⟨hc, hf⟩

theorem map {f : α → β} (h : p.Follows P post g) (hf : ∀ g a, post g a → post' g (f a)) :
    (f <$> p).Follows P post' g := by
  rw [← bind_pure_comp]
  exact h.bind hf

/-- The rule for a loop that collects results and leaves the ghost state as it is. -/
theorem mapM_mem {l : List α} {f : α → Prog Cmd Res β} {R : α → β → Prop}
    (h : ∀ a ∈ l, (f a).Follows P (fun g' b => g' = g ∧ R a b) g) :
    (l.mapM f).Follows P (fun g' bs => g' = g ∧ ∀ b ∈ bs, ∃ a ∈ l, R a b) g := by
  induction l with
  | nil =>
    rw [List.mapM_nil]
    exact ⟨rfl, fun b hb => absurd hb List.not_mem_nil⟩
  | cons a l ih =>
    rw [List.mapM_cons]
    refine (h a List.mem_cons_self).bind fun g' b hb => ?_
    obtain ⟨rfl, hab⟩ := hb
    refine (ih fun x hx => h x (List.mem_cons_of_mem _ hx)).bind fun g'' bs hbs => ?_
    refine ⟨hbs.1, List.forall_mem_cons.2 ⟨⟨a, List.mem_cons_self, hab⟩, fun b' hb' => ?_⟩⟩
    obtain ⟨a', ha', hab'⟩ := hbs.2 b' hb'
    exact ⟨a', List.mem_cons_of_mem _ ha', hab'⟩

theorem mapM {l : List α} {f : α → Prog Cmd Res β} (h : ∀ a ∈ l, (f a).Follows P (fun g' _ => g' = g) g) :
    (l.mapM f).Follows P (fun g' _ => g' = g) g := by
  refine (mapM_mem (R := fun _ _ => True) fun a ha => ?_).mono fun _ _ hg => hg.1
  exact (h a ha).mono fun _ _ hg => ⟨hg, trivial⟩

/-- The rule for a run alone: an invariant of the ghost state and the store that every command of the protocol keeps,
and that entitles the program to its expectations, holds at the end together with the postcondition. -/
theorem runs {exec : (c : Cmd) → σ → Res c → σ → Prop} {I : γ → σ → Prop} {s t : σ} {a : α}
    (hI : ∀ g s c r t, I g s → P.guarantee g c → exec c s r t → P.rely g c r ∧ I (P.next g c r) t)
    (h : p.Follows P post g) (hs : I g s) (hr : p.Runs exec s a t) : ∃ g', post g' a ∧ I g' t := by
  induction hr generalizing g with
  | ret => exact ⟨g, h, hs⟩
  | call he _ ih =>
    obtain ⟨hrely, hI'⟩ := hI _ _ _ _ _ hs h.1 he
    exact ih (h.2 _ hrely) hI'

/-- A protocol that says less, on a part of the ghost state. -/
theorem project {δ : Type} {Q : Protocol Cmd Res δ} {post' : δ → α → Prop} (part : γ → δ)
    (hnext : ∀ g c r, part (P.next g c r) = Q.next (part g) c r)
    (hguarantee : ∀ g c, P.guarantee g c → Q.guarantee (part g) c) (hrely : ∀ g c r, Q.rely (part g) c r → P.rely g c r)
    (hpost : ∀ g a, post g a → post' (part g) a) (h : p.Follows P post g) : p.Follows Q post' (part g) := by
  induction p generalizing g with
  | ret a => exact hpost g a h
  | call c k ih =>
    refine ⟨hguarantee g c h.1, fun r hr => ?_⟩
    rw [← hnext]
    exact ih r (h.2 r (hrely g c r hr))

end Prog.Follows

/-- The protocol that allows everything and expects nothing. -/
def Protocol.free : Protocol Cmd Res Unit where
  next _ _ _ := ()
  guarantee _ _ := True
  rely _ _ _ := True

theorem Prog.follows_free (p : Prog Cmd Res α) : p.Follows Protocol.free (fun _ _ => True) () := by
  induction p with
  | ret a => exact trivial
  | call c k ih => exact ⟨trivial, fun r _ => ih r⟩

/-- The protocol that allows some commands and expects nothing. -/
def Protocol.only (p : Cmd → Prop) : Protocol Cmd Res Unit where
  next _ _ _ := ()
  guarantee _ := p
  rely _ _ _ := True

/-- A protocol on a part of a larger ghost state. -/
def Protocol.comap {δ : Type} (P : Protocol Cmd Res γ) (get : δ → γ) (set : δ → γ → δ) : Protocol Cmd Res δ where
  next g c r := set g (P.next (get g) c r)
  guarantee g := P.guarantee (get g)
  rely g := P.rely (get g)

theorem Prog.Follows.comap {δ : Type} {P : Protocol Cmd Res γ} {post : γ → α → Prop} {p : Prog Cmd Res α}
    (get : δ → γ) (set : δ → γ → δ) (hset : ∀ g x, get (set g x) = x) {g : δ} (h : p.Follows P post (get g)) :
    p.Follows (P.comap get set) (fun g => post (get g)) g := by
  induction p generalizing g with
  | ret a => exact h
  | call c k ih =>
    refine ⟨h.1, fun r hr => ih r ?_⟩
    have hnext : get ((P.comap get set).next g c r) = P.next (get g) c r := hset _ _
    rw [hnext]
    exact h.2 r hr

/-! ### Pools -/

/-- Programs on a shared store. -/
structure Pool (Cmd : Type) (Res : Cmd → Type) (σ α : Type) where
  store : σ
  progs : List (Prog Cmd Res α)

/-- One command of program `proc`, with its answer. -/
structure Move (Cmd : Type) (Res : Cmd → Type) where
  proc : Nat
  cmd : Cmd
  res : Res cmd

namespace Pool

/-- One of the programs issues its next command. -/
inductive Step (exec : (c : Cmd) → σ → Res c → σ → Prop) : Pool Cmd Res σ α → Move Cmd Res → Pool Cmd Res σ α → Prop
  | move {s t : σ} {ps : List (Prog Cmd Res α)} {i : Nat} {c : Cmd} {k : Res c → Prog Cmd Res α} {r : Res c}
      (h : ps[i]? = some (.call c k)) (he : exec c s r t) : Step exec ⟨s, ps⟩ ⟨i, c, r⟩ ⟨t, ps.set i (k r)⟩

theorem Step.length_eq {exec : (c : Cmd) → σ → Res c → σ → Prop} {pool pool' : Pool Cmd Res σ α} {m : Move Cmd Res}
    (h : Step exec pool m pool') : pool'.progs.length = pool.progs.length := by
  cases h with
  | move hi he => exact List.length_set

theorem Step.proc_lt {exec : (c : Cmd) → σ → Res c → σ → Prop} {pool pool' : Pool Cmd Res σ α} {m : Move Cmd Res}
    (h : Step exec pool m pool') : m.proc < pool.progs.length := by
  cases h with
  | move hi he => exact (List.getElem?_eq_some_iff.1 hi).1

/-- What a move does. -/
theorem Step.exists_call {exec : (c : Cmd) → σ → Res c → σ → Prop} {pool pool' : Pool Cmd Res σ α} {m : Move Cmd Res}
    (h : Step exec pool m pool') : ∃ k, pool.progs[m.proc]? = some (.call m.cmd k) ∧
      pool'.progs[m.proc]? = some (k m.res) ∧ exec m.cmd pool.store m.res pool'.store := by
  cases h with
  | move hi he => exact ⟨_, hi, List.getElem?_set_self (List.getElem?_eq_some_iff.1 hi).1, he⟩

theorem length_eq_of_exec {exec : (c : Cmd) → σ → Res c → σ → Prop} {pool pool' : Pool Cmd Res σ α}
    {tr : List (Move Cmd Res)} (h : Exec (Step exec) pool tr pool') : pool'.progs.length = pool.progs.length :=
  h.stateInvariant (fun p => p.progs.length = pool.progs.length) rfl fun _ _ _ hp hs => hs.length_eq.trans hp

/-- All programs have returned. -/
def Finished (pool : Pool Cmd Res σ α) : Prop := ∀ p ∈ pool.progs, ∃ a, p = .ret a

theorem finished_of_all {pool : Pool Cmd Res σ α} (h : pool.progs.all Prog.returned = true) : pool.Finished := by
  intro p hp
  exact Prog.exists_of_returned (List.all_eq_true.1 h p hp)

/-- Let program `i` issue its next command, with a function that executes the commands. -/
def advance (f : (c : Cmd) → σ → Res c × σ) (pool : Pool Cmd Res σ α) (i : Nat) :
    Except Unit (Move Cmd Res × Pool Cmd Res σ α) :=
  match pool.progs[i]? with
  | some (.call c k) => .ok (⟨i, c, (f c pool.store).1⟩,
      ⟨(f c pool.store).2, pool.progs.set i (k (f c pool.store).1)⟩)
  | _ => .error ()

theorem step_of_advance {exec : (c : Cmd) → σ → Res c → σ → Prop} {f : (c : Cmd) → σ → Res c × σ}
    (hf : ∀ c s, exec c s (f c s).1 (f c s).2) {pool pool' : Pool Cmd Res σ α} {m : Move Cmd Res} {i : Nat}
    (h : pool.advance f i = .ok (m, pool')) : Step exec pool m pool' := by
  unfold advance at h
  split at h
  · rename_i c k hi
    obtain ⟨rfl, rfl⟩ := Prod.mk.inj (Except.ok.inj h)
    exact .move hi (hf c _)
  · exact absurd h (by simp)

/-- A run by the order in which the programs move. -/
theorem exec_of_order {exec : (c : Cmd) → σ → Res c → σ → Prop} {f : (c : Cmd) → σ → Res c × σ}
    (hf : ∀ c s, exec c s (f c s).1 (f c s).2) {pool : Pool Cmd Res σ α} {order : List Nat}
    {p : Pool Cmd Res σ α → Bool} (h : scriptEnds (advance f) pool order (fun _ => p) = true) :
    ∃ tr pool', Exec (Step exec) pool tr pool' ∧ p pool' = true :=
  exists_exec_of_scriptEnds (fun _ _ _ _ hi => step_of_advance hf hi) h

/-- The ghost state of each program, as its own moves have led to it. -/
def ghost (P : Nat → Protocol Cmd Res γ) (g : Nat → γ) (tr : List (Move Cmd Res)) : Nat → γ :=
  tr.foldl (fun g m => Function.update g m.proc ((P m.proc).next (g m.proc) m.cmd m.res)) g

theorem ghost_snoc (P : Nat → Protocol Cmd Res γ) (g : Nat → γ) (tr : List (Move Cmd Res)) (m : Move Cmd Res) :
    ghost P g (tr ++ [m]) = Function.update (ghost P g tr) m.proc
      ((P m.proc).next (ghost P g tr m.proc) m.cmd m.res) := by
  simp [ghost]

/-- A program that does not move keeps its ghost state. -/
theorem ghost_of_not_moved {P : Nat → Protocol Cmd Res γ} {g : Nat → γ} {tr : List (Move Cmd Res)} {i : Nat}
    (h : ∀ m ∈ tr, m.proc ≠ i) : ghost P g tr i = g i := by
  induction tr using List.reverseRecOn with
  | nil => rfl
  | append_singleton tr m ih =>
    have hlast : m.proc ≠ i := h m (by simp)
    rw [ghost_snoc, Function.update_of_ne (Ne.symm hlast)]
    exact ih fun x hx => h x (List.mem_append_left _ hx)

/-- Whatever other programs have issued with `p`, program `i` has issued something with `q` since. -/
def Superseded (i : Nat) (p q : Cmd → Prop) (tr : List (Move Cmd Res)) : Prop :=
  ∀ tr₁ m tr₂, tr = tr₁ ++ m :: tr₂ → m.proc ≠ i → p m.cmd → ∃ m' ∈ tr₂, m'.proc = i ∧ q m'.cmd

section Superseded

variable {i : Nat} {p q : Cmd → Prop} {tr : List (Move Cmd Res)} {m : Move Cmd Res}

theorem superseded_cons :
    Superseded i p q (m :: tr) ↔ (m.proc ≠ i → p m.cmd → ∃ m' ∈ tr, m'.proc = i ∧ q m'.cmd) ∧ Superseded i p q tr := by
  constructor
  · exact fun h => ⟨h [] m tr rfl, fun tr₁ m' tr₂ htr => h (m :: tr₁) m' tr₂ (congrArg (m :: ·) htr)⟩
  · rintro ⟨hm, h⟩ tr₁ m' tr₂ htr
    cases tr₁ with
    | nil =>
      obtain ⟨rfl, rfl⟩ := List.cons.inj htr
      exact hm
    | cons _ tr₁ => exact h tr₁ m' tr₂ (List.cons.inj htr).2

instance decidableSuperseded [DecidablePred p] [DecidablePred q] :
    (tr : List (Move Cmd Res)) → Decidable (Superseded i p q tr)
  | [] => isTrue fun _ _ _ h => absurd h (by simp)
  | m :: tr =>
    have := decidableSuperseded tr
    decidable_of_iff _ superseded_cons.symm

/-- What another program has just issued is not superseded. -/
theorem Superseded.not_last (h : Superseded i p q (tr ++ [m])) (hm : m.proc ≠ i) : ¬ p m.cmd := by
  intro hp
  obtain ⟨m', hmem, -⟩ := h tr m [] rfl hm hp
  exact absurd hmem List.not_mem_nil

theorem Superseded.of_snoc (h : Superseded i p q (tr ++ [m])) (hm : ¬ (m.proc = i ∧ q m.cmd)) : Superseded i p q tr := by
  rintro tr₁ m₁ tr₂ rfl hne hp
  obtain ⟨m', hmem, hm'⟩ := h tr₁ m₁ (tr₂ ++ [m]) (by simp) hne hp
  rcases List.mem_append.1 hmem with hmem | hmem
  · exact ⟨m', hmem, hm'⟩
  · obtain rfl := List.mem_singleton.1 hmem
    exact absurd hm' hm

end Superseded

/-- Every program follows its protocol. -/
def Follow (P : Nat → Protocol Cmd Res γ) (post : Nat → γ → α → Prop) (g : Nat → γ) (pool : Pool Cmd Res σ α) : Prop :=
  ∀ i (p : Prog Cmd Res α), pool.progs[i]? = some p → p.Follows (P i) (post i) (g i)

/-- The start rule, for programs made from the entries of a list. -/
theorem follow_mapIdx {β : Type} {P : Nat → Protocol Cmd Res γ} {post : Nat → γ → α → Prop} {g : Nat → γ} {s : σ}
    {l : List β} {f : Nat → β → Prog Cmd Res α}
    (h : ∀ i b, l[i]? = some b → (f i b).Follows (P i) (post i) (g i)) : Follow P post g ⟨s, l.mapIdx f⟩ := by
  intro i p hp
  have hget : (l.mapIdx f)[i]? = some p := hp
  rw [List.getElem?_mapIdx] at hget
  obtain ⟨b, hb, rfl⟩ := Option.map_eq_some_iff.1 hget
  exact h i b hb

theorem follow_map {β : Type} {P : Nat → Protocol Cmd Res γ} {post : Nat → γ → α → Prop} {g : Nat → γ} {s : σ}
    {l : List β} {f : β → Prog Cmd Res α} (h : ∀ i b, l[i]? = some b → (f b).Follows (P i) (post i) (g i)) :
    Follow P post g ⟨s, l.map f⟩ := by
  intro i p hp
  have hget : (l.map f)[i]? = some p := hp
  rw [List.getElem?_map] at hget
  obtain ⟨b, hb, rfl⟩ := Option.map_eq_some_iff.1 hget
  exact h i b hb

/-- The step rule: the command issued is one the protocol allows, and if the answer is one it expects, all programs go
on following their protocols. -/
theorem Follow.step {exec : (c : Cmd) → σ → Res c → σ → Prop} {P : Nat → Protocol Cmd Res γ}
    {post : Nat → γ → α → Prop} {g : Nat → γ} {pool pool' : Pool Cmd Res σ α} {m : Move Cmd Res}
    (h : Follow P post g pool) (hs : Step exec pool m pool') :
    (P m.proc).guarantee (g m.proc) m.cmd ∧ ((P m.proc).rely (g m.proc) m.cmd m.res →
      Follow P post (Function.update g m.proc ((P m.proc).next (g m.proc) m.cmd m.res)) pool') := by
  cases hs with
  | @move s t ps i c k r hi he =>
    obtain ⟨hg, hk⟩ := h i _ hi
    refine ⟨hg, fun hr j p hj => ?_⟩
    dsimp only at hj ⊢
    by_cases hij : j = i
    · subst hij
      have hlt : j < ps.length := (List.getElem?_eq_some_iff.1 hi).1
      rw [List.getElem?_set_self hlt] at hj
      obtain rfl := Option.some.inj hj
      rw [Function.update_self]
      exact hk r hr
    · rw [List.getElem?_set_ne (Ne.symm hij)] at hj
      rw [Function.update_of_ne hij]
      exact h j p hj

/-- What programs return whatever happens. -/
theorem Follow.step_free {exec : (c : Cmd) → σ → Res c → σ → Prop} {post : Nat → Unit → α → Prop}
    {pool pool' : Pool Cmd Res σ α} {m : Move Cmd Res} (h : Follow (fun _ => .free) post (fun _ => ()) pool)
    (hs : Step exec pool m pool') : Follow (fun _ => .free) post (fun _ => ()) pool' :=
  (h.step hs).2 trivial

/-- Programs that issue only commands with `p` keep what those commands keep. -/
theorem Follow.invariant_only {exec : (c : Cmd) → σ → Res c → σ → Prop} {p : Cmd → Prop}
    {post : Nat → Unit → α → Prop} {pool pool' : Pool Cmd Res σ α} {tr : List (Move Cmd Res)} (I : σ → Prop)
    (hI : ∀ c s r t, p c → exec c s r t → I s → I t) (h : Follow (fun _ => .only p) post (fun _ => ()) pool)
    (hs : I pool.store) (hr : Exec (Step exec) pool tr pool') : I pool'.store := by
  have hboth := hr.stateInvariant
    (fun pool => Follow (fun _ => .only p) post (fun _ => ()) pool ∧ I pool.store) ⟨h, hs⟩ ?_
  · exact hboth.2
  · rintro pool m pool' ⟨hfollow, hstore⟩ hstep
    obtain ⟨hallowed, hnext⟩ := hfollow.step hstep
    refine ⟨hnext trivial, ?_⟩
    cases hstep with
    | move _ he => exact hI _ _ _ _ hallowed he hstore

/-- The rule for a run: an invariant of the ghost states and the store that every command allowed by its protocol keeps,
and that entitles its program to the answer, holds at the end. -/
theorem Follow.invariant {exec : (c : Cmd) → σ → Res c → σ → Prop} {P : Nat → Protocol Cmd Res γ}
    {post : Nat → γ → α → Prop} {g : Nat → γ} {pool pool' : Pool Cmd Res σ α} {tr : List (Move Cmd Res)}
    (I : (Nat → γ) → σ → Prop)
    (hI : ∀ g s i c r t, I g s → (P i).guarantee (g i) c → exec c s r t →
      (P i).rely (g i) c r ∧ I (Function.update g i ((P i).next (g i) c r)) t)
    (h : Follow P post g pool) (hs : I g pool.store) (hr : Exec (Step exec) pool tr pool') :
    Follow P post (ghost P g tr) pool' ∧ I (ghost P g tr) pool'.store := by
  refine hr.invariant (fun tr pool' => Follow P post (ghost P g tr) pool' ∧ I (ghost P g tr) pool'.store) ⟨h, hs⟩ ?_
  rintro tr pool₁ m pool₂ - ⟨hfollow, hinv⟩ hstep
  rw [ghost_snoc]
  obtain ⟨hg, hnext⟩ := hfollow.step hstep
  cases hstep with
  | move hi he =>
    obtain ⟨hrely, hinv'⟩ := hI _ _ _ _ _ _ hinv hg he
    exact ⟨hnext hrely, hinv'⟩

/-- A program that is about to issue a command and is elsewhere later has issued it in between. -/
theorem exists_issued {exec : (c : Cmd) → σ → Res c → σ → Prop} {pool pool' : Pool Cmd Res σ α}
    {tr : List (Move Cmd Res)} {i : Nat} {c : Cmd} {k : Res c → Prog Cmd Res α}
    (h : Exec (Step exec) pool tr pool') (hi : pool.progs[i]? = some (.call c k)) :
    pool'.progs[i]? = some (.call c k) ∨ ∃ tr₁ tr₂ r pool₁ pool₂, tr = tr₁ ++ ⟨i, c, r⟩ :: tr₂ ∧
      Exec (Step exec) pool tr₁ pool₁ ∧ Step exec pool₁ ⟨i, c, r⟩ pool₂ ∧ Exec (Step exec) pool₂ tr₂ pool' := by
  induction h with
  | refl => exact Or.inl hi
  | @snoc tr t u m hr hs ih =>
    rcases ih with hcall | ⟨tr₁, tr₂, r, pool₁, pool₂, rfl, h₁, hm, h₂⟩
    · cases hs with
      | @move s s' ps j c' k' r hj he =>
        by_cases hij : i = j
        · subst hij
          obtain ⟨rfl, -⟩ := Prog.call.inj (Option.some.inj (hcall.symm.trans hj))
          exact Or.inr ⟨tr, [], r, _, _, rfl, hr, .move hj he, .refl⟩
        · refine Or.inl ?_
          dsimp only at hcall ⊢
          rw [List.getElem?_set_ne (Ne.symm hij)]
          exact hcall
    · exact Or.inr ⟨tr₁, tr₂ ++ [m], r, pool₁, pool₂, by simp, h₁, hm, h₂.snoc hs⟩

/-- A run can be followed on another store, answer by answer, if each command that the programs issue can be. -/
theorem Follow.simulate {τ : Type} {exec : (c : Cmd) → σ → Res c → σ → Prop}
    {exec' : (c : Cmd) → τ → Res c → τ → Prop} {p : Cmd → Prop} {post : Nat → Unit → α → Prop}
    {pool pool' : Pool Cmd Res σ α} {tr : List (Move Cmd Res)} {s' : τ} (R : σ → τ → Prop)
    (hR : ∀ c s r t s', p c → exec c s r t → R s s' → ∃ t', exec' c s' r t' ∧ R t t')
    (h : Follow (fun _ => .only p) post (fun _ => ()) pool) (hs : R pool.store s')
    (hr : Exec (Step exec) pool tr pool') :
    ∃ t', Exec (Step exec') ⟨s', pool.progs⟩ tr ⟨t', pool'.progs⟩ ∧ R pool'.store t' := by
  have hall := hr.invariant (fun tr pool' => Follow (fun _ => .only p) post (fun _ => ()) pool' ∧
    ∃ t', Exec (Step exec') ⟨s', pool.progs⟩ tr ⟨t', pool'.progs⟩ ∧ R pool'.store t') ⟨h, s', .refl, hs⟩ ?_
  · exact hall.2
  · rintro tr pool₁ m pool₂ - ⟨hfollow, t', hrun, hrel⟩ hstep
    obtain ⟨hallowed, hnext⟩ := hfollow.step hstep
    refine ⟨hnext trivial, ?_⟩
    cases hstep with
    | move hi he =>
      obtain ⟨u', he', hrel'⟩ := hR _ _ _ _ _ hallowed he hrel
      exact ⟨u', hrun.snoc (.move hi he'), hrel'⟩

/-- What a program may become is closed under the answers to its next command. -/
theorem mem_of_exec {exec : (c : Cmd) → σ → Res c → σ → Prop} {pool pool' : Pool Cmd Res σ α}
    {tr : List (Move Cmd Res)} {i : Nat} (S : Prog Cmd Res α → Prop) (hS : ∀ c k r, S (.call c k) → S (k r))
    (h : Exec (Step exec) pool tr pool') (hi : ∀ p, pool.progs[i]? = some p → S p) :
    ∀ p, pool'.progs[i]? = some p → S p := by
  refine h.stateInvariant (fun pool => ∀ p, pool.progs[i]? = some p → S p) hi ?_
  rintro pool m pool' hp hs q hq
  cases hs with
  | @move s t ps j c k r hj he =>
    dsimp only at hp hq
    by_cases hij : j = i
    · subst hij
      have hlt : j < ps.length := (List.getElem?_eq_some_iff.1 hj).1
      rw [List.getElem?_set_self hlt] at hq
      obtain rfl := Option.some.inj hq
      exact hS c k r (hp _ hj)
    · rw [List.getElem?_set_ne hij] at hq
      exact hp q hq

/-- At the end every program has returned in accordance with its postcondition. -/
theorem Follow.post {P : Nat → Protocol Cmd Res γ} {post : Nat → γ → α → Prop} {g : Nat → γ}
    {pool : Pool Cmd Res σ α} (h : Follow P post g pool) {i : Nat} {a : α} (hi : pool.progs[i]? = some (.ret a)) :
    post i (g i) a := h i _ hi

/-! ### Pools with their ghost states -/

/-- A pool beside the ghost states of its programs. -/
structure Monitored (Cmd : Type) (Res : Cmd → Type) (σ α γ : Type) where
  ghosts : Nat → γ
  pool : Pool Cmd Res σ α

/-- A move of the pool, with the ghost state of its program moved on. -/
def Monitored.Step (exec : (c : Cmd) → σ → Res c → σ → Prop) (P : Nat → Protocol Cmd Res γ)
    (st : Monitored Cmd Res σ α γ) (m : Move Cmd Res) (st' : Monitored Cmd Res σ α γ) : Prop :=
  Pool.Step exec st.pool m st'.pool ∧
    st'.ghosts = Function.update st.ghosts m.proc ((P m.proc).next (st.ghosts m.proc) m.cmd m.res)

end Pool
