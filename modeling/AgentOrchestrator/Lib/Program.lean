import Mathlib.Data.List.Basic

/-!
# Programs of atomic commands

A process that talks to a shared store is a `Prog`: it returns, or issues a command and goes on with the response.
Commands are atomic; between two commands of one program those of any others may be executed, so the interleavings of
several programs are the runs of a pool that executes one command of one of them at a time.

`Safe` is the rely-guarantee judgement: whatever the responses are, as long as each is one the program relies on, every
command it issues is one it guarantees and what it returns satisfies the postcondition.  By its definition it is kept by
every command, and it follows the structure of a program (`Safe.bind`, `Safe.mapM`).
-/

/-- A program over the commands `Cmd` with the responses `Res`. -/
inductive Prog (Cmd : Type) (Res : Cmd → Type) (α : Type) : Type
  | ret (a : α) : Prog Cmd Res α
  | call (c : Cmd) (k : Res c → Prog Cmd Res α) : Prog Cmd Res α

namespace Prog

variable {Cmd : Type} {Res : Cmd → Type} {α β : Type}

/-- Issue one command. -/
def perform (c : Cmd) : Prog Cmd Res (Res c) := call c ret

protected def bind : Prog Cmd Res α → (α → Prog Cmd Res β) → Prog Cmd Res β
  | ret a, f => f a
  | call c k, f => call c fun r => (k r).bind f

instance : Monad (Prog Cmd Res) where
  pure := ret
  bind := Prog.bind

theorem call_bind (c : Cmd) (k : Res c → Prog Cmd Res α) (f : α → Prog Cmd Res β) :
    call c k >>= f = call c fun r => k r >>= f := rfl

private theorem bind_ret (p : Prog Cmd Res α) : p >>= ret = p := by
  induction p with
  | ret a => rfl
  | call c k ih => exact congrArg (call c) (funext ih)

private theorem bind_bind {γ : Type} (p : Prog Cmd Res α) (f : α → Prog Cmd Res β) (g : β → Prog Cmd Res γ) :
    p >>= f >>= g = p >>= fun a => f a >>= g := by
  induction p with
  | ret a => rfl
  | call c k ih => exact congrArg (call c) (funext ih)

instance : LawfulMonad (Prog Cmd Res) := LawfulMonad.mk' _ bind_ret (fun _ _ => rfl) bind_bind

/-- After these responses to its first commands, `q` is left of the program. -/
inductive After : Prog Cmd Res α → List ((c : Cmd) × Res c) → Prog Cmd Res α → Prop
  | start (p : Prog Cmd Res α) : After p [] p
  | call {c : Cmd} {k : Res c → Prog Cmd Res α} {r : Res c} {asked : List ((c : Cmd) × Res c)} {q : Prog Cmd Res α}
      (h : After (k r) asked q) : After (.call c k) (⟨c, r⟩ :: asked) q

theorem After.snoc {p : Prog Cmd Res α} {asked : List ((c : Cmd) × Res c)} {c : Cmd} {k : Res c → Prog Cmd Res α}
    (h : p.After asked (.call c k)) (r : Res c) : p.After (asked ++ [⟨c, r⟩]) (k r) := by
  generalize hq : Prog.call c k = q at h
  induction h with
  | start =>
    subst hq
    exact .call (.start _)
  | call _ ih => exact .call (ih hq)

/-- Under responses that satisfy `rely`, the program issues only commands that satisfy `guarantee`, and returns only
values that satisfy `post`. -/
def Safe (guarantee : Cmd → Prop) (rely : (c : Cmd) → Res c → Prop) (post : α → Prop) : Prog Cmd Res α → Prop
  | ret a => post a
  | call c k => guarantee c ∧ ∀ r, rely c r → (k r).Safe guarantee rely post

namespace Safe

variable {guarantee : Cmd → Prop} {rely : (c : Cmd) → Res c → Prop} {post : α → Prop} {post' : β → Prop}

theorem mono {post' : α → Prop} {p : Prog Cmd Res α} (h : p.Safe guarantee rely post) (hp : ∀ a, post a → post' a) :
    p.Safe guarantee rely post' := by
  induction p with
  | ret a => exact hp a h
  | call c k ih => exact ⟨h.1, fun r hr => ih r (h.2 r hr)⟩

theorem bind {p : Prog Cmd Res α} {f : α → Prog Cmd Res β} (h : p.Safe guarantee rely post)
    (hf : ∀ a, post a → (f a).Safe guarantee rely post') : (p >>= f).Safe guarantee rely post' := by
  induction p with
  | ret a => exact hf a h
  | call c k ih =>
    rw [call_bind]
    exact ⟨h.1, fun r hr => ih r (h.2 r hr)⟩

theorem map {f : α → β} {p : Prog Cmd Res α} (h : p.Safe guarantee rely post) (hf : ∀ a, post a → post' (f a)) :
    (f <$> p).Safe guarantee rely post' := by
  rw [← bind_pure_comp]
  exact h.bind hf

/-- The rule for a loop that collects results. -/
theorem mapM {l : List α} {f : α → Prog Cmd Res β} (hf : ∀ a ∈ l, (f a).Safe guarantee rely post') :
    (l.mapM f).Safe guarantee rely fun bs => ∀ b ∈ bs, post' b := by
  induction l with
  | nil =>
    rw [List.mapM_nil]
    exact fun b hb => absurd hb List.not_mem_nil
  | cons a l ih =>
    rw [List.mapM_cons]
    refine (hf a List.mem_cons_self).bind fun b hb => ?_
    refine (ih fun x hx => hf x (List.mem_cons_of_mem _ hx)).bind fun bs hbs => ?_
    exact fun x hx => (List.mem_cons.1 hx).elim (fun h => h ▸ hb) (hbs x)

end Safe

end Prog
