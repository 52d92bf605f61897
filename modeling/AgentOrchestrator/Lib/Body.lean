import AgentOrchestrator.Lib.Pool

/-!
# Bodies of `try` statements

A `Prog.Body` is a program with local variables that may raise an exception; it leaves the local variables as they are
at that moment, where the handler finds them.  `Prog.Tries` is `Prog.Follows` for a body, with a postcondition for each
of the two ways out of it.
-/

namespace Prog

variable {Cmd : Type} {Res : Cmd → Type} {L ε α β γ : Type}

/-- A program with the local variables `L` that may raise an `ε`. -/
abbrev Body (Cmd : Type) (Res : Cmd → Type) (L ε α : Type) := ExceptT ε (StateT L (Prog Cmd Res)) α

/-- Issue one command. -/
def Body.send (c : Cmd) : Body Cmd Res L ε (Res c) := fun l : L => call c fun r => ret (.ok r, l)

/-- The body as a program: how it comes out, and the local variables then. -/
def Body.attempt (x : Body Cmd Res L ε α) (l : L) : Prog Cmd Res (Except ε α × L) := x l

/-- From the ghost state `g` and the local variables `l` the body follows the protocol; it returns only in accordance
with `post` and raises only in accordance with `raised`. -/
def Tries (P : Protocol Cmd Res γ) (post : α → γ → L → Prop) (raised : γ → L → Prop) (x : Body Cmd Res L ε α) (g : γ)
    (l : L) : Prop :=
  (x.attempt l).Follows P
    (fun g' out =>
      match out.1 with
      | .ok a => post a g' out.2
      | .error _ => raised g' out.2)
    g

namespace Tries

variable {P : Protocol Cmd Res γ} {post : α → γ → L → Prop} {post' : β → γ → L → Prop} {raised : γ → L → Prop}
  {x : Body Cmd Res L ε α} {g : γ} {l : L}

theorem pure {a : α} (h : post a g l) : Tries P post raised (Pure.pure a : Body Cmd Res L ε α) g l := h

theorem throw {e : ε} (h : raised g l) : Tries P post raised (MonadExcept.throw e : Body Cmd Res L ε α) g l := h

theorem get {post : L → γ → L → Prop} (h : post l g l) :
    Tries P post raised (MonadState.get : Body Cmd Res L ε L) g l := h

theorem modify {post : Unit → γ → L → Prop} (f : L → L) (h : post () g (f l)) :
    Tries P post raised (MonadState.modifyGet fun l => ((), f l) : Body Cmd Res L ε Unit) g l := h

theorem send {c : Cmd} {post : Res c → γ → L → Prop} (hc : P.guarantee g c)
    (h : ∀ r, P.rely g c r → post r (P.next g c r) l) : Tries P post raised (Body.send c : Body Cmd Res L ε (Res c)) g l :=
  ⟨hc, h⟩

theorem bind {f : α → Body Cmd Res L ε β} (h : Tries P (fun a g l => Tries P post' raised (f a) g l) raised x g l) :
    Tries P post' raised (x >>= f) g l := by
  refine Follows.bind h fun g' out hout => ?_
  obtain ⟨result, l'⟩ := out
  cases result with
  | ok a => exact hout
  | error e => exact hout

theorem mono {post₁ : α → γ → L → Prop} {raised₁ : γ → L → Prop} (h : Tries P post raised x g l)
    (hpost : ∀ a g l, post a g l → post₁ a g l) (hraised : ∀ g l, raised g l → raised₁ g l) :
    Tries P post₁ raised₁ x g l := by
  refine Follows.mono h fun g' out hout => ?_
  obtain ⟨result, l'⟩ := out
  cases result with
  | ok a => exact hpost a g' l' hout
  | error e => exact hraised g' l' hout

/-- The rule for a loop over a list, with what is left of the list in the invariant. -/
theorem forM_rest {I : List α → γ → L → Prop} {as : List α} {f : α → Body Cmd Res L ε Unit}
    (hf : ∀ a rest g l, I (a :: rest) g l → Tries P (fun _ => I rest) raised (f a) g l) (h : I as g l) :
    Tries P (fun _ => I []) raised (as.forM f) g l := by
  induction as generalizing g l with
  | nil => exact h
  | cons a as ih => exact bind ((hf a as g l h).mono (fun _ g l hI => ih hI) fun _ _ hI => hI)

/-- The rule for a loop over a list: what each turn keeps. -/
theorem forM {I : γ → L → Prop} {as : List α} {f : α → Body Cmd Res L ε Unit}
    (hf : ∀ a ∈ as, ∀ g l, I g l → Tries P (fun _ => I) I (f a) g l) (h : I g l) :
    Tries P (fun _ => I) I (as.forM f) g l := by
  induction as generalizing g l with
  | nil => exact h
  | cons a as ih =>
    have hhead := hf a List.mem_cons_self g l h
    refine bind (hhead.mono (fun _ g l hI => ?_) fun _ _ hI => hI)
    exact ih (fun a ha => hf a (List.mem_cons_of_mem _ ha)) hI

end Tries

/-- Whatever the answers are, the body issues only commands with `p`. -/
def Body.Only (p : Cmd → Prop) (x : Body Cmd Res L ε α) : Prop :=
  ∀ l, Tries (.only p) (fun _ _ _ => True) (fun _ _ => True) x () l

namespace Body.Only

variable {p : Cmd → Prop} {x : Body Cmd Res L ε α}

theorem pure (a : α) : Only p (Pure.pure a : Body Cmd Res L ε α) := fun _ => .pure trivial

theorem throw (e : ε) : Only p (MonadExcept.throw e : Body Cmd Res L ε α) := fun _ => .throw trivial

theorem get : Only p (MonadState.get : Body Cmd Res L ε L) := fun _ => .get trivial

theorem modify (f : L → L) : Only p (MonadState.modifyGet fun l => ((), f l) : Body Cmd Res L ε Unit) :=
  fun _ => .modify f trivial

theorem send {c : Cmd} (hc : p c) : Only p (Body.send c : Body Cmd Res L ε (Res c)) :=
  fun _ => .send hc fun _ _ => trivial

theorem bind {f : α → Body Cmd Res L ε β} (h : Only p x) (hf : ∀ a, Only p (f a)) : Only p (x >>= f) :=
  fun l => .bind ((h l).mono (fun a _ l' _ => hf a l') fun _ _ _ => trivial)

theorem forM {as : List α} {f : α → Body Cmd Res L ε Unit} (hf : ∀ a, Only p (f a)) : Only p (as.forM f) :=
  fun _ => (Tries.forM (I := fun _ _ => True) (fun a _ _ l _ => hf a l) trivial).mono (fun _ _ _ _ => trivial)
    fun _ _ _ => trivial

theorem attempt (h : Only p x) (l : L) : (x.attempt l).Follows (.only p) (fun _ _ => True) () :=
  Follows.mono (h l) fun _ _ _ => trivial

end Body.Only

end Prog
