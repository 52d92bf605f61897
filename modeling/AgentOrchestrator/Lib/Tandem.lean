import AgentOrchestrator.Lib.Body

/-!
# Two bodies side by side

`Prog.Tandem` relates two bodies, each evaluated alone on a store of its own: they come out the same way, and what they
return or raise, their local variables and their stores are related by the postcondition for that way out.  The rules
take the same step on both sides.
-/

namespace Prog

variable {Cmd : Type} {Res : Cmd → Type} {σ L ε α β α' β' : Type}

namespace Body

/-- How the body comes out, and the local variables and the store then. -/
def evalTry (f : (c : Cmd) → σ → Res c × σ) (x : Body Cmd Res L ε α) (t : L × σ) : Except ε α × (L × σ) :=
  let out := (x.attempt t.1).eval f t.2
  (out.1.1, (out.1.2, out.2))

variable {f : (c : Cmd) → σ → Res c × σ} {t : L × σ}

theorem evalTry_bind (x : Body Cmd Res L ε α) (k : α → Body Cmd Res L ε β) :
    evalTry f (x >>= k) t =
      match evalTry f x t with
      | (.ok a, t') => evalTry f (k a) t'
      | (.error e, t') => (.error e, t') := by
  have hbind := eval_bind f (x.attempt t.1)
    (fun out => (match out with
      | (.ok a, l) => (k a).attempt l
      | (.error e, l) => Prog.ret (.error e, l) : Prog Cmd Res (Except ε β × L))) t.2
  have hattempt : ((x >>= k).attempt t.1) = (x.attempt t.1 >>= fun out => match out with
      | (.ok a, l) => (k a).attempt l
      | (.error e, l) => Prog.ret (.error e, l)) := by
    refine congrArg (x.attempt t.1 >>= ·) (funext fun out => ?_)
    obtain ⟨result, l⟩ := out
    cases result with
    | ok a => rfl
    | error e => rfl
  unfold evalTry
  rw [hattempt, hbind]
  rcases (x.attempt t.1).eval f t.2 with ⟨⟨result, l⟩, s⟩
  cases result with
  | ok a => rfl
  | error e => rfl

theorem evalTry_send_bind (c : Cmd) (k : Res c → Body Cmd Res L ε β) :
    evalTry f (send c >>= k) t = evalTry f (k (f c t.2).1) (t.1, (f c t.2).2) := evalTry_bind (send c) k

end Body

/-- Both bodies return in accordance with `post` or both raise in accordance with `raised`. -/
def Tandem (f f' : (c : Cmd) → σ → Res c × σ) (post : α → α' → L × σ → L × σ → Prop)
    (raised : ε → ε → L × σ → L × σ → Prop) (x : Body Cmd Res L ε α) (x' : Body Cmd Res L ε α') (t t' : L × σ) : Prop :=
  match x.evalTry f t, x'.evalTry f' t' with
  | (.ok a, u), (.ok a', u') => post a a' u u'
  | (.error e, u), (.error e', u') => raised e e' u u'
  | _, _ => False

namespace Tandem

variable {f f' : (c : Cmd) → σ → Res c × σ} {post : α → α' → L × σ → L × σ → Prop}
  {post' : β → β' → L × σ → L × σ → Prop} {raised : ε → ε → L × σ → L × σ → Prop} {x : Body Cmd Res L ε α}
  {x' : Body Cmd Res L ε α'} {t t' : L × σ}

theorem pure {a : α} {a' : α'} (h : post a a' t t') :
    Tandem f f' post raised (Pure.pure a : Body Cmd Res L ε α) (Pure.pure a') t t' := h

theorem throw {e e' : ε} (h : raised e e' t t') :
    Tandem f f' post raised (MonadExcept.throw e : Body Cmd Res L ε α) (MonadExcept.throw e') t t' := h

theorem get {post : L → L → L × σ → L × σ → Prop} (h : post t.1 t'.1 t t') :
    Tandem f f' post raised (MonadState.get : Body Cmd Res L ε L) MonadState.get t t' := h

theorem modify {post : Unit → Unit → L × σ → L × σ → Prop} (g g' : L → L) (h : post () () (g t.1, t.2) (g' t'.1, t'.2)) :
    Tandem f f' post raised (MonadState.modifyGet fun l => ((), g l) : Body Cmd Res L ε Unit)
      (MonadState.modifyGet fun l => ((), g' l)) t t' := h

theorem bind {k : α → Body Cmd Res L ε β} {k' : α' → Body Cmd Res L ε β'}
    (h : Tandem f f' (fun a a' u u' => Tandem f f' post' raised (k a) (k' a') u u') raised x x' t t') :
    Tandem f f' post' raised (x >>= k) (x' >>= k') t t' := by
  unfold Tandem at h
  unfold Tandem
  rw [Body.evalTry_bind, Body.evalTry_bind]
  generalize x.evalTry f t = out at h ⊢
  generalize x'.evalTry f' t' = out' at h ⊢
  obtain ⟨result, u⟩ := out
  obtain ⟨result', u'⟩ := out'
  cases result with
  | ok a =>
    cases result' with
    | ok a' => exact h
    | error e' => exact h.elim
  | error e =>
    cases result' with
    | ok a' => exact h.elim
    | error e' => exact h

/-- The rule for a command. -/
theorem send {c c' : Cmd} {k : Res c → Body Cmd Res L ε β} {k' : Res c' → Body Cmd Res L ε β'}
    (h : Tandem f f' post' raised (k (f c t.2).1) (k' (f' c' t'.2).1) (t.1, (f c t.2).2) (t'.1, (f' c' t'.2).2)) :
    Tandem f f' post' raised (Body.send c >>= k) (Body.send c' >>= k') t t' := by
  have hsend : Tandem f f' (fun a a' u u' => Tandem f f' post' raised (k a) (k' a') u u') raised (Body.send c)
      (Body.send c') t t' := h
  exact bind hsend

theorem mono {post₁ : α → α' → L × σ → L × σ → Prop} {raised₁ : ε → ε → L × σ → L × σ → Prop}
    (h : Tandem f f' post raised x x' t t') (hpost : ∀ a a' u u', post a a' u u' → post₁ a a' u u')
    (hraised : ∀ e e' u u', raised e e' u u' → raised₁ e e' u u') : Tandem f f' post₁ raised₁ x x' t t' := by
  unfold Tandem at h ⊢
  generalize x.evalTry f t = out at h ⊢
  generalize x'.evalTry f' t' = out' at h ⊢
  obtain ⟨result, u⟩ := out
  obtain ⟨result', u'⟩ := out'
  cases result with
  | ok a =>
    cases result' with
    | ok a' => exact hpost _ _ _ _ h
    | error e' => exact h.elim
  | error e =>
    cases result' with
    | ok a' => exact h.elim
    | error e' => exact hraised _ _ _ _ h

/-- The rule for a loop over a list, the same on both sides: what each turn keeps. -/
theorem forM {γ : Type} {I : L × σ → L × σ → Prop} {as : List γ} {k k' : γ → Body Cmd Res L ε Unit}
    (hk : ∀ a ∈ as, ∀ t t', I t t' → Tandem f f' (fun _ _ => I) raised (k a) (k' a) t t') (h : I t t') :
    Tandem f f' (fun _ _ => I) raised (as.forM k) (as.forM k') t t' := by
  induction as generalizing t t' with
  | nil => exact h
  | cons a as ih =>
    have hhead := hk a List.mem_cons_self t t' h
    refine bind (hhead.mono (fun _ _ u u' hI => ?_) fun _ _ _ _ hraised => hraised)
    exact ih (fun a ha => hk a (List.mem_cons_of_mem _ ha)) hI

/-- The rule for a `try` statement: what the handlers make of the two ways out. -/
theorem eval_attempt {γ γ' : Type} {R : γ × σ → γ' × σ → Prop} {k : Except ε α × L → Prog Cmd Res γ}
    {k' : Except ε α' × L → Prog Cmd Res γ'} (h : Tandem f f' post raised x x' t t')
    (hpost : ∀ a a' u u', post a a' u u' → R ((k (.ok a, u.1)).eval f u.2) ((k' (.ok a', u'.1)).eval f' u'.2))
    (hraised : ∀ e e' u u', raised e e' u u' →
      R ((k (.error e, u.1)).eval f u.2) ((k' (.error e', u'.1)).eval f' u'.2)) :
    R ((x.attempt t.1 >>= k).eval f t.2) ((x'.attempt t'.1 >>= k').eval f' t'.2) := by
  rw [eval_bind, eval_bind]
  unfold Tandem Body.evalTry at h
  generalize (x.attempt t.1).eval f t.2 = out at h ⊢
  generalize (x'.attempt t'.1).eval f' t'.2 = out' at h ⊢
  obtain ⟨⟨result, l⟩, s⟩ := out
  obtain ⟨⟨result', l'⟩, s'⟩ := out'
  cases result with
  | ok a =>
    cases result' with
    | ok a' => exact hpost a a' (l, s) (l', s') h
    | error e' => exact h.elim
  | error e =>
    cases result' with
    | ok a' => exact h.elim
    | error e' => exact hraised e e' (l, s) (l', s') h

end Tandem

end Prog
