import AgentOrchestrator.Lib.Pool
import Mathlib.Data.Set.List

/-!
# Programs on an encoded store

A store may hold its values as codes.  The programs then encode what they write and decode what they read.  If each
command on the encoded store does what the command does on the values, then the runs of a pool on the encoded store are
exactly the images of its runs on the values (`Encoding.exec_iff`).  So nothing that is proved of the runs on the values
depends on the encoding, and no answer in a run fails to decode.
-/

/-- The commands in another language, whose answers hold codes. -/
structure Encoding (Cmd : Type) (Res : Cmd → Type) (Cmd' : Type) (Res' : Cmd' → Type) where
  command : Cmd → Cmd'
  reply : (c : Cmd) → Res c → Res' (command c)
  decode : (c : Cmd) → Res' (command c) → Option (Res c)
  decode_reply : ∀ c r, decode c (reply c r) = some r

variable {Cmd Cmd' : Type} {Res : Cmd → Type} {Res' : Cmd' → Type} {σ σ' α : Type}

/-- The program in the other language; it breaks off at an answer that is no code. -/
def Prog.encoded (E : Encoding Cmd Res Cmd' Res') : Prog Cmd Res α → Prog Cmd' Res' (Option α)
  | .ret a => .ret (some a)
  | .call c k => .call (E.command c) fun r => (E.decode c r).elim (.ret none) fun r => (k r).encoded E

namespace Encoding

variable (E : Encoding Cmd Res Cmd' Res') (encode : σ → σ')

def move (m : Move Cmd Res) : Move Cmd' Res' := ⟨m.proc, E.command m.cmd, E.reply m.cmd m.res⟩

def pool (p : Pool Cmd Res σ α) : Pool Cmd' Res' σ' (Option α) := ⟨encode p.store, p.progs.map (Prog.encoded E)⟩

/-- A command on an encoded store does what the command does on the store. -/
def Faithful (exec : (c : Cmd) → σ → Res c → σ → Prop) (exec' : (c : Cmd') → σ' → Res' c → σ' → Prop) : Prop :=
  ∀ c s r' t', exec' (E.command c) (encode s) r' t' ↔ ∃ r t, exec c s r t ∧ r' = E.reply c r ∧ t' = encode t

variable {E encode} {exec : (c : Cmd) → σ → Res c → σ → Prop} {exec' : (c : Cmd') → σ' → Res' c → σ' → Prop}

/-- What a program in the other language goes on with. -/
theorem encoded_call (c : Cmd) (k : Res c → Prog Cmd Res α) (r : Res c) :
    (E.decode c (E.reply c r)).elim (.ret none) (fun r => (k r).encoded E) = (k r).encoded E := by
  rw [E.decode_reply]
  rfl

/-- The step lemma: the steps on the encoded store are the images of the steps. -/
theorem Faithful.step_iff (h : E.Faithful encode exec exec') (p : Pool Cmd Res σ α) (m' : Move Cmd' Res')
    (p' : Pool Cmd' Res' σ' (Option α)) :
    Pool.Step exec' (E.pool encode p) m' p' ↔
      ∃ m q, Pool.Step exec p m q ∧ m' = E.move m ∧ p' = E.pool encode q := by
  constructor
  · intro hs
    obtain ⟨s, ps⟩ := p
    cases hs with
    | @move _ t' _ i c' k' r' hi he =>
      rw [List.getElem?_map] at hi
      obtain ⟨q, hq, hcall⟩ := Option.map_eq_some_iff.1 hi
      cases q with
      | ret a => exact absurd hcall (by simp [Prog.encoded])
      | call c k =>
        obtain ⟨rfl, hk⟩ := Prog.call.inj hcall
        obtain rfl := eq_of_heq hk
        obtain ⟨r, t, hexec, rfl, rfl⟩ := (h c s r' t').1 he
        refine ⟨⟨i, c, r⟩, ⟨t, ps.set i (k r)⟩, .move hq hexec, rfl, ?_⟩
        simp only [encoded_call, ← List.map_set, pool]
  · rintro ⟨m, q, hs, rfl, rfl⟩
    cases hs with
    | @move s t ps i c k r hi he =>
      have hcall : (ps.map (Prog.encoded E))[i]? = some (Prog.encoded E (.call c k)) := by
        rw [List.getElem?_map, hi]
        rfl
      have hexec : exec' (E.command c) (encode s) (E.reply c r) (encode t) := (h c s _ _).2 ⟨r, t, he, rfl, rfl⟩
      have hstep := Pool.Step.move hcall hexec
      rw [encoded_call, ← List.map_set] at hstep
      exact hstep

/-- The run lemma: the runs on the encoded store are the images of the runs. -/
theorem Faithful.exec_iff (h : E.Faithful encode exec exec') (p : Pool Cmd Res σ α) (tr' : List (Move Cmd' Res'))
    (p' : Pool Cmd' Res' σ' (Option α)) :
    Exec (Pool.Step exec') (E.pool encode p) tr' p' ↔
      ∃ tr q, Exec (Pool.Step exec) p tr q ∧ tr' = tr.map E.move ∧ p' = E.pool encode q := by
  constructor
  · intro hr
    refine hr.invariant (fun tr' p' => ∃ tr q, Exec (Pool.Step exec) p tr q ∧ tr' = tr.map E.move ∧
      p' = E.pool encode q) ⟨[], p, .refl, rfl, rfl⟩ ?_
    rintro tr' p₁' m' p₂' - ⟨tr, q, hrun, rfl, rfl⟩ hs
    obtain ⟨m, q₂, hstep, rfl, rfl⟩ := (h.step_iff q m' p₂').1 hs
    exact ⟨tr ++ [m], q₂, hrun.snoc hstep, by simp, rfl⟩
  · rintro ⟨tr, q, hr, rfl, rfl⟩
    refine hr.invariant (fun tr q => Exec (Pool.Step exec') (E.pool encode p) (tr.map E.move) (E.pool encode q))
      .refl ?_
    intro tr q₁ m q₂ _ hrun hs
    rw [List.map_append]
    exact hrun.snoc ((h.step_iff q₁ _ _).2 ⟨m, q₂, hs, rfl, rfl⟩)

/-! ### Answers that are lists -/

variable {β γ : Type} {f : β → γ}

/-- Decoding a list of codes. -/
theorem mapM_map {g : γ → Option β} (h : ∀ b, g (f b) = some b) (l : List β) : (l.map f).mapM g = some l := by
  induction l with
  | nil => rfl
  | cons b l ih =>
    rw [List.map_cons, List.mapM_cons, h, ih]
    rfl

/-- Decoding a list and then converting its items. -/
theorem mapM_map_option {δ : Type} (g : γ → Option β) (h : β → δ) (l : List γ) :
    (l.mapM fun c => (g c).map h) = (l.mapM g).map (List.map h) := by
  induction l with
  | nil => rfl
  | cons c l ih =>
    rw [List.mapM_cons, List.mapM_cons, ih]
    cases g c with
    | none => rfl
    | some b => cases l.mapM g <;> rfl

theorem exists_eq_map (f : β → γ) {r : List γ} (h : ∀ c ∈ r, ∃ b, f b = c) : ∃ l : List β, r = l.map f := by
  have hrange : r ∈ Set.range (List.map f) := by
    rw [Set.range_list_map]
    exact h
  obtain ⟨l, hl⟩ := hrange
  exact ⟨l, hl.symm⟩

/-- The reorderings of a list of codes. -/
theorem perm_map_iff (hf : Function.Injective f) {l : List β} {r : List γ} :
    r.Perm (l.map f) ↔ ∃ l' : List β, l'.Perm l ∧ r = l'.map f := by
  constructor
  · intro hr
    obtain ⟨l', rfl⟩ := exists_eq_map f fun c hc => by
      obtain ⟨b, -, hb⟩ := List.mem_map.1 (hr.mem_iff.1 hc)
      exact ⟨b, hb⟩
    exact ⟨l', (List.map_perm_map_iff hf).1 hr, rfl⟩
  · rintro ⟨l', hl, rfl⟩
    exact hl.map f

end Encoding
