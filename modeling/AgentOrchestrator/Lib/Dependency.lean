import Mathlib.Data.List.Basic
import Mathlib.Data.Set.Finite.List
import Mathlib.Logic.Relation
import Mathlib.Order.WellFounded
import Mathlib.Data.Fintype.Card

/-!
# Dependencies and deadlock

A set of `known` tasks and a relation `dep a d`, "`a` waits for `d`".  A task is `Resolvable` when it and everything
it waits for, transitively, is known and no chain of dependencies goes on for ever; a set of finished tasks is
`Blocked` when every unfinished known task waits for an unfinished one.  While an unfinished resolvable task is left,
something can be started (`Resolvable.exists_startable`); a blocked finite system has every unfinished task waiting
for an unknown task or for a cycle (`Blocked.hopeless`); and the two notions are the two sides of one
characterisation (`resolvable_iff`).
-/

namespace Dependency

variable {α : Type}

/-- `a` and all it waits for is known, and its dependency chains are finite. -/
inductive Resolvable (known : α → Prop) (dep : α → α → Prop) : α → Prop
  | intro {a : α} : known a → (∀ d, dep a d → Resolvable known dep d) → Resolvable known dep a

/-- Every unfinished known task waits for an unfinished task. -/
def Blocked (known : α → Prop) (dep : α → α → Prop) (done : α → Prop) : Prop :=
  ∀ a, known a → ¬ done a → ∃ d, dep a d ∧ ¬ done d

/-- `a` waits, directly or not, for an unknown task or for one that waits for itself. -/
def Hopeless (known : α → Prop) (dep : α → α → Prop) (a : α) : Prop :=
  ∃ x, Relation.TransGen dep a x ∧ (¬ known x ∨ Relation.TransGen dep x x)

variable {known done : α → Prop} {dep : α → α → Prop} {a : α}

theorem Resolvable.isKnown (h : Resolvable known dep a) : known a := by
  cases h with
  | intro hk _ => exact hk

theorem Resolvable.ofDep (h : Resolvable known dep a) {d : α} (hd : dep a d) : Resolvable known dep d := by
  cases h with
  | intro _ hr => exact hr d hd

theorem Resolvable.irrefl (h : Resolvable known dep a) : ¬ dep a a := by
  induction h with
  | @intro a _ _ ih => exact fun ha => ih a ha ha

/-- Among the dependencies of an unfinished resolvable task there is one that can start. -/
theorem Resolvable.exists_startable (h : Resolvable known dep a) (ha : ¬ done a) :
    ∃ b, Resolvable known dep b ∧ ¬ done b ∧ ∀ d, dep b d → done d := by
  induction h with
  | @intro a hk hr ih =>
    by_cases hd : ∀ d, dep a d → done d
    · exact ⟨a, .intro hk hr, ha, hd⟩
    · simp only [not_forall] at hd
      obtain ⟨d, had, hnd⟩ := hd
      exact ih d had hnd

theorem Resolvable.not_blocked (h : Resolvable known dep a) (ha : ¬ done a) : ¬ Blocked known dep done := by
  intro hb
  obtain ⟨b, hr, hnb, hdep⟩ := h.exists_startable ha
  obtain ⟨d, hbd, hnd⟩ := hb b hr.isKnown hnb
  exact hnd (hdep d hbd)

/-- In a blocked finite system every unfinished task is hopeless. -/
theorem Blocked.hopeless (hfin : {a | known a}.Finite) (hb : Blocked known dep done) (hk : known a)
    (ha : ¬ done a) : Hopeless known dep a := by
  by_contra hno
  -- otherwise all that `a` waits for is known, and `TransGen dep` is a well-founded relation on it
  have hknown : ∀ x, Relation.TransGen dep a x → known x := by
    intro x hx
    by_contra hx'
    exact hno ⟨x, hx, Or.inl hx'⟩
  let S := {x // Relation.ReflTransGen dep a x}
  have hS : ∀ x : S, known x.1 := by
    rintro ⟨x, hx⟩
    rcases Relation.reflTransGen_iff_eq_or_transGen.1 hx with rfl | hx
    · exact hk
    · exact hknown x hx
  have : Finite S := by
    have := hfin.to_subtype
    exact Finite.of_injective (fun x : S => (⟨x.1, hS x⟩ : {a | known a})) fun x y h =>
      Subtype.ext (congrArg (fun z => z.1) h)
  have hcyc : ∀ x, Relation.TransGen dep a x → ¬ Relation.TransGen dep x x := fun x hx hxx =>
    hno ⟨x, hx, Or.inr hxx⟩
  have haa : ¬ Relation.TransGen dep a a := fun h => hcyc a h h
  have hwf : WellFounded fun x y : S => Relation.TransGen dep y.1 x.1 := by
    have htr : IsTrans S fun x y : S => Relation.TransGen dep y.1 x.1 := ⟨fun _ _ _ hxy hyz => hyz.trans hxy⟩
    have hir : Std.Irrefl fun x y : S => Relation.TransGen dep y.1 x.1 := by
      constructor
      rintro ⟨x, hx⟩ hxx
      rcases Relation.reflTransGen_iff_eq_or_transGen.1 hx with rfl | hx
      · exact haa hxx
      · exact hcyc x hx hxx
    exact Finite.wellFounded_of_trans_of_irrefl _
  obtain ⟨m, hm, hmin⟩ := hwf.has_min {x : S | ¬ done x.1} ⟨⟨a, .refl⟩, ha⟩
  obtain ⟨d, hmd, hnd⟩ := hb m.1 (hS m) hm
  exact hmin ⟨d, m.2.tail hmd⟩ hnd (.single hmd)

/-- A known task of a finite system is resolvable unless it is hopeless. -/
theorem resolvable_iff (hfin : {a | known a}.Finite) :
    Resolvable known dep a ↔ known a ∧ ¬ Hopeless known dep a := by
  constructor
  · intro h
    refine ⟨h.isKnown, ?_⟩
    have hall : ∀ x, Relation.TransGen dep a x → Resolvable known dep x := by
      intro x hx
      induction hx with
      | single h1 => exact h.ofDep h1
      | tail _ h1 ih => exact ih.ofDep h1
    rintro ⟨x, hx, hx' | hx'⟩
    · exact hx' (hall x hx).isKnown
    · -- a resolvable task does not wait for itself
      have hacc : ∀ y, Resolvable known dep y → ¬ Relation.TransGen dep y y := by
        intro y hy
        induction hy with
        | @intro y _ hr ih =>
          intro hyy
          obtain ⟨d, hyd, hdy⟩ := Relation.TransGen.head'_iff.1 hyy
          exact ih d hyd (Relation.TransGen.tail' hdy hyd)
      exact hacc x (hall x hx) hx'
  · rintro ⟨hk, hh⟩
    by_contra hn
    refine hh (@Blocked.hopeless α known (Resolvable known dep) dep a hfin ?_ hk hn)
    intro b hkb hnb
    by_contra hno
    simp only [not_exists, not_and, not_not] at hno
    exact hnb (.intro hkb hno)

end Dependency
