import Mathlib.Data.List.Forall2

/-!
# Computations that may fail

Inversion of `Except` programs: a sequence succeeds when its parts do (`bind_eq_ok_iff`), and `mapM` succeeds with the
list of the single results (`mapM_eq_ok_iff`).
-/

namespace Fallible

variable {ε α β : Type}

theorem bind_eq_ok_iff {x : Except ε α} {f : α → Except ε β} {b : β} :
    x >>= f = .ok b ↔ ∃ a, x = .ok a ∧ f a = .ok b := by
  rcases x with e | a <;> simp [bind, Except.bind]

theorem mapM_eq_ok_iff {f : α → Except ε β} {l : List α} {r : List β} :
    l.mapM f = .ok r ↔ List.Forall₂ (fun a b => f a = .ok b) l r := by
  induction l generalizing r with
  | nil =>
    rw [List.mapM_nil, List.forall₂_nil_left_iff]
    exact ⟨fun h => (Except.ok.inj h).symm, fun h => h ▸ rfl⟩
  | cons a l ih =>
    rw [List.mapM_cons, List.forall₂_cons_left_iff, bind_eq_ok_iff]
    constructor
    · rintro ⟨b, hb, h⟩
      obtain ⟨r', hr', h⟩ := bind_eq_ok_iff.1 h
      exact ⟨b, r', hb, ih.1 hr', (Except.ok.inj h).symm⟩
    · rintro ⟨b, r', hb, hr', rfl⟩
      refine ⟨b, hb, bind_eq_ok_iff.2 ⟨r', ih.2 hr', rfl⟩⟩

end Fallible
