import Mathlib.Data.Finset.Card
import Mathlib.Order.Monotone.Basic

/-!
# Approximations of a recursive function

`F` is the body of a recursive definition: it makes a partial function out of the one that its recursive calls use.
`approx F n` is the function that comes out if the calls are nested at most `n` deep.  If only the arguments of a finite
set ever have a value, then as many levels as the set has elements are enough (`approx_stable`).
-/

namespace Approximation

variable {α β : Type}

def approx (F : (α → Option β) → α → Option β) : Nat → α → Option β
  | 0 => fun _ => none
  | n + 1 => F (approx F n)

/-- `g` has all the values of `f`. -/
def Below (f g : α → Option β) : Prop := ∀ a b, f a = some b → g a = some b

variable {F : (α → Option β) → α → Option β} {s : Finset α}

/-- The arguments with a value. -/
def support (s : Finset α) (f : α → Option β) : Finset α := s.filter fun a => (f a).isSome

theorem Below.support_subset {f g : α → Option β} (h : Below f g) : support s f ⊆ support s g := by
  intro a ha
  unfold support at ha ⊢
  rw [Finset.mem_filter] at ha ⊢
  obtain ⟨b, hb⟩ := Option.isSome_iff_exists.1 ha.2
  exact ⟨ha.1, by rw [h a b hb]; rfl⟩

/-- If `g` has no more values than `f`, it is the same function. -/
theorem Below.eq_of_card {f g : α → Option β} (h : Below f g) (hg : ∀ a b, g a = some b → a ∈ s)
    (hcard : (support s f).card = (support s g).card) : f = g := by
  have hsupport : support s f = support s g := Finset.eq_of_subset_of_card_le h.support_subset hcard.ge
  funext a
  cases ha : g a with
  | none =>
    cases hf : f a with
    | none => rfl
    | some b => exact absurd (h a b hf) (by simp [ha])
  | some b =>
    have hmem : a ∈ support s f := by
      rw [hsupport]
      exact Finset.mem_filter.2 ⟨hg a b ha, by rw [ha]; rfl⟩
    obtain ⟨b', hb'⟩ := Option.isSome_iff_exists.1 (Finset.mem_filter.1 hmem).2
    rw [hb', ← ha, h a b' hb']

variable (hmono : ∀ f g, Below f g → Below (F f) (F g))

include hmono

theorem approx_below_succ (n : Nat) : Below (approx F n) (approx F (n + 1)) := by
  induction n with
  | zero => exact fun a b h => absurd h (by simp [approx])
  | succ n ih => exact hmono _ _ ih

theorem approx_below_of_le {m n : Nat} (h : m ≤ n) : Below (approx F m) (approx F n) := by
  induction h with
  | refl => exact fun a b h => h
  | step _ ih => exact fun a b h => approx_below_succ hmono _ a b (ih a b h)

/-- A value comes up at some level. -/
theorem exists_first {n : Nat} {a : α} {b : β} (h : approx F n a = some b) :
    ∃ k < n, approx F k a = none ∧ approx F (k + 1) a = some b := by
  induction n with
  | zero => exact absurd h (by simp [approx])
  | succ n ih =>
    cases hn : approx F n a with
    | none => exact ⟨n, Nat.lt_succ_self n, hn, h⟩
    | some b' =>
      obtain rfl := Option.some.inj ((approx_below_succ hmono n a b' hn).symm.trans h)
      obtain ⟨k, hk, hfirst⟩ := ih hn
      exact ⟨k, Nat.lt_succ_of_lt hk, hfirst⟩

variable (hs : ∀ f a b, F f a = some b → a ∈ s)

include hs

/-- As many levels as there are arguments with a value are enough. -/
theorem approx_stable : approx F (s.card + 1) = approx F s.card := by
  have hsupport : ∀ n a b, approx F n a = some b → a ∈ s := by
    intro n a b h
    cases n with
    | zero => exact absurd h (by simp [approx])
    | succ n => exact hs _ a b h
  have heq : ∀ n, (support s (approx F n)).card = (support s (approx F (n + 1))).card → approx F n = approx F (n + 1) :=
    fun n => (approx_below_succ hmono n).eq_of_card (hsupport (n + 1))
  have hcard : Monotone fun n => (support s (approx F n)).card :=
    monotone_nat_of_le_succ fun n => Finset.card_le_card (approx_below_succ hmono n).support_subset
  refine (heq _ ?_).symm
  refine (Nat.stabilises_of_monotone hcard (fun n => Finset.card_le_card (Finset.filter_subset _ _)) (fun n h => ?_)
    (Nat.le_succ _)).symm
  -- once a level adds nothing, no later level does
  have hnext : approx F (n + 1) = approx F (n + 2) := congrArg F (heq n h)
  exact congrArg (fun f => (support s f).card) hnext

end Approximation
