import Mathlib.Data.List.Pairwise
import Mathlib.Data.List.Perm.Basic

/-!
# Patches of partial maps

A patch has, for some keys, what a partial map is to have there: a value or nothing.  Patches that share no key may be
applied in any order (`foldl_apply_perm`): the map has under the keys of each what that one says (`foldl_apply_of_mem`),
and under all other keys what it had before (`foldl_apply_of_none`).
-/

/-- For each key, whether the entry is to change, and if so to what. -/
abbrev Patch (κ ν : Type) := κ → Option (Option ν)

namespace Patch

variable {κ ν : Type}

def apply (m : κ → Option ν) (p : Patch κ ν) : κ → Option ν := fun k => (p k).getD (m k)

/-- No key is in both patches. -/
def Apart (p q : Patch κ ν) : Prop := ∀ k, p k = none ∨ q k = none

variable {p q : Patch κ ν} {l l' : List (Patch κ ν)} {m : κ → Option ν} {k : κ}

theorem Apart.symm (h : Apart p q) : Apart q p := fun k => (h k).symm

theorem Apart.none_right (h : Apart p q) {v : Option ν} (hp : p k = some v) : q k = none :=
  (h k).resolve_left (by rw [hp]; exact Option.some_ne_none v)

theorem Apart.apply_comm (h : Apart p q) (m : κ → Option ν) : apply (apply m p) q = apply (apply m q) p := by
  funext k
  unfold apply
  rcases h k with hp | hq
  · rw [hp]
    rfl
  · rw [hq]
    rfl

/-- The order of patches that are pairwise apart does not matter. -/
theorem foldl_apply_perm (hl : l.Pairwise Apart) (h : l.Perm l') (m : κ → Option ν) :
    l.foldl apply m = l'.foldl apply m := by
  have : Std.Symm (Apart (κ := κ) (ν := ν)) := ⟨fun _ _ => Apart.symm⟩
  refine h.foldl_eq' (fun p hp q hq m => ?_) m
  by_cases hpq : p = q
  · rw [hpq]
  · exact (hl.forall hp hq hpq).apply_comm m

theorem foldl_apply_of_none (h : ∀ p ∈ l, p k = none) : l.foldl apply m k = m k := by
  induction l generalizing m with
  | nil => rfl
  | cons p l ih =>
    rw [List.foldl_cons, ih fun q hq => h q (List.mem_cons_of_mem p hq)]
    unfold apply
    rw [h p List.mem_cons_self]
    rfl

theorem foldl_apply_of_mem (hl : l.Pairwise Apart) (hp : p ∈ l) {v : Option ν} (hv : p k = some v) :
    l.foldl apply m k = v := by
  obtain ⟨l₁, l₂, rfl⟩ := List.append_of_mem hp
  -- no later patch has the key
  have hlater : ∀ q ∈ l₂, q k = none := fun q hq =>
    ((List.pairwise_cons.1 (List.pairwise_append.1 hl).2.1).1 q hq).none_right hv
  rw [List.foldl_append, List.foldl_cons, foldl_apply_of_none hlater]
  unfold apply
  rw [hv]
  rfl

end Patch
