import AgentOrchestrator.Lib.Dict
import Mathlib.Algebra.BigOperators.Group.List.Basic
import Mathlib.Algebra.Order.Monoid.Unbundled.Basic
import Mathlib.Algebra.Order.Monoid.Defs
import Mathlib.Data.List.MinMax
import Mathlib.Logic.Relation

/-!
# Entries that absorb other entries

A dictionary in which, one at a time, an entry absorbs another one: its value becomes the `combine` of both, and the
other entry is gone for good.  `into` keeps, for each entry that is gone, the one that has absorbed it; it may later be
absorbed itself.

What no order of absorptions can change is what `combine` preserves: a function of the list of values that does not
depend on their order and gives the same for two values as for their combination has the same value on the survivors as
on all entries (`Absorptions.preserved`).  Each entry lives on in the survivor that `Held` leads to, and such a function is
the same on the value of that survivor as on the values it holds (`Absorptions.gathered`).
-/

variable {κ ν : Type} [DecidableEq κ]

/-- Dictionaries that come from `d₀` by absorptions, with the absorber of each entry that is gone. -/
inductive Absorptions (combine : ν → ν → ν) (d₀ : Dict κ ν) : Dict κ ν → Dict κ κ → Prop
  | refl : Absorptions combine d₀ d₀ ∅
  | absorb {d : Dict κ ν} {into : Dict κ κ} {a o : κ} {x y : ν} (h : Absorptions combine d₀ d into)
      (ha : d.get? a = some x) (ho : d.get? o = some y) (hne : o ≠ a) (hla : into.get? a = none)
      (hlo : into.get? o = none) : Absorptions combine d₀ (d.insert a (combine x y)) (into.insert o a)

/-- The entries that have not been absorbed. -/
def survivors (d : Dict κ ν) (into : Dict κ κ) : Dict κ ν :=
  d.filterMap fun k v => if into.get? k = none then some v else none

theorem get?_survivors {d : Dict κ ν} {into : Dict κ κ} {k : κ} {v : ν} :
    (survivors d into).get? k = some v ↔ d.get? k = some v ∧ into.get? k = none := by
  unfold survivors
  rw [Dict.get?_filterMap, Option.bind_eq_some_iff]
  constructor
  · rintro ⟨w, hw, hv⟩
    split at hv
    · rename_i hk
      exact ⟨hw.trans hv, hk⟩
    · exact absurd hv (by simp)
  · rintro ⟨hv, hk⟩
    exact ⟨v, hv, if_pos hk⟩

/-- `k` has been absorbed by `x`, directly or through others, or is `x`. -/
def Held (into : Dict κ κ) (k x : κ) : Prop := Relation.ReflTransGen (fun a b => into.get? a = some b) k x

theorem Held.insert {into : Dict κ κ} {k x o a : κ} (h : Held into k x) (ho : into.get? o = none) :
    Held (into.insert o a) k x := by
  refine Relation.ReflTransGen.mono (fun b c hbc => ?_) k x h
  have hne : b ≠ o := fun he => absurd hbc (by simp [he, ho])
  rw [Dict.get?_insert, if_neg hne]
  exact hbc

/-- A survivor that absorbs `o` holds from then on what `o` has held. -/
theorem held_insert {into : Dict κ κ} {k x o a : κ} (hlo : into.get? o = none) (hla : into.get? a = none)
    (hx : (into.insert o a).get? x = none) :
    Held (into.insert o a) k x ↔ Held into k x ∨ x = a ∧ Held into k o := by
  have hnext : (into.insert o a).get? o = some a := by simp [Dict.get?_insert]
  constructor
  · intro h
    induction h using Relation.ReflTransGen.head_induction_on with
    | refl => exact Or.inl Relation.ReflTransGen.refl
    | @head b c hbc hcx ih =>
      by_cases hbo : b = o
      · subst hbo
        obtain rfl : a = c := Option.some.inj (hnext.symm.trans hbc)
        -- the absorber is a survivor itself, so the way ends there
        have hend : ∀ {z}, Held into a z → z = a := by
          intro z hz
          rcases Relation.ReflTransGen.cases_head hz with rfl | ⟨e, he, -⟩
          · rfl
          · exact absurd (hla.symm.trans he) (by simp)
        rcases ih with hax | ⟨hxa, -⟩
        · exact Or.inr ⟨hend hax, Relation.ReflTransGen.refl⟩
        · exact Or.inr ⟨hxa, Relation.ReflTransGen.refl⟩
      · have hstep : into.get? b = some c := by rwa [Dict.get?_insert, if_neg hbo] at hbc
        exact ih.imp (fun h => h.head hstep) fun h => ⟨h.1, h.2.head hstep⟩
  · rintro (h | ⟨rfl, h⟩)
    · exact h.insert hlo
    · exact (h.insert hlo).tail hnext

/-- Only one survivor holds an entry. -/
theorem Held.unique {into : Dict κ κ} {k x y : κ} (hx : Held into k x) (hy : Held into k y)
    (hlx : into.get? x = none) (hly : into.get? y = none) : x = y := by
  have hfun : Relator.RightUnique fun a b => into.get? a = some b := fun a b c hb hc =>
    Option.some.inj (hb.symm.trans hc)
  have hend : ∀ {a b : κ}, into.get? a = none → Held into a b → a = b := by
    intro a b ha hab
    rcases Relation.ReflTransGen.cases_head hab with rfl | ⟨c, hc, -⟩
    · rfl
    · exact absurd hc (by simp [ha])
  rcases Relation.ReflTransGen.total_of_right_unique hfun hx hy with hxy | hyx
  · exact hend hlx hxy
  · exact (hend hly hyx).symm

open Classical in
/-- The values that the entries which `x` holds had at first. -/
noncomputable def held (d₀ : Dict κ ν) (into : Dict κ κ) (x : κ) : List ν :=
  (d₀.items.filter fun e => Held into e.1 x).map Prod.snd

theorem mem_held {d₀ : Dict κ ν} {into : Dict κ κ} {x : κ} {v : ν} :
    v ∈ held d₀ into x ↔ ∃ k, d₀.get? k = some v ∧ Held into k x := by
  unfold held
  simp only [List.mem_map, List.mem_filter, decide_eq_true_iff, Prod.exists, Dict.mem_items_iff]
  constructor
  · rintro ⟨k, v', ⟨hk, hheld⟩, rfl⟩
    exact ⟨k, hk, hheld⟩
  · rintro ⟨k, hk, hheld⟩
    exact ⟨k, v, ⟨hk, hheld⟩, rfl⟩

theorem held_perm {d₀ d₁ : Dict κ ν} (h : ∀ k, d₀.get? k = d₁.get? k) (into : Dict κ κ) (x : κ) :
    (held d₀ into x).Perm (held d₁ into x) := ((Dict.items_perm h).filter _).map _

theorem held_empty {d₀ : Dict κ ν} {x : κ} {v : ν} (hx : d₀.get? x = some v) : held d₀ ∅ x = [v] := by
  have hself : ∀ k, Held (∅ : Dict κ κ) k x ↔ k = x := by
    intro k
    constructor
    · intro h
      rcases Relation.ReflTransGen.cases_head h with rfl | ⟨c, hc, -⟩
      · rfl
      · exact absurd hc (by simp)
    · rintro rfl
      exact Relation.ReflTransGen.refl
  have hnodup : d₀.items.Nodup := d₀.nodup.of_map _
  have hone : (d₀.items.filter fun e => e.1 = x).Perm [(x, v)] := by
    refine (List.perm_ext_iff_of_nodup (hnodup.filter _) (List.nodup_singleton _)).2 fun e => ?_
    rw [List.mem_filter, List.mem_singleton, decide_eq_true_iff]
    constructor
    · rintro ⟨he, rfl⟩
      exact Prod.ext rfl (Option.some.inj ((Dict.mem_items_iff.1 he).symm.trans hx))
    · rintro rfl
      exact ⟨Dict.mem_items_iff.2 hx, rfl⟩
  unfold held
  simp only [hself]
  rw [List.perm_singleton.1 hone]
  rfl

/-- What a survivor holds after it has absorbed another one. -/
theorem held_insert_perm {d₀ : Dict κ ν} {into : Dict κ κ} {o a : κ} (hne : o ≠ a) (hlo : into.get? o = none)
    (hla : into.get? a = none) : (held d₀ (into.insert o a) a).Perm (held d₀ into a ++ held d₀ into o) := by
  classical
  have hx : (into.insert o a).get? a = none := by rw [Dict.get?_insert, if_neg (Ne.symm hne), hla]
  have hapart : ∀ k, Held into k o → ¬ Held into k a := fun k ho ha => hne (ho.unique ha hlo hla)
  unfold held
  rw [← List.map_append]
  refine List.Perm.map _ ?_
  refine (List.filter_append_perm (fun e => decide (Held into e.1 a)) _).symm.trans (List.Perm.of_eq ?_)
  rw [List.filter_filter, List.filter_filter]
  congr 1
  · refine List.filter_congr fun e _ => ?_
    by_cases ha : Held into e.1 a
    · simp [ha, held_insert hlo hla hx]
    · simp [ha]
  · refine List.filter_congr fun e _ => ?_
    by_cases ho : Held into e.1 o
    · simp [ho, hapart e.1 ho, held_insert hlo hla hx]
    · by_cases ha : Held into e.1 a
      · simp [ho, ha]
      · simp [ho, ha, held_insert hlo hla hx]

theorem held_insert_of_ne {d₀ : Dict κ ν} {into : Dict κ κ} {o a x : κ} (hlo : into.get? o = none)
    (hla : into.get? a = none) (hx : (into.insert o a).get? x = none) (hxa : x ≠ a) :
    held d₀ (into.insert o a) x = held d₀ into x := by
  have hsame : ∀ k, Held (into.insert o a) k x ↔ Held into k x := by
    intro k
    rw [held_insert hlo hla hx]
    exact or_iff_left fun h => hxa h.1
  unfold held
  exact congrArg _ (List.filter_congr fun e _ => decide_eq_decide.2 (hsame e.1))

namespace Absorptions

variable {combine : ν → ν → ν} {d₀ d : Dict κ ν} {into : Dict κ κ}

variable (combine) in
/-- What one absorption does to the survivors. -/
theorem survivors_absorb {a o : κ} {x y : ν} (ha : d.get? a = some x) (ho : d.get? o = some y) (hne : o ≠ a)
    (hla : into.get? a = none) (hlo : into.get? o = none) :
    ∃ rest, (survivors d into).values.Perm (x :: y :: rest) ∧
      (survivors (d.insert a (combine x y)) (into.insert o a)).values.Perm (combine x y :: rest) := by
  refine ⟨(((survivors d into).erase a).erase o).values, ?_, ?_⟩
  · have hx : (survivors d into).get? a = some x := get?_survivors.2 ⟨ha, hla⟩
    have hy : ((survivors d into).erase a).get? o = some y := by
      rw [Dict.get?_erase, if_neg hne]
      exact get?_survivors.2 ⟨ho, hlo⟩
    exact (Dict.values_perm_erase hx).trans ((Dict.values_perm_erase hy).cons x)
  · have hxy : (survivors (d.insert a (combine x y)) (into.insert o a)).get? a = some (combine x y) := by
      rw [get?_survivors, Dict.get?_insert, Dict.get?_insert, if_pos rfl, if_neg (Ne.symm hne)]
      exact ⟨rfl, hla⟩
    refine (Dict.values_perm_erase hxy).trans (List.Perm.cons _ (Dict.values_perm fun k => Option.ext fun v => ?_))
    rw [Dict.get?_erase, Dict.get?_erase, Dict.get?_erase]
    by_cases hka : k = a
    · simp [hka]
    · by_cases hko : k = o
      · subst hko
        simp [hka, get?_survivors, Dict.get?_insert]
      · simp [hka, hko, get?_survivors, Dict.get?_insert]

/-- The rule for a quantity that `combine` preserves. -/
theorem preserved {β : Type} (F : List ν → β) (hperm : ∀ l l', l.Perm l' → F l = F l')
    (hstep : ∀ x y l, F (x :: y :: l) = F (combine x y :: l)) (h : Absorptions combine d₀ d into) :
    F (survivors d into).values = F d₀.values := by
  induction h with
  | refl =>
    refine hperm _ _ (Dict.values_perm fun k => Option.ext fun v => ?_)
    rw [get?_survivors]
    simp
  | absorb h ha ho hne hla hlo ih =>
    obtain ⟨rest, hold, hnew⟩ := survivors_absorb combine ha ho hne hla hlo
    rw [hperm _ _ hnew, ← hstep, ← hperm _ _ hold, ih]

/-- The same for the value of one survivor and what it holds. -/
theorem gathered {β : Type} (F : List ν → β) (hperm : ∀ l l', l.Perm l' → F l = F l')
    (hstep : ∀ x y l, F (x :: y :: l) = F (combine x y :: l)) (h : Absorptions combine d₀ d into) {x : κ} {v : ν}
    (hx : d.get? x = some v) (hlive : into.get? x = none) (rest : List ν) :
    F (held d₀ into x ++ rest) = F (v :: rest) := by
  induction h generalizing x v rest with
  | refl => rw [held_empty hx, List.singleton_append]
  | @absorb d into a o y z h ha ho hne hla hlo ih =>
    by_cases hxa : x = a
    · subst hxa
      have hv : combine y z = v := by simpa [Dict.get?_insert] using hx
      calc F (held d₀ (into.insert o x) x ++ rest)
          = F (held d₀ into x ++ (held d₀ into o ++ rest)) := by
            refine hperm _ _ ?_
            rw [← List.append_assoc]
            exact (held_insert_perm hne hlo hla).append_right rest
        _ = F (y :: (held d₀ into o ++ rest)) := ih ha hla _
        _ = F (held d₀ into o ++ y :: rest) := hperm _ _ List.perm_middle.symm
        _ = F (z :: y :: rest) := ih ho hlo _
        _ = F (y :: z :: rest) := hperm _ _ (List.Perm.swap _ _ _)
        _ = F (v :: rest) := by rw [hstep, hv]
    · rw [Dict.get?_insert, if_neg hxa] at hx
      have hlive' : into.get? x = none := by
        by_cases hxo : x = o
        · rw [hxo, hlo]
        · rwa [Dict.get?_insert, if_neg hxo] at hlive
      rw [held_insert_of_ne hlo hla hlive hxa]
      exact ih hx hlive' rest

theorem sum_eq {A : Type} [AddCommMonoid A] (w : ν → A) (hw : ∀ x y, w (combine x y) = w x + w y)
    (h : Absorptions combine d₀ d into) : ((survivors d into).values.map w).sum = (d₀.values.map w).sum := by
  refine h.preserved (fun l => (l.map w).sum) (fun l l' hl => (hl.map w).sum_eq) fun x y l => ?_
  simp [hw, add_assoc]

theorem exists_iff (p : ν → Prop) (hp : ∀ x y, p (combine x y) ↔ p x ∨ p y) (h : Absorptions combine d₀ d into) :
    (∃ v ∈ (survivors d into).values, p v) ↔ ∃ v ∈ d₀.values, p v := by
  refine iff_of_eq (h.preserved (fun l => ∃ v ∈ l, p v) (fun l l' hl => ?_) fun x y l => ?_)
  · simp only [hl.mem_iff]
  · simp [hp, or_assoc]

theorem maximum_eq {A : Type} [LinearOrder A] (w : ν → A) (hw : ∀ x y, w (combine x y) = max (w x) (w y))
    (h : Absorptions combine d₀ d into) :
    ((survivors d into).values.map w).maximum = (d₀.values.map w).maximum := by
  refine h.preserved (fun l => (l.map w).maximum) (fun l l' hl => (hl.map w).maximum_eq) fun x y l => ?_
  simp [hw, List.maximum_cons, max_assoc]

/-- What an entry keeps of itself whatever it absorbs. -/
theorem kept (R : ν → ν → Prop) (hrefl : ∀ v, R v v) (hstep : ∀ v x y, R v x → R v (combine x y))
    (h : Absorptions combine d₀ d into) {k : κ} {v₀ : ν} (hk : d₀.get? k = some v₀) :
    ∃ v, d.get? k = some v ∧ R v₀ v := by
  induction h with
  | refl => exact ⟨v₀, hk, hrefl v₀⟩
  | @absorb d into a o x y h ha ho hne hla hlo ih =>
    obtain ⟨v, hv, hr⟩ := ih
    by_cases hka : k = a
    · subst hka
      obtain rfl := Option.some.inj (ha.symm.trans hv)
      exact ⟨combine x y, by simp [Dict.get?_insert], hstep v₀ x y hr⟩
    · exact ⟨v, by rw [Dict.get?_insert, if_neg hka, hv], hr⟩

theorem get?_isSome (h : Absorptions combine d₀ d into) (k : κ) : (d.get? k).isSome = (d₀.get? k).isSome := by
  induction h with
  | refl => rfl
  | @absorb d into a o x y h ha ho hne hla hlo ih =>
    rw [Dict.get?_insert, ← ih]
    by_cases hka : k = a
    · simp [hka, ha]
    · rw [if_neg hka]

theorem exists_of_into {k a : κ} (h : Absorptions combine d₀ d into) (hk : into.get? k = some a) :
    ∃ v, d.get? k = some v := by
  induction h with
  | refl => exact absurd hk (by simp)
  | @absorb d into a' o x y h ha ho hne hla hlo ih =>
    by_cases hko : k = o
    · subst hko
      exact ⟨y, by rw [Dict.get?_insert, if_neg hne, ho]⟩
    · rw [Dict.get?_insert, if_neg hko] at hk
      obtain ⟨v, hv⟩ := ih hk
      by_cases hka : k = a'
      · exact ⟨combine x y, by rw [Dict.get?_insert, if_pos hka]⟩
      · exact ⟨v, by rw [Dict.get?_insert, if_neg hka, hv]⟩

/-- Each absorption takes one entry. -/
theorem length_eq (h : Absorptions combine d₀ d into) :
    (survivors d into).values.length + into.length = d₀.values.length := by
  induction h with
  | refl =>
    have hsame : ∀ k, (survivors d₀ (∅ : Dict κ κ)).get? k = d₀.get? k := fun k => Option.ext fun v => by
      rw [get?_survivors]
      simp
    exact (Dict.values_perm hsame).length_eq
  | absorb h ha ho hne hla hlo ih =>
    obtain ⟨rest, hold, hnew⟩ := survivors_absorb combine ha ho hne hla hlo
    have hold := hold.length_eq
    have hnew := hnew.length_eq
    rw [List.length_cons, List.length_cons] at hold
    rw [List.length_cons] at hnew
    rw [Dict.length_insert_of_none hlo]
    omega

/-- Every entry lives on in a survivor, in any sense that both sides of a combination keep. -/
theorem exists_holder (valid : ν → Prop) (R : ν → ν → Prop) (hvalid : ∀ k v, d₀.get? k = some v → valid v)
    (hcombine : ∀ x y, valid x → valid y → valid (combine x y)) (hrefl : ∀ v, valid v → R v v)
    (hleft : ∀ v x y, valid x → valid y → R v x → R v (combine x y))
    (hright : ∀ v x y, valid x → valid y → R v y → R v (combine x y)) (h : Absorptions combine d₀ d into) :
    (∀ k v, d.get? k = some v → valid v) ∧ ∀ k v₀, d₀.get? k = some v₀ →
      ∃ x v, Held into k x ∧ (survivors d into).get? x = some v ∧ R v₀ v := by
  induction h with
  | refl =>
    refine ⟨hvalid, fun k v₀ hk => ⟨k, v₀, Relation.ReflTransGen.refl, ?_, hrefl v₀ (hvalid k v₀ hk)⟩⟩
    exact get?_survivors.2 ⟨hk, rfl⟩
  | @absorb d into a o x y h ha ho hne hla hlo ih =>
    obtain ⟨hall, ih⟩ := ih
    have hx := hall a x ha
    have hy := hall o y ho
    have habsorber : (survivors (d.insert a (combine x y)) (into.insert o a)).get? a = some (combine x y) := by
      rw [get?_survivors, Dict.get?_insert, Dict.get?_insert, if_pos rfl, if_neg (Ne.symm hne)]
      exact ⟨rfl, hla⟩
    refine ⟨fun k v hk => ?_, fun k v₀ hk => ?_⟩
    · rw [Dict.get?_insert] at hk
      split at hk
      · obtain rfl := Option.some.inj hk
        exact hcombine x y hx hy
      · exact hall k v hk
    · obtain ⟨s, v, hheld, hs, hr⟩ := ih k v₀ hk
      obtain ⟨hv, hlive⟩ := get?_survivors.1 hs
      by_cases hsa : s = a
      · subst hsa
        obtain rfl := Option.some.inj (ha.symm.trans hv)
        exact ⟨s, combine x y, hheld.insert hlo, habsorber, hleft v₀ x y hx hy hr⟩
      · by_cases hso : s = o
        · subst hso
          obtain rfl := Option.some.inj (ho.symm.trans hv)
          have hstep : (into.insert s a).get? s = some a := by simp [Dict.get?_insert]
          exact ⟨a, combine x y, (hheld.insert hlo).tail hstep, habsorber, hright v₀ x y hx hy hr⟩
        · refine ⟨s, v, hheld.insert hlo, ?_, hr⟩
          rw [get?_survivors, Dict.get?_insert, Dict.get?_insert, if_neg hsa, if_neg hso]
          exact ⟨hv, hlive⟩

/-- An entry that has absorbed nothing is as it was. -/
theorem unchanged (h : Absorptions combine d₀ d into) {x : κ} (hx : ∀ o, into.get? o ≠ some x) :
    d.get? x = d₀.get? x := by
  induction h with
  | refl => rfl
  | @absorb d into a o y z h ha ho hne hla hlo ih =>
    have hxa : x ≠ a := fun he => hx o (by simp [Dict.get?_insert, he])
    rw [Dict.get?_insert, if_neg hxa]
    refine ih fun b hb => hx b ?_
    have hbo : b ≠ o := fun he => absurd hb (by simp [he, hlo])
    rw [Dict.get?_insert, if_neg hbo, hb]

/-- What is true of the value of an entry was true of one it holds. -/
theorem exists_origin (p : ν → Prop) (hp : ∀ x y, p (combine x y) → p x ∨ p y) (h : Absorptions combine d₀ d into)
    {x : κ} {v : ν} (hx : d.get? x = some v) (hv : p v) : ∃ k v₀, Held into k x ∧ d₀.get? k = some v₀ ∧ p v₀ := by
  induction h generalizing x v with
  | refl => exact ⟨x, v, Relation.ReflTransGen.refl, hx, hv⟩
  | @absorb d into a o y z h ha ho hne hla hlo ih =>
    rw [Dict.get?_insert] at hx
    split at hx
    · rename_i hxa
      subst hxa
      obtain rfl := Option.some.inj hx
      rcases hp y z hv with hy | hz
      · obtain ⟨k, v₀, hheld, hk⟩ := ih ha hy
        exact ⟨k, v₀, hheld.insert hlo, hk⟩
      · obtain ⟨k, v₀, hheld, hk⟩ := ih ho hz
        have hstep : (into.insert o x).get? o = some x := by simp [Dict.get?_insert]
        exact ⟨k, v₀, (hheld.insert hlo).tail hstep, hk⟩
    · obtain ⟨k, v₀, hheld, hk⟩ := ih hx hv
      exact ⟨k, v₀, hheld.insert hlo, hk⟩

/-! ### All entries, those that are gone included -/

theorem exists_value_iff (p : ν → Prop) (hp : ∀ x y, p (combine x y) ↔ p x ∨ p y) (h : Absorptions combine d₀ d into) :
    (∃ v ∈ d.values, p v) ↔ ∃ v ∈ d₀.values, p v := by
  constructor
  · rintro ⟨v, hv, hpv⟩
    obtain ⟨k, hk⟩ := Dict.mem_values_iff.1 hv
    obtain ⟨k₀, v₀, -, hk₀, hp₀⟩ := h.exists_origin p (fun x y => (hp x y).1) hk hpv
    exact ⟨v₀, Dict.mem_values_iff.2 ⟨k₀, hk₀⟩, hp₀⟩
  · intro h₀
    obtain ⟨v, hv, hpv⟩ := (h.exists_iff p hp).2 h₀
    obtain ⟨k, hk⟩ := Dict.mem_values_iff.1 hv
    exact ⟨v, Dict.mem_values_iff.2 ⟨k, (get?_survivors.1 hk).1⟩, hpv⟩

theorem maximum_values_eq {A : Type} [LinearOrder A] (w : ν → A) (hw : ∀ x y, w (combine x y) = max (w x) (w y))
    (h : Absorptions combine d₀ d into) : (d.values.map w).maximum = (d₀.values.map w).maximum := by
  have hbound : ∀ m : A, (m : WithBot A) ≤ (d.values.map w).maximum ↔ (m : WithBot A) ≤ (d₀.values.map w).maximum := by
    intro m
    have hexists := h.exists_value_iff (fun v => m ≤ w v) fun x y => by rw [hw, le_max_iff]
    simpa only [List.coe_le_maximum_iff, List.mem_map, exists_exists_and_eq_and] using hexists
  refine le_antisymm (List.maximum_le_of_forall_le fun m hm => ?_) (List.maximum_le_of_forall_le fun m hm => ?_)
  · exact (hbound m).1 (List.le_maximum_of_mem' hm)
  · exact (hbound m).2 (List.le_maximum_of_mem' hm)

section Weights

variable {A : Type} [AddCommMonoid A] {w : ν → A}

/-- The absorbed value counts twice: in the absorber and where it was. -/
theorem sum_absorb (hw : ∀ x y, w (combine x y) = w x + w y) {a : κ} {x : ν} (ha : d.get? a = some x) (y : ν) :
    ((d.insert a (combine x y)).values.map w).sum = (d.values.map w).sum + w y := by
  have hnew : (d.insert a (combine x y)).get? a = some (combine x y) := by simp [Dict.get?_insert]
  have hrest : ((d.insert a (combine x y)).erase a).values.Perm (d.erase a).values := by
    refine Dict.values_perm fun k => ?_
    rw [Dict.get?_erase, Dict.get?_erase, Dict.get?_insert]
    split
    · rfl
    · rfl
  rw [((Dict.values_perm_erase hnew).map w).sum_eq, ((Dict.values_perm_erase ha).map w).sum_eq, List.map_cons,
    List.map_cons, List.sum_cons, List.sum_cons, (hrest.map w).sum_eq, hw, add_assoc, add_comm (w y), ← add_assoc]

/-- If what is gone weighed nothing, every entry weighs what it did. -/
theorem weight_eq (hw : ∀ x y, w (combine x y) = w x + w y) (h : Absorptions combine d₀ d into)
    (hzero : ∀ o v, into.get? o ≠ none → d₀.get? o = some v → w v = 0) {k : κ} {v v₀ : ν} (hk : d.get? k = some v)
    (hk₀ : d₀.get? k = some v₀) : w v = w v₀ := by
  induction h generalizing k v v₀ with
  | refl => rw [Option.some.inj (hk.symm.trans hk₀)]
  | @absorb d into a o x y h ha ho hne hla hlo ih =>
    have hzero' : ∀ o' v, into.get? o' ≠ none → d₀.get? o' = some v → w v = 0 := by
      intro o' v' ho' hv'
      refine hzero o' v' ?_ hv'
      rw [Dict.get?_insert]
      split
      · simp
      · exact ho'
    rw [Dict.get?_insert] at hk
    split at hk
    · rename_i hka
      subst hka
      obtain rfl := Option.some.inj hk
      obtain ⟨y₀, hy₀⟩ := Option.isSome_iff_exists.1 ((h.get?_isSome o) ▸ Option.isSome_iff_exists.2 ⟨y, ho⟩)
      have hgone : w y₀ = 0 := hzero o y₀ (by simp [Dict.get?_insert]) hy₀
      rw [hw, ih hzero' ha hk₀, ih hzero' ho hy₀, hgone, add_zero]
    · exact ih hzero' hk hk₀

variable [PartialOrder A] [IsOrderedCancelAddMonoid A]

theorem weight_nonneg (hw : ∀ x y, w (combine x y) = w x + w y) (h₀ : ∀ k v, d₀.get? k = some v → 0 ≤ w v)
    (h : Absorptions combine d₀ d into) {k : κ} {v : ν} (hk : d.get? k = some v) : 0 ≤ w v := by
  induction h generalizing k v with
  | refl => exact h₀ k v hk
  | @absorb d into a o x y h ha ho hne hla hlo ih =>
    rw [Dict.get?_insert] at hk
    split at hk
    · obtain rfl := Option.some.inj hk
      rw [hw]
      exact add_nonneg (ih ha) (ih ho)
    · exact ih hk

theorem le_sum_values (hw : ∀ x y, w (combine x y) = w x + w y) (h₀ : ∀ k v, d₀.get? k = some v → 0 ≤ w v)
    (h : Absorptions combine d₀ d into) : (d₀.values.map w).sum ≤ (d.values.map w).sum := by
  induction h with
  | refl => exact le_rfl
  | @absorb d into a o x y h ha ho hne hla hlo ih =>
    rw [sum_absorb hw ha]
    exact ih.trans (le_add_of_nonneg_right (h.weight_nonneg hw h₀ ho))

/-- All entries together weigh what they did if and only if what is gone weighed nothing. -/
theorem sum_values_eq_iff (hw : ∀ x y, w (combine x y) = w x + w y) (h₀ : ∀ k v, d₀.get? k = some v → 0 ≤ w v)
    (h : Absorptions combine d₀ d into) : (d.values.map w).sum = (d₀.values.map w).sum ↔
      ∀ o v, into.get? o ≠ none → d₀.get? o = some v → w v = 0 := by
  induction h with
  | refl => exact iff_of_true rfl fun o v ho => absurd rfl ho
  | @absorb d into a o x y h ha ho hne hla hlo ih =>
    have hle := h.le_sum_values hw h₀
    have hy := h.weight_nonneg hw h₀ ho
    obtain ⟨y₀, hy₀⟩ := Option.isSome_iff_exists.1 ((h.get?_isSome o) ▸ Option.isSome_iff_exists.2 ⟨y, ho⟩)
    have hsplit : (d.values.map w).sum + w y = (d₀.values.map w).sum ↔
        (d.values.map w).sum = (d₀.values.map w).sum ∧ w y = 0 := by
      constructor
      · intro heq
        have hsame := le_antisymm (heq ▸ le_add_of_nonneg_right hy) hle
        rw [hsame] at heq
        exact ⟨hsame, add_eq_left.1 heq⟩
      · rintro ⟨heq, hzero⟩
        rw [heq, hzero, add_zero]
    rw [sum_absorb hw ha, hsplit, ih]
    constructor
    · rintro ⟨hzero, hyzero⟩ k v hk hv
      rw [Dict.get?_insert] at hk
      split at hk
      · rename_i hko
        subst hko
        obtain rfl := Option.some.inj (hv.symm.trans hy₀)
        rw [← h.weight_eq hw hzero ho hy₀, hyzero]
      · exact hzero k v hk hv
    · intro hzero
      have hbefore : ∀ k v, into.get? k ≠ none → d₀.get? k = some v → w v = 0 := by
        intro k v hk hv
        refine hzero k v ?_ hv
        rw [Dict.get?_insert]
        split
        · simp
        · exact hk
      refine ⟨hbefore, ?_⟩
      rw [h.weight_eq hw hbefore ho hy₀]
      exact hzero o y₀ (by simp [Dict.get?_insert]) hy₀

end Weights

end Absorptions
