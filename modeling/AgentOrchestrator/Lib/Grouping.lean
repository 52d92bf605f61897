import Mathlib.Algebra.BigOperators.Group.List.Basic
import Mathlib.Algebra.Ring.Nat
import Mathlib.Data.List.Dedup
import Mathlib.Data.List.Perm.Subperm
import Mathlib.Order.Lattice

/-!
# GROUP BY, ORDER BY and LIMIT

`groupBy` collects the rows with the same key, `orderBy` sorts rows by a value, the largest first, and `limited` cuts
what is left off.  An aggregate over all groups is the aggregate over all rows (`sum_groupBy`), and a row that a limit
leaves out is nowhere above one that it keeps (`limited_orderBy`).
-/

variable {α κ : Type}

/-! ### Groups -/

/-- The rows of each key, one group for every key that occurs. -/
def groupBy [DecidableEq κ] (key : α → κ) (rows : List α) : List (κ × List α) :=
  (rows.map key).dedup.map fun k => (k, rows.filter fun row => key row = k)

/-- A value that is counted under one of the keys. -/
theorem sum_map_ite_of_mem {M : Type} [AddCommMonoid M] [DecidableEq κ] {ks : List κ} (hn : ks.Nodup) {a : κ}
    (ha : a ∈ ks) (x : M) : (ks.map fun k => if a = k then x else 0).sum = x := by
  induction ks with
  | nil => exact absurd ha List.not_mem_nil
  | cons k ks ih =>
    obtain ⟨hk, hn'⟩ := List.nodup_cons.1 hn
    rw [List.map_cons, List.sum_cons]
    by_cases hak : a = k
    · have hrest : (ks.map fun k' => if a = k' then x else 0).sum = 0 := by
        refine List.sum_eq_zero fun y hy => ?_
        obtain ⟨k', hk', rfl⟩ := List.mem_map.1 hy
        refine if_neg fun heq => hk ?_
        rwa [← hak, heq]
      rw [if_pos hak, hrest, add_zero]
    · rw [if_neg hak, zero_add]
      exact ih hn' ((List.mem_cons.1 ha).resolve_left hak)

/-- Summing key by key, over keys that cover the rows. -/
theorem sum_filter_of_keys {M : Type} [AddCommMonoid M] [DecidableEq κ] {key : α → κ} {ks : List κ} (hn : ks.Nodup)
    {rows : List α} (hmem : ∀ row ∈ rows, key row ∈ ks) (v : α → M) :
    (ks.map fun k => ((rows.filter fun row => key row = k).map v).sum).sum = (rows.map v).sum := by
  induction rows with
  | nil => simp
  | cons row rows ih =>
    have hsplit : ∀ k, (((row :: rows).filter fun row => key row = k).map v).sum =
        (if key row = k then v row else 0) + ((rows.filter fun row => key row = k).map v).sum := by
      intro k
      by_cases hk : key row = k
      · simp [hk]
      · simp [hk]
    simp only [hsplit, List.sum_map_add]
    rw [sum_map_ite_of_mem hn (hmem row List.mem_cons_self), ih fun r hr => hmem r (List.mem_cons_of_mem _ hr),
      List.map_cons, List.sum_cons]

theorem countP_eq_sum (p : α → Bool) (rows : List α) :
    rows.countP p = (rows.map fun row => if p row then 1 else 0).sum := by
  induction rows with
  | nil => rfl
  | cons row rows ih =>
    rw [List.countP_cons, List.map_cons, List.sum_cons, ih]
    exact Nat.add_comm _ _

/-- The rows with a property and those without it. -/
theorem sum_filter_add_sum_filter_not {M : Type} [AddCommMonoid M] (p : α → Bool) (rows : List α) (v : α → M) :
    ((rows.filter p).map v).sum + ((rows.filter fun row => !p row).map v).sum = (rows.map v).sum := by
  induction rows with
  | nil => simp
  | cons row rows ih =>
    rw [List.map_cons, List.sum_cons, ← ih]
    cases hp : p row with
    | true => simp [hp, add_assoc]
    | false => simp [hp, add_left_comm]

section

variable [DecidableEq κ] {key : α → κ} {rows : List α}

theorem mem_groupBy {g : κ × List α} :
    g ∈ groupBy key rows ↔ (∃ row ∈ rows, key row = g.1) ∧ g.2 = rows.filter fun row => key row = g.1 := by
  obtain ⟨k, members⟩ := g
  unfold groupBy
  simp only [List.mem_map, List.mem_dedup, Prod.mk.injEq]
  constructor
  · rintro ⟨_, ⟨row, hrow, rfl⟩, rfl, rfl⟩
    exact ⟨⟨row, hrow, rfl⟩, rfl⟩
  · rintro ⟨⟨row, hrow, hkey⟩, hg⟩
    exact ⟨k, ⟨row, hrow, hkey⟩, rfl, hg.symm⟩

/-- A key has one group. -/
theorem nodup_keys_groupBy : ((groupBy key rows).map Prod.fst).Nodup := by
  unfold groupBy
  rw [List.map_map]
  exact (List.map_id _).symm ▸ List.nodup_dedup _

theorem ne_nil_of_mem_groupBy {g : κ × List α} (h : g ∈ groupBy key rows) : g.2 ≠ [] := by
  obtain ⟨⟨row, hrow, hkey⟩, hg⟩ := mem_groupBy.1 h
  rw [hg]
  exact List.ne_nil_of_mem (List.mem_filter.2 ⟨hrow, by simpa using hkey⟩)

/-- There are no more groups than values that the keys can have. -/
theorem length_groupBy_le {ks : List κ} (h : ∀ row ∈ rows, key row ∈ ks) : (groupBy key rows).length ≤ ks.length := by
  unfold groupBy
  rw [List.length_map]
  refine (List.subperm_of_subset (List.nodup_dedup _) fun k hk => ?_).length_le
  obtain ⟨row, hrow, rfl⟩ := List.mem_map.1 (List.mem_dedup.1 hk)
  exact h row hrow

/-- An aggregate over all groups is the one over all rows. -/
theorem sum_groupBy {M : Type} [AddCommMonoid M] (key : α → κ) (rows : List α) (v : α → M) :
    ((groupBy key rows).map fun g => (g.2.map v).sum).sum = (rows.map v).sum := by
  unfold groupBy
  rw [List.map_map]
  exact sum_filter_of_keys (List.nodup_dedup _) (fun row hrow => List.mem_dedup.2 (List.mem_map_of_mem hrow)) v

end

/-! ### Order and limit -/

section

variable {β : Type} [LinearOrder β]

/-- The rows with the largest value first. -/
def orderBy (value : α → β) (rows : List α) : List α := rows.mergeSort fun a b => decide (value b ≤ value a)

theorem orderBy_perm (value : α → β) (rows : List α) : (orderBy value rows).Perm rows := List.mergeSort_perm _ _

theorem pairwise_orderBy (value : α → β) (rows : List α) :
    (orderBy value rows).Pairwise fun a b => value b ≤ value a := by
  have hsorted : (orderBy value rows).Pairwise fun a b => decide (value b ≤ value a) = true := by
    refine List.pairwise_mergeSort (fun a b c hab hbc => ?_) (fun a b => ?_) rows
    · exact decide_eq_true (le_trans (of_decide_eq_true hbc) (of_decide_eq_true hab))
    · simpa using le_total (value b) (value a)
  exact hsorted.imp of_decide_eq_true

/-- The rows of a query that aggregates groups: what each sums over its group, all of them sum over all rows. -/
theorem sum_orderBy_groupBy {γ M : Type} [AddCommMonoid M] [DecidableEq κ] {key : α → κ} {rows : List α} {value : γ → β}
    {row : κ × List α → γ} {w : γ → M} (v : α → M) (h : ∀ g, w (row g) = (g.2.map v).sum) :
    ((orderBy value ((groupBy key rows).map row)).map w).sum = (rows.map v).sum := by
  rw [((orderBy_perm _ _).map _).sum_eq, List.map_map, ← sum_groupBy key rows v]
  exact congrArg List.sum (List.map_congr_left fun g _ => h g)

/-- `LIMIT`; a negative limit is none. -/
def limited (limit : Int) (rows : List α) : List α := if limit < 0 then rows else rows.take limit.toNat

theorem limited_prefix (limit : Int) (rows : List α) : limited limit rows <+: rows := by
  unfold limited
  split
  · exact List.prefix_rfl
  · exact List.take_prefix _ _

theorem limited_of_length_le {limit : Int} {rows : List α} (h : limit < 0 ∨ (rows.length : Int) ≤ limit) :
    limited limit rows = rows := by
  unfold limited
  split
  · rfl
  · exact List.take_of_length_le (by omega)

/-- A limit keeps the largest values, and as many rows as there are up to it. -/
theorem limited_orderBy (value : α → β) (rows : List α) (limit : Int) :
    (∃ rest, (limited limit (orderBy value rows) ++ rest).Perm rows ∧
      ∀ a ∈ limited limit (orderBy value rows), ∀ b ∈ rest, value b ≤ value a) ∧
    (0 ≤ limit → (limited limit (orderBy value rows)).length = min limit.toNat rows.length) := by
  constructor
  · obtain ⟨rest, hrest⟩ := limited_prefix limit (orderBy value rows)
    have hsorted := pairwise_orderBy value rows
    rw [← hrest] at hsorted
    exact ⟨rest, (List.Perm.of_eq hrest).trans (orderBy_perm value rows), (List.pairwise_append.1 hsorted).2.2⟩
  · intro hlimit
    unfold limited
    rw [if_neg (by omega), List.length_take, (orderBy_perm value rows).length_eq]

end
