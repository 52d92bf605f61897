import Mathlib.Data.List.Induction
import Mathlib.Data.List.Nodup
import Mathlib.Data.List.Perm.Subperm

/-!
# Insertion-ordered dictionaries

`Dict κ ν` is a list of entries with pairwise distinct keys, kept in insertion order: overwriting a key keeps its
place, a new key goes to the end, and a comprehension over a list of pairs keeps the first place and the last value
of a repeated key.  Every operation is characterised through `get?`; two dictionaries are compared by `get?`, so that
the order of the entries matters only where a program iterates over them.
-/

/-- A dictionary: its entries in insertion order, no key twice. -/
structure Dict (κ ν : Type) where
  items : List (κ × ν)
  nodup : (items.map Prod.fst).Nodup
deriving DecidableEq, Repr

namespace Dict

variable {κ ν : Type} [DecidableEq κ]

def empty : Dict κ ν := ⟨[], List.nodup_nil⟩

instance : EmptyCollection (Dict κ ν) := ⟨empty⟩

instance : Inhabited (Dict κ ν) := ⟨∅⟩

def keys (d : Dict κ ν) : List κ := d.items.map Prod.fst

def length (d : Dict κ ν) : Nat := d.items.length

def isEmpty (d : Dict κ ν) : Bool := d.items.isEmpty

def get? (d : Dict κ ν) (k : κ) : Option ν := d.items.lookup k

/-! ### Writing one key -/

/-- Overwrite the entry of `k`, or append one. -/
def insertItem (k : κ) (v : ν) : List (κ × ν) → List (κ × ν)
  | [] => [(k, v)]
  | (k', v') :: rest => if k' = k then (k', v) :: rest else (k', v') :: insertItem k v rest

private theorem keys_insertItem (k : κ) (v : ν) (l : List (κ × ν)) :
    (insertItem k v l).map Prod.fst =
      if k ∈ l.map Prod.fst then l.map Prod.fst else l.map Prod.fst ++ [k] := by
  induction l with
  | nil => simp [insertItem]
  | cons e l ih =>
    obtain ⟨k', v'⟩ := e
    unfold insertItem
    by_cases h : k' = k
    · simp [h]
    · simp only [h, if_false, List.map_cons, ih, List.mem_cons, Ne.symm h, false_or]
      split <;> simp

private theorem nodup_insertItem (k : κ) (v : ν) {l : List (κ × ν)} (h : (l.map Prod.fst).Nodup) :
    ((insertItem k v l).map Prod.fst).Nodup := by
  rw [keys_insertItem]
  split
  · exact h
  · rename_i hk
    rw [List.nodup_append]
    refine ⟨h, List.nodup_singleton k, ?_⟩
    intro a ha b hb
    obtain rfl := List.mem_singleton.1 hb
    rintro rfl
    exact hk ha

def insert (d : Dict κ ν) (k : κ) (v : ν) : Dict κ ν :=
  ⟨insertItem k v d.items, nodup_insertItem k v d.nodup⟩

theorem keys_insert (d : Dict κ ν) (k : κ) (v : ν) :
    (d.insert k v).keys = if k ∈ d.keys then d.keys else d.keys ++ [k] :=
  keys_insertItem k v d.items

/-- Remove the entry of `k`, if any. -/
def erase (d : Dict κ ν) (k : κ) : Dict κ ν :=
  ⟨d.items.filter fun e => e.1 ≠ k, d.nodup.sublist (List.filter_sublist.map _)⟩

/-! ### Reading -/

@[simp] theorem get?_empty (k : κ) : (∅ : Dict κ ν).get? k = none := rfl

private theorem lookup_cons_ite (k a : κ) (b : ν) (l : List (κ × ν)) :
    ((a, b) :: l).lookup k = if k = a then some b else l.lookup k := by
  rw [List.lookup_cons]
  by_cases h : k = a
  · simp [h]
  · rw [if_neg h, beq_eq_false_iff_ne.2 h]

private theorem lookup_insertItem (k k' : κ) (v : ν) (l : List (κ × ν)) :
    (insertItem k v l).lookup k' = if k' = k then some v else l.lookup k' := by
  induction l with
  | nil => exact lookup_cons_ite k' k v []
  | cons e l ih =>
    obtain ⟨a, b⟩ := e
    unfold insertItem
    by_cases h : a = k
    · subst h
      rw [if_pos rfl, lookup_cons_ite, lookup_cons_ite]
      split <;> rfl
    · rw [if_neg h, lookup_cons_ite, lookup_cons_ite, ih]
      by_cases hk : k' = a
      · subst hk
        rw [if_pos rfl, if_neg h, if_pos rfl]
      · rw [if_neg hk, if_neg hk]

/-- Reading after a write. -/
theorem get?_insert (d : Dict κ ν) (k k' : κ) (v : ν) :
    (d.insert k v).get? k' = if k' = k then some v else d.get? k' :=
  lookup_insertItem k k' v d.items

/-- Reading after a removal. -/
theorem get?_erase (d : Dict κ ν) (k k' : κ) :
    (d.erase k).get? k' = if k' = k then none else d.get? k' := by
  show (d.items.filter fun e => decide (e.1 ≠ k)).lookup k' = if k' = k then none else d.items.lookup k'
  induction d.items with
  | nil => simp
  | cons e l ih =>
    obtain ⟨a, b⟩ := e
    rw [lookup_cons_ite]
    by_cases ha : a = k
    · subst ha
      rw [List.filter_cons_of_neg (by simp), ih]
      by_cases hk : k' = a
      · rw [if_pos hk, if_pos hk]
      · rw [if_neg hk, if_neg hk, if_neg hk]
    · rw [List.filter_cons_of_pos (by simpa using ha), lookup_cons_ite, ih]
      by_cases hk : k' = a
      · rw [if_pos hk, if_pos hk, if_neg (hk ▸ ha)]
      · rw [if_neg hk, if_neg hk]

private theorem lookup_eq_some_iff_mem {l : List (κ × ν)} (h : (l.map Prod.fst).Nodup) {k : κ} {v : ν} :
    l.lookup k = some v ↔ (k, v) ∈ l := by
  induction l with
  | nil => simp
  | cons e l ih =>
    obtain ⟨a, b⟩ := e
    rw [List.map_cons, List.nodup_cons] at h
    rw [lookup_cons_ite, List.mem_cons, Prod.mk.injEq]
    by_cases hk : k = a
    · subst hk
      have hn : (k, v) ∉ l := fun hm => h.1 (List.mem_map.2 ⟨(k, v), hm, rfl⟩)
      simp [hn, eq_comm]
    · simp [hk, ih h.2]

theorem mem_items_iff {d : Dict κ ν} {k : κ} {v : ν} : (k, v) ∈ d.items ↔ d.get? k = some v :=
  (lookup_eq_some_iff_mem d.nodup).symm

theorem mem_keys_iff {d : Dict κ ν} {k : κ} : k ∈ d.keys ↔ ∃ v, d.get? k = some v := by
  simp only [keys, List.mem_map, Prod.exists, exists_and_right, exists_eq_right, mem_items_iff]

theorem get?_eq_none_iff {d : Dict κ ν} {k : κ} : d.get? k = none ↔ k ∉ d.keys := by
  rw [mem_keys_iff, Option.eq_none_iff_forall_ne_some, not_exists]

theorem mem_keys_insert {d : Dict κ ν} {k k' : κ} {v : ν} : k' ∈ (d.insert k v).keys ↔ k = k' ∨ k' ∈ d.keys := by
  rw [mem_keys_iff, mem_keys_iff]
  by_cases h : k' = k
  · subst h
    simp [get?_insert]
  · simp [get?_insert, h, Ne.symm h]

theorem mem_keys_erase {d : Dict κ ν} {k k' : κ} : k' ∈ (d.erase k).keys ↔ k' ∈ d.keys ∧ k ≠ k' := by
  rw [mem_keys_iff, mem_keys_iff]
  by_cases h : k' = k
  · subst h
    simp [get?_erase]
  · simp [get?_erase, h, Ne.symm h]

omit [DecidableEq κ] in
theorem eq_empty_of_isEmpty {d : Dict κ ν} (h : d.isEmpty = true) : d = ∅ := by
  obtain ⟨items, nodup⟩ := d
  obtain rfl := List.isEmpty_iff.1 h
  rfl

theorem isEmpty_iff {d : Dict κ ν} : d.isEmpty = true ↔ ∀ k, d.get? k = none := by
  unfold isEmpty
  rw [List.isEmpty_iff]
  constructor
  · intro h k
    simp [get?, h]
  · intro h
    rw [List.eq_nil_iff_forall_not_mem]
    rintro ⟨k, v⟩ hm
    rw [mem_items_iff, h k] at hm
    exact absurd hm (by simp)

private theorem insertItem_insertItem (k : κ) (v w : ν) (l : List (κ × ν)) :
    insertItem k w (insertItem k v l) = insertItem k w l := by
  induction l with
  | nil => simp [insertItem]
  | cons e l ih =>
    obtain ⟨a, b⟩ := e
    by_cases h : a = k
    · simp [insertItem, h]
    · simp [insertItem, h, ih]

theorem insert_insert (d : Dict κ ν) (k : κ) (v w : ν) : (d.insert k v).insert k w = d.insert k w := by
  simp [insert, insertItem_insertItem]

private theorem insertItem_of_lookup {k : κ} {v : ν} {l : List (κ × ν)} (h : l.lookup k = some v) :
    insertItem k v l = l := by
  induction l with
  | nil => exact absurd h (by simp)
  | cons e l ih =>
    obtain ⟨a, b⟩ := e
    rw [lookup_cons_ite] at h
    unfold insertItem
    by_cases ha : k = a
    · rw [if_pos ha] at h
      rw [if_pos ha.symm, Option.some.inj h]
    · rw [if_neg ha] at h
      rw [if_neg (Ne.symm ha), ih h]

/-- Writing what is there. -/
theorem insert_of_get? {d : Dict κ ν} {k : κ} {v : ν} (h : d.get? k = some v) : d.insert k v = d := by
  obtain ⟨items, nodup⟩ := d
  simpa [insert] using insertItem_of_lookup h

private theorem insertItem_of_not_mem {k : κ} (v : ν) {l : List (κ × ν)} (h : k ∉ l.map Prod.fst) :
    insertItem k v l = l ++ [(k, v)] := by
  induction l with
  | nil => rfl
  | cons e l ih =>
    obtain ⟨a, b⟩ := e
    rw [List.map_cons, List.mem_cons, not_or] at h
    rw [insertItem, if_neg (Ne.symm h.1), ih h.2, List.cons_append]

/-- Overwriting an entry with one that looks the same. -/
theorem map_items_insert {μ : Type} {d : Dict κ ν} {k : κ} {v w : ν} (h : d.get? k = some w) {f : κ × ν → μ}
    (hf : f (k, v) = f (k, w)) : (d.insert k v).items.map f = d.items.map f := by
  obtain ⟨items, nodup⟩ := d
  show (insertItem k v items).map f = items.map f
  change items.lookup k = some w at h
  clear nodup
  induction items with
  | nil => exact absurd h (by simp)
  | cons e l ih =>
    obtain ⟨a, b⟩ := e
    rw [lookup_cons_ite] at h
    rw [insertItem]
    by_cases ha : k = a
    · rw [if_pos ha, Option.some.injEq] at h
      subst ha h
      rw [if_pos rfl, List.map_cons, List.map_cons, hf]
    · rw [if_neg ha] at h
      rw [if_neg (Ne.symm ha), List.map_cons, List.map_cons, ih h]

/-! ### Comprehensions -/

/-- `{k: v for k, v in l}`: the last value of a repeated key counts. -/
def ofList (l : List (κ × ν)) : Dict κ ν := l.foldl (fun d e => d.insert e.1 e.2) ∅

/-- `{k: f(k) for k in ks}`. -/
def ofKeys (ks : List κ) (f : κ → ν) : Dict κ ν := ofList (ks.map fun k => (k, f k))

/-- A comprehension maps a key to its last value in the list. -/
theorem get?_ofList (l : List (κ × ν)) (k : κ) : (ofList l).get? k = l.reverse.lookup k := by
  induction l using List.reverseRecOn with
  | nil => rfl
  | append_singleton l e ih =>
    obtain ⟨a, b⟩ := e
    rw [List.reverse_append, List.reverse_singleton, List.singleton_append, lookup_cons_ite, ← ih, ofList,
      List.foldl_append]
    exact get?_insert _ _ _ _

theorem mem_of_get?_ofList {l : List (κ × ν)} {k : κ} {v : ν} (h : (ofList l).get? k = some v) :
    (k, v) ∈ l := by
  rw [get?_ofList, List.lookup_eq_some_iff] at h
  obtain ⟨l₁, l₂, hl, -⟩ := h
  rw [← List.mem_reverse, hl]
  simp

theorem get?_ofList_of_nodup {l : List (κ × ν)} (h : (l.map Prod.fst).Nodup) {k : κ} {v : ν} :
    (ofList l).get? k = some v ↔ (k, v) ∈ l := by
  have hrev : (l.reverse.map Prod.fst).Nodup := by
    rw [List.map_reverse]
    exact List.nodup_reverse.2 h
  rw [get?_ofList, lookup_eq_some_iff_mem hrev, List.mem_reverse]

/-- A comprehension over pairs with distinct keys keeps them as they are. -/
theorem items_ofList_of_nodup {l : List (κ × ν)} (h : (l.map Prod.fst).Nodup) : (ofList l).items = l := by
  induction l using List.reverseRecOn with
  | nil => rfl
  | append_singleton l e ih =>
    rw [List.map_append, List.nodup_append] at h
    obtain ⟨hl, -, hdisjoint⟩ := h
    have hnew : e.1 ∉ l.map Prod.fst := fun hm => hdisjoint e.1 hm e.1 (by simp) rfl
    have hsnoc : ofList (l ++ [e]) = (ofList l).insert e.1 e.2 := by simp [ofList]
    rw [hsnoc]
    show insertItem e.1 e.2 (ofList l).items = l ++ [e]
    rw [ih hl, insertItem_of_not_mem _ hnew]

theorem exists_get?_ofList {l : List (κ × ν)} {k : κ} (h : k ∈ l.map Prod.fst) :
    ∃ v, (ofList l).get? k = some v := by
  rw [← Option.ne_none_iff_exists', get?_ofList, ne_eq, List.lookup_eq_none_iff]
  intro hn
  obtain ⟨p, hp, rfl⟩ := List.mem_map.1 h
  exact absurd (hn p (List.mem_reverse.2 hp)) (by simp)

@[simp] theorem get?_ofKeys (ks : List κ) (f : κ → ν) (k : κ) :
    (ofKeys ks f).get? k = if k ∈ ks then some (f k) else none := by
  have hkeys : (ks.map fun k => (k, f k)).map Prod.fst = ks := by simp [Function.comp_def]
  split
  · rename_i hk
    obtain ⟨w, hw⟩ := exists_get?_ofList (l := ks.map fun k => (k, f k)) (by rw [hkeys]; exact hk)
    obtain ⟨a, -, ha⟩ := List.mem_map.1 (mem_of_get?_ofList hw)
    obtain ⟨rfl, rfl⟩ := Prod.mk.inj ha
    exact hw
  · rename_i hk
    rw [Option.eq_none_iff_forall_ne_some]
    intro w hw
    obtain ⟨a, ha, hak⟩ := List.mem_map.1 (mem_of_get?_ofList hw)
    exact hk ((Prod.mk.inj hak).1 ▸ ha)

theorem get?_ofKeys_eq_some {ks : List κ} {f : κ → ν} {k : κ} {v : ν} :
    (ofKeys ks f).get? k = some v ↔ k ∈ ks ∧ f k = v := by
  rw [get?_ofKeys]
  by_cases hk : k ∈ ks
  · rw [if_pos hk, Option.some_inj]
    exact ⟨fun hv => ⟨hk, hv⟩, fun hv => hv.2⟩
  · rw [if_neg hk]
    exact iff_of_false (by simp) fun hv => hk hv.1

/-! ### Selecting and converting entries -/

def values (d : Dict κ ν) : List ν := d.items.map Prod.snd

/-- The entries for which `f` has a value, with that value. -/
def filterMap {μ : Type} (d : Dict κ ν) (f : κ → ν → Option μ) : Dict κ μ :=
  ⟨d.items.filterMap fun e => (f e.1 e.2).map fun w => (e.1, w), by
    refine d.nodup.sublist ?_
    generalize d.items = l
    induction l with
    | nil => exact List.Sublist.slnil
    | cons e l ih =>
      rw [List.filterMap_cons]
      cases f e.1 e.2 with
      | none => exact ih.cons _
      | some w => exact ih.cons_cons _⟩

theorem get?_filterMap {μ : Type} (d : Dict κ ν) (f : κ → ν → Option μ) (k : κ) :
    (d.filterMap f).get? k = (d.get? k).bind (f k) := by
  refine Option.ext fun w => ?_
  rw [← mem_items_iff, Option.bind_eq_some_iff]
  simp only [filterMap, List.mem_filterMap, Option.map_eq_some_iff, Prod.mk.injEq, Prod.exists, mem_items_iff]
  constructor
  · rintro ⟨k', v, hv, w', hw, rfl, rfl⟩
    exact ⟨v, hv, hw⟩
  · rintro ⟨v, hv, hw⟩
    exact ⟨k, v, hv, w, hw, rfl, rfl⟩

/-- The same keys, with other values. -/
def mapValues {μ : Type} (f : ν → μ) (d : Dict κ ν) : Dict κ μ :=
  ⟨d.items.map fun e => (e.1, f e.2), by
    rw [List.map_map]
    exact d.nodup⟩

theorem get?_mapValues {μ : Type} (f : ν → μ) (d : Dict κ ν) (k : κ) : (d.mapValues f).get? k = (d.get? k).map f := by
  refine Option.ext fun w => ?_
  rw [← mem_items_iff, Option.map_eq_some_iff]
  simp only [mapValues, List.mem_map, Prod.mk.injEq, Prod.exists, mem_items_iff]
  constructor
  · rintro ⟨k', v, hv, rfl, rfl⟩
    exact ⟨v, hv, rfl⟩
  · rintro ⟨v, hv, rfl⟩
    exact ⟨k, v, hv, rfl, rfl⟩

private theorem map_insertItem {μ : Type} (f : ν → μ) (k : κ) (v : ν) (l : List (κ × ν)) :
    (insertItem k v l).map (fun e => (e.1, f e.2)) = insertItem k (f v) (l.map fun e => (e.1, f e.2)) := by
  induction l with
  | nil => rfl
  | cons e l ih =>
    obtain ⟨k', v'⟩ := e
    simp only [insertItem, List.map_cons]
    split
    · rfl
    · rw [List.map_cons, ih]

theorem mapValues_insert {μ : Type} (f : ν → μ) (d : Dict κ ν) (k : κ) (v : ν) :
    (d.insert k v).mapValues f = (d.mapValues f).insert k (f v) := by
  simp [mapValues, insert, map_insertItem]

omit [DecidableEq κ] in
theorem mapValues_filterMap {μ : Type} {f : ν → μ} {g : κ → ν → Option ν} {g' : κ → μ → Option μ}
    (h : ∀ k v, (g k v).map f = g' k (f v)) (d : Dict κ ν) :
    (d.filterMap g).mapValues f = (d.mapValues f).filterMap g' := by
  simp only [mapValues, filterMap, List.map_filterMap, List.filterMap_map, mk.injEq]
  refine List.filterMap_congr fun e _ => ?_
  simp only [Function.comp_apply, ← h, Option.map_map]
  rfl

theorem mem_values_iff {d : Dict κ ν} {v : ν} : v ∈ d.values ↔ ∃ k, d.get? k = some v := by
  simp only [values, List.mem_map, Prod.exists, exists_eq_right, mem_items_iff]

/-- Dictionaries with the same entries, possibly in another order. -/
theorem items_perm {d d' : Dict κ ν} (h : ∀ k, d.get? k = d'.get? k) : d.items.Perm d'.items := by
  refine (List.perm_ext_iff_of_nodup (List.Nodup.of_map _ d.nodup) (List.Nodup.of_map _ d'.nodup)).2 ?_
  rintro ⟨k, v⟩
  rw [mem_items_iff, mem_items_iff, h k]

theorem values_perm {d d' : Dict κ ν} (h : ∀ k, d.get? k = d'.get? k) : d.values.Perm d'.values :=
  (items_perm h).map _

/-- One entry taken out. -/
theorem items_perm_erase {d : Dict κ ν} {k : κ} {v : ν} (h : d.get? k = some v) :
    d.items.Perm ((k, v) :: (d.erase k).items) := by
  have hout : (k, v) ∉ (d.erase k).items := by
    rw [mem_items_iff, get?_erase]
    simp
  refine (List.perm_ext_iff_of_nodup (List.Nodup.of_map _ d.nodup)
    (List.nodup_cons.2 ⟨hout, List.Nodup.of_map _ (d.erase k).nodup⟩)).2 ?_
  rintro ⟨k', v'⟩
  rw [List.mem_cons, mem_items_iff, mem_items_iff, get?_erase, Prod.mk.injEq]
  by_cases hk : k' = k
  · subst hk
    simp [h, eq_comm]
  · simp [hk]

theorem values_perm_erase {d : Dict κ ν} {k : κ} {v : ν} (h : d.get? k = some v) :
    d.values.Perm (v :: (d.erase k).values) :=
  (items_perm_erase h).map _

theorem length_insert_of_none {d : Dict κ ν} {k : κ} (h : d.get? k = none) (v : ν) :
    (d.insert k v).length = d.length + 1 := by
  have hget : (d.insert k v).get? k = some v := by simp [get?_insert]
  have herase : ∀ k', ((d.insert k v).erase k).get? k' = d.get? k' := by
    intro k'
    rw [get?_erase, get?_insert]
    by_cases hk : k' = k
    · subst hk
      simp [h]
    · simp [hk]
  exact (items_perm_erase hget).length_eq.trans (congrArg (· + 1) (items_perm herase).length_eq)

theorem length_insert_of_some {d : Dict κ ν} {k : κ} {w : ν} (h : d.get? k = some w) (v : ν) :
    (d.insert k v).length = d.length := by
  have hmap := congrArg List.length (map_items_insert h (v := v) (f := Prod.fst) rfl)
  rwa [List.length_map, List.length_map] at hmap

/-! ### Sizes -/

omit [DecidableEq κ]

/-- A dictionary with at least as many entries as another, and only keys of it, has all keys of it. -/
theorem keys_subset_of_length_le {μ : Type} {d : Dict κ ν} {d' : Dict κ μ} (h : d.keys ⊆ d'.keys)
    (hl : d'.length ≤ d.length) : d'.keys ⊆ d.keys := by
  have hs : d.keys.Subperm d'.keys := List.Nodup.subperm d.nodup h
  have hp := hs.perm_of_length_le (by simpa [keys, length] using hl)
  exact hp.symm.subset

theorem length_le_of_keys_subset {μ : Type} {d : Dict κ ν} {d' : Dict κ μ} (h : d.keys ⊆ d'.keys) :
    d.length ≤ d'.length := by
  have hs : d.keys.Subperm d'.keys := List.Nodup.subperm d.nodup h
  simpa [keys, length] using hs.length_le

end Dict
