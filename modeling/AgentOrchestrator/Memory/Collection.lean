import AgentOrchestrator.Lib.Pool
import AgentOrchestrator.Schemas
import Mathlib.Data.List.Sort
import Mathlib.Data.Rat.Cast.Order

/-!
# The memory collection

The ChromaDB collection of long-term memories: for each id a document, whose embedding is searched, and its metadata.
Each call is atomic.  A query may answer with any of the stored entries of the user, at any distances, in any order, but
with no more than it was asked for.
-/

namespace AgentOrchestrator.Chroma

/-- The metadata of an entry; `_from_result` reads some of the keys with a default. -/
structure Metadata where
  userId : String
  task : String
  approachSummary : String
  toolsUsed : Option (List String) := none
  facts : Option (List String) := none
  preferences : Option (List String) := none
  success : Option Bool := none
  importance : Option Score := none
  accessCount : Option Int := none
  createdAt : ℚ
  lastAccessedAt : ℚ
deriving DecidableEq

structure Entry where
  document : String
  metadata : Metadata
deriving DecidableEq

abbrev Collection := Dict String Entry

/-- One result of a query. -/
structure Hit where
  id : String
  metadata : Metadata
  distance : ℚ
deriving DecidableEq

/-- The calls of the long-term memory; `user?` is the filter of a `where` clause. -/
inductive Command where
  | get (user? : Option String)
  | query (text : String) (nResults : Nat) (user? : Option String)
  | add (id document : String) (metadata : Metadata)
  | update (id : String) (metadata : Metadata)
  | delete (ids : List String)
  | deleteUser (userId : String)

def Response : Command → Type
  | .get _ => List (String × Metadata)
  | .query _ _ _ => List Hit
  | .add _ _ _ => Unit
  | .update _ _ => Unit
  | .delete _ => Unit
  | .deleteUser _ => Unit

abbrev Program (α : Type) := Prog Command Response α

/-- The entry passes the filter. -/
def Metadata.ofUser (user? : Option String) (m : Metadata) : Bool := user?.all fun u => m.userId = u

/-- The entries that pass the filter. -/
def select (user? : Option String) (s : Collection) : List (String × Metadata) :=
  (s.items.filter fun e => e.2.metadata.ofUser user?).map fun e => (e.1, e.2.metadata)

/-- A possible answer to a query. -/
structure Answers (s : Collection) (nResults : Nat) (user? : Option String) (hits : List Hit) : Prop where
  nodup : (hits.map Hit.id).Nodup
  length_le : hits.length ≤ nResults
  stored : ∀ hit ∈ hits, ∃ e, s.get? hit.id = some e ∧ hit.metadata = e.metadata ∧ e.metadata.ofUser user? = true

/-- An id that is taken is left as it is. -/
def addEntry (s : Collection) (id : String) (e : Entry) : Collection :=
  if (s.get? id).isSome then s else s.insert id e

/-- The metadata of a stored id is replaced, its document stays; for another id nothing happens. -/
def updateMetadata (s : Collection) (id : String) (m : Metadata) : Collection :=
  match s.get? id with
  | none => s
  | some e => s.insert id { e with metadata := m }

def deleteIds (s : Collection) (ids : List String) : Collection :=
  s.filterMap fun id e => if id ∈ ids then none else some e

def deleteOfUser (s : Collection) (userId : String) : Collection :=
  s.filterMap fun _ e => if e.metadata.userId = userId then none else some e

/-- What a call may answer and leave. -/
def Executes : (c : Command) → Collection → Response c → Collection → Prop
  | .get user?, s, r, t => List.Perm r (select user? s) ∧ t = s
  | .query _ nResults user?, s, r, t => Answers s nResults user? r ∧ t = s
  | .add id document metadata, s, _, t => t = addEntry s id ⟨document, metadata⟩
  | .update id metadata, s, _, t => t = updateMetadata s id metadata
  | .delete ids, s, _, t => t = deleteIds s ids
  | .deleteUser userId, s, _, t => t = deleteOfUser s userId

/-! ### Reading after a call -/

theorem get?_addEntry (s : Collection) (id : String) (e : Entry) (k : String) :
    (addEntry s id e).get? k = if k = id ∧ s.get? id = none then some e else s.get? k := by
  unfold addEntry
  by_cases h : s.get? id = none
  · rw [h, if_neg (by simp), Dict.get?_insert]
    simp
  · rw [if_pos (Option.isSome_iff_ne_none.2 h), if_neg fun hk => h hk.2]

theorem get?_updateMetadata (s : Collection) (id : String) (m : Metadata) (k : String) :
    (updateMetadata s id m).get? k =
      if k = id then (s.get? id).map fun e => { e with metadata := m } else s.get? k := by
  unfold updateMetadata
  cases h : s.get? id with
  | none =>
    by_cases hk : k = id
    · rw [if_pos hk, hk, h]
      rfl
    · rw [if_neg hk]
  | some e => exact Dict.get?_insert ..

theorem get?_deleteIds (s : Collection) (ids : List String) (k : String) :
    (deleteIds s ids).get? k = if k ∈ ids then none else s.get? k := by
  unfold deleteIds
  rw [Dict.get?_filterMap]
  by_cases hk : k ∈ ids
  · simp [hk]
  · simp [hk]

theorem mem_select {user? : Option String} {s : Collection} {id : String} {m : Metadata} :
    (id, m) ∈ select user? s ↔ ∃ e, s.get? id = some e ∧ e.metadata = m ∧ m.ofUser user? = true := by
  simp only [select, List.mem_map, List.mem_filter, Prod.exists, Prod.mk.injEq, Dict.mem_items_iff]
  constructor
  · rintro ⟨id', e, ⟨he, hu⟩, rfl, rfl⟩
    exact ⟨e, he, rfl, hu⟩
  · rintro ⟨e, he, rfl, hu⟩
    exact ⟨id, e, ⟨he, hu⟩, rfl, rfl⟩

theorem nodup_select (user? : Option String) (s : Collection) : ((select user? s).map Prod.fst).Nodup := by
  unfold select
  rw [List.map_map]
  exact s.nodup.sublist (List.filter_sublist.map _)

/-! ### A concrete index -/

/-- The entries of the user, nearest first. -/
def nearest (distance : String → String → ℚ) (text : String) (user? : Option String) (s : Collection) : List Hit :=
  ((s.items.filter fun e => e.2.metadata.ofUser user?).map
    fun e => (⟨e.1, e.2.metadata, distance text e.2.document⟩ : Hit)).insertionSort
      fun a b => a.distance ≤ b.distance

/-- The calls on a collection whose index finds the nearest documents. -/
def exec (distance : String → String → ℚ) : (c : Command) → Collection → Response c × Collection
  | .get user?, s => (select user? s, s)
  | .query text nResults user?, s => ((nearest distance text user? s).take nResults, s)
  | .add id document metadata, s => ((), addEntry s id ⟨document, metadata⟩)
  | .update id metadata, s => ((), updateMetadata s id metadata)
  | .delete ids, s => ((), deleteIds s ids)
  | .deleteUser userId, s => ((), deleteOfUser s userId)

theorem answers_nearest (distance : String → String → ℚ) (text : String) (nResults : Nat) (user? : Option String)
    (s : Collection) : Answers s nResults user? ((nearest distance text user? s).take nResults) := by
  have hperm := List.perm_insertionSort (fun a b : Hit => a.distance ≤ b.distance)
    ((s.items.filter fun e => e.2.metadata.ofUser user?).map
      fun e => (⟨e.1, e.2.metadata, distance text e.2.document⟩ : Hit))
  refine ⟨?_, List.length_take_le _ _, ?_⟩
  · refine List.Nodup.sublist ((List.take_sublist _ _).map _) ((hperm.map Hit.id).nodup_iff.2 ?_)
    rw [List.map_map]
    exact s.nodup.sublist (List.filter_sublist.map _)
  · intro hit hhit
    have hmem := hperm.mem_iff.1 (List.mem_of_mem_take hhit)
    obtain ⟨e, he, rfl⟩ := List.mem_map.1 hmem
    obtain ⟨he, hu⟩ := List.mem_filter.1 he
    exact ⟨e.2, Dict.mem_items_iff.1 he, rfl, hu⟩

theorem executes_exec (distance : String → String → ℚ) (c : Command) (s : Collection) :
    Executes c s (exec distance c s).1 (exec distance c s).2 := by
  cases c with
  | get user? => exact ⟨List.Perm.refl _, rfl⟩
  | query text nResults user? => exact ⟨answers_nearest distance text nResults user? s, rfl⟩
  | _ => rfl

end AgentOrchestrator.Chroma
