import AgentOrchestrator.Lib.Exec
import AgentOrchestrator.Memory.Consolidation

/-!
# Consolidation in company

One consolidation of a user's records while other processes query them and add new ones, with each call on the
collection atomic.  Consolidation knows the records as it has listed them; a query holds copies of what it has found and
writes them back one by one.  Each id has a `Base`: the record consolidation last knew under it, or else the one that was
there at the start or added since; what is stored under an id knows exactly what its base knows, and a copy no more.

Two things break this: a query of the consolidation that finds a record added after the listing, which it then looks up
in vain, and a write of a copy that was made before consolidation has merged something into the record.
-/

namespace AgentOrchestrator.LongTermMemory

open Chroma

/-- What the other processes do with the records of the user. -/
inductive Request where
  | query (queryText : String) (topK : Option Nat) (now : String → ℚ)
  | add (record : MemoryRecord)

def Request.program (mem : LongTermMemory) (userId : String) :
    Request → Program (Except MemoryError (Dict String String))
  | .query queryText topK now => (fun _ => .ok ∅) <$> LongTermMemory.query mem queryText (some userId) topK now
  | .add record => (fun _ => .ok ∅) <$> LongTermMemory.add record

/-- The consolidation is process 0. -/
def concurrently (mem : LongTermMemory) (userId : String) (requests : List Request) (s : Collection) :
    Pool Command Response Collection (Except MemoryError (Dict String String)) :=
  ⟨s, consolidation mem userId :: requests.map (Request.program mem userId)⟩

/-! ### Protocols -/

/-- What a process has done so far: as a consolidation, as a query, as an `add`. -/
structure Ghost where
  progress : Progress := {}
  found : List MemoryRecord := []
  added : Bool := false

def addProtocol (record : MemoryRecord) : Protocol Command Response Bool where
  next _ _ _ := true
  guarantee added c := added = false ∧ c = .add record.id record.embeddingText (toMetadata record)
  rely _ _ _ := True

def requestProtocol : Option Request → Protocol Command Response Ghost
  | some (.query _ _ _) => accessProtocol.comap Ghost.found fun g found => { g with found := found }
  | some (.add record) => (addProtocol record).comap Ghost.added fun g added => { g with added := added }
  | none => ⟨fun g _ _ => g, fun _ _ => False, fun _ _ _ => True⟩

/-- The other processes expect nothing. -/
theorem requestProtocol_rely (request? : Option Request) (g : Ghost) (c : Command) (r : Response c) :
    (requestProtocol request?).rely g c r := by
  cases request? with
  | none => trivial
  | some request =>
    cases request with
    | query queryText topK now => trivial
    | add record => trivial

def protocols (mem : LongTermMemory) (userId : String) (requests : List Request) :
    Nat → Protocol Command Response Ghost
  | 0 => (protocol mem userId).comap Ghost.progress fun g progress => { g with progress := progress }
  | i + 1 => requestProtocol requests[i]?

/-- A consolidation returns without an exception; an `add` has added. -/
def returns (requests : List Request) : Nat → Ghost → Except MemoryError (Dict String String) → Prop
  | 0, g, result => Consolidated g.progress result
  | i + 1, g, _ => ∀ record, requests[i]? = some (Request.add record) → g.added = true

theorem follow_concurrently (mem : LongTermMemory) (userId : String) (requests : List Request) (s : Collection) :
    (concurrently mem userId requests s).Follow (protocols mem userId requests) (returns requests) fun _ => {} := by
  intro i p hp
  cases i with
  | zero =>
    obtain rfl := Option.some.inj hp
    exact Prog.Follows.comap Ghost.progress (fun g progress => { g with progress := progress }) (fun _ _ => rfl)
      (g := {}) (follows_consolidation mem userId)
  | succ i =>
    have hmap : (requests.map (Request.program mem userId))[i]? = some p := hp
    rw [List.getElem?_map, Option.map_eq_some_iff] at hmap
    obtain ⟨request, hrequest, rfl⟩ := hmap
    have hprotocol : protocols mem userId requests (i + 1) = requestProtocol (some request) :=
      congrArg requestProtocol hrequest
    rw [hprotocol]
    cases request with
    | query queryText topK now =>
      have hlift := Prog.Follows.comap Ghost.found (fun g found => { g with found := found }) (fun _ _ => rfl)
        (g := {}) (follows_query mem queryText (some userId) topK now)
      exact hlift.map fun g _ _ record hrecord => absurd (hrequest.symm.trans hrecord) (by simp)
    | add record => exact ⟨⟨rfl, rfl⟩, fun _ _ _ _ => rfl⟩

/-! ### What is stored, copied and known -/

/-- The record stored under an id. -/
def recordAt (s : Collection) (id : String) : Option MemoryRecord := (s.get? id).map fun e => fromResult id e.metadata

/-- `r` is of the same user as `b` and knows no more. -/
structure Below (b r : MemoryRecord) : Prop where
  userId : r.userId = b.userId
  items : ∀ kind, items kind r ⊆ items kind b

/-- `r` is of the same user as `b` and knows the same. -/
structure Like (b r : MemoryRecord) : Prop extends Below b r where
  all : ∀ kind, LongTermMemory.items kind b ⊆ LongTermMemory.items kind r

/-- The records that were there at the start or have been added; `added` tells which requests have. -/
def Present (requests : List Request) (s₀ : Collection) (added : Nat → Bool) (id : String) (b : MemoryRecord) : Prop :=
  recordAt s₀ id = some b ∨ ∃ i, requests[i]? = some (Request.add b) ∧ b.id = id ∧ added i = true

/-- What the record under an id is meant to know. -/
def Base (requests : List Request) (s₀ : Collection) (added : Nat → Bool) (known : Dict String MemoryRecord) (id : String)
    (b : MemoryRecord) : Prop :=
  known.get? id = some b ∨ (known.get? id = none ∧ Present requests s₀ added id b)

/-- The ids of the added records are new and different. -/
structure Fresh (requests : List Request) (s₀ : Collection) : Prop where
  new : ∀ (i : Nat) record, requests[i]? = some (Request.add record) → recordAt s₀ record.id = none
  distinct : ∀ (i j : Nat) record record', requests[i]? = some (Request.add record) → requests[j]? = some (Request.add record') →
    record.id = record'.id → i = j

theorem Like.refl (r : MemoryRecord) : Like r r := ⟨⟨rfl, fun _ => List.Subset.refl _⟩, fun _ => List.Subset.refl _⟩

theorem Below.trans {a b c : MemoryRecord} (h : Below a b) (h' : Below b c) : Below a c :=
  ⟨h'.userId.trans h.userId, fun kind => List.Subset.trans (h'.items kind) (h.items kind)⟩

theorem Like.symm {a b : MemoryRecord} (h : Like a b) : Like b a := ⟨⟨h.userId.symm, h.all⟩, h.items⟩

theorem Extends.below {old new : MemoryRecord} (h : Extends old new) : Below new old :=
  ⟨h.userId.symm, fun kind => (h.grows kind).subset⟩

variable {userId : String} {requests : List Request} {s₀ s : Collection} {added : Nat → Bool}

theorem Present.unique (hfresh : Fresh requests s₀) {id : String} {b b' : MemoryRecord}
    (h : Present requests s₀ added id b) (h' : Present requests s₀ added id b') : b = b' := by
  rcases h with h | ⟨i, hi, rfl, -⟩
  · rcases h' with h' | ⟨j, hj, rfl, -⟩
    · exact Option.some.inj (h.symm.trans h')
    · exact absurd (h.symm.trans (hfresh.new j b' hj)) (by simp)
  · rcases h' with h' | ⟨j, hj, hid, -⟩
    · exact absurd (h'.symm.trans (hfresh.new i b hi)) (by simp)
    · obtain rfl := hfresh.distinct i j b b' hi hj hid.symm
      exact Request.add.inj (Option.some.inj (hi.symm.trans hj))

theorem Base.unique (hfresh : Fresh requests s₀) {known : Dict String MemoryRecord} {id : String} {b b' : MemoryRecord}
    (h : Base requests s₀ added known id b) (h' : Base requests s₀ added known id b') : b = b' := by
  rcases h with h | ⟨hnone, h⟩
  · rcases h' with h' | ⟨hnone', -⟩
    · exact Option.some.inj (h.symm.trans h')
    · exact absurd (h.symm.trans hnone') (by simp)
  · rcases h' with h' | ⟨-, h'⟩
    · exact absurd (h'.symm.trans hnone) (by simp)
    · exact h.unique hfresh h'

/-- Nothing is lost so far; `found` has the copies of the queries. -/
structure Kept (userId : String) (requests : List Request) (s₀ : Collection) (progress : Progress)
    (found : Nat → List MemoryRecord) (added : Nat → Bool) (s : Collection) : Prop where
  stored : ∀ id r, recordAt s id = some r → ∃ b, Base requests s₀ added progress.known id b ∧ Like b r
  copies : ∀ i, ∀ r ∈ found i, ∃ b, Base requests s₀ added progress.known r.id b ∧ Below b r
  known : ∀ id k, progress.known.get? id = some k →
    k.userId = userId ∧ ∃ b, Present requests s₀ added id b ∧ Below k b
  present : ∀ id b, Present requests s₀ added id b → id ∉ progress.deleted → ∃ r, recordAt s id = some r
  deleted : ∀ id ∈ progress.deleted, ∃ k, progress.known.get? id = some k ∧
    ∀ kind, ∀ v ∈ items kind k, ∃ id' k', id' ∉ progress.deleted ∧ progress.known.get? id' = some k' ∧ v ∈ items kind k'
  unlisted : progress.listed = none → progress.known = ∅ ∧ progress.deleted = []

/-! ### Moves -/

theorem recordAt_update (s : Collection) (id : String) (m : Metadata) (k : String) :
    recordAt (updateMetadata s id m) k = if k = id then (recordAt s id).map fun _ => fromResult id m else recordAt s k := by
  unfold recordAt
  rw [get?_updateMetadata]
  split
  · rename_i hk
    subst hk
    rw [Option.map_map, Option.map_map]
    rfl
  · rfl

/-- An update removes nothing. -/
theorem exists_recordAt_update {id k : String} {r : MemoryRecord} (h : recordAt s k = some r) (m : Metadata) :
    ∃ r', recordAt (updateMetadata s id m) k = some r' := by
  rw [recordAt_update]
  split
  · rename_i hid
    exact ⟨_, by rw [← hid, h]; rfl⟩
  · exact ⟨r, h⟩

theorem recordAt_delete (s : Collection) (ids : List String) (k : String) :
    recordAt (deleteIds s ids) k = if k ∈ ids then none else recordAt s k := by
  unfold recordAt
  rw [get?_deleteIds]
  split <;> rfl

theorem recordAt_add (s : Collection) (record : MemoryRecord) (k : String) :
    recordAt (addEntry s record.id ⟨record.embeddingText, toMetadata record⟩) k =
      if k = record.id ∧ recordAt s record.id = none then some record else recordAt s k := by
  unfold recordAt
  rw [get?_addEntry]
  simp only [Option.map_eq_none_iff]
  split
  · rename_i hk
    rw [hk.1]
    rfl
  · rfl

theorem get?_stored_iff {id : String} {r : MemoryRecord} :
    (LongTermMemory.stored userId s).get? id = some r ↔ recordAt s id = some r ∧ r.userId = userId := by
  unfold recordAt
  rw [get?_stored, Option.map_eq_some_iff]
  constructor
  · rintro ⟨e, he, hu, rfl⟩
    exact ⟨⟨e, he, rfl⟩, hu⟩
  · rintro ⟨⟨e, he, rfl⟩, hu⟩
    exact ⟨e, he, hu, rfl⟩

variable {progress : Progress} {found : Nat → List MemoryRecord}

/-- A base changes to one that knows at least as much, for what is below it. -/
theorem Base.insert {known : Dict String MemoryRecord} {id : String} {b : MemoryRecord} {record old : MemoryRecord}
    (hold : known.get? record.id = some old) (hext : Extends old record) (h : Base requests s₀ added known id b) :
    ∃ b', Base requests s₀ added (known.insert record.id record) id b' ∧ Below b' b ∧ (id ≠ record.id → b' = b) := by
  by_cases hid : id = record.id
  · subst hid
    have hb : b = old := by
      rcases h with h | ⟨hnone, -⟩
      · exact Option.some.inj (h.symm.trans hold)
      · exact absurd (hold.symm.trans hnone) (by simp)
    exact ⟨record, Or.inl (by simp [Dict.get?_insert]), hb ▸ hext.below, fun hne => absurd rfl hne⟩
  · refine ⟨b, ?_, ⟨rfl, fun _ => List.Subset.refl _⟩, fun _ => rfl⟩
    unfold Base
    rw [Dict.get?_insert, if_neg hid]
    exact h

theorem Kept.list (hfresh : Fresh requests s₀) (h : Kept userId requests s₀ progress found added s)
    (hnone : progress.listed = none) {results : List (String × Metadata)}
    (hr : results.Perm (select (some userId) s)) :
    Kept userId requests s₀ { progress with listed := some (recordsOf results), known := recordsOf results } found added
      s := by
  obtain ⟨hknown, hdeleted⟩ := h.unlisted hnone
  have hbase : ∀ id b, Base requests s₀ added progress.known id b → Present requests s₀ added id b := by
    intro id b hb
    rcases hb with hb | ⟨-, hb⟩
    · rw [hknown] at hb
      exact absurd hb (by simp)
    · exact hb
  -- a record that is listed is listed as it is stored
  have hlisted : ∀ id k, (recordsOf results).get? id = some k → k.userId = userId ∧ recordAt s id = some k ∧
      ∃ b, Present requests s₀ added id b ∧ Like b k := by
    intro id k hk
    obtain ⟨hget, hu⟩ := get?_stored_iff.1 ((get?_recordsOf hr id).symm.trans hk)
    obtain ⟨b, hb, hlike⟩ := h.stored id k hget
    exact ⟨hu, hget, b, hbase id b hb, hlike⟩
  refine ⟨fun id r hget => ?_, fun i c hc => ?_, fun id k hk => ?_, h.present, ?_, fun hn => absurd hn (by simp)⟩
  · obtain ⟨b, hb, hlike⟩ := h.stored id r hget
    cases hk : (recordsOf results).get? id with
    | none => exact ⟨b, Or.inr ⟨hk, hbase id b hb⟩, hlike⟩
    | some k =>
      obtain rfl := Option.some.inj ((hlisted id k hk).2.1.symm.trans hget)
      exact ⟨k, Or.inl hk, Like.refl k⟩
  · obtain ⟨b, hb, hbelow⟩ := h.copies i c hc
    cases hk : (recordsOf results).get? c.id with
    | none => exact ⟨b, Or.inr ⟨hk, hbase _ b hb⟩, hbelow⟩
    | some k =>
      obtain ⟨-, -, b', hb', hlike⟩ := hlisted c.id k hk
      obtain rfl := (hbase _ b hb).unique hfresh hb'
      exact ⟨k, Or.inl hk, hlike.symm.toBelow.trans hbelow⟩
  · obtain ⟨hu, -, b, hb, hlike⟩ := hlisted id k hk
    exact ⟨hu, b, hb, hlike.symm.toBelow⟩
  · intro id hid
    rw [hdeleted] at hid
    exact absurd hid List.not_mem_nil

/-- The consolidation writes a record that has absorbed others. -/
theorem Kept.write (h : Kept userId requests s₀ progress found added s) (hdeleted : progress.deleted = [])
    (hlisted : progress.listed ≠ none) {record old : MemoryRecord} (hold : progress.known.get? record.id = some old)
    (hext : Extends old record) :
    Kept userId requests s₀ { progress with known := progress.known.insert record.id record } found added
      (updateMetadata s record.id (toMetadata record)) := by
  refine ⟨fun id r hget => ?_, fun i c hc => ?_, fun id k hk => ?_, fun id b hb hid => ?_, ?_,
    fun hn => absurd hn hlisted⟩
  · rw [recordAt_update] at hget
    by_cases hid : id = record.id
    · subst hid
      rw [if_pos rfl] at hget
      obtain ⟨-, -, rfl⟩ := Option.map_eq_some_iff.1 hget
      exact ⟨record, Or.inl (by simp [Dict.get?_insert]), Like.refl record⟩
    · -- the bases of other ids stay as they are
      rw [if_neg hid] at hget
      obtain ⟨b, hb, hlike⟩ := h.stored id r hget
      obtain ⟨b', hb', -, hsame⟩ := hb.insert hold hext
      exact ⟨b', hb', hsame hid ▸ hlike⟩
  · obtain ⟨b, hb, hbelow⟩ := h.copies i c hc
    obtain ⟨b', hb', hle, -⟩ := hb.insert hold hext
    exact ⟨b', hb', hle.trans hbelow⟩
  · rw [Dict.get?_insert] at hk
    split at hk
    · rename_i hid
      subst hid
      obtain rfl := Option.some.inj hk
      obtain ⟨hu, b, hb, hbelow⟩ := h.known _ old hold
      exact ⟨hext.userId.trans hu, b, hb, hext.below.trans hbelow⟩
    · exact h.known id k hk
  · obtain ⟨r, hr⟩ := h.present id b hb hid
    exact exists_recordAt_update hr _
  · intro id hid
    exact absurd (hdeleted ▸ hid : id ∈ ([] : List String)) List.not_mem_nil

/-- What a record knows, a survivor knows. -/
theorem exists_survivor {d₀ d : Dict String MemoryRecord} {consumed : Dict String String}
    (habs : Absorptions absorb d₀ d consumed) {id : String} {k : MemoryRecord} (hk : d.get? id = some k)
    {kind : Knowledge} {v : String} (hv : v ∈ items kind k) :
    ∃ id' k', consumed.get? id' = none ∧ d.get? id' = some k' ∧ v ∈ items kind k' := by
  obtain ⟨o, r₀, -, hr₀, hv₀⟩ := habs.exists_origin (fun r => v ∈ items kind r) (fun _ _ => mem_items_absorb.1) hk hv
  obtain ⟨r, hr, hvr⟩ := (habs.exists_iff (fun r => v ∈ items kind r) fun _ _ => mem_items_absorb).2
    ⟨r₀, Dict.mem_values_iff.2 ⟨o, hr₀⟩, hv₀⟩
  obtain ⟨id', hid'⟩ := Dict.mem_values_iff.1 hr
  obtain ⟨hget, hlive⟩ := get?_survivors.1 hid'
  exact ⟨id', r, hlive, hget, hvr⟩

theorem Kept.delete (h : Kept userId requests s₀ progress found added s) (hdeleted : progress.deleted = [])
    (hlisted : progress.listed ≠ none) {d₀ : Dict String MemoryRecord} {consumed : Dict String String}
    (habs : Absorptions absorb d₀ progress.known consumed) :
    Kept userId requests s₀ { progress with deleted := consumed.keys } found added (deleteIds s consumed.keys) := by
  refine ⟨fun id r hget => ?_, h.copies, h.known, fun id b hb hid => ?_, fun id hid => ?_,
    fun hn => absurd hn hlisted⟩
  · rw [recordAt_delete] at hget
    split at hget
    · exact absurd hget (by simp)
    · exact h.stored id r hget
  · rw [recordAt_delete, if_neg hid]
    exact h.present id b hb (by simp [hdeleted])
  · obtain ⟨a, ha⟩ := Dict.mem_keys_iff.1 hid
    obtain ⟨k, hk⟩ := habs.exists_of_into ha
    refine ⟨k, hk, fun kind v hv => ?_⟩
    obtain ⟨id', k', hlive, hget, hv'⟩ := exists_survivor habs hk hv
    refine ⟨id', k', fun hmem => ?_, hget, hv'⟩
    obtain ⟨a', ha'⟩ := Dict.mem_keys_iff.1 hmem
    exact absurd (hlive.symm.trans ha') (by simp)

/-- A query copies what is stored. -/
theorem Kept.find (h : Kept userId requests s₀ progress found added s) {n : Nat} {user? : Option String}
    {hits : List Hit} (hr : Answers s n user? hits) (i : Nat) :
    Kept userId requests s₀ progress
      (Function.update found i (hits.map fun hit => fromResult hit.id hit.metadata)) added s := by
  refine ⟨h.stored, fun j c hc => ?_, h.known, h.present, h.deleted, h.unlisted⟩
  by_cases hj : j = i
  · subst hj
    rw [Function.update_self] at hc
    obtain ⟨hit, hhit, rfl⟩ := List.mem_map.1 hc
    obtain ⟨e, he, hm, -⟩ := hr.stored hit hhit
    have hget : recordAt s hit.id = some (fromResult hit.id hit.metadata) := by
      unfold recordAt
      rw [he, hm]
      rfl
    obtain ⟨b, hb, hlike⟩ := h.stored _ _ hget
    exact ⟨b, hb, hlike.toBelow⟩
  · rw [Function.update_of_ne hj] at hc
    exact h.copies j c hc

theorem items_touch (kind : Knowledge) (r : MemoryRecord) (accessCount : Int) (lastAccessedAt : ℚ) :
    items kind { r with
      accessCount := accessCount
      lastAccessedAt := lastAccessedAt } = items kind r := by
  cases kind with
  | fact => rfl
  | preference => rfl

/-- A query writes back a copy that is not behind. -/
theorem Kept.touch (hfresh : Fresh requests s₀) (h : Kept userId requests s₀ progress found added s) {i : Nat}
    {c : MemoryRecord} (hc : c ∈ found i) (accessCount : Int) (lastAccessedAt : ℚ)
    (hfull : ∀ r, recordAt s c.id = some r → ∀ kind, items kind r ⊆ items kind c) :
    Kept userId requests s₀ progress found added (updateMetadata s c.id (toMetadata { c with
      accessCount := accessCount
      lastAccessedAt := lastAccessedAt })) := by
  refine ⟨fun id r hget => ?_, h.copies, h.known, fun id b hb hid => ?_, h.deleted, h.unlisted⟩
  · rw [recordAt_update] at hget
    split at hget
    · rename_i hid
      subst hid
      obtain ⟨old, hold, rfl⟩ := Option.map_eq_some_iff.1 hget
      obtain ⟨b, hb, hlike⟩ := h.stored c.id old hold
      obtain ⟨b', hb', hbelow⟩ := h.copies i c hc
      obtain rfl := hb.unique hfresh hb'
      -- the copy knows no more than the base, and no less than what it replaces
      refine ⟨b, hb, ⟨hbelow.userId, fun kind => ?_⟩, fun kind => ?_⟩
      · exact items_touch kind c accessCount lastAccessedAt ▸ hbelow.items kind
      · exact items_touch kind c accessCount lastAccessedAt ▸
          List.Subset.trans (hlike.all kind) (hfull old hold kind)
    · exact h.stored id r hget
  · obtain ⟨r, hr⟩ := h.present id b hb hid
    exact exists_recordAt_update hr _

theorem Present.add {i : Nat} (hnot : added i = false) {id : String} {b : MemoryRecord}
    (h : Present requests s₀ added id b) : Present requests s₀ (Function.update added i true) id b := by
  rcases h with h | ⟨j, hj, hid, hadded⟩
  · exact Or.inl h
  · have hne : j ≠ i := fun he => absurd (hnot.symm.trans (he ▸ hadded)) (by simp)
    exact Or.inr ⟨j, hj, hid, by rw [Function.update_of_ne hne, hadded]⟩

theorem Base.add {i : Nat} (hnot : added i = false) {known : Dict String MemoryRecord} {id : String} {b : MemoryRecord}
    (h : Base requests s₀ added known id b) : Base requests s₀ (Function.update added i true) known id b := by
  rcases h with h | ⟨hnone, h⟩
  · exact Or.inl h
  · exact Or.inr ⟨hnone, h.add hnot⟩

theorem Fresh.not_present (hfresh : Fresh requests s₀) {i : Nat} {record : MemoryRecord}
    (hi : requests[i]? = some (Request.add record)) (hnot : added i = false) (b : MemoryRecord) :
    ¬ Present requests s₀ added record.id b := by
  rintro (hb | ⟨j, hj, hid, hadded⟩)
  · exact absurd ((hfresh.new i record hi).symm.trans hb) (by simp)
  · obtain rfl := hfresh.distinct j i b record hj hi hid
    exact absurd (hnot.symm.trans hadded) (by simp)

/-- Nothing is known or stored under the id of a record before it is added. -/
theorem Kept.unseen (hfresh : Fresh requests s₀) (h : Kept userId requests s₀ progress found added s) {i : Nat}
    {record : MemoryRecord} (hi : requests[i]? = some (Request.add record)) (hnot : added i = false) :
    progress.known.get? record.id = none ∧ recordAt s record.id = none := by
  have hunknown : progress.known.get? record.id = none := by
    rw [Option.eq_none_iff_forall_ne_some]
    intro k hk
    obtain ⟨-, b, hb, -⟩ := h.known _ k hk
    exact hfresh.not_present hi hnot b hb
  refine ⟨hunknown, ?_⟩
  rw [Option.eq_none_iff_forall_ne_some]
  intro r hr
  obtain ⟨b, hb, -⟩ := h.stored _ r hr
  rcases hb with hb | ⟨-, hb⟩
  · exact absurd (hunknown.symm.trans hb) (by simp)
  · exact hfresh.not_present hi hnot b hb

/-- A record is added under its new id. -/
theorem Kept.add (hfresh : Fresh requests s₀) (h : Kept userId requests s₀ progress found added s) {i : Nat}
    {record : MemoryRecord} (hi : requests[i]? = some (Request.add record)) (hnot : added i = false) :
    Kept userId requests s₀ progress found (Function.update added i true)
      (addEntry s record.id ⟨record.embeddingText, toMetadata record⟩) := by
  obtain ⟨hunknown, hnew⟩ := h.unseen hfresh hi hnot
  have hpresent : Present requests s₀ (Function.update added i true) record.id record :=
    Or.inr ⟨i, hi, rfl, Function.update_self ..⟩
  refine ⟨fun id r hget => ?_, fun j c hc => ?_, fun id k hk => ?_, fun id b hb hid => ?_, h.deleted, h.unlisted⟩
  · rw [recordAt_add] at hget
    split at hget
    · rename_i hid
      obtain rfl := Option.some.inj hget
      exact ⟨record, Or.inr ⟨hid.1 ▸ hunknown, hid.1 ▸ hpresent⟩, Like.refl record⟩
    · obtain ⟨b, hb, hlike⟩ := h.stored id r hget
      exact ⟨b, hb.add hnot, hlike⟩
  · obtain ⟨b, hb, hbelow⟩ := h.copies j c hc
    exact ⟨b, hb.add hnot, hbelow⟩
  · obtain ⟨hu, b, hb, hbelow⟩ := h.known id k hk
    exact ⟨hu, b, hb.add hnot, hbelow⟩
  · rw [recordAt_add]
    by_cases hid' : id = record.id
    · exact ⟨record, if_pos ⟨hid', hnew⟩⟩
    · rw [if_neg fun hand => hid' hand.1]
      rcases hb with hb | ⟨j, hj, hjid, hadded⟩
      · exact h.present id b (Or.inl hb) hid
      · have hne : j ≠ i := by
          rintro rfl
          obtain rfl := Request.add.inj (Option.some.inj (hi.symm.trans hj))
          exact hid' hjid.symm
        rw [Function.update_of_ne hne] at hadded
        exact h.present id b (Or.inr ⟨j, hj, hjid, hadded⟩) hid

/-! ### Runs -/

/-- The processes beside what they have done. -/
abbrev Watched := Pool.Monitored Command Response Collection (Except MemoryError (Dict String String)) Ghost

/-- The two moves that do harm are a query of the consolidation that finds a near record it has not listed, and another
process writing back a copy that lacks something the record knows by now. -/
def Harmless (mem : LongTermMemory) (st : Watched) : Move Command Response → Prop
  | ⟨0, .query _ _ _, hits⟩ => FindsKnown mem (st.ghosts 0).progress.known hits
  | ⟨_ + 1, .update id metadata, _⟩ => ∀ r, recordAt st.pool.store id = some r →
      ∀ kind, items kind r ⊆ items kind (fromResult id metadata)
  | _ => True

/-- A step of some process that does no harm. -/
def HarmlessStep (mem : LongTermMemory) (userId : String) (requests : List Request) (st : Watched)
    (m : Move Command Response) (st' : Watched) : Prop :=
  Pool.Monitored.Step Executes (protocols mem userId requests) st m st' ∧ Harmless mem st m

/-- Consolidation does not raise, and when all have returned nothing is lost that was known or has been added. -/
structure Safe (userId : String) (requests : List Request) (s₀ : Collection)
    (pool : Pool Command Response Collection (Except MemoryError (Dict String String))) : Prop where
  returns : ∀ result, pool.progs[0]? = some (.ret result) → ∃ consumed, result = .ok consumed
  kept : pool.Finished → ∀ kind v, (∃ r ∈ (stored userId s₀).values, v ∈ items kind r) ∨
    (∃ (i : Nat) (record : MemoryRecord), requests[i]? = some (Request.add record) ∧ v ∈ items kind record) →
    ∃ r ∈ (stored userId pool.store).values, v ∈ items kind r

variable {mem : LongTermMemory}

/-- The programs follow their protocols and nothing is lost. -/
structure Sound (mem : LongTermMemory) (userId : String) (requests : List Request) (s₀ : Collection) (st : Watched) :
    Prop where
  length : st.pool.progs.length = requests.length + 1
  follow : st.pool.Follow (protocols mem userId requests) (returns requests) st.ghosts
  kept : Kept userId requests s₀ (st.ghosts 0).progress (Ghost.found ∘ st.ghosts ∘ Nat.succ)
    (Ghost.added ∘ st.ghosts ∘ Nat.succ) st.pool.store

/-- A move of the consolidation. -/
theorem Kept.consolidation (mem : LongTermMemory) (hfresh : Fresh requests s₀)
    (h : Kept userId requests s₀ progress found added s) {c : Command} {r : Response c} {t : Collection}
    (hg : (protocol mem userId).guarantee progress c) (he : Executes c s r t) :
    Kept userId requests s₀ (progress.next c r) found added t := by
  cases c with
  | get user? =>
    obtain ⟨rfl, hnone⟩ := hg
    obtain ⟨hr, rfl⟩ := he
    exact h.list hfresh hnone hr
  | query text nResults user? =>
    obtain ⟨hr, rfl⟩ := he
    exact h
  | update id metadata =>
    obtain ⟨d₀, old, record, hlisted, hdeleted, hold, hext, rfl, rfl⟩ := hg
    obtain rfl : t = updateMetadata s record.id (toMetadata record) := he
    exact h.write hdeleted (by simp [hlisted]) hold hext
  | delete ids =>
    obtain ⟨d₀, consumed, hlisted, hdeleted, habs, rfl⟩ := hg
    obtain rfl : t = deleteIds s consumed.keys := he
    exact h.delete hdeleted (by simp [hlisted]) habs
  | _ => exact hg.elim

/-- A move of another process. -/
theorem Kept.request (hfresh : Fresh requests s₀) {ghosts : Nat → Ghost} {i : Nat} {c : Command} {r : Response c}
    {t : Collection} (h : Kept userId requests s₀ progress (Ghost.found ∘ ghosts) (Ghost.added ∘ ghosts) s)
    (hg : (requestProtocol requests[i]?).guarantee (ghosts i) c) (he : Executes c s r t)
    (hfull : ∀ id metadata, c = .update id metadata → ∀ r, recordAt s id = some r →
      ∀ kind, items kind r ⊆ items kind (fromResult id metadata)) :
    Kept userId requests s₀ progress
      (Function.update (Ghost.found ∘ ghosts) i ((requestProtocol requests[i]?).next (ghosts i) c r).found)
      (Function.update (Ghost.added ∘ ghosts) i ((requestProtocol requests[i]?).next (ghosts i) c r).added) t := by
  have hfound : Function.update (Ghost.found ∘ ghosts) i (ghosts i).found = Ghost.found ∘ ghosts :=
    Function.update_eq_self ..
  have hadded : Function.update (Ghost.added ∘ ghosts) i (ghosts i).added = Ghost.added ∘ ghosts :=
    Function.update_eq_self ..
  cases hi : requests[i]? with
  | none =>
    rw [hi] at hg
    exact hg.elim
  | some request =>
    rw [hi] at hg
    cases request with
    | query queryText topK now =>
      cases c with
      | query text nResults user? =>
        obtain ⟨hr, rfl⟩ := he
        have hkept := h.find hr i
        rw [← hadded] at hkept
        exact hkept
      | update id metadata =>
        obtain ⟨c, hc, rfl, accessCount, lastAccessedAt, rfl⟩ := hg
        obtain rfl : t = updateMetadata s c.id _ := he
        have hkept := h.touch hfresh hc accessCount lastAccessedAt fun r hr kind =>
          items_touch kind c accessCount lastAccessedAt ▸ hfull _ _ rfl r hr kind
        rw [← hfound, ← hadded] at hkept
        exact hkept
      | _ => exact hg.elim
    | add record =>
      obtain ⟨hnot, rfl⟩ := hg
      obtain rfl : t = addEntry s record.id _ := he
      have hkept := h.add hfresh hi hnot
      rw [← hfound] at hkept
      exact hkept

theorem Sound.step (hfresh : Fresh requests s₀) {st st' : Watched} {m : Move Command Response}
    (h : Sound mem userId requests s₀ st) (hs : HarmlessStep mem userId requests st m st') :
    Sound mem userId requests s₀ st' := by
  obtain ⟨⟨hmove, hghosts⟩, hharmless⟩ := hs
  have hlength := hmove.length_eq.trans h.length
  obtain ⟨hg, hfollow⟩ := h.follow.step hmove
  obtain ⟨i, c, r⟩ := m
  obtain ⟨ghosts, pool⟩ := st
  obtain ⟨ghosts', pool'⟩ := st'
  subst hghosts
  cases hmove with
  | @move s t ps i c k r hi he =>
    have hkept := h.kept
    dsimp only at hg hfollow hharmless hkept
    cases i with
    | zero =>
      -- the consolidation relies on its queries to find nothing unlisted
      refine ⟨hlength, hfollow ?_, ?_⟩
      · cases c with
        | query text nResults user? => exact hharmless
        | _ => trivial
      · have hothers : Function.update ghosts 0 ((protocols mem userId requests 0).next (ghosts 0) c r) ∘ Nat.succ =
            ghosts ∘ Nat.succ := by
          funext j
          exact Function.update_of_ne (Nat.succ_ne_zero j) ..
        dsimp only
        rw [hothers, Function.update_self]
        exact hkept.consolidation mem hfresh hg he
    | succ i =>
      refine ⟨hlength, hfollow (requestProtocol_rely ..), ?_⟩
      dsimp only
      · rw [Function.update_comp_eq_of_injective _ Nat.succ_injective, Function.comp_update, Function.comp_update,
          Function.update_of_ne (Nat.succ_ne_zero i).symm]
        refine hkept.request hfresh hg he fun id metadata hc => ?_
        subst hc
        exact hharmless

theorem sound_start (mem : LongTermMemory) (userId : String) (requests : List Request) (s₀ : Collection) :
    Sound mem userId requests s₀ ⟨fun _ => {}, concurrently mem userId requests s₀⟩ := by
  refine ⟨by simp [concurrently], follow_concurrently mem userId requests s₀, ?_⟩
  refine ⟨fun id r hr => ⟨r, Or.inr ⟨rfl, Or.inl hr⟩, Like.refl r⟩, fun i c hc => absurd hc List.not_mem_nil,
    fun id k hk => absurd hk (by simp), fun id b hb _ => ?_, fun id hid => absurd hid List.not_mem_nil,
    fun _ => ⟨rfl, rfl⟩⟩
  rcases hb with hb | ⟨i, -, -, hadded⟩
  · exact ⟨b, hb⟩
  · exact absurd hadded (by simp)

/-- What the base of a stored record knows is stored. -/
theorem Kept.exists_of_base (hfresh : Fresh requests s₀) (h : Kept userId requests s₀ progress found added s)
    {id : String} {b : MemoryRecord} (hb : Base requests s₀ added progress.known id b) (hu : b.userId = userId)
    (hstored : ∃ r, recordAt s id = some r) {kind : Knowledge} {v : String} (hv : v ∈ items kind b) :
    ∃ r ∈ (LongTermMemory.stored userId s).values, v ∈ items kind r := by
  obtain ⟨r, hr⟩ := hstored
  obtain ⟨b', hb', hlike⟩ := h.stored id r hr
  obtain rfl := hb'.unique hfresh hb
  exact ⟨r, Dict.mem_values_iff.2 ⟨id, get?_stored_iff.2 ⟨hr, hlike.userId.trans hu⟩⟩, hlike.all kind hv⟩

/-- What consolidation knows of a record that it has not deleted is stored. -/
theorem Kept.exists_of_known (hfresh : Fresh requests s₀) (h : Kept userId requests s₀ progress found added s)
    {id : String} {k : MemoryRecord} (hk : progress.known.get? id = some k) (hid : id ∉ progress.deleted)
    {kind : Knowledge} {v : String} (hv : v ∈ items kind k) :
    ∃ r ∈ (LongTermMemory.stored userId s).values, v ∈ items kind r := by
  obtain ⟨hu, b, hb, -⟩ := h.known id k hk
  exact h.exists_of_base hfresh (Or.inl hk) hu (h.present id b hb hid) hv

theorem Kept.exists_of_present (hfresh : Fresh requests s₀) (h : Kept userId requests s₀ progress found added s)
    {id : String} {b : MemoryRecord} (hb : Present requests s₀ added id b) (hu : b.userId = userId) {kind : Knowledge}
    {v : String} (hv : v ∈ items kind b) : ∃ r ∈ (LongTermMemory.stored userId s).values, v ∈ items kind r := by
  cases hk : progress.known.get? id with
  | none =>
    have hid : id ∉ progress.deleted := by
      intro hdeleted
      obtain ⟨k, hk', -⟩ := h.deleted id hdeleted
      exact absurd (hk.symm.trans hk') (by simp)
    exact h.exists_of_base hfresh (Or.inr ⟨hk, hb⟩) hu (h.present id b hb hid) hv
  | some k =>
    obtain ⟨-, b', hb', hbelow⟩ := h.known id k hk
    obtain rfl := hb.unique hfresh hb'
    have hvk : v ∈ items kind k := hbelow.items kind hv
    by_cases hid : id ∈ progress.deleted
    · -- a deleted record lives on in records that are not
      obtain ⟨k', hk', hlives⟩ := h.deleted id hid
      obtain rfl := Option.some.inj (hk.symm.trans hk')
      obtain ⟨id', k', hid', hk', hv'⟩ := hlives kind v hvk
      exact h.exists_of_known hfresh hk' hid' hv'
    · exact h.exists_of_known hfresh hk hid hvk

theorem Sound.safe (hfresh : Fresh requests s₀)
    (husers : ∀ (i : Nat) record, requests[i]? = some (Request.add record) → record.userId = userId) {st : Watched}
    (h : Sound mem userId requests s₀ st) : Safe userId requests s₀ st.pool := by
  refine ⟨fun result hresult => ?_, fun hfin kind v hv => ?_⟩
  · obtain ⟨-, consumed, -, -, -, hok⟩ := h.follow.post hresult
    exact ⟨consumed, hok⟩
  · rcases hv with ⟨r, hr, hv⟩ | ⟨i, record, hi, hv⟩
    · obtain ⟨id, hid⟩ := Dict.mem_values_iff.1 hr
      obtain ⟨hget, hu⟩ := get?_stored_iff.1 hid
      exact h.kept.exists_of_present hfresh (Or.inl hget) hu hv
    · have hlt : i + 1 < st.pool.progs.length := by
        have hi' := (List.getElem?_eq_some_iff.1 hi).1
        rw [h.length]
        omega
      have hprog := List.getElem?_eq_getElem hlt
      obtain ⟨a, ha⟩ := hfin _ (List.mem_of_getElem? hprog)
      have hreturns : returns requests (i + 1) (st.ghosts (i + 1)) a := h.follow.post (ha ▸ hprog)
      exact h.kept.exists_of_present hfresh (Or.inr ⟨i, hi, rfl, hreturns record hi⟩) (husers i record hi) hv

/-- Consolidation in company loses nothing and does not raise as long as the others do no harm. -/
theorem safe_of_harmless {mem : LongTermMemory} {userId : String} {requests : List Request} {s₀ : Collection}
    {tr : List (Move Command Response)} {st : Watched} (hfresh : Fresh requests s₀)
    (husers : ∀ (i : Nat) record, requests[i]? = some (Request.add record) → record.userId = userId)
    (hr : Exec (HarmlessStep mem userId requests) ⟨fun _ => {}, concurrently mem userId requests s₀⟩ tr st) :
    Safe userId requests s₀ st.pool := by
  have hsound := hr.stateInvariant (Sound mem userId requests s₀) (sound_start mem userId requests s₀)
    fun _ _ _ h hs => h.step hfresh hs
  exact hsound.safe hfresh husers

/-! ### Two records, a query and an `add` -/

/-- The move does no harm, for scripts. -/
private def seemsHarmless (mem : LongTermMemory) (st : Watched) : Move Command Response → Bool
  | ⟨0, .query _ _ _, hits⟩ => List.all hits fun hit : Hit =>
      1 - hit.distance < mem.consolidationSimilarityThreshold ∨ ((st.ghosts 0).progress.known.get? hit.id).isSome
  | ⟨_ + 1, .update id metadata, _⟩ => (recordAt st.pool.store id).all fun r =>
      decide (r.facts ⊆ (fromResult id metadata).facts ∧ r.preferences ⊆ (fromResult id metadata).preferences)
  | _ => true

private theorem harmless_of_seemsHarmless {st : Watched} {m : Move Command Response}
    (h : seemsHarmless mem st m = true) : Harmless mem st m := by
  obtain ⟨i, c, r⟩ := m
  cases i with
  | zero =>
    cases c with
    | query text nResults user? =>
      intro hit hhit hnear
      have hall := List.all_eq_true.1 h hit hhit
      rcases of_decide_eq_true hall with hfar | hknown
      · exact absurd hfar (not_lt.2 hnear)
      · exact Option.isSome_iff_exists.1 hknown
    | _ => trivial
  | succ i =>
    cases c with
    | update id metadata =>
      intro r hr kind
      unfold seemsHarmless at h
      dsimp only at h
      rw [hr] at h
      obtain ⟨hfacts, hpreferences⟩ := of_decide_eq_true h
      cases kind with
      | fact => exact hfacts
      | preference => exact hpreferences
    | _ => trivial

/-- Let a process move, if it does no harm. -/
private def watch (requests : List Request) (st : Watched) (i : Nat) :
    Except Unit (Move Command Response × Watched) :=
  match st.pool.advance (Chroma.exec allNear) i with
  | .error e => .error e
  | .ok (m, pool) =>
    if seemsHarmless sampleMemory st m then
      .ok (m, ⟨Function.update st.ghosts m.proc
        ((protocols sampleMemory "alice" requests m.proc).next (st.ghosts m.proc) m.cmd m.res), pool⟩)
    else
      .error ()

private theorem harmlessStep_of_watch {st st' : Watched} {m : Move Command Response} {i : Nat}
    (h : watch requests st i = .ok (m, st')) : HarmlessStep sampleMemory "alice" requests st m st' := by
  unfold watch at h
  split at h
  · exact absurd h (by simp)
  · rename_i m' pool hadvance
    split at h
    · rename_i hharmless
      obtain ⟨rfl, rfl⟩ := Prod.mk.inj (Except.ok.inj h)
      exact ⟨⟨Pool.step_of_advance (executes_exec allNear) hadvance, rfl⟩, harmless_of_seemsHarmless hharmless⟩
    · exact absurd h (by simp)

private def lookup : Request := .query "AcmeCo" (some 1) fun _ => 1

/-- A new record with the text of an old one. -/
private def repeated : MemoryRecord := acme "m3" "Fiscal year ends in June." 1

private theorem eq_repeated {i : Nat} {record : MemoryRecord}
    (h : [lookup, Request.add repeated][i]? = some (Request.add record)) : i = 1 ∧ record = repeated := by
  match i with
  | 0 => exact absurd h (by simp [lookup])
  | 1 => exact ⟨rfl, (Request.add.inj (Option.some.inj h)).symm⟩
  | i + 2 => exact absurd h (by simp)

private theorem fresh_repeated : Fresh [lookup, Request.add repeated] (twoRecords 0) := by
  have hnew : recordAt (twoRecords 0) "m3" = none := by decide +kernel
  refine ⟨fun i record hi => ?_, fun i j record record' hi hj _ => ?_⟩
  · rw [(eq_repeated hi).2]
    exact hnew
  · rw [(eq_repeated hi).1, (eq_repeated hj).1]

/-- The query has written its copy back before the merge, and the record is added after the last query. -/
theorem safe_twoRecords : ∃ tr st, Exec (HarmlessStep sampleMemory "alice" [lookup, Request.add repeated])
    ⟨fun _ => {}, concurrently sampleMemory "alice" [lookup, Request.add repeated] (twoRecords 0)⟩ tr st ∧
      st.pool.Finished ∧ Safe "alice" [lookup, Request.add repeated] (twoRecords 0) st.pool := by
  have hscript : scriptEnds (watch [lookup, Request.add repeated])
      ⟨fun _ => {}, concurrently sampleMemory "alice" [lookup, Request.add repeated] (twoRecords 0)⟩
      [0, 1, 1, 0, 0, 2, 0] (fun _ st => st.pool.progs.all Prog.returned) = true := by
    decide +kernel
  obtain ⟨tr, st, hr, hp⟩ := exec_of_scriptEnds hscript
  have hharmless := hr.mono fun st m st' hs => harmlessStep_of_watch hs.choose_spec
  refine ⟨tr, st, hharmless, Pool.finished_of_all hp, safe_of_harmless fresh_repeated (fun i record hi => ?_) hharmless⟩
  rw [(eq_repeated hi).2]
  rfl

private theorem exec_of_advance {distance : String → String → ℚ}
    {pool : Pool Command Response Collection (Except MemoryError (Dict String String))} {order : List Nat}
    {p : Pool Command Response Collection (Except MemoryError (Dict String String)) → Bool}
    (h : scriptEnds (Pool.advance (Chroma.exec distance)) pool order (fun _ => p) = true) :
    ∃ tr pool', Exec (Pool.Step Executes) pool tr pool' ∧ p pool' = true :=
  exists_exec_of_scriptEnds (fun _ _ _ _ hi => Pool.step_of_advance (executes_exec distance) hi) h

/-- An index that finds documents equal or not. -/
private def sameText (text document : String) : ℚ := if text = document then 0 else 1

private def raises : Prog Command Response (Except MemoryError (Dict String String)) → Bool
  | .ret (.error _) => true
  | _ => false

/-- A query that has found `m1` before `m2` is merged into it writes `m1` back as it was, and `m2` is deleted; and a
record added after the listing is found by the next query of the consolidation. -/
theorem merged_fact_lost :
    (∃ tr pool, Exec (Pool.Step Executes) (concurrently sampleMemory "alice" [lookup] (twoRecords 0)) tr pool ∧
      pool.Finished ∧ ¬ Safe "alice" [lookup] (twoRecords 0) pool) ∧
    Fresh [lookup, Request.add repeated] (twoRecords 0) ∧
    ∃ tr pool, Exec (Pool.Step Executes)
      (concurrently sampleMemory "alice" [lookup, Request.add repeated] (twoRecords 0)) tr pool ∧
      ¬ Safe "alice" [lookup, Request.add repeated] (twoRecords 0) pool := by
  have hstale : scriptEnds (Pool.advance (Chroma.exec allNear))
      (concurrently sampleMemory "alice" [lookup] (twoRecords 0)) [1, 0, 0, 0, 1, 0] (fun _ pool =>
        pool.progs.all Prog.returned && (LongTermMemory.stored "alice" pool.store).values.all fun r =>
          decide ("Reports in EUR." ∉ r.facts)) = true := by
    decide +kernel
  have hunlisted : scriptEnds (Pool.advance (Chroma.exec sameText))
      (concurrently sampleMemory "alice" [lookup, Request.add repeated] (twoRecords 0)) [0, 2, 0] (fun _ pool =>
        pool.progs[0]?.any raises) = true := by
    decide +kernel
  refine ⟨?_, fresh_repeated, ?_⟩
  · obtain ⟨tr, pool, hr, hp⟩ := exec_of_advance hstale
    obtain ⟨hfin, hlost⟩ := Bool.and_eq_true_iff.1 hp
    have hfinished := Pool.finished_of_all hfin
    refine ⟨tr, pool, hr, hfinished, fun h => ?_⟩
    have hfact : "Reports in EUR." ∈ items .fact (acme "m2" "Reports in EUR." 0) := List.mem_singleton_self _
    have hold : acme "m2" "Reports in EUR." 0 ∈ (LongTermMemory.stored "alice" (twoRecords 0)).values := by
      decide +kernel
    obtain ⟨r, hr, hv⟩ := h.kept hfinished .fact "Reports in EUR." (Or.inl ⟨_, hold, hfact⟩)
    exact of_decide_eq_true (List.all_eq_true.1 hlost r hr) hv
  · obtain ⟨tr, pool, hr, hp⟩ := exec_of_advance hunlisted
    refine ⟨tr, pool, hr, fun h => ?_⟩
    obtain ⟨p, hprog, hraises⟩ := (Option.any_eq_true _ _).1 hp
    cases p with
    | ret result =>
      obtain ⟨consumed, rfl⟩ := h.returns result hprog
      exact absurd hraises (by simp [raises])
    | call c k => exact absurd hraises (by simp [raises])

end AgentOrchestrator.LongTermMemory
