import AgentOrchestrator.Memory.Collection

/-!
# Long-term memory

The operations of `LongTermMemory` as programs over the calls on the collection.  The JSON text of a list in the
metadata is the list itself, and the clock is an argument.
-/

namespace AgentOrchestrator

open Chroma

/-- The text that is embedded. -/
def MemoryRecord.embeddingText (record : MemoryRecord) : String :=
  "\n".intercalate
    ((record.task :: record.approachSummary :: (record.facts ++ record.preferences)).filter fun p => p ≠ "")

/-- The settings of the long-term memory; `memoryTopK` is a global one. -/
structure LongTermMemory where
  halfLifeDays : ℚ
  minImportance : ℚ
  minAgeDaysBeforeExpiry : ℚ
  consolidationSimilarityThreshold : ℚ
  memoryTopK : Nat

/-- The exception of a dictionary lookup. -/
inductive MemoryError where
  | keyError (key : String)
deriving DecidableEq, Repr

namespace LongTermMemory

def toMetadata (record : MemoryRecord) : Metadata where
  userId := record.userId
  task := record.task
  approachSummary := record.approachSummary
  toolsUsed := some record.toolsUsed
  facts := some record.facts
  preferences := some record.preferences
  success := some record.success
  importance := some record.importance
  accessCount := some record.accessCount
  createdAt := record.createdAt
  lastAccessedAt := record.lastAccessedAt

def fromResult (memoryId : String) (metadata : Metadata) : MemoryRecord where
  id := memoryId
  userId := metadata.userId
  task := metadata.task
  approachSummary := metadata.approachSummary
  toolsUsed := metadata.toolsUsed.getD []
  facts := metadata.facts.getD []
  preferences := metadata.preferences.getD []
  success := metadata.success.getD true
  importance := metadata.importance.getD ⟨1 / 2, half_isScore⟩
  accessCount := metadata.accessCount.getD 0
  createdAt := metadata.createdAt
  lastAccessedAt := metadata.lastAccessedAt

@[simp] theorem fromResult_toMetadata (record : MemoryRecord) :
    fromResult record.id (toMetadata record) = record := rfl

/-! ### Writing and reading -/

def add (record : MemoryRecord) : Program Unit :=
  Prog.perform (Command.add record.id record.embeddingText (toMetadata record))

def delete (memoryId : String) : Program Unit := Prog.perform (Command.delete [memoryId])

/-- The entries that pass the filter. -/
def getRecords (user? : Option String) : Program (List MemoryRecord) := do
  let results : List (String × Metadata) ← Prog.perform (Command.get user?)
  return results.map fun e => fromResult e.1 e.2

/-- Run alone, the listing has the entries that pass the filter, and changes nothing. -/
theorem getRecords_spec {user? : Option String} {s t : Collection} {records : List MemoryRecord}
    (h : (getRecords user?).Runs Executes s records t) :
    t = s ∧ ∀ r, r ∈ records ↔
      ∃ e, s.get? r.id = some e ∧ e.metadata.ofUser user? = true ∧ fromResult r.id e.metadata = r := by
  obtain ⟨results, u, hget, hret⟩ := Prog.Runs.bind_iff.1 h
  obtain ⟨hperm, rfl⟩ := Prog.Runs.perform_iff.1 hget
  obtain ⟨rfl, rfl⟩ := Prog.Runs.ret_iff.1 hret
  refine ⟨rfl, fun r => ?_⟩
  rw [List.mem_map]
  constructor
  · rintro ⟨⟨id, m⟩, hmem, rfl⟩
    obtain ⟨e, he, rfl, hu⟩ := mem_select.1 (hperm.mem_iff.1 hmem)
    exact ⟨e, he, hu, rfl⟩
  · rintro ⟨e, he, hu, hr⟩
    exact ⟨(r.id, e.metadata), hperm.mem_iff.2 (mem_select.2 ⟨e, he, rfl, hu⟩), hr⟩

def listUserMemories (userId : String) : Program (List MemoryRecord) := getRecords (some userId)

def deleteUserMemories (userId : String) : Program Nat := do
  let records ← listUserMemories userId
  if records ≠ [] then
    Prog.perform (Command.deleteUser userId)
  return records.length

def bumpAccess (record : MemoryRecord) (now : ℚ) : Program MemoryRecord := do
  let record := { record with
    accessCount := record.accessCount + 1
    lastAccessedAt := now }
  Prog.perform (Command.update record.id (toMetadata record))
  return record

/-- `now` is the time at which each record that is found is bumped. -/
def query (mem : LongTermMemory) (queryText : String) (userId : Option String) (topK : Option Nat)
    (now : String → ℚ) : Program (List MemoryRecord) := do
  let hits : List Hit ← Prog.perform (Command.query queryText
    ((topK.filter fun k => k ≠ 0).getD mem.memoryTopK) (userId.filter fun u => u ≠ ""))
  (hits.map fun hit => fromResult hit.id hit.metadata).mapM fun record => bumpAccess record (now record.id)

/-- A query rewrites records it has found, with another access. -/
def accessProtocol : Protocol Command Response (List MemoryRecord) where
  next found c r :=
    match c, r with
    | .query _ _ _, hits => List.map (fun hit : Hit => fromResult hit.id hit.metadata) hits
    | _, _ => found
  guarantee found c :=
    match c with
    | .query _ _ _ => True
    | .update id metadata => ∃ record ∈ found, record.id = id ∧ ∃ accessCount lastAccessedAt, metadata =
        toMetadata { record with
          accessCount := accessCount
          lastAccessedAt := lastAccessedAt }
    | _ => False
  rely _ _ _ := True

theorem follows_query (mem : LongTermMemory) (queryText : String) (userId : Option String) (topK : Option Nat)
    (now : String → ℚ) : (query mem queryText userId topK now).Follows accessProtocol (fun _ _ => True) [] := by
  refine ⟨trivial, fun hits _ => Prog.Follows.mono (Prog.Follows.mapM fun record hrecord => ?_) fun _ _ _ => trivial⟩
  exact ⟨⟨record, hrecord, rfl, _, _, rfl⟩, fun _ _ => rfl⟩

/-! ### Consolidation -/

/-- `list(dict.fromkeys(l))`: each value at its first place. -/
def fromkeys (l : List String) : List String := (Dict.ofKeys l fun _ => ()).keys

/-- What `record` becomes when `other` is merged into it. -/
def absorb (record other : MemoryRecord) : MemoryRecord :=
  { record with
    facts := fromkeys (record.facts ++ other.facts)
    preferences := fromkeys (record.preferences ++ other.preferences)
    toolsUsed := fromkeys (record.toolsUsed ++ other.toolsUsed)
    accessCount := record.accessCount + other.accessCount
    importance := max record.importance other.importance }

/-- The loop over the neighbours of `record`.  For each id that is consumed it keeps the id of the record that has
consumed it, which the source does not. -/
def mergeNeighbors (mem : LongTermMemory) (records : Dict String MemoryRecord) :
    List Hit → MemoryRecord → Dict String String → Except MemoryError (MemoryRecord × Dict String String)
  | [], record, consumed => .ok (record, consumed)
  | hit :: hits, record, consumed =>
    if hit.id = record.id ∨ hit.id ∈ consumed.keys then
      mergeNeighbors mem records hits record consumed
    else if 1 - hit.distance < mem.consolidationSimilarityThreshold then
      mergeNeighbors mem records hits record consumed
    else
      match records.get? hit.id with
      | none => .error (.keyError hit.id)
      | some other => mergeNeighbors mem records hits (absorb record other) (consumed.insert other.id record.id)

/-- The loop over the records.  A record is changed in its own turn only, so it comes to its turn as it was read;
`records` has all of them as they are now. -/
def mergeRecords (mem : LongTermMemory) (userId : String) :
    List MemoryRecord → Dict String MemoryRecord → Dict String String → Program (Except MemoryError (Dict String String))
  | [], _, consumed => return .ok consumed
  | record :: rest, records, consumed =>
    if record.id ∈ consumed.keys then
      mergeRecords mem userId rest records consumed
    else do
      let neighbors : List Hit ← Prog.perform (Command.query record.embeddingText (min 5 records.length) (some userId))
      match mergeNeighbors mem records neighbors record consumed with
      | .error e => return .error e
      | .ok (record, consumed) =>
        if record.id ∉ consumed.keys then
          Prog.perform (Command.update record.id (toMetadata record))
        mergeRecords mem userId rest (records.insert record.id record) consumed

/-- `consolidate`, returning the consumed ids. -/
def consolidation (mem : LongTermMemory) (userId : String) : Program (Except MemoryError (Dict String String)) := do
  let listed ← listUserMemories userId
  let records := Dict.ofList (listed.map fun r => (r.id, r))
  if records.length < 2 then
    return .ok ∅
  match ← mergeRecords mem userId records.values records ∅ with
  | .error e => return .error e
  | .ok consumed =>
    if ¬ consumed.isEmpty then
      Prog.perform (Command.delete consumed.keys)
    return .ok consumed

def consolidate (mem : LongTermMemory) (userId : String) : Program (Except MemoryError Nat) :=
  Except.map Dict.length <$> consolidation mem userId

end LongTermMemory

end AgentOrchestrator
