import AgentOrchestrator.Lib.Encoding
import AgentOrchestrator.Lib.Json
import AgentOrchestrator.Memory.LongTerm

/-!
# Memories as they are stored

ChromaDB holds texts, numbers and truth values, so `_to_metadata` writes each list of a record as a JSON text and
`_from_result` reads it back.  `Raw` is the collection with these texts.  The operations on it are those on the
collection of lists with the texts written and read around each call, and they have the same runs, whatever strings the
lists contain and however the calls interleave (`stored_as_text`).
-/

namespace AgentOrchestrator

namespace Chroma.Raw

/-- The metadata of an entry; the lists are JSON texts. -/
structure Metadata where
  userId : String
  task : String
  approachSummary : String
  toolsUsed : Option String := none
  facts : Option String := none
  preferences : Option String := none
  success : Option Bool := none
  importance : Option Score := none
  accessCount : Option Int := none
  createdAt : ℚ
  lastAccessedAt : ℚ
deriving DecidableEq

structure Entry where
  document : String
  metadata : Metadata
deriving DecidableEq

abbrev Collection := Dict String Entry

structure Hit where
  id : String
  metadata : Metadata
  distance : ℚ
deriving DecidableEq

inductive Command where
  | get (user? : Option String)
  | query (text : String) (nResults : Nat) (user? : Option String)
  | add (id document : String) (metadata : Metadata)
  | update (id : String) (metadata : Metadata)
  | delete (ids : List String)
  | deleteUser (userId : String)

def Response : Command → Type
  | .get _ => List (String × Metadata)
  | .query _ _ _ => List Hit
  | .add _ _ _ => Unit
  | .update _ _ => Unit
  | .delete _ => Unit
  | .deleteUser _ => Unit

def Metadata.ofUser (user? : Option String) (m : Metadata) : Bool := user?.all fun u => m.userId = u

def select (user? : Option String) (s : Collection) : List (String × Metadata) :=
  (s.items.filter fun e => e.2.metadata.ofUser user?).map fun e => (e.1, e.2.metadata)

structure Answers (s : Collection) (nResults : Nat) (user? : Option String) (hits : List Hit) : Prop where
  nodup : (hits.map Hit.id).Nodup
  length_le : hits.length ≤ nResults
  stored : ∀ hit ∈ hits, ∃ e, s.get? hit.id = some e ∧ hit.metadata = e.metadata ∧ e.metadata.ofUser user? = true

/-- What a call may answer and leave: it does with the entries what it does if their lists are not texts. -/
def Executes : (c : Command) → Collection → Response c → Collection → Prop
  | .get user?, s, r, t => List.Perm r (select user? s) ∧ t = s
  | .query _ nResults user?, s, r, t => Answers s nResults user? r ∧ t = s
  | .add id document metadata, s, _, t => t = if (s.get? id).isSome then s else s.insert id ⟨document, metadata⟩
  | .update id metadata, s, _, t => t = (s.get? id).elim s fun e => s.insert id { e with metadata := metadata }
  | .delete ids, s, _, t => t = s.filterMap fun id e => if id ∈ ids then none else some e
  | .deleteUser userId, s, _, t => t = s.filterMap fun _ e => if e.metadata.userId = userId then none else some e

/-! ### Writing and reading metadata -/

/-- The metadata with its lists written as JSON texts. -/
def Metadata.dump (m : Chroma.Metadata) : Metadata where
  userId := m.userId
  task := m.task
  approachSummary := m.approachSummary
  toolsUsed := m.toolsUsed.map Json.dumps
  facts := m.facts.map Json.dumps
  preferences := m.preferences.map Json.dumps
  success := m.success
  importance := m.importance
  accessCount := m.accessCount
  createdAt := m.createdAt
  lastAccessedAt := m.lastAccessedAt

/-- The list of a key that may be missing. -/
def loadList : Option String → Option (Option (List String))
  | none => some none
  | some text => (Json.loads text).map some

/-- The metadata with its texts read; there is none if a text is not a list of strings in JSON. -/
def Metadata.load (m : Metadata) : Option Chroma.Metadata :=
  match loadList m.toolsUsed, loadList m.facts, loadList m.preferences with
  | some toolsUsed, some facts, some preferences => some {
      userId := m.userId
      task := m.task
      approachSummary := m.approachSummary
      toolsUsed := toolsUsed
      facts := facts
      preferences := preferences
      success := m.success
      importance := m.importance
      accessCount := m.accessCount
      createdAt := m.createdAt
      lastAccessedAt := m.lastAccessedAt }
  | _, _, _ => none

theorem loadList_dumps (l : Option (List String)) : loadList (l.map Json.dumps) = some l := by
  cases l with
  | none => rfl
  | some l => simp only [Option.map_some, loadList, Json.loads_dumps]

@[simp] theorem load_dump (m : Chroma.Metadata) : (Metadata.dump m).load = some m := by
  simp only [Metadata.load, Metadata.dump, loadList_dumps]

@[simp] theorem ofUser_dump (user? : Option String) (m : Chroma.Metadata) :
    (Metadata.dump m).ofUser user? = m.ofUser user? := rfl

def Entry.dump (e : Chroma.Entry) : Entry := ⟨e.document, .dump e.metadata⟩

def Hit.dump (hit : Chroma.Hit) : Hit := ⟨hit.id, .dump hit.metadata, hit.distance⟩

def Hit.load (hit : Hit) : Option Chroma.Hit := hit.metadata.load.map fun m => ⟨hit.id, m, hit.distance⟩

/-- The collection with the lists of all entries as texts. -/
def dump (s : Chroma.Collection) : Collection := s.mapValues Entry.dump

/-! ### The calls over texts -/

def dumpCommand : Chroma.Command → Command
  | .get user? => .get user?
  | .query text nResults user? => .query text nResults user?
  | .add id document metadata => .add id document (.dump metadata)
  | .update id metadata => .update id (.dump metadata)
  | .delete ids => .delete ids
  | .deleteUser userId => .deleteUser userId

def dumpResponse : (c : Chroma.Command) → Chroma.Response c → Response (dumpCommand c)
  | .get _, r => List.map (fun e => (e.1, Metadata.dump e.2)) r
  | .query _ _ _, r => List.map Hit.dump r
  | .add _ _ _, r => r
  | .update _ _, r => r
  | .delete _, r => r
  | .deleteUser _, r => r

def loadResponse : (c : Chroma.Command) → Response (dumpCommand c) → Option (Chroma.Response c)
  | .get _, r => List.mapM (fun e : String × Metadata => e.2.load.map fun m => (e.1, m)) r
  | .query _ _ _, r => List.mapM Hit.load r
  | .add _ _ _, r => some r
  | .update _ _, r => some r
  | .delete _, r => some r
  | .deleteUser _, r => some r

theorem loadResponse_dumpResponse (c : Chroma.Command) (r : Chroma.Response c) :
    loadResponse c (dumpResponse c r) = some r := by
  cases c with
  | get user? => exact Encoding.mapM_map (fun e => by rw [load_dump]; rfl) r
  | query text nResults user? => exact Encoding.mapM_map (fun hit => by simp [Hit.load, Hit.dump]) r
  | _ => rfl

def textual : Encoding Chroma.Command Chroma.Response Command Response where
  command := dumpCommand
  reply := dumpResponse
  decode := loadResponse
  decode_reply := loadResponse_dumpResponse

/-! ### What the calls do over texts -/

theorem select_dump (user? : Option String) (s : Chroma.Collection) :
    select user? (dump s) = (Chroma.select user? s).map fun e => (e.1, Metadata.dump e.2) := by
  simp only [select, Chroma.select, dump, Dict.mapValues, List.filter_map, List.map_map]
  rfl

theorem get?_dump (s : Chroma.Collection) (id : String) : (dump s).get? id = (s.get? id).map Entry.dump :=
  Dict.get?_mapValues ..

theorem addEntry_dump (s : Chroma.Collection) (id : String) (e : Chroma.Entry) :
    (if ((dump s).get? id).isSome then dump s else (dump s).insert id (.dump e)) = dump (addEntry s id e) := by
  unfold addEntry
  rw [get?_dump, Option.isSome_map]
  split
  · rfl
  · symm
    exact Dict.mapValues_insert ..

theorem updateMetadata_dump (s : Chroma.Collection) (id : String) (m : Chroma.Metadata) :
    ((dump s).get? id).elim (dump s) (fun e => (dump s).insert id { e with metadata := .dump m }) =
      dump (updateMetadata s id m) := by
  unfold updateMetadata
  rw [get?_dump]
  cases s.get? id with
  | none => rfl
  | some e =>
    symm
    exact Dict.mapValues_insert ..

theorem deleteIds_dump (s : Chroma.Collection) (ids : List String) :
    ((dump s).filterMap fun id e => if id ∈ ids then none else some e) = dump (deleteIds s ids) := by
  symm
  refine Dict.mapValues_filterMap (fun id e => ?_) s
  split <;> rfl

theorem deleteOfUser_dump (s : Chroma.Collection) (userId : String) :
    ((dump s).filterMap fun _ e => if e.metadata.userId = userId then none else some e) =
      dump (deleteOfUser s userId) := by
  symm
  refine Dict.mapValues_filterMap (fun _ e => ?_) s
  by_cases he : e.metadata.userId = userId
  · rw [if_pos he]
    exact (if_pos he).symm
  · rw [if_neg he]
    exact (if_neg he).symm

theorem dump_injective : Function.Injective Metadata.dump := by
  intro m m' h
  have hload := congrArg Metadata.load h
  rw [load_dump, load_dump] at hload
  exact Option.some.inj hload

/-- A possible listing over texts is the image of a possible listing. -/
theorem perm_select_dump {user? : Option String} {s : Chroma.Collection} {r : List (String × Metadata)} :
    r.Perm (select user? (dump s)) ↔ ∃ l : List (String × Chroma.Metadata),
      l.Perm (Chroma.select user? s) ∧ r = l.map fun e => (e.1, Metadata.dump e.2) := by
  rw [select_dump]
  refine Encoding.perm_map_iff fun e e' h => ?_
  obtain ⟨hid, hm⟩ := Prod.mk.inj h
  exact Prod.ext hid (dump_injective hm)

theorem map_id_dump (hits : List Chroma.Hit) : (hits.map Hit.dump).map Hit.id = hits.map Chroma.Hit.id :=
  List.map_map

/-- A possible answer to a query over texts is the image of a possible answer. -/
theorem answers_dump {s : Chroma.Collection} {nResults : Nat} {user? : Option String} {hits : List Hit} :
    Answers (dump s) nResults user? hits ↔
      ∃ r : List Chroma.Hit, Chroma.Answers s nResults user? r ∧ hits = r.map Hit.dump := by
  constructor
  · intro h
    obtain ⟨r, rfl⟩ := Encoding.exists_eq_map Hit.dump fun hit hhit => by
      obtain ⟨e', he', hm, -⟩ := h.stored hit hhit
      rw [get?_dump] at he'
      obtain ⟨e, -, rfl⟩ := Option.map_eq_some_iff.1 he'
      refine ⟨⟨hit.id, e.metadata, hit.distance⟩, ?_⟩
      exact congrArg (fun m => Hit.mk hit.id m hit.distance) hm.symm
    refine ⟨r, ⟨map_id_dump r ▸ h.nodup, by simpa using h.length_le, fun hit hhit => ?_⟩, rfl⟩
    obtain ⟨e', he', hm, hu⟩ := h.stored (.dump hit) (List.mem_map_of_mem hhit)
    rw [get?_dump] at he'
    obtain ⟨e, he, rfl⟩ := Option.map_eq_some_iff.1 he'
    exact ⟨e, he, dump_injective hm, hu⟩
  · rintro ⟨r, h, rfl⟩
    refine ⟨(map_id_dump r).symm ▸ h.nodup, by simpa using h.length_le, fun hit' hhit' => ?_⟩
    obtain ⟨hit, hhit, rfl⟩ := List.mem_map.1 hhit'
    obtain ⟨e, he, hm, hu⟩ := h.stored hit hhit
    have hget : (dump s).get? hit.id = some (.dump e) := by
      rw [get?_dump, he]
      rfl
    exact ⟨.dump e, hget, congrArg Metadata.dump hm, hu⟩

/-- A call that only writes. -/
theorem write_iff {u : Chroma.Collection} {u' t' : Collection} {r' : Unit} (h : u' = dump u) :
    t' = u' ↔ ∃ (r : Unit) (t : Chroma.Collection), t = u ∧ r' = r ∧ t' = dump t := by
  constructor
  · rintro rfl
    exact ⟨r', u, rfl, rfl, h⟩
  · rintro ⟨-, t, rfl, -, rfl⟩
    exact h.symm

/-- Each call over texts does what the call does. -/
theorem textual_faithful : textual.Faithful dump Chroma.Executes Executes := by
  intro c s r' t'
  cases c with
  | get user? =>
    constructor
    · rintro ⟨hperm, rfl⟩
      obtain ⟨r, hr, rfl⟩ := perm_select_dump.1 hperm
      exact ⟨r, s, ⟨hr, rfl⟩, rfl, rfl⟩
    · rintro ⟨r, t, ⟨hr, rfl⟩, rfl, rfl⟩
      exact ⟨perm_select_dump.2 ⟨r, hr, rfl⟩, rfl⟩
  | query text nResults user? =>
    constructor
    · rintro ⟨hanswers, rfl⟩
      obtain ⟨r, hr, rfl⟩ := answers_dump.1 hanswers
      exact ⟨r, s, ⟨hr, rfl⟩, rfl, rfl⟩
    · rintro ⟨r, t, ⟨hr, rfl⟩, rfl, rfl⟩
      exact ⟨answers_dump.2 ⟨r, hr, rfl⟩, rfl⟩
  | add id document metadata => exact write_iff (addEntry_dump s id ⟨document, metadata⟩)
  | update id metadata => exact write_iff (updateMetadata_dump s id metadata)
  | delete ids => exact write_iff (deleteIds_dump s ids)
  | deleteUser userId => exact write_iff (deleteOfUser_dump s userId)

end Chroma.Raw

namespace LongTermMemory

open Chroma

/-! ### The operations over texts -/

/-- `_to_metadata`. -/
def toMetadataText (record : MemoryRecord) : Raw.Metadata where
  userId := record.userId
  task := record.task
  approachSummary := record.approachSummary
  toolsUsed := some (Json.dumps record.toolsUsed)
  facts := some (Json.dumps record.facts)
  preferences := some (Json.dumps record.preferences)
  success := some record.success
  importance := some record.importance
  accessCount := some record.accessCount
  createdAt := record.createdAt
  lastAccessedAt := record.lastAccessedAt

/-- `_from_result`; there is no record if a text is not a list of strings in JSON. -/
def fromResultText (memoryId : String) (metadata : Raw.Metadata) : Option MemoryRecord :=
  match Json.loads (metadata.toolsUsed.getD "[]"), Json.loads (metadata.facts.getD "[]"),
    Json.loads (metadata.preferences.getD "[]") with
  | some toolsUsed, some facts, some preferences => some {
      id := memoryId
      userId := metadata.userId
      task := metadata.task
      approachSummary := metadata.approachSummary
      toolsUsed := toolsUsed
      facts := facts
      preferences := preferences
      success := metadata.success.getD true
      importance := metadata.importance.getD ⟨1 / 2, half_isScore⟩
      accessCount := metadata.accessCount.getD 0
      createdAt := metadata.createdAt
      lastAccessedAt := metadata.lastAccessedAt }
  | _, _, _ => none

theorem dump_toMetadata (record : MemoryRecord) : Raw.Metadata.dump (toMetadata record) = toMetadataText record := rfl

/-- A missing key is read as the empty list. -/
theorem loads_getD (text : Option String) :
    Json.loads (text.getD "[]") = (Raw.loadList text).map fun l => l.getD [] := by
  cases text with
  | none => exact Json.loads_dumps []
  | some text =>
    rw [Option.getD_some, Raw.loadList, Option.map_map]
    exact Option.map_id'.symm

theorem fromResultText_eq (memoryId : String) (metadata : Raw.Metadata) :
    fromResultText memoryId metadata = metadata.load.map (fromResult memoryId) := by
  unfold fromResultText Raw.Metadata.load
  rw [loads_getD, loads_getD, loads_getD]
  rcases Raw.loadList metadata.toolsUsed with _ | toolsUsed
  · rfl
  rcases Raw.loadList metadata.facts with _ | facts
  · rfl
  rcases Raw.loadList metadata.preferences with _ | preferences
  · rfl
  rfl

theorem fromResultText_toMetadataText (record : MemoryRecord) :
    fromResultText record.id (toMetadataText record) = some record := by
  rw [fromResultText_eq, ← dump_toMetadata, Raw.load_dump]
  rfl

theorem encoded_add (record : MemoryRecord) : (add record).encoded Raw.textual =
    .call (.add record.id record.embeddingText (toMetadataText record)) fun _ => .ret (some ()) := rfl

theorem encoded_bumpAccess (record : MemoryRecord) (now : ℚ) : (bumpAccess record now).encoded Raw.textual =
    .call (.update record.id (toMetadataText { record with
        accessCount := record.accessCount + 1
        lastAccessedAt := now }))
      fun _ => .ret (some { record with
        accessCount := record.accessCount + 1
        lastAccessedAt := now }) := rfl

theorem mapM_fromResultText (user? : Option String) (results : List (String × Raw.Metadata)) :
    (results.mapM fun e => fromResultText e.1 e.2) =
      (Raw.loadResponse (.get user?) results).map (List.map fun e => fromResult e.1 e.2) := by
  have hload : (fun e : String × Raw.Metadata => fromResultText e.1 e.2) =
      fun e => (e.2.load.map fun m => (e.1, m)).map fun e => fromResult e.1 e.2 := by
    funext e
    rw [fromResultText_eq, Option.map_map]
    rfl
  rw [hload]
  exact Encoding.mapM_map_option _ _ results

theorem encoded_getRecords (user? : Option String) : (getRecords user?).encoded Raw.textual =
    .call (.get user?) fun results : List (String × Raw.Metadata) =>
      .ret (results.mapM fun e => fromResultText e.1 e.2) := by
  have helim : ∀ l : Option (List (String × Metadata)), l.elim (.ret none) (fun results =>
      .ret (some (results.map fun e => fromResult e.1 e.2))) =
      (.ret (l.map (List.map fun e => fromResult e.1 e.2)) : Prog Raw.Command Raw.Response _) := by
    intro l
    cases l <;> rfl
  refine congrArg (Prog.call _) (funext fun results => ?_)
  exact (helim _).trans (congrArg Prog.ret (mapM_fromResultText user? results).symm)

/-- That lists are stored as JSON texts is not noticed: a record is read back as it was written, and the runs of any
operations over texts, interleaved call by call, are exactly the images of their runs over lists. -/
theorem stored_as_text {α : Type} (s : Collection) (progs : List (Program α)) :
    (∀ record, fromResultText record.id (toMetadataText record) = some record) ∧
    ∀ tr' pool', Exec (Pool.Step Raw.Executes) ⟨Raw.dump s, progs.map (Prog.encoded Raw.textual)⟩ tr' pool' ↔
      ∃ tr pool, Exec (Pool.Step Executes) ⟨s, progs⟩ tr pool ∧ tr' = tr.map Raw.textual.move ∧
        pool' = ⟨Raw.dump pool.store, pool.progs.map (Prog.encoded Raw.textual)⟩ :=
  ⟨fromResultText_toMetadataText, fun tr' pool' => Raw.textual_faithful.exec_iff ⟨s, progs⟩ tr' pool'⟩

end LongTermMemory

end AgentOrchestrator
