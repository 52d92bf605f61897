import AgentOrchestrator.Lib.Exec
import AgentOrchestrator.Memory.Lifetime

/-!
# The memory endpoints of a user

The dashboard and the deletion of everything filter the collection by the user, and consolidation touches nothing it has
not listed.  The deletion of one memory looks only at its id.  So the records of the others outlast any requests of a
user exactly if no request deletes one of them by its id (`isolated_iff`).
-/

namespace AgentOrchestrator.MemoryApi

open Chroma LongTermMemory

structure MemoryDashboardEntry where
  id : String
  task : String
  approachSummary : String
  facts : List String
  preferences : List String
  toolsUsed : List String
  success : Bool
  importance : Score
  effectiveImportance : ℝ
  accessCount : Int
  createdAt : ℚ
  lastAccessedAt : ℚ

/-- The answers of the endpoints; `failed` is an exception. -/
inductive Reply where
  | entries (entries : List MemoryDashboardEntry)
  | wiped (userId : String) (deletedCount : Nat)
  | deleted (userId memoryId : String)
  | merged (userId : String) (mergedCount : Nat)
  | failed (e : MemoryError)

noncomputable def toEntry (mem : LongTermMemory) (record : MemoryRecord) (now : ℚ) : MemoryDashboardEntry where
  id := record.id
  task := record.task
  approachSummary := record.approachSummary
  facts := record.facts
  preferences := record.preferences
  toolsUsed := record.toolsUsed
  success := record.success
  importance := record.importance
  effectiveImportance := effectiveImportance mem record now
  accessCount := record.accessCount
  createdAt := record.createdAt
  lastAccessedAt := record.lastAccessedAt

open Classical in
/-- `now` is the time at which each record is rated; the most important one comes first. -/
noncomputable def getMemoryDashboard (mem : LongTermMemory) (userId : String) (now : String → ℚ) : Program Reply := do
  let records ← listUserMemories userId
  let entries := records.map fun record => toEntry mem record (now record.id)
  return .entries (entries.insertionSort fun a b => b.effectiveImportance ≤ a.effectiveImportance)

def deleteUserMemory (userId : String) : Program Reply := do
  let deleted ← deleteUserMemories userId
  return .wiped userId deleted

def deleteSingleMemory (userId memoryId : String) : Program Reply := do
  delete memoryId
  return .deleted userId memoryId

def consolidateUserMemory (mem : LongTermMemory) (userId : String) : Program Reply := do
  match ← consolidate mem userId with
  | .error e => return .failed e
  | .ok merged => return .merged userId merged

/-- The requests to the endpoints whose path names a user. -/
inductive MemoryRequest where
  | getMemoryDashboard (now : String → ℚ)
  | deleteUserMemory
  | deleteSingleMemory (memoryId : String)
  | consolidateUserMemory

noncomputable def MemoryRequest.program (mem : LongTermMemory) (userId : String) : MemoryRequest → Program Reply
  | .getMemoryDashboard now => MemoryApi.getMemoryDashboard mem userId now
  | .deleteUserMemory => MemoryApi.deleteUserMemory userId
  | .deleteSingleMemory memoryId => MemoryApi.deleteSingleMemory userId memoryId
  | .consolidateUserMemory => MemoryApi.consolidateUserMemory mem userId

/-- The request, served alone, takes the collection from `s` to `t`. -/
def Serves (mem : LongTermMemory) (userId : String) (s : Collection) (request : MemoryRequest) (t : Collection) :
    Prop :=
  ∃ reply, (request.program mem userId).Runs Executes s reply t

/-- Every record of another user is unchanged and still present. -/
def Isolated (userId : String) (s t : Collection) : Prop :=
  ∀ id e, s.get? id = some e → e.metadata.userId ≠ userId → t.get? id = some e

/-! ### One endpoint -/

section Endpoints

variable {mem : LongTermMemory} {userId : String} {s t : Collection} {reply : Reply} {id : String} {e : Entry}

theorem getMemoryDashboard_spec {now : String → ℚ}
    (h : (getMemoryDashboard mem userId now).Runs Executes s reply t) : t = s := by
  obtain ⟨records, u, hlist, hret⟩ := Prog.Runs.bind_iff.1 h
  obtain ⟨rfl, -⟩ := getRecords_spec hlist
  exact (Prog.Runs.ret_iff.1 hret).2

/-- An entry is left alone unless it is one of the user's. -/
theorem deleteUserMemory_spec (h : (deleteUserMemory userId).Runs Executes s reply t)
    (hother : e.metadata.userId ≠ userId) : t.get? id = some e ↔ s.get? id = some e := by
  obtain ⟨n, u, hdelete, hret⟩ := Prog.Runs.bind_iff.1 h
  obtain ⟨-, rfl⟩ := Prog.Runs.ret_iff.1 hret
  obtain ⟨records, v, hlist, hrest⟩ := Prog.Runs.bind_iff.1 hdelete
  obtain ⟨rfl, -⟩ := getRecords_spec hlist
  dsimp only at hrest
  split at hrest
  · obtain ⟨_, w, hwipe, hret⟩ := Prog.Runs.bind_iff.1 hrest
    obtain ⟨-, rfl⟩ := Prog.Runs.ret_iff.1 hret
    obtain rfl : t = deleteOfUser v userId := Prog.Runs.perform_iff.1 hwipe
    unfold deleteOfUser
    rw [Dict.get?_filterMap, Option.bind_eq_some_iff]
    constructor
    · rintro ⟨e', he', hkept⟩
      split at hkept
      · exact absurd hkept (by simp)
      · rwa [← Option.some.inj hkept]
    · intro he
      exact ⟨e, he, if_neg hother⟩
  · obtain ⟨-, rfl⟩ := Prog.Runs.ret_iff.1 hrest
    exact Iff.rfl

/-- The entry with the id is gone, whoever it belongs to. -/
theorem deleteSingleMemory_spec {memoryId : String}
    (h : (deleteSingleMemory userId memoryId).Runs Executes s reply t) :
    t.get? id = some e ↔ s.get? id = some e ∧ id ≠ memoryId := by
  obtain ⟨_, u, hdelete, hret⟩ := Prog.Runs.bind_iff.1 h
  obtain ⟨-, rfl⟩ := Prog.Runs.ret_iff.1 hret
  obtain rfl : t = deleteIds s [memoryId] := Prog.Runs.perform_iff.1 hdelete
  rw [get?_deleteIds]
  by_cases hid : id = memoryId
  · simp [hid]
  · simp [hid]

theorem consolidateUserMemory_spec (h : (consolidateUserMemory mem userId).Runs Executes s reply t)
    (hother : e.metadata.userId ≠ userId) : t.get? id = some e ↔ s.get? id = some e := by
  obtain ⟨result, u, hrun, hret⟩ := Prog.Runs.bind_iff.1 h
  obtain ⟨n, rfl, hconserves⟩ := consolidate_conserves hrun
  obtain ⟨-, rfl⟩ := Prog.Runs.ret_iff.1 hret
  exact hconserves.others id e hother

end Endpoints

/-! ### Any sequence of requests -/

variable {mem : LongTermMemory} {userId : String} {s t : Collection} {id : String} {e : Entry}

theorem get?_of_serves {request : MemoryRequest} (h : Serves mem userId s request t)
    (hother : e.metadata.userId ≠ userId) :
    t.get? id = some e ↔ s.get? id = some e ∧ request ≠ .deleteSingleMemory id := by
  obtain ⟨reply, hrun⟩ := h
  cases request with
  | getMemoryDashboard now =>
    obtain rfl := getMemoryDashboard_spec hrun
    simp
  | deleteUserMemory =>
    rw [deleteUserMemory_spec hrun hother]
    simp
  | deleteSingleMemory memoryId =>
    rw [deleteSingleMemory_spec hrun]
    simp [eq_comm]
  | consolidateUserMemory =>
    rw [consolidateUserMemory_spec hrun hother]
    simp

/-- An entry of another user is there at the end if it was there at the start and has not been deleted by its id. -/
theorem get?_of_requests {requests : List MemoryRequest} (h : Exec (Serves mem userId) s requests t)
    (hother : e.metadata.userId ≠ userId) :
    t.get? id = some e ↔ s.get? id = some e ∧ .deleteSingleMemory id ∉ requests := by
  induction h with
  | refl => simp
  | @snoc requests t u request _ hs ih =>
    rw [get?_of_serves hs hother, ih, List.mem_append, List.mem_singleton, not_or, and_assoc]
    exact and_congr_right fun _ => and_congr_right fun _ => ne_comm

/-- Requests for a user leave the records of all others alone exactly if the ids by which they delete single memories
are none of theirs. -/
theorem isolated_iff {requests : List MemoryRequest} (h : Exec (Serves mem userId) s requests t) :
    Isolated userId s t ↔
      ∀ id, .deleteSingleMemory id ∈ requests → ∀ e, s.get? id = some e → e.metadata.userId = userId := by
  constructor
  · intro hisolated id hmem e he
    by_contra hother
    have hkept := hisolated id e he hother
    exact ((get?_of_requests h hother).1 hkept).2 hmem
  · intro hown id e he hother
    refine (get?_of_requests h hother).2 ⟨he, fun hmem => ?_⟩
    exact hother (hown id hmem e he)

/-! ### Two users -/

theorem serves_eval (mem : LongTermMemory) (userId : String) (s : Collection) (request : MemoryRequest) :
    Serves mem userId s request ((request.program mem userId).eval (Chroma.exec allNear) s).2 :=
  ⟨_, Prog.runs_of_eval (executes_exec allNear) _ s⟩

/-- A record of Alice and one of Bob. -/
def shared : Collection :=
  ((add { acme "m2" "Reports in EUR." 0 with userId := "bob" }).eval (Chroma.exec allNear)
    ((add (acme "m1" "Fiscal year ends in June." 0)).eval (Chroma.exec allNear) ∅).2).2

/-- Bob's record outlasts what Alice does with her own. -/
theorem isolated_shared :
    ∃ t, Exec (Serves sampleMemory "alice") shared [.consolidateUserMemory, .deleteSingleMemory "m1", .deleteUserMemory]
      t ∧ Isolated "alice" shared t := by
  have hrun := ((Exec.single (serves_eval sampleMemory "alice" shared .consolidateUserMemory)).snoc
    (serves_eval sampleMemory "alice" _ (.deleteSingleMemory "m1"))).snoc
    (serves_eval sampleMemory "alice" _ .deleteUserMemory)
  have hown : ∀ e ∈ shared.get? "m1", e.metadata.userId = "alice" := by decide +kernel
  refine ⟨_, hrun, (isolated_iff hrun).2 fun id hmem e he => ?_⟩
  obtain rfl : id = "m1" := by simpa using hmem
  exact hown e he

/-- Alice deletes Bob's record. -/
theorem other_user_deleted :
    ∃ t, Exec (Serves sampleMemory "alice") shared [.deleteSingleMemory "m2"] t ∧ ¬ Isolated "alice" shared t := by
  refine ⟨_, Exec.single (serves_eval sampleMemory "alice" shared (.deleteSingleMemory "m2")), fun hisolated => ?_⟩
  have hbob : (shared.get? "m2").any (fun e => e.metadata.userId = "bob") = true := by decide +kernel
  obtain ⟨e, he, hu⟩ := (Option.any_eq_true ..).1 hbob
  have hgone : ((deleteSingleMemory "alice" "m2").eval (Chroma.exec allNear) shared).2.get? "m2" = none := by
    decide +kernel
  have hkept := hisolated "m2" e he (by simp [of_decide_eq_true hu])
  exact absurd (hgone.symm.trans hkept) (by simp)

end AgentOrchestrator.MemoryApi
