import AgentOrchestrator.Graph.Invariant
import AgentOrchestrator.Memory.Consolidation
import AgentOrchestrator.Memory.Working

/-!
# What a run leaves behind

The graph beside the two memories it writes.  Of a run that has ended, `deliver` or `reject_task` is the last node and
none was executed before.  After `deliver` the long-term memory has one record more, of the user of the run, and the
output is the synthesis of the final results or what a human has put in their place; after `reject_task` it has none
more.  Either way the working memory of the task is gone, and no other task's has been touched (`consistent_of_finish`).
-/

namespace AgentOrchestrator

open Chroma LongTermMemory

/-- Both memories are configured, and with them, as in `build_app`, the memory extractor. -/
structure Memories where
  working : WorkingMemory
  longTerm : LongTermMemory

/-- The graph and what the memories hold. -/
structure Deployment where
  config : Config
  redis : WorkingMemory.Redis
  collection : Collection

/-! ### What a node writes into the working memory -/

/-- `if state.get("task_id")`. -/
def forTask (taskId : Option String) (p : String → WorkingMemory.Program Unit) : WorkingMemory.Program Unit :=
  match taskId with
  | some taskId => if taskId = "" then pure () else p taskId
  | none => pure ()

/-- A node reads `s` and leaves `t`. -/
def nodeWrites (wm : WorkingMemory) (s t : OrchestratorState) : Event → WorkingMemory.Program Unit
  | .intake => do
    wm.save (t.taskId.getD "") "task" (.text s.task)
    wm.save (t.taskId.getD "") "user_id" (.text (t.userId.getD ""))
  | .planTask _ _ plan => forTask s.taskId fun taskId => wm.save taskId "plan" (.plan plan)
  | .review _ result =>
    forTask s.taskId fun taskId => wm.save taskId ("review:" ++ toString t.reviewCycles) (.review result)
  | .notifyHuman =>
    forTask s.taskId fun taskId =>
      match t.escalation with
      | some escalation => wm.save taskId "notification" (.escalation escalation)
      | none => pure ()
  | .synthesize _ text => forTask s.taskId fun taskId => wm.save taskId "final_output" (.text text)
  | .deliver _ => forTask s.taskId WorkingMemory.clear
  | .rejectTask => forTask s.taskId WorkingMemory.clear
  | .humanEscalation source escalation _ => forTask s.taskId fun taskId => do
    wm.save taskId ("escalation:" ++ source.value) (.escalation escalation)
    -- the node runs again from the top when it is resumed
    wm.save taskId ("escalation:" ++ source.value) (.escalation escalation)
  | .routeBatch => pure ()
  | .specialists _ => pure ()
  | .applyReviewFeedback _ => pure ()
  | .applyHumanDecision _ _ _ => pure ()

/-- What one branch of `run_specialist` saves. -/
def branchWrites (wm : WorkingMemory) (p : SendPayload) (run : SpecialistRun) : WorkingMemory.Program Unit :=
  forTask p.taskId fun taskId => wm.save taskId ("subtask:" ++ p.subtaskId) (.result run.result)

/-- The branches of a batch save at the same time, their commands in any order. -/
def Writes (wm : WorkingMemory) (c : Config) (e : Event) (c' : Config) (redis redis' : WorkingMemory.Redis) : Prop :=
  match c.next, e with
  | .send batch, .specialists runs =>
    ∃ tr pool, Exec (Pool.Step WorkingMemory.Executes) ⟨redis, List.zipWith (branchWrites wm) batch runs⟩ tr pool ∧
      pool.Finished ∧ redis' = pool.store
  | _, _ => redis' = ((nodeWrites wm c.state c'.state e).eval WorkingMemory.exec redis).2

/-! ### What a node does with the long-term memory -/

/-- `intake` queries and `deliver` adds.  A generated task id is not empty, and the id of a new record is not taken. -/
inductive Remembers (mem : LongTermMemory) (s : OrchestratorState) :
    Reply → Event → Collection → Collection → Prop
  | intake {uuid : String} {memories : List MemoryRecord} {now : String → ℚ} {k k' : Collection} (hu : uuid ≠ "")
      (hq : (mem.query s.task (some (orText s.userId "anonymous")) none now).Runs Executes k memories k') :
      Remembers mem s (.intake uuid (some memories)) .intake k k'
  | deliver {memory : String × ℚ × ExtractedMemory} {record : MemoryRecord} {k k' : Collection}
      (hfresh : k.get? record.id = none) (ha : (add record).Runs Executes k () k') :
      Remembers mem s (.memory (some memory)) (.deliver (some record)) k k'
  | other {r : Reply} {e : Event} {k : Collection} (hi : e ≠ .intake) (hd : ∀ record, e ≠ .deliver record) :
      Remembers mem s r e k k

/-- A step of the graph, with what it does to the memories. -/
structure Deployment.Step (cfg : Settings) (mem : Memories) (d : Deployment) (e : Event) (d' : Deployment) : Prop where
  graph : ∃ r, step cfg d.config r = .ok (e, d'.config) ∧
    Remembers mem.longTerm d.config.state r e d.collection d'.collection
  working : Writes mem.working d.config e d'.config d.redis d'.redis

/-! ### What an ended run leaves -/

/-- The event is one of the two nodes before `END`. -/
def Ends (e : Event) : Prop := (∃ record, e = .deliver record) ∨ e = .rejectTask

/-- A human has decided to reject the task. -/
def RejectsTask (e : Event) : Prop :=
  ∃ source escalation decision, e = .humanEscalation source escalation decision ∧ decision.action = .reject

/-- An agent is called, the memory extractor included; only specialists call tools. -/
def Event.callsAgent : Event → Bool
  | .planTask _ _ _ => true
  | .specialists _ => true
  | .review _ _ => true
  | .synthesize _ _ => true
  | .deliver record => record.isSome
  | _ => false

/-- The same ids are taken. -/
def SameIds (k k' : Collection) : Prop := ∀ id, (k'.get? id).isSome = (k.get? id).isSome

/-- There is one entry more, and it is one of the user's. -/
def GainsOne (userId : String) (k k' : Collection) : Prop :=
  ∃ id e, k.get? id = none ∧ k'.get? id = some e ∧ e.metadata.userId = userId ∧
    ∀ other, other ≠ id → (k'.get? other).isSome = (k.get? other).isSome

/-- `final_output` is the synthesis of the final results, or what a human has put in their place. -/
inductive HasOutput (s : OrchestratorState) : Event → Prop
  | synthesis {text : String} (h : s.finalOutput = some text) : HasOutput s (.synthesize s.completed text)
  | takeOver {source : EscalationSource} {decision : HumanDecision} {update : Dict String (Option SubtaskResult)}
      (ha : decision.action = .takeOver) (h : s.finalOutput = some (decision.output.getD "")) :
      HasOutput s (.applyHumanDecision source decision update)

/-- How a run may have ended. -/
inductive Outcome (userId : String) (k : Collection) (tr : List Event) (d : Deployment) : Prop
  | completed {pre : List Event} {e : Event} {record : MemoryRecord} (htr : tr = pre ++ [e, .deliver (some record)])
      (hs : d.config.state.status = some .completed) (ho : HasOutput d.config.state e)
      (hk : GainsOne userId k d.collection) : Outcome userId k tr d
  | rejected {pre : List Event} (htr : tr = pre ++ [.rejectTask]) (hs : d.config.state.status = some .rejected)
      (hk : SameIds k d.collection) : Outcome userId k tr d

/-- The working memory of the task is empty, and that of every other task is as it was. -/
def WorkingCleared (taskId : String) (redis redis' : WorkingMemory.Redis) : Prop :=
  ((WorkingMemory.getAll taskId).eval WorkingMemory.exec redis').1 = ∅ ∧
    ∀ other, other ≠ taskId → redis'.get? (WorkingMemory.key other) = redis.get? (WorkingMemory.key other)

/-- The task id and the user id a run works with. -/
structure Identified (s : OrchestratorState) (taskId userId : String) (t : OrchestratorState) : Prop where
  taskId_eq : t.taskId = some taskId
  nonempty : taskId ≠ ""
  given : ∀ id, s.taskId = some id → id ≠ "" → taskId = id
  userId_eq : t.userId = some userId
  user : userId = orText s.userId "anonymous"

/-- What the run of a task has left. -/
structure Consistent (s : OrchestratorState) (redis : WorkingMemory.Redis) (k : Collection) (tr : List Event)
    (d : Deployment) : Prop where
  once : ∃ pre e, tr = pre ++ [e] ∧ Ends e ∧ ∀ x ∈ pre, ¬ Ends x
  left : ∃ taskId userId, Identified s taskId userId d.config.state ∧ Outcome userId k tr d ∧
    WorkingCleared taskId redis d.redis
  quiet : tr.Pairwise fun e later => RejectsTask e → later.callsAgent = false

/-! ### The end of a run of the graph -/

section Graph

variable {cfg : Settings} {s : OrchestratorState} {c c' : Config} {e : Event} {tr : List Event}

theorem Fires.finish_of_ends (h : Fires cfg c e c') (he : Ends e) : c'.next = .finish := by
  rcases he with ⟨record, rfl⟩ | rfl
  · cases h with
    | deliver memory hu => rfl
  · cases h with
    | rejectTask => rfl

theorem Fires.not_finished (h : Fires cfg c e c') : c.next ≠ .finish := by
  cases h <;> simp

theorem Fires.event_of_start (h : Fires cfg (start s) e c') : e = .intake := by
  cases h with
  | intake _ _ => rfl

theorem Fires.exists_deliver {record : Option MemoryRecord} (h : Fires cfg c (.deliver record) c') :
    ∃ memory u, AgentOrchestrator.deliver memory c.state = .ok (record, u) := by
  cases h with
  | deliver memory hu => exact ⟨memory, _, hu⟩

/-- Before the end neither of the two has been executed. -/
theorem not_ends_of_exec (h : Exec (Step cfg) (start s) tr c) (hn : c.next ≠ .finish) : ∀ e ∈ tr, ¬ Ends e := by
  refine h.invariant (fun tr c => c.next ≠ .finish → ∀ e ∈ tr, ¬ Ends e) (by simp) ?_ hn
  intro tr t e u _ ih hs hu x hx hends
  rcases List.mem_append.1 hx with hx | hx
  · exact ih hs.fires.not_finished x hx hends
  · obtain rfl := List.mem_singleton.1 hx
    exact hu (hs.fires.finish_of_ends hends)

/-- Only the synthesis and a take-over lead to `deliver`. -/
theorem At.hasOutput (h : At cfg c.state c.next) (hf : Fires cfg c e c') (hn : c'.next = .node .deliver) :
    HasOutput c'.state e := by
  have hedge := h.leadsTo hf
  rw [hn] at hedge
  cases hf with
  | synthesize text => exact .synthesis rfl
  | applyHumanDecision hd hs hu hroute =>
    obtain ⟨plan, escalation, -, -, -, hdecided⟩ := h.decided hd hs hu hroute
    cases hdecided with
    | takeOver ha _ => exact .takeOver ha rfl
    | _ => exact absurd hn (by simp)
  | _ => simp [Event.LeadsTo] at hedge

/-- The last step before `deliver` has left an output. -/
theorem hasOutput_of_exec (h0 : Fresh s) (h : Exec (Step cfg) (start s) tr c) (hn : c.next = .node .deliver) :
    ∃ pre e, tr = pre ++ [e] ∧ HasOutput c.state e := by
  cases h with
  | refl => exact absurd hn (by simp [start])
  | snoc hr hs => exact ⟨_, _, rfl, (at_of_exec h0 hr).hasOutput hs.fires hn⟩

/-- A rejection is about to end the run. -/
def Rejecting (c : Config) : Prop :=
  (c.next = .node .applyHumanDecision ∧ ∃ decision, c.state.humanDecision = some decision ∧ decision.action = .reject) ∨
    c.next = .node .rejectTask ∨ c.next = .finish

theorem Rejecting.step (h : At cfg c.state c.next) (hc : Rejecting c) (hf : Fires cfg c e c') :
    e.callsAgent = false ∧ Rejecting c' := by
  rcases hc with ⟨hn, decision, hd, ha⟩ | hn | hn
  · cases hf with
    | applyHumanDecision hd' hs hu hroute =>
      obtain rfl := Option.some.inj (hd.symm.trans hd')
      obtain ⟨plan, escalation, -, -, -, hdecided⟩ := h.decided hd' hs hu hroute
      cases hdecided with
      | reject _ => exact ⟨rfl, Or.inr (Or.inl rfl)⟩
      | takeOver ha' _ => exact absurd (ha.symm.trans ha') (by decide)
      | supply ha' _ _ _ => exact absurd (ha.symm.trans ha') (by decide)
      | replan ha' _ => exact absurd (ha.symm.trans ha') (by decide)
      | guide ha' _ => exact absurd (ha.symm.trans ha') (by decide)
      | redo ha' _ _ _ _ => exact absurd (ha.symm.trans ha') (by decide)
      | resume ha' _ => exact absurd (ha.symm.trans ha') (by decide)
      | retry ha' _ => exact absurd (ha.symm.trans ha') (by decide)
      | accept ha' _ _ => exact absurd (ha.symm.trans ha') (by decide)
    | _ => exact absurd hn (by simp)
  · cases hf with
    | rejectTask => exact ⟨rfl, Or.inr (Or.inr rfl)⟩
    | _ => exact absurd hn (by simp)
  · exact absurd hn hf.not_finished

/-- After a REJECT no agent is called. -/
theorem quiet_after_reject (h0 : Fresh s) (h : Exec (Step cfg) (start s) tr c) :
    tr.Pairwise (fun e later => RejectsTask e → later.callsAgent = false) ∧
      ((∃ e ∈ tr, RejectsTask e) → Rejecting c) := by
  refine h.invariant (fun tr c => tr.Pairwise (fun e later => RejectsTask e → later.callsAgent = false) ∧
    ((∃ e ∈ tr, RejectsTask e) → Rejecting c)) ⟨List.Pairwise.nil, by simp⟩ ?_
  rintro tr t e u hr ⟨hpair, hrejecting⟩ hs
  have hat := at_of_exec h0 hr
  constructor
  · rw [List.pairwise_append]
    refine ⟨hpair, List.pairwise_singleton _ _, fun x hx y hy hrejects => ?_⟩
    obtain rfl := List.mem_singleton.1 hy
    exact (Rejecting.step hat (hrejecting ⟨x, hx, hrejects⟩) hs.fires).1
  · rintro ⟨x, hx, hrejects⟩
    rcases List.mem_append.1 hx with hx | hx
    · exact (Rejecting.step hat (hrejecting ⟨x, hx, hrejects⟩) hs.fires).2
    · obtain rfl := List.mem_singleton.1 hx
      obtain ⟨source, escalation, decision, rfl, ha⟩ := hrejects
      cases hs.fires with
      | humanEscalation _ he => exact Or.inl ⟨rfl, decision, rfl, ha⟩

/-- The ids of task and user are as the last step has left them, and a batch carries the task id. -/
theorem At.ids_eq (h : At cfg c.state c.next) (hf : Fires cfg c e c') (hn : c.next ≠ .node .intake) :
    c'.state.taskId = c.state.taskId ∧ c'.state.userId = c.state.userId := by
  cases hf with
  | intake _ _ => exact absurd rfl hn
  | specialists result hb =>
    obtain ⟨plan, -, -, -, heff⟩ := h.dispatched hb
    rw [heff.frame]
    exact ⟨rfl, rfl⟩
  | applyReviewFeedback hu =>
    obtain ⟨r, -, rfl⟩ := update_of_applyReviewFeedback hu
    exact ⟨rfl, rfl⟩
  | notifyHuman hu =>
    obtain ⟨escalation, rfl⟩ := update_of_notifyHuman hu
    exact ⟨rfl, rfl⟩
  | deliver memory hu =>
    obtain rfl := update_of_deliver hu
    exact ⟨rfl, rfl⟩
  | applyHumanDecision hd hs hu hroute =>
    obtain ⟨plan, escalation, -, -, -, hdecided⟩ := h.decided hd hs hu hroute
    cases hdecided <;> exact ⟨rfl, rfl⟩
  | _ => exact ⟨rfl, rfl⟩

theorem At.taskId_of_send {batch : List SendPayload} (h : At cfg s (.send batch)) :
    ∀ p ∈ batch, p.taskId = s.taskId := by
  cases h with
  | send _ _ _ hb =>
    rw [hb]
    intro p hp
    obtain ⟨sid, -, rfl⟩ := List.mem_map.1 hp
    rfl

end Graph

/-! ### What a step does to the memories -/

/-- A query takes no id and gives none up. -/
theorem sameIds_of_query {mem : LongTermMemory} {text : String} {userId : Option String} {topK : Option Nat}
    {now : String → ℚ} {k k' : Collection} {memories : List MemoryRecord}
    (h : (mem.query text userId topK now).Runs Executes k memories k') : SameIds k k' := by
  have hI : ∀ (g : List MemoryRecord) (s : Collection) (c : Command) (r : Response c) (t : Collection), SameIds k s →
      accessProtocol.guarantee g c → Executes c s r t → accessProtocol.rely g c r ∧ SameIds k t := by
    intro g s c r t hs hg he
    refine ⟨trivial, ?_⟩
    cases c with
    | query text nResults user? =>
      obtain ⟨-, rfl⟩ := he
      exact hs
    | update id metadata =>
      obtain rfl : t = updateMetadata s id metadata := he
      intro x
      rw [← hs x, get?_updateMetadata]
      split
      · rename_i hx
        rw [hx, Option.isSome_map]
      · rfl
    | _ => exact hg.elim
  obtain ⟨-, -, hids⟩ := (follows_query mem text userId topK now).runs hI (fun _ => rfl) h
  exact hids

theorem gainsOne_of_add {record : MemoryRecord} {k k' : Collection} (hfresh : k.get? record.id = none)
    (h : (add record).Runs Executes k () k') : GainsOne record.userId k k' := by
  obtain rfl : k' = addEntry k record.id ⟨record.embeddingText, toMetadata record⟩ := Prog.Runs.perform_iff.1 h
  refine ⟨record.id, ⟨record.embeddingText, toMetadata record⟩, hfresh, ?_, rfl, fun other hother => ?_⟩
  · rw [get?_addEntry, if_pos ⟨rfl, hfresh⟩]
  · rw [get?_addEntry, if_neg fun hid => hother hid.1]

namespace Remembers

variable {mem : LongTermMemory} {s : OrchestratorState} {r : Reply} {e : Event} {k k' : Collection}

theorem sameIds (h : Remembers mem s r e k k') (he : ∀ record, e ≠ .deliver record) : SameIds k k' := by
  cases h with
  | intake _ hq => exact sameIds_of_query hq
  | deliver _ _ => exact absurd rfl (he _)
  | other _ _ => exact fun _ => rfl

theorem exists_uuid (h : Remembers mem s r .intake k k') :
    ∃ uuid memories, uuid ≠ "" ∧ r = .intake uuid (some memories) := by
  cases h with
  | intake hu _ => exact ⟨_, _, hu, rfl⟩
  | other hi _ => exact absurd rfl hi

theorem exists_record {record : Option MemoryRecord} (h : Remembers mem s r (.deliver record) k k') :
    ∃ added, record = some added ∧ GainsOne added.userId k k' := by
  cases h with
  | deliver hfresh ha => exact ⟨_, rfl, gainsOne_of_add hfresh ha⟩
  | other _ hd => exact absurd rfl (hd record)

end Remembers

theorem userId_of_deliver {memory : Option (String × ℚ × ExtractedMemory)} {s : OrchestratorState}
    {record : MemoryRecord} {u : Update} (h : deliver memory s = .ok (some record, u)) :
    record.userId = s.userId.getD "anonymous" := by
  unfold deliver at h
  split at h
  · obtain ⟨hnone, -⟩ := Prod.mk.inj (Except.ok.inj h)
    exact absurd hnone (by simp)
  · obtain ⟨plan, -, h⟩ := Fallible.bind_eq_ok_iff.1 h
    obtain ⟨hrecord, -⟩ := Prod.mk.inj (Except.ok.inj h)
    rw [← Option.some.inj hrecord]
    rfl

theorem orText_ne_empty {a : Option String} {b : String} (hb : b ≠ "") : orText a b ≠ "" := by
  unfold orText
  split
  · split
    · exact hb
    · assumption
  · exact hb

section Working

variable {wm : WorkingMemory} {taskId : String} {s t : OrchestratorState} {e : Event}

theorem only_forTask {id? : Option String} {p : String → WorkingMemory.Program Unit} (hid : id? = some taskId)
    (hp : WorkingMemory.Only taskId (p taskId)) : WorkingMemory.Only taskId (forTask id? p) := by
  subst hid
  unfold forTask
  dsimp only
  split
  · exact WorkingMemory.only_pure taskId
  · exact hp

/-- A node works on the hash of its task. -/
theorem only_nodeWrites (hs : e ≠ .intake → s.taskId = some taskId) (ht : t.taskId = some taskId) :
    WorkingMemory.Only taskId (nodeWrites wm s t e) := by
  cases e with
  | intake =>
    simp only [nodeWrites, ht, Option.getD_some]
    exact .bind (WorkingMemory.only_save ..) (WorkingMemory.only_save ..)
  | planTask _ _ _ => exact only_forTask (hs (by simp)) (WorkingMemory.only_save ..)
  | review _ _ => exact only_forTask (hs (by simp)) (WorkingMemory.only_save ..)
  | notifyHuman =>
    refine only_forTask (hs (by simp)) ?_
    split
    · exact WorkingMemory.only_save ..
    · exact WorkingMemory.only_pure taskId
  | synthesize _ _ => exact only_forTask (hs (by simp)) (WorkingMemory.only_save ..)
  | deliver _ => exact only_forTask (hs (by simp)) (WorkingMemory.only_clear taskId)
  | rejectTask => exact only_forTask (hs (by simp)) (WorkingMemory.only_clear taskId)
  | humanEscalation _ _ _ =>
    exact only_forTask (hs (by simp)) (.bind (WorkingMemory.only_save ..) (WorkingMemory.only_save ..))
  | _ => exact WorkingMemory.only_pure taskId

/-- So does a batch. -/
theorem Writes.get?_eq {c c' : Config} {redis redis' : WorkingMemory.Redis} (h : Writes wm c e c' redis redis')
    (hs : e ≠ .intake → c.state.taskId = some taskId) (ht : c'.state.taskId = some taskId)
    (hb : ∀ batch, c.next = .send batch → ∀ p ∈ batch, p.taskId = some taskId) {name : String}
    (hname : name ≠ WorkingMemory.key taskId) : redis'.get? name = redis.get? name := by
  unfold Writes at h
  split at h
  · rename_i batch runs hnext
    obtain ⟨tr, pool, hr, -, rfl⟩ := h
    refine WorkingMemory.get?_of_pool (fun p hp => ?_) hname hr
    obtain ⟨payload, run, hmem, rfl⟩ : ∃ payload run, payload ∈ batch ∧ branchWrites wm payload run = p := by
      obtain ⟨i, hi⟩ := List.mem_iff_getElem?.1 hp
      obtain ⟨payload, run, hpayload, -, heq⟩ := List.getElem?_zipWith_eq_some.1 hi
      exact ⟨payload, run, List.mem_of_getElem? hpayload, heq⟩
    exact only_forTask (hb batch hnext payload hmem) (WorkingMemory.only_save ..)
  · rw [h]
    exact (only_nodeWrites hs ht).get?_eval hname redis

/-- The two last nodes clear the hash of the task. -/
theorem Writes.get?_key {c c' : Config} {redis redis' : WorkingMemory.Redis} (h : Writes wm c e c' redis redis')
    (he : Ends e) (hs : c.state.taskId = some taskId) (hne : taskId ≠ "") :
    redis'.get? (WorkingMemory.key taskId) = none := by
  have hclear : nodeWrites wm c.state c'.state e = WorkingMemory.clear taskId := by
    rcases he with ⟨record, rfl⟩ | rfl
    · simp only [nodeWrites, forTask, hs, if_neg hne]
    · simp only [nodeWrites, forTask, hs, if_neg hne]
  unfold Writes at h
  split at h
  · rcases he with ⟨record, he⟩ | he
    · exact absurd he (by simp)
    · exact absurd he (by simp)
  · rw [h, hclear]
    exact WorkingMemory.get?_clear taskId redis

end Working

/-! ### Runs with their memories -/

section Runs

variable {cfg : Settings} {mem : Memories} {s : OrchestratorState} {redis : WorkingMemory.Redis} {k : Collection}
  {d d' : Deployment} {e : Event} {tr : List Event}

theorem Deployment.Step.fires (h : Deployment.Step cfg mem d e d') : Fires cfg d.config e d'.config := by
  obtain ⟨r, hr, -⟩ := h.graph
  exact fires_of_step hr

theorem exec_config (h : Exec (Deployment.Step cfg mem) d tr d') :
    Exec (AgentOrchestrator.Step cfg) d.config tr d'.config := by
  induction h with
  | refl => exact .refl
  | snoc _ hs ih => exact ih.snoc hs.fires.step

/-- What holds of a run that has started. -/
structure InProgress (s : OrchestratorState) (redis : WorkingMemory.Redis) (k : Collection) (d : Deployment) :
    Prop where
  started : d.config.next ≠ .node .intake
  identified : ∃ taskId userId, Identified s taskId userId d.config.state ∧
    ∀ name, name ≠ WorkingMemory.key taskId → d.redis.get? name = redis.get? name
  kept : d.config.next ≠ .finish → SameIds k d.collection

theorem identified_intake {uuid : String} (hu : uuid ≠ "") (memories : Option (List MemoryRecord)) :
    Identified s (orText s.taskId uuid) (orText s.userId "anonymous") (s.apply (intake uuid memories s)) where
  taskId_eq := rfl
  nonempty := orText_ne_empty hu
  given id hid hne := by
    rw [hid]
    exact if_neg hne
  userId_eq := rfl
  user := rfl

theorem Identified.congr {taskId userId : String} {t t' : OrchestratorState} (h : Identified s taskId userId t)
    (ht : t'.taskId = t.taskId) (hu : t'.userId = t.userId) : Identified s taskId userId t' where
  taskId_eq := ht.trans h.taskId_eq
  nonempty := h.nonempty
  given := h.given
  userId_eq := hu.trans h.userId_eq
  user := h.user

theorem Deployment.Step.intake (h : Deployment.Step cfg mem ⟨start s, redis, k⟩ e d) : InProgress s redis k d := by
  obtain rfl := h.fires.event_of_start
  obtain ⟨r, hr, hmem⟩ := h.graph
  obtain ⟨uuid, memories, hu, rfl⟩ := hmem.exists_uuid
  obtain ⟨-, hconfig⟩ := Prod.mk.inj (Except.ok.inj hr)
  have hid : Identified s (orText s.taskId uuid) (orText s.userId "anonymous") d.config.state := by
    rw [← hconfig]
    exact identified_intake hu _
  refine ⟨by simp [← hconfig], ⟨_, _, hid, fun name hname => ?_⟩, fun _ => hmem.sameIds (by simp)⟩
  exact h.working.get?_eq (fun hne => absurd rfl hne) hid.taskId_eq (fun batch hb => absurd hb (by simp [start])) hname

theorem InProgress.step (hu : InProgress s redis k d) (hat : At cfg d.config.state d.config.next)
    (h : Deployment.Step cfg mem d e d') : InProgress s redis k d' := by
  obtain ⟨taskId, userId, hid, hothers⟩ := hu.identified
  obtain ⟨htask, huser⟩ := hat.ids_eq h.fires hu.started
  have hid' := hid.congr htask huser
  refine ⟨hat.not_intake h.fires, ⟨taskId, userId, hid', fun name hname => ?_⟩, fun hn => ?_⟩
  · rw [← hothers name hname]
    refine h.working.get?_eq (fun _ => hid.taskId_eq) hid'.taskId_eq (fun batch hb p hp => ?_) hname
    rw [hb] at hat
    exact (hat.taskId_of_send p hp).trans hid.taskId_eq
  · have hkept := hu.kept h.fires.not_finished
    obtain ⟨r, -, hmem⟩ := h.graph
    have hids := hmem.sameIds fun record he => hn (h.fires.finish_of_ends (Or.inl ⟨record, he⟩))
    exact fun id => (hids id).trans (hkept id)

theorem inProgress_of_exec (h0 : Fresh s) (h : Exec (Deployment.Step cfg mem) ⟨start s, redis, k⟩ tr d) :
    d = ⟨start s, redis, k⟩ ∨ InProgress s redis k d := by
  refine h.invariant (fun _ d => d = ⟨start s, redis, k⟩ ∨ InProgress s redis k d) (Or.inl rfl) ?_
  intro tr t e u hr ih hs
  rcases ih with rfl | hu
  · exact Or.inr hs.intake
  · exact Or.inr (hu.step (at_of_exec h0 (exec_config hr)) hs)

theorem GainsOne.of_sameIds {userId : String} {k' k'' : Collection} (hk : SameIds k k') (h : GainsOne userId k' k'') :
    GainsOne userId k k'' := by
  obtain ⟨id, e, hfresh, he, hu, hothers⟩ := h
  refine ⟨id, e, ?_, he, hu, fun other hother => (hothers other hother).trans (hk other)⟩
  have hsome := hk id
  rw [hfresh] at hsome
  exact Option.isNone_iff_eq_none.1 (Option.isSome_eq_false_iff.1 hsome.symm)

theorem HasOutput.deliver {t : OrchestratorState} (h : HasOutput t e) (status : RunStatus) :
    HasOutput (t.apply { status := some status }) e := by
  cases h with
  | synthesis h => exact .synthesis h
  | takeOver ha h => exact .takeOver ha h

/-- The last step of a run, after `deliver`. -/
theorem outcome_of_deliver {userId : String} {record : Option MemoryRecord} (hid : d.config.state.userId = some userId)
    (hkept : SameIds k d.collection) (h : Deployment.Step cfg mem d (.deliver record) d')
    (hstate : d'.config.state = d.config.state.apply { status := some .completed }) {pre : List Event}
    (ho : HasOutput d.config.state e) : Outcome userId k (pre ++ [e] ++ [.deliver record]) d' := by
  obtain ⟨r, -, hmem⟩ := h.graph
  obtain ⟨added, rfl, hgains⟩ := hmem.exists_record
  obtain ⟨memory, u, hu⟩ := h.fires.exists_deliver
  have huser := userId_of_deliver hu
  rw [hid, Option.getD_some] at huser
  rw [huser] at hgains
  have htr : pre ++ [e] ++ [Event.deliver (some added)] = pre ++ [e, .deliver (some added)] := by simp
  refine .completed htr (by rw [hstate]; rfl) ?_ (hgains.of_sameIds hkept)
  rw [hstate]
  exact ho.deliver .completed

/-- A run from a fresh state that ends leaves a consistent outcome. -/
theorem consistent_of_finish (h0 : Fresh s) (h : Exec (Deployment.Step cfg mem) ⟨start s, redis, k⟩ tr d)
    (hend : d.config.next = .finish) : Consistent s redis k tr d := by
  have hquiet := (quiet_after_reject h0 (exec_config h)).1
  cases h with
  | refl => exact absurd hend (by simp [start])
  | @snoc tr t _ e hr hs =>
    have hgraph := exec_config hr
    have hat := at_of_exec h0 hgraph
    have hbefore := not_ends_of_exec hgraph hs.fires.not_finished
    have hfinish := hat.finishes hs.fires hend
    have hends : Ends e := by
      rcases hfinish with ⟨-, hrecord, -⟩ | ⟨-, he, -⟩
      · exact Or.inl hrecord
      · exact Or.inr he
    have hprogress : InProgress s redis k t := by
      rcases inProgress_of_exec h0 hr with rfl | hu
      · rcases hfinish with ⟨hn, -⟩ | ⟨hn, -⟩
        · exact absurd hn (by simp [start])
        · exact absurd hn (by simp [start])
      · exact hu
    have hkept := hprogress.kept hs.fires.not_finished
    obtain ⟨taskId, userId, hid, hothers⟩ := hprogress.identified
    obtain ⟨htask, huser⟩ := hat.ids_eq hs.fires hprogress.started
    obtain ⟨taskId', userId', hid', hothers'⟩ := (hprogress.step hat hs).identified
    obtain rfl : taskId' = taskId := by
      have heq := hid'.taskId_eq.symm.trans (htask.trans hid.taskId_eq)
      exact Option.some.inj heq
    obtain rfl : userId' = userId := hid'.user.trans hid.user.symm
    refine ⟨⟨tr, e, rfl, hends, hbefore⟩, ⟨taskId', userId', hid', ?_, ?_, fun other hother => ?_⟩, hquiet⟩
    · rcases hfinish with ⟨hn, ⟨record, rfl⟩, hstate⟩ | ⟨hn, rfl, hstate⟩
      · obtain ⟨pre, x, rfl, ho⟩ := hasOutput_of_exec h0 hgraph hn
        exact outcome_of_deliver hid.userId_eq hkept hs hstate ho
      · refine .rejected rfl (by rw [hstate]; rfl) ?_
        obtain ⟨r, -, hmem⟩ := hs.graph
        exact fun id => (hmem.sameIds (by simp) id).trans (hkept id)
    · exact WorkingMemory.getAll_eq_empty (hs.working.get?_key hends hid.taskId_eq hid.nonempty)
    · exact hothers' _ fun hkey => hother (WorkingMemory.key_injective hkey)

/-! ### A plan that is taken over -/

/-- A step that does not run a batch, with what it does to the long-term memory. -/
theorem exists_step (mem : Memories) {r : Reply} {c : Config} {k' : Collection} (hr : step cfg d.config r = .ok (e, c))
    (hk : Remembers mem.longTerm d.config.state r e d.collection k') (hb : ∀ runs, e ≠ .specialists runs) :
    ∃ d', Deployment.Step cfg mem d e d' ∧ d'.config = c ∧ d'.collection = k' := by
  refine ⟨⟨c, ((nodeWrites mem.working d.config.state c.state e).eval WorkingMemory.exec d.redis).2, k'⟩,
    ⟨⟨r, hr, hk⟩, ?_⟩, rfl, rfl⟩
  unfold Writes
  split
  · exact absurd rfl (hb _)
  · rfl

/-- A human hands in the output before any work is done. -/
theorem taken_over_consistent : ∃ tr d, Exec (Deployment.Step Settings.default ⟨{}, sampleMemory⟩)
    ⟨start sampleStart, ∅, ∅⟩ tr d ∧ d.config.next = .finish ∧ Consistent sampleStart ∅ ∅ tr d := by
  have hquery : (sampleMemory.query "Report" (some "anonymous") none fun _ => 0).Runs Executes ∅ [] ∅ :=
    Prog.runs_of_eval (executes_exec allNear) _ ∅
  obtain ⟨d₁, hintake, hc₁, hk₁⟩ := @exists_step Settings.default ⟨start sampleStart, ∅, ∅⟩ .intake ⟨{}, sampleMemory⟩
    (.intake "t" (some [])) _ ∅ rfl (.intake (by decide) hquery) (by simp)
  obtain ⟨r₂, hplan⟩ := step_sensitivePlan
  obtain ⟨d₂, hplanned, hc₂, hk₂⟩ := @exists_step Settings.default d₁ _ ⟨{}, sampleMemory⟩ r₂ _ d₁.collection
    (hc₁ ▸ hplan) (.other (by simp) (by simp)) (by simp)
  obtain ⟨escalation, he⟩ := escalate_sensitivePlanned
  obtain ⟨r₃, hask⟩ := (Fires.humanEscalation { action := .takeOver, output := some "Done." } he).step
  obtain ⟨d₃, hasked, hc₃, hk₃⟩ := @exists_step Settings.default d₂ _ ⟨{}, sampleMemory⟩ r₃ _ d₂.collection
    (hc₂ ▸ hask) (.other (by simp) (by simp)) (by simp)
  obtain ⟨r₄, htake⟩ := (@Fires.applyHumanDecision Settings.default d₃.config.state
    { action := .takeOver, output := some "Done." } .planSensitive { finalOutput := some "Done." } (.node .deliver)
    (by rw [hc₃]; rfl) (by rw [hc₃]; rfl) (by rw [hc₃]; rfl) (by rw [hc₃]; rfl)).step
  have hn₃ : ⟨d₃.config.state, .node .applyHumanDecision⟩ = d₃.config := by rw [hc₃]
  rw [hn₃] at htake
  obtain ⟨d₄, happlied, hc₄, hk₄⟩ := @exists_step Settings.default d₃ _ ⟨{}, sampleMemory⟩ r₄ _ d₃.collection
    htake (.other (by simp) (by simp)) (by simp)
  have hempty : d₄.collection = ∅ := hk₄.trans (hk₃.trans (hk₂.trans hk₁))
  have hplanned₄ : d₄.config.state.plan = some sensitivePlan := by
    rw [hc₄, hc₃]
    rfl
  let record := extract "m1" 0 ⟨"Asked a human.", [], [], ⟨1 / 2, half_isScore⟩⟩
    (d₄.config.state.userId.getD "anonymous") d₄.config.state.task d₄.config.state.completed
  have hdeliver : step Settings.default d₄.config (.memory (some ("m1", 0, ⟨"Asked a human.", [], [],
      ⟨1 / 2, half_isScore⟩⟩))) = .ok (.deliver (some record), ⟨d₄.config.state.apply { status := some .completed },
      .finish⟩) := by
    have hn₄ : d₄.config.next = .node .deliver := by rw [hc₄]
    simp only [step, hn₄, deliver, hplanned₄]
    rfl
  obtain ⟨d₅, hdelivered, hc₅, -⟩ := @exists_step Settings.default d₄ _ ⟨{}, sampleMemory⟩ _ _ _ hdeliver
    (.deliver (by rw [hempty]; rfl) (Prog.runs_of_eval (executes_exec allNear) (add record) d₄.collection)) (by simp)
  have hrun := ((((Exec.single hintake).snoc hplanned).snoc hasked).snoc happlied).snoc hdelivered
  exact ⟨_, d₅, hrun, by rw [hc₅], consistent_of_finish fresh_sampleStart hrun (by rw [hc₅])⟩

end Runs

end AgentOrchestrator
