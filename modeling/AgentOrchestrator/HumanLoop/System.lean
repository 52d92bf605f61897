import AgentOrchestrator.HumanLoop.ApprovalQueue
import AgentOrchestrator.Lib.Exec
import AgentOrchestrator.Schemas

/-!
# The runner, the reviewers and the queue

The runner of one task submits an escalation, polls for a decision, resumes the graph with it, and may come back with
the next escalation.  Meanwhile any number of reviewers read the queue and later resolve what they have read, and
messages are appended; every Redis command is one step, in any order.

The payloads are tagged, which the operations cannot notice.  An escalation carries the number of its submission, and
each read stamps it with the submission the runner is waiting on at that moment; a decision carries over both tags from
the record its reviewer has read.
-/

namespace AgentOrchestrator.ApprovalQueue

/-- A submitted escalation: its number, and what the runner was waiting on when the record was read. -/
structure Submitted where
  request : EscalationRequest
  submission : Nat
  readAt : Option Nat := none
deriving DecidableEq

/-- A decision: the number of the submission its reviewer has read, and what the runner was waiting on then. -/
structure Aimed where
  decision : HumanDecision
  submission : Nat
  readAt : Option Nat
deriving DecidableEq

abbrev Approval := PendingApproval Submitted Aimed

/-- Stamp a record that is read while the runner waits on `awaited`. -/
def stamp (awaited : Option Nat) (approval : Approval) : Approval :=
  { approval with escalation := { approval.escalation with readAt := awaited } }

/-- The response to a command, with the records in it stamped. -/
def observe (awaited : Option Nat) : (c : Command Submitted Aimed) → Response c → Response c
  | .hset _ _, r => r
  | .hget _, r => Option.map (stamp awaited) r
  | .hgetall, r => List.map (stamp awaited) r
  | .sadd _, r => r
  | .srem _, r => r
  | .smembers, r => r

/-- What the runner of the task is doing. -/
inductive Runner where
  | running
  | submitting (p : Program Submitted Aimed Unit)
  | waiting (p : Program Submitted Aimed (Option Aimed))

/-- A call by another process: a reviewer's reading, and what it has read once it is over; or an operation that
writes. -/
inductive Call where
  | reading (p : Program Submitted Aimed (List Approval))
  | writing (p : Program Submitted Aimed (Except QueueError Approval))

structure System where
  store : Store Submitted Aimed
  submitted : Nat := 0
  awaited : Option Nat := none
  runner : Runner := .running
  calls : List Call := []

/-- One command of a process. -/
def System.command (sys : System) (c : Command Submitted Aimed) : Response c × Store Submitted Aimed :=
  (observe sys.awaited c (exec c sys.store).1, (exec c sys.store).2)

/-- How a reviewer reads the queue. -/
inductive Look where
  | one (taskId : String)
  | pending
  | all

def Look.program : Look → Program Submitted Aimed (List Approval)
  | .one taskId => Option.toList <$> get taskId
  | .pending => listPending
  | .all => listAll

/-- What happens next.  `decide` lets the reviewer of a reading decide on one of the records in it. -/
inductive Action where
  | escalate (request : EscalationRequest) (source : String) (now : Nat)
  | runner
  | look (look : Look)
  | decide (reading record : Nat) (decision : HumanDecision) (now : Nat)
  | message (taskId : String) (message : ChatMessage)
  | proceed (call : Nat)

inductive Event where
  | submitted (submission : Nat)
  | resumed (submission : Nat) (decision : Aimed)
  | written (approval : Approval)
  | quiet

/-- The record of the next submission. -/
def System.record (sys : System) (taskId : String) (request : EscalationRequest) (source : String) (now : Nat) :
    Approval where
  taskId := taskId
  escalation := { request := request, submission := sys.submitted + 1 }
  source := source
  createdAt := now

/-- A decision on a record that was read. -/
def aim (approval : Approval) (decision : HumanDecision) : Aimed :=
  ⟨decision, approval.escalation.submission, approval.escalation.readAt⟩

/-- The command writes a record. -/
def writes : Command Submitted Aimed → Bool
  | .hset _ _ => true
  | _ => false

/-- The runner of `taskId` executes its next command or goes on to its next phase. -/
def stepRunner (taskId : String) (sys : System) : Except Unit (Event × System) :=
  match sys.runner with
  | .running => .error ()
  | .submitting (.ret _) => .ok (.quiet, { sys with runner := .waiting (pollDecision taskId) })
  | .submitting (.call c k) =>
    let (r, store) := sys.command c
    if writes c then
      .ok (.submitted (sys.submitted + 1),
        { sys with
          store := store
          runner := .submitting (k r)
          submitted := sys.submitted + 1
          awaited := some (sys.submitted + 1) })
    else
      .ok (.quiet, { sys with store := store, runner := .submitting (k r) })
  | .waiting (.call c k) =>
    let (r, store) := sys.command c
    .ok (.quiet, { sys with store := store, runner := .waiting (k r) })
  | .waiting (.ret none) => .ok (.quiet, { sys with runner := .waiting (pollDecision taskId) })
  | .waiting (.ret (some decision)) =>
    .ok (.resumed sys.submitted decision, { sys with runner := .running, awaited := none })

/-- A write to the entry of `taskId` leaves an event. -/
def eventOf (taskId : String) : Command Submitted Aimed → Event
  | .hset field value => if field = taskId then .written value else .quiet
  | _ => .quiet

def stepCall (taskId : String) (sys : System) (i : Nat) : Except Unit (Event × System) :=
  match sys.calls[i]? with
  | some (.reading (.call c k)) =>
    let (r, store) := sys.command c
    .ok (.quiet, { sys with store := store, calls := sys.calls.set i (.reading (k r)) })
  | some (.writing (.call c k)) =>
    let (r, store) := sys.command c
    .ok (eventOf taskId c, { sys with store := store, calls := sys.calls.set i (.writing (k r)) })
  | _ => .error ()

/-- One step of the system around the task `taskId`. -/
def step (taskId : String) (sys : System) : Action → Except Unit (Event × System)
  | .escalate request source now =>
    match sys.runner with
    | .running =>
      .ok (.quiet, { sys with runner := .submitting (submit (sys.record taskId request source now)) })
    | _ => .error ()
  | .runner => stepRunner taskId sys
  | .look look => .ok (.quiet, { sys with calls := sys.calls ++ [.reading look.program] })
  | .decide reading record decision now =>
    match sys.calls[reading]? with
    | some (.reading (.ret approvals)) =>
      match approvals[record]? with
      | some approval =>
        .ok (.quiet, { sys with
          calls := sys.calls ++ [.writing (resolve approval.taskId (aim approval decision) now)] })
      | none => .error ()
    | _ => .error ()
  | .message taskId' message =>
    .ok (.quiet, { sys with calls := sys.calls ++ [.writing (appendMessage taskId' message)] })
  | .proceed call => stepCall taskId sys call

def Step (taskId : String) (sys : System) (e : Event) (sys' : System) : Prop :=
  ∃ a, step taskId sys a = .ok (e, sys')

/-! ### Properties of all calls -/

theorem forall_calls_spawn {P : Call → Prop} {calls : List Call} {new : Call} (h : ∀ call ∈ calls, P call)
    (hnew : P new) : ∀ call ∈ calls ++ [new], P call := by
  intro call hcall
  rcases List.mem_append.1 hcall with hold | hlast
  · exact h call hold
  · exact List.mem_singleton.1 hlast ▸ hnew

theorem forall_calls_set {P : Call → Prop} {calls : List Call} {i : Nat} {new : Call} (h : ∀ call ∈ calls, P call)
    (hnew : P new) : ∀ call ∈ calls.set i new, P call := by
  intro call hcall
  rcases List.mem_or_eq_of_mem_set hcall with hold | rfl
  · exact h call hold
  · exact hnew

/-! ### What a step can do -/

/-- The steps of the system. -/
inductive Fires (taskId : String) (sys : System) : Event → System → Prop
  | escalate (request : EscalationRequest) (source : String) (now : Nat) (h : sys.runner = .running) :
      Fires taskId sys .quiet { sys with runner := .submitting (submit (sys.record taskId request source now)) }
  | submit {c : Command Submitted Aimed} {k : Response c → Program Submitted Aimed Unit}
      (h : sys.runner = .submitting (.call c k)) (hc : writes c = true) :
      Fires taskId sys (.submitted (sys.submitted + 1))
        { sys with
          store := (exec c sys.store).2
          runner := .submitting (k (sys.command c).1)
          submitted := sys.submitted + 1
          awaited := some (sys.submitted + 1) }
  | register {c : Command Submitted Aimed} {k : Response c → Program Submitted Aimed Unit}
      (h : sys.runner = .submitting (.call c k)) (hc : writes c = false) :
      Fires taskId sys .quiet
        { sys with store := (exec c sys.store).2, runner := .submitting (k (sys.command c).1) }
  | wait {a : Unit} (h : sys.runner = .submitting (.ret a)) :
      Fires taskId sys .quiet { sys with runner := .waiting (pollDecision taskId) }
  | poll {c : Command Submitted Aimed} {k : Response c → Program Submitted Aimed (Option Aimed)}
      (h : sys.runner = .waiting (.call c k)) :
      Fires taskId sys .quiet { sys with store := (exec c sys.store).2, runner := .waiting (k (sys.command c).1) }
  | again (h : sys.runner = .waiting (.ret none)) :
      Fires taskId sys .quiet { sys with runner := .waiting (pollDecision taskId) }
  | resume {decision : Aimed} (h : sys.runner = .waiting (.ret (some decision))) :
      Fires taskId sys (.resumed sys.submitted decision) { sys with runner := .running, awaited := none }
  | look (look : Look) :
      Fires taskId sys .quiet { sys with calls := sys.calls ++ [.reading look.program] }
  | decide {approvals : List Approval} {approval : Approval} (decision : HumanDecision) (now : Nat)
      (h : .reading (.ret approvals) ∈ sys.calls) (ha : approval ∈ approvals) :
      Fires taskId sys .quiet { sys with
        calls := sys.calls ++ [.writing (resolve approval.taskId (aim approval decision) now)] }
  | message (taskId' : String) (message : ChatMessage) :
      Fires taskId sys .quiet { sys with calls := sys.calls ++ [.writing (appendMessage taskId' message)] }
  | read {i : Nat} {c : Command Submitted Aimed} {k : Response c → Program Submitted Aimed (List Approval)}
      (h : .reading (.call c k) ∈ sys.calls) :
      Fires taskId sys .quiet
        { sys with store := (exec c sys.store).2, calls := sys.calls.set i (.reading (k (sys.command c).1)) }
  | write {i : Nat} {c : Command Submitted Aimed}
      {k : Response c → Program Submitted Aimed (Except QueueError Approval)} (h : .writing (.call c k) ∈ sys.calls) :
      Fires taskId sys (eventOf taskId c)
        { sys with store := (exec c sys.store).2, calls := sys.calls.set i (.writing (k (sys.command c).1)) }

private theorem fires_of_stepRunner {taskId : String} {sys sys' : System} {e : Event}
    (h : stepRunner taskId sys = .ok (e, sys')) : Fires taskId sys e sys' := by
  unfold stepRunner at h
  split at h
  · exact absurd h (by simp)
  · rename_i a hr
    obtain ⟨rfl, rfl⟩ := Prod.mk.inj (Except.ok.inj h)
    exact .wait hr
  · rename_i c k hr
    dsimp only at h
    split at h
    · rename_i hc
      obtain ⟨rfl, rfl⟩ := Prod.mk.inj (Except.ok.inj h)
      exact .submit hr hc
    · rename_i hc
      obtain ⟨rfl, rfl⟩ := Prod.mk.inj (Except.ok.inj h)
      exact .register hr (by simpa using hc)
  · rename_i c k hr
    obtain ⟨rfl, rfl⟩ := Prod.mk.inj (Except.ok.inj h)
    exact .poll hr
  · rename_i hr
    obtain ⟨rfl, rfl⟩ := Prod.mk.inj (Except.ok.inj h)
    exact .again hr
  · rename_i decision hr
    obtain ⟨rfl, rfl⟩ := Prod.mk.inj (Except.ok.inj h)
    exact .resume hr

private theorem fires_of_stepCall {taskId : String} {sys sys' : System} {i : Nat} {e : Event}
    (h : stepCall taskId sys i = .ok (e, sys')) : Fires taskId sys e sys' := by
  unfold stepCall at h
  split at h
  · rename_i c k hi
    obtain ⟨rfl, rfl⟩ := Prod.mk.inj (Except.ok.inj h)
    exact .read (List.mem_of_getElem? hi)
  · rename_i c k hi
    obtain ⟨rfl, rfl⟩ := Prod.mk.inj (Except.ok.inj h)
    exact .write (List.mem_of_getElem? hi)
  · exact absurd h (by simp)

/-- The inversion of `step`. -/
theorem Step.fires {taskId : String} {sys sys' : System} {e : Event} (h : Step taskId sys e sys') :
    Fires taskId sys e sys' := by
  obtain ⟨a, h⟩ := h
  unfold step at h
  split at h
  · rename_i request source now
    split at h
    · rename_i hr
      obtain ⟨rfl, rfl⟩ := Prod.mk.inj (Except.ok.inj h)
      exact .escalate request source now hr
    · exact absurd h (by simp)
  · exact fires_of_stepRunner h
  · rename_i look
    obtain ⟨rfl, rfl⟩ := Prod.mk.inj (Except.ok.inj h)
    exact .look look
  · rename_i decision now
    split at h
    · rename_i approvals hi
      split at h
      · rename_i approval hj
        obtain ⟨rfl, rfl⟩ := Prod.mk.inj (Except.ok.inj h)
        exact .decide decision now (List.mem_of_getElem? hi) (List.mem_of_getElem? hj)
      · exact absurd h (by simp)
    · exact absurd h (by simp)
  · rename_i taskId' message
    obtain ⟨rfl, rfl⟩ := Prod.mk.inj (Except.ok.inj h)
    exact .message taskId' message
  · exact fires_of_stepCall h

end AgentOrchestrator.ApprovalQueue
