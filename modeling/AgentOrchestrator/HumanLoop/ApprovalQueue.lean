import AgentOrchestrator.Lib.Dict
import AgentOrchestrator.Lib.Program

/-!
# The approval queue

Entries of the human approval queue, kept in Redis: a hash from task ids to records, and the set of pending ids.  Each
operation is a program over the Redis commands it issues; each command is atomic, the operations are not.

The queue never looks into an escalation or a decision, so a record has their types `ε` and `δ` as parameters.
-/

namespace AgentOrchestrator

inductive ApprovalStatus where
  | pending
  | resolved
  | notified
deriving DecidableEq, Repr

inductive ChatRole where
  | human
  | agent
deriving DecidableEq, Repr

structure ChatMessage where
  role : ChatRole
  content : String
  timestamp : Nat
deriving DecidableEq, Repr

/-- An entry of the queue; times are ticks of the clock. -/
structure PendingApproval (ε δ : Type) where
  taskId : String
  escalation : ε
  source : String
  status : ApprovalStatus := .pending
  decision : Option δ := none
  messages : List ChatMessage := []
  createdAt : Nat
  resolvedAt : Option Nat := none
deriving DecidableEq

/-- The exception of an operation on a task without an entry. -/
inductive QueueError where
  | keyError (message : String)
deriving DecidableEq, Repr

namespace ApprovalQueue

variable {ε δ : Type}

/-- The commands the queue issues, on the hash `approvals` and the set `approvals:pending`. -/
inductive Command (ε δ : Type) where
  | hset (field : String) (value : PendingApproval ε δ)
  | hget (field : String)
  | hgetall
  | sadd (member : String)
  | srem (member : String)
  | smembers

def Response : Command ε δ → Type
  | .hset _ _ => Unit
  | .hget _ => Option (PendingApproval ε δ)
  | .hgetall => List (PendingApproval ε δ)
  | .sadd _ => Unit
  | .srem _ => Unit
  | .smembers => List String

/-- What Redis holds. -/
structure Store (ε δ : Type) where
  approvals : Dict String (PendingApproval ε δ) := ∅
  pending : Dict String Unit := ∅

/-- One command, executed atomically. -/
def exec : (c : Command ε δ) → Store ε δ → Response c × Store ε δ
  | .hset field value, s => ((), { s with approvals := s.approvals.insert field value })
  | .hget field, s => (s.approvals.get? field, s)
  | .hgetall, s => (s.approvals.items.map Prod.snd, s)
  | .sadd member, s => ((), { s with pending := s.pending.insert member () })
  | .srem member, s => ((), { s with pending := s.pending.erase member })
  | .smembers, s => (s.pending.keys, s)

/-- A program of the queue. -/
abbrev Program (ε δ α : Type) := Prog (Command ε δ) Response α

def hset (field : String) (value : PendingApproval ε δ) : Program ε δ Unit := Prog.perform (Command.hset field value)

def hget (field : String) : Program ε δ (Option (PendingApproval ε δ)) := Prog.perform (Command.hget field)

def hgetall : Program ε δ (List (PendingApproval ε δ)) := Prog.perform Command.hgetall

def sadd (member : String) : Program ε δ Unit := Prog.perform (Command.sadd member)

def srem (member : String) : Program ε δ Unit := Prog.perform (Command.srem member)

def smembers : Program ε δ (List String) := Prog.perform Command.smembers

/-! ### The operations -/

def submit (approval : PendingApproval ε δ) : Program ε δ Unit := do
  hset approval.taskId approval
  sadd approval.taskId

def get (taskId : String) : Program ε δ (Option (PendingApproval ε δ)) := hget taskId

def listPending : Program ε δ (List (PendingApproval ε δ)) := do
  let ids ← smembers
  let approvals ← ids.mapM get
  return approvals.filterMap id

def listAll : Program ε δ (List (PendingApproval ε δ)) := hgetall

/-- The exception of `resolve` and `append_message`. -/
def noPendingApproval (taskId : String) : QueueError :=
  .keyError ("No pending approval for task '" ++ taskId ++ "'.")

/-- `now` is the time at which the decision is recorded. -/
def resolve (taskId : String) (decision : δ) (now : Nat) :
    Program ε δ (Except QueueError (PendingApproval ε δ)) := do
  match ← get taskId with
  | none => return .error (noPendingApproval taskId)
  | some approval =>
    let approval := { approval with
      decision := some decision
      status := .resolved
      resolvedAt := some now }
    hset taskId approval
    srem taskId
    return .ok approval

/-- An entry that nothing waits on; the times are those at which the record is filled in. -/
def notify (taskId : String) (escalation : ε) (createdAt resolvedAt : Nat) : Program ε δ (PendingApproval ε δ) := do
  let approval : PendingApproval ε δ := {
    taskId := taskId
    escalation := escalation
    source := "notify"
    status := .notified
    createdAt := createdAt
    resolvedAt := some resolvedAt }
  hset taskId approval
  return approval

def appendMessage (taskId : String) (message : ChatMessage) :
    Program ε δ (Except QueueError (PendingApproval ε δ)) := do
  match ← get taskId with
  | none => return .error (noPendingApproval taskId)
  | some approval =>
    let approval := { approval with messages := approval.messages ++ [message] }
    hset taskId approval
    return .ok approval

/-- One turn of the loop of `wait_for_decision`: the decision, or `none` to go on polling. -/
def pollDecision (taskId : String) : Program ε δ (Option δ) := do
  match ← get taskId with
  | none => return none
  | some approval => return if approval.status = .resolved then approval.decision else none

end ApprovalQueue

end AgentOrchestrator
