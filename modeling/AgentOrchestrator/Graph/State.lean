import AgentOrchestrator.Schemas
import Mathlib.Tactic.Simps.Basic

/-!
# The state of the graph

`OrchestratorState` holds the channels of the graph and `Update` what a node returns.  `OrchestratorState.apply` writes
an update into the channels: `completed`, `retry_counts` and `subtask_feedback` through the reducer
`mergeOptionalDict`, in which `None` deletes an entry, every other channel by overwriting it.
-/

namespace AgentOrchestrator

/-- `_merge_optional_dict`: the entries of `right` are written into `left`, a `None` deletes. -/
def mergeOptionalDict {κ ν : Type} [DecidableEq κ] (left : Dict κ ν) (right : Dict κ (Option ν)) : Dict κ ν :=
  right.items.foldl
    (fun merged e =>
      match e.2 with
      | none => merged.erase e.1
      | some value => merged.insert e.1 value)
    left

private theorem get?_foldl_merge {κ ν : Type} [DecidableEq κ] (l : List (κ × Option ν))
    (hl : (l.map Prod.fst).Nodup) (left : Dict κ ν) (k : κ) :
    (l.foldl
      (fun merged e =>
        match e.2 with
        | none => merged.erase e.1
        | some value => merged.insert e.1 value)
      left).get? k = (l.lookup k).getD (left.get? k) := by
  induction l generalizing left with
  | nil => rfl
  | cons e l ih =>
    obtain ⟨a, v⟩ := e
    rw [List.map_cons, List.nodup_cons] at hl
    rw [List.foldl_cons, ih hl.2, List.lookup_cons]
    by_cases hk : k = a
    · -- the key of the first entry does not occur again
      subst hk
      have hnone : l.lookup k = none := by
        rw [List.lookup_eq_none_iff]
        intro p hp
        have : k ≠ p.1 := fun h => hl.1 (List.mem_map.2 ⟨p, hp, h.symm⟩)
        simpa using this
      rw [hnone, beq_self_eq_true]
      rcases v with _ | v
      · simp [Dict.get?_erase]
      · simp [Dict.get?_insert]
    · rw [beq_eq_false_iff_ne.2 hk]
      rcases v with _ | v
      · simp [Dict.get?_erase, hk]
      · simp [Dict.get?_insert, hk]

/-- Reading after a merge: an entry of the update counts, and otherwise the old entry. -/
@[simp] theorem get?_mergeOptionalDict {κ ν : Type} [DecidableEq κ] (left : Dict κ ν) (right : Dict κ (Option ν))
    (k : κ) : (mergeOptionalDict left right).get? k = (right.get? k).getD (left.get? k) :=
  get?_foldl_merge right.items right.nodup left k

/-- Writing, or deleting, the same way under all keys of a list. -/
theorem get?_merge_ofKeys {κ ν : Type} [DecidableEq κ] (left : Dict κ ν) (ks : List κ) (f : κ → Option ν) (k : κ) :
    (mergeOptionalDict left (Dict.ofKeys ks f)).get? k = if k ∈ ks then f k else left.get? k := by
  rw [get?_mergeOptionalDict, Dict.get?_ofKeys]
  split <;> rfl

@[simp] theorem mergeOptionalDict_empty {κ ν : Type} [DecidableEq κ] (left : Dict κ ν) :
    mergeOptionalDict left ∅ = left := rfl

inductive RunStatus where
  | completed
  | rejected
deriving DecidableEq, Repr

/-- The channels of the graph; an optional channel is `none` until it is first written. -/
structure OrchestratorState where
  task : String
  userId : Option String := none
  taskId : Option String := none
  memoryContext : Option String := none
  requireHumanApproval : Bool := false
  plan : Option ExecutionPlan := none
  completed : Dict String SubtaskResult := ∅
  retryCounts : Dict String Nat := ∅
  subtaskFeedback : Dict String String := ∅
  review : Option ReviewResult := none
  reviewCycles : Nat := 0
  status : Option RunStatus := none
  escalation : Option EscalationRequest := none
  escalationSource : Option EscalationSource := none
  humanDecision : Option HumanDecision := none
  finalOutput : Option String := none
deriving DecidableEq

/-- What a node returns: the channels it writes. -/
structure Update where
  userId : Option String := none
  taskId : Option String := none
  memoryContext : Option String := none
  plan : Option ExecutionPlan := none
  completed : Dict String (Option SubtaskResult) := ∅
  retryCounts : Dict String (Option Nat) := ∅
  subtaskFeedback : Dict String (Option String) := ∅
  review : Option ReviewResult := none
  reviewCycles : Option Nat := none
  status : Option RunStatus := none
  escalation : Option EscalationRequest := none
  escalationSource : Option EscalationSource := none
  humanDecision : Option HumanDecision := none
  finalOutput : Option String := none

/-- Write an update into the channels.  Merging `∅` is the same as not writing the channel. -/
@[simps]
def OrchestratorState.apply (s : OrchestratorState) (u : Update) : OrchestratorState where
  task := s.task
  userId := u.userId.or s.userId
  taskId := u.taskId.or s.taskId
  memoryContext := u.memoryContext.or s.memoryContext
  requireHumanApproval := s.requireHumanApproval
  plan := u.plan.or s.plan
  completed := mergeOptionalDict s.completed u.completed
  retryCounts := mergeOptionalDict s.retryCounts u.retryCounts
  subtaskFeedback := mergeOptionalDict s.subtaskFeedback u.subtaskFeedback
  review := u.review.or s.review
  reviewCycles := u.reviewCycles.getD s.reviewCycles
  status := u.status.or s.status
  escalation := u.escalation.or s.escalation
  escalationSource := u.escalationSource.or s.escalationSource
  humanDecision := u.humanDecision.or s.humanDecision
  finalOutput := u.finalOutput.or s.finalOutput

/-- A fresh initial state: the task and what the caller passes along, and nothing in the channels of the run. -/
structure Fresh (s : OrchestratorState) : Prop where
  completed : s.completed = ∅
  retryCounts : s.retryCounts = ∅
  subtaskFeedback : s.subtaskFeedback = ∅
  review : s.review = none

end AgentOrchestrator
