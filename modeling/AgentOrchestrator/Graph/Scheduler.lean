import AgentOrchestrator.Graph.Run
import AgentOrchestrator.Lib.Dependency

/-!
# What `decide_next_batch` answers

The loop of `decide_next_batch` sorts the subtasks that are not done into stuck, ready and waiting ones
(`mem_scan_stuck`, `mem_scan_ready`), and its answer is one of four (`decideNextBatch_cases`).  The final comparison of
lengths decides completeness as long as `completed` holds only ids of the plan.  When nothing is stuck or ready, the
plan is blocked in the sense of `Dependency.Blocked`.
-/

namespace AgentOrchestrator

open Dependency

def planIds (plan : ExecutionPlan) : List String := plan.subtasks.map (·.id)

/-- `d` is among the `depends_on` of the entry of `sid`; for a repeated id the last entry counts. -/
def DependsOn (plan : ExecutionPlan) (sid d : String) : Prop :=
  ∃ st, (byId plan).get? sid = some st ∧ d ∈ st.dependsOn

/-- The subtask failed and has used up its retries. -/
def Stuck (cfg : Settings) (completed : Dict String SubtaskResult) (retryCounts : Dict String Nat)
    (sid : String) : Prop :=
  ∃ result, completed.get? sid = some result ∧ result.success = false ∧
    cfg.maxSpecialistRetries ≤ ((retryCounts.get? sid).getD 0 : Nat)

/-- `sid` and all it depends on can be worked off. -/
abbrev PlanResolvable (plan : ExecutionPlan) : String → Prop := Resolvable (· ∈ planIds plan) (DependsOn plan)

/-- Every subtask that is not done depends on one that is not done. -/
abbrev PlanBlocked (plan : ExecutionPlan) (done : String → Prop) : Prop :=
  Blocked (· ∈ planIds plan) (DependsOn plan) done

/-- `sid` depends, transitively, on an id that is not in the plan or on a dependency cycle. -/
abbrev PlanHopeless (plan : ExecutionPlan) : String → Prop := Hopeless (· ∈ planIds plan) (DependsOn plan)

def AllDone (plan : ExecutionPlan) (completed : Dict String SubtaskResult) : Prop :=
  ∀ sid ∈ planIds plan, isDone completed sid = true

/-! ### The dictionary of subtasks -/

/-- The entry of an id is the last subtask of the plan with it. -/
theorem get?_byId (plan : ExecutionPlan) (sid : String) :
    (byId plan).get? sid = plan.subtasks.reverse.find? fun st => st.id = sid := by
  rw [byId, Dict.get?_ofList, ← List.map_reverse]
  induction plan.subtasks.reverse with
  | nil => rfl
  | cons st l ih =>
    rw [List.map_cons, List.lookup_cons, List.find?_cons, ih]
    by_cases h : st.id = sid
    · simp [h]
    · have hf : (sid == st.id) = false := beq_eq_false_iff_ne.2 (Ne.symm h)
      rw [hf]
      simp [h]

theorem mem_of_get?_byId {plan : ExecutionPlan} {sid : String} {st : SubTask}
    (h : (byId plan).get? sid = some st) : st ∈ plan.subtasks ∧ st.id = sid := by
  rw [get?_byId] at h
  exact ⟨List.mem_reverse.1 (List.mem_of_find?_eq_some h), by simpa using List.find?_some h⟩

theorem mem_keys_byId {plan : ExecutionPlan} {sid : String} : sid ∈ (byId plan).keys ↔ sid ∈ planIds plan := by
  rw [Dict.mem_keys_iff]
  constructor
  · rintro ⟨st, h⟩
    obtain ⟨hm, rfl⟩ := mem_of_get?_byId h
    exact List.mem_map.2 ⟨st, hm, rfl⟩
  · intro h
    apply Dict.exists_get?_ofList
    rwa [List.map_map]

/-- Without repeated ids the entry of a subtask is the subtask itself. -/
theorem get?_byId_of_nodup {plan : ExecutionPlan} (hn : (planIds plan).Nodup) {st : SubTask}
    (h : st ∈ plan.subtasks) : (byId plan).get? st.id = some st := by
  obtain ⟨st', h'⟩ := Dict.mem_keys_iff.1 (mem_keys_byId.2 (List.mem_map.2 ⟨st, h, rfl⟩))
  obtain ⟨hm, hid⟩ := mem_of_get?_byId h'
  rw [h', List.inj_on_of_nodup_map hn hm h hid]

/-- The list `stuck` of `decide_next_batch`. -/
def stuckOf (cfg : Settings) (s : OrchestratorState) : List String :=
  match s.plan with
  | some plan => (scan cfg plan s.completed s.retryCounts).stuck
  | none => []

theorem stuckOf_eq {cfg : Settings} {plan : ExecutionPlan} {s : OrchestratorState} (hp : s.plan = some plan) :
    stuckOf cfg s = (scan cfg plan s.completed s.retryCounts).stuck := by
  unfold stuckOf
  rw [hp]

theorem planIds_finite (plan : ExecutionPlan) : {sid | sid ∈ planIds plan}.Finite :=
  List.finite_toSet (planIds plan)

/-! ### The loop -/

theorem isDone_iff {completed : Dict String SubtaskResult} {sid : String} :
    isDone completed sid = true ↔ ∃ result, completed.get? sid = some result ∧ result.success = true := by
  unfold isDone
  split
  · rename_i result h
    simp [h]
  · rename_i h
    simp [h]

theorem not_isDone_of_stuck {cfg : Settings} {completed : Dict String SubtaskResult} {retryCounts : Dict String Nat}
    {sid : String} (h : Stuck cfg completed retryCounts sid) : ¬ isDone completed sid = true := by
  obtain ⟨result, hr, hs, -⟩ := h
  rw [isDone_iff]
  rintro ⟨result', hr', hs'⟩
  obtain rfl := Option.some.inj (hr.symm.trans hr')
  exact absurd (hs.symm.trans hs') (by simp)

/-- One turn of the loop, by the state of the subtask. -/
private theorem scanSubtask_cases (cfg : Settings) (completed : Dict String SubtaskResult)
    (retryCounts : Dict String Nat) (acc : Scan) (sid : String) (st : SubTask) :
    (Stuck cfg completed retryCounts sid ∧
      scanSubtask cfg completed retryCounts acc (sid, st) = { acc with stuck := acc.stuck ++ [sid] }) ∨
    ((¬ isDone completed sid = true ∧ ¬ Stuck cfg completed retryCounts sid ∧ depsDone completed st = true) ∧
      scanSubtask cfg completed retryCounts acc (sid, st) = { acc with ready := acc.ready ++ [sid] }) ∨
    ((isDone completed sid = true ∨ ¬ Stuck cfg completed retryCounts sid ∧ ¬ depsDone completed st = true) ∧
      scanSubtask cfg completed retryCounts acc (sid, st) = acc) := by
  unfold scanSubtask
  dsimp only
  rcases h : completed.get? sid with _ | result
  · have hd : ¬ isDone completed sid = true := by simp [isDone, h]
    have hs : ¬ Stuck cfg completed retryCounts sid := by simp [Stuck, h]
    by_cases hdeps : depsDone completed st = true
    · right; left
      exact ⟨⟨hd, hs, hdeps⟩, by simp [hdeps]⟩
    · right; right
      exact ⟨Or.inr ⟨hs, hdeps⟩, by simp [hdeps]⟩
  · by_cases hr : result.success = true
    · right; right
      exact ⟨Or.inl (by simp [isDone, h, hr]), by simp [hr]⟩
    · have hd : ¬ isDone completed sid = true := by simp [isDone, h, hr]
      by_cases hmax : cfg.maxSpecialistRetries ≤ ((retryCounts.get? sid).getD 0 : Nat)
      · left
        exact ⟨⟨result, h, by simpa using hr, hmax⟩, by simp [hr, hmax]⟩
      · have hs : ¬ Stuck cfg completed retryCounts sid := by
          rintro ⟨_, _, _, h'⟩
          exact hmax h'
        by_cases hdeps : depsDone completed st = true
        · right; left
          exact ⟨⟨hd, hs, hdeps⟩, by simp [hr, hmax, hdeps]⟩
        · right; right
          exact ⟨Or.inr ⟨hs, hdeps⟩, by simp [hr, hmax, hdeps]⟩

private theorem foldl_scanSubtask (cfg : Settings) (completed : Dict String SubtaskResult)
    (retryCounts : Dict String Nat) (l : List (String × SubTask)) (acc : Scan) (sid : String) :
    (sid ∈ (l.foldl (scanSubtask cfg completed retryCounts) acc).stuck ↔
      sid ∈ acc.stuck ∨ (∃ st, (sid, st) ∈ l) ∧ Stuck cfg completed retryCounts sid) ∧
    (sid ∈ (l.foldl (scanSubtask cfg completed retryCounts) acc).ready ↔
      sid ∈ acc.ready ∨ ∃ st, (sid, st) ∈ l ∧ ¬ isDone completed sid = true ∧
        ¬ Stuck cfg completed retryCounts sid ∧ depsDone completed st = true) := by
  induction l generalizing acc with
  | nil => simp
  | cons e l ih =>
    obtain ⟨a, st⟩ := e
    obtain ⟨ih1, ih2⟩ := ih (scanSubtask cfg completed retryCounts acc (a, st))
    rw [List.foldl_cons, ih1, ih2]
    simp only [List.mem_cons, Prod.mk.injEq]
    rcases scanSubtask_cases cfg completed retryCounts acc a st with ⟨hs, he⟩ | ⟨⟨hd, hs, hdeps⟩, he⟩ | ⟨hs, he⟩
    all_goals rw [he]
    · have hd := not_isDone_of_stuck hs
      constructor
      · simp only [List.mem_append, List.mem_singleton]
        grind
      · grind
    · constructor
      · grind
      · simp only [List.mem_append, List.mem_singleton]
        grind
    · constructor
      · have : isDone completed a = true → ¬ Stuck cfg completed retryCounts a :=
          fun h h' => not_isDone_of_stuck h' h
        grind
      · grind

theorem mem_scan_stuck {cfg : Settings} {plan : ExecutionPlan} {completed : Dict String SubtaskResult}
    {retryCounts : Dict String Nat} {sid : String} :
    sid ∈ (scan cfg plan completed retryCounts).stuck ↔
      sid ∈ planIds plan ∧ Stuck cfg completed retryCounts sid := by
  rw [scan, (foldl_scanSubtask cfg completed retryCounts _ _ sid).1, ← mem_keys_byId, Dict.mem_keys_iff]
  simp [Dict.mem_items_iff]

theorem depsDone_iff {plan : ExecutionPlan} {completed : Dict String SubtaskResult} {sid : String} {st : SubTask}
    (h : (byId plan).get? sid = some st) :
    depsDone completed st = true ↔ ∀ d, DependsOn plan sid d → isDone completed d = true := by
  unfold depsDone DependsOn
  rw [List.all_eq_true]
  constructor
  · rintro hall d ⟨st', h', hd⟩
    obtain rfl := Option.some.inj (h.symm.trans h')
    exact hall d hd
  · intro hall d hd
    exact hall d ⟨st, h, hd⟩

private theorem ready_sublist (cfg : Settings) (completed : Dict String SubtaskResult) (retryCounts : Dict String Nat)
    (l : List (String × SubTask)) (acc : Scan) :
    (l.foldl (scanSubtask cfg completed retryCounts) acc).ready.Sublist (acc.ready ++ l.map Prod.fst) := by
  induction l generalizing acc with
  | nil => simp
  | cons e l ih =>
    obtain ⟨sid, st⟩ := e
    have hrest := ih (scanSubtask cfg completed retryCounts acc (sid, st))
    rw [List.foldl_cons, List.map_cons]
    rcases scanSubtask_cases cfg completed retryCounts acc sid st with ⟨-, he⟩ | ⟨-, he⟩ | ⟨-, he⟩
    · rw [he] at hrest ⊢
      exact hrest.trans (List.Sublist.append_left (List.sublist_cons_self _ _) _)
    · rw [he] at hrest ⊢
      simpa using hrest
    · rw [he] at hrest ⊢
      exact hrest.trans (List.Sublist.append_left (List.sublist_cons_self _ _) _)

/-- No id is dispatched twice in one batch. -/
theorem nodup_scan_ready (cfg : Settings) (plan : ExecutionPlan) (completed : Dict String SubtaskResult)
    (retryCounts : Dict String Nat) : (scan cfg plan completed retryCounts).ready.Nodup := by
  have hsub := ready_sublist cfg completed retryCounts (byId plan).items {}
  exact List.Nodup.sublist hsub (byId plan).nodup

theorem mem_scan_ready {cfg : Settings} {plan : ExecutionPlan} {completed : Dict String SubtaskResult}
    {retryCounts : Dict String Nat} {sid : String} :
    sid ∈ (scan cfg plan completed retryCounts).ready ↔
      sid ∈ planIds plan ∧ ¬ isDone completed sid = true ∧ ¬ Stuck cfg completed retryCounts sid ∧
        ∀ d, DependsOn plan sid d → isDone completed d = true := by
  rw [scan, (foldl_scanSubtask cfg completed retryCounts _ _ sid).2, ← mem_keys_byId, Dict.mem_keys_iff]
  simp only [List.not_mem_nil, false_or, Dict.mem_items_iff]
  constructor
  · rintro ⟨st, h, hd, hs, hdeps⟩
    exact ⟨⟨st, h⟩, hd, hs, (depsDone_iff h).1 hdeps⟩
  · rintro ⟨⟨st, h⟩, hd, hs, hdeps⟩
    exact ⟨st, h, hd, hs, (depsDone_iff h).2 hdeps⟩

/-! ### The answer -/

/-- The payload handed to the branch of `sid`. -/
def sendPayload (plan : ExecutionPlan) (s : OrchestratorState) (sid : String) : SendPayload where
  plan := plan
  completed := s.completed
  retryCounts := s.retryCounts
  subtaskFeedback := s.subtaskFeedback
  subtaskId := sid
  taskId := s.taskId

/-- Nothing stuck and nothing ready: the plan is blocked. -/
theorem planBlocked_of_scan {cfg : Settings} {plan : ExecutionPlan} {completed : Dict String SubtaskResult}
    {retryCounts : Dict String Nat} (hs : (scan cfg plan completed retryCounts).stuck = [])
    (hr : (scan cfg plan completed retryCounts).ready = []) :
    PlanBlocked plan fun sid => isDone completed sid = true := by
  intro sid hk hd
  by_contra hno
  simp only [not_exists, not_and, not_not] at hno
  have hstuck : ¬ Stuck cfg completed retryCounts sid := by
    intro h
    have := mem_scan_stuck.2 ⟨hk, h⟩
    rw [hs] at this
    exact absurd this List.not_mem_nil
  have := mem_scan_ready.2 ⟨hk, hd, hstuck, hno⟩
  rw [hr] at this
  exact absurd this List.not_mem_nil

/-- The completeness test at the end of `decide_next_batch`, for a `completed` with ids of the plan only. -/
private theorem unfinished_iff {plan : ExecutionPlan} {completed : Dict String SubtaskResult}
    (hk : ∀ sid r, completed.get? sid = some r → sid ∈ planIds plan) :
    ((completed.items.filter fun e => !e.2.success) ≠ [] ∨ completed.length < (byId plan).length) ↔
      ¬ AllDone plan completed := by
  have hsub : completed.keys ⊆ (byId plan).keys := by
    intro sid hs
    obtain ⟨r, hr⟩ := Dict.mem_keys_iff.1 hs
    exact mem_keys_byId.2 (hk sid r hr)
  constructor
  · rintro (h | h) hall
    · obtain ⟨⟨sid, r⟩, he⟩ := List.exists_mem_of_ne_nil _ h
      rw [List.mem_filter, Dict.mem_items_iff] at he
      obtain ⟨r', hr', hs⟩ := isDone_iff.1 (hall sid (hk sid r he.1))
      obtain rfl := Option.some.inj (he.1.symm.trans hr')
      simp [hs] at he
    · have hle : (byId plan).length ≤ completed.length := by
        apply Dict.length_le_of_keys_subset
        intro sid hs
        obtain ⟨r, hr, -⟩ := isDone_iff.1 (hall sid (mem_keys_byId.1 hs))
        exact Dict.mem_keys_iff.2 ⟨r, hr⟩
      omega
  · intro hno
    by_contra hcon
    simp only [not_or, not_not, Nat.not_lt] at hcon
    apply hno
    intro sid hs
    obtain ⟨r, hr⟩ := Dict.mem_keys_iff.1 (Dict.keys_subset_of_length_le hsub hcon.2 (mem_keys_byId.2 hs))
    refine isDone_iff.2 ⟨r, hr, ?_⟩
    by_contra hr'
    have : (sid, r) ∈ completed.items.filter fun e => !e.2.success :=
      List.mem_filter.2 ⟨Dict.mem_items_iff.2 hr, by simpa using hr'⟩
    rw [hcon.1] at this
    exact absurd this List.not_mem_nil

/-- The four answers of `decide_next_batch`. -/
inductive Decides (cfg : Settings) (plan : ExecutionPlan) (s : OrchestratorState) : Next → Prop
  | stuck (h : (scan cfg plan s.completed s.retryCounts).stuck ≠ []) : Decides cfg plan s (.node .humanEscalation)
  | batch (h : (scan cfg plan s.completed s.retryCounts).stuck = [])
      (hr : (scan cfg plan s.completed s.retryCounts).ready ≠ []) :
      Decides cfg plan s (.send ((scan cfg plan s.completed s.retryCounts).ready.map (sendPayload plan s)))
  | blocked (h : (scan cfg plan s.completed s.retryCounts).stuck = [])
      (hb : PlanBlocked plan fun sid => isDone s.completed sid = true) (hd : ¬ AllDone plan s.completed) :
      Decides cfg plan s (.node .humanEscalation)
  | review (hd : AllDone plan s.completed) : Decides cfg plan s (.node .review)

/-- The code of `decide_next_batch` after the plan has been read. -/
private theorem decideNextBatch_eq {cfg : Settings} {plan : ExecutionPlan} {s : OrchestratorState}
    (hp : s.plan = some plan) :
    decideNextBatch cfg s =
      if (scan cfg plan s.completed s.retryCounts).stuck ≠ [] then .ok (.node .humanEscalation)
      else if (scan cfg plan s.completed s.retryCounts).ready ≠ [] then
        .ok (.send ((scan cfg plan s.completed s.retryCounts).ready.map (sendPayload plan s)))
      else if (s.completed.items.filter fun e => !e.2.success) ≠ [] ∨ s.completed.length < (byId plan).length then
        .ok (.node .humanEscalation)
      else .ok (.node .review) := by
  unfold decideNextBatch
  rw [hp]
  rfl

/-- `decide_next_batch` always answers, and its answer is one of the four. -/
theorem decideNextBatch_cases {cfg : Settings} {plan : ExecutionPlan} {s : OrchestratorState}
    (hp : s.plan = some plan) (hk : ∀ sid r, s.completed.get? sid = some r → sid ∈ planIds plan) :
    ∃ n, decideNextBatch cfg s = .ok n ∧ Decides cfg plan s n := by
  rw [decideNextBatch_eq hp]
  split
  · rename_i h
    exact ⟨_, rfl, .stuck h⟩
  · rename_i h
    have h' := not_not.1 h
    split
    · rename_i hr
      exact ⟨_, rfl, .batch h' hr⟩
    · rename_i hr
      split
      · rename_i hu
        exact ⟨_, rfl, .blocked h' (planBlocked_of_scan h' (not_not.1 hr)) ((unfinished_iff hk).1 hu)⟩
      · rename_i hu
        exact ⟨_, rfl, .review (not_not.1 fun hd => hu ((unfinished_iff hk).2 hd))⟩

/-- A batch has the ready ids, each with the channels as they are when it is dispatched. -/
theorem eq_ready_of_send {cfg : Settings} {s : OrchestratorState} {batch : List SendPayload}
    (h : decideNextBatch cfg s = .ok (.send batch)) : ∃ plan, s.plan = some plan ∧
      batch = (scan cfg plan s.completed s.retryCounts).ready.map (sendPayload plan s) := by
  cases hp : s.plan with
  | none =>
    unfold decideNextBatch at h
    rw [hp] at h
    exact absurd h (by simp [require, bind, Except.bind])
  | some plan =>
    refine ⟨plan, rfl, ?_⟩
    rw [decideNextBatch_eq hp] at h
    split at h
    · exact absurd h (by simp)
    · split at h
      · exact (Next.send.inj (Except.ok.inj h)).symm
      · split at h
        · exact absurd h (by simp)
        · exact absurd h (by simp)

/-- A batch has ids of the plan. -/
theorem exists_ready_of_send {cfg : Settings} {s : OrchestratorState} {batch : List SendPayload}
    (h : decideNextBatch cfg s = .ok (.send batch)) : ∃ (plan : ExecutionPlan) (ready : List String),
      s.plan = some plan ∧ batch = ready.map (sendPayload plan s) ∧ ∀ sid ∈ ready, sid ∈ planIds plan := by
  obtain ⟨plan, hp, rfl⟩ := eq_ready_of_send h
  exact ⟨plan, _, hp, rfl, fun sid hsid => (mem_scan_ready.1 hsid).1⟩

/-- The branches of a batch have different ids, also if the plan repeats one. -/
theorem nodup_ids_of_ready (cfg : Settings) (plan : ExecutionPlan) (s : OrchestratorState) :
    (((scan cfg plan s.completed s.retryCounts).ready.map (sendPayload plan s)).map (·.subtaskId)).Nodup := by
  rw [List.map_map]
  simpa [Function.comp_def, sendPayload] using nodup_scan_ready cfg plan s.completed s.retryCounts

theorem decides_of_eq {cfg : Settings} {plan : ExecutionPlan} {s : OrchestratorState} {n : Next}
    (hp : s.plan = some plan) (hk : ∀ sid r, s.completed.get? sid = some r → sid ∈ planIds plan)
    (h : decideNextBatch cfg s = .ok n) : Decides cfg plan s n := by
  obtain ⟨n', h', hd⟩ := @decideNextBatch_cases cfg plan s hp hk
  obtain rfl := Except.ok.inj (h.symm.trans h')
  exact hd

end AgentOrchestrator
