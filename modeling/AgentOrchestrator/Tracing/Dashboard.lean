import AgentOrchestrator.Lib.Grouping
import AgentOrchestrator.Tracing.Fleet
import Mathlib.Algebra.Order.Floor.Ring
import Mathlib.Data.Prod.Lex
import Mathlib.Data.Rat.Floor

/-!
# The dashboards

The queries of the store behind the trace explorer and the analytics pages.  Each aggregates one of the two tables on
its own: the costs by type and the escalations by day read the rows of the finished tasks, the agents and the tools read
the spans.  After any interleaving of runs they still agree: what they say of the same thing differs by what the
unfinished tasks have in the spans and in no row yet (`dashboards_reconcile`).

Costs are rationals here, so that a sum does not depend on how it is grouped; a sum of floats does in its last digits.
-/

namespace AgentOrchestrator

/-! ### The queries -/

structure TaskTypeCost where
  taskType : String
  taskCount : Nat
  totalCostUsd : ℚ
  avgCostUsd : ℚ

structure AgentCost where
  agent : String
  callCount : Nat
  totalCostUsd : ℚ
  totalInputTokens : Nat
  totalOutputTokens : Nat
  avgLatencyMs : ℚ

structure ToolUsagePattern where
  toolName : String
  callCount : Nat
  successCount : Nat
  avgLatencyMs : ℚ
  successRate : ℚ

/-- `day` is the number of days since the epoch. -/
structure EscalationTrend where
  day : Int
  taskCount : Nat
  escalatedCount : Nat
  escalationRate : ℚ

/-- `AVG`. -/
def average (values : List ℚ) : ℚ := values.sum / values.length

/-- A rate in Python, with the test against an empty group. -/
def rate (part whole : Nat) : ℚ := if whole = 0 then 0 else part / whole

/-- The rate of a part of a group. -/
theorem rate_spec {part whole : Nat} (h : part ≤ whole) (hw : whole ≠ 0) :
    rate part whole * whole = part ∧ 0 ≤ rate part whole ∧ rate part whole ≤ 1 := by
  have hpos : (0 : ℚ) < whole := by exact_mod_cast Nat.pos_of_ne_zero hw
  have hle : (part : ℚ) ≤ whole := by exact_mod_cast h
  unfold rate
  rw [if_neg hw]
  exact ⟨div_mul_cancel₀ _ hpos.ne', by positivity, (div_le_one hpos).2 hle⟩

namespace TraceStore

variable (store : TraceStore)

/-- `WHERE status != 'running'`. -/
def finished : List (String × TaskRecord) := store.tasks.items.filter fun e => e.2.status ≠ .running

/-- `GROUP BY` takes the column, where a missing type is a group of its own. -/
def costByTaskType : List TaskTypeCost :=
  orderBy (·.totalCostUsd) ((groupBy (·.taskType) (store.finished.map Prod.snd)).map fun g => {
    taskType := g.1.getD "unknown"
    taskCount := g.2.length
    totalCostUsd := (g.2.map (·.totalCostUsd)).sum
    avgCostUsd := average (g.2.map (·.totalCostUsd)) })

def mostExpensiveAgents (limit : Int) : List AgentCost :=
  limited limit (orderBy (·.totalCostUsd) ((groupBy (·.agent) store.spans).map fun g => {
    agent := g.1
    callCount := g.2.length
    totalCostUsd := (g.2.map (·.costUsd)).sum
    totalInputTokens := (g.2.map (·.inputTokens)).sum
    totalOutputTokens := (g.2.map (·.outputTokens)).sum
    avgLatencyMs := average (g.2.map (·.latencyMs)) }))

def toolUsagePatterns : List ToolUsagePattern :=
  orderBy (·.callCount) ((groupBy (·.toolName) (store.spans.filter (·.toolName.isSome))).map fun g => {
    toolName := g.1.getD ""
    callCount := g.2.length
    successCount := g.2.countP fun span => span.status = .success
    avgLatencyMs := average (g.2.map (·.latencyMs))
    successRate := rate (g.2.countP fun span => span.status = .success) g.2.length })

/-- `date(started_at, 'unixepoch')`, without its rounding to the millisecond. -/
def dayOf (row : TaskRecord) : Int := ⌊row.startedAt / 86400⌋

def escalationRateTrends : List EscalationTrend :=
  orderBy (fun trend => OrderDual.toDual trend.day) ((groupBy dayOf (store.finished.map Prod.snd)).map fun g => {
    day := g.1
    taskCount := g.2.length
    escalatedCount := g.2.countP fun row => 0 < row.escalationCount
    escalationRate := rate (g.2.countP fun row => 0 < row.escalationCount) g.2.length })

/-! ### Finished and unfinished tasks -/

/-- The row of the task is closed. -/
def isFinished (taskId : String) : Bool := (store.getTask taskId).any fun row => row.status ≠ .running

/-- The spans that no row has been totalled over yet. -/
def unfinishedSpans : List SpanRecord := store.spans.filter fun span => !store.isFinished span.taskId

theorem mem_finished {taskId : String} {row : TaskRecord} :
    (taskId, row) ∈ store.finished ↔ store.getTask taskId = some row ∧ row.status ≠ .running := by
  unfold finished getTask
  rw [List.mem_filter, Dict.mem_items_iff]
  simp

theorem mem_keys_finished {taskId : String} : taskId ∈ store.finished.map Prod.fst ↔ store.isFinished taskId = true := by
  unfold isFinished
  rw [List.mem_map]
  constructor
  · rintro ⟨⟨taskId, row⟩, hmem, rfl⟩
    obtain ⟨hrow, hstatus⟩ := (store.mem_finished).1 hmem
    rw [hrow]
    simpa using hstatus
  · intro h
    obtain ⟨row, hrow, hstatus⟩ := (Option.any_eq_true ..).1 h
    exact ⟨(taskId, row), (store.mem_finished).2 ⟨hrow, by simpa using hstatus⟩, rfl⟩

theorem nodup_keys_finished : (store.finished.map Prod.fst).Nodup :=
  (List.filter_sublist.map Prod.fst).nodup store.tasks.nodup

variable {store}

/-- What the rows of the finished tasks have and the spans of the others is what all spans have. -/
theorem sum_finished {M : Type} [AddCommMonoid M] (h : ∀ e ∈ store.finished, HasTotals e.2 (store.spansOf e.1))
    {v : Span → M} {w : TaskRecord → M} (hw : ∀ row spans, HasTotals row spans → w row = (spans.map v).sum) :
    (store.finished.map fun e => w e.2).sum + (store.unfinishedSpans.map fun span => v span.toSpan).sum =
      (store.spans.map fun span => v span.toSpan).sum := by
  have hmem : ∀ span ∈ store.spans.filter fun span => store.isFinished span.taskId,
      span.taskId ∈ store.finished.map Prod.fst := fun span hspan =>
    (store.mem_keys_finished).2 (List.mem_filter.1 hspan).2
  have hrow : ∀ e ∈ store.finished, w e.2 = (((store.spans.filter fun span => store.isFinished span.taskId).filter
      fun span => span.taskId = e.1).map fun span => v span.toSpan).sum := by
    rintro ⟨taskId, row⟩ he
    have hfinished : store.isFinished taskId = true := (store.mem_keys_finished).1 (List.mem_map_of_mem he)
    have hspans : ((store.spans.filter fun span => store.isFinished span.taskId).filter fun span =>
        span.taskId = taskId) = store.spans.filter fun span => span.taskId = taskId := by
      rw [List.filter_filter]
      refine List.filter_congr fun span _ => ?_
      by_cases htask : span.taskId = taskId
      · simp [htask, hfinished]
      · simp [htask]
    rw [hw row _ (h _ he), hspans]
    unfold spansOf
    rw [List.map_map]
    rfl
  have hkeys := sum_filter_of_keys store.nodup_keys_finished hmem fun span => v span.toSpan
  rw [List.map_map] at hkeys
  rw [← sum_filter_add_sum_filter_not (fun span => store.isFinished span.taskId) store.spans fun span => v span.toSpan,
    ← hkeys]
  congr 1
  exact congrArg List.sum (List.map_congr_left hrow)

/-! ### Each dashboard by itself -/

theorem sum_costByTaskType : (store.costByTaskType.map (·.totalCostUsd)).sum =
    (store.finished.map fun e => e.2.totalCostUsd).sum := by
  refine Eq.trans (sum_orderBy_groupBy (fun row : TaskRecord => row.totalCostUsd) fun _ => rfl) ?_
  rw [List.map_map]
  rfl

theorem sum_taskCount_costByTaskType : (store.costByTaskType.map (·.taskCount)).sum = store.finished.length := by
  refine Eq.trans (sum_orderBy_groupBy (fun _ => 1) fun g => by simp) ?_
  simp [Function.comp_def]

theorem sum_taskCount_escalationRateTrends :
    (store.escalationRateTrends.map (·.taskCount)).sum = store.finished.length := by
  refine Eq.trans (sum_orderBy_groupBy (fun _ => 1) fun g => by simp) ?_
  simp [Function.comp_def]

theorem sum_escalatedCount : (store.escalationRateTrends.map (·.escalatedCount)).sum =
    store.finished.countP fun e => 0 < e.2.escalationCount := by
  refine Eq.trans (sum_orderBy_groupBy _ fun g => countP_eq_sum _ g.2) ?_
  rw [← countP_eq_sum, List.countP_map]
  rfl

theorem sum_mostExpensiveAgents : ((store.mostExpensiveAgents (-1)).map (·.totalCostUsd)).sum =
    (store.spans.map (·.costUsd)).sum :=
  sum_orderBy_groupBy (fun span : SpanRecord => span.costUsd) fun _ => rfl

/-- A limit keeps the agents that have cost most, and as many as there are up to it. -/
theorem exists_rest_mostExpensiveAgents (store : TraceStore) (limit : Int) :
    (∃ rest, (store.mostExpensiveAgents limit ++ rest).Perm (store.mostExpensiveAgents (-1)) ∧
      ∀ a ∈ store.mostExpensiveAgents limit, ∀ b ∈ rest, b.totalCostUsd ≤ a.totalCostUsd) ∧
    (0 ≤ limit →
      (store.mostExpensiveAgents limit).length = min limit.toNat (store.mostExpensiveAgents (-1)).length) := by
  have hunlimited : (store.mostExpensiveAgents (-1)).Perm _ := orderBy_perm _ _
  obtain ⟨⟨rest, hperm, hle⟩, hlength⟩ := limited_orderBy AgentCost.totalCostUsd _ limit
  exact ⟨⟨rest, hperm.trans hunlimited.symm, hle⟩, fun h => hunlimited.length_eq ▸ hlength h⟩

theorem sum_callCount_toolUsagePatterns : (store.toolUsagePatterns.map (·.callCount)).sum =
    (store.spans.map fun span => if span.toolName.isSome then 1 else 0).sum := by
  refine Eq.trans (sum_orderBy_groupBy (fun _ => 1) fun g => by simp) ?_
  rw [← countP_eq_sum, List.countP_eq_length_filter]
  simp

end TraceStore

/-- The spans of an event have the agent of the event. -/
theorem agent_of_mem_spansOfEvent {pricing : ModelPricing} {event : TraceEvent} {span : Span}
    (h : span ∈ spansOfEvent pricing event) : span.agent = event.agent := by
  rcases List.mem_cons.1 h with rfl | h
  · rfl
  · obtain ⟨call, -, rfl⟩ := List.mem_map.1 h
    rfl

/-! ### The dashboards of a fleet -/

section

variable {recs : Recordings} {tr : List FleetLabel} {f : TraceFleet}

/-- A finished task has the totals of its spans. -/
theorem hasTotals_of_fleet (h : Exec (FleetStep recs) noTraces tr f) :
    ∀ e ∈ f.store.finished, TraceStore.HasTotals e.2 (f.store.spansOf e.1) := by
  rintro ⟨taskId, row⟩ he
  obtain ⟨hrow, hstatus⟩ := (f.store.mem_finished).1 he
  obtain ⟨r, hm⟩ := ((linked_of_fleet h).rows taskId).1 ⟨row, hrow⟩
  obtain ⟨-, row', hrow', hclosed, hall⟩ := row_of_fleet h hm
  obtain rfl := Option.some.inj (hrow.symm.trans hrow')
  exact (hall (hclosed.1 hstatus)).2.1

/-- Every span names one of the agents. -/
theorem agents_of_fleet (h : Exec (FleetStep recs) noTraces tr f) : ∀ span ∈ f.store.spans, span.agent ∈ agentNames := by
  intro span hspan
  obtain ⟨r, hm⟩ := (linked_of_fleet h).spans span hspan
  obtain ⟨hinitial, -⟩ := row_of_fleet h hm
  have hmem : span.toSpan ∈ f.store.spansOf span.taskId :=
    List.mem_map_of_mem (List.mem_filter.2 ⟨hspan, decide_eq_true rfl⟩)
  obtain ⟨event, hevent, hof⟩ := List.mem_flatMap.1 (hinitial.subset hmem)
  obtain ⟨-, r₀, tr', h0, hrun, -⟩ := recorder_of_fleet h hm
  exact agent_of_mem_spansOfEvent hof ▸ agents_of_exec h0 hrun event hevent

/-- There are eight agents, so a limit of at least as many leaves out none. -/
theorem mostExpensiveAgents_of_fleet {limit : Int} (h : Exec (FleetStep recs) noTraces tr f)
    (hlimit : limit < 0 ∨ 8 ≤ limit) : f.store.mostExpensiveAgents limit = f.store.mostExpensiveAgents (-1) := by
  have hgroups : (groupBy (·.agent) f.store.spans).length ≤ 8 := length_groupBy_le (agents_of_fleet h)
  unfold TraceStore.mostExpensiveAgents
  rw [limited_of_length_le (Or.inl (by omega : (-1 : Int) < 0)), limited_of_length_le]
  rw [(orderBy_perm _ _).length_eq, List.length_map]
  omega

/-- Whatever runs have written to the database, in any interleaving and with exceptions anywhere, the dashboards agree.
The costs by type of task and what the unfinished tasks have cost so far are the costs of the agents, under any limit of
at least eight, the number of agents there are; the tool calls in the rows and those of the unfinished tasks are the
calls of the tools; and the costs by type and the escalations by day count the same tasks. -/
theorem dashboards_reconcile {limit : Int} (h : Exec (FleetStep recs) noTraces tr f) (hlimit : limit < 0 ∨ 8 ≤ limit) :
    (f.store.costByTaskType.map (·.totalCostUsd)).sum + (f.store.unfinishedSpans.map (·.costUsd)).sum =
        ((f.store.mostExpensiveAgents limit).map (·.totalCostUsd)).sum ∧
      (f.store.finished.map fun e => e.2.totalToolCalls).sum +
          (f.store.unfinishedSpans.map fun span => if span.toolName.isSome then 1 else 0).sum =
        (f.store.toolUsagePatterns.map (·.callCount)).sum ∧
      (f.store.costByTaskType.map (·.taskCount)).sum = (f.store.escalationRateTrends.map (·.taskCount)).sum := by
  have htotals := hasTotals_of_fleet h
  refine ⟨?_, ?_, ?_⟩
  · rw [mostExpensiveAgents_of_fleet h hlimit, TraceStore.sum_costByTaskType, TraceStore.sum_mostExpensiveAgents]
    exact TraceStore.sum_finished htotals fun row spans hrow => hrow.costUsd
  · rw [TraceStore.sum_callCount_toolUsagePatterns]
    refine TraceStore.sum_finished (v := fun span => if span.toolName.isSome then 1 else 0) htotals ?_
    intro row spans hrow
    rw [hrow.toolCalls, ← countP_eq_sum, List.countP_eq_length_filter]
  · rw [TraceStore.sum_taskCount_costByTaskType, TraceStore.sum_taskCount_escalationRateTrends]

/-! ### From the spans back to the events -/

/-- The calls of a fleet, with their task ids. -/
def TraceFleet.calls (f : TraceFleet) : List (String × Recorder) :=
  f.store.tasks.items.filterMap fun e => (f.member e.1).map (e.1, ·)

def TraceEvent.ofAgent (agent : String) (events : List TraceEvent) : List TraceEvent :=
  events.filter fun event => event.agent = agent

/-- The price of the usage entries of the events. -/
def costOfEvents (pricing : ModelPricing) (events : List TraceEvent) : ℚ :=
  (events.map fun event => (event.usage.map fun u => pricing.estimateCost u.model u.inputTokens u.outputTokens).sum).sum

theorem sum_costUsd_spansOfEvents (pricing : ModelPricing) (events : List TraceEvent) :
    ((spansOfEvents pricing events).map (·.costUsd)).sum = costOfEvents pricing events := by
  unfold spansOfEvents costOfEvents
  induction events with
  | nil => rfl
  | cons event events ih =>
    have htools : ((event.attributes.toolCalls.map (toolSpan event)).map (·.costUsd)).sum = 0 :=
      List.sum_eq_zero fun x hx => by
        obtain ⟨span, hspan, rfl⟩ := List.mem_map.1 hx
        obtain ⟨call, -, rfl⟩ := List.mem_map.1 hspan
        rfl
    rw [List.flatMap_cons, List.map_append, List.sum_append, ih, List.map_cons, List.sum_cons]
    congr 1
    unfold spansOfEvent
    rw [List.map_cons, List.sum_cons, htools, add_zero]
    rfl

/-- A node execution and each of its tool calls has one span. -/
theorem length_spansOfEvents (pricing : ModelPricing) (events : List TraceEvent) :
    (spansOfEvents pricing events).length = (events.map fun event => 1 + event.attributes.toolCalls.length).sum := by
  unfold spansOfEvents spansOfEvent
  rw [List.length_flatMap]
  refine congrArg List.sum (List.map_congr_left fun event _ => ?_)
  rw [List.length_cons, List.length_map, Nat.add_comm]

theorem filter_agent_spansOfEvents (pricing : ModelPricing) (events : List TraceEvent) (agent : String) :
    (spansOfEvents pricing events).filter (fun span => span.agent = agent) =
      spansOfEvents pricing (TraceEvent.ofAgent agent events) := by
  unfold spansOfEvents TraceEvent.ofAgent
  induction events with
  | nil => rfl
  | cons event events ih =>
    rw [List.flatMap_cons, List.filter_append, ih]
    by_cases ha : event.agent = agent
    · have hall : (spansOfEvent pricing event).filter (fun span => span.agent = agent) = spansOfEvent pricing event :=
        List.filter_eq_self.2 fun span hspan => by simpa using (agent_of_mem_spansOfEvent hspan).trans ha
      rw [hall, List.filter_cons_of_pos (by simpa using ha), List.flatMap_cons]
    · have hnone : (spansOfEvent pricing event).filter (fun span => span.agent = agent) = [] :=
        List.filter_eq_nil_iff.2 fun span hspan => by simpa [agent_of_mem_spansOfEvent hspan] using ha
      rw [hnone, List.filter_cons_of_neg (by simpa using ha), List.nil_append]

/-- A sum over the spans with a property is one over those of the events, call by call. -/
theorem sum_of_fleet {M : Type} [AddCommMonoid M] (h : Exec (FleetStep recs) noTraces tr f)
    (hall : ∀ taskId r, f.member taskId = some r → r.phase = .returned) (p : Span → Bool) (v : Span → M) :
    ((f.store.spans.filter fun span => p span.toSpan).map fun span => v span.toSpan).sum =
      (f.calls.map fun c => (((spansOfEvents (recs.of c.1).pricing c.2.graph.events).filter p).map v).sum).sum := by
  have hlinked := linked_of_fleet h
  have hmem : ∀ span ∈ f.store.spans.filter (fun span => p span.toSpan),
      span.taskId ∈ f.store.tasks.items.map Prod.fst := by
    intro span hspan
    obtain ⟨row, hrow⟩ := (hlinked.rows _).2 (hlinked.spans span (List.mem_filter.1 hspan).1)
    exact List.mem_map.2 ⟨(span.taskId, row), Dict.mem_items_iff.2 hrow, rfl⟩
  have hkey : ∀ taskId r, f.member taskId = some r →
      (((f.store.spans.filter fun span => p span.toSpan).filter fun span => span.taskId = taskId).map
        fun span => v span.toSpan) = ((spansOfEvents (recs.of taskId).pricing r.graph.events).filter p).map v := by
    intro taskId r hm
    obtain ⟨-, row, -, -, hret⟩ := row_of_fleet h hm
    rw [← (hret (hall taskId r hm)).1]
    unfold TraceStore.spansOf
    rw [List.filter_map, List.map_map, List.filter_filter, List.filter_filter]
    refine congrArg (List.map _) (List.filter_congr fun span _ => ?_)
    exact Bool.and_comm _ _
  have hitems : ∀ e ∈ f.store.tasks.items, ∃ r, f.member e.1 = some r := by
    rintro ⟨taskId, row⟩ he
    exact (hlinked.rows taskId).1 ⟨row, Dict.mem_items_iff.1 he⟩
  rw [← sum_filter_of_keys f.store.tasks.nodup hmem fun span => v span.toSpan]
  unfold TraceFleet.calls
  clear hmem
  generalize f.store.tasks.items = items at hitems ⊢
  induction items with
  | nil => rfl
  | cons e items ih =>
    obtain ⟨r, hm⟩ := hitems e List.mem_cons_self
    rw [List.filterMap_cons, hm, List.map_cons, List.map_cons, List.sum_cons,
      ih fun e he => hitems e (List.mem_cons_of_mem _ he), hkey _ r hm]
    rfl

theorem sum_agent_of_fleet {M : Type} [AddCommMonoid M] (h : Exec (FleetStep recs) noTraces tr f)
    (hall : ∀ taskId r, f.member taskId = some r → r.phase = .returned) (agent : String) (v : Span → M) :
    ((f.store.spans.filter fun span => span.agent = agent).map fun span => v span.toSpan).sum =
      (f.calls.map fun c => ((spansOfEvents (recs.of c.1).pricing
        (TraceEvent.ofAgent agent c.2.graph.events)).map v).sum).sum := by
  simp only [← filter_agent_spansOfEvents]
  exact sum_of_fleet h hall (fun span => span.agent = agent) v

/-- What an agent has cost in the calls of a fleet. -/
def TraceFleet.costOf (recs : Recordings) (f : TraceFleet) (agent : String) : ℚ :=
  (f.calls.map fun c => costOfEvents (recs.of c.1).pricing (TraceEvent.ofAgent agent c.2.graph.events)).sum

/-- The row of an agent, as the events have it. -/
structure AgentCost.Exact (recs : Recordings) (f : TraceFleet) (row : AgentCost) : Prop where
  totalCostUsd : row.totalCostUsd = f.costOf recs row.agent
  totalInputTokens : row.totalInputTokens =
    (f.calls.map fun c => (tokensOf (TraceEvent.ofAgent row.agent c.2.graph.events)).inputTokens).sum
  totalOutputTokens : row.totalOutputTokens =
    (f.calls.map fun c => (tokensOf (TraceEvent.ofAgent row.agent c.2.graph.events)).outputTokens).sum
  callCount : row.callCount = (f.calls.map fun c => ((TraceEvent.ofAgent row.agent c.2.graph.events).map
    fun event => 1 + event.attributes.toolCalls.length).sum).sum

theorem mem_mostExpensiveAgents {store : TraceStore} {row : AgentCost} : row ∈ store.mostExpensiveAgents (-1) ↔
    ∃ g ∈ groupBy (·.agent) store.spans, row = {
      agent := g.1
      callCount := g.2.length
      totalCostUsd := (g.2.map (·.costUsd)).sum
      totalInputTokens := (g.2.map (·.inputTokens)).sum
      totalOutputTokens := (g.2.map (·.outputTokens)).sum
      avgLatencyMs := average (g.2.map (·.latencyMs)) } := by
  unfold TraceStore.mostExpensiveAgents limited
  rw [if_pos (by omega), (orderBy_perm _ _).mem_iff, List.mem_map]
  simp only [eq_comm]

theorem nodup_agents_mostExpensiveAgents (store : TraceStore) :
    ((store.mostExpensiveAgents (-1)).map (·.agent)).Nodup := by
  unfold TraceStore.mostExpensiveAgents limited
  rw [if_pos (by omega), ((orderBy_perm _ _).map _).nodup_iff, List.map_map]
  exact nodup_keys_groupBy

theorem exact_of_fleet (h : Exec (FleetStep recs) noTraces tr f)
    (hall : ∀ taskId r, f.member taskId = some r → r.phase = .returned) {row : AgentCost}
    (hrow : row ∈ f.store.mostExpensiveAgents (-1)) : row.Exact recs f := by
  obtain ⟨⟨agent, spans⟩, hg, rfl⟩ := mem_mostExpensiveAgents.1 hrow
  obtain ⟨-, hspans⟩ := mem_groupBy.1 hg
  obtain rfl : spans = f.store.spans.filter fun span => span.agent = agent := hspans
  refine ⟨?_, ?_, ?_, ?_⟩
  · refine (sum_agent_of_fleet h hall agent (·.costUsd)).trans ?_
    simp only [sum_costUsd_spansOfEvents]
    rfl
  · refine (sum_agent_of_fleet h hall agent (·.inputTokens)).trans ?_
    simp only [(spansOfEvents_totals _ _).1]
  · refine (sum_agent_of_fleet h hall agent (·.outputTokens)).trans ?_
    simp only [(spansOfEvents_totals _ _).2.1]
  · have hsum := sum_agent_of_fleet h hall agent fun _ => 1
    simpa [length_spansOfEvents] using hsum

/-- The agent of an event of a call that has returned has a row. -/
theorem exists_row_of_event (h : Exec (FleetStep recs) noTraces tr f) {taskId : String} {r : Recorder}
    (hm : f.member taskId = some r) (hret : r.phase = .returned) {event : TraceEvent} (hevent : event ∈ r.graph.events) :
    ∃ row ∈ f.store.mostExpensiveAgents (-1), row.agent = event.agent := by
  obtain ⟨-, row, -, -, hall⟩ := row_of_fleet h hm
  -- the span of the event is in the store
  have hspan : nodeSpan (recs.of taskId).pricing event ∈ f.store.spansOf taskId := by
    rw [(hall hret).1]
    exact List.mem_flatMap.2 ⟨event, hevent, List.mem_cons_self⟩
  obtain ⟨span, hmem, heq⟩ := List.mem_map.1 hspan
  have hagent : span.agent = event.agent := congrArg Span.agent heq
  have hgroup : (event.agent, f.store.spans.filter fun span => span.agent = event.agent) ∈
      groupBy (·.agent) f.store.spans := mem_groupBy.2 ⟨⟨span, (List.mem_filter.1 hmem).1, hagent⟩, rfl⟩
  exact ⟨_, mem_mostExpensiveAgents.2 ⟨_, hgroup, rfl⟩, rfl⟩

/-- When all calls have returned, the costs of the agents are those of the events of all runs, under every limit: the row
of an agent has the price and the tokens of the usage entries of its events, and counts its node executions together with
its tool calls; no agent has two rows; and an agent with an event has one, unless a limit below eight is reached by
agents that have cost at least as much. -/
theorem agents_from_events (h : Exec (FleetStep recs) noTraces tr f)
    (hall : ∀ taskId r, f.member taskId = some r → r.phase = .returned) (limit : Int) :
    (∀ row ∈ f.store.mostExpensiveAgents limit, row.Exact recs f) ∧
    ((f.store.mostExpensiveAgents limit).map (·.agent)).Nodup ∧
    ∀ taskId r, f.member taskId = some r → ∀ event ∈ r.graph.events,
      (∃ row ∈ f.store.mostExpensiveAgents limit, row.agent = event.agent) ∨
        limit < 8 ∧ (f.store.mostExpensiveAgents limit).length = limit ∧
          ∀ row ∈ f.store.mostExpensiveAgents limit, f.costOf recs event.agent ≤ row.totalCostUsd := by
  obtain ⟨⟨rest, hperm, hle⟩, hlength⟩ := f.store.exists_rest_mostExpensiveAgents limit
  have hshown : ∀ row ∈ f.store.mostExpensiveAgents limit, row ∈ f.store.mostExpensiveAgents (-1) :=
    fun row hrow => hperm.mem_iff.1 (List.mem_append_left _ hrow)
  have hnodup := ((hperm.map (·.agent)).nodup_iff).2 (nodup_agents_mostExpensiveAgents f.store)
  rw [List.map_append] at hnodup
  refine ⟨fun row hrow => exact_of_fleet h hall (hshown row hrow), (List.nodup_append.1 hnodup).1,
    fun taskId r hm event hevent => ?_⟩
  obtain ⟨row, hrow, hagent⟩ := exists_row_of_event h hm (hall taskId r hm) hevent
  rcases List.mem_append.1 (hperm.mem_iff.2 hrow) with hin | hout
  · exact Or.inl ⟨row, hin, hagent⟩
  · -- a row is left out, so there is a limit, and it is reached
    have hcount : (f.store.mostExpensiveAgents limit).length + rest.length = (f.store.mostExpensiveAgents (-1)).length := by
      rw [← List.length_append, hperm.length_eq]
    have hpos := List.length_pos_of_mem hout
    have hlimit : ¬ (limit < 0 ∨ 8 ≤ limit) := by
      intro hlimit
      rw [mostExpensiveAgents_of_fleet h hlimit] at hcount
      omega
    have hreached := hlength (by omega)
    refine Or.inr ⟨by omega, by omega, fun shown hshown' => ?_⟩
    rw [← hagent, ← (exact_of_fleet h hall hrow).totalCostUsd]
    exact hle shown hshown' row hout

/-- The calls of a tool that are logged in the events. -/
def callsOfTool (name : String) (events : List TraceEvent) : List ToolCallLog :=
  events.flatMap fun event => event.attributes.toolCalls.filter fun call => call.toolName = name

theorem map_status_tool_spansOfEvents (pricing : ModelPricing) (events : List TraceEvent) (name : String) :
    ((spansOfEvents pricing events).filter fun span => span.toolName = some name).map (·.status) =
      (callsOfTool name events).map fun call => if call.success then .success else .failure := by
  unfold spansOfEvents callsOfTool
  induction events with
  | nil => rfl
  | cons event events ih =>
    rw [List.flatMap_cons, List.filter_append, List.map_append, ih, List.flatMap_cons, List.map_append]
    congr 1
    unfold spansOfEvent
    rw [List.filter_cons_of_neg (by simp [nodeSpan]), List.filter_map, List.map_map]
    have hname : ((fun span : Span => decide (span.toolName = some name)) ∘ toolSpan event) =
        fun call => decide (call.toolName = name) := by
      funext call
      simp [toolSpan]
    rw [hname]
    rfl

theorem length_tool_spansOfEvents (pricing : ModelPricing) (events : List TraceEvent) (name : String) :
    ((spansOfEvents pricing events).filter fun span => span.toolName = some name).length =
      (callsOfTool name events).length := by
  simpa using congrArg List.length (map_status_tool_spansOfEvents pricing events name)

theorem countP_tool_spansOfEvents (pricing : ModelPricing) (events : List TraceEvent) (name : String) :
    ((spansOfEvents pricing events).filter fun span => span.toolName = some name).countP (fun span =>
      span.status = .success) = (callsOfTool name events).countP (·.success) := by
  have hcount := congrArg (List.countP fun status => decide (status = EventStatus.success))
    (map_status_tool_spansOfEvents pricing events name)
  rw [List.countP_map, List.countP_map] at hcount
  refine Eq.trans hcount (List.countP_congr fun call _ => ?_)
  cases hs : call.success <;> simp [hs]

/-- When all calls have returned, the tool dashboard counts the calls that the events log, tool by tool: the row of a
tool has as many calls and as many successful ones, and their quotient; and every tool that has been called has one. -/
theorem tools_from_events (h : Exec (FleetStep recs) noTraces tr f)
    (hall : ∀ taskId r, f.member taskId = some r → r.phase = .returned) :
    (∀ row ∈ f.store.toolUsagePatterns,
      row.callCount = (f.calls.map fun c => (callsOfTool row.toolName c.2.graph.events).length).sum ∧
      row.successCount = (f.calls.map fun c => (callsOfTool row.toolName c.2.graph.events).countP (·.success)).sum ∧
      row.successRate * row.callCount = row.successCount ∧ 0 ≤ row.successRate ∧ row.successRate ≤ 1) ∧
    (f.store.toolUsagePatterns.map (·.toolName)).Nodup ∧
    ∀ taskId r, f.member taskId = some r → ∀ event ∈ r.graph.events, ∀ call ∈ event.attributes.toolCalls,
      ∃ row ∈ f.store.toolUsagePatterns, row.toolName = call.toolName := by
  have htools : ∀ row, row ∈ f.store.toolUsagePatterns ↔
      ∃ g ∈ groupBy (·.toolName) (f.store.spans.filter (·.toolName.isSome)), row = {
        toolName := g.1.getD ""
        callCount := g.2.length
        successCount := g.2.countP fun span => span.status = .success
        avgLatencyMs := average (g.2.map (·.latencyMs))
        successRate := rate (g.2.countP fun span => span.status = .success) g.2.length } := by
    intro row
    unfold TraceStore.toolUsagePatterns
    rw [(orderBy_perm _ _).mem_iff, List.mem_map]
    simp only [eq_comm]
  have hgroups : ∀ g ∈ groupBy (·.toolName) (f.store.spans.filter (·.toolName.isSome)), ∃ name, g.1 = some name ∧
      g.2 = f.store.spans.filter fun span => span.toolName = some name := by
    rintro ⟨key, spans⟩ hg
    obtain ⟨⟨span, hspan, hkey⟩, hspans⟩ := mem_groupBy.1 hg
    obtain ⟨name, hname⟩ := Option.isSome_iff_exists.1 (List.mem_filter.1 hspan).2
    obtain rfl : key = some name := hkey.symm.trans hname
    refine ⟨name, rfl, hspans.trans ?_⟩
    rw [List.filter_filter]
    refine List.filter_congr fun span _ => ?_
    by_cases hs : span.toolName = some name
    · simp [hs]
    · simp [hs]
  refine ⟨fun row hrow => ?_, ?_, fun taskId r hm event hevent call hcall => ?_⟩
  · obtain ⟨g, hg, rfl⟩ := (htools row).1 hrow
    have hne : g.2.length ≠ 0 := fun hzero => ne_nil_of_mem_groupBy hg (List.length_eq_zero_iff.1 hzero)
    have hrate := rate_spec (List.countP_le_length (p := fun span : SpanRecord => span.status = .success)) hne
    obtain ⟨name, hname, hspans⟩ := hgroups g hg
    refine ⟨?_, ?_, hrate⟩
    · have hsum := sum_of_fleet h hall (fun span => span.toolName = some name) fun _ => 1
      simp only [hname, hspans, Option.getD_some]
      simpa [length_tool_spansOfEvents] using hsum
    · have hsum := sum_of_fleet h hall (fun span => span.toolName = some name) fun span =>
        if decide (span.status = .success) then 1 else 0
      simp only [← countP_eq_sum, countP_tool_spansOfEvents] at hsum
      simp only [hname, hspans, Option.getD_some]
      exact hsum
  · unfold TraceStore.toolUsagePatterns
    rw [((orderBy_perm _ _).map _).nodup_iff, List.map_map]
    refine List.Nodup.map_on (fun g hg g' hg' heq => ?_) nodup_keys_groupBy.of_map
    obtain ⟨name, hname, -⟩ := hgroups g hg
    obtain ⟨name', hname', -⟩ := hgroups g' hg'
    have heq' : name = name' := by simpa [hname, hname'] using heq
    exact List.inj_on_of_nodup_map nodup_keys_groupBy hg hg' (by rw [hname, hname', heq'])
  · obtain ⟨-, row, -, -, hret⟩ := row_of_fleet h hm
    have hspan : toolSpan event call ∈ f.store.spansOf taskId := by
      rw [(hret (hall taskId r hm)).1]
      exact List.mem_flatMap.2 ⟨event, hevent, List.mem_cons_of_mem _ (List.mem_map_of_mem hcall)⟩
    obtain ⟨span, hmem, heq⟩ := List.mem_map.1 hspan
    have hname : span.toolName = some call.toolName := congrArg Span.toolName heq
    have hrow : span ∈ f.store.spans.filter (·.toolName.isSome) :=
      List.mem_filter.2 ⟨(List.mem_filter.1 hmem).1, by simp [hname]⟩
    have hgroup : (some call.toolName, (f.store.spans.filter (·.toolName.isSome)).filter fun span =>
        span.toolName = some call.toolName) ∈ groupBy (·.toolName) (f.store.spans.filter (·.toolName.isSome)) :=
      mem_groupBy.2 ⟨⟨span, hrow, hname⟩, rfl⟩
    exact ⟨_, (htools _).2 ⟨_, hgroup, rfl⟩, rfl⟩

/-- The days are in order, each once. -/
theorem pairwise_escalationRateTrends (store : TraceStore) :
    store.escalationRateTrends.Pairwise fun a b => a.day < b.day := by
  have hsorted : store.escalationRateTrends.Pairwise fun a b => a.day ≤ b.day :=
    (pairwise_orderBy (fun trend : EscalationTrend => OrderDual.toDual trend.day) _).imp OrderDual.toDual_le_toDual.1
  have hnodup : (store.escalationRateTrends.map (·.day)).Nodup := by
    unfold TraceStore.escalationRateTrends
    rw [((orderBy_perm _ _).map _).nodup_iff, List.map_map]
    exact nodup_keys_groupBy
  exact (hsorted.and (List.pairwise_map.1 hnodup)).imp fun h => lt_of_le_of_ne h.1 h.2

/-- The escalation dashboard of a fleet has each day once, in order, and the escalated tasks that it counts are the
calls that have returned after at least one decision of a human; its rates are between zero and one. -/
theorem escalations_of_fleet (h : Exec (FleetStep recs) noTraces tr f) :
    (f.store.escalationRateTrends.map (·.escalatedCount)).sum = f.calls.countP (fun c =>
        c.2.phase = .returned ∧ decisionsOf (tr.filterMap (Crew.Label.of c.1)) ≠ []) ∧
      f.store.escalationRateTrends.Pairwise (fun a b => a.day < b.day) ∧
      ∀ trend ∈ f.store.escalationRateTrends,
        trend.escalationRate * trend.taskCount = trend.escalatedCount ∧ 0 ≤ trend.escalationRate ∧
          trend.escalationRate ≤ 1 := by
  refine ⟨?_, pairwise_escalationRateTrends f.store, fun trend htrend => ?_⟩
  · rw [TraceStore.sum_escalatedCount]
    unfold TraceStore.finished TraceFleet.calls
    rw [List.countP_filter, List.countP_filterMap]
    refine List.countP_congr fun e he => ?_
    obtain ⟨taskId, row⟩ := e
    have hrow : f.store.getTask taskId = some row := Dict.mem_items_iff.1 he
    obtain ⟨r, hm⟩ := ((linked_of_fleet h).rows taskId).1 ⟨row, hrow⟩
    obtain ⟨-, row', hrow', hclosed, hret⟩ := row_of_fleet h hm
    obtain rfl := Option.some.inj (hrow.symm.trans hrow')
    simp only [hm, Option.map_some, Option.getD_some, Bool.and_eq_true, decide_eq_true_eq]
    constructor
    · rintro ⟨hcount, hstatus⟩
      have hphase := hclosed.1 hstatus
      refine ⟨hphase, fun hnil => ?_⟩
      rw [(hret hphase).2.2, hnil] at hcount
      exact absurd hcount (lt_irrefl 0)
    · rintro ⟨hphase, hdecisions⟩
      refine ⟨?_, hclosed.2 hphase⟩
      rw [(hret hphase).2.2]
      exact List.length_pos_of_ne_nil hdecisions
  · unfold TraceStore.escalationRateTrends at htrend
    obtain ⟨g, hg, rfl⟩ := List.mem_map.1 ((orderBy_perm _ _).mem_iff.1 htrend)
    have hne : g.2.length ≠ 0 := fun hzero => ne_nil_of_mem_groupBy hg (List.length_eq_zero_iff.1 hzero)
    exact rate_spec List.countP_le_length hne

end

section Sample

/-- Two calls in turns, the second of which is broken off when five of its nine spans have been inserted, under the
default limit. -/
theorem dashboards_reconcile_sample : ∃ tr p, Exec (FleetStep sampleRecordings) noTraces tr (samplePair p) ∧
    (samplePair p).store.finished.length = 1 ∧ (samplePair p).store.unfinishedSpans.length = 5 ∧
    ((samplePair p).store.costByTaskType.map (·.totalCostUsd)).sum +
        ((samplePair p).store.unfinishedSpans.map (·.costUsd)).sum =
      (((samplePair p).store.mostExpensiveAgents 10).map (·.totalCostUsd)).sum := by
  have hscript : scriptEnds ((recorders sampleRecordings).advancePair sampleAdvance "t" "u") sampleCalls
      (brokenOff 60 (approvedScript .none)) (fun _ p => decide ((samplePair p).store.finished.length = 1 ∧
        (samplePair p).store.unfinishedSpans.length = 5)) = true := by
    decide +kernel
  obtain ⟨tr, p, hr, hp⟩ := exists_fleet (q := fun p => decide (_ ∧ _)) hscript
  obtain ⟨hfinished, hunfinished⟩ := of_decide_eq_true hp
  exact ⟨tr, p, hr, hfinished, hunfinished, (dashboards_reconcile hr (Or.inr (by decide))).1⟩

/-- Two calls in turns, under the default limit: every agent has its row. -/
theorem agents_from_events_sample : ∃ tr p, Exec (FleetStep sampleRecordings) noTraces tr (samplePair p) ∧
    p.1.graph.events.length = 8 ∧ p.2.graph.events.length = 8 ∧
    (∀ row ∈ (samplePair p).store.mostExpensiveAgents 10, row.Exact sampleRecordings (samplePair p)) ∧
    ∀ event ∈ p.1.graph.events ++ p.2.graph.events,
      ∃ row ∈ (samplePair p).store.mostExpensiveAgents 10, row.agent = event.agent := by
  obtain ⟨tr, p, hr, hp, hall⟩ := exists_fleet_returned (q := fun p =>
    decide (p.1.graph.events.length = 8 ∧ p.2.graph.events.length = 8)) (by decide +kernel)
  obtain ⟨hlength, hlength'⟩ := of_decide_eq_true hp
  obtain ⟨hexact, -, hrows⟩ := agents_from_events hr hall 10
  refine ⟨tr, p, hr, hlength, hlength', hexact, fun event hevent => ?_⟩
  have hrow : ∀ taskId r, (samplePair p).member taskId = some r → event ∈ r.graph.events →
      ∃ row ∈ (samplePair p).store.mostExpensiveAgents 10, row.agent = event.agent := fun taskId r hm he =>
    (hrows taskId r hm event he).resolve_right fun hout => absurd hout.1 (by decide)
  rcases List.mem_append.1 hevent with he | he
  · exact hrow "t" p.1 rfl he
  · exact hrow "u" p.2 rfl he

/-- Two calls in turns, with one tool call each. -/
theorem tools_from_events_sample : ∃ tr p row, Exec (FleetStep sampleRecordings) noTraces tr (samplePair p) ∧
    (callsOfTool "web_search" p.1.graph.events).length = 1 ∧ (callsOfTool "web_search" p.2.graph.events).length = 1 ∧
    row ∈ (samplePair p).store.toolUsagePatterns ∧ row.toolName = "web_search" ∧ row.callCount = 2 ∧
    row.successRate * row.callCount = row.successCount := by
  obtain ⟨tr, p, hr, hp, hall⟩ := exists_fleet_returned (q := fun p =>
    decide ((callsOfTool "web_search" p.1.graph.events).length = 1 ∧
      (callsOfTool "web_search" p.2.graph.events).length = 1 ∧
      ((samplePair p).calls.map fun c => (callsOfTool "web_search" c.2.graph.events).length).sum = 2)) (by decide +kernel)
  obtain ⟨hfirst, hsecond, htotal⟩ := of_decide_eq_true hp
  obtain ⟨hrows, -, htools⟩ := tools_from_events hr hall
  obtain ⟨call, hcall⟩ := List.exists_mem_of_length_pos (hfirst ▸ Nat.zero_lt_one)
  obtain ⟨event, hevent, hof⟩ := List.mem_flatMap.1 hcall
  obtain ⟨hmem, hname⟩ := List.mem_filter.1 hof
  obtain ⟨row, hrow, heq⟩ := htools "t" p.1 rfl event hevent call hmem
  have htool : row.toolName = "web_search" := heq.trans (of_decide_eq_true hname)
  obtain ⟨hcount, -, hrate, -⟩ := hrows row hrow
  rw [htool] at hcount
  exact ⟨tr, p, row, hr, hfirst, hsecond, hrow, htool, hcount.trans htotal, hrate⟩

/-- Two calls in turns, begun on two days. -/
theorem escalations_of_fleet_sample : ∃ tr p, Exec (FleetStep sampleRecordings) noTraces tr (samplePair p) ∧
    (samplePair p).store.escalationRateTrends.length = 2 ∧
    (samplePair p).store.escalationRateTrends.Pairwise fun a b => a.day < b.day := by
  obtain ⟨tr, p, hr, hp, -⟩ := exists_fleet_returned (q := fun p =>
    decide ((groupBy TraceStore.dayOf (p.1.store.finished.map Prod.snd)).length = 2)) (by decide +kernel)
  have hdays := of_decide_eq_true hp
  refine ⟨tr, p, hr, ?_, (escalations_of_fleet hr).2.1⟩
  unfold TraceStore.escalationRateTrends
  rw [(orderBy_perm _ _).length_eq, List.length_map]
  exact hdays

end Sample

end AgentOrchestrator
