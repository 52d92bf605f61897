import AgentOrchestrator.Tracing.Recorder

/-!
# What is persisted of a run

The spans of the task and those still to be inserted are the spans of the first events of the graph, as many as the
cursor of the recorder has passed (`SpansAt`).  So a run that returns has stored the spans of each event once, in order,
and its row has their totals (`spans_exactly_once`).  The row of the task is closed by the last step of the run only:
a run that ends with an exception leaves it open (`survives_iff`).
-/

namespace AgentOrchestrator

variable {rec : Recording} {r r' : Recorder} {tr : List RecorderLabel} {l : RecorderLabel}

/-- The spans of the events. -/
def spansOfEvents (pricing : ModelPricing) (events : List TraceEvent) : List Span :=
  events.flatMap (spansOfEvent pricing)

theorem spansOfEvents_append (pricing : ModelPricing) (events new : List TraceEvent) :
    spansOfEvents pricing (events ++ new) = spansOfEvents pricing events ++ spansOfEvents pricing new := by
  unfold spansOfEvents
  exact List.flatMap_append

/-! ### The cursor -/

/-- What the spans of the task are, by where the recorder is. -/
def SpansAt (pricing : ModelPricing) (events : List TraceEvent) (recorded : Nat) (spans : List Span) : Phase → Prop
  | .invoking _ => recorded ≤ events.length ∧ spans = spansOfEvents pricing (events.take recorded)
  | .recording pending => spans ++ pending = spansOfEvents pricing events
  | .waiting => recorded = events.length ∧ spans = spansOfEvents pricing events
  | .noting _ => spans = spansOfEvents pricing events
  | .closing _ => spans = spansOfEvents pricing events
  | .returned => spans = spansOfEvents pricing events
  -- some of the spans may be missing, but only at the end
  | .raised => spans <+: spansOfEvents pricing events

/-- Nothing is persisted twice or out of order, wherever the recorder is. -/
theorem SpansAt.initial {pricing : ModelPricing} {events : List TraceEvent} {recorded : Nat} {spans : List Span}
    {phase : Phase} (h : SpansAt pricing events recorded spans phase) : spans <+: spansOfEvents pricing events := by
  cases phase with
  | invoking resume =>
    obtain ⟨-, rfl⟩ := h
    refine ⟨spansOfEvents pricing (events.drop recorded), ?_⟩
    rw [← spansOfEvents_append, List.take_append_drop]
  | recording pending => exact ⟨pending, h⟩
  | waiting =>
    obtain ⟨-, rfl⟩ := h
    exact List.prefix_rfl
  | noting ms =>
    obtain rfl := h
    exact List.prefix_rfl
  | closing ms =>
    obtain rfl := h
    exact List.prefix_rfl
  | returned =>
    obtain rfl := h
    exact List.prefix_rfl
  | raised => exact h

/-- More events leave the spans of the first ones as they are. -/
theorem SpansAt.more {pricing : ModelPricing} {events : List TraceEvent} {recorded : Nat} {spans : List Span}
    {resume resume' : Option HumanDecision} (h : SpansAt pricing events recorded spans (.invoking resume))
    (new : List TraceEvent) : SpansAt pricing (events ++ new) recorded spans (.invoking resume') := by
  obtain ⟨hle, rfl⟩ := h
  refine ⟨hle.trans (by simp), ?_⟩
  rw [List.take_append_of_le_length hle]

theorem SpansAt.all {pricing : ModelPricing} {events : List TraceEvent} {recorded : Nat} {spans : List Span}
    (h : SpansAt pricing events recorded spans (.recording [])) : spans = spansOfEvents pricing events :=
  (List.append_nil _).symm.trans h

/-- The graph goes on after an interrupt with nothing left to insert. -/
theorem SpansAt.resume {pricing : ModelPricing} {events : List TraceEvent} {recorded : Nat} {spans : List Span}
    (h : SpansAt pricing events recorded spans .waiting) (resume : Option HumanDecision) :
    SpansAt pricing events recorded spans (.invoking resume) := by
  obtain ⟨hall, hspans⟩ := h
  refine ⟨hall.le, ?_⟩
  rw [hall, List.take_length]
  exact hspans

/-- The spans of the task in a state of the recorder. -/
def Spanned (rec : Recording) (r : Recorder) : Prop :=
  SpansAt rec.pricing r.graph.events r.recorded (r.store.spansOf rec.taskId) r.phase

theorem spanned_begin (h : Begins rec r) : Spanned rec r := by
  obtain ⟨store, userId, task, now, hfresh, hstore⟩ := h.store
  unfold Spanned
  rw [h.phase, h.recorded, hstore, TraceStore.spansOf_startTask, hfresh]
  exact ⟨Nat.zero_le _, rfl⟩

/-- Step lemma. -/
theorem RecorderStep.spanned (h : Spanned rec r) (hu : Underway r.graph) (hs : RecorderStep rec r l r') :
    Spanned rec r' := by
  unfold Spanned at h ⊢
  cases hs with
  | graph hp hgraph hl =>
    obtain ⟨new, hnew, -⟩ := hgraph.events hu
    rw [hp] at h
    rw [hnew]
    exact h.more new
  | invoked hp hreturns =>
    rw [hp] at h
    -- what is left to insert are the spans of the events after the cursor
    obtain ⟨hle, hspans⟩ := h
    show _ ++ spansOfEvents rec.pricing (r.graph.events.drop r.recorded) = _
    rw [hspans, ← spansOfEvents_append, List.take_append_drop]
  | @persisted span spans hp =>
    rw [hp] at h
    show (r.store.addSpan rec.taskId span).spansOf rec.taskId ++ spans = _
    rw [TraceStore.spansOf_addSpan, List.append_assoc]
    exact h
  | submitted hp hn hq he hqueue =>
    rw [hp] at h
    exact ⟨rfl, h.all⟩
  | prompted hp hn hq =>
    rw [hp] at h
    exact ⟨rfl, h.all⟩
  | queue hq ha hw hqueue he => exact h
  | resumed hp hq hqueue =>
    rw [hp] at h
    exact h.resume _
  | answered decision hp hq =>
    rw [hp] at h
    exact h.resume _
  | measured hp hn =>
    rw [hp] at h
    exact h.all
  | noted hp =>
    rw [hp] at h
    exact h
  | finished hp hfinish =>
    rw [hp] at h
    obtain ⟨hkeep, -⟩ := TraceStore.finishTask_spec hfinish
    exact (hkeep rec.taskId).trans h
  | raised hp => exact h.initial
  | others store hspans ht =>
    show SpansAt _ _ _ (store.spansOf rec.taskId) _
    rw [hspans]
    exact h

/-- Run lemma. -/
theorem spanned_of_exec (h0 : Begins rec r) (h : Exec (RecorderStep rec) r tr r') : Spanned rec r' := by
  refine h.invariant (fun _ r => Spanned rec r) (spanned_begin h0) fun tr r l r' hrun hspans hs => ?_
  exact hs.spanned hspans (underway_of_exec h0 hrun)

/-! ### The row of the task -/

/-- A row that has been closed: with the totals of these spans and the number of escalations among these events. -/
structure RowClosed (events : List TraceEvent) (spans : List Span) (row : TaskRecord) : Prop where
  status : row.status ≠ .running
  escalationCount : row.escalationCount = (escalations events).length
  totals : TraceStore.HasTotals row spans

/-- The row of the task is open until the run returns. -/
structure RowAt (events : List TraceEvent) (spans : List Span) (row : TaskRecord) (phase : Phase) : Prop where
  running : phase ≠ .returned → row.status = .running
  closed : phase = .returned → RowClosed events spans row

theorem RowAt.still {events events' : List TraceEvent} {spans spans' : List Span} {row : TaskRecord}
    {phase phase' : Phase} (h : RowAt events spans row phase) (hp : phase ≠ .returned) (hp' : phase' ≠ .returned) :
    RowAt events' spans' row phase' where
  running _ := h.running hp
  closed heq := absurd heq hp'

theorem statusOf_ne_running (status : Option RunStatus) : statusOf status ≠ .running := by
  cases status with
  | none => simp [statusOf]
  | some status => cases status <;> simp [statusOf]

def Rowed (rec : Recording) (r : Recorder) : Prop :=
  ∃ row, r.store.getTask rec.taskId = some row ∧ RowAt r.graph.events (r.store.spansOf rec.taskId) row r.phase

theorem rowed_begin (h : Begins rec r) : Rowed rec r := by
  obtain ⟨store, userId, task, now, -, hstore⟩ := h.store
  unfold Rowed
  rw [hstore, h.phase]
  exact ⟨_, TraceStore.getTask_startTask .., fun _ => rfl, fun heq => absurd heq (by simp)⟩

/-- Step lemma: the last step of the run closes the row, and no other does. -/
theorem RecorderStep.rowed (h : Rowed rec r) (hs : RecorderStep rec r l r') : Rowed rec r' := by
  obtain ⟨row, hrow, hat⟩ := h
  cases hs with
  | graph hp hgraph hl => exact ⟨row, hrow, hat.still (by simp [hp]) (by simp)⟩
  | invoked hp hreturns => exact ⟨row, hrow, hat.still (by simp [hp]) (by simp)⟩
  | persisted hp => exact ⟨row, hrow, hat.still (by simp [hp]) (by simp)⟩
  | submitted hp hn hq he hqueue => exact ⟨row, hrow, hat.still (by simp [hp]) (by simp)⟩
  | prompted hp hn hq => exact ⟨row, hrow, hat.still (by simp [hp]) (by simp)⟩
  | queue hq ha hw hqueue he => exact ⟨row, hrow, hat⟩
  | resumed hp hq hqueue => exact ⟨row, hrow, hat.still (by simp [hp]) (by simp)⟩
  | answered decision hp hq => exact ⟨row, hrow, hat.still (by simp [hp]) (by simp)⟩
  | measured hp hn => exact ⟨row, hrow, hat.still (by simp [hp]) (by simp)⟩
  | noted hp => exact ⟨row, hrow, hat.still (by simp [hp]) (by simp)⟩
  | finished hp hfinish =>
    obtain ⟨hkeep, row', hrow', hstatus, -, hcount, htotals⟩ := TraceStore.finishTask_spec hfinish
    refine ⟨row', hrow', fun hne => absurd rfl hne, fun _ => ⟨hstatus ▸ statusOf_ne_running _, hcount, ?_⟩⟩
    show TraceStore.HasTotals row' (TraceStore.spansOf _ rec.taskId)
    rw [hkeep]
    exact htotals
  | raised hp => exact ⟨row, hrow, hat.still hp (by simp)⟩
  | others store hspans ht =>
    refine ⟨row, ht.trans hrow, ?_⟩
    show RowAt _ (store.spansOf rec.taskId) _ _
    rw [hspans]
    exact hat

theorem rowed_of_exec (h0 : Begins rec r) (h : Exec (RecorderStep rec) r tr r') : Rowed rec r' :=
  h.stateInvariant (Rowed rec) (rowed_begin h0) fun _ _ _ hrowed hs => hs.rowed hrowed

/-! ### Decisions -/

/-- The decision the graph is to be resumed with. -/
def Phase.resume : Phase → Option HumanDecision
  | .invoking resume => resume
  | _ => none

def RecorderLabel.decision : RecorderLabel → Option HumanDecision
  | .resumed decision => some decision
  | _ => none

/-- The decisions a run has been resumed with. -/
def decisionsOf (tr : List RecorderLabel) : List HumanDecision := tr.filterMap RecorderLabel.decision

theorem length_decisionsOf_snoc (tr : List RecorderLabel) (l : RecorderLabel) :
    (decisionsOf (tr ++ [l])).length = (decisionsOf tr).length + l.decision.toList.length := by
  unfold decisionsOf
  rw [List.filterMap_append, List.length_append]
  cases h : l.decision with
  | none => simp [h]
  | some decision => simp [h]

/-- Every decision has led to one escalation event, but for the one that is about to. -/
def Counted (n : Nat) (r : Recorder) : Prop :=
  r.phase = .raised ∨ (escalations r.graph.events).length + r.phase.resume.toList.length = n

/-- Step lemma. -/
theorem RecorderStep.counted {n : Nat} (h : Counted n r) (hu : Underway r.graph) (hs : RecorderStep rec r l r') :
    Counted (n + l.decision.toList.length) r' := by
  have hquiet : ∀ phase : Phase, r.phase = phase → phase ≠ .raised →
      (escalations r.graph.events).length + phase.resume.toList.length = n := by
    intro phase hp hne
    rcases h with hraised | hcount
    · exact absurd (hp.symm.trans hraised) hne
    · exact hp ▸ hcount
  cases hs with
  | graph hp hgraph hl =>
    obtain ⟨new, hnew, hcount, -⟩ := hgraph.events hu
    have hold := hquiet _ hp (by simp)
    refine Or.inr ?_
    show (escalations _).length + 0 = n + 0
    rw [hnew, escalations_append, List.length_append, hcount, hl]
    exact hold
  | invoked hp hreturns => exact Or.inr (hquiet (.invoking none) hp (by simp))
  | @persisted span spans hp => exact Or.inr (hquiet (.recording (span :: spans)) hp (by simp))
  | submitted hp hn hq he hqueue => exact Or.inr (hquiet (.recording []) hp (by simp))
  | prompted hp hn hq => exact Or.inr (hquiet (.recording []) hp (by simp))
  | queue hq ha hw hqueue he => exact h
  | resumed hp hq hqueue => exact Or.inr (congrArg (· + 1) (hquiet .waiting hp (by simp)))
  | answered decision hp hq => exact Or.inr (congrArg (· + 1) (hquiet .waiting hp (by simp)))
  | measured hp hn => exact Or.inr (hquiet (.recording []) hp (by simp))
  | @noted ms createdAt resolvedAt hp => exact Or.inr (hquiet (.noting ms) hp (by simp))
  | @finished ms now store hp hfinish => exact Or.inr (hquiet (.closing ms) hp (by simp))
  | raised hp => exact Or.inl rfl
  | others store hspans ht => exact h

theorem counted_of_exec (h0 : Begins rec r) (h : Exec (RecorderStep rec) r tr r') :
    Counted (decisionsOf tr).length r' := by
  refine h.invariant (fun tr r => Counted (decisionsOf tr).length r) (Or.inr ?_) fun tr r l r' hrun hcount hs => ?_
  · rw [h0.events, h0.phase]
    rfl
  · rw [length_decisionsOf_snoc]
    exact hs.counted hcount (underway_of_exec h0 hrun)

/-! ### Agents -/

/-- Every event has one of the agents. -/
theorem agents_of_exec (h0 : Begins rec r) (h : Exec (RecorderStep rec) r tr r') :
    ∀ event ∈ r'.graph.events, event.agent ∈ agentNames := by
  refine h.invariant (fun _ r => ∀ event ∈ r.graph.events, event.agent ∈ agentNames) ?_ fun tr r l r' hrun hagents hs => ?_
  · rw [h0.events]
    simp
  · cases hs with
    | graph hp hgraph hl =>
      obtain ⟨new, hnew, -, hnames⟩ := hgraph.events (underway_of_exec h0 hrun)
      intro event hevent
      rw [hnew] at hevent
      rcases List.mem_append.1 hevent with hold | hfresh
      · exact hagents event hold
      · exact hnames event hfresh
    | _ => exact hagents

/-! ### Totals -/

/-- The tokens and the tool spans among the spans of an event. -/
theorem spansOfEvent_totals (pricing : ModelPricing) (event : TraceEvent) :
    ((spansOfEvent pricing event).map (·.inputTokens)).sum = (tokensOf [event]).inputTokens ∧
      ((spansOfEvent pricing event).map (·.outputTokens)).sum = (tokensOf [event]).outputTokens ∧
      ((spansOfEvent pricing event).filter (·.toolName.isSome)).length = event.attributes.toolCalls.length := by
  have hinput : (event.attributes.toolCalls.map fun call => (toolSpan event call).inputTokens).sum = 0 :=
    List.sum_eq_zero fun n hn => by
      obtain ⟨call, -, rfl⟩ := List.mem_map.1 hn
      rfl
  have houtput : (event.attributes.toolCalls.map fun call => (toolSpan event call).outputTokens).sum = 0 :=
    List.sum_eq_zero fun n hn => by
      obtain ⟨call, -, rfl⟩ := List.mem_map.1 hn
      rfl
  rw [tokensOf_singleton, TokenUsage.inputTokens_sum, TokenUsage.outputTokens_sum]
  refine ⟨?_, ?_, ?_⟩
  · simpa [spansOfEvent, nodeSpan, Function.comp_def, UsageEntry.tokens] using hinput
  · simpa [spansOfEvent, nodeSpan, Function.comp_def, UsageEntry.tokens] using houtput
  · simp [spansOfEvent, nodeSpan, toolSpan, List.filter_map, Function.comp_def]

/-- The totals of the spans of the events. -/
theorem spansOfEvents_totals (pricing : ModelPricing) (events : List TraceEvent) :
    ((spansOfEvents pricing events).map (·.inputTokens)).sum = (tokensOf events).inputTokens ∧
      ((spansOfEvents pricing events).map (·.outputTokens)).sum = (tokensOf events).outputTokens ∧
      ((spansOfEvents pricing events).filter (·.toolName.isSome)).length =
        (events.map (·.attributes.toolCalls.length)).sum := by
  induction events with
  | nil => exact ⟨rfl, rfl, rfl⟩
  | cons event events ih =>
    obtain ⟨hinput, houtput, htools⟩ := spansOfEvent_totals pricing event
    obtain ⟨ihinput, ihoutput, ihtools⟩ := ih
    have hsplit : tokensOf (event :: events) = tokensOf [event] + tokensOf events := tokensOf_append [event] events
    have hspans : spansOfEvents pricing (event :: events) =
        spansOfEvent pricing event ++ spansOfEvents pricing events := List.flatMap_cons
    rw [hspans, hsplit]
    refine ⟨?_, ?_, ?_⟩
    · rw [List.map_append, List.sum_append, hinput, ihinput, TokenUsage.inputTokens_add]
    · rw [List.map_append, List.sum_append, houtput, ihoutput, TokenUsage.outputTokens_add]
    · rw [List.filter_append, List.length_append, htools, ihtools, List.map_cons, List.sum_cons]

/-! ### Runs that return -/

/-- A run that returns has stored the spans of all events and closed the row of its task with their totals. -/
theorem row_of_returned (h0 : Begins rec r) (h : Exec (RecorderStep rec) r tr r') (hret : r'.phase = .returned) :
    r'.store.spansOf rec.taskId = spansOfEvents rec.pricing r'.graph.events ∧ ∃ row,
      r'.store.getTask rec.taskId = some row ∧
        RowClosed r'.graph.events (spansOfEvents rec.pricing r'.graph.events) row := by
  have hspans : r'.store.spansOf rec.taskId = spansOfEvents rec.pricing r'.graph.events := by
    have hat := spanned_of_exec h0 h
    unfold Spanned at hat
    rwa [hret] at hat
  obtain ⟨row, hrow, hat⟩ := rowed_of_exec h0 h
  exact ⟨hspans, row, hrow, hspans ▸ hat.closed hret⟩

/-- However often a run has been interrupted and resumed: when it returns, the spans of its task are those of the events
of the graph, each once and in order, and its row has the totals of these events and the number of decisions. -/
theorem spans_exactly_once (h0 : Begins rec r) (h : Exec (RecorderStep rec) r tr r') (hret : r'.phase = .returned) :
    r'.store.spansOf rec.taskId = (r'.graph.events.flatMap fun event =>
        nodeSpan rec.pricing event :: event.attributes.toolCalls.map (toolSpan event)) ∧
      ∃ row, r'.store.getTask rec.taskId = some row ∧
        row.totalToolCalls = (r'.graph.events.map (·.attributes.toolCalls.length)).sum ∧
        row.totalInputTokens = (tokensOf r'.graph.events).inputTokens ∧
        row.totalOutputTokens = (tokensOf r'.graph.events).outputTokens ∧
        row.escalationCount = (decisionsOf tr).length := by
  obtain ⟨hspans, row, hrow, hclosed⟩ := row_of_returned h0 h hret
  obtain ⟨hinput, houtput, htools⟩ := spansOfEvents_totals rec.pricing r'.graph.events
  have htotals := hclosed.totals
  have hcount : (escalations r'.graph.events).length = (decisionsOf tr).length := by
    rcases counted_of_exec h0 h with hraised | hcount
    · exact absurd (hret.symm.trans hraised) (by simp)
    · rwa [hret] at hcount
  exact ⟨hspans, row, hrow, htotals.toolCalls.trans htools, htotals.inputTokens.trans hinput,
    htotals.outputTokens.trans houtput, hclosed.escalationCount.trans hcount⟩

/-- A run interrupted once, in which a specialist has used a tool. -/
theorem spans_once_interrupted : ∃ tr r, Exec (RecorderStep sampleRecording) (sampleRecorder none) tr r ∧
    r.phase = .returned ∧ r.graph.events.length = 8 ∧ (decisionsOf tr).length = 1 ∧
    r.store.spansOf "t" = (r.graph.events.flatMap fun event =>
      nodeSpan sampleRecording.pricing event :: event.attributes.toolCalls.map (toolSpan event)) ∧
    ∃ row, r.store.getTask "t" = some row ∧
      row.totalToolCalls = (r.graph.events.map (·.attributes.toolCalls.length)).sum ∧
      row.totalInputTokens = (tokensOf r.graph.events).inputTokens ∧
      row.totalOutputTokens = (tokensOf r.graph.events).outputTokens ∧ row.escalationCount = (decisionsOf tr).length := by
  have hscript : scriptEnds (Recorder.advance sampleRecording sampleAnswer) (sampleRecorder none) (approvedScript .none)
      (fun tr r => decide (r.phase = .returned ∧ r.graph.events.length = 8 ∧ (decisionsOf tr).length = 1)) = true := by
    decide +kernel
  obtain ⟨tr, r, hrun, hp⟩ := exists_run hscript
  obtain ⟨hret, hlength, hdecisions⟩ := of_decide_eq_true hp
  exact ⟨tr, r, hrun, hret, hlength, hdecisions, spans_exactly_once (begins_sampleRecorder none) hrun hret⟩

/-! ### Runs that end with an exception -/

/-- `run_traced_task` has returned or raised an exception. -/
def Exited (r : Recorder) : Prop := r.phase = .returned ∨ r.phase = .raised

/-- All events of the graph have been persisted, and the row of the task is closed with the totals of their spans. -/
def Survives (rec : Recording) (r : Recorder) : Prop :=
  r.store.spansOf rec.taskId = spansOfEvents rec.pricing r.graph.events ∧ ∃ row,
    r.store.getTask rec.taskId = some row ∧ row.status ≠ .running ∧
      TraceStore.HasTotals row (r.store.spansOf rec.taskId)

/-- A run has raised an exception exactly if it has ended so. -/
theorem raised_iff_of_exec (h0 : Begins rec r) (h : Exec (RecorderStep rec) r tr r') :
    .raised ∈ tr ↔ r'.phase = .raised := by
  refine h.invariant (fun tr r => RecorderLabel.raised ∈ tr ↔ r.phase = .raised) ?_ fun tr r l r' hrun hiff hs => ?_
  · rw [h0.phase]
    simp
  · rw [List.mem_append, hiff, List.mem_singleton]
    cases hs with
    | queue hq ha hw hqueue he => simp
    | others store hspans ht => simp
    | graph hp _ _ => simp [hp]
    | invoked hp _ => simp [hp]
    | persisted hp => simp [hp]
    | submitted hp _ _ _ _ => simp [hp]
    | prompted hp _ _ => simp [hp]
    | resumed hp _ _ => simp [hp]
    | answered decision hp _ => simp [hp]
    | measured hp _ => simp [hp]
    | noted hp => simp [hp]
    | finished hp _ => simp [hp]
    | raised hp => simp

/-- The trace survives exactly the runs in which nothing raises an exception. -/
theorem survives_iff (h0 : Begins rec r) (h : Exec (RecorderStep rec) r tr r') (hexit : Exited r') :
    Survives rec r' ↔ .raised ∉ tr := by
  rw [raised_iff_of_exec h0 h]
  obtain ⟨row, hrow, hat⟩ := rowed_of_exec h0 h
  constructor
  · -- an exception leaves the row open
    rintro ⟨-, row', hrow', hstatus, -⟩ hraised
    obtain rfl := Option.some.inj (hrow.symm.trans hrow')
    exact hstatus (hat.running (by simp [hraised]))
  · intro hne
    obtain ⟨hspans, row', hrow', hclosed⟩ := row_of_returned h0 h (hexit.resolve_right hne)
    exact ⟨hspans, row', hrow', hclosed.status, hspans ▸ hclosed.totals⟩

/-- A run that returns. -/
theorem survives_approved : ∃ tr r, Exec (RecorderStep sampleRecording) (sampleRecorder none) tr r ∧
    r.phase = .returned ∧ Survives sampleRecording r := by
  have hscript : scriptEnds (Recorder.advance sampleRecording sampleAnswer) (sampleRecorder none) (approvedScript .none)
      (fun _ r => decide (r.phase = .returned)) = true := by
    decide +kernel
  obtain ⟨tr, r, hrun, hp⟩ := exists_run hscript
  have hret := of_decide_eq_true hp
  have hraised : .raised ∉ tr := by
    rw [raised_iff_of_exec (begins_sampleRecorder none) hrun, hret]
    simp
  exact ⟨tr, r, hrun, hret, (survives_iff (begins_sampleRecorder none) hrun (Or.inl hret)).2 hraised⟩

/-- The first call of the model raises an exception: `intake` has completed, but its event is not persisted, and the row
of the task is left open. -/
theorem trace_lost : ∃ tr r row, Exec (RecorderStep sampleRecording) (sampleRecorder none) tr r ∧ r.phase = .raised ∧
    r.graph.events.length = 1 ∧ r.store.spansOf "t" = [] ∧ r.store.getTask "t" = some row ∧ row.status = .running ∧
    ¬ Survives sampleRecording r := by
  have hscript : scriptEnds (Recorder.advance sampleRecording sampleAnswer) (sampleRecorder none)
      [nodeInput (.intake "u" none), .raise]
      (fun _ r => decide (r.phase = .raised ∧ r.graph.events.length = 1 ∧ r.store.spansOf "t" = [])) = true := by
    decide +kernel
  obtain ⟨tr, r, hrun, hp⟩ := exists_run hscript
  obtain ⟨hraised, hlength, hspans⟩ := of_decide_eq_true hp
  obtain ⟨row, hrow, hat⟩ := rowed_of_exec (begins_sampleRecorder none) hrun
  have hopen : row.status = .running := hat.running (by simp [hraised])
  refine ⟨tr, r, row, hrun, hraised, hlength, hspans, hrow, hopen, fun hsurvives => ?_⟩
  obtain ⟨-, row', hrow', hstatus, -⟩ := hsurvives
  obtain rfl := Option.some.inj (hrow.symm.trans hrow')
  exact hstatus hopen

end AgentOrchestrator
