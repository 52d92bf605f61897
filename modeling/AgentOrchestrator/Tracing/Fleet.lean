import AgentOrchestrator.Lib.Crew
import AgentOrchestrator.Tracing.Persistence

/-!
# Many recorders on one store

Every call of `run_traced_task` is a process of its own, and all of them write to one database.  A call starts with
`start_task`, under an id that is new.  In every interleaving, with exceptions anywhere, each call has run as by itself
(`recorder_of_fleet`), so that what is known of one run holds of each, and the two tables fit together: every span
belongs to a task whose run has begun, and every row to such a task (`linked_of_fleet`).
-/

namespace AgentOrchestrator

/-- What each task is run with. -/
structure Recordings where
  of : String → Recording
  taskId_eq : ∀ taskId, (of taskId).taskId = taskId

/-- `run_traced_task` up to `start_task`, on a store. -/
structure Launches (rec : Recording) (store : TraceStore) (r : Recorder) : Prop where
  called : ∃ task userId requireHumanApproval now,
    r.graph.config = start (initialState rec task userId requireHumanApproval) ∧
      r.store = store.startTask rec.taskId userId task now
  events : r.graph.events = []
  batch : r.graph.batch = none
  queue : ∃ store, store.approvals.get? rec.taskId = none ∧ r.queue = ApprovalQueue.start store
  recorded : r.recorded = 0
  phase : r.phase = .invoking none

theorem Launches.begins {rec : Recording} {store : TraceStore} {r : Recorder} (h : Launches rec store r)
    (hs : store.spansOf rec.taskId = []) : Begins rec r where
  config := by
    obtain ⟨task, userId, requireHumanApproval, now, hconfig, -⟩ := h.called
    exact ⟨task, userId, requireHumanApproval, hconfig⟩
  events := h.events
  batch := h.batch
  store := by
    obtain ⟨task, userId, requireHumanApproval, now, -, hstore⟩ := h.called
    exact ⟨store, userId, task, now, hs, hstore⟩
  queue := h.queue
  recorded := h.recorded
  phase := h.phase

def RecorderLabel.isOthers : RecorderLabel → Bool
  | .others => true
  | _ => false

/-- A step of another task leaves the spans and the row of a task as they are. -/
structure TraceStore.Apart (taskId : String) (store store' : TraceStore) : Prop where
  spans : store'.spansOf taskId = store.spansOf taskId
  row : store'.getTask taskId = store.getTask taskId

theorem TraceStore.Apart.refl (taskId : String) (store : TraceStore) : Apart taskId store store := ⟨rfl, rfl⟩

theorem Launches.apart {rec : Recording} {store : TraceStore} {r : Recorder} (h : Launches rec store r)
    {taskId : String} (hne : rec.taskId ≠ taskId) : TraceStore.Apart taskId store r.store := by
  obtain ⟨task, userId, requireHumanApproval, now, -, hstore⟩ := h.called
  rw [hstore]
  exact ⟨store.spansOf_startTask .., store.getTask_startTask_of_ne _ _ _ _ hne⟩

theorem RecorderStep.apart {rec : Recording} {r r' : Recorder} {l : RecorderLabel} (h : RecorderStep rec r l r')
    (hl : l.isOthers = false) {taskId : String} (hne : rec.taskId ≠ taskId) :
    TraceStore.Apart taskId r.store r'.store := by
  cases h with
  | persisted hp => exact ⟨r.store.spansOf_addSpan_of_ne _ _ hne, r.store.getTask_addSpan ..⟩
  | finished hp hfinish =>
    obtain ⟨hspans, -⟩ := TraceStore.finishTask_spec hfinish
    exact ⟨hspans taskId, TraceStore.getTask_finishTask_of_ne hfinish hne⟩
  | others store hs ht => exact absurd hl (by simp [RecorderLabel.isOthers])
  | _ => exact .refl taskId r.store

/-- The calls of `run_traced_task`, by their task ids. -/
def recorders (recs : Recordings) : Crew String Recorder RecorderLabel TraceStore where
  store := Recorder.store
  put store r := { r with store := store }
  begins taskId store r := Launches (recs.of taskId) store r
  step taskId r l r' := RecorderStep (recs.of taskId) r l r' ∧ l.isOthers = false
  others taskId store store' := TraceStore.Apart taskId store store'
  fresh taskId store := store.spansOf taskId = [] ∧ store.getTask taskId = none
  store_put _ _ := rfl
  others_of_begins taskId taskId' store r h hne := h.apart (by rwa [recs.taskId_eq])
  others_of_step taskId taskId' r l r' h hne := h.1.apart h.2 (by rwa [recs.taskId_eq])
  fresh_of_others taskId store store' h ho := ⟨ho.spans.trans h.1, ho.row.trans h.2⟩

/-- The calls that have begun, and the store they share. -/
abbrev TraceFleet := Crew.Fleet String Recorder TraceStore

abbrev FleetLabel := Crew.Label String RecorderLabel

/-- A new call, or a step of one of the calls. -/
abbrev FleetStep (recs : Recordings) : TraceFleet → FleetLabel → TraceFleet → Prop := (recorders recs).Step

/-- An empty database. -/
def noTraces : TraceFleet :=
  .empty { ordered := List.Pairwise.nil, le_lastId := fun _ h => absurd h List.not_mem_nil }

section

variable {recs : Recordings} {tr : List FleetLabel} {f f' : TraceFleet} {taskId : String} {r : Recorder} {l : FleetLabel}

theorem decisionsOf_cons (l : RecorderLabel) (tr : List RecorderLabel) :
    decisionsOf (l :: tr) = l.decision.toList ++ decisionsOf tr := by
  unfold decisionsOf
  rw [List.filterMap_cons]
  cases l.decision <;> rfl

theorem fresh_noTraces (recs : Recordings) (taskId : String) : (recorders recs).fresh taskId {} := ⟨rfl, rfl⟩

theorem recorderStep_of_solo {o : Option RecorderLabel} {r' : Recorder} (h : (recorders recs).Solo taskId r o r') :
    RecorderStep (recs.of taskId) r (o.getD .others) r' := by
  cases h with
  | own h => exact h.1
  | others h => exact .others _ (by rw [recs.taskId_eq]; exact h.spans) (by rw [recs.taskId_eq]; exact h.row)

theorem exec_of_solo {tr : List (Option RecorderLabel)} {r' : Recorder}
    (h : Exec ((recorders recs).Solo taskId) r tr r') :
    Exec (RecorderStep (recs.of taskId)) r (tr.map fun o => o.getD .others) r' := by
  induction h with
  | refl => exact .refl
  | snoc _ hs ih =>
    rw [List.map_append]
    exact ih.snoc (recorderStep_of_solo hs)

/-- In every interleaving each call has run as by itself, on the store that all of them share. -/
theorem recorder_of_fleet (h : Exec (FleetStep recs) noTraces tr f) (hm : f.member taskId = some r) :
    r.store = f.store ∧ ∃ r₀ tr', Begins (recs.of taskId) r₀ ∧ Exec (RecorderStep (recs.of taskId)) r₀ tr' r ∧
      decisionsOf tr' = decisionsOf (tr.filterMap (Crew.Label.of taskId)) := by
  obtain ⟨-, hmember⟩ := Crew.solo_of_exec (fresh_noTraces recs) h taskId
  obtain ⟨hstore, store, r₀, labels, hfresh, hlaunch, hrun, hlabels⟩ := hmember r hm
  refine ⟨hstore, r₀, _, hlaunch.begins (by rw [recs.taskId_eq]; exact hfresh.1), exec_of_solo hrun, ?_⟩
  -- the steps of the others are no decisions
  have hdecisions : ∀ labels : List (Option RecorderLabel),
      decisionsOf (labels.map fun o => o.getD .others) = decisionsOf labels.reduceOption := by
    intro labels
    induction labels with
    | nil => rfl
    | cons o labels ih =>
      rw [List.map_cons, decisionsOf_cons, ih]
      cases o with
      | none => rfl
      | some l => exact (decisionsOf_cons l _).symm
  rw [hdecisions, hlabels]

/-! ### The two tables -/

/-- What a step of the call for a task does to the store. -/
inductive TraceStore.Wrote (taskId : String) (store : TraceStore) : TraceStore → Prop
  | nothing : Wrote taskId store store
  | span (span : Span) : Wrote taskId store (store.addSpan taskId span)
  | totals {status : TaskStatus} {taskType : Option String} {humanReviewMs : ℚ} {escalationCount : Nat} {now : ℚ}
      {store' : TraceStore}
      (h : store.finishTask taskId status taskType humanReviewMs escalationCount now = .ok store') :
      Wrote taskId store store'

theorem RecorderStep.wrote {rec : Recording} {r r' : Recorder} {l : RecorderLabel} (h : RecorderStep rec r l r')
    (hl : l.isOthers = false) : TraceStore.Wrote rec.taskId r.store r'.store := by
  cases h with
  | @persisted span spans hp => exact .span span
  | finished hp hfinish => exact .totals hfinish
  | others store hs ht => exact absurd hl (by simp [RecorderLabel.isOthers])
  | _ => exact .nothing

/-- The spans and the rows belong to tasks whose calls have begun, and each of these has its row. -/
structure Linked (begun : String → Prop) (store : TraceStore) : Prop where
  spans : ∀ span ∈ store.spans, begun span.taskId
  rows : ∀ taskId, (∃ row, store.getTask taskId = some row) ↔ begun taskId

theorem Linked.startTask {begun begun' : String → Prop} {store : TraceStore} (h : Linked begun store)
    (hb : ∀ taskId', begun' taskId' ↔ taskId' = taskId ∨ begun taskId') (userId task : String) (now : ℚ) :
    Linked begun' (store.startTask taskId userId task now) where
  spans span hspan := (hb _).2 (Or.inr (h.spans span hspan))
  rows taskId' := by
    rw [hb, ← h.rows]
    by_cases heq : taskId' = taskId
    · subst heq
      simp
    · rw [store.getTask_startTask_of_ne _ _ _ _ (Ne.symm heq)]
      simp [heq]

theorem Linked.wrote {begun : String → Prop} {store store' : TraceStore} (h : Linked begun store)
    (hb : begun taskId) (hw : TraceStore.Wrote taskId store store') : Linked begun store' := by
  cases hw with
  | nothing => exact h
  | span span =>
    refine ⟨fun span' hspan' => ?_, h.rows⟩
    rcases List.mem_append.1 hspan' with hold | hnew
    · exact h.spans span' hold
    · obtain rfl := List.mem_singleton.1 hnew
      exact hb
  | totals hfinish =>
    refine ⟨?_, fun taskId' => ?_⟩
    · unfold TraceStore.finishTask at hfinish
      split at hfinish
      · exact absurd hfinish (by simp)
      · obtain rfl := Except.ok.inj hfinish
        exact h.spans
    · by_cases heq : taskId = taskId'
      · subst heq
        obtain ⟨-, row, hrow, -⟩ := TraceStore.finishTask_spec hfinish
        exact ⟨fun _ => hb, fun _ => ⟨row, hrow⟩⟩
      · rw [TraceStore.getTask_finishTask_of_ne hfinish heq]
        exact h.rows taskId'

/-- In every interleaving the tables fit together. -/
theorem linked_of_fleet (h : Exec (FleetStep recs) noTraces tr f) :
    Linked (fun taskId => ∃ r, f.member taskId = some r) f.store := by
  refine h.invariant (fun _ f => Linked (fun taskId => ∃ r, f.member taskId = some r) f.store) ?_ ?_
  · refine ⟨fun span hspan => absurd hspan List.not_mem_nil, fun taskId => ⟨?_, ?_⟩⟩
    · rintro ⟨row, hrow⟩
      exact absurd ((fresh_noTraces recs taskId).2.symm.trans hrow) (by simp)
    · rintro ⟨r, hr⟩
      exact absurd hr (by simp [noTraces, Crew.Fleet.empty])
  · intro tr t l u hrun hlinked hstep
    cases hstep with
    | @begin taskId r hm hlaunch =>
      obtain ⟨task, userId, requireHumanApproval, now, -, hstore⟩ := hlaunch.called
      rw [recs.taskId_eq] at hstore
      show Linked _ r.store
      rw [hstore]
      exact hlinked.startTask (fun _ => Crew.member_set) userId task now
    | @move taskId r r' l hm hs =>
      obtain ⟨hstep, hl⟩ := hs
      have hw := hstep.wrote hl
      rw [recs.taskId_eq, (recorder_of_fleet hrun hm).1] at hw
      have hsame : ∀ taskId', (∃ r₂, (t.set (recorders recs) taskId r').member taskId' = some r₂) ↔
          ∃ r₂, t.member taskId' = some r₂ := by
        intro taskId'
        rw [Crew.member_set]
        exact or_iff_right_of_imp fun heq => ⟨r, heq ▸ hm⟩
      simp only [hsame]
      exact hlinked.wrote ⟨r, hm⟩ hw

/-- A call in a fleet: what has been persisted of it is an initial part of the spans of its events, and its row is
closed exactly if it has returned. -/
theorem row_of_fleet (h : Exec (FleetStep recs) noTraces tr f) (hm : f.member taskId = some r) :
    f.store.spansOf taskId <+: spansOfEvents (recs.of taskId).pricing r.graph.events ∧ ∃ row,
      f.store.getTask taskId = some row ∧ (row.status ≠ .running ↔ r.phase = .returned) ∧
        (r.phase = .returned → f.store.spansOf taskId = spansOfEvents (recs.of taskId).pricing r.graph.events ∧
          TraceStore.HasTotals row (f.store.spansOf taskId) ∧
          row.escalationCount = (decisionsOf (tr.filterMap (Crew.Label.of taskId))).length) := by
  obtain ⟨hstore, r₀, tr', h0, hrun, hdecisions⟩ := recorder_of_fleet h hm
  have hspanned := spanned_of_exec h0 hrun
  obtain ⟨row, hrow, hat⟩ := rowed_of_exec h0 hrun
  unfold Spanned at hspanned
  rw [recs.taskId_eq, hstore] at hspanned hrow
  refine ⟨hspanned.initial, row, hrow, ⟨fun hclosed => ?_, fun hret => (hat.closed hret).status⟩, fun hret => ?_⟩
  · by_contra hne
    exact hclosed (hat.running hne)
  · obtain ⟨hspans, row', hrow', hclosed⟩ := row_of_returned h0 hrun hret
    rw [recs.taskId_eq, hstore] at hspans hrow'
    obtain rfl := Option.some.inj (hrow.symm.trans hrow')
    have hcount : row.escalationCount = (decisionsOf tr').length := by
      rcases counted_of_exec h0 hrun with hraised | hcount
      · exact absurd (hret.symm.trans hraised) (by simp)
      · rw [hclosed.escalationCount, ← hcount, hret]
        rfl
    exact ⟨hspans, hspans ▸ hclosed.totals, hdecisions ▸ hcount⟩

/-- However many calls write to the database, in whichever order their inserts come and wherever they break off: every
span belongs to a task whose call has begun, what has been persisted of a call is an initial part of the spans of its
events, in order, and its row is closed exactly if it has returned; then all its spans are there, and the row has their
totals and the number of decisions. -/
theorem fleet_traces (h : Exec (FleetStep recs) noTraces tr f) :
    (∀ span ∈ f.store.spans, ∃ r, f.member span.taskId = some r) ∧
      ∀ taskId r, f.member taskId = some r →
        f.store.spansOf taskId <+: spansOfEvents (recs.of taskId).pricing r.graph.events ∧ ∃ row,
          f.store.getTask taskId = some row ∧ (row.status ≠ .running ↔ r.phase = .returned) ∧
            (r.phase = .returned → f.store.spansOf taskId = spansOfEvents (recs.of taskId).pricing r.graph.events ∧
              TraceStore.HasTotals row (f.store.spansOf taskId) ∧
              row.escalationCount = (decisionsOf (tr.filterMap (Crew.Label.of taskId))).length) :=
  ⟨(linked_of_fleet h).spans, fun _ _ hm => row_of_fleet h hm⟩

end

section Sample

def sampleRecordings : Recordings where
  of taskId := { sampleRecording with taskId := taskId }
  taskId_eq _ := rfl

/-- A call for a task, begun at a time on a store. -/
def sampleCall (taskId : String) (store : TraceStore) (now : ℚ) : Recorder :=
  { sampleRecorder none with
    graph := { (sampleRecorder none).graph with
      config := start (initialState (sampleRecordings.of taskId) "Report" "alice" false) }
    store := store.startTask taskId "alice" "Report" now }

theorem launches_sampleCall (taskId : String) (store : TraceStore) (now : ℚ) :
    Launches (sampleRecordings.of taskId) store (sampleCall taskId store now) where
  called := ⟨"Report", "alice", false, now, rfl, rfl⟩
  events := rfl
  batch := rfl
  queue := ⟨{}, rfl, rfl⟩
  recorded := rfl
  phase := rfl

/-- Two calls, begun on two days. -/
def sampleCalls : Recorder × Recorder :=
  let first := sampleCall "t" noTraces.store 0
  let second := sampleCall "u" first.store 86400
  ({ first with store := second.store }, second)

def sampleAdvance (taskId : String) : Recorder → RecorderInput → Except Unit (RecorderLabel × Recorder) :=
  guarded (Recorder.advance (sampleRecordings.of taskId) sampleAnswer) fun _ l => l.isOthers = false

/-- The reviewer looks at the entry of the task. -/
def RecorderInput.aimedAt (taskId : String) : RecorderInput → RecorderInput
  | .queue (.look _) => .queue (.look (.one taskId))
  | i => i

/-- Each step of the first call is followed by the same step of the second. -/
def inTurns (script : List RecorderInput) : List (RecorderInput ⊕ RecorderInput) :=
  script.flatMap fun i => [.inl (i.aimedAt "t"), .inr (i.aimedAt "u")]

/-- The second call is broken off after some of its spans, and the first goes on. -/
def brokenOff (n : Nat) (script : List RecorderInput) : List (RecorderInput ⊕ RecorderInput) :=
  inTurns (script.take n) ++ [.inr .raise] ++ (script.drop n).map .inl

abbrev samplePair (p : Recorder × Recorder) : TraceFleet := .pair (recorders sampleRecordings) "t" "u" p

theorem exists_fleet {script : List (RecorderInput ⊕ RecorderInput)} {q : Recorder × Recorder → Bool}
    (h : scriptEnds ((recorders sampleRecordings).advancePair sampleAdvance "t" "u") sampleCalls script
      (fun _ p => q p) = true) :
    ∃ tr p, Exec (FleetStep sampleRecordings) noTraces tr (samplePair p) ∧ q p = true := by
  have hfirst : (recorders sampleRecordings).begins "t" noTraces.store (sampleCall "t" noTraces.store 0) :=
    launches_sampleCall "t" _ 0
  have hadvance : ∀ taskId r i l r', sampleAdvance taskId r i = .ok (l, r') →
      (recorders sampleRecordings).step taskId r l r' := by
    intro taskId r i l r' hi
    obtain ⟨hadvance, hothers⟩ := of_guarded hi
    exact ⟨recorderStep_of_advance executes_sampleAnswer hadvance, hothers⟩
  obtain ⟨tr, p, hr, hq⟩ := Crew.exec_of_pairScript hadvance (by decide) hfirst (launches_sampleCall "u" _ 86400) h
  exact ⟨_, p, hr, hq⟩

/-- Two calls in turns, that have both returned. -/
theorem exists_fleet_returned {q : Recorder × Recorder → Bool}
    (h : scriptEnds ((recorders sampleRecordings).advancePair sampleAdvance "t" "u") sampleCalls
      (inTurns (approvedScript .none)) (fun _ p => decide (p.1.phase = .returned ∧ p.2.phase = .returned) && q p) = true) :
    ∃ tr p, Exec (FleetStep sampleRecordings) noTraces tr (samplePair p) ∧ q p = true ∧
      ∀ taskId r, (samplePair p).member taskId = some r → r.phase = .returned := by
  obtain ⟨tr, p, hr, hp⟩ := exists_fleet (q := fun p => decide (p.1.phase = .returned ∧ p.2.phase = .returned) && q p) h
  obtain ⟨hphases, hq⟩ := Bool.and_eq_true_iff.1 hp
  obtain ⟨hfirst, hsecond⟩ := of_decide_eq_true hphases
  refine ⟨tr, p, hr, hq, fun taskId r hm => ?_⟩
  rcases Crew.eq_of_member_pair hm with rfl | rfl
  · exact hfirst
  · exact hsecond

/-- Two calls in turns, the second of which is broken off when five of its nine spans have been inserted. -/
theorem fleet_traces_sample : ∃ tr p row row', Exec (FleetStep sampleRecordings) noTraces tr (samplePair p) ∧
    p.2.phase = .raised ∧ p.2.graph.events.length = 8 ∧
    (samplePair p).store.spansOf "t" = spansOfEvents sampleRecording.pricing p.1.graph.events ∧
    (samplePair p).store.getTask "t" = some row ∧ row.status ≠ .running ∧
    ((samplePair p).store.spansOf "u").length = 5 ∧
    (samplePair p).store.spansOf "u" <+: spansOfEvents sampleRecording.pricing p.2.graph.events ∧
    (samplePair p).store.getTask "u" = some row' ∧ row'.status = .running := by
  have hscript : scriptEnds ((recorders sampleRecordings).advancePair sampleAdvance "t" "u") sampleCalls
      (brokenOff 60 (approvedScript .none)) (fun _ p => decide (p.1.phase = .returned ∧ p.2.phase = .raised ∧
        p.2.graph.events.length = 8 ∧ (p.1.store.spansOf "u").length = 5)) = true := by
    decide +kernel
  obtain ⟨tr, p, hr, hp⟩ := exists_fleet (q := fun p => decide (_ ∧ _ ∧ _ ∧ _)) hscript
  obtain ⟨hret, hraised, hevents, hcount⟩ := of_decide_eq_true hp
  obtain ⟨-, htraces⟩ := fleet_traces hr
  obtain ⟨-, row, hrow, hclosed, hall⟩ := htraces "t" p.1 rfl
  obtain ⟨hinitial, row', hrow', hclosed', -⟩ := htraces "u" p.2 rfl
  have hopen : ¬ row'.status ≠ .running := fun hne => absurd (hraised.symm.trans (hclosed'.1 hne)) (by simp)
  exact ⟨tr, p, row, row', hr, hraised, hevents, (hall hret).1, hrow, hclosed.2 hret, hcount, hinitial, hrow',
    not_not.1 hopen⟩

end Sample

end AgentOrchestrator
