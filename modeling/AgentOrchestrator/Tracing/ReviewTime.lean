import AgentOrchestrator.Tracing.Persistence

/-!
# The review time

The queue has one entry for a task, and the recorder reads it once, when the graph has come to its end.  What is stored
is therefore the time that the last escalation has waited for its decision, and not the sum over all of them
(`review_time_iff`).

The waits are seen by an observer of the run (`Watch`), which notes when each escalation is submitted and in which
record the runner finds the decision.  That the entry agrees with it (`Settled`) is up to the other processes: a message
or a late decision writes the whole record, with whatever times it was read with (`Timely`).
-/

namespace AgentOrchestrator

/-! ### The queue between two escalations -/

namespace ApprovalQueue

variable {taskId : String} {sys sys' : System}

/-- A reading writes nothing. -/
def Call.ReadsOnly : Call → Prop
  | .reading p => p.Safe (fun c => writes c = false) (fun _ _ => True) fun _ => True
  | .writing _ => True

theorem readsOnly_look (look : Look) : (Call.reading look.program).ReadsOnly := by
  have hget : ∀ field, (get field : Program Submitted Aimed _).Safe (fun c => writes c = false) (fun _ _ => True)
      fun _ => True := fun _ => ⟨rfl, fun _ _ => trivial⟩
  cases look with
  | one field =>
    unfold Call.ReadsOnly Look.program
    exact (hget field).map fun _ _ => trivial
  | pending =>
    refine ⟨rfl, fun (ids : List String) _ => ?_⟩
    exact (Prog.Safe.mapM fun field _ => hget field).bind fun _ _ => trivial
  | all => exact ⟨rfl, fun _ _ => trivial⟩

/-- What a step of another process does: it may write the entry of the task. -/
structure Serves (taskId : String) (sys : System) (e : Event) (sys' : System) : Prop where
  runner : sys'.runner = sys.runner
  calls : ∀ call ∈ sys'.calls, call.ReadsOnly
  entry : e = .quiet ∧ sys'.store.approvals.get? taskId = sys.store.approvals.get? taskId ∨
    ∃ approval, e = .written approval ∧ sys'.store.approvals.get? taskId = some approval

theorem serves_of_write {c : Command Submitted Aimed} {calls : List Call} (hcalls : ∀ call ∈ calls, call.ReadsOnly) :
    Serves taskId sys (eventOf taskId c) { sys with store := (exec c sys.store).2, calls := calls } := by
  refine ⟨rfl, hcalls, ?_⟩
  cases c with
  | hset field value =>
    by_cases hf : field = taskId
    · refine Or.inr ⟨value, if_pos hf, ?_⟩
      exact (Dict.get?_insert ..).trans (if_pos hf.symm)
    · refine Or.inl ⟨if_neg hf, ?_⟩
      exact (Dict.get?_insert ..).trans (if_neg (Ne.symm hf))
  | _ => exact Or.inl ⟨rfl, rfl⟩

theorem serves_of_step {a : Action} {e : Event} (hcalls : ∀ call ∈ sys.calls, call.ReadsOnly)
    (ha : a.escalates = false) (hr : a ≠ .runner) (h : step taskId sys a = .ok (e, sys')) :
    Serves taskId sys e sys' := by
  cases a with
  | escalate request source now => exact absurd ha (by simp [Action.escalates])
  | runner => exact absurd rfl hr
  | look look =>
    obtain ⟨rfl, rfl⟩ := Prod.mk.inj (Except.ok.inj h)
    exact ⟨rfl, forall_calls_spawn hcalls (readsOnly_look look), Or.inl ⟨rfl, rfl⟩⟩
  | decide reading record decision now =>
    unfold step at h
    dsimp only at h
    split at h
    · split at h
      · obtain ⟨rfl, rfl⟩ := Prod.mk.inj (Except.ok.inj h)
        exact ⟨rfl, forall_calls_spawn hcalls trivial, Or.inl ⟨rfl, rfl⟩⟩
      · exact absurd h (by simp)
    · exact absurd h (by simp)
  | message taskId' message =>
    obtain ⟨rfl, rfl⟩ := Prod.mk.inj (Except.ok.inj h)
    exact ⟨rfl, forall_calls_spawn hcalls trivial, Or.inl ⟨rfl, rfl⟩⟩
  | proceed i =>
    have h' : stepCall taskId sys i = .ok (e, sys') := h
    unfold stepCall at h'
    split at h'
    · -- a reading issues no write, so the entry stays as it is
      rename_i c k hi
      obtain ⟨rfl, rfl⟩ := Prod.mk.inj (Except.ok.inj h')
      obtain ⟨hreads, hrest⟩ := hcalls _ (List.mem_of_getElem? hi)
      exact ⟨rfl, forall_calls_set hcalls (hrest _ trivial), Or.inl ⟨rfl, by rw [exec_approvals hreads]⟩⟩
    · obtain ⟨rfl, rfl⟩ := Prod.mk.inj (Except.ok.inj h')
      exact serves_of_write (forall_calls_set hcalls trivial)
    · exact absurd h' (by simp)

theorem calls_stepRunner {e : Event} (h : step taskId sys .runner = .ok (e, sys')) : sys'.calls = sys.calls := by
  have h' : stepRunner taskId sys = .ok (e, sys') := h
  unfold stepRunner at h'
  split at h'
  · exact absurd h' (by simp)
  · exact (Prod.mk.inj (Except.ok.inj h')).2 ▸ rfl
  · dsimp only at h'
    split at h'
    · exact (Prod.mk.inj (Except.ok.inj h')).2 ▸ rfl
    · exact (Prod.mk.inj (Except.ok.inj h')).2 ▸ rfl
  · exact (Prod.mk.inj (Except.ok.inj h')).2 ▸ rfl
  · exact (Prod.mk.inj (Except.ok.inj h')).2 ▸ rfl
  · exact (Prod.mk.inj (Except.ok.inj h')).2 ▸ rfl

end ApprovalQueue

/-! ### The observer -/

/-- `next` is the time of a submission the runner is about to make, `submittedAt` that of the last one it has made, and
`applied` the record in which it has found the decision on it.  `waits` are the times, in milliseconds, that the
escalations have waited, oldest first. -/
structure Watch where
  next : Option Nat := none
  submittedAt : Option Nat := none
  applied : Option ApprovalQueue.Approval := none
  waits : List ℚ := []

/-- The entry, if `wait_for_decision` finds a decision in it. -/
def decisive (entry : Option ApprovalQueue.Approval) : Option ApprovalQueue.Approval :=
  entry.filter fun approval => approval.status = .resolved ∧ approval.decision.isSome

@[simp] theorem decisive_some (approval : ApprovalQueue.Approval) : decisive (some approval) =
    if approval.status = .resolved ∧ approval.decision.isSome then some approval else none := by
  unfold decisive
  rw [Option.filter_some]
  simp

namespace Watch

/-- The time at which the decision was recorded minus the time at which the escalation was submitted. -/
def wait (w : Watch) : ℚ :=
  match w.submittedAt, w.applied.bind (·.resolvedAt) with
  | some submittedAt, some resolvedAt => ((resolvedAt : ℚ) - submittedAt) / 1000
  | _, _ => 0

def step (w : Watch) : RecorderLabel → Watch
  | .submitted now => { w with next := some now }
  | .queue _ (.submitted _) => { w with next := none, submittedAt := w.next, applied := none }
  | .queue (some entry) _ => { w with applied := decisive entry }
  | .resumed _ => { w with waits := w.waits ++ [w.wait] }
  | _ => w

/-- A write by another process keeps the time of the submission, and the time of the decision once the runner has found
it.  While the runner is about to submit, nothing is asked of it: the record is overwritten. -/
def Timely (w : Watch) : RecorderLabel → Prop
  | .queue _ (.written approval) => w.next = none →
    w.submittedAt = some approval.createdAt ∧ ∀ record ∈ w.applied, approval.resolvedAt = record.resolvedAt
  | _ => True

instance (w : Watch) (l : RecorderLabel) : Decidable (w.Timely l) :=
  match l with
  | .queue _ (.written approval) => inferInstanceAs (Decidable (w.next = none →
    w.submittedAt = some approval.createdAt ∧ ∀ record ∈ w.applied, approval.resolvedAt = record.resolvedAt))
  | .queue _ (.submitted _) => inferInstanceAs (Decidable True)
  | .queue _ (.resumed _ _) => inferInstanceAs (Decidable True)
  | .queue _ .quiet => inferInstanceAs (Decidable True)
  | .graph _ => inferInstanceAs (Decidable True)
  | .invoked => inferInstanceAs (Decidable True)
  | .persisted => inferInstanceAs (Decidable True)
  | .submitted _ => inferInstanceAs (Decidable True)
  | .prompted => inferInstanceAs (Decidable True)
  | .resumed _ => inferInstanceAs (Decidable True)
  | .measured _ => inferInstanceAs (Decidable True)
  | .noted => inferInstanceAs (Decidable True)
  | .finished => inferInstanceAs (Decidable True)
  | .raised => inferInstanceAs (Decidable True)
  | .others => inferInstanceAs (Decidable True)

end Watch

/-- The times that the escalations of a run have waited. -/
def reviewWaits (tr : List RecorderLabel) : List ℚ := (tr.foldl Watch.step {}).waits

/-- One wait for each decision. -/
theorem length_reviewWaits (tr : List RecorderLabel) : (reviewWaits tr).length = (decisionsOf tr).length := by
  unfold reviewWaits
  induction tr using List.reverseRecOn with
  | nil => rfl
  | append_singleton tr l ih =>
    rw [List.foldl_append, length_decisionsOf_snoc, ← ih]
    show (Watch.step _ l).waits.length = _
    unfold Watch.step
    split <;> simp [RecorderLabel.decision]

/-! ### The entry and the observer -/

section

variable {taskId : String} {sys sys' : ApprovalQueue.System} {w : Watch} {e : ApprovalQueue.Event}

/-- The entry of the task is of the last submission, with the time of its decision if the runner has found one. -/
structure Settled (w : Watch) (entry : Option ApprovalQueue.Approval) : Prop where
  next : w.next = none
  submitted : entry.map (·.createdAt) = w.submittedAt
  resolved : ∀ record ∈ w.applied, entry.bind (·.resolvedAt) = record.resolvedAt

/-- Nothing is waited for, and the last wait is over. -/
structure Concluded (w : Watch) (entry : Option ApprovalQueue.Approval) : Prop extends Settled w entry where
  found : w.submittedAt.isSome → w.applied.isSome
  last : w.waits.getLast?.getD 0 = w.wait

theorem Settled.written {entry : Option ApprovalQueue.Approval} {approval : ApprovalQueue.Approval}
    {read : Option (Option ApprovalQueue.Approval)} (h : Settled w entry)
    (ht : w.Timely (.queue read (.written approval))) : Settled w (some approval) := by
  have htimes : w.submittedAt = some approval.createdAt ∧ ∀ record ∈ w.applied, approval.resolvedAt = record.resolvedAt :=
    ht h.next
  exact ⟨h.next, htimes.1.symm, htimes.2⟩

/-- The entry gives the wait of the last submission. -/
theorem Settled.humanReviewMs {entry : Option ApprovalQueue.Approval} (h : Settled w entry)
    (hfound : w.submittedAt.isSome → w.applied.isSome) : humanReviewMs entry = w.wait := by
  have hsubmitted := h.submitted
  rcases entry with _ | approval
  · have hnone : w.submittedAt = none := hsubmitted.symm
    unfold Watch.wait
    rw [hnone]
    rfl
  · have hsome : w.submittedAt = some approval.createdAt := hsubmitted.symm
    obtain ⟨record, hrecord⟩ := Option.isSome_iff_exists.1 (hfound (by rw [hsome]; rfl))
    have hresolved : approval.resolvedAt = record.resolvedAt := h.resolved record hrecord
    unfold Watch.wait AgentOrchestrator.humanReviewMs
    rw [hsome, hrecord, Option.bind_some, ← hresolved]
    cases hat : approval.resolvedAt with
    | none => simp only [hat]
    | some resolvedAt => simp only [hat]

/-- Another process leaves an entry that still agrees with the observer. -/
theorem Settled.served (h : Settled w (sys.store.approvals.get? taskId))
    (hs : ApprovalQueue.Serves taskId sys e sys') (ht : w.Timely (.queue none e)) :
    Settled w (sys'.store.approvals.get? taskId) := by
  rcases hs.entry with ⟨-, hkeep⟩ | ⟨approval, rfl, hwritten⟩
  · rwa [hkeep]
  · rw [hwritten]
    exact h.written ht

/-! ### The runner while an escalation waits -/

/-- Where the runner is between the submission and the resumption. -/
inductive Stage (taskId : String) (sys : ApprovalQueue.System) (w : Watch) : Prop
  | submitting {approval : ApprovalQueue.Approval} (hr : sys.runner = .submitting (ApprovalQueue.submit approval))
      (hid : approval.taskId = taskId) (hat : w.next = some approval.createdAt)
  | registering (hr : sys.runner = .submitting (ApprovalQueue.sadd taskId))
      (hs : Settled w (sys.store.approvals.get? taskId))
  | registered (hr : sys.runner = .submitting (.ret ())) (hs : Settled w (sys.store.approvals.get? taskId))
  | polling (hr : sys.runner = .waiting (ApprovalQueue.pollDecision taskId))
      (hs : Settled w (sys.store.approvals.get? taskId))
  | undecided (hr : sys.runner = .waiting (.ret none)) (hs : Settled w (sys.store.approvals.get? taskId))
  | found {record : ApprovalQueue.Approval} {decision : ApprovalQueue.Aimed}
      (hr : sys.runner = .waiting (.ret (some decision))) (hs : Settled w (sys.store.approvals.get? taskId))
      (ha : w.applied = some record) (hd : record.decision = some decision)

theorem Stage.served (h : Stage taskId sys w) (hs : ApprovalQueue.Serves taskId sys e sys')
    (ht : w.Timely (.queue none e)) : Stage taskId sys' w := by
  cases h with
  | submitting hr hid hat => exact .submitting (hs.runner.trans hr) hid hat
  | registering hr hset => exact .registering (hs.runner.trans hr) (hset.served hs ht)
  | registered hr hset => exact .registered (hs.runner.trans hr) (hset.served hs ht)
  | polling hr hset => exact .polling (hs.runner.trans hr) (hset.served hs ht)
  | undecided hr hset => exact .undecided (hs.runner.trans hr) (hset.served hs ht)
  | found hr hset ha hd => exact .found (hs.runner.trans hr) (hset.served hs ht) ha hd

theorem pollDecision_eq : (ApprovalQueue.pollDecision taskId : ApprovalQueue.Program _ _ _) =
    .call (.hget taskId) fun entry => .ret ((decisive entry).bind (·.decision)) := by
  refine congrArg (Prog.call (ApprovalQueue.Command.hget taskId)) (funext fun (entry : Option _) => ?_)
  cases entry with
  | none => rfl
  | some approval =>
    show Prog.ret (if approval.status = .resolved then approval.decision else none) = _
    congr 1
    by_cases hs : approval.status = .resolved
    · cases hd : approval.decision with
      | none => simp [hs, hd]
      | some decision => simp [hs, hd]
    · simp [hs]

/-- The stamp on an entry changes nothing of the decision in it. -/
theorem decision_stamp (awaited : Option Nat) (entry : Option ApprovalQueue.Approval) :
    (decisive (entry.map (ApprovalQueue.stamp awaited))).bind (·.decision) = (decisive entry).bind (·.decision) := by
  cases entry with
  | none => rfl
  | some approval =>
    by_cases hs : approval.status = .resolved ∧ approval.decision.isSome
    · simp [ApprovalQueue.stamp, hs]
    · simp [ApprovalQueue.stamp, hs]

/-- A poll leaves the runner with the decision in the entry. -/
theorem step_poll (hr : sys.runner = .waiting (ApprovalQueue.pollDecision taskId)) :
    ApprovalQueue.step taskId sys .runner = .ok (.quiet,
      { sys with
        runner := .waiting (.ret ((decisive (sys.store.approvals.get? taskId)).bind (·.decision))) }) := by
  rw [← decision_stamp sys.awaited]
  unfold ApprovalQueue.step ApprovalQueue.stepRunner
  rw [hr, pollDecision_eq]
  rfl

/-- A step of the runner, short of the resumption. -/
theorem Stage.step (h : Stage taskId sys w) (hs : ApprovalQueue.step taskId sys .runner = .ok (e, sys'))
    (he : e.resumes = false) : Stage taskId sys' (w.step (.queue (sys.read taskId .runner) e)) := by
  have hrun : ApprovalQueue.stepRunner taskId sys = .ok (e, sys') := hs
  unfold ApprovalQueue.stepRunner at hrun
  unfold ApprovalQueue.System.read
  dsimp only
  cases h with
  | @submitting approval hr hid hat =>
    obtain rfl := hid
    rw [hr] at hrun ⊢
    obtain ⟨rfl, rfl⟩ := Prod.mk.inj (Except.ok.inj hrun)
    refine .registering rfl ⟨rfl, ?_, fun record hrecord => absurd hrecord (by simp [Watch.step])⟩
    show Option.map _ ((sys.store.approvals.insert approval.taskId approval).get? approval.taskId) = w.next
    rw [Dict.get?_insert, if_pos rfl, hat]
    rfl
  | registering hr hset =>
    rw [hr] at hrun ⊢
    obtain ⟨rfl, rfl⟩ := Prod.mk.inj (Except.ok.inj hrun)
    exact .registered rfl hset
  | registered hr hset =>
    rw [hr] at hrun ⊢
    obtain ⟨rfl, rfl⟩ := Prod.mk.inj (Except.ok.inj hrun)
    exact .polling rfl hset
  | polling hr hset =>
    -- the observer notes the entry exactly if the runner finds a decision in it
    obtain ⟨rfl, rfl⟩ := Prod.mk.inj (Except.ok.inj ((step_poll hr).symm.trans hs))
    rw [hr]
    show Stage taskId _ { w with applied := decisive (sys.store.approvals.get? taskId) }
    cases hd : decisive (sys.store.approvals.get? taskId) with
    | none => exact .undecided rfl ⟨hset.next, hset.submitted, fun record hrecord => absurd hrecord (by simp)⟩
    | some record =>
      obtain ⟨hentry, hfound⟩ := Option.filter_eq_some_iff.1 hd
      obtain ⟨-, hdecision⟩ := of_decide_eq_true hfound
      obtain ⟨decision, hdecision⟩ := Option.isSome_iff_exists.1 hdecision
      refine .found (congrArg (fun d => ApprovalQueue.Runner.waiting (.ret d)) hdecision) ⟨hset.next, hset.submitted, ?_⟩
        rfl hdecision
      intro record' hrecord
      obtain rfl := Option.some.inj hrecord
      show Option.bind (sys.store.approvals.get? taskId) _ = _
      rw [hentry]
      rfl
  | undecided hr hset =>
    rw [hr] at hrun ⊢
    obtain ⟨rfl, rfl⟩ := Prod.mk.inj (Except.ok.inj hrun)
    exact .polling rfl hset
  | found hr hset ha hd =>
    rw [hr] at hrun
    obtain ⟨rfl, rfl⟩ := Prod.mk.inj (Except.ok.inj hrun)
    exact absurd he (by simp [ApprovalQueue.Event.resumes])

/-- The runner resumes with the decision of the record in which it has found it. -/
theorem Stage.resumed {n : Nat} {decision : ApprovalQueue.Aimed} (h : Stage taskId sys w)
    (hs : ApprovalQueue.step taskId sys .runner = .ok (.resumed n decision, sys')) :
    sys' = { sys with runner := .running, awaited := none } ∧ Settled w (sys.store.approvals.get? taskId) ∧
      ∃ record, w.applied = some record ∧ record.decision = some decision := by
  obtain ⟨-, hr⟩ := ApprovalQueue.waiting_of_resumed ⟨_, hs⟩ rfl
  have hrun : ApprovalQueue.stepRunner taskId sys = .ok (.resumed n decision, sys') := hs
  unfold ApprovalQueue.stepRunner at hrun
  cases h with
  | submitting hr' hid hat => exact absurd (hr'.symm.trans hr) (by simp)
  | registering hr' hset => exact absurd (hr'.symm.trans hr) (by simp)
  | registered hr' hset => exact absurd (hr'.symm.trans hr) (by simp)
  | polling hr' hset =>
    rw [pollDecision_eq] at hr'
    exact absurd (hr'.symm.trans hr) (by simp)
  | undecided hr' hset => exact absurd (hr'.symm.trans hr) (by simp)
  | @found record decision' hr' hset ha hd =>
    rw [hr'] at hrun
    obtain ⟨he, rfl⟩ := Prod.mk.inj (Except.ok.inj hrun)
    obtain ⟨-, rfl⟩ := ApprovalQueue.Event.resumed.inj he
    exact ⟨rfl, hset, record, ha, hd⟩

end

/-! ### The whole run -/

/-- What the observer knows, by where the recorder is. -/
def ReviewAt (taskId : String) (queue : ApprovalQueue.System) (store : TraceStore) (w : Watch) : Phase → Prop
  | .invoking _ => queue.runner = .running ∧ Concluded w (queue.store.approvals.get? taskId)
  | .recording _ => queue.runner = .running ∧ Concluded w (queue.store.approvals.get? taskId)
  | .waiting => Stage taskId queue w
  | .noting ms => ms = w.waits.getLast?.getD 0
  | .closing ms => ms = w.waits.getLast?.getD 0
  | .returned => ∃ row, store.getTask taskId = some row ∧ row.humanReviewMs = w.waits.getLast?.getD 0
  | .raised => True

/-- The reviewers only read before they decide, and what the observer knows of the runner and the entry holds. -/
structure Watched (rec : Recording) (w : Watch) (r : Recorder) : Prop where
  calls : ∀ call ∈ r.queue.calls, call.ReadsOnly
  review : ReviewAt rec.taskId r.queue r.store w r.phase

variable {rec : Recording} {r r' : Recorder} {tr : List RecorderLabel} {l : RecorderLabel} {w : Watch}

theorem Concluded.served {taskId : String} {sys sys' : ApprovalQueue.System} {e : ApprovalQueue.Event}
    (h : Concluded w (sys.store.approvals.get? taskId)) (hs : ApprovalQueue.Serves taskId sys e sys')
    (ht : w.Timely (.queue none e)) : Concluded w (sys'.store.approvals.get? taskId) :=
  ⟨h.toSettled.served hs ht, h.found, h.last⟩

theorem ReviewAt.served {taskId : String} {queue queue' : ApprovalQueue.System} {store : TraceStore} {phase : Phase}
    {e : ApprovalQueue.Event} (h : ReviewAt taskId queue store w phase)
    (hs : ApprovalQueue.Serves taskId queue e queue') (ht : w.Timely (.queue none e)) :
    ReviewAt taskId queue' store w phase := by
  cases phase with
  | invoking resume => exact ⟨hs.runner.trans h.1, h.2.served hs ht⟩
  | recording pending => exact ⟨hs.runner.trans h.1, h.2.served hs ht⟩
  | waiting => exact Stage.served h hs ht
  | noting ms => exact h
  | closing ms => exact h
  | returned => exact h
  | raised => trivial

theorem calls_notified (rec : Recording) (s : OrchestratorState) (queue : ApprovalQueue.System)
    (createdAt resolvedAt : Nat) : (notified rec s queue createdAt resolvedAt).calls = queue.calls := by
  unfold notified
  split
  · split
    · rfl
    · rfl
  · rfl

/-- The observer notes nothing of the other processes. -/
theorem step_of_serves {taskId : String} {sys sys' : ApprovalQueue.System} {e : ApprovalQueue.Event}
    (hs : ApprovalQueue.Serves taskId sys e sys') : w.step (.queue none e) = w := by
  rcases hs.entry with ⟨rfl, -⟩ | ⟨approval, rfl, -⟩
  · rfl
  · rfl

theorem watched_begin (h : Begins rec r) : Watched rec {} r := by
  obtain ⟨store, hfresh, hqueue⟩ := h.queue
  have hentry : r.queue.store.approvals.get? rec.taskId = none := by
    rw [hqueue]
    exact hfresh
  refine ⟨fun call hcall => absurd (hqueue ▸ hcall) List.not_mem_nil, ?_⟩
  rw [h.phase]
  refine ⟨by rw [hqueue]; rfl, ⟨rfl, by rw [hentry]; rfl, fun record hrecord => absurd hrecord (by simp)⟩, ?_, rfl⟩
  exact fun hsome => absurd hsome (by simp)

/-- The wait of an escalation is over when the runner resumes. -/
theorem concluded_of_found {entry : Option ApprovalQueue.Approval} {record : ApprovalQueue.Approval}
    (h : Settled w entry) (ha : w.applied = some record) (decision : HumanDecision) :
    Concluded (w.step (.resumed decision)) entry := by
  refine ⟨⟨h.next, h.submitted, h.resolved⟩, fun _ => ?_, ?_⟩
  · show w.applied.isSome
    rw [ha]
    rfl
  · show (w.waits ++ [w.wait]).getLast?.getD 0 = w.wait
    rw [List.getLast?_concat]
    rfl

/-- The queue moves, the recorder does not. -/
theorem Watched.queue {a : ApprovalQueue.Action} {e : ApprovalQueue.Event} {queue : ApprovalQueue.System}
    (h : Watched rec w r) (ht : w.Timely (.queue (r.queue.read rec.taskId a) e)) (ha : a.escalates = false)
    (hw : a = .runner → r.phase = .waiting) (hqueue : ApprovalQueue.step rec.taskId r.queue a = .ok (e, queue))
    (he : e.resumes = false) :
    Watched rec (w.step (.queue (r.queue.read rec.taskId a) e)) { r with queue := queue } := by
  obtain ⟨hcalls, hreview⟩ := h
  by_cases hrunner : a = .runner
  · -- the runner only moves while an escalation waits
    obtain rfl := hrunner
    have hwait : r.phase = .waiting := hw rfl
    rw [hwait] at hreview
    refine ⟨ApprovalQueue.calls_stepRunner hqueue ▸ hcalls, ?_⟩
    show ReviewAt _ _ _ _ r.phase
    rw [hwait]
    exact Stage.step hreview hqueue he
  · have hserves := ApprovalQueue.serves_of_step hcalls ha hrunner hqueue
    have hread : r.queue.read rec.taskId a = none := by
      cases a with
      | runner => exact absurd rfl hrunner
      | _ => rfl
    rw [hread] at ht ⊢
    rw [step_of_serves hserves]
    exact ⟨hserves.calls, hreview.served hserves ht⟩

/-- Step lemma. -/
theorem RecorderStep.watched (hq : rec.useQueue = true) (h : Watched rec w r) (ht : w.Timely l)
    (hs : RecorderStep rec r l r') : Watched rec (w.step l) r' := by
  obtain ⟨hcalls, hreview⟩ := h
  cases hs with
  | graph hp hgraph hl =>
    rw [hp] at hreview
    exact ⟨hcalls, hreview⟩
  | invoked hp hreturns =>
    rw [hp] at hreview
    exact ⟨hcalls, hreview⟩
  | persisted hp =>
    rw [hp] at hreview
    exact ⟨hcalls, hreview⟩
  | @submitted request source now queue hp hn hq' he hqueue =>
    rw [hp] at hreview
    have hstep := hqueue
    unfold ApprovalQueue.step at hstep
    dsimp only at hstep
    rw [hreview.1] at hstep
    obtain ⟨-, rfl⟩ := Prod.mk.inj (Except.ok.inj hstep)
    exact ⟨hcalls, .submitting rfl rfl rfl⟩
  | prompted hp hn hq' => exact absurd (hq.symm.trans hq') (by simp)
  | queue hq' ha hw hqueue he => exact Watched.queue ⟨hcalls, hreview⟩ ht ha hw hqueue he
  | @resumed n decision queue hp hq' hqueue =>
    rw [hp] at hreview
    obtain ⟨rfl, hset, record, hrecord, -⟩ := Stage.resumed hreview hqueue
    exact ⟨hcalls, rfl, concluded_of_found hset hrecord _⟩
  | answered decision hp hq' => exact absurd (hq.symm.trans hq') (by simp)
  | measured hp hn =>
    rw [hp] at hreview
    refine ⟨hcalls, ?_⟩
    show (if rec.useQueue then _ else _) = w.waits.getLast?.getD 0
    rw [if_pos hq, hreview.2.last]
    exact hreview.2.toSettled.humanReviewMs hreview.2.found
  | noted hp =>
    rw [hp] at hreview
    refine ⟨?_, hreview⟩
    show ∀ call ∈ (notified rec _ r.queue _ _).calls, _
    rw [calls_notified]
    exact hcalls
  | finished hp hfinish =>
    rw [hp] at hreview
    obtain ⟨-, row, hrow, -, hms, -⟩ := TraceStore.finishTask_spec hfinish
    exact ⟨hcalls, row, hrow, hms.trans hreview⟩
  | raised hp => exact ⟨hcalls, trivial⟩
  | others store hspans htask =>
    refine ⟨hcalls, ?_⟩
    show ReviewAt _ _ store _ r.phase
    cases hp : r.phase with
    | returned =>
      rw [hp] at hreview
      obtain ⟨row, hrow, hms⟩ := hreview
      exact ⟨row, htask.trans hrow, hms⟩
    | _ =>
      rw [hp] at hreview
      exact hreview

/-- The time that is stored is the one the last escalation has waited. -/
theorem stored_of_returned (hq : rec.useQueue = true) (h0 : Begins rec r) (h : Exec (RecorderStep rec) r tr r')
    (ht : Along Watch.step Watch.Timely {} tr) (hret : r'.phase = .returned) :
    ∃ row, r'.store.getTask rec.taskId = some row ∧ row.humanReviewMs = (reviewWaits tr).getLast?.getD 0 := by
  have hwatched := h.observed (Watched rec) (watched_begin h0) (fun w r l r' hw hl hs => hs.watched hq hw hl) ht
  have hreview := hwatched.review
  rwa [hret] at hreview

theorem sum_eq_dropLast_add (l : List ℚ) : l.sum = l.dropLast.sum + l.getLast?.getD 0 := by
  rcases l.eq_nil_or_concat with rfl | ⟨l, x, rfl⟩
  · simp
  · simp

/-- In every run that returns, if the writes of the other processes are timely, there is one wait for each decision, and
the time stored for the task is the sum of the waits exactly if those before the last one add up to nothing. -/
theorem review_time_iff (hq : rec.useQueue = true) (h0 : Begins rec r) (h : Exec (RecorderStep rec) r tr r')
    (ht : Along Watch.step Watch.Timely {} tr) (hret : r'.phase = .returned) :
    (reviewWaits tr).length = (decisionsOf tr).length ∧ ∃ row, r'.store.getTask rec.taskId = some row ∧
      (row.humanReviewMs = (reviewWaits tr).sum ↔ (reviewWaits tr).dropLast.sum = 0) := by
  obtain ⟨row, hrow, hms⟩ := stored_of_returned hq h0 h ht hret
  refine ⟨length_reviewWaits tr, row, hrow, ?_⟩
  rw [hms, sum_eq_dropLast_add]
  exact right_eq_add

/-- A run with one escalation, which has waited four milliseconds. -/
theorem review_time_once : ∃ tr r, Exec (RecorderStep sampleRecording) (sampleRecorder none) tr r ∧
    r.phase = .returned ∧ reviewWaits tr = [4] ∧ (reviewWaits tr).length = (decisionsOf tr).length ∧
    ∃ row, r.store.getTask "t" = some row ∧
      (row.humanReviewMs = (reviewWaits tr).sum ↔ (reviewWaits tr).dropLast.sum = 0) := by
  have hscript : scriptEnds (Recorder.advance sampleRecording sampleAnswer) (sampleRecorder none) (approvedScript .none)
      (fun tr r => decide (r.phase = .returned ∧ reviewWaits tr = [4] ∧ Along Watch.step Watch.Timely {} tr)) =
        true := by
    decide +kernel
  obtain ⟨tr, r, hrun, hp⟩ := exists_run hscript
  obtain ⟨hret, hwaits, htimely⟩ := of_decide_eq_true hp
  exact ⟨tr, r, hrun, hret, hwaits, review_time_iff rfl (begins_sampleRecorder none) hrun htimely hret⟩

/-- A plan is sent back by a human after four milliseconds, and the next one rejected after one: the time of the second
escalation is all that is stored. -/
theorem first_wait_lost : ∃ tr r row, Exec (RecorderStep sampleRecording) (sampleRecorder none) tr r ∧
    r.phase = .returned ∧ reviewWaits tr = [4, 1] ∧ r.store.getTask "t" = some row ∧ row.humanReviewMs = 1 ∧
    row.humanReviewMs ≠ (reviewWaits tr).sum := by
  have hscript : scriptEnds (Recorder.advance sampleRecording sampleAnswer) (sampleRecorder none)
      ([nodeInput (.intake "u" none), nodeInput (.plan (sampleMessage 100 50) sensitivePlan)] ++
        escalationScript 2 5000 9000 0 { action := .modify, feedback := some "Shorter." } ++
        [nodeInput (.plan (sampleMessage 100 50) sensitivePlan)] ++
        escalationScript 3 20000 21000 2 { action := .reject } ++ [nodeInput .none] ++ finishScript 3)
      (fun tr r => decide (r.phase = .returned ∧ reviewWaits tr = [4, 1] ∧ Along Watch.step Watch.Timely {} tr)) =
        true := by
    decide +kernel
  obtain ⟨tr, r, hrun, hp⟩ := exists_run hscript
  obtain ⟨hret, hwaits, htimely⟩ := of_decide_eq_true hp
  obtain ⟨row, hrow, hms⟩ := stored_of_returned rfl (begins_sampleRecorder none) hrun htimely hret
  have hlast : row.humanReviewMs = 1 := by rw [hms, hwaits]; rfl
  refine ⟨tr, r, row, hrun, hret, hwaits, hrow, hlast, ?_⟩
  rw [hlast, hwaits]
  norm_num

end AgentOrchestrator
