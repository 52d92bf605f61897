import AgentOrchestrator.HumanLoop.System

/-!
# Decisions and the escalations they were made for

Entries are keyed by the task only, so a reading can outlive the escalation it was made of, and what is written on the
strength of it then resolves an escalation nobody has looked at (`late_decision_applied`).  If no write is based on a
reading from before the submission that the runner waits on (`InTime`), every decision goes to the escalation it was
made for (`decision_of_reading`).

The proof is by rely and guarantee.  A record read while the runner waits on a submission is of that submission, and so
is its decision (`Readable`); the programs rely on that and guarantee it of the records they write (`Offered`).
-/

namespace AgentOrchestrator.ApprovalQueue

/-- A write to the entry while the runner waits is based on readings made since its submission. -/
def InTime (sys : System) : Event → Prop
  | .written approval => ∀ n ∈ sys.awaited,
    approval.escalation.readAt = some n ∧ ∀ decision ∈ approval.decision, decision.readAt = some n
  | _ => True

instance (sys : System) (e : Event) : Decidable (InTime sys e) :=
  match e with
  | .written approval => inferInstanceAs (Decidable (∀ n ∈ sys.awaited,
    approval.escalation.readAt = some n ∧ ∀ decision ∈ approval.decision, decision.readAt = some n))
  | .submitted _ => inferInstanceAs (Decidable True)
  | .resumed _ _ => inferInstanceAs (Decidable True)
  | .quiet => inferInstanceAs (Decidable True)

/-! ### What the programs rely on and guarantee -/

/-- The record is of submission `n`, and so is its decision. -/
def Good (n : Nat) (approval : Approval) : Prop :=
  approval.escalation.submission = n ∧ ∀ decision ∈ approval.decision, decision.submission = n

/-- A record read while the runner waited is of the submission it waited on. -/
def Readable (approval : Approval) : Prop :=
  ∀ n, approval.escalation.readAt = some n → Good n approval

/-- A decision on a record read while the runner waited is for the submission it waited on. -/
def Aimed.Valid (decision : Aimed) : Prop := ∀ n, decision.readAt = some n → decision.submission = n

/-- What is guaranteed of a record that is written. -/
def Offered (approval : Approval) : Prop :=
  ∀ n, approval.escalation.readAt = some n → approval.escalation.submission = n ∧
    ∀ decision ∈ approval.decision, decision.readAt = some n → decision.submission = n

def rely (taskId : String) : (c : Command Submitted Aimed) → Response c → Prop
  | .hget field => fun (r : Option Approval) =>
    ∀ approval ∈ r, approval.taskId = field ∧ (field = taskId → Readable approval)
  | .hgetall => fun (r : List Approval) => ∀ approval ∈ r, approval.taskId = taskId → Readable approval
  | _ => fun _ => True

def guarantee (taskId : String) : Command Submitted Aimed → Prop
  | .hset field value => value.taskId = field ∧ (field = taskId → Offered value)
  | _ => True

/-- What is known of a call of another process. -/
def Call.Trusted (taskId : String) : Call → Prop
  | .reading p => p.Safe (fun c => writes c = false) (rely taskId) fun approvals =>
      ∀ approval ∈ approvals, approval.taskId = taskId → Readable approval
  | .writing p => p.Safe (guarantee taskId) (rely taskId) fun _ => True

variable {taskId : String}

theorem Readable.valid {approval : Approval} (h : Readable approval) (decision : HumanDecision) :
    (aim approval decision).Valid := fun n hn => (h n hn).1

private theorem safe_get {P : Command Submitted Aimed → Prop} (hP : ∀ field, P (.hget field)) (field : String) :
    (get field : Program Submitted Aimed _).Safe P (rely taskId) fun r =>
      ∀ approval ∈ r, approval.taskId = field ∧ (field = taskId → Readable approval) :=
  ⟨hP field, fun _ hr => hr⟩

/-- A reviewer reads, and what was read of the task is readable. -/
theorem trusted_look (look : Look) : (Call.reading look.program).Trusted taskId := by
  have hget : ∀ field, (get field : Program Submitted Aimed _).Safe (fun c => writes c = false) (rely taskId) fun r =>
      ∀ approval ∈ r, approval.taskId = taskId → Readable approval := by
    intro field
    refine (safe_get (fun _ => rfl) field).mono fun r hr approval ha hid => ?_
    obtain ⟨hf, hread⟩ := hr approval ha
    exact hread (hf.symm.trans hid)
  cases look with
  | one field =>
    unfold Call.Trusted Look.program
    exact (hget field).map fun r hr approval ha => hr approval (Option.mem_toList.1 ha)
  | pending =>
    refine ⟨rfl, fun (ids : List String) _ => ?_⟩
    refine (Prog.Safe.mapM fun field _ => hget field).bind fun rs hrs approval ha => ?_
    obtain ⟨r, hr, hsome⟩ := List.mem_filterMap.1 ha
    exact hrs r hr approval hsome
  | all => exact ⟨rfl, fun _ hr => hr⟩

/-- A `resolve` with a valid decision offers what it writes. -/
theorem trusted_resolve {field : String} {decision : Aimed} (h : field = taskId → decision.Valid) (now : Nat) :
    (Call.writing (resolve field decision now)).Trusted taskId := by
  refine (safe_get (fun _ => trivial) field).bind fun r hr => ?_
  rcases r with _ | approval
  · trivial
  · -- `hset` offers the record read with the new decision, `srem` needs nothing
    obtain ⟨hid, hread⟩ := hr approval rfl
    refine ⟨⟨hid, fun hf n hn => ⟨(hread hf n hn).1, fun d hd hat => ?_⟩⟩, fun _ _ => ⟨trivial, fun _ _ => trivial⟩⟩
    obtain rfl : decision = d := Option.some.inj hd
    exact h hf n hat

/-- An `append_message` offers what it writes. -/
theorem trusted_appendMessage (field : String) (message : ChatMessage) :
    (Call.writing (appendMessage field message)).Trusted taskId := by
  refine (safe_get (fun _ => trivial) field).bind fun r hr => ?_
  rcases r with _ | approval
  · trivial
  · obtain ⟨hid, hread⟩ := hr approval rfl
    refine ⟨⟨hid, fun hf n hn => ⟨(hread hf n hn).1, fun d hd _ => ?_⟩⟩, fun _ _ => trivial⟩
    exact (hread hf n hn).2 d hd

/-! ### The invariant -/

/-- What the runner relies on while it waits on submission `n`. -/
def relyOn (taskId : String) (n : Nat) : (c : Command Submitted Aimed) → Response c → Prop
  | .hget field => fun (r : Option Approval) => ∀ approval ∈ r, field = taskId → Good n approval
  | _ => fun _ => True

/-- Where the runner is, and what it waits on. -/
inductive RunnerAt (taskId : String) (submitted : Nat) (awaited : Option Nat) (runner : Runner) : Prop
  | running (h : runner = .running) (ha : awaited = none)
  | starting {approval : Approval} (h : runner = .submitting (submit approval)) (ha : awaited = none)
      (hid : approval.taskId = taskId) (hs : approval.escalation.submission = submitted + 1)
      (hd : approval.decision = none)
  | registering {p : Program Submitted Aimed Unit} (h : runner = .submitting p) (ha : awaited = some submitted)
      (hp : p.Safe (fun c => writes c = false) (fun _ _ => True) fun _ => True)
  | waiting {p : Program Submitted Aimed (Option Aimed)} (h : runner = .waiting p) (ha : awaited = some submitted)
      (hp : p.Safe (fun c => writes c = false) (relyOn taskId submitted) fun r =>
        ∀ decision ∈ r, decision.submission = submitted)

/-- Records are stored under their own id, the entry is of the awaited submission, and all calls are trusted. -/
structure Paired (taskId : String) (sys : System) : Prop where
  keyed : ∀ field approval, sys.store.approvals.get? field = some approval → approval.taskId = field
  stored : ∀ n approval, sys.awaited = some n → sys.store.approvals.get? taskId = some approval → Good n approval
  runner : RunnerAt taskId sys.submitted sys.awaited sys.runner
  calls : ∀ call ∈ sys.calls, call.Trusted taskId

theorem exec_approvals {c : Command Submitted Aimed} (h : writes c = false) (s : Store Submitted Aimed) :
    (exec c s).2.approvals = s.approvals := by
  cases c with
  | hset field value => exact absurd h (by simp [writes])
  | _ => rfl

/-- What is read satisfies what the programs rely on. -/
theorem Paired.rely {sys : System} (h : Paired taskId sys) (c : Command Submitted Aimed) :
    rely taskId c (sys.command c).1 := by
  have hread : ∀ field approval, sys.store.approvals.get? field = some approval →
      (stamp sys.awaited approval).taskId = field ∧ (field = taskId → Readable (stamp sys.awaited approval)) := by
    intro field approval hget
    refine ⟨h.keyed field approval hget, ?_⟩
    rintro rfl n hn
    exact h.stored n approval hn hget
  cases c with
  | hget field =>
    intro approval ha
    obtain ⟨approval', hget, rfl⟩ := Option.map_eq_some_iff.1 ha
    exact hread field approval' hget
  | hgetall =>
    intro approval ha hid
    obtain ⟨approval', hmem, rfl⟩ := List.mem_map.1 ha
    obtain ⟨⟨field, value⟩, hitem, rfl⟩ := List.mem_map.1 hmem
    obtain ⟨hkey, hr⟩ := hread field value (Dict.mem_items_iff.1 hitem)
    exact hr (hkey.symm.trans hid)
  | _ => trivial

theorem Paired.relyOn {sys : System} (h : Paired taskId sys) {n : Nat} (hn : sys.awaited = some n)
    (c : Command Submitted Aimed) : relyOn taskId n c (sys.command c).1 := by
  cases c with
  | hget field =>
    intro approval ha hf
    exact (h.rely (.hget field) approval ha).2 hf n (by
      obtain ⟨approval', -, rfl⟩ := Option.map_eq_some_iff.1 ha
      exact hn)
  | _ => trivial

/-- A poll returns a decision for the awaited submission. -/
theorem safe_pollDecision (n : Nat) : (pollDecision taskId : Program Submitted Aimed _).Safe
    (fun c => writes c = false) (relyOn taskId n) fun r => ∀ decision ∈ r, decision.submission = n := by
  refine ⟨rfl, fun (r : Option Approval) hr => ?_⟩
  rcases r with _ | approval
  · exact fun decision hd => absurd hd (by simp)
  · intro decision hd
    have hgood : Good n approval := hr approval rfl rfl
    split at hd
    · exact hgood.2 decision hd
    · exact absurd hd (by simp)

/-- A command that writes nothing keeps the invariant, with a new phase of the runner and new calls. -/
theorem Paired.reads {sys sys' : System} (h : Paired taskId sys)
    (hstore : sys'.store.approvals = sys.store.approvals) (ha : sys'.awaited = sys.awaited)
    (hr : RunnerAt taskId sys'.submitted sys'.awaited sys'.runner)
    (hc : ∀ call ∈ sys'.calls, call ∈ sys.calls ∨ call.Trusted taskId) : Paired taskId sys' := by
  refine ⟨?_, ?_, hr, fun call hcall => (hc call hcall).elim (h.calls call) fun ht => ht⟩
  · rw [hstore]
    exact h.keyed
  · rw [hstore, ha]
    exact h.stored

/-- A write that offers a record in time keeps the invariant. -/
theorem Paired.write {sys sys' : System} (h : Paired taskId sys) {field : String} {value : Approval}
    (hg : guarantee taskId (.hset field value)) (ht : InTime sys (eventOf taskId (.hset field value)))
    (hstore : sys'.store.approvals = sys.store.approvals.insert field value) (ha : sys'.awaited = sys.awaited)
    (hr : RunnerAt taskId sys'.submitted sys'.awaited sys'.runner)
    (hc : ∀ call ∈ sys'.calls, call ∈ sys.calls ∨ call.Trusted taskId) : Paired taskId sys' := by
  refine ⟨?_, ?_, hr, fun call hcall => (hc call hcall).elim (h.calls call) fun ht => ht⟩
  · intro field' approval hget
    rw [hstore, Dict.get?_insert] at hget
    split at hget
    · rename_i hf
      obtain rfl := Option.some.inj hget
      exact hg.1.trans hf.symm
    · exact h.keyed field' approval hget
  · intro n approval hn hget
    rw [ha] at hn
    rw [hstore, Dict.get?_insert] at hget
    split at hget
    · rename_i hf
      obtain rfl := Option.some.inj hget
      -- the condition makes the offer one for the awaited submission
      have hevent : eventOf taskId (.hset field value) = .written value := if_pos hf.symm
      rw [hevent] at ht
      obtain ⟨hread, hdec⟩ := ht n hn
      obtain ⟨hsub, hall⟩ := hg.2 hf.symm n hread
      exact ⟨hsub, fun d hd => hall d hd (hdec d hd)⟩
    · exact h.stored n approval hn hget

private theorem submit_eq (approval : Approval) :
    submit approval = Prog.call (.hset approval.taskId approval) fun _ => sadd approval.taskId := rfl

private theorem RunnerAt.of_submitting {submitted : Nat} {awaited : Option Nat} {runner : Runner}
    {c : Command Submitted Aimed} {k : Response c → Program Submitted Aimed Unit}
    (h : RunnerAt taskId submitted awaited runner) (hr : runner = .submitting (.call c k)) :
    (∃ approval, c = .hset approval.taskId approval ∧ approval.taskId = taskId ∧
        approval.escalation.submission = submitted + 1 ∧ approval.decision = none ∧
        ∀ r, (k r).Safe (fun c => writes c = false) (fun _ _ => True) fun _ => True) ∨
      awaited = some submitted ∧ writes c = false ∧
        ∀ r, (k r).Safe (fun c => writes c = false) (fun _ _ => True) fun _ => True := by
  cases h with
  | running h ha => exact absurd (h.symm.trans hr) (by simp)
  | @starting approval h ha hid hs hd =>
    have hp : submit approval = .call c k := Runner.submitting.inj (h.symm.trans hr)
    rw [submit_eq] at hp
    obtain ⟨rfl, hk⟩ := Prog.call.inj hp
    obtain rfl := eq_of_heq hk
    exact Or.inl ⟨approval, rfl, hid, hs, hd, fun _ => ⟨rfl, fun _ _ => trivial⟩⟩
  | registering h ha hp =>
    obtain rfl := Runner.submitting.inj (h.symm.trans hr)
    exact Or.inr ⟨ha, hp.1, fun r => hp.2 r trivial⟩
  | waiting h ha hp => exact absurd (h.symm.trans hr) (by simp)

private theorem RunnerAt.of_submitted {submitted : Nat} {awaited : Option Nat} {runner : Runner} {a : Unit}
    (h : RunnerAt taskId submitted awaited runner) (hr : runner = .submitting (.ret a)) :
    awaited = some submitted := by
  cases h with
  | running h ha => exact absurd (h.symm.trans hr) (by simp)
  | @starting approval h ha hid hs hd =>
    have hp : submit approval = .ret a := Runner.submitting.inj (h.symm.trans hr)
    rw [submit_eq] at hp
    exact absurd hp (by simp)
  | registering h ha hp => exact ha
  | waiting h ha hp => exact absurd (h.symm.trans hr) (by simp)

private theorem RunnerAt.of_waiting {submitted : Nat} {awaited : Option Nat} {runner : Runner}
    {p : Program Submitted Aimed (Option Aimed)} (h : RunnerAt taskId submitted awaited runner)
    (hr : runner = .waiting p) : awaited = some submitted ∧ p.Safe (fun c => writes c = false)
      (ApprovalQueue.relyOn taskId submitted) fun r => ∀ decision ∈ r, decision.submission = submitted := by
  cases h with
  | running h ha => exact absurd (h.symm.trans hr) (by simp)
  | starting h ha hid hs hd => exact absurd (h.symm.trans hr) (by simp)
  | registering h ha hp => exact absurd (h.symm.trans hr) (by simp)
  | waiting h ha hp =>
    obtain rfl := Runner.waiting.inj (h.symm.trans hr)
    exact ⟨ha, hp⟩

private theorem RunnerAt.of_running {submitted : Nat} {awaited : Option Nat} {runner : Runner}
    (h : RunnerAt taskId submitted awaited runner) (hr : runner = .running) : awaited = none := by
  cases h with
  | running h ha => exact ha
  | starting h ha hid hs hd => exact ha
  | registering h ha hp => exact absurd (h.symm.trans hr) (by simp)
  | waiting h ha hp => exact absurd (h.symm.trans hr) (by simp)

/-- Step lemma: a step in time keeps the invariant. -/
theorem Paired.step {sys sys' : System} {e : Event} (h : Paired taskId sys) (hs : Step taskId sys e sys')
    (ht : InTime sys e) : Paired taskId sys' := by
  have hsame : ∀ call ∈ sys.calls, call ∈ sys.calls ∨ call.Trusted taskId := fun call hcall => Or.inl hcall
  have hspawn : ∀ {new : Call}, new.Trusted taskId → ∀ call ∈ sys.calls ++ [new],
      call ∈ sys.calls ∨ call.Trusted taskId := fun hnew => forall_calls_spawn hsame (Or.inr hnew)
  have hset : ∀ {i : Nat} {new : Call}, new.Trusted taskId → ∀ call ∈ sys.calls.set i new,
      call ∈ sys.calls ∨ call.Trusted taskId := fun hnew => forall_calls_set hsame (Or.inr hnew)
  cases hs.fires with
  | escalate request source now hr =>
    exact h.reads rfl rfl (.starting rfl (h.runner.of_running hr) rfl rfl rfl) hsame
  | submit hr hc =>
    rcases h.runner.of_submitting hr with ⟨approval, rfl, rfl, hsub, hd, hk⟩ | ⟨-, hreads, -⟩
    · -- the new record is of the new submission and has no decision yet
      refine ⟨?_, ?_, .registering rfl rfl (hk _), h.calls⟩
      · intro field approval' hget
        rw [show (exec (.hset approval.taskId approval) sys.store).2.approvals =
          sys.store.approvals.insert approval.taskId approval from rfl, Dict.get?_insert] at hget
        split at hget
        · rename_i hf
          obtain rfl := Option.some.inj hget
          exact hf.symm
        · exact h.keyed field approval' hget
      · intro n approval' hn hget
        obtain rfl : sys.submitted + 1 = n := Option.some.inj hn
        rw [show (exec (.hset approval.taskId approval) sys.store).2.approvals =
          sys.store.approvals.insert approval.taskId approval from rfl, Dict.get?_insert, if_pos rfl] at hget
        obtain rfl := Option.some.inj hget
        exact ⟨hsub, fun d hd' => absurd (hd.symm.trans hd') (by simp)⟩
    · exact absurd (hreads.symm.trans hc) (by simp)
  | register hr hc =>
    rcases h.runner.of_submitting hr with ⟨approval, rfl, -⟩ | ⟨ha, -, hk⟩
    · exact absurd hc (by simp [writes])
    · exact h.reads (exec_approvals hc _) rfl (.registering rfl ha (hk _)) hsame
  | wait hr =>
    exact h.reads rfl rfl (.waiting rfl (h.runner.of_submitted hr) (safe_pollDecision _)) hsame
  | poll hr =>
    obtain ⟨ha, hp⟩ := h.runner.of_waiting hr
    exact h.reads (exec_approvals hp.1 _) rfl (.waiting rfl ha (hp.2 _ (h.relyOn ha _))) hsame
  | again hr =>
    exact h.reads rfl rfl (.waiting rfl (h.runner.of_waiting hr).1 (safe_pollDecision _)) hsame
  -- after the resume nothing is claimed of the entry
  | resume hr => exact ⟨h.keyed, fun n approval hn => absurd hn (by simp), .running rfl rfl, h.calls⟩
  | look look => exact h.reads rfl rfl h.runner (hspawn (trusted_look look))
  | decide decision now hcall ha =>
    have hread := h.calls _ hcall _ ha
    exact h.reads rfl rfl h.runner (hspawn (trusted_resolve (fun hid => (hread hid).valid decision) now))
  | message taskId' message => exact h.reads rfl rfl h.runner (hspawn (trusted_appendMessage taskId' message))
  | read hcall =>
    obtain ⟨hc, hk⟩ := h.calls _ hcall
    exact h.reads (exec_approvals hc _) rfl h.runner (hset (hk _ (h.rely _)))
  -- the only case that needs the condition
  | @write i c k hcall =>
    obtain ⟨hg, hk⟩ := h.calls _ hcall
    have hcalls := @hset i (.writing (k (sys.command c).1)) (hk _ (h.rely _))
    cases c with
    | hset field value => exact h.write hg ht rfl rfl h.runner hcalls
    | _ => exact h.reads rfl rfl h.runner hcalls

/-- Only the runner resumes, with the decision its last poll has returned. -/
theorem waiting_of_resumed {sys sys' : System} {e : Event} {n : Nat} {decision : Aimed} (hs : Step taskId sys e sys')
    (he : e = .resumed n decision) : n = sys.submitted ∧ sys.runner = .waiting (.ret (some decision)) := by
  cases hs.fires with
  | resume hr =>
    obtain ⟨rfl, rfl⟩ := Event.resumed.inj he
    exact ⟨rfl, hr⟩
  | @write i c k _ =>
    refine absurd he ?_
    cases c with
    | hset field value =>
      show (if field = taskId then Event.written value else .quiet) ≠ _
      split <;> simp
    | _ => simp [eventOf]
  | _ => exact absurd he (by simp)

/-- Every record is stored under its own id. -/
def Keyed (store : Store Submitted Aimed) : Prop :=
  ∀ field approval, store.approvals.get? field = some approval → approval.taskId = field

/-- Before the first escalation. -/
def start (store : Store Submitted Aimed) : System where
  store := store

/-- A decision is applied to the escalation it was made for, in every run whose writes are in time: the one the runner
resumes submission `n` with is by a reviewer who has read submission `n`. -/
theorem decision_of_reading {store : Store Submitted Aimed} (h0 : Keyed store) {tr : List Event} {sys : System}
    (hr : Exec (fun sys e sys' => Step taskId sys e sys' ∧ InTime sys e) (start store) tr sys) {n : Nat}
    {decision : Aimed} (hn : .resumed n decision ∈ tr) : decision.submission = n := by
  have hinv := hr.invariant (fun tr sys => Paired taskId sys ∧
    ∀ n decision, .resumed n decision ∈ tr → decision.submission = n) ⟨?_, by simp⟩ ?_
  · exact hinv.2 n decision hn
  · exact ⟨h0, fun n approval hn => absurd hn (by simp [start]), .running rfl rfl,
      fun call hcall => absurd hcall List.not_mem_nil⟩
  · rintro tr sys e sys' - ⟨hpaired, hall⟩ ⟨hs, ht⟩
    refine ⟨hpaired.step hs ht, fun n decision hmem => ?_⟩
    rcases List.mem_append.1 hmem with hmem | hmem
    · exact hall n decision hmem
    · obtain ⟨rfl, hrun⟩ := waiting_of_resumed hs (List.mem_singleton.1 hmem).symm
      exact (hpaired.runner.of_waiting hrun).2 decision rfl

/-! ### Two reviewers -/

private def stepInTime (taskId : String) (sys : System) (a : Action) : Except Unit (Event × System) :=
  match step taskId sys a with
  | .error x => .error x
  | .ok (e, sys') => if InTime sys e then .ok (e, sys') else .error ()

private def sampleRequest : EscalationRequest where
  level := .approvePlan
  reason := "Human review of the plan was explicitly requested."
  context := { task := "Report" }

/-- A first reviewer opens the entry of the first escalation, and a second one approves it. -/
private def twoReviewers : List Action :=
  [.escalate sampleRequest "plan_requested" 0, .runner, .runner, .runner, .look .pending, .proceed 0, .proceed 0,
    .look (.one "t"), .proceed 1, .decide 1 0 { action := .approve } 1, .proceed 2, .proceed 2, .proceed 2, .runner,
    .runner]

private def resumesFirst (e : Event) : Bool :=
  match e with
  | .resumed n _ => decide (n = 1)
  | _ => false

/-- The approval of the second reviewer resumes the escalation both have read. -/
theorem approval_applied : ∃ tr sys decision, Exec (Step "t") (start {}) tr sys ∧ .resumed 1 decision ∈ tr ∧
    decision.submission = 1 := by
  have hscript : scriptEnds (stepInTime "t") (start {}) twoReviewers
      (fun tr _ => tr.any resumesFirst) = true := by decide +kernel
  obtain ⟨tr, sys, hr, hp⟩ := exec_of_scriptEnds hscript
  have hin : Exec (fun sys e sys' => Step "t" sys e sys' ∧ InTime sys e) (start {}) tr sys := by
    refine hr.mono fun sys e sys' hs => ?_
    obtain ⟨a, hs⟩ := hs
    unfold stepInTime at hs
    split at hs
    · exact absurd hs (by simp)
    · rename_i e' sys'' hstep
      split at hs
      · rename_i ht
        obtain ⟨rfl, rfl⟩ := Prod.mk.inj (Except.ok.inj hs)
        exact ⟨⟨a, hstep⟩, ht⟩
      · exact absurd hs (by simp)
  obtain ⟨e, he, hres⟩ := List.any_eq_true.1 hp
  unfold resumesFirst at hres
  split at hres
  · rename_i n decision
    obtain rfl : n = 1 := of_decide_eq_true hres
    have hkeyed : Keyed {} := fun field approval hget => absurd hget (by simp)
    exact ⟨tr, sys, decision, hin.mono fun _ _ _ h => h.1, he, decision_of_reading hkeyed hin he⟩
  · exact absurd hres (by simp)

private def resumesStale (e : Event) : Bool :=
  match e with
  | .resumed n decision => decide (n = 2 ∧ decision.submission = 1)
  | _ => false

/-- The decision of the first reviewer, made on the first escalation, resumes the second one. -/
theorem late_decision_applied : ∃ tr sys decision, Exec (Step "t") (start {}) tr sys ∧ .resumed 2 decision ∈ tr ∧
    decision.submission = 1 := by
  have hscript : scriptEnds (step "t") (start {}) (twoReviewers ++
      [.escalate sampleRequest "specialist_retry" 2, .runner, .runner, .runner,
        .decide 0 0 { action := .approve } 3, .proceed 3, .proceed 3, .proceed 3, .runner, .runner])
      (fun tr _ => tr.any resumesStale) = true := by decide +kernel
  obtain ⟨tr, sys, hr, hp⟩ := exec_of_scriptEnds hscript
  obtain ⟨e, he, hres⟩ := List.any_eq_true.1 hp
  unfold resumesStale at hres
  split at hres
  · rename_i n decision
    obtain ⟨rfl, haim⟩ := of_decide_eq_true hres
    exact ⟨tr, sys, decision, hr, he, haim⟩
  · exact absurd hres (by simp)

end AgentOrchestrator.ApprovalQueue
