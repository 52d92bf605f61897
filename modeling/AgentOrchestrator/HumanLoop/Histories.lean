import AgentOrchestrator.HumanLoop.ApprovalQueue
import AgentOrchestrator.Lib.Pool

/-!
# Histories of the queue

Requests to the queue, each executed at once.  The status of an entry is kept twice, in the record and in the
set of pending ids, and after any history both are known from the requests alone (`Tallied`): an id is in the set if it
has been submitted and not resolved since, and its record is pending if it has been neither resolved nor notified
since.  So the list of pending entries is exact unless an id has been notified while it was pending
(`pending_list_exact_iff`).
-/

namespace AgentOrchestrator.ApprovalQueue

variable {ε δ : Type}

/-- A request to the queue.  What is submitted is pending; `poll` is one turn of `wait_for_decision`. -/
inductive Request (ε δ : Type) where
  | submit (approval : {approval : PendingApproval ε δ // approval.status = .pending})
  | resolve (taskId : String) (decision : δ) (now : Nat)
  | notify (taskId : String) (escalation : ε) (createdAt resolvedAt : Nat)
  | appendMessage (taskId : String) (message : ChatMessage)
  | get (taskId : String)
  | listPending
  | listAll
  | poll (taskId : String)

def errorOf {α : Type} : Except QueueError α → Option QueueError
  | .error e => some e
  | .ok _ => none

/-- The request, executed at once: the exception it raises, if any, and what it leaves in Redis. -/
def Request.run : Request ε δ → Store ε δ → Option QueueError × Store ε δ
  | .submit approval, s => (none, ((ApprovalQueue.submit approval.1).eval exec s).2)
  | .resolve taskId decision now, s =>
    (errorOf ((ApprovalQueue.resolve taskId decision now).eval exec s).1,
      ((ApprovalQueue.resolve taskId decision now).eval exec s).2)
  | .notify taskId escalation createdAt resolvedAt, s =>
    (none, ((ApprovalQueue.notify taskId escalation createdAt resolvedAt : Program ε δ _).eval exec s).2)
  | .appendMessage taskId message, s =>
    (errorOf ((ApprovalQueue.appendMessage taskId message : Program ε δ _).eval exec s).1,
      ((ApprovalQueue.appendMessage taskId message : Program ε δ _).eval exec s).2)
  | .get taskId, s => (none, ((ApprovalQueue.get taskId : Program ε δ _).eval exec s).2)
  | .listPending, s => (none, ((ApprovalQueue.listPending : Program ε δ _).eval exec s).2)
  | .listAll, s => (none, ((ApprovalQueue.listAll : Program ε δ _).eval exec s).2)
  | .poll taskId, s => (none, ((pollDecision taskId : Program ε δ _).eval exec s).2)

def Request.Submits (taskId : String) : Request ε δ → Prop
  | .submit approval => approval.1.taskId = taskId
  | _ => False

def Request.Resolves (taskId : String) : Request ε δ → Prop
  | .resolve taskId' _ _ => taskId' = taskId
  | _ => False

def Request.Notifies (taskId : String) : Request ε δ → Prop
  | .notify taskId' _ _ _ => taskId' = taskId
  | _ => False

/-! ### What the requests do -/

/-- The record with a decision in it. -/
def decided (approval : PendingApproval ε δ) (decision : δ) (now : Nat) : PendingApproval ε δ :=
  { approval with decision := some decision, status := .resolved, resolvedAt := some now }

/-- The record that `notify` writes. -/
def notified (taskId : String) (escalation : ε) (createdAt resolvedAt : Nat) : PendingApproval ε δ where
  taskId := taskId
  escalation := escalation
  source := "notify"
  status := .notified
  createdAt := createdAt
  resolvedAt := some resolvedAt

theorem run_submit (approval : {approval : PendingApproval ε δ // approval.status = .pending}) (s : Store ε δ) :
    (Request.submit approval).run s =
      (none, {
        approvals := s.approvals.insert approval.1.taskId approval.1
        pending := s.pending.insert approval.1.taskId () }) := rfl

theorem eval_get (taskId : String) (s : Store ε δ) :
    (get taskId : Program ε δ _).eval exec s = (s.approvals.get? taskId, s) := rfl

/-- Without an entry `resolve` raises. -/
theorem run_resolve_none {taskId : String} {s : Store ε δ} (h : s.approvals.get? taskId = none) (decision : δ)
    (now : Nat) : (Request.resolve taskId decision now).run s = (some (noPendingApproval taskId), s) := by
  have heval : (resolve taskId decision now).eval exec s = (.error (noPendingApproval taskId), s) := by
    unfold resolve
    rw [Prog.eval_bind, eval_get, h]
    rfl
  show (errorOf ((resolve taskId decision now).eval exec s).1, ((resolve taskId decision now).eval exec s).2) = _
  rw [heval]
  rfl

/-- With an entry it stores the decision, whatever the status of the entry is. -/
theorem run_resolve_some {taskId : String} {s : Store ε δ} {approval : PendingApproval ε δ}
    (h : s.approvals.get? taskId = some approval) (decision : δ) (now : Nat) :
    (Request.resolve taskId decision now).run s =
      (none, {
        approvals := s.approvals.insert taskId (decided approval decision now)
        pending := s.pending.erase taskId }) := by
  have heval : (resolve taskId decision now).eval exec s = (.ok (decided approval decision now), {
      approvals := s.approvals.insert taskId (decided approval decision now)
      pending := s.pending.erase taskId }) := by
    unfold resolve
    rw [Prog.eval_bind, eval_get, h]
    rfl
  show (errorOf ((resolve taskId decision now).eval exec s).1, ((resolve taskId decision now).eval exec s).2) = _
  rw [heval]
  rfl

/-- A message is added to the record, and nothing else changes. -/
theorem run_appendMessage (taskId : String) (message : ChatMessage) (s : Store ε δ) :
    ((Request.appendMessage taskId message).run s).2 =
      match s.approvals.get? taskId with
      | none => s
      | some approval => { s with
          approvals := s.approvals.insert taskId { approval with messages := approval.messages ++ [message] } } := by
  show ((appendMessage taskId message : Program ε δ _).eval exec s).2 = _
  unfold appendMessage
  rw [Prog.eval_bind, eval_get]
  cases s.approvals.get? taskId with
  | none => rfl
  | some approval => rfl

/-- What `list_pending` returns. -/
theorem eval_listPending (s : Store ε δ) : (listPending : Program ε δ _).eval exec s =
    (s.pending.keys.filterMap s.approvals.get?, s) := by
  have hread : ∀ ids : List String, (ids.mapM get : Program ε δ _).eval exec s =
      (ids.map s.approvals.get?, s) := by
    intro ids
    induction ids with
    | nil => rfl
    | cons id ids ih =>
      rw [List.mapM_cons, Prog.eval_bind, eval_get, Prog.eval_bind, ih]
      rfl
  have hmembers : (smembers : Program ε δ _).eval exec s = (s.pending.keys, s) := rfl
  unfold listPending
  rw [Prog.eval_bind, hmembers, Prog.eval_bind, hread]
  show ((s.pending.keys.map s.approvals.get?).filterMap id, s) = _
  rw [List.filterMap_map]
  rfl

theorem run_notify (taskId : String) (escalation : ε) (createdAt resolvedAt : Nat) (s : Store ε δ) :
    (Request.notify taskId escalation createdAt resolvedAt).run s =
      (none, { s with
        approvals := s.approvals.insert taskId (notified taskId escalation createdAt resolvedAt) }) := rfl

theorem run_listPending (s : Store ε δ) : ((Request.listPending : Request ε δ).run s).2 = s :=
  congrArg Prod.snd (eval_listPending s)

theorem eval_pollDecision (taskId : String) (s : Store ε δ) : (pollDecision taskId : Program ε δ _).eval exec s =
    ((s.approvals.get? taskId).bind fun approval => if approval.status = .resolved then approval.decision else none,
      s) := by
  unfold pollDecision
  rw [Prog.eval_bind, eval_get]
  cases s.approvals.get? taskId with
  | none => rfl
  | some approval => rfl

theorem run_poll (taskId : String) (s : Store ε δ) : ((Request.poll taskId : Request ε δ).run s).2 = s :=
  congrArg Prod.snd (eval_pollDecision taskId s)

/-- The store after a history that starts with an empty Redis. -/
def after (ops : List (Request ε δ)) : Store ε δ := ops.foldl (fun s o => (o.run s).2) {}

theorem after_snoc (ops : List (Request ε δ)) (o : Request ε δ) : after (ops ++ [o]) = (o.run (after ops)).2 := by
  unfold after
  rw [List.foldl_append]
  rfl

/-! ### Status and pending set, by the history -/

/-- The stored record of the task is pending. -/
def IsPending (s : Store ε δ) (taskId : String) : Prop :=
  ∃ approval, s.approvals.get? taskId = some approval ∧ approval.status = .pending

/-- Both kinds of status, by what has happened to a task. -/
structure Tallied (ops : List (Request ε δ)) (s : Store ε δ) : Prop where
  keyed : ∀ taskId approval, s.approvals.get? taskId = some approval → approval.taskId = taskId
  stored : ∀ taskId ∈ s.pending.keys, ∃ approval, s.approvals.get? taskId = some approval
  listed : ∀ taskId, taskId ∈ s.pending.keys ↔ Since (Request.Submits taskId) (Request.Resolves taskId) ops
  pending : ∀ taskId, IsPending s taskId ↔
    Since (Request.Submits taskId) (fun o => o.Resolves taskId ∨ o.Notifies taskId) ops

/-- A record is written under the id of its task. -/
theorem isPending_insert {s : Store ε δ} {pending : Dict String Unit} {k taskId : String}
    {approval : PendingApproval ε δ} : IsPending { approvals := s.approvals.insert k approval, pending := pending } taskId ↔
      k = taskId ∧ approval.status = .pending ∨ k ≠ taskId ∧ IsPending s taskId := by
  unfold IsPending
  by_cases h : taskId = k
  · subst h
    simp [Dict.get?_insert]
  · simp [Dict.get?_insert, h, Ne.symm h]

theorem keyed_insert {s : Store ε δ} {k : String} {approval : PendingApproval ε δ}
    (h : ∀ taskId approval, s.approvals.get? taskId = some approval → approval.taskId = taskId)
    (hk : approval.taskId = k) : ∀ taskId approval', (s.approvals.insert k approval).get? taskId = some approval' →
      approval'.taskId = taskId := by
  intro taskId approval' h'
  rw [Dict.get?_insert] at h'
  split at h'
  · obtain rfl := Option.some.inj h'
    rename_i heq
    exact hk.trans heq.symm
  · exact h taskId approval' h'

/-- A request that submits, resolves and notifies nothing, and leaves the statuses and the set as they are. -/
theorem Tallied.quiet {ops : List (Request ε δ)} {s s' : Store ε δ} {o : Request ε δ} (h : Tallied ops s)
    (hp : s'.pending = s.pending)
    (ha : ∀ taskId, (s'.approvals.get? taskId).map (fun approval => (approval.taskId, approval.status)) =
      (s.approvals.get? taskId).map fun approval => (approval.taskId, approval.status))
    (ho : ∀ taskId, ¬ o.Submits taskId ∧ ¬ o.Resolves taskId ∧ ¬ o.Notifies taskId) : Tallied (ops ++ [o]) s' := by
  have hback : ∀ taskId approval', s'.approvals.get? taskId = some approval' →
      ∃ approval, s.approvals.get? taskId = some approval ∧ approval.taskId = approval'.taskId ∧
        approval.status = approval'.status := by
    intro taskId approval' h'
    have heq := ha taskId
    rw [h'] at heq
    obtain ⟨approval, hget, hsame⟩ := Option.map_eq_some_iff.1 heq.symm
    exact ⟨approval, hget, (Prod.mk.inj hsame).1, (Prod.mk.inj hsame).2⟩
  have hforth : ∀ taskId approval, s.approvals.get? taskId = some approval →
      ∃ approval', s'.approvals.get? taskId = some approval' ∧ approval'.status = approval.status := by
    intro taskId approval h'
    have heq := ha taskId
    rw [h'] at heq
    obtain ⟨approval', hget, hsame⟩ := Option.map_eq_some_iff.1 heq
    exact ⟨approval', hget, (Prod.mk.inj hsame).2⟩
  refine ⟨fun taskId approval' h' => ?_, fun taskId hmem => ?_, fun taskId => ?_, fun taskId => ?_⟩
  · obtain ⟨approval, hget, hid, -⟩ := hback taskId approval' h'
    exact hid.symm.trans (h.keyed taskId approval hget)
  · rw [hp] at hmem
    obtain ⟨approval, hget⟩ := h.stored taskId hmem
    obtain ⟨approval', hget', -⟩ := hforth taskId approval hget
    exact ⟨approval', hget'⟩
  · obtain ⟨hs, hr, -⟩ := ho taskId
    rw [hp, h.listed, Since.snoc_iff]
    simp [hs, hr]
  · obtain ⟨hs, hr, hn⟩ := ho taskId
    rw [Since.snoc_iff, ← h.pending]
    constructor
    · rintro ⟨approval', h', hpending⟩
      obtain ⟨approval, hget, -, hsame⟩ := hback taskId approval' h'
      exact Or.inr ⟨⟨approval, hget, hsame.trans hpending⟩, by simp [hr, hn]⟩
    · rintro (hsub | ⟨⟨approval, hget, hpending⟩, -⟩)
      · exact absurd hsub hs
      · obtain ⟨approval', hget', hsame⟩ := hforth taskId approval hget
        exact ⟨approval', hget', hsame.trans hpending⟩

theorem Tallied.submit {ops : List (Request ε δ)} {s : Store ε δ} (h : Tallied ops s)
    (approval : {approval : PendingApproval ε δ // approval.status = .pending}) :
    Tallied (ops ++ [.submit approval]) ((Request.submit approval).run s).2 := by
  rw [run_submit]
  refine ⟨keyed_insert h.keyed rfl, fun taskId hmem => ?_, fun taskId => ?_, fun taskId => ?_⟩
  · refine Dict.mem_keys_iff.1 (Dict.mem_keys_insert.2 ?_)
    rcases Dict.mem_keys_insert.1 hmem with heq | hold
    · exact Or.inl heq
    · exact Or.inr (Dict.mem_keys_iff.2 (h.stored taskId hold))
  · rw [Since.snoc_iff, ← h.listed]
    show taskId ∈ (s.pending.insert _ ()).keys ↔ approval.1.taskId = taskId ∨ taskId ∈ s.pending.keys ∧ ¬ False
    rw [Dict.mem_keys_insert, and_iff_left not_false]
  · rw [Since.snoc_iff, ← h.pending, isPending_insert]
    show _ ↔ approval.1.taskId = taskId ∨ IsPending s taskId ∧ ¬ (False ∨ False)
    by_cases heq : approval.1.taskId = taskId
    · simp [heq, approval.2]
    · simp [heq]

theorem Tallied.resolve {ops : List (Request ε δ)} {s : Store ε δ} (h : Tallied ops s) (k : String) (decision : δ)
    (now : Nat) : Tallied (ops ++ [.resolve k decision now]) ((Request.resolve k decision now).run s).2 := by
  cases hget : s.approvals.get? k with
  | none =>
    rw [run_resolve_none hget]
    have hunlisted : k ∉ s.pending.keys := by
      intro hmem
      obtain ⟨approval, h'⟩ := h.stored k hmem
      exact absurd (hget.symm.trans h') (by simp)
    have hnot : ¬ IsPending s k := by
      rintro ⟨approval, h', -⟩
      exact absurd (hget.symm.trans h') (by simp)
    refine ⟨h.keyed, h.stored, fun taskId => ?_, fun taskId => ?_⟩
    · rw [Since.snoc_iff, ← h.listed]
      show taskId ∈ s.pending.keys ↔ False ∨ taskId ∈ s.pending.keys ∧ ¬ k = taskId
      by_cases heq : k = taskId
      · subst heq
        simp [hunlisted]
      · simp [heq]
    · rw [Since.snoc_iff, ← h.pending]
      show IsPending s taskId ↔ False ∨ IsPending s taskId ∧ ¬ (k = taskId ∨ False)
      by_cases heq : k = taskId
      · subst heq
        simp [hnot]
      · simp [heq]
  | some approval =>
    rw [run_resolve_some hget]
    refine ⟨keyed_insert h.keyed (h.keyed k approval hget), fun taskId hmem => ?_, fun taskId => ?_, fun taskId => ?_⟩
    · obtain ⟨hmem, hne⟩ := Dict.mem_keys_erase.1 hmem
      obtain ⟨approval', h'⟩ := h.stored taskId hmem
      exact ⟨approval', by simp [Dict.get?_insert, Ne.symm hne, h']⟩
    · rw [Since.snoc_iff, ← h.listed]
      show taskId ∈ (s.pending.erase k).keys ↔ False ∨ taskId ∈ s.pending.keys ∧ ¬ k = taskId
      rw [Dict.mem_keys_erase, false_or]
    · rw [Since.snoc_iff, ← h.pending, isPending_insert]
      show _ ↔ False ∨ IsPending s taskId ∧ ¬ (k = taskId ∨ False)
      simp [decided, and_comm]

theorem Tallied.notify {ops : List (Request ε δ)} {s : Store ε δ} (h : Tallied ops s) (k : String) (escalation : ε)
    (createdAt resolvedAt : Nat) : Tallied (ops ++ [.notify k escalation createdAt resolvedAt])
      ((Request.notify k escalation createdAt resolvedAt).run s).2 := by
  rw [run_notify]
  refine ⟨keyed_insert h.keyed rfl, fun taskId hmem => ?_, fun taskId => ?_, fun taskId => ?_⟩
  · exact Dict.mem_keys_iff.1 (Dict.mem_keys_insert.2 (Or.inr (Dict.mem_keys_iff.2 (h.stored taskId hmem))))
  · rw [Since.snoc_iff, ← h.listed]
    show taskId ∈ s.pending.keys ↔ False ∨ taskId ∈ s.pending.keys ∧ ¬ False
    simp
  · rw [Since.snoc_iff, ← h.pending, isPending_insert]
    show _ ↔ False ∨ IsPending s taskId ∧ ¬ (False ∨ k = taskId)
    simp [notified, and_comm]

theorem Tallied.step {ops : List (Request ε δ)} {s : Store ε δ} (h : Tallied ops s) (o : Request ε δ) :
    Tallied (ops ++ [o]) (o.run s).2 := by
  cases o with
  | submit approval => exact h.submit approval
  | resolve k decision now => exact h.resolve k decision now
  | notify k escalation createdAt resolvedAt => exact h.notify k escalation createdAt resolvedAt
  | appendMessage k message =>
    refine h.quiet ?_ (fun taskId => ?_) fun taskId => ⟨id, id, id⟩
    · rw [run_appendMessage]
      split <;> rfl
    · rw [run_appendMessage]
      split
      · rfl
      · rename_i approval hget
        by_cases heq : taskId = k
        · subst heq
          simp [Dict.get?_insert, hget]
        · simp [Dict.get?_insert, heq]
  | get k => exact h.quiet rfl (fun _ => rfl) fun taskId => ⟨id, id, id⟩
  | listPending =>
    rw [run_listPending]
    exact h.quiet rfl (fun _ => rfl) fun taskId => ⟨id, id, id⟩
  | listAll => exact h.quiet rfl (fun _ => rfl) fun taskId => ⟨id, id, id⟩
  | poll k =>
    rw [run_poll]
    exact h.quiet rfl (fun _ => rfl) fun taskId => ⟨id, id, id⟩

/-- The history determines both statuses. -/
theorem tallied_after (ops : List (Request ε δ)) : Tallied ops (after ops) := by
  induction ops using List.reverseRecOn with
  | nil =>
    refine ⟨fun taskId approval h => absurd h (by simp [after]), fun taskId h => absurd h List.not_mem_nil,
      fun taskId => ⟨fun h => absurd h List.not_mem_nil, fun h => absurd h Since.not_nil⟩,
      fun taskId => ⟨?_, fun h => absurd h Since.not_nil⟩⟩
    rintro ⟨approval, h, -⟩
    exact absurd h (by simp [after])
  | append_singleton ops o ih =>
    rw [after_snoc]
    exact ih.step o

/-! ### The list of pending entries -/

/-- `list_pending` returns the pending entries, one for each task, and nothing else. -/
structure PendingListExact (s : Store ε δ) : Prop where
  once : (((listPending : Program ε δ _).eval exec s).1.map (·.taskId)).Nodup
  mem : ∀ approval, approval ∈ ((listPending : Program ε δ _).eval exec s).1 ↔
    s.approvals.get? approval.taskId = some approval ∧ approval.status = .pending

/-- The list is exact if the set holds ids of pending entries only. -/
theorem Tallied.exact_iff {ops : List (Request ε δ)} {s : Store ε δ} (h : Tallied ops s) :
    PendingListExact s ↔ ∀ taskId ∈ s.pending.keys, IsPending s taskId := by
  constructor
  · rintro ⟨-, hmem⟩ taskId hlisted
    obtain ⟨approval, hget⟩ := h.stored taskId hlisted
    have hin : approval ∈ ((listPending : Program ε δ _).eval exec s).1 := by
      rw [eval_listPending]
      exact List.mem_filterMap.2 ⟨taskId, hlisted, hget⟩
    exact ⟨approval, hget, ((hmem approval).1 hin).2⟩
  · intro hall
    refine ⟨?_, fun approval => ?_⟩
    · -- every id of the set has its own entry
      have hids : (s.pending.keys.filterMap s.approvals.get?).map (·.taskId) = s.pending.keys := by
        have hsub : ∀ ids ⊆ s.pending.keys, (ids.filterMap s.approvals.get?).map (·.taskId) = ids := by
          intro ids hids
          induction ids with
          | nil => rfl
          | cons id ids ih =>
            obtain ⟨approval, hget⟩ := h.stored id (hids List.mem_cons_self)
            rw [List.filterMap_cons_some hget, List.map_cons, h.keyed id approval hget,
              ih fun x hx => hids (List.mem_cons_of_mem _ hx)]
        exact hsub _ (List.Subset.refl _)
      rw [eval_listPending, hids]
      exact s.pending.nodup
    · rw [eval_listPending, List.mem_filterMap]
      constructor
      · rintro ⟨taskId, hlisted, hget⟩
        obtain ⟨approval', hget', hstatus⟩ := hall taskId hlisted
        obtain rfl := Option.some.inj (hget.symm.trans hget')
        rw [h.keyed taskId approval hget]
        exact ⟨hget, hstatus⟩
      · rintro ⟨hget, hstatus⟩
        refine ⟨approval.taskId, (h.listed _).2 ?_, hget⟩
        exact ((h.pending _).1 ⟨approval, hget, hstatus⟩).imp (fun _ ho => ho) fun _ ho => Or.inl ho

/-- After any history the list of pending entries is exact if and only if no task has been notified while it was
pending: a submission that has not been resolved has not been followed by a notification either, or has been
repeated. -/
theorem pending_list_exact_iff (ops : List (Request ε δ)) :
    PendingListExact (after ops) ↔
      ∀ taskId, Since (Request.Submits taskId) (Request.Resolves taskId) ops →
        Since (Request.Submits taskId) (fun o => o.Resolves taskId ∨ o.Notifies taskId) ops := by
  have htallied := tallied_after ops
  rw [htallied.exact_iff]
  constructor
  · intro hall taskId hsince
    exact (htallied.pending taskId).1 (hall taskId ((htallied.listed taskId).2 hsince))
  · intro hall taskId hlisted
    exact (htallied.pending taskId).2 (hall taskId ((htallied.listed taskId).1 hlisted))

/-- A pending entry for a task. -/
def sampleApproval (taskId : String) : {approval : PendingApproval Unit Bool // approval.status = .pending} :=
  ⟨{ taskId := taskId, escalation := (), source := "plan_requested", createdAt := 0 }, rfl⟩

/-- A task is notified while its approval is pending, and is still listed. -/
theorem notified_still_listed :
    ¬ PendingListExact (after [.submit (sampleApproval "t"), .notify "t" () 1 1] : Store Unit Bool) := by
  intro h
  have hlisted : notified "t" () 1 1 ∈ ((listPending : Program Unit Bool _).eval exec
      (after [.submit (sampleApproval "t"), .notify "t" () 1 1])).1 := by decide +kernel
  exact absurd ((h.mem _).1 hlisted).2 (by decide)

end AgentOrchestrator.ApprovalQueue
