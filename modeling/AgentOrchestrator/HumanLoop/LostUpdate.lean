import AgentOrchestrator.HumanLoop.ApprovalQueue
import AgentOrchestrator.Lib.Pool
import AgentOrchestrator.Schemas
import Mathlib.Data.List.Nodup
import Mathlib.Data.List.Range

/-!
# Concurrent calls on one approval

Any number of `resolve` and `append_message` calls on one submitted approval, their commands interleaved in any order.
Each call reads the whole record, edits its copy and writes it back, so a write discards what others have written since
the read.

What is in the record at the end is decided by the schedule alone: a copy contains the edits of the calls in the
`lineage` of the entry at the time of its `hget`, and an `hset` replaces the lineage of the entry by that of the copy
and its own call.
-/

namespace AgentOrchestrator.ApprovalQueue

/-- A call on an approval: `resolve`, with the time it records, or `append_message`. -/
inductive Operation (δ : Type) where
  | decide (decision : δ) (now : Nat)
  | message (m : ChatMessage)

variable {ε δ : Type}

def Operation.program (taskId : String) : Operation δ → Program ε δ (Except QueueError (PendingApproval ε δ))
  | .decide decision now => resolve taskId decision now
  | .message m => appendMessage taskId m

/-- A command takes effect as Redis executes it. -/
def Executes (c : Command ε δ) (s : Store ε δ) (r : Response c) (t : Store ε δ) : Prop := exec c s = (r, t)

/-- The store after `submit`. -/
def submitted (approval : PendingApproval ε δ) (s : Store ε δ) : Store ε δ := ((submit approval).eval exec s).2

/-- The calls, made at the same time on the approval of `taskId`. -/
def concurrently (taskId : String) (ops : List (Operation δ)) (s : Store ε δ) :
    Pool (Command ε δ) Response (Store ε δ) (Except QueueError (PendingApproval ε δ)) :=
  ⟨s, ops.map (Operation.program taskId)⟩

/-- The store after the calls, made one after the other. -/
def sequentially (taskId : String) (ops : List (Operation δ)) (s : Store ε δ) : Store ε δ :=
  ops.foldl (fun s op => ((op.program taskId).eval exec s).2) s

/-! ### What the calls do to a record -/

namespace Operation

/-- The edit of the call. -/
def apply : Operation δ → PendingApproval ε δ → PendingApproval ε δ
  | .decide decision now, approval =>
    { approval with
      decision := some decision
      status := .resolved
      resolvedAt := some now }
  | .message m, approval => { approval with messages := approval.messages ++ [m] }

def message? : Operation δ → Option ChatMessage
  | .decide _ _ => none
  | .message m => some m

def isDecide : Operation δ → Bool
  | .decide _ _ => true
  | .message _ => false

end Operation

/-- The edits of the calls, made one after the other. -/
def replay (ops : List (Operation δ)) (approval : PendingApproval ε δ) : PendingApproval ε δ :=
  ops.foldl (fun approval op => op.apply approval) approval

theorem replay_append (ops ops' : List (Operation δ)) (approval : PendingApproval ε δ) :
    replay (ops ++ ops') approval = replay ops' (replay ops approval) := List.foldl_append

@[simp] theorem eval_hget (field : String) (s : Store ε δ) :
    (hget field).eval exec s = (s.approvals.get? field, s) := rfl

@[simp] theorem eval_hset (field : String) (value : PendingApproval ε δ) (s : Store ε δ) :
    (hset field value).eval exec s = ((), { s with approvals := s.approvals.insert field value }) := rfl

@[simp] theorem eval_sadd (member : String) (s : Store ε δ) :
    (sadd member).eval exec s = ((), { s with pending := s.pending.insert member () }) := rfl

@[simp] theorem eval_srem (member : String) (s : Store ε δ) :
    (srem member).eval exec s = ((), { s with pending := s.pending.erase member }) := rfl

/-- A call edits the record it finds. -/
theorem eval_program {taskId : String} {s : Store ε δ} {approval : PendingApproval ε δ}
    (h : s.approvals.get? taskId = some approval) (op : Operation δ) :
    ((op.program taskId).eval exec s).2.approvals.get? taskId = some (op.apply approval) := by
  cases op with
  | decide decision now =>
    unfold Operation.program resolve get
    simp [h, Dict.get?_insert, Operation.apply]
  | message m =>
    unfold Operation.program appendMessage get
    simp [h, Dict.get?_insert, Operation.apply]

theorem sequentially_get? {taskId : String} (ops : List (Operation δ)) {s : Store ε δ}
    {approval : PendingApproval ε δ} (h : s.approvals.get? taskId = some approval) :
    (sequentially taskId ops s).approvals.get? taskId = some (replay ops approval) := by
  induction ops generalizing s approval with
  | nil => exact h
  | cons op ops ih => exact ih (eval_program h op)

theorem messages_replay (ops : List (Operation δ)) (approval : PendingApproval ε δ) :
    (replay ops approval).messages = approval.messages ++ ops.filterMap Operation.message? := by
  induction ops generalizing approval with
  | nil => simp [replay]
  | cons op ops ih =>
    show (replay ops (op.apply approval)).messages = _
    rw [ih]
    cases op with
    | decide decision now => rfl
    | message m => exact List.append_assoc ..

/-- Nobody has decided: nothing but messages has been written. -/
theorem status_replay (ops : List (Operation δ)) (approval : PendingApproval ε δ)
    (h : ∀ op ∈ ops, op.isDecide = false) : (replay ops approval).status = approval.status := by
  induction ops generalizing approval with
  | nil => rfl
  | cons op ops ih =>
    have hop : op.isDecide = false := h op List.mem_cons_self
    show (replay ops (op.apply approval)).status = _
    rw [ih _ fun op' hop' => h op' (List.mem_cons_of_mem _ hop')]
    cases op with
    | decide decision now => exact absurd hop (by simp [Operation.isDecide])
    | message m => rfl

/-- The record without what a decision writes. -/
def undecided (approval : PendingApproval ε δ) : PendingApproval ε δ :=
  { approval with
    decision := none
    status := .pending
    resolvedAt := none }

theorem undecided_replay (ops : List (Operation δ)) (hops : ∀ op ∈ ops, op.isDecide = true)
    (approval : PendingApproval ε δ) : undecided (replay ops approval) = undecided approval := by
  induction ops generalizing approval with
  | nil => rfl
  | cons op ops ih =>
    have hop : op.isDecide = true := hops op List.mem_cons_self
    show undecided (replay ops (op.apply approval)) = _
    rw [ih fun op' hop' => hops op' (List.mem_cons_of_mem _ hop')]
    cases op with
    | decide decision now => rfl
    | message m => exact absurd hop (by simp [Operation.isDecide])

/-- A decision makes records equal that differ in a decision only. -/
theorem replay_congr {ops : List (Operation δ)} (hops : ∃ op ∈ ops, op.isDecide = true)
    {approval approval' : PendingApproval ε δ} (h : undecided approval = undecided approval') :
    replay ops approval = replay ops approval' := by
  induction ops generalizing approval approval' with
  | nil => exact absurd hops (by simp)
  | cons op ops ih =>
    show replay ops (op.apply approval) = replay ops (op.apply approval')
    cases op with
    | decide decision now =>
      have hwrite : (Operation.decide decision now).apply (undecided approval) =
          (Operation.decide decision now).apply (undecided approval') := by rw [h]
      exact congrArg (replay ops) hwrite
    | message m =>
      have hrest : ∃ op ∈ ops, op.isDecide = true := by simpa [Operation.isDecide] using hops
      have hmessage : (Operation.message m).apply (undecided approval) =
          (Operation.message m).apply (undecided approval') := by rw [h]
      exact ih hrest hmessage

/-- After a decision the record is decided. -/
theorem resolved_replay {ops : List (Operation δ)} (hops : ∃ op ∈ ops, op.isDecide = true)
    (approval : PendingApproval ε δ) :
    (replay ops approval).status = .resolved ∧ (replay ops approval).decision ≠ none := by
  induction ops using List.reverseRecOn with
  | nil => exact absurd hops (by simp)
  | append_singleton ops op ih =>
    rw [replay_append]
    cases op with
    | decide decision now => exact ⟨rfl, by simp [replay, Operation.apply]⟩
    | message m => exact ih (by simpa [Operation.isDecide] using hops)

/-! ### What the schedule leaves in the record -/

/-- The calls whose edits are in the entry, in order, and those whose edits are in the copy a call has read. -/
structure Lineage where
  entry : List Nat := []
  copy : Nat → List Nat := fun _ => []

def Lineage.next (l : Lineage) (m : Move (Command ε δ) Response) : Lineage :=
  match m.cmd with
  | .hget _ => { l with copy := Function.update l.copy m.proc l.entry }
  | .hset _ _ => { l with entry := l.copy m.proc ++ [m.proc] }
  | _ => l

def lineage (tr : List (Move (Command ε δ) Response)) : Lineage := tr.foldl Lineage.next {}

theorem lineage_snoc (tr : List (Move (Command ε δ) Response)) (m : Move (Command ε δ) Response) :
    lineage (tr ++ [m]) = (lineage tr).next m := by
  simp [lineage]

/-- The calls with the given numbers. -/
def pick (ops : List (Operation δ)) (calls : List Nat) : List (Operation δ) := calls.filterMap (ops[·]?)

/-- How far a call has come, with the record it has read. -/
inductive Stage (ε δ : Type) where
  | called
  | read (approval : PendingApproval ε δ)
  | written

/-- A call reads the entry, writes its edit of what it has read, and if it is a decision removes the id from the pending
ones. -/
def protocol (taskId : String) (op? : Option (Operation δ)) : Protocol (Command ε δ) Response (Stage ε δ) where
  next g c r :=
    match c, r with
    | .hget _, some approval => .read approval
    | .hset _ _, _ => .written
    | _, _ => g
  guarantee g c := ∃ op, op? = some op ∧
    match c with
    | .hget field => field = taskId ∧ g = .called
    | .hset field value => field = taskId ∧ ∃ approval, g = .read approval ∧ value = op.apply approval
    | .srem member => member = taskId ∧ op.isDecide = true
    | _ => False
  rely _ c r :=
    match c, r with
    | .hget _, r => ∃ approval, r = some approval
    | _, _ => True

/-- A call returns after it has written. -/
def Returns (g : Stage ε δ) (_ : Except QueueError (PendingApproval ε δ)) : Prop := g = .written

theorem follows_program (taskId : String) (op : Operation δ) :
    (op.program (ε := ε) taskId).Follows (protocol taskId (some op)) Returns .called := by
  cases op with
  | decide decision now =>
    refine ⟨⟨_, rfl, rfl, rfl⟩, ?_⟩
    rintro r ⟨approval, rfl⟩
    refine ⟨⟨_, rfl, rfl, approval, rfl, rfl⟩, fun _ _ => ?_⟩
    exact ⟨⟨_, rfl, rfl, rfl⟩, fun _ _ => rfl⟩
  | message m =>
    refine ⟨⟨_, rfl, rfl, rfl⟩, ?_⟩
    rintro r ⟨approval, rfl⟩
    exact ⟨⟨_, rfl, rfl, approval, rfl, rfl⟩, fun _ _ => rfl⟩

/-! ### Runs -/

variable {approval : PendingApproval ε δ} {ops : List (Operation δ)}

/-- The stages of the calls after the moves of a run. -/
def stages (taskId : String) (ops : List (Operation δ)) (tr : List (Move (Command ε δ) Response)) :
    Nat → Stage ε δ :=
  Pool.ghost (fun i => protocol taskId ops[i]?) (fun _ => .called) tr

/-- The record has the edits of the given calls, which have all written. -/
structure Descends (approval : PendingApproval ε δ) (ops : List (Operation δ)) (stage : Nat → Stage ε δ)
    (calls : List Nat) (record : PendingApproval ε δ) : Prop where
  replay : record = replay (pick ops calls) approval
  nodup : calls.Nodup
  written : ∀ i ∈ calls, stage i = .written ∧ i < ops.length

/-- The copy and the entry have the edits that the schedule says they have. -/
structure Tracked (approval : PendingApproval ε δ) (ops : List (Operation δ))
    (tr : List (Move (Command ε δ) Response))
    (pool : Pool (Command ε δ) Response (Store ε δ) (Except QueueError (PendingApproval ε δ))) : Prop where
  follow : pool.Follow (fun i => protocol approval.taskId ops[i]?) (fun _ => Returns)
    (stages approval.taskId ops tr)
  entry : ∃ record, pool.store.approvals.get? approval.taskId = some record ∧
    Descends approval ops (stages approval.taskId ops tr) (lineage tr).entry record
  copy : ∀ i record, stages approval.taskId ops tr i = .read record →
    Descends approval ops (stages approval.taskId ops tr) ((lineage tr).copy i) record
  pending : approval.taskId ∈ pool.store.pending.keys ∨ ∃ op ∈ ops, op.isDecide = true

theorem Descends.update {stage : Nat → Stage ε δ} {calls : List Nat} {record : PendingApproval ε δ}
    (h : Descends approval ops stage calls record) {i : Nat} (hi : stage i ≠ .written) (g : Stage ε δ) :
    Descends approval ops (Function.update stage i g) calls record := by
  refine ⟨h.replay, h.nodup, fun j hj => ?_⟩
  have hw := h.written j hj
  have hne : j ≠ i := fun he => hi (he ▸ hw.1)
  rw [Function.update_of_ne hne]
  exact hw

/-- A write adds the edit of its call. -/
theorem Descends.write {stage : Nat → Stage ε δ} {calls : List Nat} {record : PendingApproval ε δ}
    (h : Descends approval ops stage calls record) {i : Nat} {op : Operation δ} (hop : ops[i]? = some op)
    (hi : stage i ≠ .written) :
    Descends approval ops (Function.update stage i .written) (calls ++ [i]) (op.apply record) := by
  have hlt : i < ops.length := (List.getElem?_eq_some_iff.1 hop).1
  have hfresh : i ∉ calls := fun hm => hi (h.written i hm).1
  refine ⟨?_, ?_, ?_⟩
  · have hpick : pick ops (calls ++ [i]) = pick ops calls ++ [op] := by simp [pick, hop]
    rw [hpick, replay_append, ← h.replay]
    rfl
  · rw [List.nodup_append]
    refine ⟨h.nodup, List.nodup_singleton i, fun a ha b hb hab => ?_⟩
    obtain rfl := List.mem_singleton.1 hb
    exact hfresh (hab ▸ ha)
  · intro j hj
    rcases List.mem_append.1 hj with hj | hj
    · exact (h.update hi .written).written j hj
    · obtain rfl := List.mem_singleton.1 hj
      exact ⟨Function.update_self .., hlt⟩

theorem Tracked.step {tr : List (Move (Command ε δ) Response)}
    {pool pool' : Pool (Command ε δ) Response (Store ε δ) (Except QueueError (PendingApproval ε δ))}
    {m : Move (Command ε δ) Response} (h : Tracked approval ops tr pool) (hs : Pool.Step Executes pool m pool') :
    Tracked approval ops (tr ++ [m]) pool' := by
  obtain ⟨hg, hfollow⟩ := h.follow.step hs
  have hstages : stages approval.taskId ops (tr ++ [m]) = Function.update (stages approval.taskId ops tr) m.proc
      ((protocol approval.taskId ops[m.proc]?).next (stages approval.taskId ops tr m.proc) m.cmd m.res) :=
    Pool.ghost_snoc ..
  cases hs with
  | @move s t ps i c k r hi he =>
    obtain ⟨op, hop, hg⟩ := hg
    obtain ⟨record, hrecord, hentry⟩ := h.entry
    dsimp only at hstages hop hrecord
    cases c with
    | hget field =>
      -- the call copies the entry, with the edits that are in it
      obtain ⟨rfl, hcalled⟩ := hg
      obtain ⟨rfl, rfl⟩ := Prod.mk.inj he
      have hunwritten : stages approval.taskId ops tr i ≠ .written := by simp [hcalled]
      have hnext : (protocol approval.taskId ops[i]?).next (stages approval.taskId ops tr i)
          (.hget approval.taskId) (s.approvals.get? approval.taskId) = .read record := by
        rw [hrecord]
        rfl
      refine ⟨hstages ▸ hfollow ⟨record, hrecord⟩, ?_, ?_, h.pending⟩
      · rw [hstages, lineage_snoc]
        exact ⟨record, hrecord, hentry.update hunwritten _⟩
      · rw [hstages, lineage_snoc, hnext]
        intro j a hj
        by_cases hji : j = i
        · subst hji
          rw [Function.update_self] at hj
          obtain rfl := Stage.read.inj hj
          have hcopy : ((lineage tr).next ⟨j, .hget approval.taskId, s.approvals.get? approval.taskId⟩).copy j =
              (lineage tr).entry := Function.update_self ..
          exact hcopy ▸ hentry.update hunwritten _
        · rw [Function.update_of_ne hji] at hj
          have hcopy : ((lineage tr).next ⟨i, .hget approval.taskId, s.approvals.get? approval.taskId⟩).copy j =
              (lineage tr).copy j := Function.update_of_ne hji ..
          exact hcopy ▸ (h.copy j a hj).update hunwritten _
    | hset field value =>
      -- the copy and the edit of its call become the entry, whatever the entry has been
      obtain ⟨rfl, a, hread, rfl⟩ := hg
      obtain ⟨rfl, rfl⟩ := Prod.mk.inj he
      have hunwritten : stages approval.taskId ops tr i ≠ .written := by simp [hread]
      refine ⟨hstages ▸ hfollow trivial, ?_, ?_, h.pending⟩
      · rw [hstages, lineage_snoc]
        exact ⟨op.apply a, by simp [Dict.get?_insert], (h.copy i a hread).write hop hunwritten⟩
      · rw [hstages, lineage_snoc]
        intro j b hj
        by_cases hji : j = i
        · subst hji
          rw [Function.update_self] at hj
          exact absurd hj (by simp [protocol])
        · rw [Function.update_of_ne hji] at hj
          exact (h.copy j b hj).update hunwritten _
    | srem member =>
      obtain ⟨rfl, hdecide⟩ := hg
      obtain ⟨rfl, rfl⟩ := Prod.mk.inj he
      have hsame : stages approval.taskId ops (tr ++ [⟨i, .srem approval.taskId, ()⟩]) =
          stages approval.taskId ops tr := hstages.trans (Function.update_eq_self ..)
      refine ⟨hstages ▸ hfollow trivial, ?_, ?_, Or.inr ⟨op, List.mem_of_getElem? hop, hdecide⟩⟩
      · rw [hsame, lineage_snoc]
        exact ⟨record, hrecord, hentry⟩
      · rw [hsame, lineage_snoc]
        exact h.copy
    | _ => exact hg.elim

theorem submitted_get? (approval : PendingApproval ε δ) (s : Store ε δ) :
    (submitted approval s).approvals.get? approval.taskId = some approval := by
  unfold submitted submit
  simp [Dict.get?_insert]

theorem submitted_pending (approval : PendingApproval ε δ) (s : Store ε δ) :
    approval.taskId ∈ (submitted approval s).pending.keys := by
  refine Dict.mem_keys_iff.2 ⟨(), ?_⟩
  unfold submitted submit
  simp [Dict.get?_insert]

theorem tracked_submitted (approval : PendingApproval ε δ) (ops : List (Operation δ)) (s : Store ε δ) :
    Tracked approval ops [] (concurrently approval.taskId ops (submitted approval s)) := by
  refine ⟨?_, ?_, ?_, Or.inl (submitted_pending approval s)⟩
  · refine Pool.follow_map fun i op hop => ?_
    rw [hop]
    exact follows_program approval.taskId op
  · exact ⟨approval, submitted_get? approval s, rfl, List.nodup_nil, fun i hi => absurd hi List.not_mem_nil⟩
  · intro i record hread
    exact absurd hread (by simp [stages, Pool.ghost])

theorem tracked_of_exec {s : Store ε δ} {tr : List (Move (Command ε δ) Response)}
    {pool : Pool (Command ε δ) Response (Store ε δ) (Except QueueError (PendingApproval ε δ))}
    (hr : Exec (Pool.Step Executes) (concurrently approval.taskId ops (submitted approval s)) tr pool) :
    Tracked approval ops tr pool :=
  hr.invariant _ (tracked_submitted approval ops s) fun _ _ _ _ _ h hs => h.step hs

/-- The calls that are not among the given ones. -/
def missing (ops : List (Operation δ)) (calls : List Nat) : List (Operation δ) :=
  pick ops ((List.range ops.length).filter fun i => i ∉ calls)

theorem pick_range (ops : List (Operation δ)) : pick ops (List.range ops.length) = ops := by
  induction ops with
  | nil => rfl
  | cons op ops ih =>
    have hshift : pick (op :: ops) ((List.range ops.length).map Nat.succ) = pick ops (List.range ops.length) := by
      unfold pick
      rw [List.filterMap_map]
      rfl
    rw [List.length_cons, List.range_succ_eq_map]
    show op :: pick (op :: ops) ((List.range ops.length).map Nat.succ) = op :: ops
    rw [hshift, ih]

/-- The missing calls and the given ones are all calls. -/
theorem missing_perm {ops : List (Operation δ)} {calls : List Nat} (hn : calls.Nodup)
    (hlt : ∀ i ∈ calls, i < ops.length) : (missing ops calls ++ pick ops calls).Perm ops := by
  have hperm : ((List.range ops.length).filter (fun i => i ∉ calls) ++ calls).Perm (List.range ops.length) := by
    refine (List.perm_ext_iff_of_nodup ?_ List.nodup_range).2 fun i => ?_
    · rw [List.nodup_append]
      refine ⟨List.nodup_range.filter _, hn, fun a ha b hb hab => ?_⟩
      have hna : a ∉ calls := by simpa using (List.mem_filter.1 ha).2
      exact hna (hab ▸ hb)
    · rw [List.mem_append, List.mem_filter, List.mem_range, decide_eq_true_iff]
      by_cases hi : i ∈ calls
      · exact ⟨fun _ => hlt i hi, fun _ => Or.inr hi⟩
      · exact ⟨fun h => (h.resolve_right hi).1, fun h => Or.inl ⟨h, hi⟩⟩
  have hpick := hperm.filterMap (ops[·]?)
  rw [List.filterMap_append] at hpick
  exact hpick.trans (List.Perm.of_eq (pick_range ops))

theorem mem_missing {ops : List (Operation δ)} {calls : List Nat} {op : Operation δ} :
    op ∈ missing ops calls ↔ ∃ i, i ∉ calls ∧ ops[i]? = some op := by
  simp only [missing, pick, List.mem_filterMap, List.mem_filter, List.mem_range, decide_eq_true_iff]
  constructor
  · rintro ⟨i, ⟨-, hi⟩, hop⟩
    exact ⟨i, hi, hop⟩
  · rintro ⟨i, hi, hop⟩
    exact ⟨i, ⟨(List.getElem?_eq_some_iff.1 hop).1, hi⟩, hop⟩

/-- Every message is among the given calls, and a decision if there is any. -/
def Complete (ops : List (Operation δ)) (calls : List Nat) : Prop :=
  (∀ i op, ops[i]? = some op → op.isDecide = false → i ∈ calls) ∧
    ((∃ op ∈ ops, op.isDecide = true) → ∃ op ∈ pick ops calls, op.isDecide = true)

theorem complete_of_all {calls : List Nat} (h : ∀ i op, ops[i]? = some op → i ∈ calls) : Complete ops calls := by
  refine ⟨fun i op hop _ => h i op hop, ?_⟩
  rintro ⟨op, hop, hdecide⟩
  obtain ⟨i, hi⟩ := List.mem_iff_getElem?.1 hop
  exact ⟨op, List.mem_filterMap.2 ⟨i, h i op hi, hi⟩, hdecide⟩

/-- No update is lost on the way from `s` to `t`: the record is the one of some sequential order of the calls, each
message is in the transcript once, and a decision has resolved the record and reaches a waiting runner. -/
structure NoneLost (approval : PendingApproval ε δ) (ops : List (Operation δ)) (s t : Store ε δ) : Prop where
  serial : ∃ order, order.Perm ops ∧
    t.approvals.get? approval.taskId = (sequentially approval.taskId order s).approvals.get? approval.taskId
  messages : ∃ record, t.approvals.get? approval.taskId = some record ∧
    record.messages.Perm (approval.messages ++ ops.filterMap Operation.message?)
  resolved : (∃ op ∈ ops, op.isDecide = true) → ∃ record, t.approvals.get? approval.taskId = some record ∧
    record.status = .resolved ∧ record.decision ≠ none
  delivered : (∃ op ∈ ops, op.isDecide = true) → ((pollDecision approval.taskId).eval exec t).1 ≠ none
  settled : approval.taskId ∈ t.pending.keys ∨
    ∃ record, t.approvals.get? approval.taskId = some record ∧ record.status = .resolved

/-- A complete lineage is as good as the order that makes the calls outside of it first. -/
theorem Descends.replay_order {stage : Nat → Stage ε δ} {calls : List Nat} {record : PendingApproval ε δ}
    (h : Descends approval ops stage calls record) (hc : Complete ops calls) :
    record = ApprovalQueue.replay (missing ops calls ++ pick ops calls) approval := by
  have hdecides : ∀ op ∈ missing ops calls, op.isDecide = true := by
    intro op hop
    obtain ⟨i, hi, hget⟩ := mem_missing.1 hop
    by_contra hm
    exact hi (hc.1 i op hget (Bool.eq_false_iff.2 hm))
  rw [replay_append, h.replay]
  by_cases hany : ∃ op ∈ ops, op.isDecide = true
  · exact replay_congr (hc.2 hany) (undecided_replay _ hdecides approval).symm
  · have hnone : missing ops calls = [] := by
      rw [List.eq_nil_iff_forall_not_mem]
      intro op hop
      obtain ⟨i, -, hget⟩ := mem_missing.1 hop
      exact hany ⟨op, List.mem_of_getElem? hget, hdecides op hop⟩
    rw [hnone]
    rfl

theorem Descends.complete {stage : Nat → Stage ε δ} {calls : List Nat} {record : PendingApproval ε δ}
    (h : Descends approval ops stage calls record) (hpending : approval.status = .pending)
    {order : List (Operation δ)} (hperm : order.Perm ops) (hserial : record = ApprovalQueue.replay order approval) :
    Complete ops calls := by
  have hsame : ApprovalQueue.replay (pick ops calls) approval = ApprovalQueue.replay order approval :=
    h.replay.symm.trans hserial
  constructor
  · intro i op hget hop
    have hlen := congrArg (fun a => a.messages.length) hsame
    have horder : (order.filterMap Operation.message?).length = (ops.filterMap Operation.message?).length :=
      (hperm.filterMap _).length_eq
    have hsplit : ((missing ops calls ++ pick ops calls).filterMap Operation.message?).length =
        (ops.filterMap Operation.message?).length :=
      ((missing_perm h.nodup fun i hi => (h.written i hi).2).filterMap _).length_eq
    simp only [messages_replay, List.length_append] at hlen
    rw [List.filterMap_append, List.length_append] at hsplit
    have hnone : (missing ops calls).filterMap Operation.message? = [] := List.length_eq_zero_iff.1 (by omega)
    by_contra hi
    have hmissing : op ∈ missing ops calls := mem_missing.2 ⟨i, hi, hget⟩
    have hmessage := List.filterMap_eq_nil_iff.1 hnone op hmissing
    cases op with
    | decide decision now => exact absurd hop (by simp [Operation.isDecide])
    | message m => exact absurd hmessage (by simp [Operation.message?])
  · rintro ⟨op, hop, hdecide⟩
    by_contra hnone
    have hkept := status_replay (pick ops calls) approval fun op' hop' =>
      Bool.eq_false_iff.2 fun hd => hnone ⟨op', hop', hd⟩
    have hresolved := (resolved_replay ⟨op, hperm.mem_iff.2 hop, hdecide⟩ approval).1
    rw [← hsame, hkept, hpending] at hresolved
    exact absurd hresolved (by simp)

theorem Tracked.noneLost {s : Store ε δ} {tr : List (Move (Command ε δ) Response)}
    {pool : Pool (Command ε δ) Response (Store ε δ) (Except QueueError (PendingApproval ε δ))}
    (h : Tracked approval ops tr pool) (hc : Complete ops (lineage tr).entry) :
    NoneLost approval ops (submitted approval s) pool.store := by
  obtain ⟨record, hrecord, hdescends⟩ := h.entry
  have hperm := missing_perm hdescends.nodup fun i hi => (hdescends.written i hi).2
  have hreplay := hdescends.replay_order hc
  have hresolved : (∃ op ∈ ops, op.isDecide = true) → record.status = .resolved ∧ record.decision ≠ none := by
    rintro ⟨op, hop, hdecide⟩
    rw [hreplay]
    exact resolved_replay ⟨op, hperm.mem_iff.2 hop, hdecide⟩ approval
  refine ⟨⟨_, hperm, ?_⟩, ⟨record, hrecord, ?_⟩, fun hany => ⟨record, hrecord, hresolved hany⟩, fun hany => ?_, ?_⟩
  · rw [sequentially_get? _ (submitted_get? approval s), hrecord, hreplay]
  · rw [hreplay, messages_replay]
    exact (hperm.filterMap _).append_left _
  · obtain ⟨hstatus, hdecision⟩ := hresolved hany
    unfold pollDecision get
    simpa [hrecord, hstatus] using hdecision
  · exact h.pending.imp_right fun hany => ⟨record, hrecord, (hresolved hany).1⟩

/-- No update is lost exactly in the runs at whose end the lineage of the entry has every message, and a decision if
there is any. -/
theorem noneLost_iff {s : Store ε δ} (hpending : approval.status = .pending)
    {tr : List (Move (Command ε δ) Response)}
    {pool : Pool (Command ε δ) Response (Store ε δ) (Except QueueError (PendingApproval ε δ))}
    (hr : Exec (Pool.Step Executes) (concurrently approval.taskId ops (submitted approval s)) tr pool) :
    NoneLost approval ops (submitted approval s) pool.store ↔ Complete ops (lineage tr).entry := by
  have htracked := tracked_of_exec hr
  constructor
  · intro h
    obtain ⟨record, hrecord, hdescends⟩ := htracked.entry
    obtain ⟨order, hperm, hserial⟩ := h.serial
    rw [hrecord, sequentially_get? order (submitted_get? approval s)] at hserial
    exact hdescends.complete hpending hperm (Option.some.inj hserial)
  · exact htracked.noneLost

/-! ### Runs in which no write comes between the read and the write of another call -/

def writesEntry (m : Move (Command ε δ) Response) : Bool :=
  match m.cmd with
  | .hset _ _ => true
  | _ => false

/-- Whenever a call writes, the entry is still as the call has read it. -/
def Undisturbed (tr : List (Move (Command ε δ) Response)) : Prop :=
  ∀ pre m, pre ++ [m] <+: tr → writesEntry m = true → (lineage pre).copy m.proc = (lineage pre).entry

theorem mem_entry_of_undisturbed {s : Store ε δ} {tr : List (Move (Command ε δ) Response)}
    {pool : Pool (Command ε δ) Response (Store ε δ) (Except QueueError (PendingApproval ε δ))}
    (hr : Exec (Pool.Step Executes) (concurrently approval.taskId ops (submitted approval s)) tr pool)
    (hu : Undisturbed tr) (i : Nat) (hi : stages approval.taskId ops tr i = .written) : i ∈ (lineage tr).entry := by
  induction hr generalizing i with
  | refl => exact absurd hi (by simp [stages, Pool.ghost])
  | @snoc tr t u m hr hs ih =>
    have hrest : Undisturbed tr := fun pre m hp => hu pre m (hp.trans (List.prefix_append ..))
    have hlast : writesEntry m = true → (lineage tr).copy m.proc = (lineage tr).entry := hu tr m List.prefix_rfl
    have hstages : stages approval.taskId ops (tr ++ [m]) = Function.update (stages approval.taskId ops tr) m.proc
        ((protocol approval.taskId ops[m.proc]?).next (stages approval.taskId ops tr m.proc) m.cmd m.res) :=
      Pool.ghost_snoc ..
    rw [lineage_snoc]
    rw [hstages] at hi
    obtain ⟨j, c, r⟩ := m
    by_cases hij : i = j
    · subst hij
      rw [Function.update_self] at hi
      cases c with
      | hset field value => exact List.mem_append_right _ (List.mem_singleton_self i)
      | hget field =>
        cases r with
        | none => exact ih hrest i hi
        | some a => exact absurd hi (by simp [protocol])
      | _ => exact ih hrest i hi
    · rw [Function.update_of_ne hij] at hi
      have hmem := ih hrest i hi
      cases c with
      | hset field value => exact List.mem_append_left _ (hlast rfl ▸ hmem)
      | _ => exact hmem

/-- Calls that do not disturb each other lose nothing. -/
theorem noneLost_of_undisturbed {s : Store ε δ} {tr : List (Move (Command ε δ) Response)}
    {pool : Pool (Command ε δ) Response (Store ε δ) (Except QueueError (PendingApproval ε δ))}
    (hr : Exec (Pool.Step Executes) (concurrently approval.taskId ops (submitted approval s)) tr pool)
    (hfin : pool.Finished) (hu : Undisturbed tr) : NoneLost approval ops (submitted approval s) pool.store := by
  have htracked := tracked_of_exec hr
  have hall : ∀ i op, ops[i]? = some op → i ∈ (lineage tr).entry := by
    intro i op hop
    have hlen : pool.progs.length = ops.length := by
      rw [Pool.length_eq_of_exec hr]
      exact List.length_map ..
    have hlt : i < pool.progs.length := hlen ▸ (List.getElem?_eq_some_iff.1 hop).1
    have hprog := List.getElem?_eq_getElem hlt
    obtain ⟨a, ha⟩ := hfin _ (List.mem_of_getElem? hprog)
    exact mem_entry_of_undisturbed hr hu i (htracked.follow.post (ha ▸ hprog))
  exact htracked.noneLost (complete_of_all hall)

/-! ### A decision and a question -/

private def questioned : PendingApproval EscalationRequest HumanDecision where
  taskId := "t"
  escalation :=
    { level := .approvePlan
      reason := "Human review of the plan was explicitly requested."
      context := { task := "Report" } }
  source := "plan_requested"
  createdAt := 0

private def questionAndDecision : List (Operation HumanDecision) :=
  [.message ⟨.human, "Which regions?", 1⟩, .decide { action := .approve } 2]

/-- The two calls, with the commands in the order of the list. -/
private def schedule (order : List Nat)
    (p : List (Move (Command EscalationRequest HumanDecision) Response) →
      Pool (Command EscalationRequest HumanDecision) Response (Store EscalationRequest HumanDecision)
        (Except QueueError (PendingApproval EscalationRequest HumanDecision)) → Bool) : Bool :=
  scriptEnds (Pool.advance exec) (concurrently "t" questionAndDecision (submitted questioned {})) order p

private theorem exec_of_schedule {order : List Nat}
    {p : List (Move (Command EscalationRequest HumanDecision) Response) →
      Pool (Command EscalationRequest HumanDecision) Response (Store EscalationRequest HumanDecision)
        (Except QueueError (PendingApproval EscalationRequest HumanDecision)) → Bool} (h : schedule order p = true) :
    ∃ tr pool, Exec (Pool.Step Executes) (concurrently "t" questionAndDecision (submitted questioned {})) tr pool ∧
      p tr pool = true :=
  exists_exec_of_scriptEnds (fun _ _ _ _ hi => Pool.step_of_advance (fun _ _ => rfl) hi) h

/-- The question is asked before the decision is read: both are kept. -/
theorem noneLost_question_first : ∃ tr pool,
    Exec (Pool.Step Executes) (concurrently "t" questionAndDecision (submitted questioned {})) tr pool ∧
      NoneLost questioned questionAndDecision (submitted questioned {}) pool.store := by
  have hscript : schedule [0, 0, 1, 1, 1] (fun tr _ => decide ((lineage tr).entry = [0, 1])) = true := by
    decide +kernel
  obtain ⟨tr, pool, hr, hp⟩ := exec_of_schedule hscript
  have hentry : (lineage tr).entry = [0, 1] := of_decide_eq_true hp
  refine ⟨tr, pool, hr, (noneLost_iff rfl hr).2 (complete_of_all fun i op hop => ?_)⟩
  have hlt : i < 2 := (List.getElem?_eq_some_iff.1 hop).1
  rw [hentry, List.mem_cons, List.mem_singleton]
  omega

/-- The question is read before the decision is written and written after it: the approval is neither pending nor
resolved. -/
theorem decision_lost : ∃ tr pool,
    Exec (Pool.Step Executes) (concurrently "t" questionAndDecision (submitted questioned {})) tr pool ∧
      pool.Finished ∧ ¬ NoneLost questioned questionAndDecision (submitted questioned {}) pool.store := by
  have hscript : schedule [0, 1, 1, 1, 0] (fun _ pool => pool.progs.all Prog.returned &&
      decide (pool.store.pending.keys = [] ∧
        (pool.store.approvals.get? "t").map PendingApproval.status = some .pending)) = true := by
    decide +kernel
  obtain ⟨tr, pool, hr, hp⟩ := exec_of_schedule hscript
  obtain ⟨hfin, hlost⟩ := Bool.and_eq_true_iff.1 hp
  obtain ⟨hpending, hstatus⟩ := of_decide_eq_true hlost
  refine ⟨tr, pool, hr, Pool.finished_of_all hfin, fun h => ?_⟩
  rcases h.settled with hmem | ⟨record, hrecord, hresolved⟩
  · rw [hpending] at hmem
    exact absurd hmem List.not_mem_nil
  · have hget : pool.store.approvals.get? "t" = some record := hrecord
    rw [hget, Option.map_some, hresolved] at hstatus
    exact absurd hstatus (by decide)

end AgentOrchestrator.ApprovalQueue
