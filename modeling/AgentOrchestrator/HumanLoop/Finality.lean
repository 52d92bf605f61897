import AgentOrchestrator.HumanLoop.Histories

/-!
# Whether a recorded decision is final

`resolve` asks only whether there is a record, so a decision can be replaced, and `notify` replaces the whole record.  A
`Desk` is the queue together with the decisions that the runners have gone on with.  Along a history in which no
`resolve` meets a record that is not pending, and no `notify` one whose decision has been taken, each submission is
resolved at most once and what the queue shows is what the runner was told; along every other history it is not
(`final_iff_guarded`).
-/

namespace AgentOrchestrator.ApprovalQueue

variable {ε δ : Type}

/-- The queue, and for each task the decision, with its time, that its runner has taken since it last submitted. -/
structure Desk (ε δ : Type) where
  store : Store ε δ := {}
  resumed : Dict String (δ × Option Nat) := ∅

/-- A runner that waits takes the decision it is shown, and goes on waiting with its next submission. -/
def Desk.take (desk : Desk ε δ) : Request ε δ → Dict String (δ × Option Nat)
  | .submit approval => desk.resumed.erase approval.1.taskId
  | .poll taskId =>
    match desk.resumed.get? taskId, ((pollDecision taskId : Program ε δ _).eval exec desk.store).1 with
    | none, some decision =>
      desk.resumed.insert taskId (decision, (desk.store.approvals.get? taskId).bind (·.resolvedAt))
    | _, _ => desk.resumed
  | _ => desk.resumed

def Desk.run (desk : Desk ε δ) (o : Request ε δ) : Desk ε δ := ⟨(o.run desk.store).2, desk.take o⟩

def deskAfter (ops : List (Request ε δ)) : Desk ε δ := ops.foldl Desk.run {}

theorem deskAfter_snoc (ops : List (Request ε δ)) (o : Request ε δ) :
    deskAfter (ops ++ [o]) = (deskAfter ops).run o := by
  unfold deskAfter
  rw [List.foldl_append]
  rfl

theorem store_deskAfter (ops : List (Request ε δ)) : (deskAfter ops).store = after ops := by
  induction ops using List.reverseRecOn with
  | nil => rfl
  | append_singleton ops o ih =>
    rw [deskAfter_snoc, after_snoc, ← ih]
    rfl

/-! ### Finality -/

instance (taskId : String) (o : Request ε δ) : Decidable (o.Resolves taskId) :=
  match o with
  | .resolve taskId' _ _ => inferInstanceAs (Decidable (taskId' = taskId))
  | .submit _ => inferInstanceAs (Decidable False)
  | .notify _ _ _ _ => inferInstanceAs (Decidable False)
  | .appendMessage _ _ => inferInstanceAs (Decidable False)
  | .get _ => inferInstanceAs (Decidable False)
  | .listPending => inferInstanceAs (Decidable False)
  | .listAll => inferInstanceAs (Decidable False)
  | .poll _ => inferInstanceAs (Decidable False)

/-- How many calls of `resolve` for the task take effect. -/
def resolutions (taskId : String) : Store ε δ → List (Request ε δ) → Nat
  | _, [] => 0
  | s, o :: ops => (if o.Resolves taskId ∧ (o.run s).1 = none then 1 else 0) + resolutions taskId (o.run s).2 ops

/-- `get` or `list_all` shows the record for the task. -/
def Shows (s : Store ε δ) (taskId : String) (approval : PendingApproval ε δ) : Prop :=
  ((get taskId : Program ε δ _).eval exec s).1 = some approval ∨
    approval ∈ ((listAll : Program ε δ _).eval exec s).1 ∧ approval.taskId = taskId

/-- After a submission at most one `resolve` takes effect before the next one, a `resolve` of a record that is not
pending is refused, and what is shown is what the runner was told. -/
structure Final (ops : List (Request ε δ)) : Prop where
  once : ∀ pre approval segment post, ops = pre ++ .submit approval :: (segment ++ post) →
    (∀ o ∈ segment, ¬ o.Submits approval.1.taskId) →
    resolutions approval.1.taskId (after (pre ++ [.submit approval])) segment ≤ 1
  refused : ∀ pre taskId decision now post, ops = pre ++ .resolve taskId decision now :: post →
    ∀ approval, (after pre).approvals.get? taskId = some approval → approval.status ≠ .pending →
      (∃ e, ((Request.resolve taskId decision now).run (after pre)).1 = some e) ∧
        ((Request.resolve taskId decision now).run (after pre)).2 = after pre
  shown : ∀ pre post, ops = pre ++ post → ∀ taskId decision time,
    (deskAfter pre).resumed.get? taskId = some (decision, time) →
      (∃ approval, Shows (after pre) taskId approval) ∧
        ∀ approval, Shows (after pre) taskId approval → approval.decision = some decision ∧ approval.resolvedAt = time

/-- A `resolve` meets no record or a pending one, and a `notify` none that a runner has gone on with. -/
def Permits (desk : Desk ε δ) : Request ε δ → Prop
  | .resolve taskId _ _ => ∀ approval ∈ desk.store.approvals.get? taskId, approval.status = .pending
  | .notify taskId _ _ _ => desk.resumed.get? taskId = none
  | _ => True

instance (desk : Desk ε δ) (o : Request ε δ) : Decidable (Permits desk o) :=
  match o with
  | .resolve taskId _ _ =>
    inferInstanceAs (Decidable (∀ approval ∈ desk.store.approvals.get? taskId, approval.status = .pending))
  | .notify taskId _ _ _ => inferInstanceAs (Decidable (desk.resumed.get? taskId = none))
  | .submit _ => inferInstanceAs (Decidable True)
  | .appendMessage _ _ => inferInstanceAs (Decidable True)
  | .get _ => inferInstanceAs (Decidable True)
  | .listPending => inferInstanceAs (Decidable True)
  | .listAll => inferInstanceAs (Decidable True)
  | .poll _ => inferInstanceAs (Decidable True)

/-- Every request of the history is permitted. -/
def Guarded (ops : List (Request ε δ)) : Prop := Along Desk.run Permits {} ops

/-! ### What a request does to the record of a task -/

/-- A request that neither submits nor resolves nor notifies the task leaves its record, but for the messages. -/
theorem run_other {o : Request ε δ} {s : Store ε δ} {taskId : String} {approval : PendingApproval ε δ}
    (h : s.approvals.get? taskId = some approval) (hs : ¬ o.Submits taskId) (hr : ¬ o.Resolves taskId)
    (hn : ¬ o.Notifies taskId) :
    ∃ messages, (o.run s).2.approvals.get? taskId = some { approval with messages := messages } := by
  have hkeep : ∀ (d : Dict String (PendingApproval ε δ)) (k : String) (value : PendingApproval ε δ), k ≠ taskId →
      (d.insert k value).get? taskId = d.get? taskId := by
    intro d k value hk
    rw [Dict.get?_insert, if_neg (Ne.symm hk)]
  cases o with
  | submit approval' => exact ⟨approval.messages, (hkeep _ _ _ hs).trans h⟩
  | resolve k decision now =>
    cases hget : s.approvals.get? k with
    | none =>
      rw [run_resolve_none hget]
      exact ⟨approval.messages, h⟩
    | some approval' =>
      rw [run_resolve_some hget]
      exact ⟨approval.messages, (hkeep _ _ _ hr).trans h⟩
  | notify k escalation createdAt resolvedAt => exact ⟨approval.messages, (hkeep _ _ _ hn).trans h⟩
  | appendMessage k message =>
    rw [run_appendMessage]
    by_cases hk : k = taskId
    · subst hk
      rw [h]
      exact ⟨approval.messages ++ [message], by simp [Dict.get?_insert]⟩
    · split
      · exact ⟨approval.messages, h⟩
      · exact ⟨approval.messages, (hkeep _ _ _ hk).trans h⟩
  | get k => exact ⟨approval.messages, h⟩
  | listPending =>
    rw [run_listPending]
    exact ⟨approval.messages, h⟩
  | listAll => exact ⟨approval.messages, h⟩
  | poll k =>
    rw [run_poll]
    exact ⟨approval.messages, h⟩

/-- Only a submission makes a record pending. -/
theorem isPending_of_run {o : Request ε δ} {s : Store ε δ} {taskId : String} (h : IsPending (o.run s).2 taskId) :
    o.Submits taskId ∨ IsPending s taskId := by
  cases o with
  | submit approval =>
    rw [run_submit, isPending_insert] at h
    exact h.imp (fun h => h.1) fun h => h.2
  | resolve k decision now =>
    cases hget : s.approvals.get? k with
    | none =>
      rw [run_resolve_none hget] at h
      exact Or.inr h
    | some approval =>
      rw [run_resolve_some hget, isPending_insert] at h
      rcases h with ⟨-, h⟩ | ⟨-, h⟩
      · exact absurd h (by simp [decided])
      · exact Or.inr h
  | notify k escalation createdAt resolvedAt =>
    rw [run_notify, isPending_insert] at h
    rcases h with ⟨-, h⟩ | ⟨-, h⟩
    · exact absurd h (by simp [notified])
    · exact Or.inr h
  | appendMessage k message =>
    rw [run_appendMessage] at h
    split at h
    · exact Or.inr h
    · rename_i approval hget
      rw [isPending_insert] at h
      rcases h with ⟨rfl, h⟩ | ⟨-, h⟩
      · exact Or.inr ⟨approval, hget, h⟩
      · exact Or.inr h
  | get k => exact Or.inr h
  | listPending =>
    rw [run_listPending] at h
    exact Or.inr h
  | listAll => exact Or.inr h
  | poll k =>
    rw [run_poll] at h
    exact Or.inr h

/-- A `resolve` that takes effect along a guarded history finds a pending record and leaves one that is not. -/
theorem resolved_once {o : Request ε δ} {desk : Desk ε δ} {taskId : String} (hp : Permits desk o)
    (hr : o.Resolves taskId) (heffect : (o.run desk.store).1 = none) :
    IsPending desk.store taskId ∧ ¬ IsPending (o.run desk.store).2 taskId := by
  cases o with
  | resolve k decision now =>
    obtain rfl : k = taskId := hr
    cases hget : desk.store.approvals.get? k with
    | none =>
      rw [run_resolve_none hget] at heffect
      exact absurd heffect (by simp)
    | some approval =>
      refine ⟨⟨approval, hget, hp approval hget⟩, ?_⟩
      rw [run_resolve_some hget, isPending_insert]
      simp [decided]
  | _ => exact hr.elim

/-- Until the next submission at most one `resolve` takes effect, and none if the record is not pending. -/
theorem resolutions_of_guarded {taskId : String} {segment : List (Request ε δ)} {desk : Desk ε δ}
    (hg : Along Desk.run Permits desk segment) (hs : ∀ o ∈ segment, ¬ o.Submits taskId) :
    (¬ IsPending desk.store taskId → resolutions taskId desk.store segment = 0) ∧
      resolutions taskId desk.store segment ≤ 1 := by
  induction segment generalizing desk with
  | nil => exact ⟨fun _ => rfl, Nat.zero_le 1⟩
  | cons o segment ih =>
    obtain ⟨hp, hg⟩ := hg
    obtain ⟨ih0, ih1⟩ := ih hg fun x hx => hs x (List.mem_cons_of_mem _ hx)
    have hnot : ¬ o.Submits taskId := hs o List.mem_cons_self
    unfold resolutions
    by_cases hr : o.Resolves taskId ∧ (o.run desk.store).1 = none
    · obtain ⟨hpending, hafter⟩ := resolved_once hp hr.1 hr.2
      have hrest : resolutions taskId (o.run desk.store).2 segment = 0 := ih0 hafter
      rw [if_pos hr, hrest]
      exact ⟨fun h => absurd hpending h, le_refl 1⟩
    · rw [if_neg hr, Nat.zero_add]
      exact ⟨fun h => ih0 fun h' => h ((isPending_of_run h').resolve_left hnot), ih1⟩

/-! ### What the runner was told -/

/-- The decisions that have been taken are the ones recorded. -/
def Kept (desk : Desk ε δ) : Prop :=
  ∀ taskId decision time, desk.resumed.get? taskId = some (decision, time) →
    ∃ approval, desk.store.approvals.get? taskId = some approval ∧ approval.status = .resolved ∧
      approval.decision = some decision ∧ approval.resolvedAt = time

/-- What a runner has taken it took earlier, or just now from the record. -/
theorem taken_cases {desk : Desk ε δ} {o : Request ε δ} {taskId : String} {decision : δ} {time : Option Nat}
    (h : (desk.take o).get? taskId = some (decision, time)) :
    ¬ o.Submits taskId ∧ (desk.resumed.get? taskId = some (decision, time) ∨
      o = .poll taskId ∧ ∃ approval, desk.store.approvals.get? taskId = some approval ∧ approval.status = .resolved ∧
        approval.decision = some decision ∧ approval.resolvedAt = time) := by
  cases o with
  | submit approval =>
    have herase : (desk.resumed.erase approval.1.taskId).get? taskId = some (decision, time) := h
    rw [Dict.get?_erase] at herase
    split at herase
    · exact absurd herase (by simp)
    · rename_i hne
      exact ⟨fun heq => hne heq.symm, Or.inl herase⟩
  | poll k =>
    refine ⟨id, ?_⟩
    unfold Desk.take at h
    dsimp only at h
    split at h
    · rename_i decision' hnone hpoll
      rw [Dict.get?_insert] at h
      split at h
      · rename_i heq
        subst heq
        obtain ⟨rfl, rfl⟩ := Prod.mk.inj (Option.some.inj h)
        rw [eval_pollDecision] at hpoll
        obtain ⟨approval, hget, hdecision⟩ := Option.bind_eq_some_iff.1 hpoll
        split at hdecision
        · rename_i hstatus
          exact Or.inr ⟨rfl, approval, hget, hstatus, hdecision, by rw [hget]; rfl⟩
        · exact absurd hdecision (by simp)
      · exact Or.inl h
    · exact Or.inl h
  | _ => exact ⟨id, Or.inl h⟩

theorem Kept.run {desk : Desk ε δ} {o : Request ε δ} (h : Kept desk) (hp : Permits desk o) : Kept (desk.run o) := by
  intro taskId decision time htaken
  obtain ⟨hs, hold | ⟨rfl, approval, hget, hrest⟩⟩ := taken_cases htaken
  · obtain ⟨approval, hget, hstatus, hdecision, htime⟩ := h taskId decision time hold
    have hr : ¬ o.Resolves taskId := by
      intro hr
      cases o with
      | resolve k _ _ =>
        obtain rfl : k = taskId := hr
        exact absurd ((hp approval hget).symm.trans hstatus) (by decide)
      | _ => exact hr
    have hn : ¬ o.Notifies taskId := by
      intro hn
      cases o with
      | notify k _ _ _ =>
        obtain rfl : k = taskId := hn
        exact absurd (hold.symm.trans hp) (by simp)
      | _ => exact hn
    obtain ⟨messages, hget'⟩ := run_other hget hs hr hn
    exact ⟨_, hget', hstatus, hdecision, htime⟩
  · refine ⟨approval, ?_, hrest⟩
    show ((Request.poll taskId : Request ε δ).run desk.store).2.approvals.get? taskId = some approval
    rw [run_poll]
    exact hget

theorem kept_of_guarded {ops : List (Request ε δ)} (h : Guarded ops) : Kept (deskAfter ops) := by
  induction ops using List.reverseRecOn with
  | nil =>
    intro taskId decision time htaken
    exact absurd htaken (by simp [deskAfter])
  | append_singleton ops o ih =>
    obtain ⟨hg, hp⟩ := along_snoc.1 h
    rw [deskAfter_snoc]
    exact (ih hg).run hp

/-! ### Exactly the guarded histories -/

theorem shows_iff {ops : List (Request ε δ)} {taskId : String} {approval : PendingApproval ε δ} :
    Shows (after ops) taskId approval ↔ (after ops).approvals.get? taskId = some approval := by
  have hkeyed := (tallied_after ops).keyed
  constructor
  · rintro (hget | ⟨hmem, hid⟩)
    · exact hget
    · obtain ⟨⟨k, value⟩, hitem, rfl⟩ := List.mem_map.1 hmem
      have hget := Dict.mem_items_iff.1 hitem
      obtain rfl : k = taskId := (hkeyed k value hget).symm.trans hid
      exact hget
  · exact Or.inl

theorem final_of_guarded {ops : List (Request ε δ)} (h : Guarded ops) : Final ops := by
  constructor
  · rintro pre approval segment post rfl hs
    have hsplit : pre ++ .submit approval :: (segment ++ post) = (pre ++ [.submit approval]) ++ (segment ++ post) := by
      simp
    unfold Guarded at h
    rw [hsplit] at h
    have hg := (along_append.1 (along_append.1 h).2).1
    have hle := (resolutions_of_guarded hg hs).2
    rw [← store_deskAfter]
    exact hle
  · rintro pre taskId decision now post rfl approval hget hne
    have hp := (along_append.1 h).2.1
    rw [← store_deskAfter] at hget
    exact absurd (hp approval hget) hne
  · rintro pre post rfl taskId decision time htaken
    obtain ⟨approval, hget, -, hrest⟩ := kept_of_guarded (along_append.1 h).1 taskId decision time htaken
    rw [store_deskAfter] at hget
    refine ⟨⟨approval, shows_iff.2 hget⟩, fun approval' hshown => ?_⟩
    obtain rfl := Option.some.inj (hget.symm.trans (shows_iff.1 hshown))
    exact hrest

/-- What is final stays so if less has happened. -/
theorem Final.init {ops : List (Request ε δ)} {o : Request ε δ} (h : Final (ops ++ [o])) : Final ops := by
  constructor
  · intro pre approval segment post hops hs
    exact h.once pre approval segment (post ++ [o]) (by simp [hops]) hs
  · intro pre taskId decision now post hops
    exact h.refused pre taskId decision now (post ++ [o]) (by simp [hops])
  · intro pre post hops
    exact h.shown pre (post ++ [o]) (by simp [hops])

/-- A request that is not permitted breaks finality at once. -/
theorem Final.permits {ops : List (Request ε δ)} {o : Request ε δ} (h : Final (ops ++ [o])) :
    Permits (deskAfter ops) o := by
  cases o with
  | resolve taskId decision now =>
    intro approval hget
    by_contra hne
    rw [store_deskAfter] at hget
    obtain ⟨⟨e, he⟩, -⟩ := h.refused ops taskId decision now [] rfl approval hget hne
    rw [run_resolve_some hget] at he
    exact absurd he (by simp)
  | notify taskId escalation createdAt resolvedAt =>
    show (deskAfter ops).resumed.get? taskId = none
    rw [Option.eq_none_iff_forall_ne_some]
    rintro ⟨decision, time⟩ htaken
    -- the notification has no decision in it
    have hdesk : (deskAfter (ops ++ [.notify taskId escalation createdAt resolvedAt])).resumed.get? taskId =
        some (decision, time) := by
      rw [deskAfter_snoc]
      exact htaken
    obtain ⟨-, hall⟩ := h.shown _ [] (List.append_nil _).symm taskId decision time hdesk
    have hget : (after (ops ++ [.notify taskId escalation createdAt resolvedAt])).approvals.get? taskId =
        some (notified taskId escalation createdAt resolvedAt) := by
      rw [after_snoc, run_notify]
      simp [Dict.get?_insert]
    exact absurd (hall _ (shows_iff.2 hget)).1 (by simp [notified])
  | _ => trivial

/-- Recorded decisions are final along a history exactly if every `resolve` in it meets no record or a pending one, and
no `notify` comes for a task whose runner has gone on with a decision and has not submitted since. -/
theorem final_iff_guarded (ops : List (Request ε δ)) : Final ops ↔ Guarded ops := by
  refine ⟨fun h => ?_, final_of_guarded⟩
  induction ops using List.reverseRecOn with
  | nil => exact trivial
  | append_singleton ops o ih => exact along_snoc.2 ⟨ih h.init, h.permits⟩

/-- Two reviewers decide on the same submission, the second one after the runner has gone on. -/
theorem second_decision_shown :
    ¬ Final [.submit (sampleApproval "t"), .resolve "t" true 1, .poll "t", .resolve "t" false 2] := by
  intro h
  have htaken : (deskAfter [.submit (sampleApproval "t"), .resolve "t" true 1, .poll "t",
      .resolve "t" false 2]).resumed.get? "t" = some (true, some 1) := by decide +kernel
  obtain ⟨-, hall⟩ := h.shown _ [] (List.append_nil _).symm "t" true (some 1) htaken
  have hget : (after [.submit (sampleApproval "t"), .resolve "t" true 1, .poll "t",
      .resolve "t" false 2]).approvals.get? "t" = some (decided (sampleApproval "t").1 false 2) := by decide +kernel
  exact absurd (hall _ (shows_iff.2 hget)).1 (by decide)

end AgentOrchestrator.ApprovalQueue
