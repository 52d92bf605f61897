import AgentOrchestrator.Agents.Specialist

/-!
# The tokens of a specialist

`last_usage` first holds the tokens of the latest reply, to be added up by `accumulate`, and at the end of `run` the sum.
A branch that finds in `last_usage` what it has last written there itself ends with the tokens of exactly the replies it
has received, whether its run succeeds or fails (`follows_run`).
-/

namespace AgentOrchestrator.SpecialistAgent

/-! ### Reads of an agent object -/

section Reads

variable {γ L α : Type} {P : Protocol Command Response γ} {g : γ} {agent : AgentRef} {u : Option TokenUsage}

/-- Reads that leave the ghost state as it is and find one usage. -/
theorem tries_readUsage_of_found {l : L} (hread : P.guarantee g (.read agent .usage))
    (hnext : ∀ r, P.next g (.read agent .usage) r = g)
    (hfound : ∀ usage : Option TokenUsage, P.rely g (.read agent .usage) usage → usage = u) :
    Prog.Tries P (fun r g' l' => r = u ∧ g' = g ∧ l' = l) (fun _ _ => False)
      (readUsage agent : Prog.Body Command Response L String (Option TokenUsage)) g l := by
  unfold readUsage
  refine .bind (.send hread fun r₁ hr₁ => ?_)
  rw [hnext, hfound r₁ hr₁]
  cases u with
  | none => exact .pure ⟨rfl, rfl, rfl⟩
  | some u =>
    refine .bind (.send hread fun r₂ hr₂ => ?_)
    rw [hnext, hfound r₂ hr₂]
    refine .bind (.send hread fun r₃ hr₃ => ?_)
    rw [hnext, hfound r₃ hr₃]
    exact .pure ⟨rfl, rfl, rfl⟩

/-- The reads of an agent object after its run. -/
theorem follows_report_of_found {post : γ → α → Prop} (hread : ∀ name, P.guarantee g (.read agent name))
    (hnext : ∀ name r, P.next g (.read agent name) r = g)
    (hfound : ∀ usage : Option TokenUsage, P.rely g (.read agent .usage) usage → usage = u)
    {k : Option String → Option String → Except String (Option TokenUsage) × Unit → SpecialistAgent.Program α}
    (hk : ∀ prompt response : Option String, P.rely g (.read agent .prompt) prompt →
      P.rely g (.read agent .responseText) response → (k prompt response (.ok u, ())).Follows P post g) :
    (do
      let prompt : Option String ← Prog.perform (Command.read agent .prompt)
      let response : Option String ← Prog.perform (Command.read agent .responseText)
      let out ← (readUsage agent).attempt ()
      k prompt response out : SpecialistAgent.Program α).Follows P post g := by
  refine .perform (hread .prompt) fun prompt hprompt => ?_
  rw [hnext]
  refine .perform (hread .responseText) fun response hresponse => ?_
  rw [hnext]
  have husage := tries_readUsage_of_found (l := ()) (hread .usage) (hnext .usage) hfound
  refine .bind husage fun g' out hout => ?_
  obtain ⟨result, l⟩ := out
  cases result with
  | error e => exact hout.elim
  | ok u =>
    obtain ⟨rfl, rfl, -⟩ := hout
    exact hk prompt response hprompt hresponse

end Reads

/-! ### What a branch counts -/

/-- What a branch has last written to `last_usage`, and the tokens of the replies it has received. -/
structure Books where
  last : Option (Option TokenUsage) := none
  reported : TokenUsage := 0

/-- The tokens that an answer reports. -/
def reported : (c : Command) → Response c → TokenUsage
  | .invoke _ _ _, .ok message => message.tokenUsage.getD 0
  | .structured _ _, .ok (raw, _) => raw.tokenUsage.getD 0
  | _, _ => 0

/-- What a command writes to `last_usage`. -/
def written : (c : Command) → Response c → Option (Option TokenUsage)
  | .write _ (.usage value), _ => some value
  | .newAgent _ _, .ok _ => some none
  | _, _ => none

/-- A branch uses its own agent object, reads it after it has written to it, and expects to find what it has written. -/
def bookkeeping (agent : AgentRef) : Protocol Command Response Books where
  next g c r := { last := (written c r).or g.last, reported := g.reported + reported c r }
  guarantee g c :=
    match c with
    | .read ref _ => ref = agent ∧ g.last ≠ none
    | .write ref _ => ref = agent
    | .newAgent ref _ => ref = agent
    | _ => True
  rely g c r :=
    match c, r with
    | .read _ .usage, usage => g.last = some usage
    | _, _ => True

/-- The tokens that have been counted are those of the replies received. -/
def Balanced (g : Books) (a : Attempt) : Prop := a.totalUsage = g.reported

variable {L : Type} {agent : AgentRef} {g : Books} {a : Attempt}

/-- An answer that reports no tokens. -/
theorem Balanced.next (h : Balanced g a) {c : Command} {r : Response c} (hr : reported c r = 0) :
    Balanced ((bookkeeping agent).next g c r) a := by
  show a.totalUsage = g.reported + reported c r
  rw [hr, add_zero]
  exact h

/-- An answer that is neither a reply of the model nor to a write of `last_usage`. -/
theorem next_eq {c : Command} {r : Response c} (hw : written c r = none) (hr : reported c r = 0) :
    (bookkeeping agent).next g c r = g := by
  show Books.mk ((written c r).or g.last) (g.reported + reported c r) = g
  rw [hw, hr, Option.none_or, add_zero]

theorem tries_readUsage {l : L} {u : Option TokenUsage} (h : g.last = some u) :
    Prog.Tries (bookkeeping agent) (fun r g' l' => r = u ∧ g' = g ∧ l' = l) (fun _ _ => False)
      (readUsage agent : Prog.Body Command Response L String (Option TokenUsage)) g l :=
  tries_readUsage_of_found ⟨rfl, by simp [h]⟩ (fun _ => next_eq rfl rfl) fun _ hlast =>
    (Option.some.inj (h.symm.trans hlast)).symm

/-- What `last_usage` holds is added to what has been counted. -/
theorem tries_accumulate {u : Option TokenUsage} (h : g.last = some u)
    (hu : a.totalUsage + u.getD 0 = g.reported) :
    Prog.Tries (bookkeeping agent) (fun _ => Balanced) (fun _ _ => False) (accumulate agent) g a := by
  unfold accumulate
  refine .bind (.mono (tries_readUsage h) (fun r g' a' hr => ?_) fun _ _ h => h)
  obtain ⟨rfl, rfl, rfl⟩ := hr
  cases r with
  | none =>
    have hbalanced : a'.totalUsage + 0 = g'.reported := hu
    exact .pure ((add_zero _).symm.trans hbalanced)
  | some r => exact .modify _ hu

/-- A call of the model, with its reply recorded and counted. -/
theorem tries_invoke {agent : SpecialistAgent} (withTools : Bool) (h : Balanced g a) :
    Prog.Tries (bookkeeping agent.ref) (fun _ => Balanced) Balanced (invoke agent withTools) g a := by
  unfold invoke
  refine .bind (.get (.bind (.send trivial fun reply _ => ?_)))
  cases reply with
  | error e => exact .throw (h.next rfl)
  | ok message =>
    have hcount : a.totalUsage + message.tokenUsage.getD 0 = g.reported + message.tokenUsage.getD 0 :=
      congrArg (· + _) h
    refine .bind (.send rfl fun _ _ => ?_)
    refine .bind (.mono (tries_accumulate rfl hcount) (fun _ g' a' hbalanced => ?_) fun _ _ hfalse => hfalse.elim)
    exact .bind (.modify _ (.pure hbalanced))

theorem tries_useTool {agent : SpecialistAgent} (call : ToolCall) (h : Balanced g a) :
    Prog.Tries (bookkeeping agent.ref) (fun _ => Balanced) Balanced (useTool agent call) g a := by
  unfold useTool
  refine .bind (.send trivial fun used _ => ?_)
  cases used with
  | error e => exact .pure (h.next rfl)
  | ok log =>
    refine .bind (.send trivial fun _ _ => ?_)
    cases hsuccess : log.success with
    | true => exact .pure ((h.next rfl).next rfl)
    | false => exact .pure ((h.next rfl).next rfl)

theorem tries_callTool {agent : SpecialistAgent} (call : ToolCall) (h : Balanced g a) :
    Prog.Tries (bookkeeping agent.ref) (fun _ => Balanced) Balanced (callTool agent call) g a := by
  unfold callTool
  refine .bind (.send trivial fun before _ => ?_)
  split
  · refine .bind (.mono (tries_useTool call (h.next rfl)) (fun _ _ _ hbalanced => ?_) fun _ _ hraised => hraised)
    refine .bind (.send trivial fun after _ => ?_)
    exact .bind (.modify _ (.modify _ (hbalanced.next rfl)))
  · exact .modify _ (h.next rfl)

theorem tries_toolLoop {agent : SpecialistAgent} (n : Nat) (h : Balanced g a) :
    Prog.Tries (bookkeeping agent.ref) (fun _ => Balanced) Balanced (toolLoop agent n) g a := by
  induction n generalizing g a with
  | zero => exact .pure h
  | succ n ih =>
    unfold toolLoop
    refine .bind (.mono (tries_invoke true h) (fun message g' a' hbalanced => ?_) fun _ _ hraised => hraised)
    split
    · exact .pure hbalanced
    · refine .bind (.mono (.forM (fun call _ _ _ => tries_callTool call) hbalanced) (fun _ _ _ => ih)
        fun _ _ hraised => hraised)

theorem tries_bindTools {agent : SpecialistAgent} (h : Balanced g a) :
    Prog.Tries (bookkeeping agent.ref) (fun _ => Balanced) Balanced (bindTools agent) g a := by
  unfold bindTools
  split
  · refine .bind (.send trivial fun bound _ => ?_)
    cases bound with
    | error e => exact .throw (h.next rfl)
    | ok _ => exact .pure (h.next rfl)
  · exact .pure h

/-- The sum is what `last_usage` holds in the end. -/
def Recorded (g : Books) : Prop := g.last = some (some g.reported)

theorem tries_finalAnswer {agent : SpecialistAgent} (h : Balanced g a) :
    Prog.Tries (bookkeeping agent.ref) (fun _ g _ => Recorded g) Balanced (finalAnswer agent) g a := by
  unfold finalAnswer
  refine .bind (.get (.bind (.send trivial fun final _ => ?_)))
  cases final with
  | error e => exact .throw (h.next rfl)
  | ok final =>
    obtain ⟨raw, parsed⟩ := final
    have hcount : a.totalUsage + raw.tokenUsage.getD 0 = g.reported + raw.tokenUsage.getD 0 := congrArg (· + _) h
    refine .bind (.send rfl fun _ _ => ?_)
    refine .bind (.mono (tries_accumulate rfl hcount) (fun _ g' a' hbalanced => ?_) fun _ _ hfalse => hfalse.elim)
    refine .bind (.get (.bind (.send rfl fun _ _ => ?_)))
    cases parsed with
    | none => exact .throw (hbalanced.next rfl)
    | some output =>
      refine .bind (.send rfl fun _ _ => .pure ?_)
      exact congrArg (fun u => some (some u)) hbalanced

theorem tries_body {agent : SpecialistAgent} (h : Balanced g a) :
    Prog.Tries (bookkeeping agent.ref) (fun _ g _ => Recorded g) Balanced (body agent) g a := by
  unfold body
  refine .bind (.mono (tries_bindTools h) (fun _ _ _ hbalanced => ?_) fun _ _ hraised => hraised)
  refine .bind (.mono (tries_toolLoop _ hbalanced) (fun settled _ _ hbalanced => ?_) fun _ _ hraised => hraised)
  split
  · exact tries_finalAnswer hbalanced
  · refine .bind (.modify _ (.bind ?_))
    exact .mono (tries_invoke false hbalanced) (fun _ _ _ => tries_finalAnswer) fun _ _ hraised => hraised

/-- However a run ends, `last_usage` has the tokens of exactly the replies received in it. -/
theorem follows_run (agent : SpecialistAgent) (subtask : SubTask) (context : Dict String SubtaskResult)
    (feedback : Option String) {g : Books} (h : g.reported = 0) :
    (run agent subtask context feedback).Follows (bookkeeping agent.ref) (fun g _ => Recorded g) g := by
  have hstart : ∀ messages, Balanced g { messages := messages } := fun _ => h.symm
  unfold run
  refine .perform rfl fun _ _ => .bind (tries_body ((hstart _).next rfl)) fun g' out hout => ?_
  obtain ⟨result, a⟩ := out
  cases result with
  | ok output => exact hout
  | error e => exact .perform rfl fun _ _ => congrArg (fun u => some (some u)) hout

/-! ### The object of a branch -/

/-- A command changes no agent object but the one its branch uses, and `last_usage` of that one as the books say. -/
theorem agents_of_executes {agent : AgentRef} {g : Books} {c : Command} {r : Response c} {w w' : Workshop}
    (hg : (bookkeeping agent).guarantee g c) (h : Executes c w r w') :
    (∀ ref, ref ≠ agent → w'.agents ref = w.agents ref) ∧
      (w'.agents agent).usage = (written c r).getD (w.agents agent).usage := by
  cases c with
  | newAgent ref model =>
    obtain rfl : ref = agent := hg
    cases r with
    | error e =>
      obtain rfl : w' = w := h
      exact ⟨fun _ _ => rfl, rfl⟩
    | ok _ =>
      obtain rfl : w' = _ := h
      refine ⟨fun ref' hne => Function.update_of_ne hne .., ?_⟩
      show (Function.update w.agents ref {} ref).usage = none
      rw [Function.update_self]
  | write ref edit =>
    obtain rfl : ref = agent := hg
    obtain rfl : w' = _ := h
    refine ⟨fun ref' hne => Function.update_of_ne hne .., ?_⟩
    show (Function.update w.agents ref _ ref).usage = _
    rw [Function.update_self]
    cases edit with
    | usage value => rfl
    | prompt value => rfl
    | responseText value => rfl
  | read ref name =>
    obtain ⟨-, rfl⟩ : _ ∧ w' = w := h
    exact ⟨fun _ _ => rfl, rfl⟩
  | readLog registry =>
    obtain ⟨-, rfl⟩ : _ ∧ w' = w := h
    exact ⟨fun _ _ => rfl, rfl⟩
  | newRegistry registry =>
    obtain rfl : w' = _ := h
    exact ⟨fun _ _ => rfl, rfl⟩
  | appendLog registry log =>
    obtain rfl : w' = _ := h
    exact ⟨fun _ _ => rfl, rfl⟩
  | _ =>
    obtain rfl : w' = w := h
    exact ⟨fun _ _ => rfl, rfl⟩

/-- A command that the books allow finds in the object what they say, and leaves it there. -/
theorem usage_of_executes {agent : AgentRef} {g : Books} {c : Command} {r : Response c} {w w' : Workshop}
    (hw : ∀ u, g.last = some u → (w.agents agent).usage = u) (hg : (bookkeeping agent).guarantee g c)
    (h : Executes c w r w') :
    (bookkeeping agent).rely g c r ∧
      ∀ u, ((bookkeeping agent).next g c r).last = some u → (w'.agents agent).usage = u := by
  constructor
  · cases c with
    | read ref name =>
      obtain ⟨rfl, hlast⟩ : ref = agent ∧ g.last ≠ none := hg
      obtain ⟨u, hu⟩ := Option.ne_none_iff_exists'.1 hlast
      obtain ⟨rfl, -⟩ : r = (w.agents ref).get name ∧ w' = w := h
      cases name with
      | usage => exact hu.trans (congrArg some (hw u hu).symm)
      | _ => trivial
    | _ => trivial
  · intro u hu
    rw [(agents_of_executes hg h).2]
    cases hwritten : written c r with
    | none => exact hw u (by simpa [bookkeeping, hwritten] using hu)
    | some v => simpa [bookkeeping, hwritten] using hu

end AgentOrchestrator.SpecialistAgent
