import AgentOrchestrator.Agents.Specialist
import AgentOrchestrator.Lib.Tandem

/-!
# Runs of a specialist on given answers

A `Script` has what the model and the tools answer in one run.  Of two runs on the same script, on different agent
objects and at different times, the results are the same but for the latencies, and so is what they leave in their
objects, with one exception: a run that fails leaves the response text of an earlier run (`run_alike`).
-/

namespace AgentOrchestrator

def ToolCallLog.untimed (log : ToolCallLog) : ToolCallLog := { log with latencyMs := 0 }

def SubtaskResult.untimed (result : SubtaskResult) : SubtaskResult :=
  { result with toolCalls := result.toolCalls.map ToolCallLog.untimed }

namespace SpecialistAgent

/-- The answers of the model, and of the tools, in order; a run asks once for tools to be bound and for a structured
answer. -/
structure Script where
  bound : Except LlmError Unit
  replies : Nat → Except LlmError ToolCallingMessage
  final : Except LlmError (AiMessage × Option SpecialistOutput)
  used : Nat → Except String ToolCallLog

/-- The times that pass in a run. -/
structure Timing where
  now : Nat → ℚ
  latencyMs : Nat → ℚ

/-- The workshop, and how many of the answers have been given. -/
structure Bench where
  workshop : Workshop
  ticks : Nat := 0
  replied : Nat := 0
  used : Nat := 0

/-- The answers come from the script.  What a worker makes it makes without an error, and it answers in time. -/
def Script.answer (script : Script) (timing : Timing) : (c : Command) → Bench → Response c × Bench
  | .now, b => (timing.now b.ticks, { b with ticks := b.ticks + 1 })
  | .awaitJob _, b => (.answered, b)
  | .newRegistry registry, b =>
    ((), { b with workshop := { b.workshop with callLogs := Function.update b.workshop.callLogs registry [] } })
  | .newAgent agent _, b =>
    (.ok (), { b with workshop := { b.workshop with agents := Function.update b.workshop.agents agent {} } })
  | .bindTools _, b => (script.bound, b)
  | .invoke _ _ _, b => (script.replies b.replied, { b with replied := b.replied + 1 })
  | .structured _ _, b => (script.final, b)
  | .useTool _ _ _, b =>
    ((script.used b.used).map fun log => { log with latencyMs := timing.latencyMs b.used }, { b with used := b.used + 1 })
  | .readLog registry, b => (b.workshop.callLogs registry, b)
  | .appendLog registry log, b =>
    ((), { b with workshop := { b.workshop with
      callLogs := Function.update b.workshop.callLogs registry (b.workshop.callLogs registry ++ [log]) } })
  | .read agent name, b => ((b.workshop.agents agent).get name, b)
  | .write agent edit, b =>
    ((), { b with workshop := { b.workshop with
      agents := Function.update b.workshop.agents agent ((b.workshop.agents agent).set edit) } })

theorem executes_answer (script : Script) (timing : Timing) (c : Command) (b : Bench) :
    Executes c b.workshop (script.answer timing c b).1 (script.answer timing c b).2.workshop := by
  cases c with
  | readLog _ => exact ⟨rfl, rfl⟩
  | read _ _ => exact ⟨rfl, rfl⟩
  | _ => rfl

/-- A program evaluated on a script runs. -/
theorem Script.runs (script : Script) (timing : Timing) {α : Type} (p : SpecialistAgent.Program α) (b : Bench) :
    p.Runs Executes b.workshop (p.eval (script.answer timing) b).1 (p.eval (script.answer timing) b).2.workshop := by
  induction p generalizing b with
  | ret a => exact .ret
  | call c k ih => exact .call (executes_answer script timing c b) (ih _ _)

/-! ### When a run succeeds -/

/-- From reply `k` on, with `n` turns of the loop left, every call of the model is answered; without a turn left it is
called once more. -/
def Script.settles (script : Script) : Nat → Nat → Bool
  | 0, k => (script.replies k).isOk
  | n + 1, k =>
    match script.replies k with
    | .error _ => false
    | .ok message => decide (message.toolCalls = []) || script.settles n (k + 1)

/-- The structured answer is there and is one. -/
def Script.parses (script : Script) : Bool :=
  match script.final with
  | .ok (_, some _) => true
  | _ => false

/-- The model answers every call of a run of an agent with these tools, in the end with a structured answer. -/
def Script.completes (script : Script) (lcTools : List String) : Bool :=
  (decide (lcTools = []) || script.bound.isOk) && script.settles maxToolIterations 0 && script.parses

/-! ### Two runs on one script -/

/-- The same specialist as another object. -/
def withRef (agent : SpecialistAgent) (ref : AgentRef) : SpecialistAgent := { agent with ref := ref }

/-- Two agent objects, what they last answered, the prompt of the runs, and the other objects beside the first one. -/
structure Sides where
  agent : AgentRef
  agent' : AgentRef
  response : Option String
  response' : Option String
  prompt : String
  others : AgentRef → LastCall

/-- The two runs have come to the same point. -/
structure Alike (z : Sides) (k : Nat) (x x' : Attempt × Bench) : Prop where
  messages : x.1.messages = x'.1.messages
  toolCallsMade : x.1.toolCallsMade.map ToolCallLog.untimed = x'.1.toolCallsMade.map ToolCallLog.untimed
  totalUsage : x.1.totalUsage = x'.1.totalUsage
  replied : x.2.replied = k ∧ x'.2.replied = k
  used : x.2.used = x'.2.used
  prompts : (x.2.workshop.agents z.agent).prompt = some z.prompt ∧ (x'.2.workshop.agents z.agent').prompt = some z.prompt
  responses : (x.2.workshop.agents z.agent).responseText = z.response ∧
    (x'.2.workshop.agents z.agent').responseText = z.response'
  others : ∀ ref, ref ≠ z.agent → x.2.workshop.agents ref = z.others ref

section Steps

variable {script : Script} {timing timing' : Timing} {z : Sides} {k : Nat} {x x' : Attempt × Bench}

theorem agents_write (b : Bench) (agent : AgentRef) (edit : Attribute) (ref : AgentRef) :
    (script.answer timing (.write agent edit) b).2.workshop.agents ref =
      if ref = agent then (b.workshop.agents agent).set edit else b.workshop.agents ref :=
  Function.update_apply ..

/-- Both objects have these tokens. -/
def HasUsage (z : Sides) (u : Option TokenUsage) (x x' : Attempt × Bench) : Prop :=
  (x.2.workshop.agents z.agent).usage = u ∧ (x'.2.workshop.agents z.agent').usage = u

theorem Alike.writeUsage (script : Script) (timing timing' : Timing) (h : Alike z k x x') (u : Option TokenUsage) :
    Alike z k (x.1, (script.answer timing (.write z.agent (.usage u)) x.2).2)
        (x'.1, (script.answer timing' (.write z.agent' (.usage u)) x'.2).2) ∧
      HasUsage z u (x.1, (script.answer timing (.write z.agent (.usage u)) x.2).2)
        (x'.1, (script.answer timing' (.write z.agent' (.usage u)) x'.2).2) := by
  refine ⟨⟨h.messages, h.toolCallsMade, h.totalUsage, h.replied, h.used, ?_, ?_, fun ref hne => ?_⟩, ?_⟩
  · simp only [agents_write, if_pos]
    exact h.prompts
  · simp only [agents_write, if_pos]
    exact h.responses
  · simp only [agents_write, if_neg hne]
    exact h.others ref hne
  · unfold HasUsage
    simp only [agents_write, if_pos]
    exact ⟨rfl, rfl⟩

/-- A change of the local variables that is the same on both sides. -/
theorem Alike.append (h : Alike z k x x') (turn : Turn) :
    Alike z k ({ x.1 with messages := x.1.messages ++ [turn] }, x.2)
      ({ x'.1 with messages := x'.1.messages ++ [turn] }, x'.2) where
  messages := congrArg (· ++ [turn]) h.messages
  toolCallsMade := h.toolCallsMade
  totalUsage := h.totalUsage
  replied := h.replied
  used := h.used
  prompts := h.prompts
  responses := h.responses
  others := h.others

theorem evalTry_readUsage {L : Type} (agent : AgentRef) (t : L × Bench) :
    (readUsage agent : Prog.Body Command Response L String (Option TokenUsage)).evalTry (script.answer timing) t =
      (.ok (t.2.workshop.agents agent).usage, t) := by
  unfold readUsage
  refine (Prog.Body.evalTry_send_bind (t := t) _ _).trans ?_
  cases hu : (t.2.workshop.agents agent).usage with
  | none =>
    have hread : (script.answer timing (.read agent .usage) t.2).1 = none := hu
    rw [hread]
    rfl
  | some u =>
    have hread : (script.answer timing (.read agent .usage) t.2).1 = some u := hu
    rw [hread]
    refine (Prog.Body.evalTry_send_bind (t := t) _ _).trans ?_
    rw [hread]
    refine (Prog.Body.evalTry_send_bind (t := t) _ _).trans ?_
    rw [hread]
    rfl

theorem evalTry_accumulate (agent : AgentRef) (t : Attempt × Bench) :
    (accumulate agent).evalTry (script.answer timing) t =
      (.ok (), ({ t.1 with totalUsage := t.1.totalUsage + (t.2.workshop.agents agent).usage.getD 0 }, t.2)) := by
  unfold accumulate
  rw [Prog.Body.evalTry_bind, evalTry_readUsage]
  cases (t.2.workshop.agents agent).usage with
  | none =>
    simp only [Option.getD_none, add_zero]
    rfl
  | some u => rfl

/-- The tokens of the reply are counted. -/
theorem tandem_accumulate {u : Option TokenUsage} (h : Alike z k x x') (hu : HasUsage z u x x') :
    Prog.Tandem (script.answer timing) (script.answer timing') (fun _ _ => Alike z k) (fun _ _ _ _ => False)
      (accumulate z.agent) (accumulate z.agent') x x' := by
  unfold Prog.Tandem
  rw [evalTry_accumulate, evalTry_accumulate, hu.1, hu.2]
  exact ⟨h.messages, h.toolCallsMade, congrArg (· + u.getD 0) h.totalUsage, h.replied, h.used, h.prompts, h.responses,
    h.others⟩

/-- A call of the model, with its reply counted: it is reply `k` on both sides. -/
theorem tandem_invoke (a : SpecialistAgent) (withTools : Bool) (h : Alike z k x x') :
    Prog.Tandem (script.answer timing) (script.answer timing')
      (fun m m' u u' => m = m' ∧ script.replies k = .ok m ∧ Alike z (k + 1) u u')
      (fun e e' u u' => e = e' ∧ (script.replies k).isOk = false ∧ Alike z (k + 1) u u')
      (invoke (a.withRef z.agent) withTools) (invoke (a.withRef z.agent') withTools) x x' := by
  have hreplied : Alike z (k + 1) (x.1, { x.2 with replied := x.2.replied + 1 })
      (x'.1, { x'.2 with replied := x'.2.replied + 1 }) :=
    ⟨h.messages, h.toolCallsMade, h.totalUsage, ⟨congrArg (· + 1) h.replied.1, congrArg (· + 1) h.replied.2⟩, h.used,
      h.prompts, h.responses, h.others⟩
  have hreply : (script.answer timing (.invoke (a.withRef z.agent).ref withTools x.1.messages) x.2).1 =
      script.replies k := congrArg script.replies h.replied.1
  have hreply' : (script.answer timing' (.invoke (a.withRef z.agent').ref withTools x'.1.messages) x'.2).1 =
      script.replies k := congrArg script.replies h.replied.2
  unfold invoke
  refine .bind (.get (.send ?_))
  rw [hreply, hreply']
  cases hk : script.replies k with
  | error e => exact .throw ⟨rfl, rfl, hreplied⟩
  | ok message =>
    obtain ⟨hwritten, husage⟩ := hreplied.writeUsage script timing timing'
      message.tokenUsage
    refine .send (.bind (.mono (tandem_accumulate hwritten husage) (fun _ _ u u' hu => ?_) fun _ _ _ _ h => h.elim))
    exact .bind (.modify _ _ (.pure ⟨rfl, rfl, hu.append _⟩))

/-! ### Tools -/

/-- What the two call logs have. -/
def HasLogs (z : Sides) (logs logs' : List ToolCallLog) (x x' : Attempt × Bench) : Prop :=
  x.2.workshop.callLogs z.agent.registry = logs ∧ x'.2.workshop.callLogs z.agent'.registry = logs'

theorem Alike.log (script : Script) (timing timing' : Timing) (h : Alike z k x x') {logs logs' : List ToolCallLog} (hlogs : HasLogs z logs logs' x x')
    (log log' : ToolCallLog) :
    Alike z k (x.1, (script.answer timing (.appendLog z.agent.registry log) x.2).2)
        (x'.1, (script.answer timing' (.appendLog z.agent'.registry log') x'.2).2) ∧
      HasLogs z (logs ++ [log]) (logs' ++ [log'])
        (x.1, (script.answer timing (.appendLog z.agent.registry log) x.2).2)
        (x'.1, (script.answer timing' (.appendLog z.agent'.registry log') x'.2).2) := by
  refine ⟨⟨h.messages, h.toolCallsMade, h.totalUsage, h.replied, h.used, h.prompts, h.responses, h.others⟩, ?_, ?_⟩
  · exact (Function.update_self ..).trans (congrArg (· ++ [log]) hlogs.1)
  · exact (Function.update_self ..).trans (congrArg (· ++ [log']) hlogs.2)

/-- A tool answers the same on both sides, and each side logs what it has used. -/
theorem tandem_useTool (a : SpecialistAgent) (call : ToolCall) {logs logs' : List ToolCallLog} (h : Alike z k x x')
    (hlogs : HasLogs z logs logs' x x') :
    Prog.Tandem (script.answer timing) (script.answer timing')
      (fun r r' u u' => r = r' ∧ Alike z k u u' ∧ ∃ new new', HasLogs z (logs ++ new) (logs' ++ new') u u' ∧
        new.map ToolCallLog.untimed = new'.map ToolCallLog.untimed)
      (fun _ _ _ _ => False) (useTool (a.withRef z.agent) call) (useTool (a.withRef z.agent') call) x x' := by
  have hused : Alike z k (x.1, { x.2 with used := x.2.used + 1 }) (x'.1, { x'.2 with used := x'.2.used + 1 }) :=
    ⟨h.messages, h.toolCallsMade, h.totalUsage, h.replied, congrArg (· + 1) h.used, h.prompts, h.responses, h.others⟩
  have hsame : script.used x'.2.used = script.used x.2.used := by rw [h.used]
  unfold useTool
  refine .send ?_
  cases hlog : script.used x.2.used with
  | error e =>
    have hanswer : (script.answer timing (.useTool (a.withRef z.agent).ref (a.withRef z.agent).specialistType call)
        x.2).1 = .error e := congrArg (Except.map _) hlog
    have hanswer' : (script.answer timing' (.useTool (a.withRef z.agent').ref (a.withRef z.agent').specialistType call)
        x'.2).1 = .error e := congrArg (Except.map _) (hsame.trans hlog)
    rw [hanswer, hanswer']
    refine .pure ⟨rfl, hused, [], [], ?_, rfl⟩
    rw [List.append_nil, List.append_nil]
    exact hlogs
  | ok log =>
    have hanswer : (script.answer timing (.useTool (a.withRef z.agent).ref (a.withRef z.agent).specialistType call)
        x.2).1 = .ok { log with latencyMs := timing.latencyMs x.2.used } := congrArg (Except.map _) hlog
    have hanswer' : (script.answer timing' (.useTool (a.withRef z.agent').ref (a.withRef z.agent').specialistType call)
        x'.2).1 = .ok { log with latencyMs := timing'.latencyMs x'.2.used } := congrArg (Except.map _) (hsame.trans hlog)
    rw [hanswer, hanswer']
    -- what is logged differs in its latency
    refine .send ?_
    obtain ⟨hlogged, hnew⟩ := hused.log script timing timing' hlogs
      { log with latencyMs := timing.latencyMs x.2.used } { log with latencyMs := timing'.latencyMs x'.2.used }
    show Prog.Tandem _ _ _ _ (if log.success = true then pure (log.output.getD "") else pure _)
      (if log.success = true then pure (log.output.getD "") else pure _) _ _
    by_cases hsuccess : log.success = true
    · rw [if_pos hsuccess]
      exact .pure ⟨rfl, hlogged, _, _, hnew, rfl⟩
    · rw [if_neg hsuccess]
      exact .pure ⟨rfl, hlogged, _, _, hnew, rfl⟩

/-- Each side takes from its log what it has just logged there. -/
theorem tandem_callTool (a : SpecialistAgent) (call : ToolCall) (h : Alike z k x x') :
    Prog.Tandem (script.answer timing) (script.answer timing') (fun _ _ => Alike z k) (fun _ _ _ _ => False)
      (callTool (a.withRef z.agent) call) (callTool (a.withRef z.agent') call) x x' := by
  unfold callTool
  refine .send ?_
  show Prog.Tandem _ _ _ _ (if call.name ∈ a.lcTools then _ else _) (if call.name ∈ a.lcTools then _ else _) _ _
  by_cases hname : call.name ∈ a.lcTools
  · rw [if_pos hname, if_pos hname]
    refine .bind (.mono (tandem_useTool a call h ⟨rfl, rfl⟩) (fun r r' u u' hu => ?_) fun _ _ _ _ h => h)
    obtain ⟨rfl, hu, new, new', hlogs, hnew⟩ := hu
    refine .send (.bind (.modify _ _ (.modify _ _ ?_)))
    have hdrop : (u.2.workshop.callLogs z.agent.registry).drop (x.2.workshop.callLogs z.agent.registry).length = new :=
      (congrArg (List.drop _) hlogs.1).trans List.drop_left
    have hdrop' : (u'.2.workshop.callLogs z.agent'.registry).drop (x'.2.workshop.callLogs z.agent'.registry).length =
        new' := (congrArg (List.drop _) hlogs.2).trans List.drop_left
    refine ⟨congrArg (· ++ [_]) hu.messages, ?_, hu.totalUsage, hu.replied, hu.used, hu.prompts, hu.responses, hu.others⟩
    show (u.1.toolCallsMade ++ (u.2.workshop.callLogs z.agent.registry).drop
        (x.2.workshop.callLogs z.agent.registry).length).map ToolCallLog.untimed =
      (u'.1.toolCallsMade ++ (u'.2.workshop.callLogs z.agent'.registry).drop
        (x'.2.workshop.callLogs z.agent'.registry).length).map ToolCallLog.untimed
    rw [hdrop, hdrop', List.map_append, List.map_append, hu.toolCallsMade, hnew]
  · rw [if_neg hname, if_neg hname]
    exact .modify _ _ (h.append _)

/-! ### The loop -/

/-- The loop ends the same way on both sides, as the script says. -/
theorem tandem_toolLoop (a : SpecialistAgent) (n : Nat) (h : Alike z k x x') :
    Prog.Tandem (script.answer timing) (script.answer timing')
      (fun settled settled' u u' => settled = settled' ∧ ∃ j, Alike z j u u' ∧
        script.settles n k = (settled || script.settles 0 j))
      (fun e e' u u' => e = e' ∧ script.settles n k = false ∧ ∃ j, Alike z j u u')
      (toolLoop (a.withRef z.agent) n) (toolLoop (a.withRef z.agent') n) x x' := by
  induction n generalizing k x x' with
  | zero => exact .pure ⟨rfl, k, h, rfl⟩
  | succ n ih =>
    unfold toolLoop
    refine .bind (.mono (tandem_invoke a true h) (fun m m' u u' hu => ?_) fun e e' u u' hu => ?_)
    · obtain ⟨rfl, hk, hu⟩ := hu
      by_cases hcalls : m.toolCalls = []
      · rw [if_pos hcalls, if_pos hcalls]
        refine .pure ⟨rfl, k + 1, hu, ?_⟩
        simp [Script.settles, hk, hcalls]
      · rw [if_neg hcalls, if_neg hcalls]
        have hsettles : script.settles (n + 1) k = script.settles n (k + 1) := by
          simp [Script.settles, hk, hcalls]
        rw [hsettles]
        refine .bind (.mono (.forM (I := Alike z (k + 1)) (fun call _ _ _ ht => tandem_callTool a call ht) hu)
          (fun _ _ _ _ hu => ih hu) fun _ _ _ _ h => h.elim)
    · obtain ⟨he, hk, hu⟩ := hu
      refine ⟨he, ?_, k + 1, hu⟩
      cases hreply : script.replies k with
      | error e => simp [Script.settles, hreply]
      | ok m => exact absurd (hreply ▸ hk) (by simp [Except.isOk, Except.toBool])

theorem tandem_bindTools (a : SpecialistAgent) (h : Alike z k x x') :
    Prog.Tandem (script.answer timing) (script.answer timing')
      (fun _ _ u u' => (decide (a.lcTools = []) || script.bound.isOk) = true ∧ Alike z k u u')
      (fun e e' u u' => e = e' ∧ (decide (a.lcTools = []) || script.bound.isOk) = false ∧ Alike z k u u')
      (bindTools (a.withRef z.agent)) (bindTools (a.withRef z.agent')) x x' := by
  unfold bindTools
  show Prog.Tandem _ _ _ _ (if a.lcTools ≠ [] then _ else _) (if a.lcTools ≠ [] then _ else _) _ _
  by_cases htools : a.lcTools = []
  · rw [if_neg (not_not_intro htools), if_neg (not_not_intro htools)]
    exact .pure ⟨by simp [htools], h⟩
  · rw [if_pos htools, if_pos htools]
    refine .send ?_
    have hbound : (script.answer timing (.bindTools (a.withRef z.agent).ref) x.2).1 = script.bound := rfl
    have hbound' : (script.answer timing' (.bindTools (a.withRef z.agent').ref) x'.2).1 = script.bound := rfl
    rw [hbound, hbound']
    cases script.bound with
    | error e => exact .throw ⟨rfl, by simp [htools, Except.isOk, Except.toBool], h⟩
    | ok _ => exact .pure ⟨by simp [Except.isOk, Except.toBool], h⟩

/-! ### The structured answer -/

/-- The runs have succeeded with the same answer, and both objects have what is to be reported of it. -/
structure Answered (z : Sides) (output : SpecialistOutput) (x x' : Attempt × Bench) : Prop where
  toolCallsMade : x.1.toolCallsMade.map ToolCallLog.untimed = x'.1.toolCallsMade.map ToolCallLog.untimed
  objects : ∃ usage, x.2.workshop.agents z.agent = ⟨some usage, some z.prompt, some output.output⟩ ∧
    x'.2.workshop.agents z.agent' = ⟨some usage, some z.prompt, some output.output⟩
  others : ∀ ref, ref ≠ z.agent → x.2.workshop.agents ref = z.others ref

theorem Alike.answered (h : Alike z k x x') {usage : TokenUsage} (hu : HasUsage z (some usage) x x')
    (output : SpecialistOutput) :
    Answered z output (x.1, (script.answer timing (.write z.agent (.responseText (some output.output))) x.2).2)
      (x'.1, (script.answer timing' (.write z.agent' (.responseText (some output.output))) x'.2).2) := by
  refine ⟨h.toolCallsMade, ⟨usage, ?_, ?_⟩, fun ref hne => ?_⟩
  · simp only [agents_write, if_pos, LastCall.set, hu.1, h.prompts.1]
  · simp only [agents_write, if_pos, LastCall.set, hu.2, h.prompts.2]
  · simp only [agents_write, if_neg hne]
    exact h.others ref hne

theorem tandem_finalAnswer (a : SpecialistAgent) (h : Alike z k x x') :
    Prog.Tandem (script.answer timing) (script.answer timing')
      (fun output output' u u' => output = output' ∧ script.parses = true ∧ Answered z output u u')
      (fun e e' u u' => e = e' ∧ script.parses = false ∧ Alike z k u u')
      (finalAnswer (a.withRef z.agent)) (finalAnswer (a.withRef z.agent')) x x' := by
  unfold finalAnswer
  refine .bind (.get (.send ?_))
  have hanswer : (script.answer timing (.structured (a.withRef z.agent).ref x.1.messages) x.2).1 = script.final := rfl
  have hanswer' : (script.answer timing' (.structured (a.withRef z.agent').ref x'.1.messages) x'.2).1 = script.final :=
    rfl
  rw [hanswer, hanswer']
  cases hfinal : script.final with
  | error e => exact .throw ⟨rfl, by simp [Script.parses, hfinal], h⟩
  | ok final =>
    obtain ⟨raw, parsed⟩ := final
    obtain ⟨hwritten, husage⟩ := h.writeUsage script timing timing' raw.tokenUsage
    refine .send (.bind (.mono (tandem_accumulate hwritten husage) (fun _ _ u u' hu => ?_) fun _ _ _ _ h => h.elim))
    refine .bind (.get (.send ?_))
    obtain ⟨hsum, hsumUsage⟩ := hu.writeUsage script timing timing'
      (some u.1.totalUsage)
    rw [show (some u'.1.totalUsage) = some u.1.totalUsage from congrArg some hu.totalUsage.symm]
    cases parsed with
    | none =>
      exact .throw ⟨rfl, by simp [Script.parses, hfinal], hsum⟩
    | some output =>
      exact .send (.pure ⟨rfl, by simp [Script.parses, hfinal], hsum.answered hsumUsage output⟩)

theorem tandem_body (a : SpecialistAgent) (h : Alike z 0 x x') :
    Prog.Tandem (script.answer timing) (script.answer timing')
      (fun output output' u u' => output = output' ∧ script.completes a.lcTools = true ∧ Answered z output u u')
      (fun e e' u u' => e = e' ∧ script.completes a.lcTools = false ∧ ∃ j, Alike z j u u')
      (body (a.withRef z.agent)) (body (a.withRef z.agent')) x x' := by
  unfold body Script.completes
  refine .bind (.mono (tandem_bindTools a h) (fun _ _ u u' hu => ?_) fun e e' u u' hu => ?_)
  · obtain ⟨hbound, hu⟩ := hu
    rw [hbound, Bool.true_and]
    refine .bind (.mono (tandem_toolLoop a maxToolIterations hu) (fun settled settled' v v' hv => ?_)
      fun e e' v v' hv => ?_)
    · obtain ⟨rfl, j, hv, hsettles⟩ := hv
      rw [hsettles]
      by_cases hsettled : settled = true
      · rw [if_pos hsettled, if_pos hsettled, hsettled, Bool.true_or, Bool.true_and]
        exact (tandem_finalAnswer a hv).mono (fun _ _ _ _ hw => hw) fun _ _ _ _ hw => ⟨hw.1, hw.2.1, j, hw.2.2⟩
      · -- one more call of the model, without tools
        rw [if_neg hsettled, if_neg hsettled, eq_false_of_ne_true hsettled, Bool.false_or]
        refine .bind (.modify _ _ (.bind ?_))
        refine .mono (tandem_invoke a false (hv.append _)) (fun m m' w w' hw => ?_) fun e e' w w' hw => ?_
        · obtain ⟨-, hj, hw⟩ := hw
          have hanswered : script.settles 0 j = true := by
            unfold Script.settles
            rw [hj]
            rfl
          rw [hanswered, Bool.true_and]
          exact (tandem_finalAnswer a hw).mono (fun _ _ _ _ hw => hw) fun _ _ _ _ hw => ⟨hw.1, hw.2.1, _, hw.2.2⟩
        · refine ⟨hw.1, ?_, _, hw.2.2⟩
          rw [show script.settles 0 j = false from hw.2.1, Bool.false_and]
    · refine ⟨hv.1, ?_, hv.2.2⟩
      rw [hv.2.1, Bool.false_and]
  · refine ⟨hu.1, ?_, 0, hu.2.2⟩
    rw [hu.2.1, Bool.false_and, Bool.false_and]

end Steps

/-! ### Whole runs -/

/-- What an object has after a run on the script. -/
def Script.leaves (script : Script) (a : SpecialistAgent) (prompt : String) (usage : TokenUsage) (result : SubtaskResult)
    (before : LastCall) : LastCall where
  usage := some usage
  prompt := some prompt
  responseText := if script.completes a.lcTools then result.output else before.responseText

theorem leaves_of_completes {script : Script} {a : SpecialistAgent} (h : script.completes a.lcTools = true)
    {result : SubtaskResult} {prompt : String} {usage : TokenUsage} {before last : LastCall}
    (hlast : last = ⟨some usage, some prompt, result.output⟩) : last = script.leaves a prompt usage result before := by
  unfold Script.leaves
  rw [if_pos h, hlast]

theorem leaves_of_not_completes {script : Script} {a : SpecialistAgent} (h : script.completes a.lcTools = false)
    {result : SubtaskResult} {prompt : String} {usage : TokenUsage} {before last : LastCall}
    (hu : last.usage = some usage) (hp : last.prompt = some prompt) (hr : last.responseText = before.responseText) :
    last = script.leaves a prompt usage result before := by
  unfold Script.leaves
  rw [if_neg (by simp [h]), ← hr, ← hu, ← hp]

/-- Two runs on one script have the same result but for the latencies, and leave the same in their objects, but for
the response text where they fail. -/
structure RunsAlike (script : Script) (a : SpecialistAgent) (prompt : String) (ref ref' : AgentRef) (w w' : Workshop)
    (out out' : SubtaskResult × Bench) : Prop where
  untimed : out.1.untimed = out'.1.untimed
  output : script.completes a.lcTools = true → ∃ output, out.1.output = some output
  objects : ∃ usage, out.2.workshop.agents ref = script.leaves a prompt usage out.1 (w.agents ref) ∧
    out'.2.workshop.agents ref' = script.leaves a prompt usage out'.1 (w'.agents ref')
  others : ∀ other, other ≠ ref → out.2.workshop.agents other = w.agents other

theorem run_alike (script : Script) (timing timing' : Timing) (a : SpecialistAgent) (ref ref' : AgentRef)
    (subtask : SubTask) (context : Dict String SubtaskResult) (feedback : Option String) (b b' : Bench)
    (hreplied : b.replied = 0 ∧ b'.replied = 0) (hused : b.used = b'.used) :
    RunsAlike script a (userPrompt subtask context feedback) ref ref' b.workshop b'.workshop
      ((run (a.withRef ref) subtask context feedback).eval (script.answer timing) b)
      ((run (a.withRef ref') subtask context feedback).eval (script.answer timing') b') := by
  let prompt := userPrompt subtask context feedback
  let z : Sides := ⟨ref, ref', (b.workshop.agents ref).responseText, (b'.workshop.agents ref').responseText, prompt,
    b.workshop.agents⟩
  let start : Attempt := { messages := [.system (systemPrompts a.specialistType), .human prompt] }
  have hstart : Alike z 0 (start, (script.answer timing (.write ref (.prompt (some prompt))) b).2)
      (start, (script.answer timing' (.write ref' (.prompt (some prompt))) b').2) := by
    refine ⟨rfl, rfl, rfl, hreplied, hused, ?_, ?_, fun other hne => ?_⟩
    · simp only [agents_write, if_pos, LastCall.set, z, and_self]
    · simp only [agents_write, if_pos, LastCall.set, z, and_self]
    · simp only [agents_write, if_neg hne, z]
  refine Prog.Tandem.eval_attempt (R := RunsAlike script a prompt ref ref' b.workshop b'.workshop)
    (tandem_body a hstart) (fun output output' u u' hu => ?_) fun e e' u u' hu => ?_
  · obtain ⟨rfl, hcompletes, hmade, ⟨usage, hobject, hobject'⟩, hothers⟩ := hu
    show RunsAlike script a prompt ref ref' _ _ (⟨_, _, _, _, _, _, _⟩, u.2) (⟨_, _, _, _, _, _, _⟩, u'.2)
    refine ⟨?_, fun _ => ⟨output.output, rfl⟩, ⟨usage, ?_, ?_⟩, hothers⟩
    · simp only [SubtaskResult.untimed, hmade, withRef]
    · exact leaves_of_completes hcompletes hobject
    · exact leaves_of_completes hcompletes hobject'
  · obtain ⟨rfl, hcompletes, j, hu⟩ := hu
    obtain ⟨hw, husage⟩ := hu.writeUsage script timing timing'
      (some u.1.totalUsage)
    show RunsAlike script a prompt ref ref' _ _
      (⟨_, _, _, _, _, _, _⟩, (script.answer timing (.write ref (.usage (some u.1.totalUsage))) u.2).2)
      (⟨_, _, _, _, _, _, _⟩, (script.answer timing' (.write ref' (.usage (some u'.1.totalUsage))) u'.2).2)
    refine ⟨?_, fun h => absurd (h.symm.trans hcompletes) (by simp), ⟨u.1.totalUsage, ?_, ?_⟩, hw.others⟩
    · simp only [SubtaskResult.untimed, hu.toolCallsMade, withRef]
    · exact leaves_of_not_completes hcompletes husage.1 hw.prompts.1 hw.responses.1
    · rw [← hu.totalUsage]
      exact leaves_of_not_completes hcompletes husage.2 hw.prompts.2 hw.responses.2

end SpecialistAgent

end AgentOrchestrator
