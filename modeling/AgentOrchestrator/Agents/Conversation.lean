import AgentOrchestrator.Agents.Conduct
import AgentOrchestrator.Agents.Script

/-!
# Runs of a specialist

Every run of a specialist comes to a result, with at most six calls of the model, and leaves in its object the tokens of
exactly the replies it has received (`run_accounted`).  The conversations it sends are well formed, but for the last one
of a run that has asked for an answer without tools and has still been asked for tool calls
(`conversations_wellFormed_iff`).
-/

namespace AgentOrchestrator.SpecialistAgent

variable {agent : SpecialistAgent} {base : List ToolCallLog} {g : Conduct} {w w' : Workshop} {c : Command}
  {r : Response c}

/-! ### The store of a run -/

/-- The store goes with the conduct, and the conversations sent are sound. -/
structure Keeps (agent : SpecialistAgent) (base : List ToolCallLog) (g : Conduct) (w : Workshop) : Prop where
  usage : ∀ u, g.last = some u → (w.agents agent.ref).usage = u
  callLog : w.callLogs agent.ref.registry = base ++ g.logged
  sent_le : g.sent.length ≤ 6
  sound : ∀ messages ∈ g.sent, g.Sound messages

theorem keeps_start (agent : SpecialistAgent) (w : Workshop) : Keeps agent (w.callLogs agent.ref.registry) {} w where
  usage u h := absurd h (by simp)
  callLog := (List.append_nil _).symm
  sent_le := Nat.zero_le 6
  sound messages h := absurd h List.not_mem_nil

theorem Conduct.Sound.next {messages : List Turn} (h : g.Sound messages) (r : Response c) :
    (g.next c r).Sound messages := by
  refine ⟨fun message hmessage => ?_, fun hforced => h.2 fun message hmessage => ?_⟩
  · have hmem := h.1 message hmessage
    simp only [Conduct.next, List.mem_append] at hmem ⊢
    exact hmem.imp Or.inl Or.inl
  · exact hforced message (List.mem_append_left _ hmessage)

theorem Keeps.next (h : Keeps agent base g w)
    (husage : ∀ u, (written c r).or g.last = some u → (w'.agents agent.ref).usage = u)
    (hlog : w'.callLogs agent.ref.registry = w.callLogs agent.ref.registry ++ (logging c).toList)
    (hsend : ∀ messages, sending c = some messages → g.sent.length < 6 ∧ g.Sound messages) :
    Keeps agent base (g.next c r) w' where
  usage := husage
  callLog := by
    rw [hlog, h.callLog, List.append_assoc]
    rfl
  sent_le := by
    show (g.sent ++ (sending c).toList).length ≤ 6
    cases hc : sending c with
    | none => simpa using h.sent_le
    | some messages => exact (List.length_append ..).trans_le (hsend messages hc).1
  sound messages hmessages := by
    rcases List.mem_append.1 hmessages with hmem | hmem
    · exact (h.sound messages hmem).next r
    · exact (hsend messages (Option.mem_toList.1 hmem)).2.next r

theorem keeps_step (h : Keeps agent base g w) (hc : (conduct agent base).guarantee g c) (he : Executes c w r w') :
    (conduct agent base).rely g c r ∧ Keeps agent base (g.next c r) w' := by
  cases c with
  | now =>
    obtain rfl : w' = w := he
    exact ⟨trivial, h.next h.usage (List.append_nil _).symm (by simp [sending])⟩
  | awaitJob _ => exact hc.elim
  | newRegistry _ => exact hc.elim
  | newAgent _ _ => exact hc.elim
  | bindTools _ =>
    obtain rfl : w' = w := he
    exact ⟨trivial, h.next h.usage (List.append_nil _).symm (by simp [sending])⟩
  | invoke _ _ messages =>
    obtain rfl : w' = w := he
    exact ⟨trivial, h.next h.usage (List.append_nil _).symm fun _ hm => Option.some.inj hm ▸ hc⟩
  | structured _ messages =>
    obtain rfl : w' = w := he
    exact ⟨trivial, h.next h.usage (List.append_nil _).symm fun _ hm => Option.some.inj hm ▸ hc⟩
  | useTool _ _ call =>
    obtain rfl : w' = w := he
    exact ⟨trivial, h.next h.usage (List.append_nil _).symm (by simp [sending])⟩
  | readLog registry =>
    obtain rfl : registry = agent.ref.registry := hc
    obtain ⟨rfl, rfl⟩ : r = w.callLogs agent.ref.registry ∧ w' = w := he
    exact ⟨h.callLog, h.next h.usage (List.append_nil _).symm (by simp [sending])⟩
  | appendLog registry log =>
    obtain rfl : registry = agent.ref.registry := hc
    obtain rfl : w' = { w with
      callLogs := Function.update w.callLogs agent.ref.registry (w.callLogs agent.ref.registry ++ [log]) } := he
    exact ⟨trivial, h.next h.usage (Function.update_self ..) (by simp [sending])⟩
  | read ref name =>
    obtain ⟨rfl, hlast⟩ : ref = agent.ref ∧ g.last ≠ none := hc
    obtain ⟨rfl, rfl⟩ : r = (w.agents agent.ref).get name ∧ w' = w := he
    obtain ⟨u, hu⟩ := Option.ne_none_iff_exists'.1 hlast
    refine ⟨?_, h.next h.usage (List.append_nil _).symm (by simp [sending])⟩
    cases name with
    | usage => exact hu.trans (congrArg some (h.usage u hu).symm)
    | _ => trivial
  | write ref edit =>
    obtain rfl : ref = agent.ref := hc
    obtain rfl : w' = { w with agents := Function.update w.agents agent.ref ((w.agents agent.ref).set edit) } := he
    refine ⟨trivial, h.next (fun u hu => ?_) (List.append_nil _).symm (by simp [sending])⟩
    have hagent : Function.update w.agents agent.ref ((w.agents agent.ref).set edit) agent.ref =
      (w.agents agent.ref).set edit := Function.update_self ..
    show (Function.update w.agents agent.ref _ agent.ref).usage = u
    rw [hagent]
    cases edit with
    | usage value => exact Option.some.inj hu
    | prompt _ => exact h.usage u hu
    | responseText _ => exact h.usage u hu

/-- What is left of a run follows the protocol, from the conduct that the run shows so far. -/
theorem goes_conduct {σ : Type} {exec : (c : Command) → σ → Response c → σ → Prop} (view : σ → Workshop)
    (hexec : ∀ c s r t, exec c s r t → Executes c (view s) r (view t)) {subtask : SubTask}
    {context : Dict String SubtaskResult} {feedback : Option String} {s t : σ}
    {tr : List (Prog.Exchange Command Response σ)} {q : SpecialistAgent.Program SubtaskResult}
    (h : (run agent subtask context feedback).Goes exec s tr q t) :
    q.Follows (conduct agent ((view s).callLogs agent.ref.registry)) (Returns agent subtask)
        ((conduct agent ((view s).callLogs agent.ref.registry)).after {} tr) ∧
      Keeps agent ((view s).callLogs agent.ref.registry)
        ((conduct agent ((view s).callLogs agent.ref.registry)).after {} tr) (view t) := by
  refine Prog.Follows.goes (I := fun g s => Keeps agent _ g (view s)) (fun g s c r t hkeeps hc he => ?_)
    (follows_conduct agent _ subtask context feedback) (keeps_start agent (view s)) h
  exact keeps_step hkeeps hc (hexec c s r t he)

theorem returns_of_goes {σ : Type} {exec : (c : Command) → σ → Response c → σ → Prop} (view : σ → Workshop)
    (hexec : ∀ c s r t, exec c s r t → Executes c (view s) r (view t)) {subtask : SubTask}
    {context : Dict String SubtaskResult} {feedback : Option String} {s t : σ}
    {tr : List (Prog.Exchange Command Response σ)} {result : SubtaskResult}
    (h : (run agent subtask context feedback).Goes exec s tr (.ret result) t) :
    Returns agent subtask ((conduct agent ((view s).callLogs agent.ref.registry)).after {} tr) result :=
  (goes_conduct view hexec h).1

section After

variable {σ : Type} (agent : SpecialistAgent) (base : List ToolCallLog) (tr : List (Prog.Exchange Command Response σ))

theorem sent_after : ((conduct agent base).after {} tr).sent = tr.filterMap fun e => sending e.cmd :=
  Protocol.after_filterMap (P := conduct agent base) (f := Conduct.sent) (h := fun c _ => sending c) (fun _ _ _ => rfl) _ tr

theorem replies_after :
    ((conduct agent base).after {} tr).replies = tr.filterMap fun e => reply true e.cmd e.answer :=
  Protocol.after_filterMap (P := conduct agent base) (f := Conduct.replies) (h := reply true) (fun _ _ _ => rfl) _ tr

theorem forced_after :
    ((conduct agent base).after {} tr).forced = tr.filterMap fun e => reply false e.cmd e.answer :=
  Protocol.after_filterMap (P := conduct agent base) (f := Conduct.forced) (h := reply false) (fun _ _ _ => rfl) _ tr

theorem used_after : ((conduct agent base).after {} tr).used = tr.filterMap fun e => usedTool e.cmd e.answer :=
  Protocol.after_filterMap (P := conduct agent base) (f := Conduct.used) (h := usedTool) (fun _ _ _ => rfl) _ tr

theorem parsed_after :
    ((conduct agent base).after {} tr).parsed = tr.filterMap fun e => parsedOutput e.cmd e.answer :=
  Protocol.after_filterMap (P := conduct agent base) (f := Conduct.parsed) (h := parsedOutput) (fun _ _ _ => rfl) _ tr

end After

/-! ### The result and the tokens -/

/-- A run leaves in its object the tokens of the replies received in it. -/
theorem usage_of_goes {subtask : SubTask} {context : Dict String SubtaskResult} {feedback : Option String}
    {tr : List (Prog.Exchange Command Response Workshop)} {result : SubtaskResult}
    (h : (run agent subtask context feedback).Goes Executes w tr (.ret result) w') :
    (w'.agents agent.ref).usage = some (tr.map fun e => reported e.cmd e.answer).sum := by
  obtain ⟨hrecorded, hbooked⟩ := Prog.Follows.goes
    (I := fun g w => ∀ u, Books.last g = some u → (w.agents agent.ref).usage = u)
    (fun _ _ _ _ _ hw hg he => usage_of_executes hw hg he)
    (follows_run agent subtask context feedback (g := {}) rfl) (by simp) h
  have hreported : ((bookkeeping agent.ref).after {} tr).reported = _ :=
    Protocol.after_sum (P := bookkeeping agent.ref) (f := Books.reported) (h := reported) (fun _ _ _ => rfl) {} tr
  rw [hbooked _ hrecorded, hreported]
  exact congrArg some (zero_add _)

theorem exists_executes (c : Command) (w : Workshop) : ∃ r w', Executes c w r w' := by
  cases c with
  | now => exact ⟨(0 : ℚ), w, rfl⟩
  | awaitJob _ => exact ⟨.answered, w, rfl⟩
  | newAgent _ _ => exact ⟨.ok (), _, rfl⟩
  | bindTools _ => exact ⟨.ok (), w, rfl⟩
  | invoke _ _ _ => exact ⟨.error ⟨""⟩, w, rfl⟩
  | structured _ _ => exact ⟨.error ⟨""⟩, w, rfl⟩
  | useTool _ _ _ => exact ⟨.error "", w, rfl⟩
  | readLog _ => exact ⟨_, w, rfl, rfl⟩
  | read _ _ => exact ⟨_, w, rfl, rfl⟩
  | newRegistry _ => exact ⟨(), _, rfl⟩
  | appendLog _ _ => exact ⟨(), _, rfl⟩
  | write _ _ => exact ⟨(), _, rfl⟩

/-- A run of a specialist, wherever it has got to, has called the model at most six times and can go on to a result; its
result says whether there was a structured answer, and the object has the tokens of the replies of the run. -/
theorem run_accounted (agent : SpecialistAgent) (subtask : SubTask) (context : Dict String SubtaskResult)
    (feedback : Option String) {w w' : Workshop} {tr : List (Prog.Exchange Command Response Workshop)}
    {q : SpecialistAgent.Program SubtaskResult} (h : (run agent subtask context feedback).Goes Executes w tr q w') :
    (tr.filterMap fun e => sending e.cmd).length ≤ 6 ∧
      (∃ tr' result w'', q.Goes Executes w' tr' (.ret result) w'') ∧
      ∀ result, q = .ret result →
        result.subtaskId = subtask.id ∧
        (result.success = true ↔ ∃ e ∈ tr, ∃ output, parsedOutput e.cmd e.answer = some output) ∧
        (w'.agents agent.ref).usage = some (tr.map fun e => reported e.cmd e.answer).sum := by
  obtain ⟨hfollows, hkeeps⟩ := goes_conduct id (fun _ _ _ _ he => he) h
  refine ⟨?_, Prog.Goes.exists_end exists_executes q w', fun result hresult => ?_⟩
  · rw [← sent_after agent (w.callLogs agent.ref.registry)]
    exact hkeeps.sent_le
  · subst hresult
    have hreturns : Returns agent subtask _ result := hfollows
    refine ⟨hreturns.subtaskId_eq, hreturns.success_iff.trans ?_, usage_of_goes h⟩
    rw [parsed_after]
    constructor
    · intro hne
      obtain ⟨output, houtput⟩ := List.exists_mem_of_ne_nil _ hne
      obtain ⟨e, he, heq⟩ := List.mem_filterMap.1 houtput
      exact ⟨e, he, output, heq⟩
    · rintro ⟨e, he, output, heq⟩
      exact List.ne_nil_of_mem (List.mem_filterMap.2 ⟨e, he, heq⟩)

/-! ### The conversations -/

section Conversations

variable {subtask : SubTask} {context : Dict String SubtaskResult} {feedback : Option String}
  {tr : List (Prog.Exchange Command Response Workshop)} {result : SubtaskResult}

/-- The conversations sent in a run are well formed. -/
def WellFormedRun (tr : List (Prog.Exchange Command Response Workshop)) : Prop :=
  ∀ e ∈ tr, ∀ messages ∈ sending e.cmd, Dialogue.WellFormed (messages.map Turn.utterance)

/-- The tool calls of one reply have ids of their own. -/
def DistinctIds (tr : List (Prog.Exchange Command Response Workshop)) : Prop :=
  ∀ e ∈ tr, ∀ inLoop, ∀ message ∈ reply inLoop e.cmd e.answer, (message.toolCalls.map (·.id)).Nodup

instance (tr : List (Prog.Exchange Command Response Workshop)) : Decidable (DistinctIds tr) := List.decidableBAll _ tr

/-- The reply to the request to answer now asks for no tool calls. -/
def AnswersNow (tr : List (Prog.Exchange Command Response Workshop)) : Prop :=
  ∀ e ∈ tr, ∀ message ∈ reply false e.cmd e.answer, message.toolCalls = []

instance (tr : List (Prog.Exchange Command Response Workshop)) : Decidable (AnswersNow tr) := List.decidableBAll _ tr

theorem wellFormedRun_of_answersNow {q : SpecialistAgent.Program SubtaskResult}
    (h : (run agent subtask context feedback).Goes Executes w tr q w') (hids : DistinctIds tr) (hnow : AnswersNow tr) :
    WellFormedRun tr := by
  obtain ⟨-, hkeeps⟩ := goes_conduct id (fun _ _ _ _ he => he) h
  intro e he messages hmessages
  have hsent : messages ∈ tr.filterMap fun e => sending e.cmd := List.mem_filterMap.2 ⟨e, he, hmessages⟩
  rw [← sent_after agent (w.callLogs agent.ref.registry)] at hsent
  obtain ⟨hspoken, hwaiting⟩ := hkeeps.sound messages hsent
  refine (hwaiting fun message hmessage => ?_).wellFormed fun ids hmem => ?_
  · rw [forced_after] at hmessage
    obtain ⟨e', he', hreply⟩ := List.mem_filterMap.1 hmessage
    exact hnow e' he' message hreply
  · obtain ⟨turn, hturn, hids'⟩ := List.mem_map.1 hmem
    cases turn with
    | ai message =>
      obtain rfl := Utterance.asks.inj hids'
      have hreceived := hspoken message hturn
      rw [replies_after, forced_after, List.mem_append] at hreceived
      rcases hreceived with hreceived | hreceived
      · obtain ⟨e', he', hreply⟩ := List.mem_filterMap.1 hreceived
        exact hids e' he' true message hreply
      · obtain ⟨e', he', hreply⟩ := List.mem_filterMap.1 hreceived
        exact hids e' he' false message hreply
    | system _ => exact absurd hids' (by simp [Turn.utterance])
    | human _ => exact absurd hids' (by simp [Turn.utterance])
    | tool _ _ => exact absurd hids' (by simp [Turn.utterance])

/-- The reply to the request to answer now is the end of a conversation that is sent. -/
theorem exists_sending_of_forced (h : (run agent subtask context feedback).Goes Executes w tr (.ret result) w')
    {e : Prog.Exchange Command Response Workshop} (he : e ∈ tr) {message : ToolCallingMessage}
    (hreply : reply false e.cmd e.answer = some message) :
    ∃ e' ∈ tr, ∃ pre, sending e'.cmd = some (pre ++ [.ai message]) := by
  obtain ⟨pre, hsent⟩ := (returns_of_goes id (fun _ _ _ _ he => he) h).settled.closing message
    ((forced_after ..).symm ▸ List.mem_filterMap.2 ⟨e, he, hreply⟩)
  rw [sent_after] at hsent
  obtain ⟨e', he', hsending⟩ := List.mem_filterMap.1 hsent
  exact ⟨e', he', pre, hsending⟩

/-- A tool call in the reply to that request is not answered in the conversation that ends with it. -/
theorem answersNow_of_wellFormedRun (h : (run agent subtask context feedback).Goes Executes w tr (.ret result) w')
    (hwell : WellFormedRun tr) : AnswersNow tr := by
  intro e he message hreply
  obtain ⟨e', he', pre, hsending⟩ := exists_sending_of_forced h he hreply
  have hdialogue := hwell e' he' _ hsending
  rw [List.map_append] at hdialogue
  by_contra hcalls
  exact Dialogue.not_wellFormed_of_asks (by simpa using hcalls) hdialogue

/-- All conversations of a run are well formed if and only if the model, once asked to answer now, asks for no tools. -/
theorem conversations_wellFormed_iff (h : (run agent subtask context feedback).Goes Executes w tr (.ret result) w')
    (hids : DistinctIds tr) : WellFormedRun tr ↔ AnswersNow tr :=
  ⟨answersNow_of_wellFormedRun h, wellFormedRun_of_answersNow h hids⟩

end Conversations

/-! ### Runs on a script -/

section Sample

def sampleAgent : SpecialistAgent := ⟨.inProcess .research, .research, "claude-sonnet", ["web_search"]⟩

def sampleSubtask : SubTask where
  id := "s1"
  description := "Find the population of Norway."
  specialist := .research
  expectedOutputFormat := "One number."
  estimatedComplexity := ⟨2, by decide⟩

/-- The first `asking` replies ask for a tool. -/
def sampleScript (asking : Nat) : Script where
  bound := .ok ()
  replies k := .ok {
    content := "Norway has 5.6 million inhabitants."
    usageMetadata := some (.ofList [("input_tokens", 20), ("output_tokens", 5)])
    toolCalls := if k < asking then [⟨"call", "web_search", "{}"⟩] else [] }
  final := .ok ({ content := "5.6 million" }, some ⟨"5.6 million", ⟨1 / 2, half_isScore⟩⟩)
  used _ := .ok { toolName := "web_search", inputs := "{}", output := some "5.6 million", success := true, latencyMs := 0 }

def emptyWorkshop : Workshop := ⟨fun _ => {}, fun _ => []⟩

/-- At most 100 commands of the run. -/
def sampleGo (asking : Nat) : List (Prog.Exchange Command Response Bench) × SpecialistAgent.Program SubtaskResult × Bench :=
  Prog.go ((sampleScript asking).answer ⟨fun _ => 0, fun _ => 0⟩) 100 (run sampleAgent sampleSubtask ∅ none)
    { workshop := emptyWorkshop }

def sampleTrace (asking : Nat) : List (Prog.Exchange Command Response Workshop) :=
  (sampleGo asking).1.map (.map Bench.workshop)

theorem goes_sample (asking : Nat) : (run sampleAgent sampleSubtask ∅ none).Goes Executes emptyWorkshop (sampleTrace asking)
    (sampleGo asking).2.1 (sampleGo asking).2.2.workshop := by
  let exec (c : Command) (b : Bench) (r : Response c) (b' : Bench) : Prop := Executes c b.workshop r b'.workshop
  have hgoes : (run sampleAgent sampleSubtask ∅ none).Goes exec { workshop := emptyWorkshop } (sampleGo asking).1
      (sampleGo asking).2.1 (sampleGo asking).2.2 := Prog.goes_go (executes_answer (sampleScript asking) _) 100 _ _
  exact hgoes.map Bench.workshop fun _ _ _ _ he => he

/-- A run of two turns and a structured answer. -/
theorem run_accounted_sample : ∃ result, (sampleGo 1).2.1 = .ret result ∧ result.success = true ∧
    ((sampleTrace 1).filterMap fun e => sending e.cmd).length ≤ 6 ∧
      ((sampleGo 1).2.2.workshop.agents sampleAgent.ref).usage =
        some ((sampleTrace 1).map fun e => reported e.cmd e.answer).sum := by
  obtain ⟨result, hresult⟩ := Prog.exists_of_returned (p := (sampleGo 1).2.1) (by decide +kernel)
  obtain ⟨hle, -, hend⟩ := run_accounted _ _ _ _ (goes_sample 1)
  obtain ⟨-, hsuccess, husage⟩ := hend result hresult
  have hparsed : (sampleTrace 1).any (fun e => (parsedOutput e.cmd e.answer).isSome) = true := by decide +kernel
  obtain ⟨e, he, hsome⟩ := List.any_eq_true.1 hparsed
  exact ⟨result, hresult, hsuccess.2 ⟨e, he, Option.isSome_iff_exists.1 hsome⟩, hle, husage⟩

/-- A run in which the model settles on an answer. -/
theorem conversations_wellFormed_sample : WellFormedRun (sampleTrace 1) := by
  obtain ⟨result, hresult⟩ := Prog.exists_of_returned (p := (sampleGo 1).2.1) (by decide +kernel)
  have hgoes := goes_sample 1
  rw [hresult] at hgoes
  exact (conversations_wellFormed_iff hgoes (by decide +kernel)).2 (by decide +kernel)

/-- A model that asks for a tool in every reply leaves the last conversation with a tool call that is not answered. -/
theorem tool_call_unanswered : ∃ tr result w', (run sampleAgent sampleSubtask ∅ none).Goes Executes emptyWorkshop tr
    (.ret result) w' ∧ DistinctIds tr ∧ ¬WellFormedRun tr := by
  obtain ⟨result, hresult⟩ := Prog.exists_of_returned (p := (sampleGo 5).2.1) (by decide +kernel)
  have hgoes := goes_sample 5
  rw [hresult] at hgoes
  refine ⟨_, _, _, hgoes, by decide +kernel, fun hwell => ?_⟩
  exact absurd (answersNow_of_wellFormedRun hgoes hwell) (by decide +kernel)

end Sample

end AgentOrchestrator.SpecialistAgent
