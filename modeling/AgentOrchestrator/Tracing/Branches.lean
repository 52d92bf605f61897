import AgentOrchestrator.Agents.Ownership
import AgentOrchestrator.Tracing.Accounting
import Mathlib.Algebra.Order.BigOperators.Group.Finset

/-!
# What branches report

The branches of a batch that runs in process share the agent object of their specialist type and one call log, and an
event is made from what its branch finds there.  In a run in which no branch writes an attribute between the write and the
read of another one, nor logs in the tool call of another one, every event has the prompt, the response, the tokens and
the tool calls of its own branch, and no call is counted twice (`branches_own`).
-/

namespace AgentOrchestrator

open SpecialistAgent

/-! ### What a branch has done -/

/-- The moves of branch `i`. -/
def movesOf (i : Nat) (moves : List BranchMove) : List BranchMove := moves.filter fun m => m.proc = i

/-- The entry that a command adds to the call log. -/
def loggedBy : Command → Option ToolCallLog
  | .appendLog _ log => some log
  | _ => none

/-- The tool calls logged in the moves. -/
def callsLogged (moves : List BranchMove) : List ToolCallLog := moves.filterMap fun m => loggedBy m.cmd

/-- The text of the structured answer, if the answer is one. -/
def answeredBy : (c : Command) → Response c → Option (Option String)
  | .structured _ _, .ok (_, parsed) => some (parsed.map (·.output))
  | .structured _ _, .error _ => some none
  | _, _ => none

/-- The text of the last structured answer in the moves. -/
def answerOf (moves : List BranchMove) : Option String :=
  moves.foldl (fun answer m => (answeredBy m.cmd m.res).getD answer) none

theorem movesOf_snoc (i : Nat) (moves : List BranchMove) (m : BranchMove) :
    movesOf i (moves ++ [m]) = if m.proc = i then movesOf i moves ++ [m] else movesOf i moves := by
  unfold movesOf
  rw [List.filter_append]
  by_cases h : m.proc = i
  · simp [h]
  · simp [h]

theorem callsLogged_snoc (moves : List BranchMove) (m : BranchMove) :
    callsLogged (moves ++ [m]) = callsLogged moves ++ (loggedBy m.cmd).toList := by
  unfold callsLogged
  rw [List.filterMap_append]
  cases h : loggedBy m.cmd with
  | none => simp [h]
  | some log => simp [h]

theorem tokensOfMoves_snoc (moves : List BranchMove) (m : BranchMove) :
    tokensOfMoves (moves ++ [m]) = tokensOfMoves moves + reported m.cmd m.res := by
  simp [tokensOfMoves]

theorem answerOf_snoc (moves : List BranchMove) (m : BranchMove) :
    answerOf (moves ++ [m]) = (answeredBy m.cmd m.res).getD (answerOf moves) := by
  unfold answerOf
  rw [List.foldl_append]
  rfl

/-- The accounts of the branches after their moves. -/
def accounts (moves : List BranchMove) : Nat → Account :=
  moves.foldl (fun g m => Function.update g m.proc ((g m.proc).next m.cmd m.res)) fun _ => {}

theorem accounts_snoc (moves : List BranchMove) (m : BranchMove) :
    accounts (moves ++ [m]) = Function.update (accounts moves) m.proc ((accounts moves m.proc).next m.cmd m.res) := by
  simp [accounts]

/-- An account sums up the moves of its branch. -/
structure SumsUp (moves : List BranchMove) (g : Account) : Prop where
  reported : g.reported = tokensOfMoves moves
  logged : g.logged = callsLogged moves
  answer : g.answer = answerOf moves

/-- What a command adds to an account. -/
theorem sums_next (g : Account) (c : Command) (r : Response c) :
    (g.next c r).reported = g.reported + reported c r ∧ (g.next c r).logged = g.logged ++ (loggedBy c).toList ∧
      (g.next c r).answer = (answeredBy c r).getD g.answer := by
  have hnone : g.logged = g.logged ++ [] := (List.append_nil _).symm
  have hzero : g.reported = g.reported + 0 := (add_zero _).symm
  cases c with
  | newAgent agent model =>
    cases r with
    | error e => exact ⟨hzero, hnone, rfl⟩
    | ok _ => exact ⟨hzero, hnone, rfl⟩
  | structured agent messages =>
    rcases r with e | ⟨raw, parsed⟩
    · exact ⟨rfl, hnone, rfl⟩
    · exact ⟨rfl, hnone, rfl⟩
  | invoke agent withTools messages => exact ⟨rfl, hnone, rfl⟩
  | appendLog registry log => exact ⟨hzero, rfl, rfl⟩
  | _ => exact ⟨hzero, hnone, rfl⟩

theorem SumsUp.next {moves : List BranchMove} {g : Account} (h : SumsUp moves g) (m : BranchMove) :
    SumsUp (moves ++ [m]) (g.next m.cmd m.res) := by
  obtain ⟨hreported, hlogged, hanswer⟩ := sums_next g m.cmd m.res
  refine ⟨?_, ?_, ?_⟩
  · rw [hreported, tokensOfMoves_snoc, h.reported]
  · rw [hlogged, callsLogged_snoc, h.logged]
  · rw [hanswer, answerOf_snoc, h.answer]

theorem sumsUp_accounts (moves : List BranchMove) (i : Nat) : SumsUp (movesOf i moves) (accounts moves i) := by
  induction moves using List.reverseRecOn with
  | nil => exact ⟨rfl, rfl, rfl⟩
  | append_singleton moves m ih =>
    rw [accounts_snoc, movesOf_snoc]
    by_cases h : m.proc = i
    · subst h
      rw [if_pos rfl, Function.update_self]
      exact ih.next m
    · rw [if_neg h, Function.update_of_ne (Ne.symm h)]
      exact ih

/-! ### Branches that report what they have done themselves -/

/-- The branch has the prompt, the response, the tokens and the tool calls of these moves. -/
structure Owned (p : SendPayload) (moves : List BranchMove) (branch : Branch) : Prop where
  toolCalls : branch.run.result.toolCalls = callsLogged moves
  usage : tokensOf [branch.event] = tokensOfMoves moves
  attributes : ∃ output error retried via, branch.event.attributes =
    .runSpecialist p.subtaskId output error retried (callsLogged moves)
      (some (userPrompt branch.run.subtask p.completed (p.subtaskFeedback.get? p.subtaskId))) (answerOf moves) via

/-- What the account of a branch says is what it returns. -/
structure Accords (p : SendPayload) (g : Account) (branch : Branch) : Prop where
  toolCalls : branch.run.result.toolCalls = g.logged
  usage : tokensOf [branch.event] = g.reported
  attributes : ∃ output error retried via, branch.event.attributes =
    .runSpecialist p.subtaskId output error retried g.logged
      (some (userPrompt branch.run.subtask p.completed (p.subtaskFeedback.get? p.subtaskId))) g.answer via

theorem Accords.owned {p : SendPayload} {g : Account} {branch : Branch} {moves : List BranchMove}
    (h : Accords p g branch) (hg : SumsUp moves g) : Owned p moves branch := by
  obtain ⟨htoolCalls, husage, hattributes⟩ := h
  rw [hg.logged, hg.answer] at hattributes
  exact ⟨htoolCalls.trans hg.logged, husage.trans hg.reported, hattributes⟩

/-- The reads of an agent object after its run find what is the branch's own. -/
theorem follows_reads {α : Type} {agent : AgentRef} {g : Account} {post : Account → α → Prop}
    {k : Option String → Option String → Except String (Option TokenUsage) × Unit → SpecialistAgent.Program α}
    (hk : (k g.object.prompt g.object.responseText (.ok g.object.usage, ())).Follows (ownership agent) post g) :
    (do
      let prompt : Option String ← Prog.perform (Command.read agent .prompt)
      let response : Option String ← Prog.perform (Command.read agent .responseText)
      let out ← (readUsage agent).attempt ()
      k prompt response out : SpecialistAgent.Program α).Follows (ownership agent) post g := by
  refine follows_report_of_found (fun _ => rfl) (fun _ _ => rfl) (fun _ hfound => hfound) ?_
  rintro prompt response rfl rfl
  exact hk

/-- The end of a branch, with what its account says. -/
theorem accords_endBranch {p : SendPayload} {subtask : SubTask} {agent : AgentRef} {g : Account} {result : SubtaskResult}
    (hfind : (p.plan.subtasks.find? fun st => st.id = p.subtaskId) = some subtask)
    (h : Account.Ended (userPrompt subtask p.completed (p.subtaskFeedback.get? p.subtaskId)) g result.toolCalls)
    (via : ExecutedVia) (start : ℚ) (model : String) :
    (endBranch p subtask via start result g.object.prompt g.object.responseText
      (specialistUsage p model g.object.usage)).Follows (ownership agent)
      (fun g r => ∀ branch, r = .ok branch → Accords p g branch) g := by
  refine follows_endBranch trivial fun ended r hr => ?_
  intro branch hbranch
  obtain ⟨hrun, -, -, hattributes, husage⟩ := hr branch hbranch
  unfold AgentOrchestrator.runSpecialist at hrun
  rw [hfind] at hrun
  obtain ⟨hspecialist, -⟩ := Prod.mk.inj (Except.ok.inj hrun)
  rw [h.object, h.logged] at hattributes
  refine ⟨?_, ?_, result.output, result.error, (p.subtaskFeedback.get? p.subtaskId).isSome, via, ?_⟩
  · rw [← hspecialist]
    exact h.logged
  · rw [tokensOf_singleton, husage, h.object]
    exact sum_specialistUsage p model g.reported
  · rw [← hspecialist]
    exact hattributes

/-- In process, a branch that gets the answers that are its own returns what its account says. -/
theorem accords_branch {app : App} (happ : app.useCelery = false) (job : Nat) (p : SendPayload) :
    (branch app job p).Follows (ownership (branchAgent app job p))
      (fun g r => ∀ branch, r = .ok branch → Accords p g branch) {} := by
  refine .perform trivial fun start _ => ?_
  split
  · intro branch h
    exact absurd h (by simp)
  · rename_i subtask hfind
    have hagent : branchAgent app job p = .inProcess subtask.specialist := by
      unfold branchAgent
      rw [if_neg (by simp [happ]), hfind]
    dsimp only
    rw [if_neg (by simp [happ]), hagent]
    refine .bind (Account.follows_run _ subtask p.completed _) fun g result hended => ?_
    exact follows_reads (accords_endBranch hfind hended _ start _)

/-! ### Branches that are not disturbed -/

/-- The command writes this attribute of the agent object. -/
def Assigns (agent : AgentRef) (name : AttributeName) : Command → Prop
  | .write ref edit => ref = agent ∧ edit.name = name
  | _ => False

def LogsTo (registry : Option Nat) : Command → Prop
  | .appendLog target _ => target = registry
  | _ => False

def ReadsLog (registry : Option Nat) : Command → Prop
  | .readLog source => source = registry
  | _ => False

/-- The last of these moves that uses a tool or reads the log uses a tool. -/
def inCall (moves : List BranchMove) : Bool :=
  moves.foldl
    (fun calling m =>
      match m.cmd with
      | .useTool _ _ _ => true
      | .readLog _ => false
      | _ => calling)
    false

/-- A move after `moves`, which have started in the workshop `w`, finds what its branch has put there.  When it reads an
attribute, whoever else has written it has done so before the branch has, and if the branch has not, nothing had been left
there; when it reads the log at the end of a tool call, nobody else has logged since the branch read it at the beginning. -/
def Finds (w : Workshop) (moves : List BranchMove) (m : BranchMove) : Prop :=
  match m.cmd with
  | .read agent name => Pool.Superseded m.proc (Assigns agent name) (Assigns agent name) moves ∧
      ((∃ m' ∈ movesOf m.proc moves, Assigns agent name m'.cmd) ∨ (w.agents agent).get name = LastCall.get {} name)
  | .readLog registry => inCall (movesOf m.proc moves) = true →
      Pool.Superseded m.proc (LogsTo registry) (ReadsLog registry) moves
  | _ => True

/-- No branch has interfered with what this step reads. -/
def Undisturbed (c : Traced) (l : TraceLabel) : Prop :=
  match l with
  | .move m => ∀ b ∈ c.batch, Finds c.workshop b.moves m
  | _ => True

theorem inCall_snoc (moves : List BranchMove) (m : BranchMove) : inCall (moves ++ [m]) =
    match m.cmd with
    | .useTool _ _ _ => true
    | .readLog _ => false
    | _ => inCall moves := by
  simp [inCall]

theorem calling_accounts (moves : List BranchMove) (i : Nat) :
    (accounts moves i).calling = inCall (movesOf i moves) := by
  induction moves using List.reverseRecOn with
  | nil => rfl
  | append_singleton moves m ih =>
    rw [accounts_snoc, movesOf_snoc]
    by_cases h : m.proc = i
    · subst h
      rw [if_pos rfl, Function.update_self, inCall_snoc, ← ih]
      obtain ⟨proc, c, r⟩ := m
      cases c with
      | newAgent agent model =>
        cases r with
        | error e => rfl
        | ok _ => rfl
      | _ => rfl
    · rw [if_neg h, Function.update_of_ne (Ne.symm h)]
      exact ih

/-- The tool calls in the result of branch `i`, if it has returned. -/
def callsCounted (b : Batch) (i : Nat) : List ToolCallLog :=
  match b.pool.progs[i]? with
  | some (.ret (.ok branch)) => branch.run.result.toolCalls
  | _ => []

/-- Every branch that has returned reports what it has done itself, and no call is counted more often than it has been
made. -/
structure ReportsOwn (batch : List SendPayload) (b : Batch) : Prop where
  owned : ∀ i p branch, batch[i]? = some p → b.pool.progs[i]? = some (.ret (.ok branch)) →
    Owned p (movesOf i b.moves) branch
  once : ∀ log, ∑ i ∈ Finset.range batch.length, (callsCounted b i).count log ≤ (callsLogged b.moves).count log

theorem get_set (last last' : LastCall) (edit : Attribute) :
    (last.set edit).get edit.name = (last'.set edit).get edit.name := by
  cases edit with
  | _ value => rfl

theorem get_set_of_ne (last : LastCall) {edit : Attribute} {name : AttributeName} (h : edit.name ≠ name) :
    (last.set edit).get name = last.get name := by
  cases edit with
  | usage value =>
    cases name with
    | usage => exact absurd rfl h
    | _ => rfl
  | prompt value =>
    cases name with
    | prompt => exact absurd rfl h
    | _ => rfl
  | responseText value =>
    cases name with
    | responseText => exact absurd rfl h
    | _ => rfl

/-- A command that the protocol allows changes no attribute but the one that it writes. -/
theorem get_of_executes {agent ref : AgentRef} {name : AttributeName} {g : Account} {c : Command} {r : Response c}
    {w w' : Workshop} (hc : (ownership ref).guarantee g c) (h : Executes c w r w') (hw : ¬ Assigns agent name c) :
    (w'.agents agent).get name = (w.agents agent).get name := by
  cases c with
  | write target edit =>
    obtain rfl : w' = _ := h
    show (Function.update w.agents target _ agent).get name = _
    by_cases ht : agent = target
    · subst ht
      rw [Function.update_self]
      exact get_set_of_ne _ fun hname => hw ⟨rfl, hname⟩
    · rw [Function.update_of_ne ht]
  | newAgent _ _ => exact hc.elim
  | newRegistry _ => exact hc.elim
  | read target name' =>
    obtain ⟨-, rfl⟩ : _ ∧ w' = w := h
    rfl
  | readLog registry =>
    obtain ⟨-, rfl⟩ : _ ∧ w' = w := h
    rfl
  | appendLog registry log =>
    obtain rfl : w' = _ := h
    rfl
  | _ =>
    obtain rfl : w' = w := h
    rfl

/-- It changes no log but the one to which it logs. -/
theorem callLogs_of_executes {ref : AgentRef} {registry : Option Nat} {g : Account} {c : Command} {r : Response c}
    {w w' : Workshop} (hc : (ownership ref).guarantee g c) (h : Executes c w r w') (hw : ¬ LogsTo registry c) :
    w'.callLogs registry = w.callLogs registry := by
  cases c with
  | appendLog target log =>
    obtain rfl : w' = _ := h
    exact Function.update_of_ne (fun ht => hw ht.symm) ..
  | newAgent _ _ => exact hc.elim
  | newRegistry _ => exact hc.elim
  | read target name' =>
    obtain ⟨-, rfl⟩ : _ ∧ w' = w := h
    rfl
  | readLog source =>
    obtain ⟨-, rfl⟩ : _ ∧ w' = w := h
    rfl
  | write target edit =>
    obtain rfl : w' = _ := h
    rfl
  | _ =>
    obtain rfl : w' = w := h
    rfl

/-- What an account knows of attributes that a command does not write. -/
theorem get_next {ref : AgentRef} {name : AttributeName} {g : Account} {c : Command} (r : Response c)
    (hc : (ownership ref).guarantee g c) (hw : ¬ Assigns ref name c) :
    (g.next c r).object.get name = g.object.get name := by
  cases c with
  | write target edit =>
    obtain rfl : target = ref := hc
    exact get_set_of_ne _ fun hname => hw ⟨rfl, hname⟩
  | newAgent _ _ => exact hc.elim
  | _ => rfl

/-- The branches get the answers that are their own: what they have put into the workshop is still there if nobody has
interfered. -/
structure OwnBatch (agent : Nat → AgentRef) (batch : List SendPayload) (w : Workshop) (b : Batch) : Prop where
  length : b.pool.progs.length = batch.length
  procs : ∀ m ∈ b.moves, m.proc < batch.length
  follow : Pool.Follow (fun i => ownership (agent i))
    (fun i g r => ∀ p, batch[i]? = some p → ∀ branch, r = .ok branch → Accords p g branch) (accounts b.moves) b.pool
  attributes : ∀ i name, Pool.Superseded i (Assigns (agent i) name) (Assigns (agent i) name) b.moves →
    ((∃ m ∈ movesOf i b.moves, Assigns (agent i) name m.cmd) ∨
      (w.agents (agent i)).get name = LastCall.get {} name) →
    (b.pool.store.agents (agent i)).get name = (accounts b.moves i).object.get name
  log : ∀ i own, (accounts b.moves i).log = some own →
    Pool.Superseded i (LogsTo (agent i).registry) (ReadsLog (agent i).registry) b.moves →
    b.pool.store.callLogs (agent i).registry = own

theorem ownBatch_dispatch {app : App} (happ : app.useCelery = false) (c : Traced) (batch : List SendPayload) :
    OwnBatch (batchAgent app batch) batch c.workshop (dispatch app c batch) where
  length := List.length_mapIdx
  procs _ hm := absurd hm List.not_mem_nil
  follow := by
    refine Pool.follow_mapIdx fun i p hp => ?_
    rw [batchAgent_eq app hp]
    refine (accords_branch happ i p).mono fun g r hr p' hp' => ?_
    obtain rfl := Option.some.inj (hp.symm.trans hp')
    exact hr
  attributes i name _ h := h.elim (fun ⟨m, hm, _⟩ => absurd hm List.not_mem_nil) id
  log i own h := absurd h (by simp [accounts, dispatch])

/-- The answer is the branch's own if nobody has interfered. -/
theorem OwnBatch.rely {agent : Nat → AgentRef} {batch : List SendPayload} {w : Workshop} {b : Batch}
    (h : OwnBatch agent batch w b) {m : BranchMove} {pool : Pool Command Response Workshop (Except NodeError Branch)}
    (hm : Pool.Step Executes b.pool m pool) (hfinds : Finds w b.moves m) :
    (ownership (agent m.proc)).rely (accounts b.moves m.proc) m.cmd m.res := by
  have hc := (h.follow.step hm).1
  obtain ⟨-, -, -, he⟩ := hm.exists_call
  obtain ⟨proc, c, r⟩ := m
  dsimp only at hc he ⊢
  cases c with
  | read ref name =>
    obtain rfl : ref = agent proc := hc
    obtain ⟨hr, -⟩ : r = (b.pool.store.agents (agent proc)).get name ∧ _ := he
    exact hr.trans (h.attributes proc name hfinds.1 hfinds.2)
  | readLog registry =>
    obtain rfl : registry = (agent proc).registry := hc
    obtain ⟨hr, -⟩ : r = b.pool.store.callLogs (agent proc).registry ∧ _ := he
    intro hcalling own hown
    exact hr.trans (h.log proc own hown (hfinds ((calling_accounts b.moves proc) ▸ hcalling)))
  | _ => trivial

/-- What a branch knows of an attribute stays true. -/
theorem OwnBatch.attributes_snoc {agent : Nat → AgentRef} {batch : List SendPayload} {w : Workshop} {b : Batch}
    (h : OwnBatch agent batch w b) {m : BranchMove} {pool : Pool Command Response Workshop (Except NodeError Branch)}
    (hm : Pool.Step Executes b.pool m pool) {i : Nat} {name : AttributeName}
    (hsuperseded : Pool.Superseded i (Assigns (agent i) name) (Assigns (agent i) name) (b.moves ++ [m]))
    (hown : (∃ m' ∈ movesOf i (b.moves ++ [m]), Assigns (agent i) name m'.cmd) ∨
      (w.agents (agent i)).get name = LastCall.get {} name) :
    (pool.store.agents (agent i)).get name = (accounts (b.moves ++ [m]) i).object.get name := by
  have hc := (h.follow.step hm).1
  obtain ⟨-, -, -, he⟩ := hm.exists_call
  by_cases hmine : m.proc = i ∧ Assigns (agent i) name m.cmd
  · obtain ⟨rfl, hw⟩ := hmine
    rw [accounts_snoc, Function.update_self]
    obtain ⟨proc, c, r⟩ := m
    cases c with
    | write ref edit =>
      obtain ⟨rfl, rfl⟩ : ref = agent proc ∧ edit.name = name := hw
      have hstore : pool.store = _ := he
      rw [hstore]
      show (Function.update b.pool.store.agents (agent proc) _ (agent proc)).get edit.name = _
      rw [Function.update_self]
      exact get_set _ _ edit
    | _ => exact hw.elim
  · have hw : ¬ Assigns (agent i) name m.cmd := by
      by_cases hi : m.proc = i
      · exact fun hw => hmine ⟨hi, hw⟩
      · exact hsuperseded.not_last hi
    have haccount : (accounts (b.moves ++ [m]) i).object.get name = (accounts b.moves i).object.get name := by
      rw [accounts_snoc]
      by_cases hi : m.proc = i
      · subst hi
        rw [Function.update_self]
        exact get_next m.res hc hw
      · rw [Function.update_of_ne (Ne.symm hi)]
    rw [get_of_executes hc he hw, haccount]
    refine h.attributes i name (hsuperseded.of_snoc hmine) (hown.imp_left ?_)
    rintro ⟨m', hm', hw'⟩
    rw [movesOf_snoc] at hm'
    split at hm'
    · rcases List.mem_append.1 hm' with hm' | hm'
      · exact ⟨m', hm', hw'⟩
      · obtain rfl := List.mem_singleton.1 hm'
        exact absurd hw' hw
    · exact ⟨m', hm', hw'⟩

/-- What a branch knows of the call log stays true. -/
theorem OwnBatch.log_snoc {agent : Nat → AgentRef} {batch : List SendPayload} {w : Workshop} {b : Batch}
    (h : OwnBatch agent batch w b) {m : BranchMove} {pool : Pool Command Response Workshop (Except NodeError Branch)}
    (hm : Pool.Step Executes b.pool m pool) {i : Nat} {own : List ToolCallLog}
    (hown : (accounts (b.moves ++ [m]) i).log = some own)
    (hsuperseded : Pool.Superseded i (LogsTo (agent i).registry) (ReadsLog (agent i).registry) (b.moves ++ [m])) :
    pool.store.callLogs (agent i).registry = own := by
  have hc := (h.follow.step hm).1
  obtain ⟨-, -, -, he⟩ := hm.exists_call
  rw [accounts_snoc] at hown
  by_cases hi : m.proc = i
  · subst hi
    rw [Function.update_self] at hown
    obtain ⟨proc, c, r⟩ := m
    have hkept : ¬ LogsTo (agent proc).registry c → ¬ ReadsLog (agent proc).registry c →
        (accounts b.moves proc).log = some own → pool.store.callLogs (agent proc).registry = own := by
      intro hlogs hreads hlog
      rw [callLogs_of_executes hc he hlogs]
      exact h.log proc own hlog (hsuperseded.of_snoc fun hq => hreads hq.2)
    cases c with
    | readLog registry =>
      obtain rfl : registry = (agent proc).registry := hc
      obtain ⟨hr, hstore⟩ : r = b.pool.store.callLogs (agent proc).registry ∧ pool.store = b.pool.store := he
      rw [hstore, ← hr]
      exact Option.some.inj hown
    | appendLog registry log =>
      obtain rfl : registry = (agent proc).registry := hc
      obtain ⟨before, hbefore, rfl⟩ := Option.map_eq_some_iff.1 hown
      have hstore : pool.store = _ := he
      have hlog := h.log proc before hbefore (hsuperseded.of_snoc fun hq => hq.2)
      rw [hstore, ← hlog]
      exact Function.update_self ..
    | newAgent _ _ => exact hc.elim
    | _ => exact hkept id id hown
  · rw [Function.update_of_ne (Ne.symm hi)] at hown
    rw [callLogs_of_executes hc he (hsuperseded.not_last hi)]
    exact h.log i own hown (hsuperseded.of_snoc fun hq => hi hq.1)

/-- Step lemma. -/
theorem OwnBatch.move {agent : Nat → AgentRef} {batch : List SendPayload} {w : Workshop} {b : Batch}
    (h : OwnBatch agent batch w b) {m : BranchMove} {pool : Pool Command Response Workshop (Except NodeError Branch)}
    (hm : Pool.Step Executes b.pool m pool) (hfinds : Finds w b.moves m) :
    OwnBatch agent batch w { moves := b.moves ++ [m], pool := pool } := by
  obtain ⟨hc, hfollow⟩ := h.follow.step hm
  have hrely := h.rely hm hfinds
  obtain ⟨-, -, -, he⟩ := hm.exists_call
  refine ⟨hm.length_eq.trans h.length, fun x hx => ?_, ?_, fun i name hsuperseded hown => ?_,
    fun i own hown hsuperseded => ?_⟩
  · rcases List.mem_append.1 hx with hx | hx
    · exact h.procs x hx
    · obtain rfl := List.mem_singleton.1 hx
      exact h.length ▸ hm.proc_lt
  · show Pool.Follow _ _ (accounts (b.moves ++ [m])) _
    rw [accounts_snoc]
    exact hfollow hrely
  · exact h.attributes_snoc hm hsuperseded hown
  · exact h.log_snoc hm hown hsuperseded

/-- Every call that has been made is one of its branch. -/
theorem sum_callsLogged {n : Nat} (log : ToolCallLog) (moves : List BranchMove) (h : ∀ m ∈ moves, m.proc < n) :
    ∑ i ∈ Finset.range n, (callsLogged (movesOf i moves)).count log = (callsLogged moves).count log := by
  induction moves using List.reverseRecOn with
  | nil => exact Finset.sum_const_zero
  | append_singleton moves m ih =>
    have hold := ih fun x hx => h x (List.mem_append_left _ hx)
    have hmem : m.proc ∈ Finset.range n := Finset.mem_range.2 (h m (by simp))
    have heach : ∀ i, (callsLogged (movesOf i (moves ++ [m]))).count log =
        (callsLogged (movesOf i moves)).count log +
          if m.proc = i then (loggedBy m.cmd).toList.count log else 0 := by
      intro i
      rw [movesOf_snoc]
      by_cases hi : m.proc = i
      · rw [if_pos hi, if_pos hi, callsLogged_snoc, List.count_append]
      · rw [if_neg hi, if_neg hi, add_zero]
    calc ∑ i ∈ Finset.range n, (callsLogged (movesOf i (moves ++ [m]))).count log
        = ∑ i ∈ Finset.range n, (callsLogged (movesOf i moves)).count log +
            ∑ i ∈ Finset.range n, (if m.proc = i then (loggedBy m.cmd).toList.count log else 0) := by
          rw [Finset.sum_congr rfl fun i _ => heach i, Finset.sum_add_distrib]
      _ = (callsLogged moves).count log + (loggedBy m.cmd).toList.count log := by
          rw [hold, Finset.sum_ite_eq, if_pos hmem]
      _ = (callsLogged (moves ++ [m])).count log := by rw [callsLogged_snoc, List.count_append]

theorem OwnBatch.reportsOwn {agent : Nat → AgentRef} {batch : List SendPayload} {w : Workshop} {b : Batch}
    (h : OwnBatch agent batch w b) : ReportsOwn batch b := by
  have howned : ∀ i p branch, batch[i]? = some p → b.pool.progs[i]? = some (.ret (.ok branch)) →
      Owned p (movesOf i b.moves) branch :=
    fun i p branch hp hi => (h.follow.post hi p hp branch rfl).owned (sumsUp_accounts b.moves i)
  refine ⟨howned, fun log => ?_⟩
  rw [← sum_callsLogged log b.moves h.procs]
  refine Finset.sum_le_sum fun i hi => ?_
  obtain ⟨p, hp⟩ : ∃ p, batch[i]? = some p := ⟨_, List.getElem?_eq_getElem (Finset.mem_range.1 hi)⟩
  unfold callsCounted
  split
  · rename_i branch hbranch
    rw [(howned i p branch hp hbranch).toolCalls]
  · exact Nat.zero_le _

/-- The batch under way is the one that runs next, and has started in the workshop as it was before. -/
def OwnBatches (app : App) (c : Traced) : Prop := ∀ b, c.batch = some b → ∃ batch, c.config.next = .send batch ∧
  OwnBatch (batchAgent app batch) batch c.workshop b

theorem TracedStep.ownBatches {app : App} (happ : app.useCelery = false) {c c' : Traced} {l : TraceLabel}
    (h : OwnBatches app c) (hs : TracedStep app c l c') (hl : Undisturbed c l) : OwnBatches app c' := by
  intro b hb
  obtain ⟨hconfig, hworkshop, ⟨batch, -, hn, rfl⟩ | ⟨old, m, pool, rfl, hold, hm, rfl⟩⟩ := hs.batch_cases hb
  · rw [hconfig, hworkshop]
    exact ⟨batch, hn, ownBatch_dispatch happ c batch⟩
  · rw [hconfig, hworkshop]
    obtain ⟨batch, hn, hown⟩ := h old hold
    exact ⟨batch, hn, hown.move hm (hl old hold)⟩

/-- In a run in process in which no branch interferes with what another one reads, every event has the prompt, the
response, the tokens and the tool calls of its own branch, and no call is counted twice. -/
theorem branches_own {app : App} {c c' : Traced} {tr : List TraceLabel} {b : Batch} {batch : List SendPayload}
    (happ : app.useCelery = false) (h0 : c.batch = none)
    (h : Exec (fun c l c' => TracedStep app c l c' ∧ Undisturbed c l) c tr c') (hb : c'.batch = some b)
    (hnext : c'.config.next = .send batch) : ReportsOwn batch b := by
  have hown : OwnBatches app c' := by
    refine h.stateInvariant (OwnBatches app) (fun b hb => absurd (hb.symm.trans h0) (by simp)) ?_
    exact fun c l c' hc hs => hs.1.ownBatches happ hc hs.2
  obtain ⟨batch', hnext', hbatch⟩ := hown b hb
  obtain rfl : batch' = batch := Next.send.inj (hnext'.symm.trans hnext)
  exact hbatch.reportsOwn

/-! ### Two branches -/

instance (agent : AgentRef) (name : AttributeName) : DecidablePred (Assigns agent name)
  | .write ref edit => inferInstanceAs (Decidable (ref = agent ∧ edit.name = name))
  | .now | .awaitJob _ | .newRegistry _ | .newAgent _ _ | .bindTools _ | .invoke _ _ _ | .structured _ _
  | .useTool _ _ _ | .readLog _ | .appendLog _ _ | .read _ _ => isFalse id

instance (registry : Option Nat) : DecidablePred (LogsTo registry)
  | .appendLog target _ => inferInstanceAs (Decidable (target = registry))
  | .now | .awaitJob _ | .newRegistry _ | .newAgent _ _ | .bindTools _ | .invoke _ _ _ | .structured _ _
  | .useTool _ _ _ | .readLog _ | .write _ _ | .read _ _ => isFalse id

instance (registry : Option Nat) : DecidablePred (ReadsLog registry)
  | .readLog source => inferInstanceAs (Decidable (source = registry))
  | .now | .awaitJob _ | .newRegistry _ | .newAgent _ _ | .bindTools _ | .invoke _ _ _ | .structured _ _
  | .useTool _ _ _ | .appendLog _ _ | .write _ _ | .read _ _ => isFalse id

instance : (name : AttributeName) → DecidableEq name.Value
  | .usage => inferInstanceAs (DecidableEq (Option TokenUsage))
  | .prompt => inferInstanceAs (DecidableEq (Option String))
  | .responseText => inferInstanceAs (DecidableEq (Option String))

instance (w : Workshop) (moves : List BranchMove) : (m : BranchMove) → Decidable (Finds w moves m)
  | ⟨i, .read agent name, _⟩ => inferInstanceAs (Decidable
      (Pool.Superseded i (Assigns agent name) (Assigns agent name) moves ∧
        ((∃ m' ∈ movesOf i moves, Assigns agent name m'.cmd) ∨ (w.agents agent).get name = LastCall.get {} name)))
  | ⟨i, .readLog registry, _⟩ => inferInstanceAs (Decidable
      (inCall (movesOf i moves) = true → Pool.Superseded i (LogsTo registry) (ReadsLog registry) moves))
  | ⟨_, .now, _⟩ | ⟨_, .awaitJob _, _⟩ | ⟨_, .newRegistry _, _⟩ | ⟨_, .newAgent _ _, _⟩ | ⟨_, .bindTools _, _⟩
  | ⟨_, .invoke _ _ _, _⟩ | ⟨_, .structured _ _, _⟩ | ⟨_, .useTool _ _ _, _⟩ | ⟨_, .appendLog _ _, _⟩
  | ⟨_, .write _ _, _⟩ => isTrue trivial

instance (c : Traced) : (l : TraceLabel) → Decidable (Undisturbed c l)
  | .move m => inferInstanceAs (Decidable (∀ b ∈ c.batch, Finds c.workshop b.moves m))
  | .node _ _ | .dispatched | .gathered _ => isTrue trivial

/-- A plan with two subtasks, the second one for this specialist. -/
private def pairPlan (specialist : SpecialistType) : ExecutionPlan :=
  samplePlan [sampleSubtask "a" [], { sampleSubtask "b" [] with specialist := specialist }]

/-- The graph up to the batch of both subtasks, and the moves of the branches. -/
private def pairScript (specialist : SpecialistType) (moves : List Nat) : List TraceInput :=
  [.node 0 1 (.intake "u" none), .node 0 1 (.plan (sampleMessage 100 50) (pairPlan specialist)), .node 0 1 .none,
    .dispatch] ++ moves.map .move

/-- The branches take turns, but for the calls of a tool. -/
private def politeMoves : List Nat :=
  (List.replicate 8 [0, 1]).flatten ++ List.replicate 4 0 ++ List.replicate 4 1 ++ (List.replicate 18 [0, 1]).flatten

/-- A batch under way of the subtasks `a` and `b`, with the state in which it has been dispatched. -/
private def pairOf (c : Traced) : Option (Batch × SendPayload × SendPayload) :=
  match c.batch, c.config.next with
  | some b, .send [p, q] => if p.subtaskId = "a" ∧ q.subtaskId = "b" then some (b, p, q) else none
  | _, _ => none

private theorem eq_of_pairOf {c : Traced} {b : Batch} {p q : SendPayload} (h : pairOf c = some (b, p, q)) :
    c.batch = some b ∧ c.config.next = .send [p, q] ∧ p.subtaskId = "a" ∧ q.subtaskId = "b" := by
  unfold pairOf at h
  split at h
  · rename_i hb hn
    split at h
    · rename_i hids
      obtain ⟨rfl, hrest⟩ := Prod.mk.inj (Option.some.inj h)
      obtain ⟨rfl, rfl⟩ := Prod.mk.inj hrest
      exact ⟨hb, hn, hids⟩
    · exact absurd h (by simp)
  · exact absurd h (by simp)

/-- The prompt in the event of branch `i`, if it has returned. -/
def promptReported (b : Batch) (i : Nat) : Option String :=
  match b.pool.progs[i]? with
  | some (.ret (.ok branch)) =>
    match branch.event.attributes with
    | .runSpecialist _ _ _ _ _ prompt _ _ => prompt
    | _ => none
  | _ => none

/-- Two branches of different types whose tool calls do not overlap. -/
theorem branches_own_pair : ∃ tr c b p q, Exec (TracedStep sampleRecording.app) (sampleRecorder none).graph tr c ∧
    c.batch = some b ∧ c.config.next = .send [p, q] ∧ (promptReported b 0).isSome ∧ (promptReported b 1).isSome ∧
    ReportsOwn [p, q] b := by
  have hscript : scriptEnds (guarded (Traced.advance sampleRecording.app sampleAnswer) fun c l => Undisturbed c l)
      (sampleRecorder none).graph (pairScript .writing politeMoves)
      (fun _ c => ((pairOf c).map fun x => (promptReported x.1 0).isSome && (promptReported x.1 1).isSome) = some true) =
      true := by
    decide +kernel
  obtain ⟨tr, c, hrun, hp⟩ := exists_exec_of_scriptEnds (R := fun c l c' => TracedStep sampleRecording.app c l c' ∧
    Undisturbed c l) (fun c i l c' hi => ⟨tracedStep_of_advance executes_sampleAnswer (of_guarded hi).1,
      (of_guarded hi).2⟩) hscript
  obtain ⟨⟨b, p, q⟩, hpair, hreturned⟩ := Option.map_eq_some_iff.1 (of_decide_eq_true hp)
  obtain ⟨hb, hn, -⟩ := eq_of_pairOf hpair
  obtain ⟨hfirst, hsecond⟩ := (Bool.and_eq_true ..).to_iff.1 hreturned
  exact ⟨tr, c, b, p, q, hrun.mono fun _ _ _ hs => hs.1, hb, hn, hfirst, hsecond,
    branches_own rfl rfl hrun hb hn⟩

/-- Two branches of one type that take turns: both events have the prompt of the second branch, and both results have
the tool calls of both branches. -/
theorem branches_mixed : ∃ tr c b p q, Exec (TracedStep sampleRecording.app) (sampleRecorder none).graph tr c ∧
    c.batch = some b ∧ c.config.next = .send [p, q] ∧
    promptReported b 0 = some (userPrompt (sampleSubtask "b" []) ∅ none) ∧
    promptReported b 1 = some (userPrompt (sampleSubtask "b" []) ∅ none) ∧
    (callsCounted b 0).length = 2 ∧ (callsCounted b 1).length = 2 ∧ (callsLogged b.moves).length = 2 ∧
    ¬ ReportsOwn [p, q] b := by
  have hscript : scriptEnds (Traced.advance sampleRecording.app sampleAnswer) (sampleRecorder none).graph
      (pairScript .research (List.replicate 30 [0, 1]).flatten)
      (fun _ c => ((pairOf c).map fun x => decide (
        promptReported x.1 0 = some (userPrompt (sampleSubtask "b" []) ∅ none) ∧
        promptReported x.1 1 = some (userPrompt (sampleSubtask "b" []) ∅ none) ∧
        (callsCounted x.1 0).length = 2 ∧ (callsCounted x.1 1).length = 2 ∧
        (callsLogged x.1.moves).length = 2)) = some true) = true := by
    decide +kernel
  obtain ⟨tr, c, hrun, hp⟩ := exists_exec_of_scriptEnds (R := TracedStep sampleRecording.app)
    (fun c i l c' hi => tracedStep_of_advance executes_sampleAnswer hi) hscript
  obtain ⟨⟨b, p, q⟩, hpair, hmixed⟩ := Option.map_eq_some_iff.1 (of_decide_eq_true hp)
  obtain ⟨hb, hn, hids⟩ := eq_of_pairOf hpair
  obtain ⟨hprompt, hprompt', hcalls, hcalls', hlogged⟩ := of_decide_eq_true hmixed
  refine ⟨tr, c, b, p, q, hrun, hb, hn, hprompt, hprompt', hcalls, hcalls', hlogged, fun hown => ?_⟩
  -- four calls are counted, but only two have been made
  have hsub : (callsCounted b 0 ++ callsCounted b 1).Subperm (callsLogged b.moves) := by
    refine List.subperm_ext_iff.2 fun log _ => ?_
    have honce := hown.once log
    rw [List.length_cons, List.length_singleton, Finset.sum_range_succ, Finset.sum_range_one] at honce
    rw [List.count_append]
    exact honce
  have hlength := hsub.length_le
  rw [List.length_append, show (callsCounted b 0).length = 2 from hcalls,
    show (callsCounted b 1).length = 2 from hcalls', show (callsLogged b.moves).length = 2 from hlogged] at hlength
  omega

end AgentOrchestrator
