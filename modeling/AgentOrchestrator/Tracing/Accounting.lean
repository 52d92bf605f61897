import AgentOrchestrator.Agents.Usage
import AgentOrchestrator.Tracing.Persistence
import Mathlib.Algebra.BigOperators.Intervals

/-!
# Token accounting

The tokens of a run are those that the replies of the model have reported in it.  Two things keep them out of the row of
the task: no event has the tokens of the memory extractor, and two branches of a batch that share an agent object may
find each other's numbers in its `last_usage`.  In a run without either, the row has the tokens of all replies
(`totals_complete`).  Branches with agent objects of their own, as in workers, never find anything else than their own
numbers (`accountable_of_separate`).
-/

namespace AgentOrchestrator

open SpecialistAgent

/-! ### What a branch reports -/

/-- The agent object of a branch. -/
def branchAgent (app : App) (job : Nat) (p : SendPayload) : AgentRef :=
  if app.useCelery then .worker job
  else
    match p.plan.subtasks.find? fun st => st.id = p.subtaskId with
    | some subtask => .inProcess subtask.specialist
    | none => .worker job

/-- The event of a branch has the tokens of exactly the replies the branch has received. -/
def ReportsAll (g : Books) (r : Except NodeError Branch) : Prop :=
  ∀ branch, r = .ok branch → tokensOf [branch.event] = g.reported

theorem reportsAll_error (g : Books) (e : NodeError) : ReportsAll g (.error e) := by
  intro branch h
  exact absurd h (by simp)

theorem sum_specialistUsage (p : SendPayload) (model : String) (u : TokenUsage) :
    ((specialistUsage p model (some u)).map UsageEntry.tokens).sum = u := by
  simp [specialistUsage, UsageEntry.tokens]

theorem reports_endBranch {agent : AgentRef} {g : Books} (p : SendPayload) (subtask : SubTask) (via : ExecutedVia)
    (start : ℚ) (result : SubtaskResult) (prompt response : Option String) (model : String) :
    (endBranch p subtask via start result prompt response (specialistUsage p model (some g.reported))).Follows
      (bookkeeping agent) ReportsAll g := by
  refine follows_endBranch trivial fun ended r hr => ?_
  rw [next_eq rfl rfl]
  intro branch h
  rw [tokensOf_singleton, (hr branch h).usage_eq]
  exact sum_specialistUsage p model g.reported

/-- The reads of an agent object after its run: the last one finds the sum. -/
theorem follows_report {α : Type} {agent : AgentRef} {g : Books} (h : Recorded g) {post : Books → α → Prop}
    {k : Option String → Option String → Except String (Option TokenUsage) × Unit → SpecialistAgent.Program α}
    (hk : ∀ prompt response, (k prompt response (.ok (some g.reported), ())).Follows (bookkeeping agent) post g) :
    (do
      let prompt : Option String ← Prog.perform (Command.read agent .prompt)
      let response : Option String ← Prog.perform (Command.read agent .responseText)
      let out ← (readUsage agent).attempt ()
      k prompt response out : SpecialistAgent.Program α).Follows (bookkeeping agent) post g := by
  have hread : ∀ name, (bookkeeping agent).guarantee g (.read agent name) :=
    fun _ => ⟨rfl, by simp [show g.last = _ from h]⟩
  refine follows_report_of_found hread (fun _ _ => next_eq rfl rfl) (fun usage husage => ?_)
    fun prompt response _ _ => hk prompt response
  exact (Option.some.inj (Eq.trans h.symm husage)).symm

theorem follows_runSpecialistTask (agent : SpecialistAgent) (subtask : SubTask) (context : Dict String SubtaskResult)
    (feedback : Option String) : (runSpecialistTask agent subtask context feedback).Follows (bookkeeping agent.ref)
      (fun g r => ∀ payload, r = .ok payload → payload.usage = some g.reported) {} := by
  refine .perform trivial fun _ _ => ?_
  rw [next_eq rfl rfl]
  refine .perform rfl fun made _ => ?_
  cases made with
  | error e =>
    intro payload h
    exact absurd h (by simp)
  | ok _ =>
    refine .bind (follows_run agent subtask context feedback (by rfl)) fun g result hrecorded => ?_
    refine follows_report hrecorded fun prompt response => ?_
    intro payload h
    obtain rfl := Except.ok.inj h
    rfl

theorem exists_payload_of_get {wait : Wait} {job : Except String Payload} {payload : Payload}
    (h : (JobOutcome.of wait job).get = .ok payload) : job = .ok payload := by
  unfold JobOutcome.of at h
  split at h
  · exact congrArg Except.ok (Except.ok.inj h)
  · exact absurd h (by simp [JobOutcome.get])
  · exact absurd h (by simp [JobOutcome.get])
  · exact absurd h (by simp [JobOutcome.get])

theorem reports_branch (app : App) (job : Nat) (p : SendPayload) :
    (branch app job p).Follows (bookkeeping (branchAgent app job p)) ReportsAll {} := by
  refine .perform trivial fun start _ => ?_
  rw [next_eq rfl rfl]
  split
  · exact reportsAll_error _ _
  · rename_i subtask hfind
    dsimp only
    by_cases hcelery : app.useCelery = true
    · have hagent : branchAgent app job p = .worker job := if_pos hcelery
      rw [if_pos hcelery, hagent]
      refine .bind (follows_runSpecialistTask _ subtask p.completed _) fun g outcome houtcome => ?_
      refine .perform trivial fun wait _ => ?_
      rw [next_eq rfl rfl]
      split
      · exact reportsAll_error _ _
      · rename_i payload hpayload
        rw [houtcome payload (exists_payload_of_get hpayload)]
        exact reports_endBranch p subtask _ start _ _ _ _
    · have hagent : branchAgent app job p = .inProcess subtask.specialist := by
        unfold branchAgent
        rw [if_neg hcelery, hfind]
      rw [if_neg hcelery, hagent]
      refine .bind (follows_run (app.specialist (.inProcess subtask.specialist) subtask.specialist) subtask p.completed _
        (by rfl)) fun g result hrecorded => ?_
      refine follows_report hrecorded fun prompt response => ?_
      exact reports_endBranch p subtask _ start _ _ _ _

/-! ### Batches -/

/-- The books of the branches after their moves. -/
def books (moves : List BranchMove) : Nat → Books :=
  moves.foldl
    (fun g m => Function.update g m.proc {
      last := (written m.cmd m.res).or (g m.proc).last
      reported := (g m.proc).reported + reported m.cmd m.res })
    fun _ => {}

theorem books_snoc (moves : List BranchMove) (m : BranchMove) :
    books (moves ++ [m]) = Function.update (books moves) m.proc {
      last := (written m.cmd m.res).or (books moves m.proc).last
      reported := (books moves m.proc).reported + reported m.cmd m.res } := by
  simp [books]

/-- The tokens of the replies in the moves. -/
def tokensOfMoves (moves : List BranchMove) : TokenUsage := (moves.map fun m => reported m.cmd m.res).sum

/-- The replies of a batch are those of its branches. -/
theorem sum_books {n : Nat} (moves : List BranchMove) (h : ∀ m ∈ moves, m.proc < n) :
    ∑ i ∈ Finset.range n, (books moves i).reported = tokensOfMoves moves := by
  induction moves using List.reverseRecOn with
  | nil => exact Finset.sum_const_zero
  | append_singleton moves m ih =>
    have hmem : m.proc ∈ Finset.range n := Finset.mem_range.2 (h m (by simp))
    have hold := ih fun x hx => h x (List.mem_append_left _ hx)
    have hrest : ∑ i ∈ (Finset.range n).erase m.proc, (books (moves ++ [m]) i).reported =
        ∑ i ∈ (Finset.range n).erase m.proc, (books moves i).reported := by
      refine Finset.sum_congr rfl fun i hi => ?_
      rw [books_snoc, Function.update_of_ne (Finset.ne_of_mem_erase hi)]
    have hnew : (books (moves ++ [m]) m.proc).reported = (books moves m.proc).reported + reported m.cmd m.res := by
      rw [books_snoc, Function.update_self]
    calc ∑ i ∈ Finset.range n, (books (moves ++ [m]) i).reported
        = (books (moves ++ [m]) m.proc).reported +
            ∑ i ∈ (Finset.range n).erase m.proc, (books (moves ++ [m]) i).reported := (Finset.add_sum_erase _ _ hmem).symm
      _ = (books moves m.proc).reported + ∑ i ∈ (Finset.range n).erase m.proc, (books moves i).reported +
            reported m.cmd m.res := by rw [hnew, hrest, add_right_comm]
      _ = tokensOfMoves moves + reported m.cmd m.res := by
        rw [Finset.add_sum_erase (Finset.range n) (fun i => (books moves i).reported) hmem, hold]
      _ = tokensOfMoves (moves ++ [m]) := by simp [tokensOfMoves]

/-- What a read of `last_usage` finds. -/
def found : (c : Command) → Response c → Option (Option TokenUsage)
  | .read _ .usage, usage => some usage
  | _, _ => none

/-- A read of `last_usage` finds what the branch has last written there itself. -/
def FindsOwn (g : Books) (c : Command) (r : Response c) : Prop := ∀ usage ∈ found c r, g.last = some usage

instance (g : Books) (c : Command) (r : Response c) : Decidable (FindsOwn g c r) :=
  inferInstanceAs (Decidable (∀ usage ∈ found c r, g.last = some usage))

theorem rely_of_findsOwn {agent : AgentRef} {g : Books} {c : Command} {r : Response c} (h : FindsOwn g c r) :
    (bookkeeping agent).rely g c r := by
  cases c with
  | read ref name =>
    cases name with
    | usage => exact h r rfl
    | _ => trivial
  | _ => trivial

/-- The agent objects of the branches of a batch. -/
def batchAgent (app : App) (batch : List SendPayload) (i : Nat) : AgentRef :=
  match batch[i]? with
  | some p => branchAgent app i p
  | none => .worker i

theorem batchAgent_eq (app : App) {batch : List SendPayload} {i : Nat} {p : SendPayload} (hp : batch[i]? = some p) :
    batchAgent app batch i = branchAgent app i p := by
  unfold batchAgent
  rw [hp]

/-- The branches keep their books. -/
structure BooksKept (b : Batch) : Prop where
  procs : ∀ m ∈ b.moves, m.proc < b.pool.progs.length
  follow : ∃ agent : Nat → AgentRef,
    Pool.Follow (fun i => bookkeeping (agent i)) (fun _ => ReportsAll) (books b.moves) b.pool

/-- Each branch of a batch keeps its books of the agent object it uses. -/
theorem follow_dispatch (app : App) (c : Traced) (batch : List SendPayload) :
    Pool.Follow (fun i => bookkeeping (batchAgent app batch i)) (fun _ => ReportsAll) (fun _ => {})
      (dispatch app c batch).pool := by
  refine Pool.follow_mapIdx fun i p hp => ?_
  rw [batchAgent_eq app hp]
  exact reports_branch app i p

theorem booksKept_dispatch (app : App) (c : Traced) (batch : List SendPayload) : BooksKept (dispatch app c batch) where
  procs _ hm := absurd hm List.not_mem_nil
  follow := ⟨batchAgent app batch, follow_dispatch app c batch⟩

theorem BooksKept.move {b : Batch} (h : BooksKept b) {m : BranchMove}
    {pool : Pool Command Response Workshop (Except NodeError Branch)} (hm : Pool.Step Executes b.pool m pool)
    (hown : FindsOwn (books b.moves m.proc) m.cmd m.res) : BooksKept { moves := b.moves ++ [m], pool := pool } where
  procs := by
    intro x hx
    rw [hm.length_eq]
    rcases List.mem_append.1 hx with hx | hx
    · exact h.procs x hx
    · obtain rfl := List.mem_singleton.1 hx
      exact hm.proc_lt
  follow := by
    obtain ⟨agent, hfollow⟩ := h.follow
    refine ⟨agent, ?_⟩
    show Pool.Follow _ _ (books (b.moves ++ [m])) _
    rw [books_snoc]
    exact (hfollow.step hm).2 (rely_of_findsOwn hown)

/-- The events of a batch that is over have the tokens of its replies. -/
theorem BooksKept.gathered {b : Batch} (h : BooksKept b) {branches : List Branch}
    (hr : b.pool.progs = branches.map fun branch => .ret (.ok branch)) :
    tokensOf (branches.map (·.event)) = tokensOfMoves b.moves := by
  have hlength : b.pool.progs.length = branches.length := by rw [hr, List.length_map]
  obtain ⟨agent, hfollow⟩ := h.follow
  have heach : (branches.map fun branch => tokensOf [branch.event]) =
      (List.range branches.length).map fun i => (books b.moves i).reported := by
    refine List.ext_getElem (by simp) fun i hi hi' => ?_
    have hlt : i < branches.length := by simpa using hi
    have hprog : b.pool.progs[i]? = some (.ret (.ok branches[i])) := by
      rw [hr, List.getElem?_map, List.getElem?_eq_getElem hlt]
      rfl
    simpa using hfollow.post hprog _ rfl
  have hsum : tokensOf (branches.map (·.event)) = (branches.map fun branch => tokensOf [branch.event]).sum := by
    simp [tokensOf, Function.comp_def]
  rw [hsum, heach, ← sum_books b.moves fun m hm => hlength ▸ h.procs m hm]
  rfl

/-! ### Agent objects of their own -/

/-- No two branches use the same agent object, and each object has what its branch has last written. -/
structure OwnAgents (agent : Nat → AgentRef) (b : Batch) : Prop where
  injective : Function.Injective agent
  follow : Pool.Follow (fun i => bookkeeping (agent i)) (fun _ => ReportsAll) (books b.moves) b.pool
  last : ∀ i u, (books b.moves i).last = some u → (b.pool.store.agents (agent i)).usage = u

theorem OwnAgents.findsOwn {agent : Nat → AgentRef} {b : Batch} (h : OwnAgents agent b) {m : BranchMove}
    {pool : Pool Command Response Workshop (Except NodeError Branch)} (hm : Pool.Step Executes b.pool m pool) :
    FindsOwn (books b.moves m.proc) m.cmd m.res := by
  have hg := (h.follow.step hm).1
  obtain ⟨moves, before⟩ := b
  have hstep : Pool.Step Executes before m pool := hm
  cases hstep with
  | @move s t ps i c k r hi he =>
    intro usage husage
    cases c with
    | read ref name =>
      obtain ⟨rfl, hne⟩ : ref = agent i ∧ _ := hg
      obtain ⟨u, hu⟩ := Option.ne_none_iff_exists'.1 hne
      cases name with
      | usage =>
        obtain rfl := Option.some.inj husage
        obtain ⟨rfl, -⟩ : r = (s.agents (agent i)).get .usage ∧ t = s := he
        have hown := h.last i u hu
        exact hu.trans (congrArg some hown.symm)
      | _ => exact absurd husage (by simp [found])
    | _ => exact absurd husage (by simp [found])

theorem OwnAgents.move {agent : Nat → AgentRef} {b : Batch} (h : OwnAgents agent b) {m : BranchMove}
    {pool : Pool Command Response Workshop (Except NodeError Branch)} (hm : Pool.Step Executes b.pool m pool) :
    OwnAgents agent { moves := b.moves ++ [m], pool := pool } := by
  obtain ⟨hg, hfollow⟩ := h.follow.step hm
  have hown := h.findsOwn hm
  refine ⟨h.injective, ?_, fun i u hu => ?_⟩
  · show Pool.Follow _ _ (books (b.moves ++ [m])) _
    rw [books_snoc]
    exact hfollow (rely_of_findsOwn hown)
  · obtain ⟨moves, before⟩ := b
    have hstep : Pool.Step Executes before m pool := hm
    cases hstep with
    | @move s t ps j c k r hj he =>
      obtain ⟨hothers, husage⟩ := agents_of_executes hg he
      show (t.agents (agent i)).usage = u
      rw [books_snoc] at hu
      dsimp only at hu husage hothers
      by_cases hij : i = j
      · -- the books follow every write to `last_usage`
        obtain rfl := hij
        rw [Function.update_self] at hu
        rw [husage]
        cases hw : written c r with
        | none =>
          rw [hw, Option.none_or] at hu
          exact h.last i u hu
        | some value =>
          rw [hw] at hu
          exact Option.some.inj hu
      · rw [Function.update_of_ne hij] at hu
        rw [hothers (agent i) fun heq => hij (h.injective heq)]
        exact h.last i u hu

/-! ### Runs -/

/-- The tokens that the replies in a step report. -/
def RecorderLabel.tokens : RecorderLabel → TokenUsage
  | .graph (.node _ tokens) => tokens
  | .graph (.move m) => reported m.cmd m.res
  | _ => 0

/-- The tokens that all replies in a run report. -/
def tokensReported (tr : List RecorderLabel) : TokenUsage := (tr.map RecorderLabel.tokens).sum

theorem tokensReported_snoc (tr : List RecorderLabel) (l : RecorderLabel) :
    tokensReported (tr ++ [l]) = tokensReported tr + l.tokens := by
  simp [tokensReported]

/-- The reply of the extractor, if there is one, reports no tokens; and a branch that reads the `last_usage` of its agent
finds there what it has last written itself. -/
def Accountable (r : Recorder) : RecorderLabel → Prop
  | .graph (.node e tokens) => e.isDelivery = true → tokens = 0
  | .graph (.move m) => ∀ b ∈ r.graph.batch, FindsOwn (books b.moves m.proc) m.cmd m.res
  | _ => True

instance (r : Recorder) (l : RecorderLabel) : Decidable (Accountable r l) :=
  match l with
  | .graph (.node e tokens) => inferInstanceAs (Decidable (e.isDelivery = true → tokens = 0))
  | .graph (.move m) =>
    inferInstanceAs (Decidable (∀ b ∈ r.graph.batch, FindsOwn (books b.moves m.proc) m.cmd m.res))
  | .graph .dispatched => .isTrue trivial
  | .graph (.gathered _) => .isTrue trivial
  | .invoked => .isTrue trivial
  | .persisted => .isTrue trivial
  | .submitted _ => .isTrue trivial
  | .prompted => .isTrue trivial
  | .queue _ _ => .isTrue trivial
  | .resumed _ => .isTrue trivial
  | .measured _ => .isTrue trivial
  | .noted => .isTrue trivial
  | .finished => .isTrue trivial
  | .raised => .isTrue trivial
  | .others => .isTrue trivial

/-- The tokens of the replies in the batch under way. -/
def Traced.unrecorded (c : Traced) : TokenUsage :=
  match c.batch with
  | some b => tokensOfMoves b.moves
  | none => 0

/-- What keeps a run accountable: the reply of the extractor reports no tokens, and no two branches of a batch that is
dispatched use the same agent object. -/
def Separate (app : App) (r : Recorder) : RecorderLabel → Prop
  | .graph (.node e tokens) => e.isDelivery = true → tokens = 0
  | .graph .dispatched => ∀ batch, r.graph.config.next = .send batch → Function.Injective (batchAgent app batch)
  | _ => True

/-- The branches under way have agent objects of their own. -/
def Apart (c : Traced) : Prop := ∀ b, c.batch = some b → ∃ agent, OwnAgents agent b

theorem TracedStep.apart {app : App} {r : Recorder} {c : Traced} {l : TraceLabel} (h : Apart r.graph)
    (hs : TracedStep app r.graph l c) (hsep : Separate app r (.graph l)) : Apart c := by
  intro b hb
  obtain ⟨-, -, ⟨batch, rfl, hn, rfl⟩ | ⟨old, m, pool, -, hold, hm, rfl⟩⟩ := hs.batch_cases hb
  · refine ⟨batchAgent app batch, hsep batch hn, follow_dispatch app r.graph batch, fun i u hu => ?_⟩
    have hnone : none = some u := hu
    exact absurd hnone (by simp)
  · obtain ⟨agent, hown⟩ := h old hold
    exact ⟨agent, hown.move hm⟩

/-- Where no two branches of a batch share an agent object, a branch always finds what it has written itself. -/
theorem RecorderStep.accountable {rec : Recording} {r r' : Recorder} {l : RecorderLabel} (h : Apart r.graph)
    (hs : RecorderStep rec r l r') (hsep : Separate rec.app r l) : Accountable r l ∧ Apart r'.graph := by
  cases hs with
  | graph hp hgraph hl =>
    refine ⟨?_, hgraph.apart h hsep⟩
    cases hgraph with
    | node hnone hexecute => exact hsep
    | move hold hm =>
      intro b hb
      obtain rfl := Option.some.inj (hold.symm.trans hb)
      obtain ⟨agent, hown⟩ := h _ hold
      exact hown.findsOwn hm
    | _ => trivial
  | _ => exact ⟨trivial, h⟩

theorem accountable_of_separate {rec : Recording} {r r' : Recorder} {tr : List RecorderLabel} (h0 : Begins rec r)
    (h : Exec (fun r l r' => RecorderStep rec r l r' ∧ Separate rec.app r l) r tr r') :
    Exec (fun r l r' => RecorderStep rec r l r' ∧ Accountable r l) r tr r' := by
  have hrun := h.invariant (fun tr r' => Exec (fun r l r' => RecorderStep rec r l r' ∧ Accountable r l) r tr r' ∧
    Apart r'.graph) ⟨.refl, fun b hb => absurd (hb.symm.trans h0.batch) (by simp)⟩ ?_
  · exact hrun.1
  · intro tr t l u _ hbefore hs
    have hnow : Accountable t l ∧ Apart u.graph := hs.1.accountable hbefore.2 hs.2
    exact ⟨hbefore.1.snoc ⟨hs.1, hnow.1⟩, hnow.2⟩

/-- With workers, every branch has an agent object of its own. -/
theorem separate_of_celery {app : App} (h : app.useCelery = true) (r : Recorder) {l : RecorderLabel}
    (hl : ∀ e tokens, l = .graph (.node e tokens) → e.isDelivery = true → tokens = 0) : Separate app r l := by
  have hworker : ∀ batch i, batchAgent app batch i = .worker i := by
    intro batch i
    unfold batchAgent branchAgent
    cases batch[i]? with
    | none => rfl
    | some p => exact if_pos h
  cases l with
  | graph l =>
    cases l with
    | node e tokens => exact hl e tokens rfl
    | dispatched =>
      intro batch _ i j hij
      rw [hworker, hworker] at hij
      exact AgentRef.worker.inj hij
    | move m => trivial
    | gathered runs => trivial
  | _ => trivial

/-- The events have the tokens reported so far, but for those of the batch under way. -/
structure Balanced (c : Traced) (tokens : TokenUsage) : Prop where
  tokens : tokensOf c.events + c.unrecorded = tokens
  books : ∀ b, c.batch = some b → BooksKept b

/-- Step lemma. -/
theorem TracedStep.balanced {app : App} {r : Recorder} {c : Traced} {l : TraceLabel} {tokens : TokenUsage}
    (h : Balanced r.graph tokens) (hs : TracedStep app r.graph l c) (ha : Accountable r (.graph l)) :
    Balanced c (tokens + (RecorderLabel.graph l).tokens) := by
  obtain ⟨hsum, hbooks⟩ := h
  cases hs with
  | @node _ start ended reply e new hnone hexecute =>
    obtain ⟨events, hexecuted⟩ := exists_executed hexecute
    have hbefore : r.graph.unrecorded = 0 := by
      unfold Traced.unrecorded
      rw [hnone]
    have hafter : c.unrecorded = 0 := by
      unfold Traced.unrecorded
      rw [hexecuted.batch, hnone]
    -- no event has the tokens of the extractor, so there must be none
    have hnew : tokensOf events = new := by
      rw [hexecuted.tokens]
      split
      · rename_i hdelivery
        exact (ha hdelivery).symm
      · rfl
    refine ⟨?_, fun b hb => absurd (hb.symm.trans (hexecuted.batch.trans hnone)) (by simp)⟩
    rw [hbefore, add_zero] at hsum
    rw [hexecuted.events, tokensOf_append, hafter, add_zero, hsum, hnew]
    rfl
  | @dispatch batch hnone hn =>
    have hbefore : r.graph.unrecorded = 0 := by
      unfold Traced.unrecorded
      rw [hnone]
    rw [hbefore] at hsum
    refine ⟨hsum.trans (add_zero _).symm, fun b hb => ?_⟩
    obtain rfl := Option.some.inj hb
    exact booksKept_dispatch app r.graph batch
  | @move b m pool hb hm =>
    have hbefore : r.graph.unrecorded = tokensOfMoves b.moves := by
      unfold Traced.unrecorded
      rw [hb]
    have hmoves : tokensOfMoves (b.moves ++ [m]) = tokensOfMoves b.moves + reported m.cmd m.res := by
      simp [tokensOfMoves]
    refine ⟨?_, fun b' hb' => ?_⟩
    · show tokensOf r.graph.events + tokensOfMoves (b.moves ++ [m]) = tokens + reported m.cmd m.res
      rw [hmoves, ← add_assoc, ← hbefore, hsum]
    · obtain rfl := Option.some.inj hb'
      exact (hbooks b hb).move hm (ha b hb)
  | @gather b branches hb hr =>
    have hbefore : r.graph.unrecorded = tokensOfMoves b.moves := by
      unfold Traced.unrecorded
      rw [hb]
    refine ⟨?_, fun b' hb' => absurd (show none = some b' from hb') (by simp)⟩
    show tokensOf (r.graph.events ++ branches.map (·.event)) + 0 = tokens + 0
    rw [tokensOf_append, (hbooks b hb).gathered hr, ← hbefore, hsum]

/-- Only the graph gets replies. -/
theorem RecorderStep.balanced {rec : Recording} {r r' : Recorder} {l : RecorderLabel} {tokens : TokenUsage}
    (h : Balanced r.graph tokens) (hs : RecorderStep rec r l r') (ha : Accountable r l) :
    Balanced r'.graph (tokens + l.tokens) := by
  cases hs with
  | graph hp hgraph hl => exact hgraph.balanced h ha
  | _ => exact (add_zero tokens).symm ▸ h

/-- Token accounting is complete in every run that returns and whose steps are all accountable: the row of the task has
the tokens of all replies of the model, each counted once. -/
theorem totals_complete {rec : Recording} {r r' : Recorder} {tr : List RecorderLabel} (h0 : Begins rec r)
    (h : Exec (fun r l r' => RecorderStep rec r l r' ∧ Accountable r l) r tr r') (hret : r'.phase = .returned) :
    ∃ row, r'.store.getTask rec.taskId = some row ∧ row.totalInputTokens = (tokensReported tr).inputTokens ∧
      row.totalOutputTokens = (tokensReported tr).outputTokens := by
  have hbalanced : Balanced r'.graph (tokensReported tr) := by
    refine h.invariant (fun tr r => Balanced r.graph (tokensReported tr)) ⟨?_, fun b hb => ?_⟩ fun tr r l r' _ hb hs => ?_
    · unfold Traced.unrecorded
      rw [h0.events, h0.batch]
      rfl
    · exact absurd (hb.symm.trans h0.batch) (by simp)
    · rw [tokensReported_snoc]
      exact hs.1.balanced hb hs.2
  have hrun : Exec (RecorderStep rec) r tr r' := h.mono fun _ _ _ hs => hs.1
  obtain ⟨-, row, hrow, hclosed⟩ := row_of_returned h0 hrun hret
  have hbatch : r'.graph.batch = none := by
    rcases idle_of_exec h0 hrun with hin | hraised | hbatch
    · exact absurd (hret.symm.trans hin) (by simp)
    · exact absurd (hret.symm.trans hraised) (by simp)
    · exact hbatch
  have htokens : tokensOf r'.graph.events = tokensReported tr := by
    have hsum := hbalanced.tokens
    unfold Traced.unrecorded at hsum
    rwa [hbatch, add_zero] at hsum
  obtain ⟨hinput, houtput, -⟩ := spansOfEvents_totals rec.pricing r'.graph.events
  rw [← htokens]
  exact ⟨row, hrow, hclosed.totals.inputTokens.trans hinput, hclosed.totals.outputTokens.trans houtput⟩

/-- A run with a batch, without a memory. -/
theorem totals_approved : ∃ tr r row, Exec (RecorderStep sampleRecording) (sampleRecorder none) tr r ∧
    r.phase = .returned ∧ tokensReported tr = ⟨310, 155⟩ ∧ r.store.getTask "t" = some row ∧
    row.totalInputTokens = (tokensReported tr).inputTokens ∧ row.totalOutputTokens = (tokensReported tr).outputTokens := by
  have hscript : scriptEnds (guarded (Recorder.advance sampleRecording sampleAnswer) Accountable) (sampleRecorder none)
      (approvedScript .none) (fun tr r => decide (r.phase = .returned ∧ tokensReported tr = ⟨310, 155⟩)) = true := by
    decide +kernel
  obtain ⟨tr, r, hrun, hp⟩ := exists_run_with hscript
  obtain ⟨hret, htokens⟩ := of_decide_eq_true hp
  obtain ⟨row, hrow, hinput, houtput⟩ := totals_complete (begins_sampleRecorder none) hrun hret
  exact ⟨tr, r, row, hrun.mono fun _ _ _ hs => hs.1, hret, htokens, hrow, hinput, houtput⟩

/-- The same run with an extractor, whose reply has reported seven and three tokens. -/
theorem extractor_uncounted : ∃ extractor tr r row, Exec (RecorderStep sampleRecording) (sampleRecorder extractor) tr r ∧
    r.phase = .returned ∧ tokensReported tr = ⟨317, 158⟩ ∧ r.store.getTask "t" = some row ∧
    row.totalInputTokens = 310 ∧ row.totalOutputTokens = 155 := by
  have hscript : scriptEnds (Recorder.advance sampleRecording sampleAnswer)
      (sampleRecorder (some { modelName := "gpt-5", systemPrompt := "Extract." }))
      (approvedScript (.memory "m" 0 (sampleMessage 7 3) ⟨"One step after another.", [], [], ⟨1, by norm_num⟩⟩))
      (fun tr r => decide (r.phase = .returned ∧ tokensReported tr = ⟨317, 158⟩ ∧
        (r.store.getTask "t").map (fun row => (row.totalInputTokens, row.totalOutputTokens)) = some (310, 155))) =
      true := by
    decide +kernel
  obtain ⟨tr, r, hrun, hp⟩ := exists_run hscript
  obtain ⟨hret, htokens, htotals⟩ := of_decide_eq_true hp
  obtain ⟨row, hrow, hpair⟩ := Option.map_eq_some_iff.1 htotals
  obtain ⟨hinput, houtput⟩ := Prod.mk.inj hpair
  exact ⟨_, tr, r, row, hrun, hret, htokens, hrow, hinput, houtput⟩

end AgentOrchestrator
