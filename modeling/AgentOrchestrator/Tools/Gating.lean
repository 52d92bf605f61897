import AgentOrchestrator.Tools.Registry

/-!
# Gating

Over any sequence of calls the registry does what the history of the calls says (`expected`): its deques are a
representation of that history (`Tracks`), and `invoke_spec` is the step of the refinement.
-/

namespace AgentOrchestrator.ToolRegistry

variable {W : Type}

structure Call where
  toolName : String
  specialist : SpecialistType
  kwargs : String
  readings : Readings
deriving DecidableEq

abbrev State (W : Type) := ToolRegistry W × W

/-- The calls so far, each with what it has raised or returned. -/
abbrev History := List (Call × Except ToolError ToolCallLog)

/-- One call. -/
def Call.invoke (call : Call) (st : State W) : Except ToolError ToolCallLog × State W :=
  st.1.invoke call.toolName call.specialist call.kwargs call.readings st.2

def after (calls : List Call) (st : State W) : State W := calls.foldl (fun st call => (call.invoke st).2) st

def history : List Call → State W → History
  | [], _ => []
  | call :: calls, st => (call, (call.invoke st).1) :: history calls (call.invoke st).2

theorem after_append (calls calls' : List Call) (st : State W) :
    after (calls ++ calls') st = after calls' (after calls st) := List.foldl_append

theorem history_append (calls calls' : List Call) (st : State W) :
    history (calls ++ calls') st = history calls st ++ history calls' (after calls st) := by
  induction calls generalizing st with
  | nil => rfl
  | cons call calls ih => exact congrArg (_ :: ·) (ih _)

/-- The times of the calls of a tool that have been admitted. -/
def admittedTimes (toolName : String) (hist : History) : List ℚ :=
  hist.filterMap fun e => if e.1.toolName = toolName ∧ e.2.isOk then some e.1.readings.now else none

theorem admittedTimes_snoc (toolName : String) (hist : History) (call : Call) (answer : Except ToolError ToolCallLog) :
    admittedTimes toolName (hist ++ [(call, answer)]) =
      if call.toolName = toolName ∧ answer.isOk then admittedTimes toolName hist ++ [call.readings.now]
      else admittedTimes toolName hist := by
  unfold admittedTimes
  rw [List.filterMap_append]
  split <;> simp_all

/-- What a call raises or returns, and what its tool does, by the history of the calls before it. -/
def expected (start : ToolRegistry W) (hist : History) (call : Call) (world : W) : Except ToolError ToolCallLog × W :=
  match start.tools.get? call.toolName with
  | none => (.error (.toolNotFound call.toolName), world)
  | some tool =>
    if call.specialist ∉ tool.allowedSpecialists then
      (.error (.toolNotAllowed call.specialist call.toolName), world)
    else if tool.rateLimitPerMinute ≤
        Window.between (call.readings.now - 60) call.readings.now (admittedTimes call.toolName hist) then
      (.error (.rateLimitExceeded tool.name tool.rateLimitPerMinute), world)
    else
      let (output, world') := tool.func call.kwargs world
      (.ok (entry call.toolName call.kwargs call.readings output), world')

/-- The registry has the tools it started with, each with what is left of the times of its admitted calls. -/
def Tracks (start : ToolRegistry W) (latest : ℚ) (hist : History) (registry : ToolRegistry W) : Prop :=
  ∀ name, ∃ stamps, registry.tools.get? name = (start.tools.get? name).map (·.withTimestamps stamps) ∧
    Window.Holds 60 latest (admittedTimes name hist) stamps

variable {start registry : ToolRegistry W} {latest now : ℚ} {hist : History}

theorem Tracks.wait (h : Tracks start latest hist registry) (hnow : latest ≤ now) : Tracks start now hist registry := by
  intro name
  obtain ⟨stamps, hget, hholds⟩ := h name
  exact ⟨stamps, hget, hholds.wait hnow⟩

/-- A call that is not admitted leaves the history of its tool. -/
theorem Tracks.refused (h : Tracks start latest hist registry) (call : Call) (e : ToolError) :
    Tracks start latest (hist ++ [(call, .error e)]) registry := by
  intro name
  rw [admittedTimes_snoc, if_neg (by simp [Except.isOk, Except.toBool])]
  exact h name

/-- The entry of the tool called is replaced. -/
theorem Tracks.insert {call : Call} {answer : Except ToolError ToolCallLog} {tool : RegisteredTool W}
    {stamps : List ℚ} (h : Tracks start now hist registry) (htool : start.tools.get? call.toolName = some tool)
    (hholds : Window.Holds 60 now (admittedTimes call.toolName (hist ++ [(call, answer)])) stamps)
    (callLog : List ToolCallLog) :
    Tracks start now (hist ++ [(call, answer)])
      { tools := registry.tools.insert call.toolName (tool.withTimestamps stamps), callLog } := by
  intro name
  by_cases hname : name = call.toolName
  · subst hname
    refine ⟨stamps, ?_, hholds⟩
    rw [Dict.get?_insert, if_pos rfl, htool]
    rfl
  · obtain ⟨stamps', hget, hholds'⟩ := h name
    refine ⟨stamps', ?_, ?_⟩
    · rw [Dict.get?_insert, if_neg hname, hget]
    · rw [admittedTimes_snoc, if_neg fun hcall => hname hcall.1.symm]
      exact hholds'

section Expected

variable {call : Call} {world : W} {tool : RegisteredTool W}

theorem expected_of_none (h : start.tools.get? call.toolName = none) :
    expected start hist call world = (.error (.toolNotFound call.toolName), world) := by
  unfold expected
  rw [h]

theorem expected_of_not_allowed (h : start.tools.get? call.toolName = some tool)
    (hallowed : call.specialist ∉ tool.allowedSpecialists) :
    expected start hist call world = (.error (.toolNotAllowed call.specialist call.toolName), world) := by
  unfold expected
  rw [h]
  exact if_pos hallowed

theorem expected_of_le (h : start.tools.get? call.toolName = some tool)
    (hallowed : call.specialist ∈ tool.allowedSpecialists)
    (hle : tool.rateLimitPerMinute ≤
      Window.between (call.readings.now - 60) call.readings.now (admittedTimes call.toolName hist)) :
    expected start hist call world = (.error (.rateLimitExceeded tool.name tool.rateLimitPerMinute), world) := by
  unfold expected
  rw [h]
  exact (if_neg (not_not_intro hallowed)).trans (if_pos hle)

theorem expected_of_lt (h : start.tools.get? call.toolName = some tool)
    (hallowed : call.specialist ∈ tool.allowedSpecialists)
    (hlt : Window.between (call.readings.now - 60) call.readings.now (admittedTimes call.toolName hist) <
      tool.rateLimitPerMinute) :
    expected start hist call world =
      (.ok (entry call.toolName call.kwargs call.readings (tool.func call.kwargs world).1),
        (tool.func call.kwargs world).2) := by
  unfold expected
  rw [h]
  exact (if_neg (not_not_intro hallowed)).trans (if_neg (not_le.2 hlt))

/-- A call whose tool runs is one of a specialist of the tool, below its limit. -/
theorem expected_ok {log : ToolCallLog} (h : (expected start hist call world).1 = .ok log) :
    ∃ tool, start.tools.get? call.toolName = some tool ∧ call.specialist ∈ tool.allowedSpecialists ∧
      Window.between (call.readings.now - 60) call.readings.now (admittedTimes call.toolName hist) <
        tool.rateLimitPerMinute := by
  cases hget : start.tools.get? call.toolName with
  | none =>
    rw [expected_of_none hget] at h
    exact absurd h (by simp)
  | some tool =>
    by_cases hallowed : call.specialist ∈ tool.allowedSpecialists
    · refine ⟨tool, rfl, hallowed, not_le.1 fun hle => ?_⟩
      rw [expected_of_le hget hallowed hle] at h
      exact absurd h (by simp)
    · rw [expected_of_not_allowed hget hallowed] at h
      exact absurd h (by simp)

end Expected

/-- The step of the refinement. -/
theorem invoke_spec {call : Call} {world : W} (h : Tracks start latest hist registry)
    (hnow : latest ≤ call.readings.now) :
    (call.invoke (registry, world)).1 = (expected start hist call world).1 ∧
      (call.invoke (registry, world)).2.2 = (expected start hist call world).2 ∧
      Tracks start call.readings.now (hist ++ [(call, (call.invoke (registry, world)).1)])
        (call.invoke (registry, world)).2.1 := by
  have hwait := h.wait hnow
  obtain ⟨stamps, hget, hholds⟩ := hwait call.toolName
  unfold Call.invoke
  cases htool : start.tools.get? call.toolName with
  | none =>
    rw [invoke_of_none (by rw [hget, htool]; rfl), expected_of_none htool]
    exact ⟨rfl, rfl, hwait.refused call _⟩
  | some tool =>
    have hget : registry.tools.get? call.toolName = some (tool.withTimestamps stamps) := by rw [hget, htool]; rfl
    by_cases hallowed : call.specialist ∈ tool.allowedSpecialists
    · have hkept : (Window.prune 60 call.readings.now (tool.withTimestamps stamps).callTimestamps).length = _ :=
        hholds.length_prune
      by_cases hlimit : tool.rateLimitPerMinute ≤
          Window.between (call.readings.now - 60) call.readings.now (admittedTimes call.toolName hist)
      · have hcheck : (tool.withTimestamps stamps).checkRateLimit call.readings.now =
            (.error (.rateLimitExceeded tool.name tool.rateLimitPerMinute),
              tool.withTimestamps (Window.prune 60 call.readings.now stamps)) :=
          RegisteredTool.checkRateLimit_of_le (hkept ▸ hlimit)
        rw [invoke_of_refused hget hallowed hcheck, expected_of_le htool hallowed hlimit]
        refine ⟨rfl, rfl, hwait.insert htool ?_ _⟩
        rw [admittedTimes_snoc, if_neg (by simp [Except.isOk, Except.toBool])]
        exact hholds.prune
      · have hcheck : (tool.withTimestamps stamps).checkRateLimit call.readings.now =
            (.ok (), tool.withTimestamps (Window.prune 60 call.readings.now stamps ++ [call.readings.now])) :=
          RegisteredTool.checkRateLimit_of_lt (hkept ▸ not_le.1 hlimit)
        rw [invoke_of_admitted hget hallowed hcheck, expected_of_lt htool hallowed (not_le.1 hlimit)]
        refine ⟨rfl, rfl, hwait.insert htool ?_ _⟩
        rw [admittedTimes_snoc, if_pos ⟨rfl, rfl⟩]
        exact hholds.prune.push
    · rw [invoke_of_not_allowed hget hallowed, expected_of_not_allowed htool hallowed]
      exact ⟨rfl, rfl, hwait.refused call _⟩

/-! ### Runs -/

section Runs

variable {calls : List Call} {world : W}

theorem tracks_start (h : start.Built) (now : ℚ) : Tracks start now [] start := by
  refine fun name => ⟨[], ?_, .start⟩
  cases hget : start.tools.get? name with
  | none => rfl
  | some tool =>
    obtain ⟨name, description, func, allowedSpecialists, argsSchema, limit, stamps⟩ := tool
    obtain rfl : stamps = [] := (h.tool hget).2
    rfl

theorem tracks_after (h : start.Built) (hsorted : (calls.map (·.readings.now)).Pairwise (· ≤ ·))
    (hnow : ∀ call ∈ calls, call.readings.now ≤ now) :
    Tracks start now (history calls (start, world)) (after calls (start, world)).1 := by
  induction calls using List.reverseRecOn generalizing now with
  | nil => exact tracks_start h now
  | append_singleton calls call ih =>
    rw [List.map_append, List.pairwise_append] at hsorted
    have hbefore := ih hsorted.1 fun call' hcall' =>
      hsorted.2.2 _ (List.mem_map_of_mem hcall') call.readings.now (by simp)
    rw [history_append, after_append]
    exact (invoke_spec hbefore le_rfl).2.2.wait (hnow call (by simp))

/-- What call after call is expected is what happens. -/
theorem invoke_eq_expected (h : start.Built) (world : W) (hsorted : (calls.map (·.readings.now)).Pairwise (· ≤ ·))
    {pre post : List Call} {call : Call} (hcalls : calls = pre ++ call :: post) :
    Tracks start call.readings.now (history pre (start, world)) (after pre (start, world)).1 ∧
      (call.invoke (after pre (start, world))).1 =
        (expected start (history pre (start, world)) call (after pre (start, world)).2).1 := by
  subst hcalls
  rw [List.map_append, List.pairwise_append] at hsorted
  have hbefore : Tracks start call.readings.now (history pre (start, world)) (after pre (start, world)).1 :=
    tracks_after h hsorted.1 fun call' hcall' => hsorted.2.2 _ (List.mem_map_of_mem hcall') _ (by simp)
  exact ⟨hbefore, (invoke_spec hbefore le_rfl).1⟩

/-- The limit holds in every window. -/
theorem within_history (h : start.Built) (hsorted : (calls.map (·.readings.now)).Pairwise (· ≤ ·)) {name : String}
    {tool : RegisteredTool W} (htool : start.tools.get? name = some tool) :
    Window.Within 60 tool.rateLimitPerMinute (admittedTimes name (history calls (start, world))) := by
  induction calls using List.reverseRecOn with
  | nil => exact .nil
  | append_singleton calls call ih =>
    obtain ⟨hbefore, hcall⟩ := invoke_eq_expected h world hsorted rfl
    rw [List.map_append, List.pairwise_append] at hsorted
    rw [history_append]
    show Window.Within _ _ (admittedTimes name (_ ++ [(call, (call.invoke (after calls (start, world))).1)]))
    rw [admittedTimes_snoc]
    split
    · rename_i hadmitted
      obtain ⟨rfl, hok⟩ := hadmitted
      obtain ⟨stamps, -, hholds⟩ := hbefore call.toolName
      cases hanswer : (call.invoke (after calls (start, world))).1 with
      | error e =>
        rw [hanswer] at hok
        exact absurd hok (by simp [Except.isOk, Except.toBool])
      | ok log =>
        obtain ⟨tool', htool', -, hlt⟩ := expected_ok (hcall.symm.trans hanswer)
        obtain rfl := Option.some.inj (htool.symm.trans htool')
        exact (ih hsorted.1).push hholds.le_latest hlt
    · exact ih hsorted.1

/-- Registries with the same history of admitted calls go on alike. -/
theorem history_eq_of_tracks (world : W) {registry registry' : ToolRegistry W} {latest : ℚ} {hist hist' : History}
    (h : Tracks start latest hist registry) (h' : Tracks start latest hist' registry')
    (hsame : ∀ name, admittedTimes name hist = admittedTimes name hist')
    (hsorted : (calls.map (·.readings.now)).Pairwise (· ≤ ·)) (hlatest : ∀ call ∈ calls, latest ≤ call.readings.now) :
    history calls (registry, world) = history calls (registry', world) := by
  induction calls generalizing registry registry' latest hist hist' world with
  | nil => rfl
  | cons call calls ih =>
    rw [List.map_cons, List.pairwise_cons] at hsorted
    obtain ⟨hcall, hworld, hnext⟩ := invoke_spec h (hlatest call List.mem_cons_self)
    obtain ⟨hcall', hworld', hnext'⟩ := invoke_spec h' (hlatest call List.mem_cons_self)
    have hexpected : expected start hist call world = expected start hist' call world := by
      unfold expected
      rw [hsame]
    have hanswer := hcall.trans ((congrArg Prod.fst hexpected).trans hcall'.symm)
    have hafter := hworld.trans ((congrArg Prod.snd hexpected).trans hworld'.symm)
    have hrest := ih (call.invoke (registry, world)).2.2 hnext hnext' (fun name => ?_) hsorted.2
      fun call' hcall' => hsorted.1 _ (List.mem_map_of_mem hcall')
    · unfold history
      rw [← hanswer]
      refine congrArg _ (hrest.trans ?_)
      rw [hafter]
    · rw [admittedTimes_snoc, admittedTimes_snoc, hsame, hanswer]

/-- A call that raises leaves no trace for the calls after it. -/
theorem history_of_raised {call : Call} {st : State W} (h : Tracks start call.readings.now hist st.1) {e : ToolError}
    (hraised : (call.invoke st).1 = .error e) (hsorted : (calls.map (·.readings.now)).Pairwise (· ≤ ·))
    (hlatest : ∀ call' ∈ calls, call.readings.now ≤ call'.readings.now) :
    history calls (call.invoke st).2 = history calls st := by
  obtain ⟨registry, world⟩ := st
  obtain ⟨-, -, hnext⟩ := invoke_spec h le_rfl
  have hworld : (call.invoke (registry, world)).2.2 = world := (invoke_error hraised).2
  rw [hraised] at hnext
  have hsame : ∀ name, admittedTimes name (hist ++ [(call, .error e)]) = admittedTimes name hist := by
    intro name
    rw [admittedTimes_snoc, if_neg (by simp [Except.isOk, Except.toBool])]
  have hrest := history_eq_of_tracks world hnext h hsame hsorted hlatest
  rw [← hrest]
  exact congrArg (fun w => history calls ((call.invoke (registry, world)).2.1, w)) hworld

end Runs

/-! ### The gate -/

/-- What holds of a sequence of calls.  The state of the functions shows that one of them has run. -/
structure Gated (start : ToolRegistry W) (world : W) (calls : List Call) : Prop where
  allowed : ∀ pre call post, calls = pre ++ call :: post →
    (∃ log, (call.invoke (after pre (start, world))).1 = .ok log) ∨
      (call.invoke (after pre (start, world))).2.2 ≠ (after pre (start, world)).2 →
    ∃ tool, start.tools.get? call.toolName = some tool ∧ call.specialist ∈ tool.allowedSpecialists
  within : ∀ name tool, start.tools.get? name = some tool →
    Window.Within 60 tool.rateLimitPerMinute (admittedTimes name (history calls (start, world)))
  refused : ∀ pre call post, calls = pre ++ call :: post →
    ∀ tool, start.tools.get? call.toolName = some tool → call.specialist ∈ tool.allowedSpecialists →
      ((call.invoke (after pre (start, world))).1 =
          .error (.rateLimitExceeded call.toolName tool.rateLimitPerMinute) ↔
        tool.rateLimitPerMinute ≤ Window.between (call.readings.now - 60) call.readings.now
          (admittedTimes call.toolName (history pre (start, world))))
  raised : ∀ pre call post e, calls = pre ++ call :: post → (call.invoke (after pre (start, world))).1 = .error e →
    (call.invoke (after pre (start, world))).2.1.callLog = (after pre (start, world)).1.callLog ∧
      history post (call.invoke (after pre (start, world))).2 = history post (after pre (start, world))

/-- Gating is sound and exact. -/
theorem gated (h : start.Built) (world : W) {calls : List Call}
    (hsorted : (calls.map (·.readings.now)).Pairwise (· ≤ ·)) : Gated start world calls where
  allowed pre call post hcalls hran := by
    obtain ⟨-, hcall⟩ := invoke_eq_expected h world hsorted hcalls
    have hok : ∃ log, (call.invoke (after pre (start, world))).1 = .ok log := by
      refine hran.elim id fun hworld => ?_
      cases hanswer : (call.invoke (after pre (start, world))).1 with
      | error e => exact absurd (invoke_error hanswer).2 hworld
      | ok log => exact ⟨log, rfl⟩
    obtain ⟨log, hlog⟩ := hok
    obtain ⟨tool, htool, hallowed, -⟩ := expected_ok (hcall.symm.trans hlog)
    exact ⟨tool, htool, hallowed⟩
  within name tool htool := within_history h hsorted htool
  refused pre call post hcalls tool htool hallowed := by
    obtain ⟨-, hcall⟩ := invoke_eq_expected h world hsorted hcalls
    rw [hcall]
    constructor
    · intro hrefused
      refine not_lt.1 fun hlt => ?_
      rw [expected_of_lt htool hallowed hlt] at hrefused
      exact absurd hrefused (by simp)
    · intro hle
      rw [expected_of_le htool hallowed hle, (h.tool htool).1]
  raised pre call post e hcalls hraised := by
    obtain ⟨hbefore, -⟩ := invoke_eq_expected h world hsorted hcalls
    refine ⟨(invoke_error hraised).1, ?_⟩
    subst hcalls
    rw [List.map_append, List.map_cons, List.pairwise_append, List.pairwise_cons] at hsorted
    exact history_of_raised hbefore hraised hsorted.2.1.2 fun call' hcall' =>
      hsorted.2.1.1 _ (List.mem_map_of_mem hcall')

/-- A registry with one tool, which gives back its arguments and may be called twice a minute. -/
def echo : ToolRegistry Unit where
  tools := .insert ∅ "echo" {
    name := "echo"
    description := "Echoes its input back."
    func := fun kwargs world => (.ok kwargs, world)
    allowedSpecialists := [.research]
    argsSchema := .ok
    rateLimitPerMinute := 2 }

theorem echo_built : echo.Built := .register .empty rfl

def echoCall (now : ℚ) : Call := ⟨"echo", .research, "{}", ⟨now, now, now⟩⟩

/-- A call at exactly 60 s is still refused, one after it is admitted. -/
theorem gated_echo : Gated echo () [echoCall 0, echoCall 1, echoCall 60, echoCall 61] ∧
    (history [echoCall 0, echoCall 1, echoCall 60, echoCall 61] (echo, ())).map (·.2.isOk) = [true, true, false, true] :=
  ⟨gated echo_built () (by decide), by decide +kernel⟩

end AgentOrchestrator.ToolRegistry
