import AgentOrchestrator.Lib.Fallible
import AgentOrchestrator.Lib.FileView
import AgentOrchestrator.Tools.Builtin

/-!
# Tools that make no difference

Two tools `Match` for some specialists if they differ in their functions only, and if one of these specialists may call
them the functions have the same outcome on states that are related and leave them related.  Registries of tools that
match answer the calls of these specialists alike (`invoke_matching`).  The built-in tools match on machines that are
alike from the sandbox, for specialists that may neither run code nor query the database, whatever these two do
(`matching_builtin`).
-/

namespace AgentOrchestrator

open Fallible

/-! ### The sandbox from outside -/

section Sandbox

variable {workdir path : String} {t t' : FileTree} {sandbox : List String}

/-- Making the sandbox comes out alike. -/
theorem sandboxDir_alike (h : FileTree.Alike sandbox t t')
    (hhome : t.resolve (PurePath.ofString workdir) = .ok sandbox) :
    (∃ e, sandboxDir workdir t = (.error e, t) ∧ sandboxDir workdir t' = (.error e, t')) ∨
      ∃ u u', sandboxDir workdir t = (.ok sandbox, u) ∧ sandboxDir workdir t' = (.ok sandbox, u') ∧
        FileTree.Alike sandbox u u' ∧ FileTree.Within sandbox t u := by
  unfold sandboxDir
  rw [h.resolve_eq, hhome]
  dsimp only
  rcases h.mkdirs sandbox with ⟨e, he, he'⟩ | ⟨u, u', hu, hu', halike⟩
  · rw [he, he']
    exact Or.inl ⟨_, rfl, rfl⟩
  · rw [hu, hu']
    exact Or.inr ⟨u, u', rfl, rfl, halike, .mkdirs hu (Or.inl (List.prefix_refl _))⟩

/-- A path is resolved alike, and into the sandbox. -/
theorem resolveInSandbox_alike (h : FileTree.Alike sandbox t t') (hloops : t.LoopFree)
    (hhome : t.resolve (PurePath.ofString workdir) = .ok sandbox) (path : String) :
    (∃ e u u', resolveInSandbox workdir path t = (.error e, u) ∧ resolveInSandbox workdir path t' = (.error e, u') ∧
        FileTree.Alike sandbox u u' ∧ FileTree.Within sandbox t u) ∨
      ∃ target u u', resolveInSandbox workdir path t = (.ok target, u) ∧
        resolveInSandbox workdir path t' = (.ok target, u') ∧ FileTree.Alike sandbox u u' ∧
        FileTree.Within sandbox t u ∧ sandbox <+: target ∧ u.Canonical target := by
  unfold resolveInSandbox
  rcases sandboxDir_alike h hhome with ⟨e, he, he'⟩ | ⟨u, u', hu, hu', halike, hwithin⟩
  · rw [he, he']
    exact Or.inl ⟨e, t, t', rfl, rfl, h, .refl sandbox t⟩
  · rw [hu, hu']
    dsimp only
    rw [halike.resolve_eq]
    cases htarget : u.resolve (PurePath.join ⟨true, sandbox⟩ (PurePath.ofString path)) with
    | error e => exact Or.inl ⟨_, u, u', rfl, rfl, halike, hwithin⟩
    | ok target =>
      dsimp only
      by_cases hout : sandbox ∉ parents target ∧ target ≠ sandbox
      · rw [if_pos hout, if_pos hout]
        exact Or.inl ⟨_, u, u', rfl, rfl, halike, hwithin⟩
      · rw [if_neg hout, if_neg hout]
        exact Or.inr ⟨target, u, u', rfl, rfl, halike, hwithin, inside_iff.1 hout,
          FileTree.canonical_of_resolve (hloops.of_links hwithin.link) htarget⟩

/-- The same comes out, of trees that are alike, in trees that are alike, and all that has changed is in the sandbox. -/
structure Confined {α : Type} (sandbox : List String) (t : FileTree) (x x' : Except SandboxError α × FileTree) :
    Prop where
  fst : x'.1 = x.1
  alike : FileTree.Alike sandbox x.2 x'.2
  within : FileTree.Within sandbox t x.2

theorem fileRead_confined (h : FileTree.Alike sandbox t t') (hloops : t.LoopFree)
    (hhome : t.resolve (PurePath.ofString workdir) = .ok sandbox) (path : String) :
    Confined sandbox t (fileRead workdir path t) (fileRead workdir path t') := by
  unfold fileRead
  rcases resolveInSandbox_alike h hloops hhome path with
    ⟨e, u, u', he, he', halike, hwithin⟩ | ⟨target, u, u', hu, hu', halike, hwithin, hinside, hcanonical⟩
  · rw [he, he']
    exact ⟨rfl, halike, hwithin⟩
  · rw [hu, hu']
    dsimp only
    rw [halike.isFile_eq hcanonical hinside, halike.readText_eq hcanonical hinside]
    by_cases hfile : u.isFile target = false
    · rw [if_pos hfile, if_pos hfile]
      exact ⟨rfl, halike, hwithin⟩
    · rw [if_neg hfile, if_neg hfile]
      cases u.readText target with
      | error e => exact ⟨rfl, halike, hwithin⟩
      | ok text => exact ⟨rfl, halike, hwithin⟩

/-- A sandbox with a loop of links, and a link that leads out of it. -/
def loopTree : FileTree where
  nodes := ⟨[([], .dir), (["srv"], .dir), (["srv", "box"], .dir), (["srv", "box", "loop"], .link "loop"),
    (["srv", "box", "out"], .link "../box2"), (["srv", "box2"], .dir), (["srv", "box2", "key"], .file "secret")], by decide⟩
  cwd := ["srv"]
  root_eq := by decide
  cwd_eq := by decide
  parent_eq := by decide
  names := by decide

-- behind the loop the other link is not resolved, and the check does not see where it leads
example : (fileRead "./box" "loop/../out/key" loopTree).1 = .ok "secret" := by decide +kernel

theorem fileWrite_confined (h : FileTree.Alike sandbox t t') (hloops : t.LoopFree)
    (hhome : t.resolve (PurePath.ofString workdir) = .ok sandbox) (path content : String) :
    Confined sandbox t (fileWrite workdir path content t) (fileWrite workdir path content t') := by
  unfold fileWrite
  rcases resolveInSandbox_alike h hloops hhome path with
    ⟨e, u, u', he, he', halike, hwithin⟩ | ⟨target, u, u', hu, hu', halike, hwithin, hinside, hcanonical⟩
  · rw [he, he']
    exact ⟨rfl, halike, hwithin⟩
  · rw [hu, hu']
    dsimp only
    -- the directories above the file lie in the sandbox or above it
    have hbase : sandbox <+: target.dropLast ∨ target.dropLast <+: sandbox :=
      List.prefix_or_prefix_of_prefix hinside (List.dropLast_prefix target)
    rcases halike.mkdirs target.dropLast with ⟨e, he, he'⟩ | ⟨v, v', hv, hv', halike'⟩
    · rw [he, he']
      exact ⟨rfl, halike, hwithin⟩
    · rw [hv, hv']
      dsimp only
      have hwithin' := hwithin.trans (.mkdirs hv hbase)
      have hcanonical' : v.Canonical target := (FileTree.made_of_mkdirs hv).canonical hcanonical
      rcases halike'.writeText target content with ⟨e, he, he'⟩ | ⟨w, w', hw, hw', halike''⟩
      · rw [he, he']
        exact ⟨rfl, halike', hwithin'⟩
      · rw [hw, hw']
        exact ⟨rfl, halike'', hwithin'.trans (.writeText hcanonical' hw hinside)⟩

end Sandbox

/-! ### Registries of tools that match -/

section Matching

variable {W : Type} {T : SpecialistType → Prop} {R : W → W → Prop}

structure ToolsMatch (T : SpecialistType → Prop) (R : W → W → Prop) (tool tool' : RegisteredTool W) : Prop where
  same : tool' = { tool with func := tool'.func }
  func : (∃ s ∈ tool.allowedSpecialists, T s) → ∀ kwargs w w', R w w' →
    (tool'.func kwargs w').1 = (tool.func kwargs w).1 ∧ R (tool.func kwargs w).2 (tool'.func kwargs w').2

def MatchingTools (T : SpecialistType → Prop) (R : W → W → Prop) (tools tools' : Dict String (RegisteredTool W)) :
    Prop :=
  ∀ name, Option.Rel (ToolsMatch T R) (tools.get? name) (tools'.get? name)

variable {tools tools' : Dict String (RegisteredTool W)} {tool tool' : RegisteredTool W}

theorem ToolsMatch.withTimestamps (h : ToolsMatch T R tool tool') (stamps : List ℚ) :
    ToolsMatch T R (tool.withTimestamps stamps) (tool'.withTimestamps stamps) := by
  refine ⟨?_, h.func⟩
  rw [h.same]
  rfl

theorem MatchingTools.insert (h : MatchingTools T R tools tools') (ht : ToolsMatch T R tool tool') (name : String) :
    MatchingTools T R (tools.insert name tool) (tools'.insert name tool') := by
  intro k
  rw [Dict.get?_insert, Dict.get?_insert]
  split
  · exact .some ht
  · exact h k

theorem MatchingTools.cases (h : MatchingTools T R tools tools') (name : String) :
    (tools.get? name = none ∧ tools'.get? name = none) ∨
      ∃ tool tool', tools.get? name = some tool ∧ tools'.get? name = some tool' ∧ ToolsMatch T R tool tool' := by
  have hrel := h name
  cases hget : tools.get? name with
  | none =>
    cases hget' : tools'.get? name with
    | none => exact Or.inl ⟨rfl, rfl⟩
    | some tool' =>
      rw [hget, hget'] at hrel
      cases hrel
  | some tool =>
    cases hget' : tools'.get? name with
    | none =>
      rw [hget, hget'] at hrel
      cases hrel
    | some tool' =>
      rw [hget, hget'] at hrel
      cases hrel with
      | some hmatches => exact Or.inr ⟨tool, tool', rfl, rfl, hmatches⟩

/-- A call by one of the specialists is answered alike. -/
theorem invoke_matching (h : MatchingTools T R tools tools') {specialist : SpecialistType} (hs : T specialist)
    (callLog : List ToolCallLog) (toolName kwargs : String) (readings : Readings) {w w' : W} (hw : R w w') :
    let x := ToolRegistry.invoke toolName specialist kwargs readings ⟨tools, callLog⟩ w
    let x' := ToolRegistry.invoke toolName specialist kwargs readings ⟨tools', callLog⟩ w'
    x'.1 = x.1 ∧ MatchingTools T R x.2.1.tools x'.2.1.tools ∧ R x.2.2 x'.2.2 := by
  rcases h.cases toolName with ⟨hget, hget'⟩ | ⟨tool, tool', hget, hget', hmatches⟩
  · rw [ToolRegistry.invoke_of_none hget, ToolRegistry.invoke_of_none hget']
    exact ⟨rfl, h, hw⟩
  · -- the two tools have the same specialists, the same limit and the same calls
    have hsame := hmatches.same
    have hallowed_eq : tool'.allowedSpecialists = tool.allowedSpecialists := by rw [hsame]
    have hlimit : tool'.rateLimitPerMinute = tool.rateLimitPerMinute := by rw [hsame]
    have hstamps : tool'.callTimestamps = tool.callTimestamps := by rw [hsame]
    have hname : tool'.name = tool.name := by rw [hsame]
    by_cases hallowed : specialist ∈ tool.allowedSpecialists
    · by_cases hlt : (Window.prune 60 readings.now tool.callTimestamps).length < tool.rateLimitPerMinute
      · have hlt' : (Window.prune 60 readings.now tool'.callTimestamps).length < tool'.rateLimitPerMinute := by
          rwa [hstamps, hlimit]
        obtain ⟨hout, hrel⟩ := hmatches.func ⟨specialist, hallowed, hs⟩ kwargs w w' hw
        rw [ToolRegistry.invoke_of_admitted hget hallowed (RegisteredTool.checkRateLimit_of_lt hlt),
          ToolRegistry.invoke_of_admitted hget' (hallowed_eq ▸ hallowed) (RegisteredTool.checkRateLimit_of_lt hlt'),
          hout, hstamps]
        exact ⟨rfl, h.insert (hmatches.withTimestamps _) toolName, hrel⟩
      · have hle := not_lt.1 hlt
        have hle' : tool'.rateLimitPerMinute ≤ (Window.prune 60 readings.now tool'.callTimestamps).length := by
          rwa [hstamps, hlimit]
        rw [ToolRegistry.invoke_of_refused hget hallowed (RegisteredTool.checkRateLimit_of_le hle),
          ToolRegistry.invoke_of_refused hget' (hallowed_eq ▸ hallowed) (RegisteredTool.checkRateLimit_of_le hle'),
          hname, hlimit, hstamps]
        exact ⟨rfl, h.insert (hmatches.withTimestamps _) toolName, hw⟩
    · rw [ToolRegistry.invoke_of_not_allowed hget hallowed,
        ToolRegistry.invoke_of_not_allowed hget' fun hmem => hallowed (hallowed_eq ▸ hmem)]
      exact ⟨rfl, h, hw⟩

/-- Registering tools that match keeps the registries matching. -/
theorem register_matching {registry registry' registry₁ registry₁' : ToolRegistry W} {name description : String}
    {func func' : String → W → Except String String × W} {allowedSpecialists : List SpecialistType}
    {argsSchema : String → Except String String} {rateLimitPerMinute : Nat}
    (h : MatchingTools T R registry.tools registry'.tools)
    (hfunc : (∃ s ∈ allowedSpecialists, T s) → ∀ kwargs w w', R w w' →
      (func' kwargs w').1 = (func kwargs w).1 ∧ R (func kwargs w).2 (func' kwargs w').2)
    (hr : registry.register name description func allowedSpecialists argsSchema rateLimitPerMinute = .ok registry₁)
    (hr' : registry'.register name description func' allowedSpecialists argsSchema rateLimitPerMinute =
      .ok registry₁') : MatchingTools T R registry₁.tools registry₁'.tools := by
  unfold ToolRegistry.register at hr hr'
  rcases h.cases name with ⟨hget, hget'⟩ | ⟨tool, tool', hget, -, -⟩
  · rw [hget] at hr
    rw [hget'] at hr'
    obtain rfl := Except.ok.inj hr
    obtain rfl := Except.ok.inj hr'
    exact h.insert ⟨rfl, hfunc⟩ name
  · rw [hget] at hr
    exact absurd hr (by simp)

end Matching

/-! ### The built-in tools -/

section Builtin

variable {E : Type} {env env' : Environment E} {sandbox : List String} {t : FileTree} {m m' : Machine E}

/-- The two environments differ in the interpreter and the database only. -/
def SameButCode (env env' : Environment E) : Prop :=
  env' = { env with
    tempFile := env'.tempFile
    python := env'.python
    unlink := env'.unlink
    sqlite := env'.sqlite }

/-- The machines are alike from the sandbox, what has changed since `t` is in it, and there are no loops of links. -/
structure View (workdir : String) (sandbox : List String) (t : FileTree) (m m' : Machine E) : Prop where
  rest : m'.rest = m.rest
  alike : FileTree.Alike sandbox m.files m'.files
  within : FileTree.Within sandbox t m.files
  loops : m.files.LoopFree
  home : m.files.resolve (PurePath.ofString workdir) = .ok sandbox

/-- Neither runs code nor queries the database. -/
def WithoutCode (s : SpecialistType) : Prop := s = .research ∨ s = .writing

/-- A file tool on machines that are alike. -/
theorem View.files {workdir : String} {x x' : Except SandboxError String × FileTree}
    (h : View workdir sandbox t m m') (hx : Confined sandbox m.files x x') :
    View workdir sandbox t { m with files := x.2 } { m' with files := x'.2 } where
  rest := h.rest
  alike := hx.alike
  within := h.within.trans hx.within
  loops := h.loops.of_links hx.within.link
  home := (hx.within.resolve_eq _).trans h.home

theorem Schema.func_alike {α W : Type} {R : W → W → Prop} {schema : Schema α}
    {f f' : α → W → Except String String × W} {kwargs : String} {w w' : W} (hw : R w w')
    (h : ∀ a, (f' a w').1 = (f a w).1 ∧ R (f a w).2 (f' a w').2) :
    (schema.func f' kwargs w').1 = (schema.func f kwargs w).1 ∧
      R (schema.func f kwargs w).2 (schema.func f' kwargs w').2 := by
  unfold Schema.func
  cases schema.validate kwargs with
  | error e => exact ⟨rfl, hw⟩
  | ok a => exact h a

theorem readFile_alike (h : View env.sandboxWorkdir sandbox t m m') (path : String) :
    (env.readFile path m').1 = (env.readFile path m).1 ∧
      View env.sandboxWorkdir sandbox t (env.readFile path m).2 (env.readFile path m').2 := by
  have hconfined := fileRead_confined h.alike h.loops h.home path
  exact ⟨congrArg (Except.mapError env.sandboxMessage) hconfined.fst, h.files hconfined⟩

theorem writeFile_alike (h : View env.sandboxWorkdir sandbox t m m') (path content : String) :
    (env.writeFile path content m').1 = (env.writeFile path content m).1 ∧
      View env.sandboxWorkdir sandbox t (env.writeFile path content m).2 (env.writeFile path content m').2 := by
  have hconfined := fileWrite_confined h.alike h.loops h.home path content
  exact ⟨congrArg (Except.mapError env.sandboxMessage) hconfined.fst, h.files hconfined⟩

theorem callApi_alike (h : View env.sandboxWorkdir sandbox t m m') (url method : String) (jsonBody : Option String) :
    (env.callApi url method jsonBody m').1 = (env.callApi url method jsonBody m).1 ∧
      View env.sandboxWorkdir sandbox t (env.callApi url method jsonBody m).2
        (env.callApi url method jsonBody m').2 := by
  unfold Environment.callApi
  rw [h.rest]
  exact ⟨rfl, rfl, h.alike, h.within, h.loops, h.home⟩

theorem webSearch_alike (h : View env.sandboxWorkdir sandbox t m m') (query : String) (maxResults : Int) :
    (env.webSearch query maxResults m').1 = (env.webSearch query maxResults m).1 ∧
      View env.sandboxWorkdir sandbox t (env.webSearch query maxResults m).2
        (env.webSearch query maxResults m').2 := by
  unfold Environment.webSearch
  cases env.tavilyApiKey.filter fun key => key ≠ "" with
  | none => exact ⟨rfl, h⟩
  | some key =>
    dsimp only
    rw [h.rest]
    cases env.tavily key query maxResults m.rest with
    | mk results rest =>
      cases results with
      | error e => exact ⟨rfl, rfl, h.alike, h.within, h.loops, h.home⟩
      | ok results => exact ⟨rfl, rfl, h.alike, h.within, h.loops, h.home⟩

/-- The built-in tools match for specialists that may neither run code nor query the database. -/
theorem matching_builtin {registry registry' : ToolRegistry (Machine E)} (henv : SameButCode env env')
    (hr : registerBuiltinTools env {} = .ok registry) (hr' : registerBuiltinTools env' {} = .ok registry') :
    MatchingTools WithoutCode (View env.sandboxWorkdir sandbox t) registry.tools registry'.tools := by
  unfold registerBuiltinTools at hr hr'
  rw [henv] at hr'
  obtain ⟨r₁, h₁, hr⟩ := bind_eq_ok_iff.1 hr
  obtain ⟨r₁', h₁', hr'⟩ := bind_eq_ok_iff.1 hr'
  obtain ⟨r₂, h₂, hr⟩ := bind_eq_ok_iff.1 hr
  obtain ⟨r₂', h₂', hr'⟩ := bind_eq_ok_iff.1 hr'
  obtain ⟨r₃, h₃, hr⟩ := bind_eq_ok_iff.1 hr
  obtain ⟨r₃', h₃', hr'⟩ := bind_eq_ok_iff.1 hr'
  obtain ⟨r₄, h₄, hr⟩ := bind_eq_ok_iff.1 hr
  obtain ⟨r₄', h₄', hr'⟩ := bind_eq_ok_iff.1 hr'
  obtain ⟨r₅, h₅, h₆⟩ := bind_eq_ok_iff.1 hr
  obtain ⟨r₅', h₅', h₆'⟩ := bind_eq_ok_iff.1 hr'
  have hempty : MatchingTools WithoutCode (View env.sandboxWorkdir sandbox t)
      ({} : ToolRegistry (Machine E)).tools ({} : ToolRegistry (Machine E)).tools := fun _ => .none
  refine register_matching (register_matching (register_matching (register_matching (register_matching
    (register_matching hempty ?_ h₁ h₁') ?_ h₂ h₂') ?_ h₃ h₃') ?_ h₄ h₄') ?_ h₅ h₅') ?_ h₆ h₆'
  · exact fun _ kwargs w w' hw => Schema.func_alike hw fun a => webSearch_alike hw a.1 a.2
  · exact fun _ kwargs w w' hw => Schema.func_alike hw fun a => readFile_alike hw a
  · exact fun _ kwargs w w' hw => Schema.func_alike hw fun a => writeFile_alike hw a.1 a.2
  · rintro ⟨s, hs, rfl | rfl⟩
    · exact absurd hs (by decide)
    · exact absurd hs (by decide)
  · rintro ⟨s, hs, rfl | rfl⟩
    · exact absurd hs (by decide)
    · exact absurd hs (by decide)
  · exact fun _ kwargs w w' hw => Schema.func_alike hw fun a => callApi_alike hw a.1 a.2.1 a.2.2

end Builtin

end AgentOrchestrator
