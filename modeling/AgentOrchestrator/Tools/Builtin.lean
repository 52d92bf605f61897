import AgentOrchestrator.Lib.FileView
import AgentOrchestrator.Lib.Text
import AgentOrchestrator.Tools.ApiCall
import AgentOrchestrator.Tools.Registry
import AgentOrchestrator.Tools.Sandbox

/-!
# The built-in tools

What the tools of the program work on is a `Machine`: a tree of files, and whatever else there is.  The schemas of the
arguments, the web, the interpreter and the database are an `Environment`; the tools for the web do not touch the files,
what the interpreter and the database do is left open.
-/

namespace AgentOrchestrator

structure Machine (E : Type) where
  files : FileTree
  rest : E

/-- A pydantic model: what it makes of the JSON text of the arguments, and the JSON text of that. -/
structure Schema (α : Type) where
  validate : String → Except String α
  dump : α → String

/-- How a run of the interpreter ends. -/
inductive PythonRun where
  | timedOut
  | completed (returncode : Int) (stdout stderr : String)
deriving DecidableEq

/-- The settings, the schemas, and what the program does not contain. -/
structure Environment (E : Type) where
  sandboxWorkdir : String
  codeExecutionTimeoutSeconds : String
  tavilyApiKey : Option String
  unicode : Unicode
  webSearchInput : Schema (String × Int)
  fileReadInput : Schema String
  fileWriteInput : Schema (String × String)
  codeExecutionInput : Schema String
  dbQueryInput : Schema String
  apiCallInput : Schema (String × String × Option String)
  /-- The texts of the exceptions of the file system. -/
  fileMessage : FileError → String
  urlMessage : UrlError → String
  /-- The answer of the search service: titles and URLs. -/
  tavily : String → String → Int → E → Except String (List (String × String)) × E
  /-- The web as a call finds it, and what is left after its connections. -/
  web : E → Web
  connected : List IpAddress → E → E
  /-- Write the code to a file in a directory, run the file there, remove it. -/
  tempFile : List String → String → Machine E → Except String (List String) × Machine E
  python : List String → List String → Machine E → PythonRun × Machine E
  unlink : List String → Machine E → Machine E
  /-- The columns and the rows that a statement gives on a database file, as texts. -/
  sqlite : List String → String → Machine E → Except String (List String × List (List String)) × Machine E

namespace Environment

variable {E : Type} (env : Environment E)

def sandboxMessage (e : SandboxError) : String :=
  match e with
  | .system e => env.fileMessage e
  | e => e.message?.getD ""

def apiCallMessage (e : ApiCallError) : String :=
  match e with
  | .invalidUrl e => env.urlMessage e
  | e => e.message?.getD ""

/-! ### The functions of the tools -/

def webSearch (query : String) (maxResults : Int) (m : Machine E) : Except String String × Machine E :=
  match env.tavilyApiKey.filter fun key => key ≠ "" with
  | none => (.ok ("[web_search stub] No TAVILY_API_KEY configured; would have searched for: " ++
      "'" ++ query ++ "' (max_results=" ++ toString maxResults ++ ")."), m)
  | some key =>
    match env.tavily key query maxResults m.rest with
    | (.error e, rest) => (.error e, { m with rest })
    | (.ok results, rest) =>
      let lines := results.map fun r => "- " ++ r.1 ++ ": " ++ r.2
      let text := "\n".intercalate lines
      (.ok (if text = "" then "No results found." else text), { m with rest })

def readFile (path : String) (m : Machine E) : Except String String × Machine E :=
  let (output, files) := fileRead env.sandboxWorkdir path m.files
  (output.mapError env.sandboxMessage, { m with files })

def writeFile (path content : String) (m : Machine E) : Except String String × Machine E :=
  let (output, files) := fileWrite env.sandboxWorkdir path content m.files
  (output.mapError env.sandboxMessage, { m with files })

def codeExecution (code : String) (m : Machine E) : Except String String × Machine E :=
  match sandboxDir env.sandboxWorkdir m.files with
  | (.error e, files) => (.error (env.sandboxMessage e), { m with files })
  | (.ok sandbox, files) =>
    match env.tempFile sandbox code { m with files } with
    | (.error e, m) => (.error e, m)
    | (.ok scriptPath, m) =>
      let (outcome, m) := env.python scriptPath sandbox m
      let m := env.unlink scriptPath m
      match outcome with
      | .timedOut => (.error ("Code execution exceeded " ++ env.codeExecutionTimeoutSeconds ++ "s timeout."), m)
      | .completed returncode stdout stderr =>
        if returncode ≠ 0 then
          let text := Text.strip stderr
          (.error (if text = "" then "Code execution failed with no stderr." else text), m)
        else (.ok (Text.strip stdout), m)

def dbQuery (sql : String) (m : Machine E) : Except String String × Machine E :=
  let normalized := env.unicode.lower (Text.strip sql).toList
  if "select".toList.isPrefixOf normalized = false then
    (.error "db_query only allows SELECT statements.", m)
  else
    match sandboxDir env.sandboxWorkdir m.files with
    | (.error e, files) => (.error (env.sandboxMessage e), { m with files })
    | (.ok sandbox, files) =>
      match env.sqlite (sandbox ++ ["app.db"]) sql { m with files } with
      | (.error e, m) => (.error e, m)
      | (.ok (columns, rows), m) =>
        if rows = [] then (.ok "No rows returned.", m)
        else
          let header := " | ".intercalate columns
          let body := "\n".intercalate (rows.map fun row => " | ".intercalate row)
          (.ok (header ++ "\n" ++ body), m)

def callApi (url method : String) (jsonBody : Option String) (m : Machine E) : Except String String × Machine E :=
  let (connections, output) := apiCall (env.web m.rest) url method jsonBody
  (output.mapError env.apiCallMessage, { m with rest := env.connected connections m.rest })

/-! ### Registering them -/

end Environment

/-- The function with its arguments as a JSON text. -/
def Schema.func {α W : Type} (schema : Schema α) (f : α → W → Except String String × W) (kwargs : String) (w : W) :
    Except String String × W :=
  match schema.validate kwargs with
  | .error e => (.error e, w)
  | .ok a => f a w

def Schema.kwargs {α : Type} (schema : Schema α) (args : String) : Except String String :=
  (schema.validate args).map schema.dump

def allSpecialists : List SpecialistType := [.research, .dataAnalysis, .writing, .codeExecution]

variable {E : Type}

def registerBuiltinTools (env : Environment E) (registry : ToolRegistry (Machine E)) :
    Except ToolError (ToolRegistry (Machine E)) := do
  let registry ← registry.register "web_search" "Search the web for a query, returns a list of titles + URLs."
    (env.webSearchInput.func fun a => env.webSearch a.1 a.2) [.research] env.webSearchInput.kwargs 20
  let registry ← registry.register "file_read" "Read a file's contents from the sandboxed workspace."
    (env.fileReadInput.func env.readFile) allSpecialists env.fileReadInput.kwargs 60
  let registry ← registry.register "file_write" "Write content to a file in the sandboxed workspace."
    (env.fileWriteInput.func fun a => env.writeFile a.1 a.2) allSpecialists env.fileWriteInput.kwargs 60
  let registry ← registry.register "code_execution"
    "Execute a Python snippet in a sandboxed subprocess and return stdout."
    (env.codeExecutionInput.func env.codeExecution) [.codeExecution, .dataAnalysis] env.codeExecutionInput.kwargs 15
  let registry ← registry.register "db_query" "Run a read-only SELECT query against the sandboxed SQLite database."
    (env.dbQueryInput.func env.dbQuery) [.dataAnalysis] env.dbQueryInput.kwargs 30
  registry.register "api_call" "Make an HTTP request to an external API (private/local hosts blocked)."
    (env.apiCallInput.func fun a => env.callApi a.1 a.2.1 a.2.2) [.research, .dataAnalysis] env.apiCallInput.kwargs 20

end AgentOrchestrator
