import AgentOrchestrator.Lib.Dict
import AgentOrchestrator.Lib.Pool
import AgentOrchestrator.Schemas

/-!
# Working memory

One Redis hash for each task, named after it, with a time to live.  Each operation is a program over the Redis commands
it issues, and all of them name the hash of their task, so no task touches the hash of another (`get?_of_pool`).  The
JSON text of a value is the value itself.
-/

namespace AgentOrchestrator

/-- What the nodes save. -/
inductive WorkingValue where
  | text (text : String)
  | plan (plan : ExecutionPlan)
  | result (result : SubtaskResult)
  | review (result : ReviewResult)
  | escalation (escalation : EscalationRequest)
deriving DecidableEq

structure WorkingMemory where
  ttlSeconds : Int := 3600

namespace WorkingMemory

/-- The Redis commands of the working memory. -/
inductive Command where
  | hset (name key : String) (value : WorkingValue)
  | hget (name key : String)
  | hgetall (name : String)
  | expire (name : String) (ttl : Int)
  | delete (name : String)

def Response : Command → Type
  | .hset _ _ _ => Unit
  | .hget _ _ => Option WorkingValue
  | .hgetall _ => Dict String WorkingValue
  | .expire _ _ => Unit
  | .delete _ => Unit

def Command.name : Command → String
  | .hset name _ _ => name
  | .hget name _ => name
  | .hgetall name => name
  | .expire name _ => name
  | .delete name => name

/-- A hash, with the time to live that was last set. -/
structure Hash where
  fields : Dict String WorkingValue := ∅
  ttl : Option Int := none
deriving DecidableEq

abbrev Redis := Dict String Hash

/-- The fields of a hash; one that does not exist has none. -/
def fieldsOf (s : Redis) (name : String) : Dict String WorkingValue := ((s.get? name).map Hash.fields).getD ∅

/-- One command, executed atomically.  A time to live that is not positive deletes the hash. -/
def exec : (c : Command) → Redis → Response c × Redis
  | .hset name key value, s =>
    let hash := (s.get? name).getD {}
    ((), s.insert name { hash with fields := hash.fields.insert key value })
  | .hget name key, s => ((fieldsOf s name).get? key, s)
  | .hgetall name, s => (fieldsOf s name, s)
  | .expire name ttl, s =>
    match s.get? name with
    | none => ((), s)
    | some hash => ((), if 0 < ttl then s.insert name { hash with ttl := some ttl } else s.erase name)
  | .delete name, s => ((), s.erase name)

def Executes (c : Command) (s : Redis) (r : Response c) (t : Redis) : Prop := exec c s = (r, t)

abbrev Program (α : Type) := Prog Command Response α

/-! ### The operations -/

def key (taskId : String) : String := "task:" ++ taskId ++ ":working_memory"

def save (wm : WorkingMemory) (taskId field : String) (value : WorkingValue) : Program Unit := do
  Prog.perform (Command.hset (key taskId) field value)
  Prog.perform (Command.expire (key taskId) wm.ttlSeconds)

def get (taskId field : String) : Program (Option WorkingValue) := Prog.perform (Command.hget (key taskId) field)

def getAll (taskId : String) : Program (Dict String WorkingValue) := Prog.perform (Command.hgetall (key taskId))

def clear (taskId : String) : Program Unit := Prog.perform (Command.delete (key taskId))

/-! ### No task touches the hash of another -/

theorem key_injective {taskId taskId' : String} (h : key taskId = key taskId') : taskId = taskId' := by
  have hchars := congrArg String.toList h
  simp only [key, String.toList_append, List.append_cancel_right_eq, List.append_cancel_left_eq] at hchars
  exact String.toList_injective hchars

theorem get?_exec_of_ne {c : Command} {name : String} (h : name ≠ c.name) (s : Redis) :
    (exec c s).2.get? name = s.get? name := by
  cases c with
  | hset name' key value => exact (Dict.get?_insert ..).trans (if_neg h)
  | hget name' key => rfl
  | hgetall name' => rfl
  | expire name' ttl =>
    cases hs : s.get? name' with
    | none => simp only [exec, hs]
    | some hash =>
      by_cases ht : 0 < ttl
      · simp only [exec, hs, if_pos ht]
        exact (Dict.get?_insert ..).trans (if_neg h)
      · simp only [exec, hs, if_neg ht]
        exact (Dict.get?_erase ..).trans (if_neg h)
  | delete name' => exact (Dict.get?_erase ..).trans (if_neg h)

/-- The commands on the hash of a task. -/
abbrev onTask (taskId : String) : Protocol Command Response Unit := .only fun c => c.name = key taskId

/-- The program issues only commands on the hash of the task. -/
def Only (taskId : String) (p : Program Unit) : Prop := p.Follows (onTask taskId) (fun _ _ => True) ()

theorem only_pure (taskId : String) : Only taskId (pure ()) := trivial

theorem only_save (wm : WorkingMemory) (taskId field : String) (value : WorkingValue) :
    Only taskId (wm.save taskId field value) := ⟨rfl, fun _ _ => ⟨rfl, fun _ _ => trivial⟩⟩

theorem only_clear (taskId : String) : Only taskId (clear taskId) := ⟨rfl, fun _ _ => trivial⟩

theorem Only.bind {taskId : String} {p q : Program Unit} (hp : Only taskId p) (hq : Only taskId q) :
    Only taskId (p >>= fun _ => q) := Prog.Follows.bind hp fun _ _ _ => hq

theorem get?_of_executes {taskId name : String} (h : name ≠ key taskId) {c : Command} {s t : Redis} {r : Response c}
    (hc : c.name = key taskId) (he : Executes c s r t) : t.get? name = s.get? name := by
  have hne : name ≠ c.name := fun heq => h (heq.trans hc)
  have ht : t = (exec c s).2 := (congrArg Prod.snd he).symm
  rw [ht]
  exact get?_exec_of_ne hne s

/-- A program of one task leaves every other hash as it is. -/
theorem Only.get?_eval {taskId name : String} {p : Program Unit} (hp : Only taskId p) (h : name ≠ key taskId)
    (s : Redis) : (p.eval exec s).2.get? name = s.get? name := by
  have hrun : p.Runs Executes s (p.eval exec s).1 (p.eval exec s).2 := Prog.runs_of_eval (fun _ _ => rfl) p s
  obtain ⟨-, -, hname⟩ := Prog.Follows.runs (I := fun _ t => Dict.get? t name = Dict.get? s name)
    (fun _ _ _ _ _ ht hc he => ⟨trivial, (get?_of_executes h hc he).trans ht⟩) hp rfl hrun
  exact hname

/-- So do several programs of one task, in whatever order their commands come. -/
theorem get?_of_pool {taskId name : String} {s : Redis} {ps : List (Program Unit)} (hps : ∀ p ∈ ps, Only taskId p)
    (h : name ≠ key taskId) {tr : List (Move Command Response)} {pool : Pool Command Response Redis Unit}
    (hr : Exec (Pool.Step Executes) ⟨s, ps⟩ tr pool) : pool.store.get? name = s.get? name := by
  have hfollow : Pool.Follow (fun _ => onTask taskId) (fun _ _ _ => True) (fun _ => ()) ⟨s, ps⟩ := by
    intro i p hi
    exact hps p (List.mem_of_getElem? hi)
  exact hfollow.invariant_only (fun t => t.get? name = s.get? name)
    (fun _ _ _ _ hc he ht => (get?_of_executes h hc he).trans ht) rfl hr

/-- A task that has been cleared has no hash. -/
theorem get?_clear (taskId : String) (s : Redis) : ((clear taskId).eval exec s).2.get? (key taskId) = none := by
  show (s.erase (key taskId)).get? (key taskId) = none
  rw [Dict.get?_erase, if_pos rfl]

theorem getAll_eq_empty {taskId : String} {s : Redis} (h : s.get? (key taskId) = none) :
    ((getAll taskId).eval exec s).1 = ∅ := by
  show fieldsOf s (key taskId) = ∅
  unfold fieldsOf
  rw [h]
  rfl

end WorkingMemory

end AgentOrchestrator
