import AgentOrchestrator.Graph.Invariant
import AgentOrchestrator.Lib.Crew
import AgentOrchestrator.Memory.Forgetting

/-!
# What a planner is told of the past

Any number of runs of the graph share one collection of memories: a run begins with a query, whose commands come one by
one, and ends with an `add`; meanwhile memories are consolidated, expire and are deleted.  What is stored comes from the
records that runs have extracted (`Stocked`), and so does what a call in progress has read (`Reads`).  The memory that
is given to the planner is what the query of its run has returned (`Found`), followed by the guidance of the human
(`Told`).  So a planner learns of runs of its own user, and of nothing else (`told_of_own_runs`).
-/

namespace AgentOrchestrator

open Chroma LongTermMemory

/-! ### The memory of one run -/

def userOf (s : OrchestratorState) : String := orText s.userId "anonymous"

theorem userOf_ne (s : OrchestratorState) : userOf s ≠ "" := by
  unfold userOf orText
  cases s.userId with
  | none => decide
  | some userId =>
    dsimp only
    by_cases h : userId = ""
    · rw [if_pos h]
      decide
    · rw [if_neg h]
      exact h

/-- The memories as a text, or the text that the run begins with if there are none. -/
def recalled (s : OrchestratorState) (memories : List MemoryRecord) : String :=
  if memories = [] then s.memoryContext.getD "" else formatMemories memories

/-- What a decision adds to the memory of the planner. -/
def Event.planGuidance : Event → Option String
  | .applyHumanDecision source decision _ =>
    if decision.action = .modify ∧ source ∈ planSources then some (decision.feedback.getD "") else none
  | _ => none

/-- The run of `s` for whose intake these memories were found. -/
structure Told (s : OrchestratorState) (memories : List MemoryRecord) (tr : List Event) (t : OrchestratorState) :
    Prop where
  task : t.task = s.task
  userId : t.userId = some (userOf s)
  memoryContext : t.memoryContext.getD "" = (tr.filterMap Event.planGuidance).foldl addGuidance (recalled s memories)

section Told

variable {cfg : Settings} {s t t' : OrchestratorState} {memories : List MemoryRecord} {tr : List Event} {c c' : Config}
  {e : Event}

theorem Told.start (uuid : String) :
    Told s memories [.intake] (s.apply (intake uuid (some memories) s)) := by
  refine ⟨rfl, rfl, ?_⟩
  unfold recalled intake
  cases memories <;> rfl

theorem Told.keep (h : Told s memories tr t) (he : e.planGuidance = none) (htask : t'.task = t.task)
    (huser : t'.userId = t.userId) (hmemory : t'.memoryContext = t.memoryContext) :
    Told s memories (tr ++ [e]) t' := by
  refine ⟨htask.trans h.task, huser.trans h.userId, ?_⟩
  rw [hmemory, h.memoryContext, List.filterMap_append, List.filterMap_cons_none he, List.filterMap_nil,
    List.append_nil]

/-- Only a human who modifies a plan adds to the memory. -/
theorem Told.step (hat : At cfg c.state c.next) (h : Told s memories tr c.state)
    (hn : c.next ≠ .node .intake) (hs : Step cfg c e c') : Told s memories (tr ++ [e]) c'.state := by
  cases hs.fires with
  | intake uuid memories => exact absurd rfl hn
  | specialists result hb =>
    obtain ⟨plan, -, -, -, heff⟩ := hat.dispatched hb
    have hframe := heff.frame
    refine h.keep rfl ?_ ?_ ?_
    · rw [hframe]
    · rw [hframe]
    · rw [hframe]
  | applyReviewFeedback hu =>
    obtain ⟨r, -, rfl⟩ := update_of_applyReviewFeedback hu
    exact h.keep rfl rfl rfl rfl
  | notifyHuman hu =>
    obtain ⟨escalation, rfl⟩ := update_of_notifyHuman hu
    exact h.keep rfl rfl rfl rfl
  | deliver memory hu =>
    obtain rfl := update_of_deliver hu
    exact h.keep rfl rfl rfl rfl
  | @applyHumanDecision t decision source u n hd hsrc hu hroute =>
    clear hs
    obtain ⟨plan, escalation, -, -, -, hdecided⟩ := hat.decided hd hsrc hu hroute
    have hother : ¬ (decision.action = .modify ∧ source ∈ planSources) →
        Event.planGuidance (.applyHumanDecision source decision u.completed) = none := fun hno => if_neg hno
    cases hdecided with
    | replan ha hsource =>
      refine ⟨h.task, h.userId, ?_⟩
      have hguide : Event.planGuidance (.applyHumanDecision source decision ∅) =
          some (decision.feedback.getD "") := if_pos ⟨ha, hsource⟩
      rw [List.filterMap_append, List.filterMap_cons_some hguide, List.filterMap_nil, List.foldl_append,
        ← h.memoryContext]
      rfl
    | reject ha => exact h.keep (hother (by simp [ha])) rfl rfl rfl
    | takeOver ha _ => exact h.keep (hother (by simp [ha])) rfl rfl rfl
    | supply ha _ _ _ => exact h.keep (hother (by simp [ha])) rfl rfl rfl
    | guide _ hs => exact h.keep (hother fun hno => absurd hno.2 (by rw [hs]; decide)) rfl rfl rfl
    | redo _ hs _ _ _ => exact h.keep (hother fun hno => hs hno.2) rfl rfl rfl
    | resume ha _ => exact h.keep (hother (by simp [ha])) rfl rfl rfl
    | retry ha _ => exact h.keep (hother (by simp [ha])) rfl rfl rfl
    | accept ha _ _ => exact h.keep (hother (by simp [ha])) rfl rfl rfl
  | _ => exact h.keep rfl rfl rfl rfl

end Told

/-! ### Calls in progress -/

/-- All that is stored is drawn from such records. -/
def Stocked (P : MemoryRecord → Prop) (m : Collection) : Prop :=
  ∀ id e, m.get? id = some e → DrawnFrom P (fromResult id e.metadata)

/-- The call is at a point at which all that it has read is drawn from such records. -/
def Reads {α : Type} (P : MemoryRecord → Prop) (op : Operation) (post : Holding → α → Prop) (p : Program α) : Prop :=
  ∃ g, p.Follows (holding op) post g ∧ ∀ r ∈ g.held, DrawnFrom P r

section Reads

variable {α : Type} {P Q : MemoryRecord → Prop} {op : Operation} {post : Holding → α → Prop} {m t : Collection}

theorem Stocked.mono (h : Stocked P m) (hPQ : ∀ r, P r → Q r) : Stocked Q m := fun id e he => (h id e he).mono hPQ

theorem Reads.mono {p : Program α} (h : Reads P op post p) (hPQ : ∀ r, P r → Q r) : Reads Q op post p := by
  obtain ⟨g, hp, hheld⟩ := h
  exact ⟨g, hp, fun r hr => (hheld r hr).mono hPQ⟩

theorem Reads.start {p : Program α} (h : p.Follows (holding op) post {}) : Reads P op post p :=
  ⟨{}, h, fun _ hr => absurd hr List.not_mem_nil⟩

/-- An effect brings nothing new but the record of an `add`. -/
theorem stocked_of_effect {ops : List Operation} {i : Nat} {g g' : Nat → Holding} (h : Effect ops i g m g' t)
    (hm : Stocked P m) (hg : ∀ r ∈ (g i).held, DrawnFrom P r)
    (hadd : ∀ record, ops[i]? = some (.add record) → P record) :
    Stocked P t ∧ ∀ r ∈ (g' i).held, DrawnFrom P r := by
  cases h with
  | read hread =>
    refine ⟨hm, fun r hr => ?_⟩
    rw [Function.update_self] at hr
    obtain ⟨e, he, hfrom⟩ := hread r hr
    exact hfrom ▸ hm r.id e he
  | @add record hop hfirst =>
    refine ⟨fun id e he => ?_, fun r hr => ?_⟩
    · rw [get?_addEntry] at he
      split at he
      · rename_i hid
        obtain rfl := Option.some.inj he
        rw [hid.1]
        exact .of (hadd record hop)
      · exact hm id e he
    · rw [Function.update_self] at hr
      exact hg r hr
  | @write record hdraws =>
    refine ⟨fun id e he => ?_, hg⟩
    rw [get?_updateMetadata] at he
    split at he
    · rename_i hid
      obtain ⟨e', -, rfl⟩ := Option.map_eq_some_iff.1 he
      rw [hid]
      exact hdraws.trans fun r hr _ => hg r hr
    · exact hm id e he
  | lose hlose => exact ⟨fun id e he => hm id e (hlose id e he), hg⟩

/-- The step lemma of a call in progress. -/
theorem Reads.step {c : Command} {k : Response c → Program α} {r : Response c} (h : Reads P op post (.call c k))
    (hm : Stocked P m) (hadd : ∀ record, op = .add record → P record) (he : Executes c m r t) :
    Stocked P t ∧ Reads P op post (k r) := by
  obtain ⟨g, ⟨hguarantee, hk⟩, hheld⟩ := h
  have hissued : (holdingAt [op] 0).guarantee ((fun _ : Nat => g) 0) c := hguarantee
  obtain ⟨hrely, heffect⟩ := effect_of_executes (i := 0) (g := fun _ => g) hissued he
  obtain ⟨hstocked, hheld'⟩ := stocked_of_effect heffect hm hheld fun record hop => hadd record (Option.some.inj hop)
  rw [Function.update_self] at hheld'
  exact ⟨hstocked, _, hk r hrely, hheld'⟩

/-- A query for a user returns records of the user that it has read, but for the access. -/
theorem follows_query_of_user (mem : LongTermMemory) (queryText : String) {userId : String} (hu : userId ≠ "")
    (topK : Option Nat) (now : String → ℚ) : (query mem queryText (some userId) topK now).Follows
      (holding (.query queryText (some userId) topK now))
        (fun g records => ∀ r ∈ records, r.userId = userId ∧ g.Draws r) {} := by
  have hfilter : (some userId).filter (fun u => decide (u ≠ "")) = some userId := by simp [hu]
  unfold query
  rw [hfilter]
  refine ⟨trivial, fun hits hread => ?_⟩
  refine Prog.Follows.mono (Prog.Follows.mapM_mem (R := fun r r' : MemoryRecord =>
    r' = { r with accessCount := r.accessCount + 1, lastAccessedAt := now r.id }) fun record hrecord => ?_)
      fun g records hrecords r hr => ?_
  · have hdraws : DrawnFrom (fun r => r ∈ List.map (fun hit : Hit => fromResult hit.id hit.metadata) hits) record :=
      .of hrecord
    exact ⟨⟨_, rfl, rfl, hdraws.bump _ _⟩, fun _ _ => ⟨rfl, rfl⟩⟩
  · obtain ⟨rfl, hbumped⟩ := hrecords
    obtain ⟨r₀, hr₀, rfl⟩ := hbumped r hr
    have hdraws : DrawnFrom (fun r => r ∈ List.map (fun hit : Hit => fromResult hit.id hit.metadata) hits) r₀ := .of hr₀
    exact ⟨hread r₀ hr₀, hdraws.bump _ _⟩

end Reads

/-! ### Many runs on one collection -/

inductive Job where
  | task (s : OrchestratorState)
  | upkeep (op : Operation)

/-- Where a job stands: in the query of intake, between two nodes, in the `add` of deliver, or in its own call. -/
inductive Activity where
  | recalling (s : OrchestratorState) (p : Program (List MemoryRecord))
  | running (c : Config)
  | storing (p : Program Unit) (record : MemoryRecord) (c : Config)
  | upkeep (p : Program (Dict String String))

structure Worker where
  collection : Collection
  activity : Activity

/-- A command on the collection with its answer, the record that deliver has extracted, or a node that has run. -/
inductive Act where
  | memory (asked : (c : Command) × Response c)
  | extract (record : MemoryRecord)
  | node (e : Event)

def Act.event : Act → Option Event
  | .node e => some e
  | _ => none

def Act.extracted : Act → Option MemoryRecord
  | .extract record => some record
  | _ => none

/-- Only a run adds a memory. -/
inductive BeginsJob (mem : LongTermMemory) : Job → Collection → Worker → Prop
  | task {s : OrchestratorState} {m : Collection} (hfresh : Fresh s) (now : String → ℚ) :
      BeginsJob mem (.task s) m ⟨m, .recalling s (mem.query s.task (some (userOf s)) none now)⟩
  | upkeep {op : Operation} {m : Collection} (hop : ∀ record, op ≠ .add record) :
      BeginsJob mem (.upkeep op) m ⟨m, .upkeep (op.program mem)⟩

inductive Advances (cfg : Settings) : Worker → Act → Worker → Prop
  | search {m t : Collection} {s : OrchestratorState} {c : Command} {k : Response c → Program (List MemoryRecord)}
      {r : Response c} (he : Executes c m r t) :
      Advances cfg ⟨m, .recalling s (.call c k)⟩ (.memory ⟨c, r⟩) ⟨t, .recalling s (k r)⟩
  | intake {m : Collection} {s : OrchestratorState} {memories : List MemoryRecord} (uuid : String) :
      Advances cfg ⟨m, .recalling s (.ret memories)⟩ (.node .intake)
        ⟨m, .running ⟨s.apply (intake uuid (some memories) s), .node .planTask⟩⟩
  | node {m : Collection} {c c' : Config} {e : Event} (hs : Step cfg c e c') (hn : c.next ≠ .node .deliver) :
      Advances cfg ⟨m, .running c⟩ (.node e) ⟨m, .running c'⟩
  | extract {m : Collection} {s : OrchestratorState} {id : String} {now : ℚ} {extracted : ExtractedMemory}
      {record : MemoryRecord} {u : Update} (hu : deliver (some (id, now, extracted)) s = .ok (some record, u)) :
      Advances cfg ⟨m, .running ⟨s, .node .deliver⟩⟩ (.extract record)
        ⟨m, .storing (LongTermMemory.add record) record ⟨s.apply u, .finish⟩⟩
  | store {m t : Collection} {record : MemoryRecord} {c' : Config} {c : Command} {k : Response c → Program Unit}
      {r : Response c} (he : Executes c m r t) :
      Advances cfg ⟨m, .storing (.call c k) record c'⟩ (.memory ⟨c, r⟩) ⟨t, .storing (k r) record c'⟩
  | deliver {m : Collection} {record : MemoryRecord} {c : Config} :
      Advances cfg ⟨m, .storing (.ret ()) record c⟩ (.node (.deliver (some record))) ⟨m, .running c⟩
  | upkeep {m t : Collection} {c : Command} {k : Response c → Program (Dict String String)} {r : Response c}
      (he : Executes c m r t) : Advances cfg ⟨m, .upkeep (.call c k)⟩ (.memory ⟨c, r⟩) ⟨t, .upkeep (k r)⟩

/-- The jobs, each under its id. -/
def deployment {κ : Type} (mem : LongTermMemory) (cfg : Settings) (jobs : κ → Job) : Crew κ Worker Act Collection where
  store := Worker.collection
  put m w := { w with collection := m }
  begins k m w := BeginsJob mem (jobs k) m w
  step _ w a w' := Advances cfg w a w'
  others _ _ _ := True
  fresh _ _ := True
  store_put _ _ := rfl
  others_of_begins _ _ _ _ _ _ := trivial
  others_of_step _ _ _ _ _ _ _ := trivial
  fresh_of_others _ _ _ _ _ := trivial

section Deployment

variable {κ : Type} {mem : LongTermMemory} {cfg : Settings} {jobs : κ → Job} {m₀ : Collection}
  {tr : List (Crew.Label κ Act)} {l : Crew.Label κ Act} {f f' : Crew.Fleet κ Worker Collection} {k k' : κ}

/-- A record that was there at the start, or that a run has extracted: its user and its task are those of the run. -/
def Source (jobs : κ → Job) (m₀ : Collection) (tr : List (Crew.Label κ Act)) (r : MemoryRecord) : Prop :=
  (∃ e, m₀.get? r.id = some e ∧ fromResult r.id e.metadata = r) ∨
    ∃ k s, jobs k = .task s ∧ Crew.Label.moved k (.extract r) ∈ tr ∧ r.userId = userOf s ∧ r.task = s.task

theorem Source.mono {r : MemoryRecord} (h : Source jobs m₀ tr r) (tr' : List (Crew.Label κ Act)) :
    Source jobs m₀ (tr ++ tr') r := by
  rcases h with h | ⟨k, s, hk, hmem, huser, htask⟩
  · exact Or.inl h
  · exact Or.inr ⟨k, s, hk, List.mem_append_left _ hmem, huser, htask⟩

/-- The nodes among the acts of a job. -/
def nodesIn (acts : List Act) : List Event := acts.filterMap Act.event

theorem nodesIn_append (acts acts' : List Act) : nodesIn (acts ++ acts') = nodesIn acts ++ nodesIn acts' :=
  List.filterMap_append ..

/-- The job has asked the collection what the query of its run asks, and intake has come when the query had returned
these memories. -/
def Found (mem : LongTermMemory) (s : OrchestratorState) (acts : List Act) (memories : List MemoryRecord) : Prop :=
  ∃ now asked rest, acts = asked.map Act.memory ++ .node .intake :: rest ∧
    (mem.query s.task (some (userOf s)) none now).After asked (.ret memories)

theorem Found.append {s : OrchestratorState} {acts : List Act} {memories : List MemoryRecord}
    (h : Found mem s acts memories) (acts' : List Act) : Found mem s (acts ++ acts') memories := by
  obtain ⟨now, asked, rest, rfl, hquery⟩ := h
  exact ⟨now, asked, rest ++ acts', by simp, hquery⟩

/-- The run has come to `c`, with the memories that its query has found, all of its user and drawn from such records. -/
structure Recalls (mem : LongTermMemory) (cfg : Settings) (P : MemoryRecord → Prop) (job : Job) (acts : List Act)
    (c : Config) : Prop where
  ran : ∃ s memories, job = .task s ∧ Found mem s acts memories ∧
    (∀ r ∈ memories, r.userId = userOf s ∧ DrawnFrom P r) ∧ Fresh s ∧
      Exec (Step cfg) (start s) (nodesIn acts) c ∧ Told s memories (nodesIn acts) c.state
  begun : c.next ≠ .node .intake

/-- What is known of a job by where it stands. -/
def Informed (mem : LongTermMemory) (cfg : Settings) (P : MemoryRecord → Prop) (job : Job) (acts : List Act) :
    Activity → Prop
  | .recalling s p => job = .task s ∧ Fresh s ∧
      (∃ now asked, acts = asked.map Act.memory ∧ (mem.query s.task (some (userOf s)) none now).After asked p) ∧
      ∃ op, (∀ record, op ≠ .add record) ∧
        Reads P op (fun g records => ∀ r ∈ records, r.userId = userOf s ∧ g.Draws r) p
  | .running c => Recalls mem cfg P job acts c
  | .storing p record c => P record ∧ Reads P (.add record) (fun _ _ => True) p ∧
      ∃ c₀, Recalls mem cfg P job acts c₀ ∧ Step cfg c₀ (.deliver (some record)) c
  | .upkeep p => ∃ op, (∀ record, op ≠ .add record) ∧ Reads P op (fun _ _ => True) p

variable {P Q : MemoryRecord → Prop} {job : Job} {acts : List Act}

theorem Recalls.mono {c : Config} (h : Recalls mem cfg P job acts c) (hPQ : ∀ r, P r → Q r) :
    Recalls mem cfg Q job acts c := by
  obtain ⟨s, memories, hjob, hfound, hmemories, hrest⟩ := h.ran
  exact ⟨⟨s, memories, hjob, hfound, fun r hr => ⟨(hmemories r hr).1, (hmemories r hr).2.mono hPQ⟩, hrest⟩, h.begun⟩

theorem Informed.mono {a : Activity} (h : Informed mem cfg P job acts a) (hPQ : ∀ r, P r → Q r) :
    Informed mem cfg Q job acts a := by
  cases a with
  | recalling s p =>
    obtain ⟨hjob, hfresh, hasked, op, hop, hreads⟩ := h
    exact ⟨hjob, hfresh, hasked, op, hop, hreads.mono hPQ⟩
  | running c => exact Recalls.mono h hPQ
  | storing p record c =>
    obtain ⟨hrecord, hreads, c₀, hrecalls, hs⟩ := h
    exact ⟨hPQ record hrecord, hreads.mono hPQ, c₀, hrecalls.mono hPQ, hs⟩
  | upkeep p =>
    obtain ⟨op, hop, hreads⟩ := h
    exact ⟨op, hop, hreads.mono hPQ⟩

/-- A node takes the run on. -/
theorem Recalls.step {c c' : Config} {e : Event} (h : Recalls mem cfg P job acts c) (hs : Step cfg c e c') :
    Recalls mem cfg P job (acts ++ [.node e]) c' := by
  obtain ⟨s, memories, hjob, hfound, hmemories, hfresh, hrun, htold⟩ := h.ran
  have hat := at_of_exec hfresh hrun
  refine ⟨⟨s, memories, hjob, hfound.append _, hmemories, hfresh, ?_, ?_⟩, hat.not_intake hs.fires⟩
  · exact nodesIn_append acts _ ▸ hrun.snoc hs
  · exact nodesIn_append acts _ ▸ htold.step hat h.begun hs

/-- What is no node leaves the run where it is. -/
theorem Recalls.stay {c : Config} {a : Act} (h : Recalls mem cfg P job acts c) (ha : a.event = none) :
    Recalls mem cfg P job (acts ++ [a]) c := by
  obtain ⟨s, memories, hjob, hfound, hrest⟩ := h.ran
  have hnodes : nodesIn (acts ++ [a]) = nodesIn acts := by simp [nodesIn, ha]
  exact ⟨⟨s, memories, hjob, hfound.append _, hnodes ▸ hrest⟩, h.begun⟩

/-- The record that deliver extracts is one of the user and the task of the run. -/
theorem Recalls.extracted {s : OrchestratorState} (h : Recalls mem cfg P job acts ⟨s, .node .deliver⟩)
    {memory : Option (String × ℚ × ExtractedMemory)} {record : MemoryRecord} {u : Update}
    (hu : AgentOrchestrator.deliver memory s = .ok (some record, u)) :
    ∃ s₀, job = .task s₀ ∧ record.userId = userOf s₀ ∧ record.task = s₀.task := by
  obtain ⟨s₀, memories, hjob, -, -, -, -, htold⟩ := h.ran
  unfold AgentOrchestrator.deliver at hu
  split at hu
  · exact absurd hu (by simp [pure, Except.pure])
  · obtain ⟨plan, -, hu⟩ := Fallible.bind_eq_ok_iff.1 hu
    obtain rfl := Option.some.inj (Prod.mk.inj (Except.ok.inj hu)).1
    refine ⟨s₀, hjob, ?_, htold.task⟩
    show s.userId.getD "anonymous" = userOf s₀
    rw [htold.userId]
    rfl

/-- The step lemma of a job. -/
theorem Informed.step {w w' : Worker} {a : Act} (h : Informed mem cfg P job acts w.activity)
    (hm : Stocked P w.collection) (hs : Advances cfg w a w') (ha : ∀ record, a = .extract record → P record) :
    Stocked P w'.collection ∧ Informed mem cfg P job (acts ++ [a]) w'.activity := by
  cases hs with
  | @search m t s c k r he =>
    obtain ⟨hjob, hfresh, ⟨now, asked, rfl, hquery⟩, op, hop, hreads⟩ := h
    obtain ⟨hstocked, hreads'⟩ := hreads.step hm (fun record hadd => absurd hadd (hop record)) he
    exact ⟨hstocked, hjob, hfresh, ⟨now, asked ++ [⟨c, r⟩], by simp, hquery.snoc r⟩, op, hop, hreads'⟩
  | @intake m s memories uuid =>
    obtain ⟨hjob, hfresh, ⟨now, asked, rfl, hquery⟩, op, -, g, hreturned, hheld⟩ := h
    have hnodes : nodesIn (asked.map Act.memory ++ [.node .intake]) = [.intake] := by
      simp [nodesIn, Act.event, List.filterMap_map, Function.comp_def]
    refine ⟨hm, ⟨s, memories, hjob, ⟨now, asked, [], rfl, hquery⟩, fun r hr => ?_, hfresh, ?_, ?_⟩, by simp⟩
    · obtain ⟨huser, hdraws⟩ := hreturned r hr
      exact ⟨huser, hdraws.trans fun r₀ hr₀ _ => hheld r₀ hr₀⟩
    · rw [hnodes]
      exact .single ⟨.intake uuid (some memories), rfl⟩
    · rw [hnodes]
      exact .start uuid
  | node hs hn => exact ⟨hm, Recalls.step h hs⟩
  | @extract m s id now extracted record u hu =>
    have hrecalls : Recalls mem cfg P job acts ⟨s, .node .deliver⟩ := h
    exact ⟨hm, ha record rfl, .start ⟨⟨rfl, record, rfl, rfl⟩, fun _ _ => trivial⟩, _, hrecalls.stay rfl,
      (Fires.deliver _ hu).step⟩
  | store he =>
    obtain ⟨hrecord, hreads, c₀, hrecalls, hstep⟩ := h
    obtain ⟨hstocked, hreads'⟩ := hreads.step hm (fun record' hadd => Operation.add.inj hadd ▸ hrecord) he
    exact ⟨hstocked, hrecord, hreads', c₀, hrecalls.stay rfl, hstep⟩
  | deliver =>
    obtain ⟨-, -, c₀, hrecalls, hs⟩ := h
    exact ⟨hm, hrecalls.step hs⟩
  | upkeep he =>
    obtain ⟨op, hop, hreads⟩ := h
    obtain ⟨hstocked, hreads'⟩ := hreads.step hm (fun record hadd => absurd hadd (hop record)) he
    exact ⟨hstocked, op, hop, hreads'⟩

/-- A job that begins has read nothing. -/
theorem informed_of_begins {m : Collection} {w : Worker} (h : BeginsJob mem job m w) :
    w.collection = m ∧ Informed mem cfg P job [] w.activity := by
  cases h with
  | @task s m hfresh now =>
    refine ⟨rfl, rfl, hfresh, ⟨now, [], rfl, .start _⟩, .query s.task (some (userOf s)) none now, by simp, .start ?_⟩
    exact follows_query_of_user mem s.task (userOf_ne s) none now
  | @upkeep op m hop => exact ⟨rfl, op, hop, .start (follows_operation mem op)⟩

variable [DecidableEq κ]

/-- The acts of a job. -/
def actsOf (k : κ) (tr : List (Crew.Label κ Act)) : List Act := tr.filterMap (Crew.Label.of k)

theorem actsOf_snoc (k : κ) (tr : List (Crew.Label κ Act)) (l : Crew.Label κ Act) :
    actsOf k (tr ++ [l]) = actsOf k tr ++ (l.of k).toList := by
  unfold actsOf
  rw [List.filterMap_append]
  cases hl : l.of k <;> simp [hl]

/-- What is known of all jobs. -/
structure AllInformed (mem : LongTermMemory) (cfg : Settings) (jobs : κ → Job) (m₀ : Collection) (tr : List (Crew.Label κ Act))
    (f : Crew.Fleet κ Worker Collection) : Prop where
  stocked : Stocked (Source jobs m₀ tr) f.store
  idle : ∀ k, f.member k = none → actsOf k tr = []
  member : ∀ k w, f.member k = some w →
    w.collection = f.store ∧ Informed mem cfg (Source jobs m₀ tr) (jobs k) (actsOf k tr) w.activity

/-- One job goes on or begins, and the others see the collection it leaves. -/
theorem AllInformed.set (h : AllInformed mem cfg jobs m₀ tr f) {w : Worker} (hl : ∀ k', k' ≠ k → l.of k' = none)
    (hm : Stocked (Source jobs m₀ (tr ++ [l])) w.collection)
    (hw : Informed mem cfg (Source jobs m₀ (tr ++ [l])) (jobs k) (actsOf k (tr ++ [l])) w.activity) :
    AllInformed mem cfg jobs m₀ (tr ++ [l]) (f.set (deployment mem cfg jobs) k w) := by
  have hacts : ∀ k', k' ≠ k → actsOf k' (tr ++ [l]) = actsOf k' tr := by
    intro k' hk'
    rw [actsOf_snoc, hl k' hk']
    exact List.append_nil _
  refine ⟨hm, fun k' hnone => ?_, fun k' w' hw' => ?_⟩
  · by_cases hk' : k' = k
    · exact absurd hnone (by simp [Crew.Fleet.set, hk'])
    · have hother : (f.member k').map _ = none := (if_neg hk').symm.trans hnone
      rw [hacts k' hk']
      exact h.idle k' (Option.map_eq_none_iff.1 hother)
  · by_cases hk' : k' = k
    · subst hk'
      obtain rfl := Option.some.inj ((if_pos rfl).symm.trans hw')
      exact ⟨rfl, hw⟩
    · have hother : (f.member k').map _ = some w' := (if_neg hk').symm.trans hw'
      obtain ⟨w₀, hw₀, rfl⟩ := Option.map_eq_some_iff.1 hother
      rw [hacts k' hk']
      exact ⟨rfl, (h.member k' w₀ hw₀).2.mono fun r hr => hr.mono [l]⟩

theorem allInformed_of_exec (h : Exec (deployment mem cfg jobs).Step (.empty m₀) tr f) :
    AllInformed mem cfg jobs m₀ tr f := by
  refine h.invariant (fun tr f => AllInformed mem cfg jobs m₀ tr f) ⟨?_, fun _ _ => rfl, ?_⟩ ?_
  · exact fun id e he => .of (Or.inl ⟨e, he, rfl⟩)
  · exact fun k w hw => absurd hw (by simp [Crew.Fleet.empty])
  · intro tr f l f' _ ih hs
    have hmono : ∀ r, Source jobs m₀ tr r → Source jobs m₀ (tr ++ [l]) r := fun r hr => hr.mono [l]
    cases hs with
    | @begin k w hm hb =>
      obtain ⟨hstore, hinformed⟩ := informed_of_begins hb
      refine ih.set (fun _ _ => rfl) (hstore ▸ ih.stocked.mono hmono) ?_
      rw [actsOf_snoc, ih.idle k hm]
      exact hinformed
    | @move k w w' a hm hs =>
      obtain ⟨hstore, hinformed⟩ := ih.member k w hm
      have hself : (Crew.Label.moved k a).of k = some a := if_pos rfl
      have hsource : ∀ record, a = .extract record → Source jobs m₀ (tr ++ [.moved k a]) record := by
        rintro record rfl
        cases hs with
        | extract hu =>
          obtain ⟨s, hjob, huser, htask⟩ := Recalls.extracted hinformed hu
          exact Or.inr ⟨k, s, hjob, by simp, huser, htask⟩
      obtain ⟨hstocked, hnext⟩ := (hinformed.mono hmono).step (hstore ▸ ih.stocked.mono hmono) hs hsource
      refine ih.set (fun k' hk' => if_neg (Ne.symm hk')) hstocked ?_
      rw [actsOf_snoc, hself]
      exact hnext

/-- Whenever a planner is called, in any interleaving, what it is told is what the query of its run has returned on the
answers that the collection has given it before the intake, with the guidance of the human so far; and each of these
memories is one of the user, drawn from records of the same user that runs have extracted before, or that were there at
the start. -/
theorem told_of_own_runs {pre post : List (Crew.Label κ Act)} {task context : String} {plan : ExecutionPlan}
    (h : Exec (deployment mem cfg jobs).Step (.empty m₀)
      (pre ++ .moved k (.node (.planTask task context plan)) :: post) f) :
    ∃ s memories, jobs k = .task s ∧ task = s.task ∧ Found mem s (actsOf k pre) memories ∧
      context = ((nodesIn (actsOf k pre)).filterMap Event.planGuidance).foldl addGuidance (recalled s memories) ∧
      ∀ r ∈ memories, r.userId = userOf s ∧ DrawnFrom (Source jobs m₀ pre) r := by
  obtain ⟨f₁, hpre, hrest⟩ := h.of_append
  obtain ⟨f₂, hs, -⟩ := hrest.of_cons
  cases hs with
  | @move k w w' a hm hs =>
    obtain ⟨-, hinformed⟩ := (allInformed_of_exec hpre).member k w hm
    cases hs with
    | @node m c c' e hs hn =>
      obtain ⟨s, memories, hjob, hfound, hmemories, -, -, htold⟩ := Recalls.ran hinformed
      cases hs.fires with
      | planTask plan hroute => exact ⟨s, memories, hjob, htold.task, hfound, htold.memoryContext, hmemories⟩

end Deployment

/-! ### Evaluating deployments -/

/-- What a job does next: its command, or a node with what it is answered. -/
inductive JobInput where
  | command
  | intake (uuid : String)
  | node (reply : Reply)
  | extract (id : String) (now : ℚ) (extracted : ExtractedMemory)
  | deliver

/-- One step, with a function that answers the commands. -/
def Worker.advance (cfg : Settings) (answer : (c : Command) → Collection → Response c × Collection) (w : Worker) :
    JobInput → Except Unit (Act × Worker)
  | .command =>
    match w.activity with
    | .recalling s (.call c k) => .ok (.memory ⟨c, (answer c w.collection).1⟩,
        ⟨(answer c w.collection).2, .recalling s (k (answer c w.collection).1)⟩)
    | .storing (.call c k) record c' => .ok (.memory ⟨c, (answer c w.collection).1⟩,
        ⟨(answer c w.collection).2, .storing (k (answer c w.collection).1) record c'⟩)
    | .upkeep (.call c k) => .ok (.memory ⟨c, (answer c w.collection).1⟩,
        ⟨(answer c w.collection).2, .upkeep (k (answer c w.collection).1)⟩)
    | _ => .error ()
  | .intake uuid =>
    match w.activity with
    | .recalling s (.ret memories) => .ok (.node .intake,
        ⟨w.collection, .running ⟨s.apply (AgentOrchestrator.intake uuid (some memories) s), .node .planTask⟩⟩)
    | _ => .error ()
  | .node reply =>
    match w.activity with
    | .running c =>
      match c.next, AgentOrchestrator.step cfg c reply with
      | .node .deliver, _ => .error ()
      | _, .ok (e, c') => .ok (.node e, ⟨w.collection, .running c'⟩)
      | _, .error _ => .error ()
    | _ => .error ()
  | .extract id now extracted =>
    match w.activity with
    | .running ⟨s, .node .deliver⟩ =>
      match AgentOrchestrator.deliver (some (id, now, extracted)) s with
      | .ok (some record, u) =>
        .ok (.extract record, ⟨w.collection, .storing (LongTermMemory.add record) record ⟨s.apply u, .finish⟩⟩)
      | _ => .error ()
    | _ => .error ()
  | .deliver =>
    match w.activity with
    | .storing (.ret ()) record c => .ok (.node (.deliver (some record)), ⟨w.collection, .running c⟩)
    | _ => .error ()

theorem advances_of_advance {cfg : Settings} {answer : (c : Command) → Collection → Response c × Collection}
    (hanswer : ∀ c m, Executes c m (answer c m).1 (answer c m).2) {w w' : Worker} {i : JobInput} {a : Act}
    (h : w.advance cfg answer i = .ok (a, w')) : Advances cfg w a w' := by
  obtain ⟨m, activity⟩ := w
  unfold Worker.advance at h
  cases i with
  | command =>
    dsimp only at h
    split at h
    · obtain ⟨rfl, rfl⟩ := Prod.mk.inj (Except.ok.inj h)
      exact .search (hanswer _ _)
    · obtain ⟨rfl, rfl⟩ := Prod.mk.inj (Except.ok.inj h)
      exact .store (hanswer _ _)
    · obtain ⟨rfl, rfl⟩ := Prod.mk.inj (Except.ok.inj h)
      exact .upkeep (hanswer _ _)
    · exact absurd h (by simp)
  | intake uuid =>
    dsimp only at h
    split at h
    · obtain ⟨rfl, rfl⟩ := Prod.mk.inj (Except.ok.inj h)
      exact .intake uuid
    · exact absurd h (by simp)
  | node reply =>
    dsimp only at h
    split at h
    · split at h
      · exact absurd h (by simp)
      · rename_i hs hn
        obtain ⟨rfl, rfl⟩ := Prod.mk.inj (Except.ok.inj h)
        exact .node ⟨reply, hs⟩ hn
      · exact absurd h (by simp)
    · exact absurd h (by simp)
  | extract id now extracted =>
    dsimp only at h
    split at h
    · split at h
      · rename_i hu
        obtain ⟨rfl, rfl⟩ := Prod.mk.inj (Except.ok.inj h)
        exact .extract hu
      · exact absurd h (by simp)
    · exact absurd h (by simp)
  | deliver =>
    dsimp only at h
    split at h
    · obtain ⟨rfl, rfl⟩ := Prod.mk.inj (Except.ok.inj h)
      exact .deliver
    · exact absurd h (by simp)

section Sample

def aliceStart : OrchestratorState := { sampleStart with userId := some "alice" }

/-- A memory of another user. -/
def bobsMemory : Collection :=
  ((LongTermMemory.add { acme "m3" "Invoices in CHF." 0 with userId := "bob" }).eval (Chroma.exec allNear) ∅).2

def aliceContext : String :=
  "- Past task: Report\n  Approach that worked: One step after another.\n  Known facts: Reports in EUR."

/-- A run that delivers, with the memory that it adds; then another run of the user comes to the planner. -/
def twoRuns : List (JobInput ⊕ JobInput) :=
  [.command, .intake "t", .node (.plan (samplePlan [sampleSubtask "a" []])), .node .none,
    .node (.results fun sid => sampleResult true sid), .node .none, .node (.review (sampleReview true [])),
    .node (.synthesis "Done."), .extract "m4" 0 ⟨"One step after another.", ["Reports in EUR."], [], ⟨3 / 4, by norm_num⟩⟩,
    .command].map .inl ++
  [.inr .command, .inl .deliver, .inr .command, .inr (.intake "u"),
    .inr (.node (.plan (samplePlan [sampleSubtask "a" []])))]

/-- What the last act tells a planner, if it calls one. -/
def lastTold (tr : List (Crew.Label String Act)) : Option (String × String × String) :=
  match tr.getLast? with
  | some (.moved k (.node (.planTask task context _))) => some (k, task, context)
  | _ => none

theorem of_lastTold {tr : List (Crew.Label String Act)} {k task context : String}
    (h : lastTold tr = some (k, task, context)) :
    ∃ pre plan, tr = pre ++ [.moved k (.node (.planTask task context plan))] := by
  unfold lastTold at h
  split at h
  · rename_i k' task' context' plan hlast
    obtain ⟨pre, hpre⟩ := List.getLast?_eq_some_iff.1 hlast
    simp only [Option.some.injEq, Prod.mk.injEq] at h
    obtain ⟨rfl, rfl, rfl⟩ := h
    exact ⟨pre, plan, hpre⟩
  · exact absurd h (by simp)

/-- The planner of the second run is told what the first run has learned, and nothing of the other user. -/
theorem told_of_own_runs_sample : ∃ pre f plan,
    Exec (deployment sampleMemory Settings.default fun _ : String => .task aliceStart).Step (.empty bobsMemory)
      (pre ++ .moved "u" (.node (.planTask "Report" aliceContext plan)) :: []) f ∧
    ((actsOf "t" pre).filterMap Act.extracted).map (·.facts) = [["Reports in EUR."]] ∧
    ∃ memories, Found sampleMemory aliceStart (actsOf "u" pre) memories ∧
      aliceContext = ((nodesIn (actsOf "u" pre)).filterMap Event.planGuidance).foldl addGuidance
        (recalled aliceStart memories) ∧
      ∀ r ∈ memories, r.userId = "alice" ∧
        DrawnFrom (Source (fun _ : String => .task aliceStart) bobsMemory pre) r := by
  let crew := deployment sampleMemory Settings.default fun _ : String => .task aliceStart
  let w : Worker := ⟨bobsMemory, .recalling aliceStart (sampleMemory.query aliceStart.task (some (userOf aliceStart)) none
    fun _ => 1)⟩
  have hbegins : ∀ k, crew.begins k bobsMemory w := fun _ => BeginsJob.task ⟨rfl, rfl, rfl, rfl⟩ fun _ => 1
  have hscript : scriptEnds (crew.advancePair (fun _ => Worker.advance Settings.default (Chroma.exec allNear)) "t" "u")
      (w, w) twoRuns (fun tr _ => decide (lastTold tr = some ("u", "Report", aliceContext) ∧
        ((actsOf "t" tr).filterMap Act.extracted).map (·.facts) = [["Reports in EUR."]])) = true := by
    decide +kernel
  obtain ⟨tr, p, hr, hp⟩ := Crew.exec_of_pairScript (fun _ _ _ _ _ hi => advances_of_advance (executes_exec allNear) hi)
    (by decide) (hbegins "t") (hbegins "u") hscript
  obtain ⟨hlast, hextracted⟩ := of_decide_eq_true hp
  obtain ⟨pre, plan, rfl⟩ := of_lastTold hlast
  have hfacts : ((actsOf "t" pre).filterMap Act.extracted).map (·.facts) = [["Reports in EUR."]] := by
    rw [actsOf_snoc] at hextracted
    simpa [Crew.Label.of] using hextracted
  have hrun : Exec crew.Step _ ((.begun "t" :: .begun "u" :: pre) ++ .moved "u" (.node (.planTask "Report" aliceContext
    plan)) :: []) _ := hr
  obtain ⟨s, memories, hjob, -, hfound, htold, hmemories⟩ := told_of_own_runs hrun
  obtain rfl := Job.task.inj hjob
  exact ⟨_, _, plan, hrun, hfacts, memories, hfound, htold, hmemories⟩

end Sample

end AgentOrchestrator
