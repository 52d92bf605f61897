import AgentOrchestrator.Memory.Index

/-!
# Forgetting a user

All calls of the long-term memory at once, on one collection: while `delete_user_memories` is underway, queries hold
copies of the records it deletes and write them back later, and consolidations merge what they listed before.  What is
written names an id, and an update of an id that is not stored does nothing.  So once the deletion has returned,
everything stored under the user comes from records added since it has listed them: no call brings anything of before
back, neither a record nor an item merged into another one.

A process is described by the copies it holds (`Holding`).  Two things are carried along a run: an id belongs to one
user for ever (`Owned`), and after a moment at which nothing of the user is stored, what is stored of the user is drawn
from records added since, while a process holds records of the user that are all old or all drawn from such records
(`Renewed`).
-/

namespace AgentOrchestrator.LongTermMemory

open Chroma

/-! ### What a record draws on -/

/-- The lists that a merge joins. -/
def lists : List (MemoryRecord → List String) :=
  [MemoryRecord.facts, MemoryRecord.preferences, MemoryRecord.toolsUsed]

/-- The record is one with `p`, and what it lists comes from such of the same user. -/
structure DrawnFrom (p : MemoryRecord → Prop) (r : MemoryRecord) : Prop where
  origin : ∃ r₀, p r₀ ∧ r₀.id = r.id ∧ r₀.userId = r.userId ∧ r₀.task = r.task ∧
    r₀.approachSummary = r.approachSummary
  lists : ∀ list ∈ lists, ∀ v ∈ list r, ∃ r₀, p r₀ ∧ r₀.userId = r.userId ∧ v ∈ list r₀

namespace DrawnFrom

variable {p q : MemoryRecord → Prop} {r x y : MemoryRecord}

theorem of (h : p r) : DrawnFrom p r := ⟨⟨r, h, rfl, rfl, rfl, rfl⟩, fun _ _ _ hv => ⟨r, h, rfl, hv⟩⟩

theorem trans (h : DrawnFrom p r) (hp : ∀ r₀, p r₀ → r₀.userId = r.userId → DrawnFrom q r₀) : DrawnFrom q r := by
  obtain ⟨r₀, h₀, hid, huser, htask, happroach⟩ := h.origin
  obtain ⟨r₁, h₁, hid₁, huser₁, htask₁, happroach₁⟩ := (hp r₀ h₀ huser).origin
  refine ⟨⟨r₁, h₁, hid₁.trans hid, huser₁.trans huser, htask₁.trans htask, happroach₁.trans happroach⟩,
    fun list hlist v hv => ?_⟩
  obtain ⟨r₂, h₂, huser₂, hv₂⟩ := h.lists list hlist v hv
  obtain ⟨r₃, h₃, huser₃, hv₃⟩ := (hp r₂ h₂ huser₂).lists list hlist v hv₂
  exact ⟨r₃, h₃, huser₃.trans huser₂, hv₃⟩

theorem mono (h : DrawnFrom p r) (hp : ∀ r₀, p r₀ → q r₀) : DrawnFrom q r :=
  h.trans fun r₀ h₀ _ => of (hp r₀ h₀)

/-- An access is not seen. -/
theorem bump (h : DrawnFrom p r) (accessCount : Int) (lastAccessedAt : ℚ) :
    DrawnFrom p { r with
      accessCount := accessCount
      lastAccessedAt := lastAccessedAt } := by
  refine ⟨h.origin, fun list hlist v hv => h.lists list hlist v ?_⟩
  simp only [LongTermMemory.lists, List.mem_cons, List.not_mem_nil, or_false] at hlist
  rcases hlist with rfl | rfl | rfl
  · exact hv
  · exact hv
  · exact hv

theorem absorb (hx : DrawnFrom p x) (hy : DrawnFrom p y) (huser : y.userId = x.userId) :
    DrawnFrom p (LongTermMemory.absorb x y) := by
  refine ⟨hx.origin, fun list hlist v hv => ?_⟩
  have hor : v ∈ list x ∨ v ∈ list y := by
    have hmem := hlist
    simp only [LongTermMemory.lists, List.mem_cons, List.not_mem_nil, or_false] at hmem
    rcases hmem with rfl | rfl | rfl
    · exact List.mem_append.1 (mem_fromkeys.1 hv)
    · exact List.mem_append.1 (mem_fromkeys.1 hv)
    · exact List.mem_append.1 (mem_fromkeys.1 hv)
  rcases hor with hv | hv
  · exact hx.lists list hlist v hv
  · obtain ⟨r₀, h₀, huser₀, hv₀⟩ := hy.lists list hlist v hv
    exact ⟨r₀, h₀, huser₀.trans huser, hv₀⟩

end DrawnFrom

/-! ### What a process holds -/

/-- The records a process has read last, and whether it has added its own. -/
structure Holding where
  held : List MemoryRecord := []
  added : Bool := false

def Holding.Draws (g : Holding) : MemoryRecord → Prop := DrawnFrom fun r => r ∈ g.held

/-- The records of an answer. -/
def recordsRead : (c : Command) → Response c → List MemoryRecord
  | .get _, results => List.map (fun e => fromResult e.1 e.2) results
  | .query _ _ _, hits => List.map (fun hit : Hit => fromResult hit.id hit.metadata) hits
  | _, _ => []

/-- A consolidation keeps what it has listed; its queries are looked up in that. -/
def holding (op : Operation) : Protocol Command Response Holding where
  next g c r :=
    match op, c with
    | _, .get user? => { g with held := recordsRead (.get user?) r }
    | .query _ _ _ _, .query text nResults user? => { g with held := recordsRead (.query text nResults user?) r }
    | _, .add _ _ _ => { g with added := true }
    | _, _ => g
  guarantee g c :=
    match c with
    | .add _ _ _ => g.added = false ∧ ∃ record, op = .add record ∧
        c = .add record.id record.embeddingText (toMetadata record)
    | .update id metadata => ∃ r, r.id = id ∧ metadata = toMetadata r ∧ g.Draws r
    | _ => True
  rely _ c r :=
    match c with
    | .get (some u) => ∀ record ∈ recordsRead (.get (some u)) r, record.userId = u
    | .query text nResults (some u) => ∀ record ∈ recordsRead (.query text nResults (some u)) r, record.userId = u
    | _ => True

variable {mem : LongTermMemory} {userId : String} {g : Holding}

theorem draws_mergeNeighbors {records : Dict String MemoryRecord} (hheld : ∀ r ∈ g.held, r.userId = userId)
    (hrecords : ∀ k r, records.get? k = some r → g.Draws r) (hits : List Hit) {record record' : MemoryRecord}
    {consumed consumed' : Dict String String} (h : g.Draws record)
    (hrun : mergeNeighbors mem records hits record consumed = .ok (record', consumed')) : g.Draws record' := by
  induction hits generalizing record consumed with
  | nil =>
    obtain ⟨rfl, -⟩ := Prod.mk.inj (Except.ok.inj hrun)
    exact h
  | cons hit hits ih =>
    unfold mergeNeighbors at hrun
    split at hrun
    · exact ih h hrun
    · split at hrun
      · exact ih h hrun
      · split at hrun
        · exact absurd hrun (by simp)
        · rename_i other hother
          -- all that is held is of one user
          have huser : ∀ x, g.Draws x → x.userId = userId := by
            intro x hx
            obtain ⟨r₀, h₀, -, huser₀, -⟩ := hx.origin
            exact huser₀.symm.trans (hheld r₀ h₀)
          have hdraws := hrecords hit.id other hother
          exact ih (h.absorb hdraws ((huser other hdraws).trans (huser record h).symm)) hrun

theorem follows_mergeRecords_holding (hheld : ∀ r ∈ g.held, r.userId = userId) (rest : List MemoryRecord)
    (hrest : ∀ r ∈ rest, g.Draws r) {records : Dict String MemoryRecord}
    (hrecords : ∀ k r, records.get? k = some r → g.Draws r) (consumed : Dict String String) :
    (mergeRecords mem userId rest records consumed).Follows (holding (.consolidate userId)) (fun _ _ => True) g := by
  induction rest generalizing records consumed with
  | nil => trivial
  | cons record rest ih =>
    have hrest' : ∀ r ∈ rest, g.Draws r := fun r hr => hrest r (List.mem_cons_of_mem _ hr)
    unfold mergeRecords
    split
    · exact ih hrest' hrecords consumed
    · refine ⟨trivial, fun hits _ => ?_⟩
      dsimp only [Prog.bind]
      split
      · trivial
      · rename_i record' consumed' hrun
        have hdraws := draws_mergeNeighbors hheld hrecords hits (hrest record List.mem_cons_self) hrun
        have hrecords' : ∀ k r, (records.insert record'.id record').get? k = some r → g.Draws r := by
          intro k r hk
          rw [Dict.get?_insert] at hk
          split at hk
          · exact Option.some.inj hk ▸ hdraws
          · exact hrecords k r hk
        split
        · exact ⟨⟨record', rfl, rfl, hdraws⟩, fun _ _ => ih hrest' hrecords' consumed'⟩
        · exact ih hrest' hrecords' consumed'

theorem follows_consolidation_holding (mem : LongTermMemory) (userId : String) :
    (consolidation mem userId).Follows (holding (.consolidate userId)) (fun _ _ => True) {} := by
  refine ⟨trivial, fun results huser => ?_⟩
  show Prog.Follows (holding (.consolidate userId)) _ (if (recordsOf results).length < 2 then _ else _)
    { held := recordsRead (.get (some userId)) results }
  split
  · trivial
  · have hdraws : ∀ k r, (recordsOf results).get? k = some r →
        DrawnFrom (fun r => r ∈ recordsRead (.get (some userId)) results) r := by
      intro k r hk
      obtain ⟨r', hr', hpair⟩ := List.mem_map.1 (Dict.mem_of_get?_ofList hk)
      obtain ⟨-, rfl⟩ := Prod.mk.inj hpair
      exact .of hr'
    have hvalues : ∀ r ∈ (recordsOf results).values,
        DrawnFrom (fun r => r ∈ recordsRead (.get (some userId)) results) r := by
      intro r hr
      obtain ⟨k, hk⟩ := Dict.mem_values_iff.1 hr
      exact hdraws k r hk
    refine (follows_mergeRecords_holding (g := { held := recordsRead (.get (some userId)) results }) huser _ hvalues
      hdraws ∅).bind fun g result _ => ?_
    cases result with
    | error e => trivial
    | ok consumed =>
      dsimp only
      split
      · exact ⟨trivial, fun _ _ => trivial⟩
      · trivial

theorem follows_getRecords_holding (op : Operation) (user? : Option String) (g : Holding) :
    (getRecords user?).Follows (holding op) (fun _ _ => True) g := by
  refine ⟨?_, fun _ _ => trivial⟩
  cases op <;> trivial

theorem follows_query_holding (mem : LongTermMemory) (queryText : String) (userId : Option String)
    (topK : Option Nat) (now : String → ℚ) : (query mem queryText userId topK now).Follows
      (holding (.query queryText userId topK now)) (fun _ _ => True) {} := by
  refine ⟨trivial, fun hits _ => ?_⟩
  refine Prog.Follows.mono (Prog.Follows.mapM fun record hrecord => ?_) fun _ _ _ => trivial
  have hdraws : DrawnFrom (fun r => r ∈ List.map (fun hit : Hit => fromResult hit.id hit.metadata) hits) record :=
    .of hrecord
  exact ⟨⟨_, rfl, rfl, hdraws.bump _ _⟩, fun _ _ => rfl⟩

theorem follows_expire_holding (mem : LongTermMemory) (userId : Option String) (now : ℚ) :
    (expire mem userId now).Follows (holding (.expire userId now)) (fun _ _ => True) {} := by
  refine (follows_getRecords_holding _ _ _).bind fun g records _ => ?_
  dsimp only
  split
  · exact ⟨trivial, fun _ _ => trivial⟩
  · trivial

theorem follows_deleteUserMemories_holding (userId : String) :
    (deleteUserMemories userId).Follows (holding (.deleteUserMemories userId)) (fun _ _ => True) {} := by
  refine (follows_getRecords_holding _ _ _).bind fun g records _ => ?_
  split
  · exact ⟨trivial, fun _ _ => trivial⟩
  · trivial

theorem follows_operation (mem : LongTermMemory) (op : Operation) :
    (op.program mem).Follows (holding op) (fun _ _ => True) {} := by
  cases op with
  | add record => exact ⟨⟨rfl, record, rfl, rfl⟩, fun _ _ => trivial⟩
  | query queryText userId topK now =>
    exact (follows_query_holding mem queryText userId topK now).map fun _ _ _ => trivial
  | consolidate userId => exact (follows_consolidation_holding mem userId).map fun _ _ _ => trivial
  | expire userId now => exact (follows_expire_holding mem userId now).map fun _ _ _ => trivial
  | delete memoryId => exact ⟨trivial, fun _ _ => trivial⟩
  | deleteUserMemories userId => exact (follows_deleteUserMemories_holding userId).map fun _ _ _ => trivial

/-! ### What a command does -/

def holdingAt (ops : List Operation) (i : Nat) : Protocol Command Response Holding :=
  match ops[i]? with
  | some op => holding op
  | none => ⟨fun g _ _ => g, fun _ _ => False, fun _ _ _ => True⟩

/-- The processes of the operations. -/
noncomputable def processes (mem : LongTermMemory) (ops : List Operation) (s : Collection) :
    Pool Command Response Collection (Dict String String) := ⟨s, ops.map (Operation.program mem)⟩

theorem follow_processes (mem : LongTermMemory) (ops : List Operation) (s : Collection) :
    (processes mem ops s).Follow (holdingAt ops) (fun _ _ _ => True) fun _ => {} := by
  refine Pool.follow_map fun i op hi => ?_
  unfold holdingAt
  rw [hi]
  exact follows_operation mem op

/-- A command of process `i` changes what the process holds, or what is stored. -/
inductive Effect (ops : List Operation) (i : Nat) (g : Nat → Holding) (s : Collection) :
    (Nat → Holding) → Collection → Prop
  | read {held : List MemoryRecord}
      (h : ∀ r ∈ held, ∃ e, s.get? r.id = some e ∧ fromResult r.id e.metadata = r) :
      Effect ops i g s (Function.update g i { g i with held := held }) s
  | add {record : MemoryRecord} (hop : ops[i]? = some (.add record)) (h : (g i).added = false) :
      Effect ops i g s (Function.update g i { g i with added := true })
        (addEntry s record.id ⟨record.embeddingText, toMetadata record⟩)
  | write {r : MemoryRecord} (h : (g i).Draws r) : Effect ops i g s g (updateMetadata s r.id (toMetadata r))
  | lose {t : Collection} (h : ∀ id e, t.get? id = some e → s.get? id = some e) : Effect ops i g s g t

theorem mem_recordsRead_get {user? : Option String} {s t : Collection} {results : Response (.get user?)}
    (h : Executes (.get user?) s results t) {r : MemoryRecord} (hr : r ∈ recordsRead (.get user?) results) :
    ∃ e, s.get? r.id = some e ∧ fromResult r.id e.metadata = r ∧ e.metadata.ofUser user? = true := by
  obtain ⟨hperm, rfl⟩ := h
  obtain ⟨⟨id, m⟩, hmem, rfl⟩ := List.mem_map.1 hr
  obtain ⟨e, he, rfl, hu⟩ := mem_select.1 (hperm.mem_iff.1 hmem)
  exact ⟨e, he, rfl, hu⟩

theorem mem_recordsRead_query {text : String} {nResults : Nat} {user? : Option String} {s t : Collection}
    {hits : Response (.query text nResults user?)} (h : Executes (.query text nResults user?) s hits t)
    {r : MemoryRecord} (hr : r ∈ recordsRead (.query text nResults user?) hits) :
    ∃ e, s.get? r.id = some e ∧ fromResult r.id e.metadata = r ∧ e.metadata.ofUser user? = true := by
  obtain ⟨hanswers, rfl⟩ := h
  obtain ⟨hit, hmem, rfl⟩ := List.mem_map.1 hr
  obtain ⟨e, he, hm, hu⟩ := hanswers.stored hit hmem
  exact ⟨e, he, by rw [hm]; rfl, hu⟩

theorem get?_of_get?_deleteIds {s : Collection} {ids : List String} {id : String} {e : Entry}
    (h : (deleteIds s ids).get? id = some e) : s.get? id = some e := by
  rw [get?_deleteIds] at h
  split at h
  · exact absurd h (by simp)
  · exact h

theorem get?_deleteOfUser {s : Collection} {userId id : String} {e : Entry} :
    (deleteOfUser s userId).get? id = some e ↔ s.get? id = some e ∧ e.metadata.userId ≠ userId := by
  unfold deleteOfUser
  rw [Dict.get?_filterMap, Option.bind_eq_some_iff]
  constructor
  · rintro ⟨e', he', hkept⟩
    split at hkept
    · exact absurd hkept (by simp)
    · rename_i hne
      obtain rfl := Option.some.inj hkept
      exact ⟨he', hne⟩
  · rintro ⟨he, hne⟩
    exact ⟨e, he, if_neg hne⟩

/-- A command that its process may issue has one of the effects, and is answered as expected. -/
theorem effect_of_executes {ops : List Operation} {i : Nat} {g : Nat → Holding} {s t : Collection} {c : Command}
    {r : Response c} (hg : (holdingAt ops i).guarantee (g i) c) (he : Executes c s r t) :
    (holdingAt ops i).rely (g i) c r ∧
      Effect ops i g s (Function.update g i ((holdingAt ops i).next (g i) c r)) t := by
  unfold holdingAt at hg ⊢
  cases hop : ops[i]? with
  | none =>
    rw [hop] at hg
    exact hg.elim
  | some op =>
    rw [hop] at hg
    have hself : Function.update g i (g i) = g := Function.update_eq_self i g
    cases c with
    | get user? =>
      obtain rfl : t = s := he.2
      have hnext : (holding op).next (g i) (.get user?) r = { g i with held := recordsRead (.get user?) r } := by
        cases op <;> rfl
      refine ⟨?_, ?_⟩
      · cases user? with
        | none => cases op <;> trivial
        | some u =>
          intro record hrecord
          obtain ⟨e, -, hr, hu⟩ := mem_recordsRead_get he hrecord
          rw [← hr]
          exact of_decide_eq_true hu
      · show Effect ops i g t (Function.update g i ((holding op).next (g i) (.get user?) r)) t
        rw [hnext]
        refine .read fun record hrecord => ?_
        obtain ⟨e, hget, hr, -⟩ := mem_recordsRead_get he hrecord
        exact ⟨e, hget, hr⟩
    | query text nResults user? =>
      obtain rfl : t = s := he.2
      refine ⟨?_, ?_⟩
      · cases user? with
        | none => cases op <;> trivial
        | some u =>
          intro record hrecord
          obtain ⟨e, -, hr, hu⟩ := mem_recordsRead_query he hrecord
          rw [← hr]
          exact of_decide_eq_true hu
      · cases op with
        | query queryText userId topK now =>
          refine .read fun record hrecord => ?_
          obtain ⟨e, hget, hr, -⟩ := mem_recordsRead_query he hrecord
          exact ⟨e, hget, hr⟩
        | _ => exact hself.symm ▸ .lose fun _ _ h => h
    | add id document metadata =>
      obtain ⟨hfirst, record, rfl, hc⟩ := hg
      obtain ⟨rfl, rfl, rfl⟩ := Command.add.inj hc
      obtain rfl : t = addEntry s record.id _ := he
      exact ⟨trivial, .add hop hfirst⟩
    | update id metadata =>
      obtain ⟨record, rfl, rfl, hdraws⟩ := hg
      obtain rfl : t = updateMetadata s record.id _ := he
      refine ⟨trivial, ?_⟩
      cases op <;> exact hself.symm ▸ .write hdraws
    | delete ids =>
      obtain rfl : t = deleteIds s ids := he
      refine ⟨trivial, ?_⟩
      cases op <;> exact hself.symm ▸ .lose fun _ _ h => get?_of_get?_deleteIds h
    | deleteUser userId =>
      obtain rfl : t = deleteOfUser s userId := he
      refine ⟨trivial, ?_⟩
      cases op <;> exact hself.symm ▸ .lose fun _ _ h => (get?_deleteOfUser.1 h).1

/-! ### An id belongs to one user -/

/-- The ids that are added are new and different. -/
structure NewIds (ops : List Operation) (s₀ : Collection) : Prop where
  new : ∀ (i : Nat) record, ops[i]? = some (.add record) → s₀.get? record.id = none
  distinct : ∀ (i j : Nat) record record', ops[i]? = some (.add record) → ops[j]? = some (.add record') →
    record.id = record'.id → i = j

/-- The id was there at the start or has been added, for this user. -/
def Owner (ops : List Operation) (s₀ : Collection) (g : Nat → Holding) (id userId : String) : Prop :=
  (∃ e, s₀.get? id = some e ∧ e.metadata.userId = userId) ∨
    ∃ i record, ops[i]? = some (.add record) ∧ (g i).added = true ∧ record.id = id ∧ record.userId = userId

/-- The record has been added between `g₀` and `g`. -/
def AddedSince (ops : List Operation) (g₀ g : Nat → Holding) (record : MemoryRecord) : Prop :=
  ∃ i, ops[i]? = some (.add record) ∧ (g₀ i).added = false ∧ (g i).added = true

/-- What has been added stays added. -/
def Later (g g' : Nat → Holding) : Prop := ∀ i, (g i).added = true → (g' i).added = true

variable {ops : List Operation} {s₀ s t : Collection} {g₀ g g' : Nat → Holding} {i : Nat} {id : String}

theorem Effect.later (h : Effect ops i g s g' t) : Later g g' := by
  intro j hj
  cases h with
  | read _ =>
    by_cases hji : j = i
    · subst hji
      rw [Function.update_self]
      exact hj
    · rwa [Function.update_of_ne hji]
  | add _ _ =>
    by_cases hji : j = i
    · subst hji
      rw [Function.update_self]
    · rwa [Function.update_of_ne hji]
  | write _ => exact hj
  | lose _ => exact hj

theorem Owner.later (h : Owner ops s₀ g id userId) (hl : Later g g') : Owner ops s₀ g' id userId := by
  rcases h with h | ⟨i, record, hi, hadded, hid, huser⟩
  · exact Or.inl h
  · exact Or.inr ⟨i, record, hi, hl i hadded, hid, huser⟩

theorem Owner.unique (hnew : NewIds ops s₀) {userId' : String} (h : Owner ops s₀ g id userId)
    (h' : Owner ops s₀ g id userId') : userId = userId' := by
  rcases h with ⟨e, he, hu⟩ | ⟨i, record, hi, -, rfl, rfl⟩
  · rcases h' with ⟨e', he', hu'⟩ | ⟨j, record, hj, -, rfl, -⟩
    · obtain rfl := Option.some.inj (he.symm.trans he')
      exact hu.symm.trans hu'
    · exact absurd (he.symm.trans (hnew.new j record hj)) (by simp)
  · rcases h' with ⟨e', he', -⟩ | ⟨j, record', hj, -, hid, rfl⟩
    · exact absurd (he'.symm.trans (hnew.new i record hi)) (by simp)
    · obtain rfl := hnew.distinct i j record record' hi hj hid.symm
      obtain rfl := Operation.add.inj (Option.some.inj (hi.symm.trans hj))
      rfl

theorem AddedSince.later {record : MemoryRecord} (h : AddedSince ops g₀ g record) (hl : Later g g') :
    AddedSince ops g₀ g' record := by
  obtain ⟨i, hi, h₀, hadded⟩ := h
  exact ⟨i, hi, h₀, hl i hadded⟩

theorem AddedSince.unique (hnew : NewIds ops s₀) {record record' : MemoryRecord} (h : AddedSince ops g₀ g record)
    (h' : AddedSince ops g₀ g record') (hid : record.id = record'.id) : record = record' := by
  obtain ⟨i, hi, -⟩ := h
  obtain ⟨j, hj, -⟩ := h'
  obtain rfl := hnew.distinct i j record record' hi hj hid
  exact Operation.add.inj (Option.some.inj (hi.symm.trans hj))

/-- The id of a record that has been added since was free before. -/
theorem AddedSince.not_owner (hnew : NewIds ops s₀) {record : MemoryRecord} (h : AddedSince ops g₀ g record) :
    ¬ Owner ops s₀ g₀ record.id userId := by
  obtain ⟨i, hi, h₀, -⟩ := h
  rintro (⟨e, he, -⟩ | ⟨j, record', hj, hadded, hid, -⟩)
  · exact absurd (he.symm.trans (hnew.new i record hi)) (by simp)
  · obtain rfl := hnew.distinct i j record record' hi hj hid.symm
    exact absurd (h₀.symm.trans hadded) (by simp)

/-- What is stored or held belongs to the user of its id. -/
structure Owned (ops : List Operation) (s₀ : Collection) (g : Nat → Holding) (s : Collection) : Prop where
  stored : ∀ id e, s.get? id = some e → Owner ops s₀ g id e.metadata.userId
  held : ∀ i, ∀ r ∈ (g i).held, Owner ops s₀ g r.id r.userId

theorem Owned.start (ops : List Operation) (s₀ : Collection) : Owned ops s₀ (fun _ => {}) s₀ :=
  ⟨fun _ e he => Or.inl ⟨e, he, rfl⟩, fun _ _ hr => absurd hr List.not_mem_nil⟩

theorem Owned.draws (h : Owned ops s₀ g s) {r : MemoryRecord} (hr : (g i).Draws r) :
    Owner ops s₀ g r.id r.userId := by
  obtain ⟨r₀, h₀, hid, huser, -⟩ := hr.origin
  rw [← hid, ← huser]
  exact h.held i r₀ h₀

/-- An entry is written over by a record of its own user. -/
theorem Owned.userId_eq (hnew : NewIds ops s₀) (h : Owned ops s₀ g s) {r : MemoryRecord} (hr : (g i).Draws r)
    {e : Entry} (he : s.get? r.id = some e) : e.metadata.userId = r.userId :=
  (h.stored r.id e he).unique hnew (h.draws hr)

theorem Owned.step (h : Owned ops s₀ g s) (hs : Effect ops i g s g' t) : Owned ops s₀ g' t := by
  have hlater := hs.later
  cases hs with
  | @read held hread =>
    refine ⟨fun id e he => (h.stored id e he).later hlater, fun j r hr => ?_⟩
    by_cases hji : j = i
    · subst hji
      rw [Function.update_self] at hr
      obtain ⟨e, he, hfrom⟩ := hread r hr
      rw [← hfrom]
      exact (h.stored r.id e he).later hlater
    · rw [Function.update_of_ne hji] at hr
      exact (h.held j r hr).later hlater
  | @add record hop hfirst =>
    refine ⟨fun id e he => ?_, fun j r hr => ?_⟩
    · rw [get?_addEntry] at he
      split at he
      · rename_i hid
        obtain rfl := Option.some.inj he
        exact Or.inr ⟨i, record, hop, by rw [Function.update_self], hid.1.symm, rfl⟩
      · exact (h.stored id e he).later hlater
    · by_cases hji : j = i
      · subst hji
        rw [Function.update_self] at hr
        exact (h.held j r hr).later hlater
      · rw [Function.update_of_ne hji] at hr
        exact (h.held j r hr).later hlater
  | @write r hdraws =>
    refine ⟨fun id e he => ?_, h.held⟩
    rw [get?_updateMetadata] at he
    split at he
    · rename_i hid
      subst hid
      obtain ⟨e₀, -, rfl⟩ := Option.map_eq_some_iff.1 he
      exact h.draws hdraws
    · exact h.stored id e he
  | lose hsub => exact ⟨fun id e he => h.stored id e (hsub id e he), h.held⟩

/-! ### What comes after a deletion -/

/-- What is stored of the user has been added since, and so has all it lists; a process holds records of the user that
are all of before or all drawn from such as have been added since. -/
structure Renewed (ops : List Operation) (s₀ : Collection) (g₀ : Nat → Holding) (userId : String)
    (g : Nat → Holding) (s : Collection) : Prop where
  later : Later g₀ g
  stored : ∀ id e, s.get? id = some e → e.metadata.userId = userId →
    DrawnFrom (AddedSince ops g₀ g) (fromResult id e.metadata) ∧
      ∃ record, AddedSince ops g₀ g record ∧ record.id = id ∧ e.document = record.embeddingText
  held : ∀ i, (∀ r ∈ (g i).held, r.userId = userId → Owner ops s₀ g₀ r.id userId) ∨
    ∀ r ∈ (g i).held, r.userId = userId → DrawnFrom (AddedSince ops g₀ g) r

/-- It starts at a moment at which nothing of the user is stored. -/
theorem Renewed.start (h : Owned ops s₀ g s) (hnone : ∀ id e, s.get? id = some e → e.metadata.userId ≠ userId) :
    Renewed ops s₀ g userId g s := by
  refine ⟨fun _ h => h, fun id e he hu => absurd hu (hnone id e he), fun i => Or.inl fun r hr hu => ?_⟩
  rw [← hu]
  exact h.held i r hr

theorem Renewed.step (hnew : NewIds ops s₀) (howned : Owned ops s₀ g s) (h : Renewed ops s₀ g₀ userId g s)
    (hs : Effect ops i g s g' t) : Renewed ops s₀ g₀ userId g' t := by
  have hlater := hs.later
  have hlater₀ : Later g₀ g' := fun j hj => hlater j (h.later j hj)
  have hmono : ∀ r, DrawnFrom (AddedSince ops g₀ g) r → DrawnFrom (AddedSince ops g₀ g') r :=
    fun r hr => hr.mono fun _ h₀ => h₀.later hlater
  have hstored : ∀ id e, s.get? id = some e → e.metadata.userId = userId →
      DrawnFrom (AddedSince ops g₀ g') (fromResult id e.metadata) ∧
        ∃ record, AddedSince ops g₀ g' record ∧ record.id = id ∧ e.document = record.embeddingText := by
    intro id e he hu
    obtain ⟨hdrawn, record, hsince, hid, hdocument⟩ := h.stored id e he hu
    exact ⟨hmono _ hdrawn, record, hsince.later hlater, hid, hdocument⟩
  have hheld : ∀ j, (∀ r ∈ (g j).held, r.userId = userId → Owner ops s₀ g₀ r.id userId) ∨
      ∀ r ∈ (g j).held, r.userId = userId → DrawnFrom (AddedSince ops g₀ g') r :=
    fun j => (h.held j).imp_right fun hdrawn r hr hu => hmono r (hdrawn r hr hu)
  cases hs with
  | @read held hread =>
    refine ⟨hlater₀, hstored, fun j => ?_⟩
    by_cases hji : j = i
    · subst hji
      rw [Function.update_self]
      refine Or.inr fun r hr hu => ?_
      obtain ⟨e, he, hfrom⟩ := hread r hr
      rw [← hfrom] at hu ⊢
      exact (hstored r.id e he hu).1
    · rw [Function.update_of_ne hji]
      exact hheld j
  | @add record hop hfirst =>
    have hsince : AddedSince ops g₀ (Function.update g i { g i with added := true }) record := by
      have hbefore : (g₀ i).added = false := by
        rw [← Bool.not_eq_true]
        exact fun hadded => absurd (hfirst.symm.trans (h.later i hadded)) (by simp)
      exact ⟨i, hop, hbefore, by rw [Function.update_self]⟩
    refine ⟨hlater₀, fun id e he hu => ?_, fun j => ?_⟩
    · rw [get?_addEntry] at he
      split at he
      · rename_i hid
        obtain ⟨rfl, -⟩ := hid
        obtain rfl := Option.some.inj he
        exact ⟨.of hsince, record, hsince, rfl, rfl⟩
      · exact hstored id e he hu
    · by_cases hji : j = i
      · subst hji
        rw [Function.update_self]
        exact hheld j
      · rw [Function.update_of_ne hji]
        exact hheld j
  | @write r hdraws =>
    refine ⟨hlater₀, fun id e he hu => ?_, hheld⟩
    rw [get?_updateMetadata] at he
    split at he
    · rename_i hid
      subst hid
      obtain ⟨e₀, he₀, rfl⟩ := Option.map_eq_some_iff.1 he
      have hu₀ : e₀.metadata.userId = userId := (howned.userId_eq hnew hdraws he₀).trans hu
      obtain ⟨-, record, hsince, hid, hdocument⟩ := hstored r.id e₀ he₀ hu₀
      refine ⟨?_, record, hsince, hid, hdocument⟩
      rcases hheld i with hold | hdrawn
      · -- the id of an old record is not stored any more
        obtain ⟨r₀, h₀, hid₀, huser₀, -⟩ := hdraws.origin
        have howner := hold r₀ h₀ (huser₀.trans hu)
        rw [hid₀, ← hid] at howner
        exact absurd howner (hsince.not_owner hnew)
      · exact hdraws.trans fun r₀ h₀ hsame => hdrawn r₀ h₀ (hsame.trans hu)
    · exact hstored id e he hu
  | lose hsub => exact ⟨hlater₀, fun id e he hu => hstored id e (hsub id e he) hu, hheld⟩

/-! ### Deletion is final -/

/-- The record has been added: an `add` is a single command. -/
def AddedIn (ops : List Operation) (tr : List (Move Command Response)) (record : MemoryRecord) : Prop :=
  ∃ m ∈ tr, ops[m.proc]? = some (.add record)

theorem AddedSince.addedIn {tr : List (Move Command Response)} {record : MemoryRecord}
    (h : AddedSince ops g₀ (Pool.ghost (holdingAt ops) g₀ tr) record) : AddedIn ops tr record := by
  obtain ⟨i, hi, hbefore, hadded⟩ := h
  by_contra hnot
  have hsame : Pool.ghost (holdingAt ops) g₀ tr i = g₀ i := by
    refine Pool.ghost_of_not_moved fun m hm hmi => hnot ⟨m, hm, ?_⟩
    rwa [hmi]
  rw [hsame] at hadded
  exact absurd (hbefore.symm.trans hadded) (by simp)

/-- Everything stored under the user is a record added in `tr`, with its document, and lists what such records of the
user list. -/
def OnlyAdded (ops : List Operation) (tr : List (Move Command Response)) (userId : String) (s : Collection) : Prop :=
  ∀ id e, s.get? id = some e → e.metadata.userId = userId →
    DrawnFrom (AddedIn ops tr) (fromResult id e.metadata) ∧
      ∃ record, AddedIn ops tr record ∧ record.id = id ∧ e.document = record.embeddingText

theorem OnlyAdded.mono {tr tr' : List (Move Command Response)} (h : OnlyAdded ops tr userId s)
    (htr : ∀ m ∈ tr, m ∈ tr') : OnlyAdded ops tr' userId s := by
  have hmono : ∀ record, AddedIn ops tr record → AddedIn ops tr' record := by
    rintro record ⟨m, hm, hop⟩
    exact ⟨m, htr m hm, hop⟩
  intro id e he hu
  obtain ⟨hdrawn, record, hadded, hid, hdocument⟩ := h id e he hu
  exact ⟨hdrawn.mono hmono, record, hmono record hadded, hid, hdocument⟩

variable {pool pool' : Pool Command Response Collection (Dict String String)} {tr : List (Move Command Response)}

/-- The processes go on following their protocols, and what is stored or held belongs to the user of its id. -/
theorem owned_of_exec (h : Exec (Pool.Step Executes) (processes mem ops s₀) tr pool) :
    pool.Follow (holdingAt ops) (fun _ _ _ => True) (Pool.ghost (holdingAt ops) (fun _ => {}) tr) ∧
      Owned ops s₀ (Pool.ghost (holdingAt ops) (fun _ => {}) tr) pool.store :=
  (follow_processes mem ops s₀).invariant (Owned ops s₀) (fun _ _ _ _ _ _ hI hg he =>
    (effect_of_executes hg he).imp_right hI.step) (Owned.start ops s₀) h

/-- From a moment at which nothing of the user is stored. -/
theorem onlyAdded_of_none (hnew : NewIds ops s₀) {g : Nat → Holding}
    (hfollow : pool.Follow (holdingAt ops) (fun _ _ _ => True) g) (howned : Owned ops s₀ g pool.store)
    (hnone : ∀ id e, pool.store.get? id = some e → e.metadata.userId ≠ userId)
    (hr : Exec (Pool.Step Executes) pool tr pool') : OnlyAdded ops tr userId pool'.store := by
  have hend := (hfollow.invariant (fun g' s => Owned ops s₀ g' s ∧ Renewed ops s₀ g userId g' s)
    (fun _ _ _ _ _ _ hI hg he => (effect_of_executes hg he).imp_right fun heffect =>
      ⟨hI.1.step heffect, hI.2.step hnew hI.1 heffect⟩) ⟨howned, .start howned hnone⟩ hr).2.2
  intro id e he hu
  obtain ⟨hdrawn, record, hsince, hid, hdocument⟩ := hend.stored id e he hu
  exact ⟨hdrawn.mono fun _ h => h.addedIn, record, hsince.addedIn, hid, hdocument⟩

/-- What is left of a deletion that has listed the records. -/
def deletion (userId : String) (results : Response (.get (some userId))) : Program (Dict String String) :=
  if List.isEmpty results then .ret ∅ else .call (.deleteUser userId) fun _ => .ret ∅

theorem program_deleteUserMemories (mem : LongTermMemory) (userId : String) :
    (Operation.deleteUserMemories userId).program mem = .call (.get (some userId)) (deletion userId) := by
  refine congrArg (Prog.call (Command.get (some userId))) (funext fun results => ?_)
  change List (String × Metadata) at results
  cases results with
  | nil => rfl
  | cons e results => rfl

/-- The stages of a deletion. -/
def Deleting (userId : String) (p : Program (Dict String String)) : Prop :=
  p = .call (.get (some userId)) (deletion userId) ∨ p = .call (.deleteUser userId) (fun _ => .ret ∅) ∨ p = .ret ∅

theorem Deleting.next {c : Command} {k : Response c → Program (Dict String String)} (h : Deleting userId (.call c k))
    (r : Response c) : Deleting userId (k r) := by
  rcases h with h | h | h
  · obtain ⟨rfl, hk⟩ := Prog.call.inj h
    obtain rfl := eq_of_heq hk
    unfold deletion
    split
    · exact Or.inr (Or.inr rfl)
    · exact Or.inr (Or.inl rfl)
  · obtain ⟨rfl, hk⟩ := Prog.call.inj h
    obtain rfl := eq_of_heq hk
    exact Or.inr (Or.inr rfl)
  · exact absurd h (by simp)

/-- A deletion that has returned leaves of the user only what has been added since it listed the records, whatever
else was underway. -/
theorem deletion_final (hnew : NewIds ops s₀) {j : Nat} (hj : ops[j]? = some (.deleteUserMemories userId))
    {pre post : List (Move Command Response)} {results : Response (.get (some userId))}
    (hr : Exec (Pool.Step Executes) (processes mem ops s₀) (pre ++ ⟨j, .get (some userId), results⟩ :: post) pool)
    {consumed : Dict String String} (hreturned : pool.progs[j]? = some (.ret consumed)) :
    OnlyAdded ops post userId pool.store := by
  obtain ⟨pool₁, hpre, hrest⟩ := hr.of_append
  obtain ⟨pool₂, hlist, hpost⟩ := hrest.of_cons
  obtain ⟨k, hcall, hnext, hperm, hsame⟩ := hlist.exists_call
  obtain ⟨hfollow, howned⟩ := owned_of_exec (hpre.snoc hlist)
  -- the process has listed the records and goes on with the deletion
  have hstage : Deleting userId (.call (.get (some userId)) k) := by
    refine Pool.mem_of_exec (Deleting userId) (fun c k r h => h.next r) hpre (fun p hp => ?_) _ hcall
    have hget : (ops.map (Operation.program mem))[j]? = some p := hp
    rw [List.getElem?_map, hj] at hget
    obtain rfl := Option.some.inj hget
    exact Or.inl (program_deleteUserMemories mem userId)
  have hk : k results = deletion userId results := by
    rcases hstage with h | h | h
    · obtain ⟨-, hk⟩ := Prog.call.inj h
      exact congrFun (eq_of_heq hk) results
    · exact absurd h (by simp)
    · exact absurd h (by simp)
  rw [hk] at hnext
  unfold deletion at hnext
  split at hnext
  · -- nothing of the user was stored
    rename_i hempty
    refine onlyAdded_of_none hnew hfollow howned (fun id e he hu => ?_) hpost
    rw [hsame] at he
    have hmem := hperm.mem_iff.2 (mem_select.2 ⟨e, he, rfl, decide_eq_true hu⟩)
    have hnil : (results : List (String × Metadata)) = [] := List.isEmpty_iff.1 hempty
    rw [hnil] at hmem
    exact absurd hmem List.not_mem_nil
  · rcases Pool.exists_issued hpost hnext with hstill | ⟨tr₁, tr₂, r, pool₃, pool₄, rfl, h₁, hdelete, h₂⟩
    · exact absurd (Option.some.inj (hreturned.symm.trans hstill)) (by simp)
    · obtain ⟨hfollow', howned'⟩ := owned_of_exec (((hpre.snoc hlist).trans h₁).snoc hdelete)
      obtain ⟨_, -, -, hdeleted⟩ := hdelete.exists_call
      refine (onlyAdded_of_none hnew hfollow' howned' (fun id e he => ?_) h₂).mono fun m hm => by simp [hm]
      rw [hdeleted] at he
      exact (get?_deleteOfUser.1 he).2

private def sampleCalls : List Operation :=
  [.deleteUserMemories "alice", .query "AcmeCo" (some "alice") (some 1) fun _ => 1, .consolidate "alice",
    .add (acme "m3" "Invoices in CHF." 1)]

private theorem newIds_sampleCalls : NewIds sampleCalls (twoRecords 0) := by
  have hnew : (twoRecords 0).get? "m3" = none := by decide +kernel
  have hadd : ∀ (i : Nat) record, sampleCalls[i]? = some (.add record) →
      i = 3 ∧ record = acme "m3" "Invoices in CHF." 1 := by
    intro i record hi
    match i with
    | 0 => exact absurd hi (by simp [sampleCalls])
    | 1 => exact absurd hi (by simp [sampleCalls])
    | 2 => exact absurd hi (by simp [sampleCalls])
    | 3 => exact ⟨rfl, (Operation.add.inj (Option.some.inj hi)).symm⟩
    | i + 4 => exact absurd hi (by simp [sampleCalls])
  refine ⟨fun i record hi => ?_, fun i j record record' hi hj _ => ?_⟩
  · rw [(hadd i record hi).2]
    exact hnew
  · rw [(hadd i record hi).1, (hadd j record' hj).1]

/-- A query and a consolidation write back what they have read before the records are deleted. -/
theorem deletion_final_sample : ∃ post pool,
    Exec (Pool.Step Executes) (processes sampleMemory sampleCalls (twoRecords 0))
      ([] ++ ⟨0, .get (some "alice"), select (some "alice") (twoRecords 0)⟩ :: post) pool ∧
    OnlyAdded sampleCalls post "alice" pool.store ∧ pool.store.keys = ["m3"] := by
  have hlist : Pool.Step Executes (processes sampleMemory sampleCalls (twoRecords 0))
      ⟨0, .get (some "alice"), select (some "alice") (twoRecords 0)⟩ ⟨twoRecords 0,
        (sampleCalls.map (Operation.program sampleMemory)).set 0
          (deletion "alice" (select (some "alice") (twoRecords 0)))⟩ :=
    .move (congrArg some (program_deleteUserMemories sampleMemory "alice")) ⟨.refl _, rfl⟩
  have hscript : scriptEnds (Pool.advance (Chroma.exec allNear)) ⟨twoRecords 0,
      (sampleCalls.map (Operation.program sampleMemory)).set 0
        (deletion "alice" (select (some "alice") (twoRecords 0)))⟩ [1, 2, 2, 0, 3, 1, 2, 2] (fun _ pool =>
          pool.progs.all Prog.returned && pool.store.keys = ["m3"]) = true := by
    decide +kernel
  obtain ⟨post, pool, hpost, hp⟩ := Pool.exec_of_order (executes_exec allNear) hscript
  obtain ⟨hreturned, hkeys⟩ := Bool.and_eq_true_iff.1 hp
  have hrun : Exec (Pool.Step Executes) (processes sampleMemory sampleCalls (twoRecords 0))
      ([] ++ ⟨0, .get (some "alice"), select (some "alice") (twoRecords 0)⟩ :: post) pool := hpost.cons hlist
  have hlt : 0 < pool.progs.length := by
    rw [Pool.length_eq_of_exec hpost]
    decide
  obtain ⟨consumed, hret⟩ := Pool.finished_of_all hreturned _ (List.getElem_mem hlt)
  have hat : pool.progs[0]? = some (.ret consumed) := by rw [List.getElem?_eq_getElem hlt, hret]
  exact ⟨post, pool, hrun, deletion_final newIds_sampleCalls rfl hrun hat, of_decide_eq_true hkeys⟩

end AgentOrchestrator.LongTermMemory
