import AgentOrchestrator.Lib.Exec
import AgentOrchestrator.Lib.Text
import AgentOrchestrator.Memory.Lifetime

/-!
# The documents of the memory collection

The document of an entry is what a search sees of it, the metadata what is read back.  `add` writes both; whatever
changes an entry later writes the metadata only, so the two agree as long as no change touches the embedded text: a
query's access does not, a merge does whenever it brings something new.
-/

namespace AgentOrchestrator.LongTermMemory

open Chroma

/-- The calls of the long-term memory. -/
inductive Operation where
  | add (record : MemoryRecord)
  | query (queryText : String) (userId : Option String) (topK : Option Nat) (now : String → ℚ)
  | consolidate (userId : String)
  | expire (userId : Option String) (now : ℚ)
  | delete (memoryId : String)
  | deleteUserMemories (userId : String)

/-- The call, returning what a consolidation has consumed. -/
noncomputable def Operation.program (mem : LongTermMemory) : Operation → Program (Dict String String)
  | .add record => (fun _ => ∅) <$> LongTermMemory.add record
  | .query queryText userId topK now => (fun _ => ∅) <$> LongTermMemory.query mem queryText userId topK now
  | .consolidate userId => (fun result => result.toOption.getD ∅) <$> consolidation mem userId
  | .expire userId now => (fun _ => ∅) <$> LongTermMemory.expire mem userId now
  | .delete memoryId => (fun _ => ∅) <$> LongTermMemory.delete memoryId
  | .deleteUserMemories userId => (fun _ => ∅) <$> LongTermMemory.deleteUserMemories userId

/-- One call with what it has consumed. -/
def Step (mem : LongTermMemory) (s : Collection) (e : Operation × Dict String String) (t : Collection) : Prop :=
  (e.1.program mem).Runs Executes s e.2 t

/-- Every document is the text of its record. -/
def InSync (s : Collection) : Prop :=
  ∀ id e, s.get? id = some e → e.document = (fromResult id e.metadata).embeddingText

/-! ### Calls that leave the text as it is -/

theorem InSync.add {s : Collection} (h : InSync s) (record : MemoryRecord) :
    InSync (addEntry s record.id ⟨record.embeddingText, toMetadata record⟩) := by
  intro id e he
  rw [get?_addEntry] at he
  split at he
  · rename_i hid
    obtain rfl := hid.1
    obtain rfl := Option.some.inj he
    rfl
  · exact h id e he

theorem InSync.of_subset {s t : Collection} (h : InSync s)
    (hsub : ∀ id e, t.get? id = some e → s.get? id = some e) : InSync t := fun id e he => h id e (hsub id e he)

/-- What a query has found and not yet written has the text of what is stored. -/
def Found (found : List MemoryRecord) (s : Collection) : Prop :=
  InSync s ∧ ∀ record ∈ found, ∀ e, s.get? record.id = some e →
    (fromResult record.id e.metadata).embeddingText = record.embeddingText

theorem Found.step (found : List MemoryRecord) (s : Collection) (c : Command) (r : Response c) (t : Collection)
    (h : Found found s) (hg : accessProtocol.guarantee found c) (he : Executes c s r t) :
    accessProtocol.rely found c r ∧ Found (accessProtocol.next found c r) t := by
  refine ⟨trivial, ?_⟩
  cases c with
  | query text nResults user? =>
    obtain ⟨hr, rfl⟩ := he
    refine ⟨h.1, fun record hrecord e hget => ?_⟩
    obtain ⟨hit, hhit, rfl⟩ := List.mem_map.1 hrecord
    obtain ⟨e', he', hm, -⟩ := hr.stored hit hhit
    have hget' : Dict.get? t hit.id = some e := hget
    obtain rfl := Option.some.inj (he'.symm.trans hget')
    rw [hm]
    rfl
  | update id metadata =>
    obtain ⟨record, hrecord, rfl, accessCount, lastAccessedAt, rfl⟩ := hg
    obtain rfl : t = updateMetadata s record.id _ := he
    -- the text of the entry of `record` is that of `record` before and after
    have htext : ∀ k e, (updateMetadata s record.id (toMetadata { record with
        accessCount := accessCount
        lastAccessedAt := lastAccessedAt })).get? k = some e →
        ∃ e₀, s.get? k = some e₀ ∧ e.document = e₀.document ∧
          (fromResult k e.metadata).embeddingText = (fromResult k e₀.metadata).embeddingText := by
      intro k e hk
      rw [get?_updateMetadata] at hk
      split at hk
      · rename_i hid
        subst hid
        obtain ⟨e₀, he₀, rfl⟩ := Option.map_eq_some_iff.1 hk
        exact ⟨e₀, he₀, rfl, (h.2 record hrecord e₀ he₀).symm⟩
      · exact ⟨e, hk, rfl, rfl⟩
    refine ⟨fun k e hk => ?_, fun record' hrecord' e hk => ?_⟩
    · obtain ⟨e₀, he₀, hdoc, hsame⟩ := htext k e hk
      rw [hdoc, hsame]
      exact h.1 k e₀ he₀
    · obtain ⟨e₀, he₀, -, hsame⟩ := htext record'.id e hk
      rw [hsame]
      exact h.2 record' hrecord' e₀ he₀
  | _ => exact hg.elim

/-! ### Consolidation -/

/-- The parts of a list that are embedded. -/
def texts (l : List String) : List String := l.filter fun p => p ≠ ""

theorem embeddingText_eq (record : MemoryRecord) : record.embeddingText =
    "\n".intercalate (texts [record.task, record.approachSummary] ++ texts (items .fact record) ++
      texts (items .preference record)) := by
  have hparts : record.task :: record.approachSummary :: (record.facts ++ record.preferences) =
      [record.task, record.approachSummary] ++ record.facts ++ record.preferences := by simp
  unfold MemoryRecord.embeddingText texts
  rw [hparts, List.filter_append, List.filter_append]
  rfl

/-- Nothing new and nothing twice: what `other` knows, `record` lists once. -/
def NoNews (record other : MemoryRecord) : Prop :=
  ∀ kind, (texts (items kind record)).Nodup ∧ texts (items kind other) ⊆ items kind record

theorem mem_texts {l : List String} {x : String} : x ∈ texts l ↔ x ∈ l ∧ x ≠ "" := by
  simp [texts]

theorem texts_fromkeys (l : List String) : texts (fromkeys l) = fromkeys (texts l) := by
  induction l using List.reverseRecOn with
  | nil => rfl
  | append_singleton l x ih =>
    have happ : texts (l ++ [x]) = texts l ++ texts [x] := List.filter_append ..
    rw [fromkeys_snoc, happ]
    by_cases hx : x = ""
    · have hnone : texts [x] = [] := by simp [texts, hx]
      rw [hnone, List.append_nil, ← ih]
      split
      · rfl
      · simp [texts, hx]
    · have hone : texts [x] = [x] := by simp [texts, hx]
      have hmem : x ∈ texts l ↔ x ∈ l := mem_texts.trans ⟨fun h => h.1, fun h => ⟨h, hx⟩⟩
      rw [hone, fromkeys_snoc, ← ih]
      simp only [hmem]
      split
      · rfl
      · simp [texts, hx]

/-- A list that has grown by nothing new is embedded as before. -/
theorem Grows.texts_eq {old new : List String} (h : Grows old new) (hold : (texts old).Nodup)
    (hsub : texts new ⊆ old) : texts new = texts old := by
  rcases h with rfl | ⟨hnodup, rest, rfl⟩
  · rfl
  · have happ : texts (LongTermMemory.fromkeys old ++ rest) = texts (LongTermMemory.fromkeys old) ++ texts rest :=
      List.filter_append ..
    have hrest : texts rest = [] := by
      rw [List.eq_nil_iff_forall_not_mem]
      intro x hx
      have hxold : x ∈ old := hsub (happ ▸ List.mem_append_right _ hx)
      exact (List.nodup_append.1 hnodup).2.2 x (mem_fromkeys.2 hxold) x (mem_texts.1 hx).1 rfl
    rw [happ, hrest, List.append_nil, texts_fromkeys, fromkeys_of_nodup hold]

variable {userId : String} {s t : Collection} {consumed : Dict String String}

/-- What a record knows in the end, one of the records it holds knew before. -/
theorem Consolidates.origin (h : Consolidates userId s consumed t) {x : String} {r : MemoryRecord}
    (hr : (stored userId t).get? x = some r) {kind : Knowledge} {v : String} (hv : v ∈ items kind r) :
    ∃ o ro, Held consumed o x ∧ (stored userId s).get? o = some ro ∧ v ∈ items kind ro := by
  obtain ⟨d₀, d, hd₀, habs, ht⟩ := h.absorptions
  rw [ht, get?_survivors] at hr
  obtain ⟨o, ro, hheld, ho, hvo⟩ := habs.exists_origin (fun r => v ∈ items kind r) (fun _ _ => mem_items_absorb.1) hr.1 hv
  exact ⟨o, ro, hheld, (hd₀ o).symm.trans ho, hvo⟩

/-- What a record knows before, the one that holds it in the end knows. -/
theorem Consolidates.knows (h : Consolidates userId s consumed t) {o x : String} {ro r : MemoryRecord}
    (hheld : Held consumed o x) (ho : (stored userId s).get? o = some ro) (hr : (stored userId t).get? x = some r)
    (kind : Knowledge) : items kind ro ⊆ items kind r := by
  obtain ⟨d₀, d, hd₀, habs, ht⟩ := h.absorptions
  have hlive : consumed.get? x = none := (h.before hr).1
  obtain ⟨y, v, hy, hv, hsub⟩ := (habs.exists_holder (fun _ => True) (fun a b => items kind a ⊆ items kind b)
    (fun _ _ _ => trivial) (fun _ _ _ _ => trivial) (fun v _ => List.Subset.refl _)
    (fun v a b _ _ hva c hc => mem_items_absorb.2 (Or.inl (hva hc)))
    (fun v a b _ _ hvb c hc => mem_items_absorb.2 (Or.inr (hvb hc)))).2 o ro ((hd₀ o).trans ho)
  obtain rfl := hheld.unique hy hlive (get?_survivors.1 hv).2
  rw [ht] at hr
  obtain rfl := Option.some.inj (hr.symm.trans hv)
  exact hsub

theorem Consolidates.unchanged (h : Consolidates userId s consumed t) {x : String} {r : MemoryRecord}
    (hr : (stored userId t).get? x = some r) (hx : ∀ o, consumed.get? o ≠ some x) :
    (stored userId s).get? x = some r := by
  obtain ⟨d₀, d, hd₀, habs, ht⟩ := h.absorptions
  rw [ht, get?_survivors] at hr
  rw [← hd₀, ← habs.unchanged hx]
  exact hr.1

/-- Records are merged only into such as already know all they know. -/
def MergesNoNews (userId : String) (s : Collection) (consumed : Dict String String) : Prop :=
  ∀ o x ro rx, Held consumed o x → o ≠ x → consumed.get? x = none → (stored userId s).get? o = some ro →
    (stored userId s).get? x = some rx → NoNews rx ro

/-- Merging no news keeps the text of every record that is left. -/
theorem Consolidates.text_eq (h : Consolidates userId s consumed t) (hm : MergesNoNews userId s consumed) {x : String}
    {rx r : MemoryRecord} (hrx : (stored userId s).get? x = some rx) (hr : (stored userId t).get? x = some r) :
    r.embeddingText = rx.embeddingText := by
  obtain ⟨hlive, rx', hrx', hext⟩ := h.before hr
  obtain rfl := Option.some.inj (hrx.symm.trans hrx')
  by_cases habsorbs : ∃ o, consumed.get? o = some x
  · obtain ⟨o, ho⟩ := habsorbs
    have hne : o ≠ x := fun he => absurd ho (by simp [he, hlive])
    obtain ⟨ro, hro⟩ := h.exists_consumed ho
    have hnodup : ∀ kind, (texts (items kind rx)).Nodup := fun kind =>
      (hm o x ro rx (Relation.ReflTransGen.single ho) hne hlive hro hrx kind).1
    have hsub : ∀ kind, texts (items kind r) ⊆ items kind rx := by
      intro kind v hv
      obtain ⟨hvr, hempty⟩ := mem_texts.1 hv
      obtain ⟨o', ro', hheld, hro', hvo⟩ := h.origin hr hvr
      by_cases hself : o' = x
      · subst hself
        obtain rfl := Option.some.inj (hrx.symm.trans hro')
        exact hvo
      · exact (hm o' x ro' rx hheld hself hlive hro' hrx kind).2 (mem_texts.2 ⟨hvo, hempty⟩)
    have htexts : ∀ kind, texts (items kind r) = texts (items kind rx) := fun kind =>
      (hext.grows kind).texts_eq (hnodup kind) (hsub kind)
    rw [embeddingText_eq, embeddingText_eq, htexts, htexts, hext.task, hext.approachSummary]
  · have hsame := h.unchanged hr fun o ho => habsorbs ⟨o, ho⟩
    rw [Option.some.inj (hrx.symm.trans hsame)]

/-- The document of a record that is left is the text of the record before. -/
theorem Consolidates.document_eq (h : Consolidates userId s consumed t) (hs : InSync s) {x : String} {e : Entry}
    (he : t.get? x = some e) (hu : e.metadata.userId = userId) :
    ∃ rx, (stored userId s).get? x = some rx ∧ e.document = rx.embeddingText := by
  obtain ⟨-, rx, hrx, -⟩ := h.before (get?_stored.2 ⟨e, he, hu, rfl⟩)
  obtain ⟨e₀, he₀, hdoc⟩ := h.frame.documents x e he
  obtain ⟨e₁, he₁, -, rfl⟩ := get?_stored.1 hrx
  obtain rfl := Option.some.inj (he₀.symm.trans he₁)
  exact ⟨_, hrx, hdoc.trans (hs x e₀ he₀)⟩

theorem Consolidates.inSync (h : Consolidates userId s consumed t) (hm : MergesNoNews userId s consumed)
    (hs : InSync s) : InSync t := by
  intro x e he
  by_cases hu : e.metadata.userId = userId
  · obtain ⟨rx, hrx, hdoc⟩ := h.document_eq hs he hu
    rw [hdoc, h.text_eq hm hrx (get?_stored.2 ⟨e, he, hu, rfl⟩)]
  · exact hs x e ((h.frame.others x e hu).1 he)

/-! ### A merge that brings something new -/

theorem length_text (l : List String) :
    ("\n".intercalate l).length = (l.map fun p => p.length + 1).sum - 1 := by
  have hsep : "\n".length = 1 := by decide
  rw [Text.length_intercalate, hsep]

/-- The embedded parts of a list that has grown start with those of the old one. -/
theorem Grows.exists_texts_append {old new : List String} (h : Grows old new) (hold : (texts old).Nodup) :
    ∃ rest, texts new = texts old ++ rest := by
  rcases h with rfl | ⟨-, rest, rfl⟩
  · exact ⟨[], by simp⟩
  · refine ⟨texts rest, ?_⟩
    have happ : texts (LongTermMemory.fromkeys old ++ rest) = texts (LongTermMemory.fromkeys old) ++ texts rest :=
      List.filter_append ..
    rw [happ, texts_fromkeys, fromkeys_of_nodup hold]

/-- A record that learns something from another one changes its text. -/
theorem Extends.text_ne {old new : MemoryRecord} (h : Extends old new)
    (hold : ∀ kind, (texts (items kind old)).Nodup) {kind : Knowledge} {v : String} (hv : v ∈ items kind new)
    (hnew : v ∉ items kind old) (hempty : v ≠ "") : new.embeddingText ≠ old.embeddingText := by
  obtain ⟨facts, hfacts⟩ := (h.grows .fact).exists_texts_append (hold .fact)
  obtain ⟨preferences, hpreferences⟩ := (h.grows .preference).exists_texts_append (hold .preference)
  have hrest : v ∈ facts ∨ v ∈ preferences := by
    have hvt : v ∈ texts (items kind new) := mem_texts.2 ⟨hv, hempty⟩
    have hvo : v ∉ texts (items kind old) := fun hm => hnew (mem_texts.1 hm).1
    cases kind with
    | fact =>
      rw [hfacts] at hvt
      exact Or.inl ((List.mem_append.1 hvt).resolve_left hvo)
    | preference =>
      rw [hpreferences] at hvt
      exact Or.inr ((List.mem_append.1 hvt).resolve_left hvo)
  have hlength : 1 ≤ v.length := by
    have hne : v.length ≠ 0 := fun hz => hempty (String.length_eq_zero_iff.1 hz)
    omega
  have hmore : 2 ≤ (facts.map fun p => p.length + 1).sum + (preferences.map fun p => p.length + 1).sum := by
    rcases hrest with hmem | hmem
    · have hle := List.single_le_sum (fun _ _ => Nat.zero_le _) _ (List.mem_map.2 ⟨v, hmem, rfl⟩ :
        v.length + 1 ∈ facts.map fun p => p.length + 1)
      omega
    · have hle := List.single_le_sum (fun _ _ => Nat.zero_le _) _ (List.mem_map.2 ⟨v, hmem, rfl⟩ :
        v.length + 1 ∈ preferences.map fun p => p.length + 1)
      omega
  intro htext
  have hlen := congrArg String.length htext
  rw [embeddingText_eq, embeddingText_eq, hfacts, hpreferences, h.task, h.approachSummary, length_text,
    length_text] at hlen
  simp only [List.map_append, List.sum_append] at hlen
  omega

/-- A merge of something new into a record that lists nothing twice leaves a document behind. -/
theorem Consolidates.not_inSync (h : Consolidates userId s consumed t) (hs : InSync s) {o x : String}
    {ro rx : MemoryRecord} (hheld : Held consumed o x) (hlive : consumed.get? x = none)
    (hro : (stored userId s).get? o = some ro) (hrx : (stored userId s).get? x = some rx)
    (hnodup : ∀ kind, (texts (items kind rx)).Nodup) (hnews : ¬ NoNews rx ro) : ¬ InSync t := by
  obtain ⟨kind, v, hvo, hvx⟩ : ∃ kind, ∃ v ∈ texts (items kind ro), v ∉ items kind rx := by
    by_contra hnone
    refine hnews fun kind => ⟨hnodup kind, fun v hv => ?_⟩
    by_contra hvx
    exact hnone ⟨kind, v, hv, hvx⟩
  obtain ⟨hvo, hempty⟩ := mem_texts.1 hvo
  obtain ⟨r, hr, hext⟩ := h.after hrx hlive
  have hknows := h.knows hheld hro hr kind hvo
  intro ht
  obtain ⟨e, he, hu, rfl⟩ := get?_stored.1 hr
  obtain ⟨rx', hrx', hdoc⟩ := h.document_eq hs he hu
  obtain rfl := Option.some.inj (hrx.symm.trans hrx')
  exact hext.text_ne hnodup hknows hvx hempty ((ht x e he).symm.trans hdoc)

/-! ### Runs -/

/-- A consolidation merges no news; any other call is fine. -/
def KeepsText (s : Collection) (e : Operation × Dict String String) : Prop :=
  ∀ userId, e.1 = .consolidate userId → MergesNoNews userId s e.2

theorem deleteUserMemories_spec {n : Nat} (h : (deleteUserMemories userId).Runs Executes s n t) (id : String)
    (e : Entry) (he : t.get? id = some e) : s.get? id = some e := by
  obtain ⟨records, u, hget, hrest⟩ := Prog.Runs.bind_iff.1 h
  obtain ⟨rfl, -⟩ := getRecords_spec hget
  split at hrest
  · obtain ⟨_, v, hdelete, hret⟩ := Prog.Runs.bind_iff.1 hrest
    obtain ⟨-, rfl⟩ := Prog.Runs.ret_iff.1 hret
    obtain rfl : t = deleteOfUser u userId := Prog.Runs.perform_iff.1 hdelete
    unfold deleteOfUser at he
    rw [Dict.get?_filterMap, Option.bind_eq_some_iff] at he
    obtain ⟨e', he', hkept⟩ := he
    split at hkept
    · exact absurd hkept (by simp)
    · rw [he', hkept]
  · obtain ⟨-, rfl⟩ := Prog.Runs.ret_iff.1 hrest
    exact he

theorem InSync.step {mem : LongTermMemory} {e : Operation × Dict String String} (h : InSync s)
    (hs : Step mem s e t) (hk : KeepsText s e) : InSync t := by
  obtain ⟨op, consumed⟩ := e
  cases op with
  | add record =>
    obtain ⟨_, hrun, -⟩ := Prog.Runs.map_iff.1 hs
    obtain rfl : t = addEntry s record.id _ := Prog.Runs.perform_iff.1 hrun
    exact h.add record
  | query queryText userId topK now =>
    obtain ⟨_, hrun, -⟩ := Prog.Runs.map_iff.1 hs
    obtain ⟨_, -, hfound⟩ := (follows_query mem queryText userId topK now).runs Found.step
      ⟨h, fun record hrecord => absurd hrecord List.not_mem_nil⟩ hrun
    exact hfound.1
  | consolidate userId =>
    obtain ⟨result, hrun, hconsumed⟩ := Prog.Runs.map_iff.1 hs
    obtain ⟨consumed', rfl, hc⟩ := consolidation_spec hrun
    obtain rfl : consumed = consumed' := hconsumed
    exact hc.inSync (hk userId rfl) h
  | expire userId now =>
    obtain ⟨_, hrun, -⟩ := Prog.Runs.map_iff.1 hs
    exact h.of_subset fun id e he => ((expire_spec hrun id e).1 he).1
  | delete memoryId =>
    obtain ⟨_, hrun, -⟩ := Prog.Runs.map_iff.1 hs
    obtain rfl : t = deleteIds s [memoryId] := Prog.Runs.perform_iff.1 hrun
    refine h.of_subset fun id e he => ?_
    rw [get?_deleteIds] at he
    split at he
    · exact absurd he (by simp)
    · exact he
  | deleteUserMemories userId =>
    obtain ⟨_, hrun, -⟩ := Prog.Runs.map_iff.1 hs
    exact h.of_subset fun id e he => deleteUserMemories_spec hrun id e he

/-- The search index matches the stored memory after every sequence of calls in which consolidations merge no news. -/
theorem inSync_of_exec {mem : LongTermMemory} {tr : List (Operation × Dict String String)}
    (hr : Exec (fun s e t => Step mem s e t ∧ KeepsText s e) ∅ tr s) : InSync s :=
  hr.stateInvariant InSync (fun _ _ he => absurd he (by simp)) fun _ _ _ h hs => h.step hs.1 hs.2

/-- The same fact twice. -/
private def sameFact : Collection :=
  ((add (acme "m2" "Reports in EUR." 0)).eval (Chroma.exec allNear)
    ((add (acme "m1" "Reports in EUR." 0)).eval (Chroma.exec allNear) ∅).2).2

private theorem step_add (record : MemoryRecord) (s : Collection) :
    Step sampleMemory s (.add record, ∅) ((add record).eval (Chroma.exec allNear) s).2 :=
  Prog.Runs.map_iff.2 ⟨_, Prog.runs_of_eval (executes_exec allNear) _ s, rfl⟩

private theorem step_consolidate (s : Collection) : ∃ consumed, Step sampleMemory s (.consolidate "alice", consumed)
    ((consolidation sampleMemory "alice").eval (Chroma.exec allNear) s).2 :=
  ⟨_, Prog.Runs.map_iff.2 ⟨_, Prog.runs_of_eval (executes_exec allNear) _ s, rfl⟩⟩

/-- Merging the same fact again keeps the index in step. -/
theorem inSync_sameFact : ∃ tr s,
    Exec (Step sampleMemory) ∅ tr s ∧ InSync s ∧ (stored "alice" s).values.length = 1 := by
  obtain ⟨consumed, hstep⟩ := step_consolidate sameFact
  have hsame : ∀ r ∈ (stored "alice" sameFact).values, r.facts = ["Reports in EUR."] ∧ r.preferences = [] := by
    decide +kernel
  have hkeeps : KeepsText sameFact (.consolidate "alice", consumed) := by
    intro userId hu o x ro rx _ _ _ ho hx kind
    obtain rfl := Operation.consolidate.inj hu
    obtain ⟨hfo, hpo⟩ := hsame ro (Dict.mem_values_iff.2 ⟨o, ho⟩)
    obtain ⟨hfx, hpx⟩ := hsame rx (Dict.mem_values_iff.2 ⟨x, hx⟩)
    cases kind with
    | fact => simp [items, texts, hfo, hfx]
    | preference => simp [items, texts, hpo, hpx]
  have hadds : ∀ record s, KeepsText s (.add record, ∅) := fun record s userId hu => absurd hu (by simp)
  have hrun : Exec (fun s e t => Step sampleMemory s e t ∧ KeepsText s e) ∅ _ _ :=
    ((Exec.single ⟨step_add (acme "m1" "Reports in EUR." 0) ∅, hadds _ ∅⟩).snoc
      ⟨step_add (acme "m2" "Reports in EUR." 0) _, hadds _ _⟩).snoc ⟨hstep, hkeeps⟩
  exact ⟨_, _, hrun.mono fun _ _ _ h => h.1, inSync_of_exec hrun, by decide +kernel⟩

/-- The fact of the record merged away is not in the document of the record that lists it. -/
theorem merged_fact_not_indexed : ∃ tr s, Exec (Step sampleMemory) ∅ tr s ∧ ¬ InSync s := by
  obtain ⟨consumed, hstep⟩ := step_consolidate (twoRecords 0)
  have hrun := ((Exec.single (step_add (acme "m1" "Fiscal year ends in June." 0) ∅)).snoc
    (step_add (acme "m2" "Reports in EUR." 0) _)).snoc hstep
  refine ⟨_, _, hrun, fun h => ?_⟩
  have hbehind : ((((consolidation sampleMemory "alice").eval (Chroma.exec allNear) (twoRecords 0)).2.get? "m1").map
      fun e => decide (e.document = (fromResult "m1" e.metadata).embeddingText)) = some false := by decide +kernel
  obtain ⟨e, he, hdoc⟩ := Option.map_eq_some_iff.1 hbehind
  exact absurd (h "m1" e he) (of_decide_eq_false hdoc)

end AgentOrchestrator.LongTermMemory
