import AgentOrchestrator.Lib.Absorption
import AgentOrchestrator.Memory.LongTerm

/-!
# Consolidation

Consolidation makes records of the user absorb one another, writes each record that has had its turn, and deletes the
absorbed ones.  `protocol` says so for one run of it in any company: whatever the calls answer, as long as a query finds
no near record that was not listed, what it writes and deletes is what a sequence of absorptions of the listed records
calls for.  Run alone it can rely on that, and nothing is lost (`consolidate_conserves`).
-/

namespace AgentOrchestrator.LongTermMemory

open Chroma

/-! ### One record absorbs another -/

theorem mem_fromkeys {l : List String} {x : String} : x ∈ fromkeys l ↔ x ∈ l := by
  unfold fromkeys
  rw [Dict.mem_keys_iff]
  simp

theorem nodup_fromkeys (l : List String) : (fromkeys l).Nodup := (Dict.ofKeys l fun _ => ()).nodup

theorem fromkeys_snoc (l : List String) (x : String) :
    fromkeys (l ++ [x]) = if x ∈ l then fromkeys l else fromkeys l ++ [x] := by
  have hinsert : Dict.ofKeys (l ++ [x]) (fun _ => ()) = (Dict.ofKeys l fun _ => ()).insert x () := by
    simp [Dict.ofKeys, Dict.ofList]
  have hmem : x ∈ (Dict.ofKeys l fun _ => ()).keys ↔ x ∈ l := mem_fromkeys
  unfold fromkeys
  rw [hinsert, Dict.keys_insert]
  simp only [hmem]

theorem fromkeys_prefix (l l' : List String) : fromkeys l <+: fromkeys (l ++ l') := by
  induction l' using List.reverseRecOn with
  | nil => simp
  | append_singleton l' x ih =>
    rw [← List.append_assoc, fromkeys_snoc]
    split
    · exact ih
    · exact ih.trans (List.prefix_append _ _)

theorem fromkeys_of_nodup {l : List String} (h : l.Nodup) : fromkeys l = l := by
  induction l using List.reverseRecOn with
  | nil => rfl
  | append_singleton l x ih =>
    obtain ⟨hl, -, hx⟩ := List.nodup_append.1 h
    have hnew : x ∉ l := fun hm => hx x hm x (List.mem_singleton_self x) rfl
    rw [fromkeys_snoc, if_neg hnew, ih hl]

/-- The new list is the old one, or it has no duplicates and starts with the old one without its duplicates. -/
def Grows (old new : List String) : Prop := new = old ∨ new.Nodup ∧ fromkeys old <+: new

theorem Grows.refl (l : List String) : Grows l l := Or.inl rfl

theorem Grows.fromkeys {old new : List String} (h : Grows old new) (l : List String) :
    Grows old (fromkeys (new ++ l)) := by
  refine Or.inr ⟨nodup_fromkeys _, ?_⟩
  rcases h with rfl | ⟨hnodup, hprefix⟩
  · exact fromkeys_prefix new l
  · have hkeep := fromkeys_prefix new l
    rw [fromkeys_of_nodup hnodup] at hkeep
    exact hprefix.trans hkeep

theorem Grows.subset {old new : List String} (h : Grows old new) : old ⊆ new := by
  intro x hx
  rcases h with rfl | ⟨-, hprefix⟩
  · exact hx
  · exact hprefix.subset (mem_fromkeys.2 hx)

/-- What a record keeps of itself whatever it absorbs. -/
structure Extends (old new : MemoryRecord) : Prop where
  id : new.id = old.id
  userId : new.userId = old.userId
  task : new.task = old.task
  approachSummary : new.approachSummary = old.approachSummary
  createdAt : new.createdAt = old.createdAt
  lastAccessedAt : new.lastAccessedAt = old.lastAccessedAt
  facts : Grows old.facts new.facts
  preferences : Grows old.preferences new.preferences
  toolsUsed : Grows old.toolsUsed new.toolsUsed

theorem Extends.refl (r : MemoryRecord) : Extends r r where
  id := rfl
  userId := rfl
  task := rfl
  approachSummary := rfl
  createdAt := rfl
  lastAccessedAt := rfl
  facts := Grows.refl _
  preferences := Grows.refl _
  toolsUsed := Grows.refl _

theorem Extends.absorb {old x : MemoryRecord} (h : Extends old x) (y : MemoryRecord) : Extends old (absorb x y) where
  id := h.id
  userId := h.userId
  task := h.task
  approachSummary := h.approachSummary
  createdAt := h.createdAt
  lastAccessedAt := h.lastAccessedAt
  facts := h.facts.fromkeys _
  preferences := h.preferences.fromkeys _
  toolsUsed := h.toolsUsed.fromkeys _

/-- What a record knows. -/
inductive Knowledge where
  | fact
  | preference

def items : Knowledge → MemoryRecord → List String
  | .fact, r => r.facts
  | .preference, r => r.preferences

theorem items_absorb (kind : Knowledge) (x y : MemoryRecord) :
    items kind (absorb x y) = fromkeys (items kind x ++ items kind y) := by
  cases kind with
  | fact => rfl
  | preference => rfl

/-- A record that has absorbed another one knows what either knew. -/
theorem mem_items_absorb {kind : Knowledge} {x y : MemoryRecord} {v : String} :
    v ∈ items kind (absorb x y) ↔ v ∈ items kind x ∨ v ∈ items kind y := by
  rw [items_absorb, mem_fromkeys, List.mem_append]

theorem Extends.grows {old new : MemoryRecord} (h : Extends old new) (kind : Knowledge) :
    Grows (items kind old) (items kind new) := by
  cases kind with
  | fact => exact h.facts
  | preference => exact h.preferences

/-- The ids are the keys. -/
def Keyed (records : Dict String MemoryRecord) : Prop := ∀ k r, records.get? k = some r → r.id = k

theorem Keyed.insert {records : Dict String MemoryRecord} (h : Keyed records) (record : MemoryRecord) :
    Keyed (records.insert record.id record) := by
  intro k r hk
  rw [Dict.get?_insert] at hk
  split at hk
  · rename_i hid
    rw [← Option.some.inj hk, hid]
  · exact h k r hk

/-- A query has found nothing near that was not listed. -/
def FindsKnown (mem : LongTermMemory) (known : Dict String MemoryRecord) (hits : List Hit) : Prop :=
  ∀ hit ∈ hits, mem.consolidationSimilarityThreshold ≤ 1 - hit.distance → ∃ r, known.get? hit.id = some r

/-- The loop over the neighbours: the record absorbs some of them. -/
theorem mergeNeighbors_spec {mem : LongTermMemory} {d₀ records : Dict String MemoryRecord} (hkeyed : Keyed records)
    (hits : List Hit) {old record : MemoryRecord} (hext : Extends old record) {consumed : Dict String String}
    (h : Absorptions absorb d₀ (records.insert record.id record) consumed) (hlive : consumed.get? record.id = none)
    (hknown : FindsKnown mem records hits) :
    ∃ record' consumed', mergeNeighbors mem records hits record consumed = .ok (record', consumed') ∧
      Extends old record' ∧ consumed'.get? record'.id = none ∧
      Absorptions absorb d₀ (records.insert record'.id record') consumed' := by
  induction hits generalizing record consumed with
  | nil => exact ⟨record, consumed, rfl, hext, hlive, h⟩
  | cons hit hits ih =>
    have hrest : FindsKnown mem records hits := fun hit' hm => hknown hit' (List.mem_cons_of_mem _ hm)
    unfold mergeNeighbors
    -- the record itself and what has been absorbed already are passed over, and so is what is not similar enough
    by_cases hskip : hit.id = record.id ∨ hit.id ∈ consumed.keys
    · rw [if_pos hskip]
      exact ih hext h hlive hrest
    · rw [if_neg hskip]
      by_cases hfar : 1 - hit.distance < mem.consolidationSimilarityThreshold
      · rw [if_pos hfar]
        exact ih hext h hlive hrest
      · rw [if_neg hfar]
        obtain ⟨other, hother⟩ := hknown hit List.mem_cons_self (not_lt.1 hfar)
        obtain ⟨hne, hfresh⟩ := not_or.1 hskip
        have hid : other.id = hit.id := hkeyed hit.id other hother
        have hnone : consumed.get? hit.id = none := Dict.get?_eq_none_iff.2 hfresh
        have hstep : Absorptions absorb d₀ (records.insert record.id (absorb record other))
            (consumed.insert other.id record.id) := by
          have habsorb := h.absorb (a := record.id) (o := hit.id) (x := record) (y := other) (by simp [Dict.get?_insert])
            (by rw [Dict.get?_insert, if_neg hne, hother]) hne hlive hnone
          rwa [Dict.insert_insert, ← hid] at habsorb
        have hlive' : (consumed.insert other.id record.id).get? record.id = none := by
          rw [Dict.get?_insert, if_neg (hid ▸ Ne.symm hne), hlive]
        rw [hother]
        exact ih (hext.absorb other) hstep hlive' hrest

/-- The records that one of the id absorbs in its turn, if they have not been absorbed before. -/
def nearIds (mem : LongTermMemory) (id : String) (hits : List Hit) : List String :=
  (hits.filter fun hit => hit.id ≠ id ∧ mem.consolidationSimilarityThreshold ≤ 1 - hit.distance).map Hit.id

theorem mem_nearIds (mem : LongTermMemory) (id : String) (hits : List Hit) (x : String) : x ∈ nearIds mem id hits ↔
    x ≠ id ∧ ∃ hit ∈ hits, hit.id = x ∧ mem.consolidationSimilarityThreshold ≤ 1 - hit.distance := by
  simp only [nearIds, List.mem_map, List.mem_filter, decide_eq_true_iff]
  constructor
  · rintro ⟨hit, ⟨hhit, hne, hnear⟩, rfl⟩
    exact ⟨hne, hit, hhit, rfl, hnear⟩
  · rintro ⟨hne, hit, hhit, rfl, hnear⟩
    exact ⟨hit, ⟨hhit, hne, hnear⟩, rfl⟩

theorem mem_nearIds_cons (mem : LongTermMemory) (id : String) (hit : Hit) (hits : List Hit) (x : String) :
    x ∈ nearIds mem id (hit :: hits) ↔
      (x ≠ id ∧ hit.id = x ∧ mem.consolidationSimilarityThreshold ≤ 1 - hit.distance) ∨ x ∈ nearIds mem id hits := by
  rw [mem_nearIds, mem_nearIds, List.exists_mem_cons_iff, ← and_or_left]

/-- The neighbours that are consumed in the turn of a record are the near ones that have not been consumed before. -/
theorem get?_mergeNeighbors {mem : LongTermMemory} {records : Dict String MemoryRecord} (hkeyed : Keyed records)
    (hits : List Hit) {record record' : MemoryRecord} {consumed consumed' : Dict String String}
    (h : mergeNeighbors mem records hits record consumed = .ok (record', consumed')) :
    record'.id = record.id ∧ record'.userId = record.userId ∧ (∀ x, consumed'.get? x =
      if consumed.get? x = none ∧ x ∈ nearIds mem record.id hits then some record.id else consumed.get? x) ∧
      ∀ x ∈ consumed'.keys, x ∈ consumed.keys ∨ x ∈ records.keys := by
  induction hits generalizing record consumed with
  | nil =>
    obtain ⟨rfl, rfl⟩ := Prod.mk.inj (Except.ok.inj h)
    exact ⟨rfl, rfl, fun x => by simp [nearIds], fun x => Or.inl⟩
  | cons hit hits ih =>
    unfold mergeNeighbors at h
    by_cases hskip : hit.id = record.id ∨ hit.id ∈ consumed.keys
    · rw [if_pos hskip] at h
      obtain ⟨hid, huser, hget, hkeys⟩ := ih h
      refine ⟨hid, huser, fun x => ?_, hkeys⟩
      have hsame : (consumed.get? x = none ∧ x ∈ nearIds mem record.id hits) ↔
          consumed.get? x = none ∧ x ∈ nearIds mem record.id (hit :: hits) := by
        refine and_congr_right fun hnone => ?_
        rw [mem_nearIds_cons, or_iff_right]
        rintro ⟨hne, rfl, -⟩
        exact Dict.get?_eq_none_iff.1 hnone (hskip.resolve_left hne)
      rw [hget, if_congr hsame rfl rfl]
    · rw [if_neg hskip] at h
      obtain ⟨hne, hfresh⟩ := not_or.1 hskip
      by_cases hfar : 1 - hit.distance < mem.consolidationSimilarityThreshold
      · rw [if_pos hfar] at h
        obtain ⟨hid, huser, hget, hkeys⟩ := ih h
        refine ⟨hid, huser, fun x => ?_, hkeys⟩
        have hsame : x ∈ nearIds mem record.id hits ↔ x ∈ nearIds mem record.id (hit :: hits) := by
          rw [mem_nearIds_cons, or_iff_right]
          exact fun hhit => not_le.2 hfar hhit.2.2
        rw [hget, if_congr (and_congr_right fun _ => hsame) rfl rfl]
      · rw [if_neg hfar] at h
        cases hother : records.get? hit.id with
        | none =>
          rw [hother] at h
          exact absurd h (by simp)
        | some other =>
          rw [hother] at h
          obtain ⟨hid, huser, hget, hkeys⟩ := ih h
          have hotherId : other.id = hit.id := hkeyed hit.id other hother
          have hnone : consumed.get? hit.id = none := Dict.get?_eq_none_iff.2 hfresh
          rw [hotherId] at hget hkeys
          refine ⟨hid, huser, fun x => ?_, fun x hx => ?_⟩
          · by_cases hx : x = hit.id
            · subst hx
              have htaken : (consumed.insert hit.id record.id).get? hit.id = some record.id := by
                rw [Dict.get?_insert, if_pos rfl]
              rw [hget, htaken, if_neg fun hsome => absurd hsome.1 (by simp), if_pos]
              exact ⟨hnone, (mem_nearIds_cons mem record.id hit hits _).2 (Or.inl ⟨hne, rfl, not_lt.1 hfar⟩)⟩
            · have hsame : x ∈ nearIds mem record.id hits ↔ x ∈ nearIds mem record.id (hit :: hits) := by
                rw [mem_nearIds_cons, or_iff_right]
                exact fun hhit => hx hhit.2.1.symm
              have hbefore : (consumed.insert hit.id record.id).get? x = consumed.get? x := by
                rw [Dict.get?_insert, if_neg hx]
              rw [hget, hbefore]
              exact if_congr (and_congr_right fun _ => hsame) rfl rfl
          · rcases hkeys x hx with hmem | hmem
            · rcases Dict.mem_keys_insert.1 hmem with rfl | hmem
              · exact Or.inr (Dict.mem_keys_iff.2 ⟨other, hother⟩)
              · exact Or.inl hmem
            · exact Or.inr hmem

theorem mem_keys_mergeNeighbors {mem : LongTermMemory} {records : Dict String MemoryRecord} (hkeyed : Keyed records)
    (hits : List Hit) {record record' : MemoryRecord} {consumed consumed' : Dict String String}
    (h : mergeNeighbors mem records hits record consumed = .ok (record', consumed')) (x : String) :
    x ∈ consumed'.keys ↔ x ∈ consumed.keys ∨
      x ≠ record.id ∧ ∃ hit ∈ hits, hit.id = x ∧ mem.consolidationSimilarityThreshold ≤ 1 - hit.distance := by
  obtain ⟨-, -, hget, -⟩ := get?_mergeNeighbors hkeyed hits h
  rw [Dict.mem_keys_iff, hget, ← mem_nearIds, Dict.mem_keys_iff]
  cases hx : consumed.get? x with
  | none => simp
  | some a => simp

/-- A record does not go in its own turn. -/
theorem not_consumed_mergeNeighbors {mem : LongTermMemory} {records : Dict String MemoryRecord} (hkeyed : Keyed records)
    (hits : List Hit) {record record' : MemoryRecord} {consumed consumed' : Dict String String}
    (h : mergeNeighbors mem records hits record consumed = .ok (record', consumed')) (hlive : record.id ∉ consumed.keys) :
    record'.id ∉ consumed'.keys := by
  obtain ⟨hid, -⟩ := get?_mergeNeighbors hkeyed hits h
  rw [mem_keys_mergeNeighbors hkeyed hits h, hid]
  rintro (hgone | ⟨hne, -⟩)
  · exact hlive hgone
  · exact hne rfl

/-! ### What a run does, whatever the calls answer -/

/-- What consolidation has listed, what it has last read or written of it, and what it has deleted. -/
structure Progress where
  listed : Option (Dict String MemoryRecord) := none
  known : Dict String MemoryRecord := ∅
  deleted : List String := []

/-- The records of a result, by their ids. -/
def recordsOf (results : List (String × Metadata)) : Dict String MemoryRecord :=
  Dict.ofList ((results.map fun e => fromResult e.1 e.2).map fun r => (r.id, r))

def Progress.next (g : Progress) (c : Command) (r : Response c) : Progress :=
  match c, r with
  | .get _, results => { g with listed := some (recordsOf results), known := recordsOf results }
  | .update id metadata, _ => { g with known := g.known.insert id (fromResult id metadata) }
  | .delete ids, _ => { g with deleted := ids }
  | _, _ => g

/-- Consolidation lists the records once, rewrites some of those that have not been absorbed, and deletes the absorbed
ones. -/
def protocol (mem : LongTermMemory) (userId : String) : Protocol Command Response Progress where
  next := Progress.next
  guarantee g c :=
    match c with
    | .get user? => user? = some userId ∧ g.listed = none
    | .query _ _ user? => user? = some userId ∧ g.deleted = [] ∧ ∃ d₀, g.listed = some d₀
    | .update id metadata => ∃ d₀ old record, g.listed = some d₀ ∧ g.deleted = [] ∧ g.known.get? id = some old ∧
        Extends old record ∧ record.id = id ∧ metadata = toMetadata record
    | .delete ids => ∃ d₀ consumed, g.listed = some d₀ ∧ g.deleted = [] ∧ Absorptions absorb d₀ g.known consumed ∧
        ids = consumed.keys
    | _ => False
  rely g c r :=
    match c, r with
    | .query _ _ _, hits => FindsKnown mem g.known hits
    | _, _ => True

/-- The absorbed records are those it has deleted. -/
def Consolidated (g : Progress) (result : Except MemoryError (Dict String String)) : Prop :=
  ∃ d₀ consumed, g.listed = some d₀ ∧ Absorptions absorb d₀ g.known consumed ∧ g.deleted = consumed.keys ∧
    result = .ok consumed

/-- All records have had their turn. -/
def Merged (d₀ : Dict String MemoryRecord) (g : Progress) (result : Except MemoryError (Dict String String)) : Prop :=
  ∃ consumed, g.listed = some d₀ ∧ Absorptions absorb d₀ g.known consumed ∧ g.deleted = [] ∧ result = .ok consumed

/-- What consolidation has done, what its last query has found, and what has been merged into the records it has written. -/
structure Ledger where
  progress : Progress := {}
  found : List Hit := []
  merged : List String := []

def Ledger.next (mem : LongTermMemory) (g : Ledger) (c : Command) (r : Response c) : Ledger where
  progress := g.progress.next c r
  found :=
    match c, r with
    | .query _ _ _, hits => hits
    | _, _ => g.found
  merged :=
    match c with
    | .update id _ => g.merged ++ nearIds mem id g.found
    | _ => g.merged

/-- What consolidation has written at any moment is what a sequence of absorptions calls for, those of the records it has
found for the records it has written. -/
def ledger (mem : LongTermMemory) (userId : String) : Protocol Command Response Ledger where
  next := Ledger.next mem
  guarantee g c := (protocol mem userId).guarantee g.progress c ∧
    match c with
    | .update id metadata => ∃ d₀ consumed, g.progress.listed = some d₀ ∧
        Absorptions absorb d₀ (g.progress.known.insert id (fromResult id metadata)) consumed ∧
          ∀ o, o ∈ consumed.keys ↔ o ∈ g.merged ++ nearIds mem id g.found
    | .delete ids => ids ≠ []
    | _ => True
  rely g := (protocol mem userId).rely g.progress

theorem follows_mergeRecords {mem : LongTermMemory} {userId : String} {d₀ : Dict String MemoryRecord}
    (rest : List MemoryRecord) {records : Dict String MemoryRecord} {consumed : Dict String String} {found : List Hit}
    {merged : List String} (h : Absorptions absorb d₀ records consumed) (hkeyed : Keyed records)
    (hrest : ∀ r ∈ rest, records.get? r.id = some r) (hnodup : (rest.map MemoryRecord.id).Nodup)
    (hmerged : ∀ o, o ∈ consumed.keys ↔ o ∈ merged) :
    (mergeRecords mem userId rest records consumed).Follows (ledger mem userId)
      (fun g result => Merged d₀ g.progress result) ⟨{ listed := some d₀, known := records }, found, merged⟩ := by
  induction rest generalizing records consumed found merged with
  | nil => exact ⟨consumed, rfl, h, rfl, rfl⟩
  | cons record rest ih =>
    obtain ⟨hfresh, hnodup'⟩ := List.nodup_cons.1 hnodup
    have hrecord := hrest record List.mem_cons_self
    have hrest' : ∀ r ∈ rest, records.get? r.id = some r := fun r hr => hrest r (List.mem_cons_of_mem _ hr)
    unfold mergeRecords
    by_cases hgone : record.id ∈ consumed.keys
    · -- absorbed in the turn of another record
      rw [if_pos hgone]
      exact ih h hkeyed hrest' hnodup' hmerged
    · rw [if_neg hgone]
      have hlive : consumed.get? record.id = none := Dict.get?_eq_none_iff.2 hgone
      refine ⟨⟨⟨rfl, rfl, d₀, rfl⟩, trivial⟩, fun hits hknown => ?_⟩
      obtain ⟨record', consumed', hrun, hext, hlive', habs⟩ := mergeNeighbors_spec hkeyed hits (Extends.refl record)
        ((Dict.insert_of_get? hrecord).symm ▸ h) hlive hknown
      have hkeys := mem_keys_mergeNeighbors hkeyed hits hrun
      -- no record is absorbed in its own turn, so it is written at the end of it
      have hlive'' : record'.id ∉ consumed'.keys := by
        intro hmem
        obtain ⟨a, ha⟩ := Dict.mem_keys_iff.1 hmem
        exact absurd (hlive'.symm.trans ha) (by simp)
      have hturn : ∀ r ∈ rest, (records.insert record'.id record').get? r.id = some r := by
        intro r hr
        have hne : r.id ≠ record'.id := fun he => hfresh (List.mem_map.2 ⟨r, hr, he.trans hext.id⟩)
        rw [Dict.get?_insert, if_neg hne]
        exact hrest' r hr
      have hmerged' : ∀ o, o ∈ consumed'.keys ↔ o ∈ merged ++ nearIds mem record'.id hits := by
        intro o
        rw [hkeys, List.mem_append, hmerged, mem_nearIds mem record'.id hits, hext.id]
      dsimp only [Prog.bind]
      rw [hrun]
      dsimp only
      rw [if_pos hlive'']
      refine ⟨⟨⟨d₀, record, record', rfl, rfl, hext.id.symm ▸ hrecord, hext, rfl, rfl⟩, d₀, consumed', rfl, habs, hmerged'⟩,
        fun _ _ => ?_⟩
      exact ih habs (hkeyed.insert record') hturn hnodup' hmerged'

theorem keyed_recordsOf (results : List (String × Metadata)) : Keyed (recordsOf results) := by
  intro k r hk
  obtain ⟨r', -, hr⟩ := List.mem_map.1 (Dict.mem_of_get?_ofList hk)
  obtain ⟨rfl, rfl⟩ := Prod.mk.inj hr
  rfl

theorem Keyed.get?_id {records : Dict String MemoryRecord} (h : Keyed records) {r : MemoryRecord}
    (hr : r ∈ records.values) : records.get? r.id = some r := by
  obtain ⟨k, hk⟩ := Dict.mem_values_iff.1 hr
  rwa [h k r hk]

theorem Keyed.map_id {records : Dict String MemoryRecord} (h : Keyed records) :
    records.values.map MemoryRecord.id = records.keys := by
  unfold Dict.values Dict.keys
  rw [List.map_map]
  refine List.map_congr_left fun e he => ?_
  exact h e.1 e.2 (Dict.mem_items_iff.1 he)

theorem keys_recordsOf {results : List (String × Metadata)} (h : (results.map Prod.fst).Nodup) :
    (recordsOf results).keys = results.map Prod.fst := by
  have hids : ((results.map fun e => fromResult e.1 e.2).map fun r => (r.id, r)).map Prod.fst =
      results.map Prod.fst := by
    rw [List.map_map, List.map_map]
    rfl
  unfold recordsOf Dict.keys
  rw [Dict.items_ofList_of_nodup (hids ▸ h), hids]

theorem follows_ledger (mem : LongTermMemory) (userId : String) :
    (consolidation mem userId).Follows (ledger mem userId) (fun g => Consolidated g.progress) {} := by
  refine ⟨⟨⟨rfl, rfl⟩, trivial⟩, fun results _ => ?_⟩
  have hkeyed := keyed_recordsOf results
  show Prog.Follows (ledger mem userId) _ (if (recordsOf results).length < 2 then _ else _)
    ⟨{ listed := some (recordsOf results), known := recordsOf results }, [], []⟩
  split
  · exact ⟨recordsOf results, ∅, rfl, .refl, rfl, rfl⟩
  · refine Prog.Follows.bind (follows_mergeRecords _ .refl hkeyed (fun r hr => hkeyed.get?_id hr)
      (hkeyed.map_id ▸ (recordsOf results).nodup) fun _ => Iff.rfl) ?_
    rintro g result ⟨consumed, hlisted, habs, hdeleted, rfl⟩
    dsimp only
    split
    · rename_i hsome
      have hkeys : consumed.keys ≠ [] := fun hnone => hsome (List.isEmpty_iff.2 (List.map_eq_nil_iff.1 hnone))
      exact ⟨⟨⟨_, consumed, hlisted, hdeleted, habs, rfl⟩, hkeys⟩, fun _ _ => ⟨_, consumed, hlisted, habs, rfl, rfl⟩⟩
    · rename_i hempty
      refine ⟨_, consumed, hlisted, habs, ?_, rfl⟩
      rw [hdeleted, Dict.eq_empty_of_isEmpty (not_not.1 hempty)]
      rfl

theorem follows_consolidation (mem : LongTermMemory) (userId : String) :
    (consolidation mem userId).Follows (protocol mem userId) Consolidated {} :=
  Prog.Follows.project (P := ledger mem userId) (Q := protocol mem userId) Ledger.progress (fun _ _ _ => rfl)
    (fun _ _ h => h.1) (fun _ _ _ h => h) (fun _ _ h => h) (follows_ledger mem userId)

/-! ### Consolidation alone -/

/-- The records of the user. -/
def stored (userId : String) (s : Collection) : Dict String MemoryRecord :=
  s.filterMap fun id e => if e.metadata.userId = userId then some (fromResult id e.metadata) else none

theorem get?_stored {userId : String} {s : Collection} {id : String} {r : MemoryRecord} :
    (stored userId s).get? id = some r ↔
      ∃ e, s.get? id = some e ∧ e.metadata.userId = userId ∧ fromResult id e.metadata = r := by
  unfold stored
  rw [Dict.get?_filterMap, Option.bind_eq_some_iff]
  refine exists_congr fun e => and_congr_right fun _ => ?_
  by_cases hu : e.metadata.userId = userId
  · simp [hu]
  · simp [hu]

theorem keyed_stored (userId : String) (s : Collection) : Keyed (stored userId s) := by
  intro k r hk
  obtain ⟨e, -, -, rfl⟩ := get?_stored.1 hk
  rfl

theorem get?_recordsOf {userId : String} {s : Collection} {results : List (String × Metadata)}
    (h : results.Perm (select (some userId) s)) (k : String) :
    (recordsOf results).get? k = (stored userId s).get? k := by
  have hnodup : (((results.map fun e => fromResult e.1 e.2).map fun r => (r.id, r)).map Prod.fst).Nodup := by
    rw [List.map_map, List.map_map]
    exact (h.map Prod.fst).nodup_iff.2 (nodup_select _ _)
  refine Option.ext fun r => ?_
  unfold recordsOf
  rw [Dict.get?_ofList_of_nodup hnodup, get?_stored]
  simp only [List.map_map, List.mem_map, Function.comp_apply, Prod.mk.injEq, Prod.exists, h.mem_iff, mem_select]
  constructor
  · rintro ⟨id, m, ⟨e, he, rfl, hu⟩, rfl, rfl⟩
    exact ⟨e, he, by simpa [Metadata.ofUser, eq_comm] using hu, rfl⟩
  · rintro ⟨e, he, hu, rfl⟩
    exact ⟨k, e.metadata, ⟨e, he, rfl, by simp [Metadata.ofUser, hu]⟩, rfl, rfl⟩

/-- Other users are not touched, and no document is. -/
structure Frame (userId : String) (s t : Collection) : Prop where
  others : ∀ id e, e.metadata.userId ≠ userId → (t.get? id = some e ↔ s.get? id = some e)
  documents : ∀ id e, t.get? id = some e → ∃ e₀, s.get? id = some e₀ ∧ e.document = e₀.document

theorem Frame.refl (userId : String) (s : Collection) : Frame userId s s :=
  ⟨fun _ _ _ => Iff.rfl, fun _ e he => ⟨e, he, rfl⟩⟩

/-- What a run alone has made of the collection `s₀`. -/
structure Alone (userId : String) (s₀ : Collection) (g : Progress) (s : Collection) : Prop where
  start : g.listed = none → s = s₀ ∧ g.deleted = []
  listed : ∀ d₀, g.listed = some d₀ → ∀ k, d₀.get? k = (stored userId s₀).get? k
  records : ∀ d₀, g.listed = some d₀ → ∀ k,
    (stored userId s).get? k = if k ∈ g.deleted then none else g.known.get? k
  frame : Frame userId s₀ s

theorem Frame.update {userId : String} {s₀ s : Collection} (h : Frame userId s₀ s) {record old : MemoryRecord}
    (hold : (stored userId s).get? record.id = some old) (hext : Extends old record) :
    Frame userId s₀ (updateMetadata s record.id (toMetadata record)) ∧
      ∀ k, (stored userId (updateMetadata s record.id (toMetadata record))).get? k =
        ((stored userId s).insert record.id record).get? k := by
  obtain ⟨e, he, hu, rfl⟩ := get?_stored.1 hold
  have huser : record.userId = userId := hext.userId.trans hu
  refine ⟨⟨fun id e' hne => ?_, fun id e' he' => ?_⟩, fun k => Option.ext fun r => ?_⟩
  · rw [← h.others id e' hne, get?_updateMetadata]
    by_cases hid : id = record.id
    · subst hid
      have hold : e ≠ e' := fun hs => hne (hs ▸ hu)
      have hnew : (⟨e.document, toMetadata record⟩ : Entry) ≠ e' := fun hs => hne (hs ▸ huser)
      simpa [he] using iff_of_false hnew hold
    · rw [if_neg hid]
  · rw [get?_updateMetadata] at he'
    split at he'
    · rename_i hid
      subst hid
      rw [he] at he'
      obtain rfl := Option.some.inj he'
      exact h.documents record.id e he
    · exact h.documents id e' he'
  · rw [get?_stored, get?_updateMetadata, Dict.get?_insert]
    by_cases hk : k = record.id
    · subst hk
      rw [if_pos rfl, if_pos rfl, he]
      constructor
      · rintro ⟨e', he', -, hr⟩
        obtain rfl := Option.some.inj he'
        exact congrArg some hr
      · intro hr
        exact ⟨_, rfl, huser, Option.some.inj hr⟩
    · rw [if_neg hk, if_neg hk, get?_stored]

theorem Frame.delete {userId : String} {s₀ s : Collection} (h : Frame userId s₀ s) {ids : List String}
    (hids : ∀ id ∈ ids, ∃ r, (stored userId s).get? id = some r) :
    Frame userId s₀ (deleteIds s ids) ∧
      ∀ k, (stored userId (deleteIds s ids)).get? k = if k ∈ ids then none else (stored userId s).get? k := by
  refine ⟨⟨fun id e hne => ?_, fun id e he => ?_⟩, fun k => Option.ext fun r => ?_⟩
  · rw [← h.others id e hne, get?_deleteIds]
    by_cases hid : id ∈ ids
    · obtain ⟨r, hr⟩ := hids id hid
      obtain ⟨e', he', hu, -⟩ := get?_stored.1 hr
      have hold : s.get? id ≠ some e := fun hs => hne ((Option.some.inj (he'.symm.trans hs)) ▸ hu)
      rw [if_pos hid]
      exact iff_of_false (by simp) hold
    · rw [if_neg hid]
  · rw [get?_deleteIds] at he
    split at he
    · exact absurd he (by simp)
    · exact h.documents id e he
  · rw [get?_stored, get?_deleteIds]
    by_cases hk : k ∈ ids
    · simp [hk]
    · rw [if_neg hk, if_neg hk, get?_stored]

theorem Alone.step {mem : LongTermMemory} {userId : String} {s₀ : Collection} (g : Progress) (s : Collection)
    (c : Command) (r : Response c) (t : Collection) (h : Alone userId s₀ g s)
    (hg : (protocol mem userId).guarantee g c) (he : Executes c s r t) :
    (protocol mem userId).rely g c r ∧ Alone userId s₀ ((protocol mem userId).next g c r) t := by
  cases c with
  | get user? =>
    obtain ⟨rfl, hnone⟩ := hg
    obtain ⟨hr, rfl⟩ := he
    -- nothing has been written or deleted, so the listing is what is stored
    obtain ⟨rfl, hdeleted⟩ := h.start hnone
    refine ⟨trivial, fun hsome => absurd hsome (by simp [protocol, Progress.next]), ?_, ?_, h.frame⟩
    · intro d₀ hd k
      obtain rfl := Option.some.inj hd
      exact get?_recordsOf hr k
    · intro d₀ hd k
      have hkept : ((protocol mem userId).next g (.get (some userId)) r).deleted = [] := hdeleted
      rw [hkept, if_neg List.not_mem_nil]
      exact (get?_recordsOf hr k).symm
  | query text nResults user? =>
    obtain ⟨rfl, hdeleted, d₀, hlisted⟩ := hg
    obtain ⟨hr, rfl⟩ := he
    refine ⟨fun hit hhit _ => ?_, h⟩
    -- alone, a query finds nothing that was not listed
    obtain ⟨e, he, -, hu⟩ := hr.stored hit hhit
    have hget : (stored userId t).get? hit.id = some (fromResult hit.id e.metadata) :=
      get?_stored.2 ⟨e, he, by simpa [Metadata.ofUser, eq_comm] using hu, rfl⟩
    rw [h.records d₀ hlisted, hdeleted, if_neg List.not_mem_nil] at hget
    exact ⟨_, hget⟩
  | update id metadata =>
    obtain ⟨d₀, old, record, hlisted, hdeleted, hold, hext, rfl, rfl⟩ := hg
    obtain rfl : t = updateMetadata s record.id (toMetadata record) := he
    have hrecords := h.records d₀ hlisted
    simp only [hdeleted, List.not_mem_nil, if_false] at hrecords
    obtain ⟨hframe, hstored⟩ := h.frame.update ((hrecords record.id).trans hold) hext
    refine ⟨trivial, fun hnone => absurd (hlisted.symm.trans hnone) (by simp), h.listed, fun d₁ _ k => ?_, hframe⟩
    have hkept : ((protocol mem userId).next g (.update record.id (toMetadata record)) r).deleted = [] := hdeleted
    have hknown : ((protocol mem userId).next g (.update record.id (toMetadata record)) r).known =
        g.known.insert record.id record := rfl
    rw [hstored, hkept, hknown, if_neg List.not_mem_nil, Dict.get?_insert, Dict.get?_insert, hrecords]
  | delete ids =>
    obtain ⟨d₀, consumed, hlisted, hdeleted, habs, rfl⟩ := hg
    obtain rfl : t = deleteIds s consumed.keys := he
    have hrecords := h.records d₀ hlisted
    simp only [hdeleted, List.not_mem_nil, if_false] at hrecords
    have hmem : ∀ id ∈ consumed.keys, ∃ r, (stored userId s).get? id = some r := by
      intro id hid
      obtain ⟨a, ha⟩ := Dict.mem_keys_iff.1 hid
      obtain ⟨r, hr⟩ := habs.exists_of_into ha
      exact ⟨r, (hrecords id).trans hr⟩
    obtain ⟨hframe, hstored⟩ := h.frame.delete hmem
    refine ⟨trivial, fun hnone => absurd (hlisted.symm.trans hnone) (by simp), h.listed, fun d₁ _ k => ?_, hframe⟩
    have hids : ((protocol mem userId).next g (.delete consumed.keys) r).deleted = consumed.keys := rfl
    have hknown : ((protocol mem userId).next g (.delete consumed.keys) r).known = g.known := rfl
    rw [hstored, hids, hknown, hrecords]
  | _ => exact hg.elim

/-- From `s` to `t` records of the user have absorbed others, which are gone, and nothing else has happened. -/
structure Consolidates (userId : String) (s : Collection) (consumed : Dict String String) (t : Collection) : Prop where
  absorptions : ∃ d₀ d, (∀ k, d₀.get? k = (stored userId s).get? k) ∧ Absorptions absorb d₀ d consumed ∧
    ∀ k, (stored userId t).get? k = (survivors d consumed).get? k
  frame : Frame userId s t

/-- Run alone, consolidation does this and returns. -/
theorem consolidation_spec {mem : LongTermMemory} {userId : String} {s t : Collection}
    {result : Except MemoryError (Dict String String)}
    (h : (consolidation mem userId).Runs Executes s result t) :
    ∃ consumed, result = .ok consumed ∧ Consolidates userId s consumed t := by
  have hstart : Alone userId s {} s :=
    ⟨fun _ => ⟨rfl, rfl⟩, fun d₀ hd => absurd hd (by simp), fun d₀ hd => absurd hd (by simp), Frame.refl userId s⟩
  obtain ⟨g, ⟨d₀, consumed, hlisted, habs, hdeleted, rfl⟩, halone⟩ :=
    (follows_consolidation mem userId).runs Alone.step hstart h
  refine ⟨consumed, rfl, ⟨d₀, g.known, halone.listed d₀ hlisted, habs, fun k => Option.ext fun r => ?_⟩, halone.frame⟩
  rw [halone.records d₀ hlisted k, get?_survivors, hdeleted]
  by_cases hk : k ∈ consumed.keys
  · obtain ⟨a, ha⟩ := Dict.mem_keys_iff.1 hk
    simp [hk, ha]
  · have hnone : consumed.get? k = none := Dict.get?_eq_none_iff.2 hk
    simp [hk, hnone]

namespace Consolidates

variable {userId : String} {s t : Collection} {consumed : Dict String String}

/-- A record that is left was there before, and has kept what is its own. -/
theorem before (h : Consolidates userId s consumed t) {id : String} {r : MemoryRecord}
    (hr : (stored userId t).get? id = some r) :
    consumed.get? id = none ∧ ∃ r₀, (stored userId s).get? id = some r₀ ∧ Extends r₀ r := by
  obtain ⟨d₀, d, hd₀, habs, ht⟩ := h.absorptions
  rw [ht, get?_survivors] at hr
  have hsome : (d₀.get? id).isSome := (habs.get?_isSome id) ▸ Option.isSome_iff_exists.2 ⟨r, hr.1⟩
  obtain ⟨r₀, hr₀⟩ := Option.isSome_iff_exists.1 hsome
  obtain ⟨r', hr', hext⟩ := habs.kept Extends Extends.refl (fun _ _ y hx => hx.absorb y) hr₀
  obtain rfl := Option.some.inj (hr'.symm.trans hr.1)
  exact ⟨hr.2, r₀, (hd₀ id).symm.trans hr₀, hext⟩

theorem exists_consumed (h : Consolidates userId s consumed t) {o x : String} (ho : consumed.get? o = some x) :
    ∃ ro, (stored userId s).get? o = some ro := by
  obtain ⟨d₀, d, hd₀, habs, -⟩ := h.absorptions
  obtain ⟨v, hv⟩ := habs.exists_of_into ho
  have hsome : (d₀.get? o).isSome := (habs.get?_isSome o) ▸ Option.isSome_iff_exists.2 ⟨v, hv⟩
  obtain ⟨ro, hro⟩ := Option.isSome_iff_exists.1 hsome
  exact ⟨ro, (hd₀ o).symm.trans hro⟩

theorem after (h : Consolidates userId s consumed t) {id : String} {r₀ : MemoryRecord}
    (hr₀ : (stored userId s).get? id = some r₀) (hlive : consumed.get? id = none) :
    ∃ r, (stored userId t).get? id = some r ∧ Extends r₀ r := by
  obtain ⟨d₀, d, hd₀, habs, ht⟩ := h.absorptions
  obtain ⟨r, hr, hext⟩ := habs.kept Extends Extends.refl (fun _ _ y hx => hx.absorb y) ((hd₀ id).trans hr₀)
  exact ⟨r, (ht id).trans (get?_survivors.2 ⟨hr, hlive⟩), hext⟩

/-- The values of a list that absorption appends to are those of some record before and after. -/
theorem exists_mem_iff (h : Consolidates userId s consumed t) (list : MemoryRecord → List String)
    (hlist : ∀ x y, list (absorb x y) = fromkeys (list x ++ list y)) (v : String) :
    (∃ r ∈ (stored userId t).values, v ∈ list r) ↔ ∃ r ∈ (stored userId s).values, v ∈ list r := by
  obtain ⟨d₀, d, hd₀, habs, ht⟩ := h.absorptions
  simp only [(Dict.values_perm ht).mem_iff, ← (Dict.values_perm hd₀).mem_iff]
  refine habs.exists_iff (fun r => v ∈ list r) fun x y => ?_
  rw [hlist, mem_fromkeys, List.mem_append]

end Consolidates

/-- No value occurs more often than once and more often than in the old list. -/
def NoNewDuplicates (old new : List String) : Prop := ∀ x, 1 < new.count x → new.count x ≤ old.count x

theorem Grows.noNewDuplicates {old new : List String} (h : Grows old new) : NoNewDuplicates old new := by
  intro x hx
  rcases h with rfl | ⟨hnodup, -⟩
  · exact le_rfl
  · have hle := List.nodup_iff_count_le_one.1 hnodup x
    omega

/-- From `s` to `t` the user has lost `n` records and nothing that was in them. -/
structure Conserves (userId : String) (n : Nat) (s t : Collection) : Prop where
  facts : ∀ f, (∃ r ∈ (stored userId t).values, f ∈ r.facts) ↔ ∃ r ∈ (stored userId s).values, f ∈ r.facts
  preferences : ∀ p, (∃ r ∈ (stored userId t).values, p ∈ r.preferences) ↔
    ∃ r ∈ (stored userId s).values, p ∈ r.preferences
  toolsUsed : ∀ x, (∃ r ∈ (stored userId t).values, x ∈ r.toolsUsed) ↔
    ∃ r ∈ (stored userId s).values, x ∈ r.toolsUsed
  duplicates : ∀ r ∈ (stored userId t).values, ∃ r₀ ∈ (stored userId s).values, r₀.id = r.id ∧
    NoNewDuplicates r₀.facts r.facts ∧ NoNewDuplicates r₀.preferences r.preferences ∧
    NoNewDuplicates r₀.toolsUsed r.toolsUsed
  accessCount : ((stored userId t).values.map MemoryRecord.accessCount).sum =
    ((stored userId s).values.map MemoryRecord.accessCount).sum
  importance : ((stored userId t).values.map MemoryRecord.importance).maximum =
    ((stored userId s).values.map MemoryRecord.importance).maximum
  ids : (stored userId t).values.map MemoryRecord.id ⊆ (stored userId s).values.map MemoryRecord.id
  count : (stored userId t).values.length + n = (stored userId s).values.length
  others : ∀ id e, e.metadata.userId ≠ userId → (t.get? id = some e ↔ s.get? id = some e)

/-- Consolidation alone is lossless and conservative, and its lookups do not fail. -/
theorem consolidate_conserves {mem : LongTermMemory} {userId : String} {s t : Collection}
    {result : Except MemoryError Nat} (h : (consolidate mem userId).Runs Executes s result t) :
    ∃ n, result = .ok n ∧ Conserves userId n s t := by
  obtain ⟨_, hrun, rfl⟩ := Prog.Runs.map_iff.1 h
  obtain ⟨consumed, rfl, hc⟩ := consolidation_spec hrun
  obtain ⟨d₀, d, hd₀, habs, ht⟩ := hc.absorptions
  have hold := Dict.values_perm hd₀
  have hnew := Dict.values_perm ht
  have hkept : ∀ r ∈ (stored userId t).values, ∃ r₀ ∈ (stored userId s).values, Extends r₀ r := by
    intro r hr
    obtain ⟨-, r₀, hr₀, hext⟩ := hc.before ((keyed_stored userId t).get?_id hr)
    exact ⟨r₀, Dict.mem_values_iff.2 ⟨_, hr₀⟩, hext⟩
  refine ⟨consumed.length, rfl, ?_⟩
  exact {
    facts := hc.exists_mem_iff MemoryRecord.facts fun _ _ => rfl
    preferences := hc.exists_mem_iff MemoryRecord.preferences fun _ _ => rfl
    toolsUsed := hc.exists_mem_iff MemoryRecord.toolsUsed fun _ _ => rfl
    duplicates := fun r hr => by
      obtain ⟨r₀, hr₀, hext⟩ := hkept r hr
      exact ⟨r₀, hr₀, hext.id.symm, hext.facts.noNewDuplicates, hext.preferences.noNewDuplicates,
        hext.toolsUsed.noNewDuplicates⟩
    accessCount := by
      rw [(hnew.map _).sum_eq, ← (hold.map _).sum_eq]
      exact habs.sum_eq MemoryRecord.accessCount fun _ _ => rfl
    importance := by
      rw [(hnew.map _).maximum_eq, ← (hold.map _).maximum_eq]
      exact habs.maximum_eq MemoryRecord.importance fun _ _ => rfl
    ids := fun id hid => by
      obtain ⟨r, hr, rfl⟩ := List.mem_map.1 hid
      obtain ⟨r₀, hr₀, hext⟩ := hkept r hr
      exact List.mem_map.2 ⟨r₀, hr₀, hext.id.symm⟩
    count := by
      rw [hnew.length_eq, ← hold.length_eq]
      exact habs.length_eq
    others := hc.frame.others }

/-! ### Two records of one task -/

/-- A record written at the given time and not accessed since. -/
def acme (id fact : String) (time : ℚ) : MemoryRecord where
  id := id
  userId := "alice"
  task := "Summarize AcmeCo earnings"
  approachSummary := "Pulled the 10-Q."
  facts := [fact]
  createdAt := time
  lastAccessedAt := time

/-- An index that finds all documents equal. -/
def allNear (_ _ : String) : ℚ := 0

/-- Two records, the first one written at time 0. -/
def twoRecords (time : ℚ) : Collection :=
  ((add (acme "m2" "Reports in EUR." time)).eval (Chroma.exec allNear)
    ((add (acme "m1" "Fiscal year ends in June." 0)).eval (Chroma.exec allNear) ∅).2).2

/-- The defaults of `config.py`. -/
def sampleMemory : LongTermMemory where
  halfLifeDays := 30
  minImportance := 1 / 20
  minAgeDaysBeforeExpiry := 7
  consolidationSimilarityThreshold := 93 / 100
  memoryTopK := 3

/-- One of the two records is merged into the other. -/
theorem conserves_twoRecords : Conserves "alice" 1 (twoRecords 0)
    ((consolidate sampleMemory "alice").eval (Chroma.exec allNear) (twoRecords 0)).2 := by
  have hrun := Prog.runs_of_eval (executes_exec allNear) (consolidate sampleMemory "alice") (twoRecords 0)
  have hone : ((consolidate sampleMemory "alice").eval (Chroma.exec allNear) (twoRecords 0)).1 = .ok 1 := by
    decide +kernel
  obtain ⟨n, hn, hconserves⟩ := consolidate_conserves hrun
  obtain rfl : n = 1 := Except.ok.inj (hn.symm.trans hone)
  exact hconserves

end AgentOrchestrator.LongTermMemory
