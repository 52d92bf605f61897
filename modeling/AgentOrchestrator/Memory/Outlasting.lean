import AgentOrchestrator.Lib.Sweep
import AgentOrchestrator.Memory.Lifetime

/-!
# Knowledge that outlasts consolidation

A record that absorbs others gets the larger importance and all accesses, but keeps its own times, so it may expire before
one that it has absorbed.  Which records are merged into which the listing and the answers of the index decide: a record
is merged into the first of those that act which takes it (`consumed_eq_taken`).  Under given settings a consolidation
shortens the life of no knowledge if and only if each record ends up, with what it knows, in one that lives as long by the
days on which the two grace periods end and the two importances have decayed (`outlasts_iff_lifeKept`).
-/

namespace AgentOrchestrator.LongTermMemory

open Chroma

/-- What `expire` leaves of the knowledge in `s` it leaves of that in `t` as well. -/
def Outlasts (mem : LongTermMemory) (userId : String) (now : ℚ) (s t : Collection) : Prop :=
  ∀ user? m n s' t', user? = none ∨ user? = some userId → (expire mem user? now).Runs Executes s m s' →
    (expire mem user? now).Runs Executes t n t' → ∀ kind v,
      (∃ r ∈ (stored userId s').values, v ∈ items kind r) → ∃ r ∈ (stored userId t').values, v ∈ items kind r

/-- `expire` lets every piece of knowledge live that it would let live in `s`. -/
theorem outlasts_iff {mem : LongTermMemory} {userId : String} {now : ℚ} {s t : Collection} :
    Outlasts mem userId now s t ↔ ∀ kind v id r, (stored userId s).get? id = some r → ¬ Expired mem now r →
      v ∈ items kind r → ∃ id' r', (stored userId t).get? id' = some r' ∧ ¬ Expired mem now r' ∧ v ∈ items kind r' := by
  constructor
  · intro h kind v id r hr hlive hv
    have hs := Prog.runs_of_eval (executes_exec fun _ _ => 0) (expire mem none now) s
    have ht := Prog.runs_of_eval (executes_exec fun _ _ => 0) (expire mem none now) t
    have hkept : r ∈ (stored userId ((expire mem none now).eval (Chroma.exec fun _ _ => 0) s).2).values :=
      Dict.mem_values_iff.2 ⟨id, (get?_stored_expire (Or.inl rfl) hs).2 ⟨hr, hlive⟩⟩
    obtain ⟨r', hr', hv'⟩ := h none _ _ _ _ (Or.inl rfl) hs ht kind v ⟨r, hkept, hv⟩
    obtain ⟨id', hget⟩ := Dict.mem_values_iff.1 hr'
    obtain ⟨hget', hlive'⟩ := (get?_stored_expire (Or.inl rfl) ht).1 hget
    exact ⟨id', r', hget', hlive', hv'⟩
  · rintro h user? m n s' t' hu hs ht kind v ⟨r, hr, hv⟩
    obtain ⟨id, hget⟩ := Dict.mem_values_iff.1 hr
    obtain ⟨hget', hlive⟩ := (get?_stored_expire hu hs).1 hget
    obtain ⟨id', r', hr', hlive', hv'⟩ := h kind v id r hget' hlive hv
    exact ⟨r', Dict.mem_values_iff.2 ⟨id', (get?_stored_expire hu ht).2 ⟨hr', hlive'⟩⟩, hv'⟩

/-! ### What is merged into what -/

/-- The answer to the last query. -/
def lastFound (found : List Hit) (c : Command) (r : Response c) : List Hit :=
  match c, r with
  | .query _ _ _, hits => hits
  | _, _ => found

/-- A call of a run in which the listing is `listed` and a record is updated after a query that has answered `found` for
it.  Beside the collection there is the answer to the last query. -/
def Answered (listed : List (String × Metadata)) (found : String → List Hit) (c : Command) (s : Collection × List Hit)
    (r : Response c) (t : Collection × List Hit) : Prop :=
  Executes c s.1 r t.1 ∧ t.2 = lastFound s.2 c r ∧
    match c, r with
    | .get _, results => results = listed
    | .update id _, _ => s.2 = found id
    | _, _ => True

/-- In its turn the record `a` takes the record `x` if that is still there: `x` is listed, and one of those found for `a`
that are near enough. -/
def Takes (mem : LongTermMemory) (listed : List (String × Metadata)) (found : String → List Hit) (a x : String) : Prop :=
  x ∈ listed.map Prod.fst ∧ x ∈ nearIds mem a (found a)

instance (mem : LongTermMemory) (listed : List (String × Metadata)) (found : String → List Hit) (a x : String) :
    Decidable (Takes mem listed found a x) :=
  inferInstanceAs (Decidable (x ∈ listed.map Prod.fst ∧ x ∈ nearIds mem a (found a)))

/-- What a program sees of such a run. -/
def answering (listed : List (String × Metadata)) (found : String → List Hit) :
    Protocol Command Response (List Hit) where
  next := lastFound
  guarantee _ _ := True
  rely g c r :=
    match c, r with
    | .get _, results => results = listed
    | .update id _, _ => g = found id
    | _, _ => True

variable {mem : LongTermMemory} {userId : String} {s t : Collection} {listed : List (String × Metadata)}
  {found : String → List Hit}

theorem Answered.step (g : List Hit) (s : Collection × List Hit) (c : Command) (r : Response c)
    (t : Collection × List Hit) (h : g = s.2) (_ : (answering listed found).guarantee g c)
    (he : Answered listed found c s r t) :
    (answering listed found).rely g c r ∧ (answering listed found).next g c r = t.2 := by
  subst h
  exact ⟨he.2.2, he.2.1.symm⟩

/-- After the loop over the records each consumed id is with the one that has taken it. -/
theorem follows_taken (rest : List MemoryRecord) {records : Dict String MemoryRecord} (consumed : Dict String String)
    (hkeyed : Keyed records) (hlisted : ∀ x, x ∈ records.keys → x ∈ listed.map Prod.fst)
    (hrest : ∀ r ∈ rest, r.id ∈ records.keys) (g : List Hit) :
    (mergeRecords mem userId rest records consumed).Follows (answering listed found)
      (fun _ result => ∀ consumed', result = .ok consumed' →
        consumed'.get? = taken (Takes mem listed found) (rest.map MemoryRecord.id) consumed.get?) g := by
  induction rest generalizing records consumed g with
  | nil =>
    intro consumed' hok
    obtain rfl := Except.ok.inj hok
    rfl
  | cons record rest ih =>
    have hrest' : ∀ r ∈ rest, r.id ∈ records.keys := fun r hr => hrest r (List.mem_cons_of_mem _ hr)
    rw [List.map_cons]
    unfold mergeRecords
    by_cases hgone : record.id ∈ consumed.keys
    · have hsome : consumed.get? record.id ≠ none := fun hnone => Dict.get?_eq_none_iff.1 hnone hgone
      rw [if_pos hgone, taken_cons_of_some hsome]
      exact ih consumed hkeyed hlisted hrest' g
    · rw [if_neg hgone]
      refine ⟨trivial, fun hits _ => ?_⟩
      dsimp only [Prog.bind]
      cases hrun : mergeNeighbors mem records hits record consumed with
      | error e =>
        intro consumed' hok
        exact absurd hok (by simp)
      | ok out =>
        obtain ⟨record', consumed₁⟩ := out
        obtain ⟨hid, -, hget, hkeys⟩ := get?_mergeNeighbors hkeyed hits hrun
        have hlive := not_consumed_mergeNeighbors hkeyed hits hrun hgone
        dsimp only
        rw [if_pos hlive]
        refine ⟨trivial, fun _ hfound => ?_⟩
        have hhits : hits = found record.id := hid ▸ hfound
        have hmem : record'.id ∈ records.keys := hid ▸ hrest record List.mem_cons_self
        -- what is taken in this turn has been looked up
        have hnear : ∀ x, consumed.get? x = none → (x ∈ nearIds mem record.id hits ↔ Takes mem listed found record.id x) := by
          intro x hnone
          unfold Takes
          rw [hhits]
          refine ⟨fun hnear => ⟨hlisted x ?_, hnear⟩, And.right⟩
          have hsome : x ∈ consumed₁.keys :=
            Dict.mem_keys_iff.2 ⟨record.id, by rw [hget x, if_pos ⟨hnone, hhits ▸ hnear⟩]⟩
          exact (hkeys x hsome).resolve_left (Dict.get?_eq_none_iff.1 hnone)
        have htaken : taken (Takes mem listed found) (record.id :: rest.map MemoryRecord.id) consumed.get? =
            taken (Takes mem listed found) (rest.map MemoryRecord.id) consumed₁.get? := by
          refine taken_turn (Dict.get?_eq_none_iff.2 hgone) (fun x hx => ?_) fun x hx => ?_
          · rw [hget x, if_pos ⟨hx.1, (hnear x hx.1).2 hx.2⟩]
          · rw [hget x, if_neg fun hx' => hx ⟨hx'.1, (hnear x hx'.1).1 hx'.2⟩]
        rw [htaken]
        refine ih consumed₁ (hkeyed.insert record') (fun x hx => ?_) (fun r hr => ?_) hits
        · rcases Dict.mem_keys_insert.1 hx with rfl | hx
          · exact hlisted _ hmem
          · exact hlisted x hx
        · exact Dict.mem_keys_insert.2 (Or.inr (hrest' r hr))

theorem follows_answering (hnodup : (listed.map Prod.fst).Nodup) (g : List Hit) :
    (consolidation mem userId).Follows (answering listed found) (fun _ result => ∀ consumed, result = .ok consumed →
      consumed.get? = taken (Takes mem listed found) (listed.map Prod.fst) fun _ => none) g := by
  refine ⟨trivial, fun results hresults => ?_⟩
  obtain rfl : results = listed := hresults
  have hkeyed := keyed_recordsOf results
  have hkeys := keys_recordsOf hnodup
  show Prog.Follows (answering results found) _ (if (recordsOf results).length < 2 then _ else _) g
  split
  · rename_i hshort
    intro consumed hok
    obtain rfl := Except.ok.inj hok
    have hlength : (results.map Prod.fst).length < 2 := by
      rw [← hkeys]
      simpa [Dict.keys, Dict.length] using hshort
    -- a single record takes nothing
    rcases hids : results.map Prod.fst with _ | ⟨a, _ | ⟨b, rest⟩⟩
    · rfl
    · have hnone : (∅ : Dict String String).get? a = none := rfl
      have hturn : taken (Takes mem results found) [a] (∅ : Dict String String).get? =
          taken (Takes mem results found) [] (∅ : Dict String String).get? := taken_turn hnone (fun x hx => ?_) fun x _ => rfl
      · exact hturn.symm
      obtain ⟨hlisted, hnear⟩ := hx.2
      rw [hids] at hlisted
      exact absurd (List.mem_singleton.1 hlisted) ((mem_nearIds mem a _ x).1 hnear).1
    · rw [hids] at hlength
      exact absurd hlength (by simp)
  · refine Prog.Follows.bind (follows_taken _ ∅ hkeyed (fun x hx => hkeys ▸ hx)
      (fun r hr => Dict.mem_keys_iff.2 ⟨r, hkeyed.get?_id hr⟩) g) ?_
    intro g' result hpost
    rw [hkeyed.map_id, hkeys] at hpost
    cases result with
    | error e =>
      intro consumed hok
      exact absurd hok (by simp)
    | ok consumed' =>
      dsimp only
      split
      · exact ⟨trivial, fun _ _ => hpost⟩
      · exact hpost

/-- Each consumed id is with the one that has taken it. -/
theorem consumed_eq_taken {p q : List Hit} {consumed : Dict String String}
    (h : (consolidation mem userId).Runs (Answered listed found) (s, p) (.ok consumed) (t, q)) :
    (listed.map Prod.fst).Nodup ∧
      consumed.get? = taken (Takes mem listed found) (listed.map Prod.fst) fun _ => none := by
  have hnodup : (listed.map Prod.fst).Nodup := by
    obtain ⟨_, _, hlist, -⟩ := Prog.Runs.bind_iff.1 h
    obtain ⟨results, u, hget, -⟩ := Prog.Runs.bind_iff.1 hlist
    obtain ⟨⟨hperm, -⟩, -, rfl⟩ := Prog.Runs.perform_iff.1 hget
    exact (hperm.map Prod.fst).nodup_iff.2 (nodup_select _ _)
  obtain ⟨-, hpost, -⟩ := (follows_answering hnodup p).runs (I := fun g s => g = s.2) Answered.step rfl h
  exact ⟨hnodup, hpost consumed rfl⟩

/-- In every run of the loop over the records the queries answer something for each record, and nothing else of these
answers matters. -/
theorem exists_found (listed : List (String × Metadata)) (rest : List MemoryRecord)
    (hnodup : (rest.map MemoryRecord.id).Nodup) {records : Dict String MemoryRecord} {consumed : Dict String String}
    (hkeyed : Keyed records) {s : Collection} {result : Except MemoryError (Dict String String)}
    (h : (mergeRecords mem userId rest records consumed).Runs Executes s result t) :
    ∃ found : String → List Hit, ∀ found', (∀ r ∈ rest, found' r.id = found r.id) → ∀ p, ∃ q,
      (mergeRecords mem userId rest records consumed).Runs (Answered listed found') (s, p) result (t, q) := by
  induction rest generalizing records consumed s with
  | nil =>
    obtain ⟨rfl, rfl⟩ := Prog.Runs.ret_iff.1 h
    exact ⟨fun _ => [], fun _ _ p => ⟨p, .ret⟩⟩
  | cons record rest ih =>
    obtain ⟨hfresh, hnodup'⟩ := List.nodup_cons.1 hnodup
    unfold mergeRecords at h ⊢
    by_cases hgone : record.id ∈ consumed.keys
    · rw [if_pos hgone] at h ⊢
      obtain ⟨found, hfound⟩ := ih hnodup' hkeyed h
      exact ⟨found, fun found' hsame => hfound found' fun r hr => hsame r (List.mem_cons_of_mem _ hr)⟩
    · rw [if_neg hgone] at h ⊢
      obtain ⟨hits, u, hquery, hrest⟩ := Prog.Runs.bind_iff.1 h
      have hquery' := Prog.Runs.perform_iff.1 hquery
      have hturn : ∀ found' p, Answered listed found' (.query record.embeddingText (min 5 records.length) (some userId))
          (s, p) hits (u, hits) := fun _ _ => ⟨hquery', rfl, trivial⟩
      cases hrun : mergeNeighbors mem records hits record consumed with
      | error e =>
        rw [hrun] at hrest
        refine ⟨fun _ => [], fun found' _ p => ⟨hits, .call (hturn found' p) ?_⟩⟩
        dsimp only [Prog.bind]
        rw [hrun]
        obtain ⟨rfl, rfl⟩ := Prog.Runs.ret_iff.1 hrest
        exact .ret
      | ok out =>
        obtain ⟨record', consumed₁⟩ := out
        obtain ⟨hid, -⟩ := get?_mergeNeighbors hkeyed hits hrun
        have hlive := not_consumed_mergeNeighbors hkeyed hits hrun hgone
        rw [hrun] at hrest
        dsimp only at hrest
        rw [if_pos hlive] at hrest
        obtain ⟨_, v, hupdate, hlast⟩ := Prog.Runs.bind_iff.1 hrest
        obtain ⟨found, hfound⟩ := ih hnodup' (hkeyed.insert record') hlast
        refine ⟨Function.update found record.id hits, fun found' hsame p => ?_⟩
        have hself : found' record.id = hits := by
          rw [hsame record List.mem_cons_self, Function.update_self]
        have hothers : ∀ r ∈ rest, found' r.id = found r.id := by
          intro r hr
          have hne : r.id ≠ record.id := fun he => hfresh (List.mem_map.2 ⟨r, hr, he⟩)
          rw [hsame r (List.mem_cons_of_mem _ hr), Function.update_of_ne hne]
        obtain ⟨q, hq⟩ := hfound found' hothers hits
        refine ⟨q, .call (hturn found' p) ?_⟩
        dsimp only [Prog.bind]
        rw [hrun]
        dsimp only
        rw [if_pos hlive]
        exact .call (t := (v, hits)) ⟨Prog.Runs.perform_iff.1 hupdate, rfl, (hid ▸ hself).symm⟩ hq

theorem exists_answered_consolidation {result : Except MemoryError (Dict String String)}
    (h : (consolidation mem userId).Runs Executes s result t) : ∃ listed found q,
      (consolidation mem userId).Runs (Answered listed found) (s, []) result (t, q) := by
  obtain ⟨records, u, hlist, hrest⟩ := Prog.Runs.bind_iff.1 h
  obtain ⟨results, u', hget, hret⟩ := Prog.Runs.bind_iff.1 hlist
  obtain ⟨rfl, rfl⟩ := Prog.Runs.ret_iff.1 hret
  have hget' := Prog.Runs.perform_iff.1 hget
  have hnodup : (results.map Prod.fst).Nodup := (hget'.1.map Prod.fst).nodup_iff.2 (nodup_select _ _)
  have hkeyed := keyed_recordsOf results
  change Prog.Runs _ (if (recordsOf results).length < 2 then _ else _) _ _ _ at hrest
  by_cases hshort : (recordsOf results).length < 2
  · rw [if_pos hshort] at hrest
    obtain ⟨rfl, rfl⟩ := Prog.Runs.ret_iff.1 hrest
    refine ⟨results, fun _ => [], [], .call (t := (t, [])) ⟨hget', rfl, rfl⟩ ?_⟩
    show Prog.Runs _ (if (recordsOf results).length < 2 then _ else _) _ _ _
    rw [if_pos hshort]
    exact .ret
  · rw [if_neg hshort] at hrest
    obtain ⟨result', v, hmerge, hlast⟩ := Prog.Runs.bind_iff.1 hrest
    obtain ⟨found, hfound⟩ := exists_found results _
      (hkeyed.map_id ▸ (recordsOf results).nodup) hkeyed hmerge
    obtain ⟨q, hq⟩ := hfound found (fun _ _ => rfl) []
    refine ⟨results, found, q, .call (t := (u, [])) ⟨hget', rfl, rfl⟩ ?_⟩
    show Prog.Runs _ (if (recordsOf results).length < 2 then _ else _) _ _ _
    rw [if_neg hshort]
    refine Prog.Runs.bind_iff.2 ⟨result', (v, q), hq, ?_⟩
    cases result' with
    | error e =>
      obtain ⟨rfl, rfl⟩ := Prog.Runs.ret_iff.1 hlast
      exact .ret
    | ok consumed =>
      dsimp only at hlast ⊢
      split at hlast
      · rename_i hsome
        obtain ⟨_, w, hdelete, hend⟩ := Prog.Runs.bind_iff.1 hlast
        obtain ⟨rfl, rfl⟩ := Prog.Runs.ret_iff.1 hend
        rw [if_pos hsome]
        exact .call (t := (t, q)) ⟨Prog.Runs.perform_iff.1 hdelete, rfl, trivial⟩ .ret
      · rename_i hnone
        obtain ⟨rfl, rfl⟩ := Prog.Runs.ret_iff.1 hlast
        rw [if_neg hnone]
        exact .ret

/-- Every run of a consolidation has a listing and answers for the records. -/
theorem exists_answered {result : Except MemoryError Nat} (h : (consolidate mem userId).Runs Executes s result t) :
    ∃ listed found q, (consolidate mem userId).Runs (Answered listed found) (s, []) result (t, q) := by
  obtain ⟨result', hrun, rfl⟩ := Prog.Runs.map_iff.1 h
  obtain ⟨listed, found, q, hq⟩ := exists_answered_consolidation hrun
  exact ⟨listed, found, q, Prog.Runs.map_iff.2 ⟨result', hq, rfl⟩⟩

/-! ### What ends up where -/

open Classical in
/-- The records that end up in `x` if each is merged where `into` says. -/
noncomputable def gathered (userId : String) (s : Collection) (into : String → String → Prop) (x : String) :
    List MemoryRecord := ((stored userId s).items.filter fun e => Relation.ReflTransGen into e.1 x).map Prod.snd

/-- What records weigh together: the largest importance, and the accesses of all. -/
noncomputable def jointWeight (records : List MemoryRecord) : ℝ :=
  (((records.map fun r => r.importance.1).foldr max 0 : ℚ) : ℝ) *
    (1 + Real.log (1 + ((records.map MemoryRecord.accessCount).sum : ℤ)))

theorem jointWeight_perm {l l' : List MemoryRecord} (h : l.Perm l') : jointWeight l = jointWeight l' := by
  unfold jointWeight
  rw [(h.map _).foldr_eq, (h.map _).sum_eq]

theorem jointWeight_absorb (x y : MemoryRecord) (l : List MemoryRecord) :
    jointWeight (x :: y :: l) = jointWeight (absorb x y :: l) := by
  have himportance : (absorb x y).importance.1 = max x.importance.1 y.importance.1 := by
    rcases le_total x.importance y.importance with hle | hle
    · simp [absorb, max_eq_right hle, max_eq_right (Subtype.coe_le_coe.2 hle)]
    · simp [absorb, max_eq_left hle, max_eq_left (Subtype.coe_le_coe.2 hle)]
  have haccess : (absorb x y).accessCount = x.accessCount + y.accessCount := rfl
  unfold jointWeight
  simp only [List.map_cons, List.foldr_cons, List.sum_cons]
  rw [himportance, haccess, max_assoc, add_assoc]

theorem jointWeight_singleton (r : MemoryRecord) : jointWeight [r] = weight r := by
  have hnonneg : (0 : ℚ) ≤ r.importance.1 := r.importance.2.1
  simp [jointWeight, weight, hnonneg]

/-- `new` knows what `old` knows and weighs no less. -/
structure Covers (old new : MemoryRecord) : Prop where
  items : ∀ kind, items kind old ⊆ items kind new
  importance : old.importance ≤ new.importance
  accessCount : old.accessCount ≤ new.accessCount

theorem Covers.left {v x y : MemoryRecord} (h : Covers v x) (hy : 0 ≤ y.accessCount) : Covers v (absorb x y) where
  items kind a ha := mem_items_absorb.2 (Or.inl (h.items kind ha))
  importance := h.importance.trans (le_max_left _ _)
  accessCount := h.accessCount.trans (by simp [absorb, hy])

theorem Covers.right {v x y : MemoryRecord} (h : Covers v y) (hx : 0 ≤ x.accessCount) : Covers v (absorb x y) where
  items kind a ha := mem_items_absorb.2 (Or.inr (h.items kind ha))
  importance := h.importance.trans (le_max_right _ _)
  accessCount := h.accessCount.trans (by simp [absorb, hx])

theorem Covers.weight_le {old new : MemoryRecord} (h : Covers old new) (hold : 0 ≤ old.accessCount) :
    weight old ≤ weight new := by
  have himportance : (old.importance.1 : ℝ) ≤ (new.importance.1 : ℝ) := by exact_mod_cast h.importance
  have hpos : (0 : ℝ) ≤ (new.importance.1 : ℝ) := by exact_mod_cast new.importance.2.1
  have hcount : (old.accessCount : ℝ) ≤ new.accessCount := by exact_mod_cast h.accessCount
  have hone : (0 : ℝ) ≤ old.accessCount := by exact_mod_cast hold
  have hboost : Real.log (1 + old.accessCount) ≤ Real.log (1 + new.accessCount) :=
    Real.log_le_log (by linarith) (by linarith)
  exact mul_le_mul himportance (by linarith) (by linarith [boost_nonneg hold]) hpos

/-- A record with the times of `new` and the weight `w` lives as long as `old`: its grace period does, or its importance
decays no earlier, and so with the importance of `old`. -/
def LivesAsLong (mem : LongTermMemory) (old new : MemoryRecord) (w : ℝ) : Prop :=
  mem.minImportance ≤ 0 ∨
    (graceEnd mem old ≤ graceEnd mem new ∨ mem.minImportance ≤ w ∧ (graceEnd mem old : ℝ) ≤ decayEnd mem new w) ∧
    (mem.minImportance ≤ weight old → decayEnd mem old (weight old) < graceEnd mem new ∨
      mem.minImportance ≤ w ∧ decayEnd mem old (weight old) ≤ decayEnd mem new w)

/-- What a record knows ends up in one that is not merged into another and lives as long. -/
def EndsAlive (mem : LongTermMemory) (userId : String) (s : Collection) (into : String → String → Prop) : Prop :=
  ∀ kind v, ∀ old ∈ (stored userId s).values, v ∈ items kind old → ∃ x new, (∀ y, ¬ into x y) ∧
    (stored userId s).get? x = some new ∧ (∃ r ∈ gathered userId s into x, v ∈ items kind r) ∧
      LivesAsLong mem old new (jointWeight (gathered userId s into x))

/-- What a record knows ends up in one that lives as long, each record being merged into the first of those that act which
takes it. -/
def LifeKept (mem : LongTermMemory) (userId : String) (s : Collection) (listed : List (String × Metadata))
    (found : String → List Hit) : Prop :=
  ∃ acting, Acts (Takes mem listed found) (listed.map Prod.fst) acting ∧
    EndsAlive mem userId s (TakenBy (Takes mem listed found) (listed.map Prod.fst) acting)

section

variable {consumed : Dict String String}

def absorbedBy (consumed : Dict String String) (x y : String) : Prop := consumed.get? x = some y

theorem not_absorbedBy_iff {x : String} : (∀ y, ¬ absorbedBy consumed x y) ↔ consumed.get? x = none :=
  Option.eq_none_iff_forall_ne_some.symm

/-- What the records that have ended up in one preserve together, it has. -/
theorem Consolidates.gathered_eq (h : Consolidates userId s consumed t) {β : Type} (F : List MemoryRecord → β)
    (hperm : ∀ l l', l.Perm l' → F l = F l') (hstep : ∀ x y l, F (x :: y :: l) = F (absorb x y :: l)) {x : String}
    {r : MemoryRecord} (hr : (stored userId t).get? x = some r) : F (gathered userId s (absorbedBy consumed) x) = F [r] := by
  obtain ⟨d₀, d, hd₀, habs, ht⟩ := h.absorptions
  obtain ⟨hx, hlive⟩ := get?_survivors.1 ((ht x).symm.trans hr)
  have hsame := habs.gathered F hperm hstep hx hlive []
  rw [List.append_nil] at hsame
  exact (hperm _ _ (held_perm (fun k => (hd₀ k).symm) consumed x)).trans hsame

theorem Consolidates.weight_eq (h : Consolidates userId s consumed t) {x : String} {r : MemoryRecord}
    (hr : (stored userId t).get? x = some r) : weight r = jointWeight (gathered userId s (absorbedBy consumed) x) := by
  rw [h.gathered_eq jointWeight (fun _ _ => jointWeight_perm) jointWeight_absorb hr, jointWeight_singleton]

theorem Consolidates.mem_items_iff (h : Consolidates userId s consumed t) {x : String} {r : MemoryRecord}
    (hr : (stored userId t).get? x = some r) (kind : Knowledge) (v : String) :
    v ∈ items kind r ↔ ∃ r₀ ∈ gathered userId s (absorbedBy consumed) x, v ∈ items kind r₀ := by
  have hsame := h.gathered_eq (fun l => ∃ r₀ ∈ l, v ∈ items kind r₀) (fun l l' hl => by simp only [hl.mem_iff])
    (fun x y l => by simp [mem_items_absorb, or_assoc]) hr
  simpa using hsame.symm

theorem Consolidates.accessCount_nonneg (h : Consolidates userId s consumed t)
    (hcount : ∀ r ∈ (stored userId s).values, 0 ≤ r.accessCount) {x : String} {r : MemoryRecord}
    (hr : (stored userId t).get? x = some r) : 0 ≤ r.accessCount := by
  have hsum := h.gathered_eq (fun l => (l.map MemoryRecord.accessCount).sum) (fun _ _ hl => (hl.map _).sum_eq)
    (fun x y l => by simp [absorb, add_assoc]) hr
  have hone : ([r].map MemoryRecord.accessCount).sum = r.accessCount := by simp
  rw [← hone, ← hsum]
  refine List.sum_nonneg fun n hn => ?_
  obtain ⟨r₀, hr₀, rfl⟩ := List.mem_map.1 hn
  obtain ⟨k, hk, -⟩ := mem_held.1 hr₀
  exact hcount r₀ (Dict.mem_values_iff.2 ⟨k, hk⟩)

/-- What a record knows is known to a survivor that holds it. -/
theorem Consolidates.survivor (h : Consolidates userId s consumed t)
    (hcount : ∀ r ∈ (stored userId s).values, 0 ≤ r.accessCount) {o : String} {ro : MemoryRecord}
    (ho : (stored userId s).get? o = some ro) :
    ∃ x v, Held consumed o x ∧ (stored userId t).get? x = some v ∧ Covers ro v := by
  obtain ⟨d₀, d, hd₀, habs, ht⟩ := h.absorptions
  have hvalid : ∀ k v, d₀.get? k = some v → 0 ≤ v.accessCount := fun k v hv =>
    hcount v (Dict.mem_values_iff.2 ⟨k, (hd₀ k).symm.trans hv⟩)
  obtain ⟨x, v, hheld, hv, hcovers⟩ := (habs.exists_holder (fun r => 0 ≤ r.accessCount) Covers hvalid
    (fun x y hx hy => Int.add_nonneg hx hy) (fun v _ => ⟨fun _ => List.Subset.refl _, le_rfl, le_rfl⟩)
    (fun v x y _ hy hc => hc.left hy) (fun v x y hx _ hc => hc.right hx)).2 o ro ((hd₀ o).trans ho)
  exact ⟨x, v, hheld, (ht x).trans hv, hcovers⟩

theorem forall_not_expired_iff {old new : MemoryRecord} (hlife : 0 < mem.halfLifeDays) (hold : 0 ≤ old.accessCount)
    (hnew : 0 ≤ new.accessCount) :
    (∀ now, ¬ Expired mem now old → ¬ Expired mem now new) ↔ LivesAsLong mem old new (weight new) := by
  simp only [not_expired_iff hlife hold, not_expired_iff hlife hnew]
  unfold LivesAsLong
  rw [← forall_lives_iff]
  by_cases hmin : mem.minImportance ≤ 0
  · simp [hmin]
  · simp only [hmin, false_or]
    refine ⟨fun h d => ?_, fun h now => h _⟩
    have hday := h (d * 86400)
    rwa [mul_div_cancel_right₀ d (by norm_num)] at hday

/-- What survives lives as long as what it has absorbed if and only if it does so by the days. -/
theorem Consolidates.outlasts_iff (h : Consolidates userId s consumed t) (hlife : 0 < mem.halfLifeDays)
    (hcount : ∀ r ∈ (stored userId s).values, 0 ≤ r.accessCount) :
    (∀ now, Outlasts mem userId now s t) ↔ EndsAlive mem userId s (absorbedBy consumed) := by
  simp only [LongTermMemory.outlasts_iff]
  constructor
  · intro hall kind v old hold hv
    obtain ⟨o, ho⟩ := Dict.mem_values_iff.1 hold
    have hcold := hcount old hold
    let knowers := (stored userId t).values.filter fun r => v ∈ items kind r
    have hknower : ∀ r ∈ knowers, ∃ x, (stored userId t).get? x = some r ∧ v ∈ items kind r := by
      intro r hr
      obtain ⟨hr, hvr⟩ := List.mem_filter.1 hr
      obtain ⟨x, hx⟩ := Dict.mem_values_iff.1 hr
      exact ⟨x, hx, by simpa using hvr⟩
    have halive : ∀ r, 0 ≤ r.accessCount → ∀ d d', ¬ Expired mem d r → d' ≤ d → ¬ Expired mem d' r := by
      intro r hr d d' hd hle
      rw [not_expired_iff hlife hr] at hd ⊢
      exact hd.imp_right fun hlives => hlives.before (div_le_div_of_nonneg_right hle (by norm_num))
    have hbegin : ¬ Expired mem (old.createdAt + (mem.minAgeDaysBeforeExpiry - 1) * 86400) old := by
      rintro ⟨hgrace, -⟩
      rw [add_sub_cancel_left, mul_div_cancel_right₀ _ (by norm_num)] at hgrace
      linarith
    -- those who know `v` in the end live on in the one that lives longest
    obtain ⟨r, hr, hlonger⟩ := exists_of_forall_exists (fun r now => ¬ Expired mem now r)
      (l := knowers) (fun r hr => halive r (by
        obtain ⟨x, hx, -⟩ := hknower r hr
        exact h.accessCount_nonneg hcount hx)) hbegin fun now hlive => by
        obtain ⟨x, r, hx, hlive', hvr⟩ := hall now kind v o old ho hlive hv
        exact ⟨r, List.mem_filter.2 ⟨Dict.mem_values_iff.2 ⟨x, hx⟩, by simpa using hvr⟩, hlive'⟩
    obtain ⟨x, hx, hvr⟩ := hknower r hr
    obtain ⟨hlive, new, hnew, hext⟩ := h.before hx
    refine ⟨x, new, not_absorbedBy_iff.2 hlive, hnew, (h.mem_items_iff hx kind v).1 hvr, ?_⟩
    have hlong := (forall_not_expired_iff hlife hcold (h.accessCount_nonneg hcount hx)).1 hlonger
    rw [← h.weight_eq hx]
    simpa only [LivesAsLong, graceEnd, decayEnd, hext.createdAt, hext.lastAccessedAt] using hlong
  · intro hends now kind v o old ho hlive hv
    have hold : old ∈ (stored userId s).values := Dict.mem_values_iff.2 ⟨o, ho⟩
    obtain ⟨x, new, hx, hnew, hknown, hlong⟩ := hends kind v old hold hv
    obtain ⟨r, hr, hext⟩ := h.after hnew (not_absorbedBy_iff.1 hx)
    refine ⟨x, r, hr, ?_, (h.mem_items_iff hr kind v).2 hknown⟩
    rw [← h.weight_eq hr] at hlong
    refine (forall_not_expired_iff hlife (hcount old hold) (h.accessCount_nonneg hcount hr)).2 ?_ now hlive
    simpa only [LivesAsLong, graceEnd, decayEnd, hext.createdAt, hext.lastAccessedAt] using hlong

/-- It is enough that each record ends up in one created and accessed no earlier. -/
theorem Consolidates.endsAlive (h : Consolidates userId s consumed t) (hlife : 0 < mem.halfLifeDays)
    (hcount : ∀ r ∈ (stored userId s).values, 0 ≤ r.accessCount)
    (htimes : ∀ o x ro rx, Relation.ReflTransGen (absorbedBy consumed) o x → (∀ y, ¬ absorbedBy consumed x y) →
      (stored userId s).get? o = some ro → (stored userId s).get? x = some rx →
        ro.createdAt ≤ rx.createdAt ∧ ro.lastAccessedAt ≤ rx.lastAccessedAt) :
    EndsAlive mem userId s (absorbedBy consumed) := by
  intro kind v old hold hv
  obtain ⟨o, ho⟩ := Dict.mem_values_iff.1 hold
  obtain ⟨x, r, hheld, hr, hcovers⟩ := h.survivor hcount ho
  obtain ⟨hlive, new, hnew, hext⟩ := h.before hr
  have hx : ∀ y, ¬ absorbedBy consumed x y := not_absorbedBy_iff.2 hlive
  obtain ⟨hcreated, hlast⟩ := htimes o x old new hheld hx ho hnew
  refine ⟨x, new, hx, hnew, (h.mem_items_iff hr kind v).1 (hcovers.items kind hv), ?_⟩
  have hweight : weight old ≤ jointWeight (gathered userId s (absorbedBy consumed) x) :=
    (hcovers.weight_le (hcount old hold)).trans (h.weight_eq hr).le
  rcases le_or_gt mem.minImportance 0 with hmin | hmin
  · exact Or.inl hmin
  · have hpos : (0 : ℝ) < mem.minImportance := by exact_mod_cast hmin
    have hhalf : (0 : ℝ) ≤ mem.halfLifeDays := by exact_mod_cast hlife.le
    refine Or.inr ⟨Or.inl ?_, fun himportant => Or.inr ⟨himportant.trans hweight, ?_⟩⟩
    · unfold graceEnd
      linarith
    · have hday : ((old.lastAccessedAt / 86400 : ℚ) : ℝ) ≤ ((new.lastAccessedAt / 86400 : ℚ) : ℝ) := by
        exact_mod_cast div_le_div_of_nonneg_right hlast (by norm_num)
      exact add_le_add hday (fallTime_mono (hpos.trans_le himportant) hweight hpos hhalf)

end

/-- Each record is merged into the first of those that act which takes it. -/
theorem absorbedBy_eq {p q : List Hit} {consumed : Dict String String} {acting : Set String}
    (h : (consolidation mem userId).Runs (Answered listed found) (s, p) (.ok consumed) (t, q))
    (hacts : Acts (Takes mem listed found) (listed.map Prod.fst) acting) :
    absorbedBy consumed = TakenBy (Takes mem listed found) (listed.map Prod.fst) acting := by
  funext x y
  unfold absorbedBy
  rw [(consumed_eq_taken h).2]
  exact propext hacts.taken_eq_some_iff

/-- Under the given settings consolidation shortens the life of no knowledge if and only if what a record knows ends up in
one that lives as long by the days. -/
theorem outlasts_iff_lifeKept {p q : List Hit} {result : Except MemoryError Nat} (hlife : 0 < mem.halfLifeDays)
    (hcount : ∀ r ∈ (stored userId s).values, 0 ≤ r.accessCount)
    (h : (consolidate mem userId).Runs (Answered listed found) (s, p) result (t, q)) :
    (∀ now, Outlasts mem userId now s t) ↔ LifeKept mem userId s listed found := by
  obtain ⟨result', hrun, -⟩ := Prog.Runs.map_iff.1 h
  obtain ⟨consumed, rfl, hc⟩ := consolidation_spec (hrun.image Prod.fst fun _ _ _ _ he => he.1)
  rw [hc.outlasts_iff hlife hcount]
  constructor
  · intro hends
    obtain ⟨acting, hacts, -⟩ := exists_acts (Takes mem listed found) (consumed_eq_taken hrun).1
    exact ⟨acting, hacts, absorbedBy_eq hrun hacts ▸ hends⟩
  · rintro ⟨acting, hacts, hends⟩
    exact absorbedBy_eq hrun hacts ▸ hends

/-- It does not if each record ends up in one created and accessed no earlier. -/
theorem lifeKept_of_timesKept {p q : List Hit} {result : Except MemoryError Nat} (hlife : 0 < mem.halfLifeDays)
    (hcount : ∀ r ∈ (stored userId s).values, 0 ≤ r.accessCount)
    (h : (consolidate mem userId).Runs (Answered listed found) (s, p) result (t, q)) {acting : Set String}
    (hacts : Acts (Takes mem listed found) (listed.map Prod.fst) acting)
    (htimes : ∀ o x ro rx, Relation.ReflTransGen (TakenBy (Takes mem listed found) (listed.map Prod.fst) acting) o x →
      (∀ y, ¬ TakenBy (Takes mem listed found) (listed.map Prod.fst) acting x y) →
        (stored userId s).get? o = some ro → (stored userId s).get? x = some rx →
          ro.createdAt ≤ rx.createdAt ∧ ro.lastAccessedAt ≤ rx.lastAccessedAt) :
    LifeKept mem userId s listed found := by
  obtain ⟨result', hrun, -⟩ := Prog.Runs.map_iff.1 h
  obtain ⟨consumed, rfl, hc⟩ := consolidation_spec (hrun.image Prod.fst fun _ _ _ _ he => he.1)
  refine ⟨acting, hacts, ?_⟩
  rw [← absorbedBy_eq hrun hacts] at htimes ⊢
  exact hc.endsAlive hlife hcount htimes

/-! ### Two records of which the older one is in use -/

/-- A record written on the first day and accessed a month later. -/
def inUse : MemoryRecord := { acme "m1" "Fiscal year ends in June." 0 with lastAccessedAt := 31 * 86400 }

/-- The other record is written on the second day and not accessed since. -/
def oneInUse : Collection :=
  ((add (acme "m2" "Reports in EUR." 86400)).eval (Chroma.exec allNear)
    ((add inUse).eval (Chroma.exec allNear) ∅).2).2

/-- The calls on a collection beside the answer to the last query. -/
def execAnswered (distance : String → String → ℚ) (c : Command) (s : Collection × List Hit) :
    Response c × (Collection × List Hit) :=
  ((Chroma.exec distance c s.1).1, (Chroma.exec distance c s.1).2, lastFound s.2 c (Chroma.exec distance c s.1).1)

/-- The call fits the listing and the answers. -/
def fits (listed : List (String × Metadata)) (found : String → List Hit) (c : Command)
    (s : Collection × List Hit) : Bool :=
  match c with
  | .get user? => select user? s.1 = listed
  | .update id _ => s.2 = found id
  | _ => true

theorem answered_of_fits (distance : String → String → ℚ) (c : Command) (s : Collection × List Hit)
    (h : fits listed found c s = true) :
    Answered listed found c s (execAnswered distance c s).1 (execAnswered distance c s).2 := by
  refine ⟨executes_exec distance c s.1, rfl, ?_⟩
  cases c with
  | get user? =>
    have hlisted : select user? s.1 = listed := of_decide_eq_true h
    exact hlisted
  | update id metadata =>
    have hfound : s.2 = found id := of_decide_eq_true h
    exact hfound
  | _ => trivial

/-- The first of two takes the second. -/
theorem takenBy_pair {reach : String → String → Prop} {a b : String} {acting : Set String} (h : Acts reach [a, b] acting)
    (hab : reach a b) (haa : ¬ reach a a) :
    (∀ y, ¬ TakenBy reach [a, b] acting a y) ∧ TakenBy reach [a, b] acting b a := by
  have ha : a ∈ acting := (h [] a [b] rfl).2 fun c hc => absurd hc List.not_mem_nil
  have hb : b ∉ acting := fun hb => (h [a] b [] rfl).1 hb a List.mem_cons_self ha hab
  refine ⟨?_, [], [b], rfl, ha, hab, fun c hc => absurd hc List.not_mem_nil⟩
  rintro y ⟨l₁, l₂, hl, hy, hreach, -⟩
  have hmem : y ∈ [a, b] := hl ▸ List.mem_append_right l₁ List.mem_cons_self
  rcases List.mem_cons.1 hmem with rfl | hmem
  · exact haa hreach
  · obtain rfl := List.mem_singleton.1 hmem
    exact hb hy

/-- What is found for each of the two. -/
def bothFound (_ : String) : List Hit := nearest allNear "" (some "alice") oneInUse

theorem weight_unused {r : MemoryRecord} (himportance : r.importance.1 = 1 / 2) (hcount : r.accessCount = 0) :
    weight r = 1 / 2 := by
  unfold weight
  rw [himportance, hcount]
  norm_num

/-- The record in use lives longer, though its grace period ends earlier. -/
theorem lifeKept_oneInUse : LifeKept sampleMemory "alice" oneInUse (select (some "alice") oneInUse) bothFound := by
  have hids : (select (some "alice") oneInUse).map Prod.fst = ["m1", "m2"] := by decide +kernel
  have hitems : (stored "alice" oneInUse).items = [("m1", inUse), ("m2", acme "m2" "Reports in EUR." 86400)] := by
    decide +kernel
  have hab : Takes sampleMemory (select (some "alice") oneInUse) bothFound "m1" "m2" := by decide +kernel
  have haa : ¬ Takes sampleMemory (select (some "alice") oneInUse) bothFound "m1" "m1" := by decide +kernel
  obtain ⟨acting, hacts, -⟩ := exists_acts
    (Takes sampleMemory (select (some "alice") oneInUse) bothFound) (l := ["m1", "m2"]) (by decide)
  obtain ⟨hfirst, hsecond⟩ := takenBy_pair hacts hab haa
  refine ⟨acting, hids ▸ hacts, ?_⟩
  rw [hids]
  generalize TakenBy (Takes sampleMemory (select (some "alice") oneInUse) bothFound) ["m1", "m2"] acting = into at *
  -- both end up in the record in use
  have hgathered : gathered "alice" oneInUse into "m1" = [inUse, acme "m2" "Reports in EUR." 86400] := by
    have hself : Relation.ReflTransGen into "m1" "m1" := Relation.ReflTransGen.refl
    have hother : Relation.ReflTransGen into "m2" "m1" := Relation.ReflTransGen.single hsecond
    simp [gathered, hitems, hself, hother]
  have hjoint : jointWeight [inUse, acme "m2" "Reports in EUR." 86400] = 1 / 2 := by
    norm_num [jointWeight, inUse, acme]
  have hfall : 0 ≤ fallTime (1 / 2) (1 / 20) 30 := fallTime_nonneg (by norm_num) (by norm_num) (by norm_num)
  intro kind v old hold hv
  have hcases : old ∈ [inUse, acme "m2" "Reports in EUR." 86400] := by
    have hvalues : (stored "alice" oneInUse).values = [inUse, acme "m2" "Reports in EUR." 86400] := by
      rw [Dict.values, hitems]
      rfl
    exact hvalues ▸ hold
  have hlong : LivesAsLong sampleMemory old inUse (1 / 2) := by
    refine Or.inr ?_
    rcases List.mem_cons.1 hcases with rfl | hcases
    · refine ⟨Or.inl le_rfl, fun _ => Or.inr ?_⟩
      rw [weight_unused rfl rfl]
      norm_num [sampleMemory]
    · obtain rfl := List.mem_singleton.1 hcases
      rw [weight_unused rfl rfl]
      norm_num [sampleMemory, graceEnd, decayEnd, inUse, acme]
      linarith
  refine ⟨"m1", inUse, hfirst, Dict.mem_items_iff.1 (hitems ▸ List.mem_cons_self), ⟨old, hgathered ▸ hcases, hv⟩, ?_⟩
  rw [hgathered, hjoint]
  exact hlong

/-- Nothing that either record knows expires earlier.  On day 121 only the record in use would be left of the two, and on
day 151 what has become of it is gone. -/
theorem outlasts_oneInUse : ∃ t q,
    (consolidate sampleMemory "alice").Runs (Answered (select (some "alice") oneInUse) bothFound) (oneInUse, []) (.ok 1)
      (t, q) ∧ (∀ now, Outlasts sampleMemory "alice" now oneInUse t) ∧
    Expired sampleMemory (121 * 86400) (acme "m2" "Reports in EUR." 86400) ∧
    ¬ Expired sampleMemory (121 * 86400) inUse ∧
    ∀ r ∈ (stored "alice" t).values, Expired sampleMemory (151 * 86400) r := by
  have hchecks : (consolidate sampleMemory "alice").checks (execAnswered allNear)
      (fits (select (some "alice") oneInUse) bothFound) (oneInUse, []) = true := by decide +kernel
  have hrun := Prog.runs_of_checks (answered_of_fits allNear) hchecks
  have hone : ((consolidate sampleMemory "alice").eval (execAnswered allNear) (oneInUse, [])).1 = .ok 1 := by
    decide +kernel
  have hcount : ∀ r ∈ (stored "alice" oneInUse).values, 0 ≤ r.accessCount := by decide +kernel
  have hmerged : ∀ r ∈ (stored "alice" ((consolidate sampleMemory "alice").eval (execAnswered allNear)
      (oneInUse, [])).2.1).values, r.importance.1 = 1 / 2 ∧ r.accessCount = 0 ∧ r.createdAt = 0 ∧
        r.lastAccessedAt = 31 * 86400 := by decide +kernel
  rw [hone] at hrun
  refine ⟨_, _, hrun, (outlasts_iff_lifeKept (by norm_num [sampleMemory]) hcount hrun).2 lifeKept_oneInUse, ⟨?_, ?_⟩, ?_,
    fun r hr => ?_⟩
  · norm_num [sampleMemory, acme]
  · norm_num [effectiveImportance, sampleMemory, acme]
  · rintro ⟨-, hless⟩
    norm_num [effectiveImportance, sampleMemory, inUse, acme] at hless
  · obtain ⟨himportance, haccess, hcreated, hlast⟩ := hmerged r hr
    refine ⟨?_, ?_⟩
    · rw [hcreated]
      norm_num [sampleMemory]
    · unfold effectiveImportance
      rw [himportance, haccess, hlast]
      norm_num [sampleMemory]

/-- What has just been learned expires with the record of 300 days ago that has absorbed it. -/
theorem fresh_fact_expires : ∃ s consumed t now,
    (consolidation sampleMemory "alice").Runs Executes s (.ok consumed) t ∧
      (∀ r ∈ (stored "alice" s).values, 0 ≤ r.accessCount) ∧ ¬ Outlasts sampleMemory "alice" now s t := by
  have hrun := Prog.runs_of_eval (executes_exec allNear) (consolidation sampleMemory "alice")
    (twoRecords (300 * 86400))
  obtain ⟨consumed, hok, -⟩ := consolidation_spec hrun
  rw [hok] at hrun
  refine ⟨_, consumed, _, 300 * 86400, hrun, by decide +kernel, fun h => ?_⟩
  have hfresh : (stored "alice" (twoRecords (300 * 86400))).get? "m2" =
      some (acme "m2" "Reports in EUR." (300 * 86400)) := by decide +kernel
  have hlive : ¬ Expired sampleMemory (300 * 86400) (acme "m2" "Reports in EUR." (300 * 86400)) := by
    rintro ⟨hage, -⟩
    exact absurd hage (by simp [sampleMemory, acme])
  obtain ⟨id, r, hr, hkept, -⟩ := outlasts_iff.1 h .fact "Reports in EUR." "m2" _ hfresh hlive (by simp [items, acme])
  have hmerged : ∀ r ∈ (stored "alice" ((consolidation sampleMemory "alice").eval (Chroma.exec allNear)
      (twoRecords (300 * 86400))).2).values, r.importance.1 = 1 / 2 ∧ r.accessCount = 0 ∧ r.createdAt = 0 ∧
        r.lastAccessedAt = 0 := by decide +kernel
  obtain ⟨himportance, hcount, hcreated, hlast⟩ := hmerged r (Dict.mem_values_iff.2 ⟨id, hr⟩)
  refine hkept ⟨?_, ?_⟩
  · rw [hcreated]
    norm_num [sampleMemory]
  · unfold effectiveImportance
    rw [himportance, hcount, hlast]
    norm_num [sampleMemory]

end AgentOrchestrator.LongTermMemory
