import AgentOrchestrator.Lib.Sweep
import AgentOrchestrator.Memory.Consolidation
import Mathlib.Tactic.FieldSimp
import Mathlib.Tactic.Positivity
import Mathlib.Tactic.Ring

/-!
# Which near-duplicates a consolidation finds

An index with exact nearest neighbours still answers with no more than five of them, and the records that have been
absorbed are among them until the end.  So consolidation is a sweep in which a record reaches the near ones of its five
nearest, and it leaves two near-duplicates behind exactly when none of the records that have a turn reaches either
(`complete_iff`).
-/

namespace AgentOrchestrator.LongTermMemory

open Chroma

/-! ### Exact indices -/

/-- The entries of the user that are nearest to the text, nearest first, as many as asked for if there are as many. -/
structure Nearest (distance : String → String → ℚ) (text : String) (nResults : Nat) (user? : Option String)
    (s : Collection) (hits : List Hit) : Prop where
  answers : Answers s nResults user? hits
  distances : ∀ hit ∈ hits, ∀ e, s.get? hit.id = some e → hit.distance = distance text e.document
  sorted : hits.Pairwise fun a b => a.distance ≤ b.distance
  length_eq : hits.length = min nResults (select user? s).length
  nearest : ∀ id e, s.get? id = some e → e.metadata.ofUser user? = true → id ∉ hits.map Hit.id →
    ∀ hit ∈ hits, hit.distance ≤ distance text e.document

/-- What the index has of a collection: for each entry its embedded document and what a filter reads. -/
def embedded (s : Collection) : List (String × String × String) :=
  s.items.map fun e => (e.1, e.2.document, e.2.metadata.userId)

def ranked (hit : Hit) : String × ℚ := (hit.id, hit.distance)

/-- An exact index: it lists entries in some order, breaks ties somehow, and answers alike as long as nothing that it has
is changed. -/
structure Index (distance : String → String → ℚ) where
  list : Option String → Collection → List (String × Metadata)
  nearest : String → Nat → Option String → Collection → List Hit
  list_perm : ∀ user? s, (list user? s).Perm (select user? s)
  exact : ∀ text nResults user? s, Nearest distance text nResults user? s (nearest text nResults user? s)
  stable : ∀ text nResults user? s t, embedded s = embedded t →
    (nearest text nResults user? s).map ranked = (nearest text nResults user? t).map ranked

variable {distance : String → String → ℚ}

/-- The calls on a collection with this index. -/
def Index.exec (index : Index distance) : (c : Command) → Collection → Response c × Collection
  | .get user?, s => (index.list user? s, s)
  | .query text nResults user?, s => (index.nearest text nResults user? s, s)
  | .add id document metadata, s => ((), addEntry s id ⟨document, metadata⟩)
  | .update id metadata, s => ((), updateMetadata s id metadata)
  | .delete ids, s => ((), deleteIds s ids)
  | .deleteUser userId, s => ((), deleteOfUser s userId)

theorem Index.executes (index : Index distance) (c : Command) (s : Collection) :
    Executes c s (index.exec c s).1 (index.exec c s).2 := by
  cases c with
  | get user? => exact ⟨index.list_perm user? s, rfl⟩
  | query text nResults user? => exact ⟨(index.exact text nResults user? s).answers, rfl⟩
  | _ => rfl

/-! ### What a record reaches -/

/-- In its turn the record `a` merges the record `x` if that is still there: `x` is one of the nearest neighbours of `a`
that are fetched, and near enough. -/
def Reaches (index : Index distance) (mem : LongTermMemory) (userId : String) (s : Collection) (a x : String) : Prop :=
  x ≠ a ∧ ∃ e, s.get? a = some e ∧
    ∃ hit ∈ index.nearest e.document (min 5 (stored userId s).length) (some userId) s,
      hit.id = x ∧ mem.consolidationSimilarityThreshold ≤ 1 - hit.distance

/-- The ids of the user in the order in which they are listed. -/
def turns (index : Index distance) (userId : String) (s : Collection) : List String :=
  (index.list (some userId) s).map Prod.fst

/-- Two records of the user with stored embeddings that are near-duplicates. -/
structure NearDuplicates (distance : String → String → ℚ) (mem : LongTermMemory) (userId : String) (s : Collection)
    (x y : String) : Prop where
  ne : x ≠ y
  near : ∃ ex ey, s.get? x = some ex ∧ s.get? y = some ey ∧ ex.metadata.userId = userId ∧ ey.metadata.userId = userId ∧
    mem.consolidationSimilarityThreshold ≤ 1 - distance ex.document ey.document

/-- A scan of the stored embeddings finds nothing to merge. -/
def Complete (distance : String → String → ℚ) (mem : LongTermMemory) (userId : String) (s : Collection) : Prop :=
  ∀ x y, ¬ NearDuplicates distance mem userId s x y

/-- No record of the user has been changed since it was embedded. -/
def Unconsolidated (userId : String) (s : Collection) : Prop :=
  ∀ id e, s.get? id = some e → e.metadata.userId = userId → e.document = (fromResult id e.metadata).embeddingText

/-- Of any two near-duplicates one is reached by a record that acts; a record acts unless an earlier one that acts reaches
it. -/
def Covered (index : Index distance) (mem : LongTermMemory) (userId : String) (s : Collection) : Prop :=
  ∃ acting, Acts (Reaches index mem userId s) (turns index userId s) acting ∧
    ∀ x y, NearDuplicates distance mem userId s x y →
      ∃ a ∈ turns index userId s, a ∈ acting ∧ (Reaches index mem userId s a x ∨ Reaches index mem userId s a y)

/-! ### The whole sweep -/

/-- The loop over the records rewrites records of the user, and every answer to a query is that of the index to it in
`s`. -/
def searches (index : Index distance) (userId : String) (s : Collection) : Protocol Command Response Unit where
  next _ _ _ := ()
  guarantee _ c :=
    match c with
    | .query _ _ user? => user? = some userId
    | .update id metadata => metadata.userId = userId ∧ ∃ r, (stored userId s).get? id = some r
    | _ => False
  rely _ c r :=
    match c, r with
    | .query text nResults user?, hits => List.map ranked hits = (index.nearest text nResults user? s).map ranked
    | _, _ => True

theorem exists_ranked {hits hits' : List Hit} (h : hits.map ranked = hits'.map ranked) {p : String → ℚ → Prop} :
    (∃ hit ∈ hits, p hit.id hit.distance) ↔ ∃ hit ∈ hits', p hit.id hit.distance := by
  have hmap : ∀ l : List Hit, (∃ hit ∈ l, p hit.id hit.distance) ↔ ∃ r ∈ l.map ranked, p r.1 r.2 := by
    intro l
    simp [ranked]
  rw [hmap, hmap, h]

/-- The consumed ids after the loop are those that a sweep makes go. -/
theorem follows_sweep (index : Index distance) (mem : LongTermMemory) {userId : String} {s : Collection}
    (h : Unconsolidated userId s) (rest : List MemoryRecord) {records : Dict String MemoryRecord}
    (consumed : Dict String String) (hkeyed : Keyed records) (hlength : records.length = (stored userId s).length)
    (hknown : ∀ id, (records.get? id).isSome = ((stored userId s).get? id).isSome)
    (hrest : ∀ r ∈ rest, (stored userId s).get? r.id = some r) :
    (mergeRecords mem userId rest records consumed).Follows (searches index userId s)
      (fun _ result => ∀ consumed', result = .ok consumed' →
        {x | x ∈ consumed'.keys} = swept (Reaches index mem userId s) (rest.map MemoryRecord.id) {x | x ∈ consumed.keys})
      () := by
  induction rest generalizing records consumed with
  | nil =>
    intro consumed' hok
    obtain rfl := Except.ok.inj hok
    rfl
  | cons record rest ih =>
    have hrecord := hrest record List.mem_cons_self
    have hrest' : ∀ r ∈ rest, (stored userId s).get? r.id = some r := fun r hr => hrest r (List.mem_cons_of_mem _ hr)
    rw [List.map_cons]
    unfold mergeRecords
    by_cases hgone : record.id ∈ consumed.keys
    · have hmem : record.id ∈ {x | x ∈ consumed.keys} := hgone
      rw [if_pos hgone, swept_cons_of_mem hmem]
      exact ih consumed hkeyed hlength hknown hrest'
    · have hmem : record.id ∉ {x | x ∈ consumed.keys} := hgone
      rw [if_neg hgone, swept_cons_of_not_mem hmem]
      refine ⟨rfl, fun hits hhits => ?_⟩
      dsimp only [Prog.bind]
      cases hrun : mergeNeighbors mem records hits record consumed with
      | error e =>
        intro consumed' hok
        exact absurd hok (by simp)
      | ok out =>
        obtain ⟨record', consumed'⟩ := out
        obtain ⟨hid, huser, -⟩ := get?_mergeNeighbors hkeyed hits hrun
        have hkeys := mem_keys_mergeNeighbors hkeyed hits hrun
        have hlive := not_consumed_mergeNeighbors hkeyed hits hrun hgone
        obtain ⟨e, he, heuser, hfrom⟩ := get?_stored.1 hrecord
        have htext : record.embeddingText = e.document := by rw [h record.id e he heuser, hfrom]
        have hset : {x | x ∈ consumed.keys} ∪ {x | Reaches index mem userId s record.id x} =
            {x | x ∈ consumed'.keys} := by
          ext x
          simp only [Set.mem_union, Set.mem_ofPred_eq, hkeys]
          refine or_congr_right (and_congr_right fun _ => ?_)
          have hsame := exists_ranked (p := fun id d => id = x ∧ mem.consolidationSimilarityThreshold ≤ 1 - d) hhits
          rw [hlength, htext] at hsame
          constructor
          · rintro ⟨e', he', hx⟩
            obtain rfl := Option.some.inj (he.symm.trans he')
            exact hsame.2 hx
          · exact fun hx => ⟨e, he, hsame.1 hx⟩
        obtain ⟨r, hr⟩ : ∃ r, records.get? record.id = some r := by
          rw [← Option.isSome_iff_exists, hknown, hrecord]
          rfl
        dsimp only
        rw [if_pos hlive, hset]
        refine ⟨⟨?_, record, hid ▸ hrecord⟩, fun _ _ => ih consumed' (hkeyed.insert record') ?_ (fun id => ?_) hrest'⟩
        · rw [toMetadata, huser, ← hfrom]
          exact heuser
        · rw [hid, Dict.length_insert_of_some hr, hlength]
        · rw [Dict.get?_insert, hid]
          split
          · rename_i hk
            rw [hk, hrecord]
            rfl
          · exact hknown id

theorem exists_of_embedded {s t : Collection} (h : embedded s = embedded t) {id : String} {e : Entry}
    (he : s.get? id = some e) :
    ∃ e', t.get? id = some e' ∧ e'.document = e.document ∧ e'.metadata.userId = e.metadata.userId := by
  have hmem : (id, e.document, e.metadata.userId) ∈ embedded t :=
    h ▸ List.mem_map.2 ⟨(id, e), Dict.mem_items_iff.2 he, rfl⟩
  obtain ⟨⟨id', e'⟩, he', hsame⟩ := List.mem_map.1 hmem
  obtain ⟨rfl, hrest⟩ := Prod.mk.inj hsame
  obtain ⟨hdocument, huser⟩ := Prod.mk.inj hrest
  exact ⟨e', Dict.mem_items_iff.1 he', hdocument, huser⟩

theorem embedded_updateMetadata {s : Collection} {id : String} {e : Entry} (he : s.get? id = some e) {m : Metadata}
    (hm : m.userId = e.metadata.userId) : embedded (updateMetadata s id m) = embedded s := by
  unfold updateMetadata
  rw [he]
  refine Dict.map_items_insert he ?_
  rw [hm]

/-- Run alone, the loop leaves what the index has as it is, so the index answers as it does in `s`. -/
theorem searches_step (index : Index distance) {userId : String} {s : Collection} (g : Unit) (u : Collection)
    (c : Command) (r : Response c) (v : Collection) (h : embedded s = embedded u)
    (hg : (searches index userId s).guarantee g c) (he : index.exec c u = (r, v)) :
    (searches index userId s).rely g c r ∧ embedded s = embedded v := by
  cases c with
  | query text nResults user? =>
    obtain ⟨rfl, rfl⟩ := Prod.mk.inj he
    exact ⟨(index.stable text nResults user? s u h).symm, h⟩
  | update id metadata =>
    obtain ⟨-, rfl⟩ := Prod.mk.inj he
    obtain ⟨huser, r, hr⟩ := hg
    obtain ⟨e, he, heuser, -⟩ := get?_stored.1 hr
    obtain ⟨e', he', -, hsame⟩ := exists_of_embedded h he
    exact ⟨trivial, h.trans (embedded_updateMetadata he' (huser.trans (hsame.trans heuser).symm)).symm⟩
  | _ => exact hg.elim

theorem runs_exec (index : Index distance) {α : Type} (p : Program α) (s : Collection) :
    p.Runs (fun c s r t => index.exec c s = (r, t)) s (p.eval index.exec s).1 (p.eval index.exec s).2 :=
  Prog.runs_of_eval (fun _ _ => rfl) p s

/-- The consumed ids are those that a sweep makes go. -/
theorem consumed_eq (index : Index distance) (mem : LongTermMemory) {userId : String} {s : Collection}
    (h : Unconsolidated userId s) (hlength : 2 ≤ (stored userId s).length) {consumed : Dict String String}
    (hrun : ((consolidation mem userId).eval index.exec s).1 = .ok consumed) :
    {x | x ∈ consumed.keys} = swept (Reaches index mem userId s) (turns index userId s) ∅ := by
  have hruns := runs_exec index (consolidation mem userId) s
  rw [hrun] at hruns
  obtain ⟨listed, u, hlist, hrest⟩ := Prog.Runs.bind_iff.1 hruns
  obtain ⟨results, u', hget, hret⟩ := Prog.Runs.bind_iff.1 hlist
  obtain ⟨rfl, rfl⟩ := Prod.mk.inj (Prog.Runs.perform_iff.1 hget)
  obtain ⟨rfl, rfl⟩ := Prog.Runs.ret_iff.1 hret
  have hperm := index.list_perm (some userId) u
  have hrecords := get?_recordsOf hperm
  have hkeyed := keyed_recordsOf (index.list (some userId) u)
  have hsize : (recordsOf (index.list (some userId) u)).length = (stored userId u).length :=
    (Dict.items_perm hrecords).length_eq
  change Prog.Runs _ (if (recordsOf (index.list (some userId) u)).length < 2 then _ else _) _ _ _ at hrest
  rw [if_neg (by omega)] at hrest
  obtain ⟨result, v, hmerge, hlast⟩ := Prog.Runs.bind_iff.1 hrest
  have hfollows := follows_sweep index mem h (recordsOf (index.list (some userId) u)).values ∅ hkeyed hsize
    (fun id => by rw [hrecords]) fun r hr => (hrecords r.id) ▸ hkeyed.get?_id hr
  obtain ⟨-, hpost, -⟩ := hfollows.runs (I := fun _ v => embedded u = embedded v) (searches_step index) rfl hmerge
  cases result with
  | error e => exact absurd (Prog.Runs.ret_iff.1 hlast).1 (by simp)
  | ok consumed' =>
    have hsame : consumed = consumed' := by
      dsimp only at hlast
      split at hlast
      · obtain ⟨_, _, -, hret⟩ := Prog.Runs.bind_iff.1 hlast
        exact Except.ok.inj (Prog.Runs.ret_iff.1 hret).1
      · exact Except.ok.inj (Prog.Runs.ret_iff.1 hlast).1
    rw [hsame, hpost consumed' rfl, hkeyed.map_id, keys_recordsOf ((hperm.map Prod.fst).nodup_iff.2 (nodup_select _ _))]
    refine congrArg _ (Set.eq_empty_iff_forall_notMem.2 fun x hx => ?_)
    exact absurd hx List.not_mem_nil

/-! ### What is left -/

variable {mem : LongTermMemory} {userId : String} {s t : Collection}

/-- An entry of the user is left with its document if it has not been consumed. -/
theorem Consolidates.exists_document {consumed : Dict String String} (h : Consolidates userId s consumed t) {id : String}
    {p : String → Prop} : (∃ e, t.get? id = some e ∧ e.metadata.userId = userId ∧ p e.document) ↔
      (∃ e, s.get? id = some e ∧ e.metadata.userId = userId ∧ p e.document) ∧ consumed.get? id = none := by
  constructor
  · rintro ⟨e, he, huser, hp⟩
    obtain ⟨hlive, r₀, hr₀, -⟩ := h.before (get?_stored.2 ⟨e, he, huser, rfl⟩)
    obtain ⟨e₀, he₀, huser₀, -⟩ := get?_stored.1 hr₀
    obtain ⟨e₁, he₁, hdocument⟩ := h.frame.documents id e he
    obtain rfl := Option.some.inj (he₀.symm.trans he₁)
    exact ⟨⟨e₀, he₀, huser₀, hdocument ▸ hp⟩, hlive⟩
  · rintro ⟨⟨e₀, he₀, huser₀, hp⟩, hlive⟩
    obtain ⟨r, hr, -⟩ := h.after (get?_stored.2 ⟨e₀, he₀, huser₀, rfl⟩) hlive
    obtain ⟨e, he, huser, -⟩ := get?_stored.1 hr
    obtain ⟨e₁, he₁, hdocument⟩ := h.frame.documents id e he
    obtain rfl := Option.some.inj (he₀.symm.trans he₁)
    exact ⟨e, he, huser, hdocument ▸ hp⟩

theorem nearDuplicates_iff {x y : String} : NearDuplicates distance mem userId s x y ↔
    x ≠ y ∧ ∃ e, s.get? x = some e ∧ e.metadata.userId = userId ∧
      ∃ e', s.get? y = some e' ∧ e'.metadata.userId = userId ∧
        mem.consolidationSimilarityThreshold ≤ 1 - distance e.document e'.document := by
  constructor
  · rintro ⟨hne, e, e', he, he', hu, hu', hnear⟩
    exact ⟨hne, e, he, hu, e', he', hu', hnear⟩
  · rintro ⟨hne, e, he, hu, e', he', hu', hnear⟩
    exact ⟨hne, e, e', he, he', hu, hu', hnear⟩

/-- Two near-duplicates are left if neither has been consumed. -/
theorem Consolidates.nearDuplicates {consumed : Dict String String} (h : Consolidates userId s consumed t)
    {x y : String} : NearDuplicates distance mem userId t x y ↔
      NearDuplicates distance mem userId s x y ∧ consumed.get? x = none ∧ consumed.get? y = none := by
  have hother : ∀ d, (∃ e', t.get? y = some e' ∧ e'.metadata.userId = userId ∧
      mem.consolidationSimilarityThreshold ≤ 1 - distance d e'.document) ↔
      (∃ e', s.get? y = some e' ∧ e'.metadata.userId = userId ∧
        mem.consolidationSimilarityThreshold ≤ 1 - distance d e'.document) ∧ consumed.get? y = none :=
    fun d => h.exists_document (p := fun d' => mem.consolidationSimilarityThreshold ≤ 1 - distance d d')
  rw [nearDuplicates_iff, nearDuplicates_iff,
    h.exists_document (p := fun d => ∃ e', t.get? y = some e' ∧ e'.metadata.userId = userId ∧
      mem.consolidationSimilarityThreshold ≤ 1 - distance d e'.document)]
  simp only [hother]
  constructor
  · rintro ⟨hne, ⟨e, he, hu, hy, hly⟩, hlx⟩
    exact ⟨⟨hne, e, he, hu, hy⟩, hlx, hly⟩
  · rintro ⟨⟨hne, e, he, hu, hy⟩, hlx, hly⟩
    exact ⟨hne, ⟨e, he, hu, hy, hly⟩, hlx⟩

theorem NearDuplicates.two_le_length {x y : String} (h : NearDuplicates distance mem userId s x y) :
    2 ≤ (stored userId s).length := by
  obtain ⟨e, e', he, he', hu, hu', -⟩ := h.near
  have hsub : [x, y] ⊆ (stored userId s).keys := by
    simp only [List.cons_subset, List.nil_subset, and_true, Dict.mem_keys_iff]
    exact ⟨⟨_, get?_stored.2 ⟨e, he, hu, rfl⟩⟩, ⟨_, get?_stored.2 ⟨e', he', hu', rfl⟩⟩⟩
  have hsubperm := List.Nodup.subperm (List.nodup_cons.2 ⟨by simpa using h.ne, List.nodup_singleton y⟩) hsub
  simpa [Dict.keys, Dict.length] using hsubperm.length_le

theorem nodup_turns (index : Index distance) (userId : String) (s : Collection) : (turns index userId s).Nodup :=
  ((index.list_perm (some userId) s).map Prod.fst).nodup_iff.2 (nodup_select _ _)

/-- No two near-duplicates are left if and only if one of each two is reached by a record that has a turn. -/
theorem complete_iff (index : Index distance) (mem : LongTermMemory) (userId : String) (s : Collection)
    (h : Unconsolidated userId s) :
    Complete distance mem userId ((consolidate mem userId).eval index.exec s).2 ↔ Covered index mem userId s := by
  have hrun := Prog.runs_of_eval index.executes (consolidation mem userId) s
  obtain ⟨consumed, hok, hc⟩ := consolidation_spec hrun
  have hend : ((consolidate mem userId).eval index.exec s).2 = ((consolidation mem userId).eval index.exec s).2 := by
    unfold consolidate
    rw [Prog.eval_map]
  have hgone : ∀ x y, NearDuplicates distance mem userId s x y → ∀ z,
      consumed.get? z = none ↔ z ∉ swept (Reaches index mem userId s) (turns index userId s) ∅ := by
    intro x y hxy z
    rw [← consumed_eq index mem h hxy.two_le_length hok, Option.eq_none_iff_forall_ne_some, Set.mem_ofPred_eq,
      Dict.mem_keys_iff, not_exists]
  rw [hend]
  refine (forall₂_congr fun x y => not_congr hc.nearDuplicates).trans ?_
  constructor
  · intro hcomplete
    obtain ⟨acting, hacts, -⟩ := exists_acts (Reaches index mem userId s) (nodup_turns index userId s)
    refine ⟨acting, hacts, fun x y hxy => ?_⟩
    by_contra hnone
    refine hcomplete x y ⟨hxy, (hgone x y hxy x).2 fun hx => hnone ?_, (hgone x y hxy y).2 fun hy => hnone ?_⟩
    · obtain ⟨a, ha, hacting, hreach⟩ := hacts.mem_swept_iff.1 hx
      exact ⟨a, ha, hacting, Or.inl hreach⟩
    · obtain ⟨a, ha, hacting, hreach⟩ := hacts.mem_swept_iff.1 hy
      exact ⟨a, ha, hacting, Or.inr hreach⟩
  · rintro ⟨acting, hacts, hcovered⟩ x y ⟨hxy, hlx, hly⟩
    obtain ⟨a, ha, hacting, hreach | hreach⟩ := hcovered x y hxy
    · exact (hgone x y hxy x).1 hlx (hacts.mem_swept_iff.2 ⟨a, ha, hacting, hreach⟩)
    · exact (hgone x y hxy y).1 hly (hacts.mem_swept_iff.2 ⟨a, ha, hacting, hreach⟩)

/-! ### When all are found -/

/-- It is enough that of two near-duplicates one would be merged in the turn of the other. -/
theorem covered_of_reaches {index : Index distance}
    (h : ∀ x y, NearDuplicates distance mem userId s x y →
      Reaches index mem userId s x y ∨ Reaches index mem userId s y x) : Covered index mem userId s := by
  obtain ⟨acting, hacts, -⟩ := exists_acts (Reaches index mem userId s) (nodup_turns index userId s)
  -- a record that has no turn is reached by an earlier one that has
  have hreached : ∀ x ∈ turns index userId s, ∀ y, Reaches index mem userId s x y →
      ∃ a ∈ turns index userId s, a ∈ acting ∧ (Reaches index mem userId s a x ∨ Reaches index mem userId s a y) := by
    intro x hx y hxy
    by_cases hacting : x ∈ acting
    · exact ⟨x, hx, hacting, Or.inr hxy⟩
    · obtain ⟨l₁, l₂, hl⟩ := List.append_of_mem hx
      rw [hacts l₁ x l₂ hl] at hacting
      simp only [not_forall, not_not] at hacting
      obtain ⟨a, ha, hacting, hreach⟩ := hacting
      exact ⟨a, hl ▸ List.mem_append_left _ ha, hacting, Or.inl hreach⟩
  have hturn : ∀ id e, s.get? id = some e → e.metadata.userId = userId → id ∈ turns index userId s := by
    intro id e he hu
    refine List.mem_map.2 ⟨(id, e.metadata), (index.list_perm _ s).mem_iff.2 (mem_select.2 ⟨e, he, rfl, ?_⟩), rfl⟩
    simp [Metadata.ofUser, hu]
  refine ⟨acting, hacts, fun x y hxy => ?_⟩
  obtain ⟨e, e', he, he', hu, hu', -⟩ := hxy.near
  rcases h x y hxy with hreach | hreach
  · exact hreached x (hturn x e he hu) y hreach
  · obtain ⟨a, ha, hacting, hor⟩ := hreached y (hturn y e' he' hu') x hreach
    exact ⟨a, ha, hacting, hor.symm⟩

theorem length_select (userId : String) (s : Collection) : (select (some userId) s).length = (stored userId s).length := by
  have hperm := get?_recordsOf (List.Perm.refl (select (some userId) s))
  have hkeys := congrArg List.length (keys_recordsOf (nodup_select (some userId) s))
  rw [List.length_map] at hkeys
  rw [← hkeys, Dict.keys, List.length_map]
  exact (Dict.items_perm hperm).length_eq

/-- Five records are few enough for a consolidation to find all near-duplicates. -/
theorem covered_of_length_le (index : Index distance) (hlength : (stored userId s).length ≤ 5) :
    Covered index mem userId s := by
  refine covered_of_reaches fun x y hxy => ?_
  obtain ⟨e, e', he, he', hu, hu', hnear⟩ := hxy.near
  let hits := index.nearest e.document (min 5 (stored userId s).length) (some userId) s
  have hexact : Nearest distance e.document (min 5 (stored userId s).length) (some userId) s hits := index.exact ..
  -- all records of the user are fetched
  have hall : hits.map Hit.id ⊆ (stored userId s).keys := by
    intro id hid
    obtain ⟨hit, hhit, rfl⟩ := List.mem_map.1 hid
    obtain ⟨e₁, he₁, -, hu₁⟩ := hexact.answers.stored hit hhit
    exact Dict.mem_keys_iff.2 ⟨_, get?_stored.2 ⟨e₁, he₁, by simpa [Metadata.ofUser, eq_comm] using hu₁, rfl⟩⟩
  have hsize : (stored userId s).keys.length ≤ (hits.map Hit.id).length := by
    rw [List.length_map, hexact.length_eq, length_select, Dict.keys, List.length_map]
    exact le_min (le_min hlength le_rfl) le_rfl
  have hperm := (List.Nodup.subperm hexact.answers.nodup hall).perm_of_length_le hsize
  have hy : y ∈ hits.map Hit.id :=
    hperm.mem_iff.2 (Dict.mem_keys_iff.2 ⟨_, get?_stored.2 ⟨e', he', hu', rfl⟩⟩)
  obtain ⟨hit, hhit, rfl⟩ := List.mem_map.1 hy
  refine Or.inl ⟨hxy.ne.symm, e, he, hit, hhit, rfl, ?_⟩
  rw [hexact.distances hit hhit e' he']
  exact hnear

/-! ### A concrete index -/

theorem select_ranked (distance : String → String → ℚ) (text : String) (user? : Option String) (s : Collection) :
    ((s.items.filter fun e => e.2.metadata.ofUser user?).map
        fun e => (⟨e.1, e.2.metadata, distance text e.2.document⟩ : Hit)).map ranked =
      ((embedded s).filter fun e => user?.all fun u => e.2.2 = u).map fun e => (e.1, distance text e.2.1) := by
  unfold embedded
  rw [List.map_map, List.filter_map, List.map_map]
  rfl

theorem pairwise_nearest (distance : String → String → ℚ) (text : String) (user? : Option String) (s : Collection) :
    (nearest distance text user? s).Pairwise fun a b => a.distance ≤ b.distance := by
  have : Std.Total fun a b : Hit => a.distance ≤ b.distance := ⟨fun a b => le_total a.distance b.distance⟩
  have : IsTrans Hit fun a b => a.distance ≤ b.distance := ⟨fun _ _ _ => le_trans⟩
  exact List.pairwise_insertionSort _ _

theorem mem_nearest {distance : String → String → ℚ} {text : String} {user? : Option String} {s : Collection}
    {hit : Hit} : hit ∈ nearest distance text user? s ↔ ∃ e, s.get? hit.id = some e ∧
      e.metadata.ofUser user? = true ∧ hit = ⟨hit.id, e.metadata, distance text e.document⟩ := by
  unfold nearest
  rw [List.mem_insertionSort, List.mem_map]
  constructor
  · rintro ⟨⟨id, e⟩, he, rfl⟩
    obtain ⟨he, hu⟩ := List.mem_filter.1 he
    exact ⟨e, Dict.mem_items_iff.1 he, hu, rfl⟩
  · rintro ⟨e, he, hu, hhit⟩
    exact ⟨(hit.id, e), List.mem_filter.2 ⟨Dict.mem_items_iff.2 he, hu⟩, hhit.symm⟩

/-- The first entries of the sorted list are nearest. -/
theorem nearest_take (distance : String → String → ℚ) (text : String) (nResults : Nat) (user? : Option String)
    (s : Collection) : Nearest distance text nResults user? s ((nearest distance text user? s).take nResults) where
  answers := answers_nearest distance text nResults user? s
  distances hit hhit e he := by
    obtain ⟨e', he', -, heq⟩ := mem_nearest.1 (List.mem_of_mem_take hhit)
    obtain rfl := Option.some.inj (he'.symm.trans he)
    exact congrArg Hit.distance heq
  sorted := (pairwise_nearest distance text user? s).sublist (List.take_sublist _ _)
  length_eq := by
    rw [List.length_take]
    unfold nearest select
    rw [List.length_insertionSort, List.length_map, List.length_map]
  nearest id e he hu hid hit hhit := by
    have hmem : (⟨id, e.metadata, distance text e.document⟩ : Hit) ∈ nearest distance text user? s :=
      mem_nearest.2 ⟨e, he, hu, rfl⟩
    have hsorted := pairwise_nearest distance text user? s
    rw [← List.take_append_drop nResults (nearest distance text user? s)] at hmem hsorted
    rcases List.mem_append.1 hmem with hmem | hmem
    · exact absurd (List.mem_map.2 ⟨_, hmem, rfl⟩) hid
    · exact (List.pairwise_append.1 hsorted).2.2 hit hhit _ hmem

/-- The index that breaks ties by the order of insertion. -/
def nearestIndex (distance : String → String → ℚ) : Index distance where
  list := select
  nearest text nResults user? s := (nearest distance text user? s).take nResults
  list_perm _ _ := List.Perm.refl _
  exact := nearest_take distance
  stable text nResults user? s t h := by
    have hranked : ∀ u : Collection, (nearest distance text user? u).map ranked =
        (((embedded u).filter fun e => user?.all fun v => e.2.2 = v).map
          fun e => (e.1, distance text e.2.1)).insertionSort fun a b => a.2 ≤ b.2 := by
      intro u
      unfold nearest
      rw [← select_ranked]
      exact List.map_insertionSort _ _ _ _ fun _ _ _ _ => Iff.rfl
    rw [List.map_take, List.map_take, hranked, hranked, h]

theorem unconsolidated_of_items {userId : String} {s : Collection}
    (h : ∀ e ∈ s.items, e.2.document = (fromResult e.1 e.2.metadata).embeddingText) : Unconsolidated userId s :=
  fun id e he _ => h (id, e) (Dict.mem_items_iff.2 he)

/-- Two records are few enough. -/
theorem complete_twoRecords : Complete allNear sampleMemory "alice"
    ((consolidate sampleMemory "alice").eval (nearestIndex allNear).exec (twoRecords 0)).2 :=
  (complete_iff (nearestIndex allNear) sampleMemory "alice" (twoRecords 0)
    (unconsolidated_of_items (by decide +kernel))).2 (covered_of_length_le _ (by decide +kernel))

/-! ### Six records on an arc -/

def cosineDistance (embedding : String → ℚ × ℚ) (text text' : String) : ℚ :=
  1 - ((embedding text).1 * (embedding text').1 + (embedding text).2 * (embedding text').2)

/-- The point of the unit circle at the angle `2 * arctan t`. -/
def onCircle (t : ℚ) : ℚ × ℚ := ((1 - t ^ 2) / (1 + t ^ 2), 2 * t / (1 + t ^ 2))

theorem onCircle_norm (t : ℚ) : (onCircle t).1 ^ 2 + (onCircle t).2 ^ 2 = 1 := by
  have hpos : (0 : ℚ) < 1 + t ^ 2 := by positivity
  simp only [onCircle]
  field_simp
  ring

/-- Records of one task. -/
def arcRecords : List MemoryRecord :=
  ["Fiscal year ends in June.", "Reports in EUR.", "Has two segments.", "Pays a dividend.", "Is listed in Oslo.",
    "Was founded in 1990."].mapIdx fun k fact => acme (toString k) fact 0

/-- Each record is a little further on the circle than the one before. -/
def arcEmbedding (text : String) : ℚ × ℚ := onCircle ((arcRecords.map (·.embeddingText)).idxOf text / 100)

def arcCollection : Collection :=
  arcRecords.foldl (fun s r => addEntry s r.id ⟨r.embeddingText, toMetadata r⟩) ∅

/-- The first record merges the next four, and the last one finds those and itself, but not the first. -/
theorem duplicates_left : (∀ text, (arcEmbedding text).1 ^ 2 + (arcEmbedding text).2 ^ 2 = 1) ∧
    Unconsolidated "alice" arcCollection ∧
      ¬ Complete (cosineDistance arcEmbedding) sampleMemory "alice"
        ((consolidate sampleMemory "alice").eval (nearestIndex (cosineDistance arcEmbedding)).exec arcCollection).2 := by
  have hleft : ∃ a ∈ ((consolidate sampleMemory "alice").eval (nearestIndex (cosineDistance arcEmbedding)).exec
      arcCollection).2.items, ∃ b ∈ ((consolidate sampleMemory "alice").eval
      (nearestIndex (cosineDistance arcEmbedding)).exec arcCollection).2.items,
      a.1 ≠ b.1 ∧ a.2.metadata.userId = "alice" ∧ b.2.metadata.userId = "alice" ∧
        sampleMemory.consolidationSimilarityThreshold ≤
          1 - cosineDistance arcEmbedding a.2.document b.2.document := by decide +kernel
  refine ⟨fun text => onCircle_norm _, unconsolidated_of_items (by decide +kernel), fun h => ?_⟩
  obtain ⟨a, ha, b, hb, hne, hu, hu', hnear⟩ := hleft
  exact h a.1 b.1 ⟨hne, a.2, b.2, Dict.mem_items_iff.1 ha, Dict.mem_items_iff.1 hb, hu, hu', hnear⟩

end AgentOrchestrator.LongTermMemory
