import AgentOrchestrator.Lib.Attempt
import AgentOrchestrator.Memory.Consolidation

/-!
# Consolidation after a failure

A consolidation writes each merged record in its turn and deletes the absorbed ones at the end.  If it fails in between,
both are there, and the next consolidation finds them again.  Nothing is lost by that, but the accesses of a record that
is merged a second time are counted a second time (`retry_iff`).
-/

namespace AgentOrchestrator.LongTermMemory

open Chroma

/-- The user has the same facts, preferences and tools in `t` as in `s`, the same maximum importance, and as many
accesses. -/
structure SameTotals (userId : String) (s t : Collection) : Prop where
  facts : ∀ f, (∃ r ∈ (stored userId t).values, f ∈ r.facts) ↔ ∃ r ∈ (stored userId s).values, f ∈ r.facts
  preferences : ∀ p, (∃ r ∈ (stored userId t).values, p ∈ r.preferences) ↔
    ∃ r ∈ (stored userId s).values, p ∈ r.preferences
  toolsUsed : ∀ x, (∃ r ∈ (stored userId t).values, x ∈ r.toolsUsed) ↔
    ∃ r ∈ (stored userId s).values, x ∈ r.toolsUsed
  importance : ((stored userId t).values.map MemoryRecord.importance).maximum =
    ((stored userId s).values.map MemoryRecord.importance).maximum
  accessCount : ((stored userId t).values.map MemoryRecord.accessCount).sum =
    ((stored userId s).values.map MemoryRecord.accessCount).sum

/-- The attempt has deleted what it has merged, or has written only records that it has merged with records that have
never been accessed. -/
def HarmlessFailure (mem : LongTermMemory) (userId : String) (s : Collection)
    (tr : List (Prog.Exchange Command Response Collection)) : Prop :=
  ((ledger mem userId).after {} tr).progress.deleted ≠ [] ∨
    ∀ o ∈ ((ledger mem userId).after {} tr).merged, ∀ r, (stored userId s).get? o = some r → r.accessCount = 0

/-! ### What a failed attempt leaves -/

/-- The collection is what absorptions have made of `s₀`, those that are written or all that are deleted. -/
structure Ledgered (userId : String) (s₀ : Collection) (g : Ledger) (s : Collection) : Prop where
  alone : Alone userId s₀ g.progress s
  start : g.progress.listed = none → g.merged = []
  absorptions : ∀ d₀, g.progress.listed = some d₀ → ∃ consumed, Absorptions absorb d₀ g.progress.known consumed ∧
    (g.progress.deleted = [] ∧ (∀ o, o ∈ consumed.keys ↔ o ∈ g.merged) ∨
      g.progress.deleted ≠ [] ∧ g.progress.deleted = consumed.keys)

theorem Ledgered.step {mem : LongTermMemory} {userId : String} {s₀ : Collection} (g : Ledger) (s : Collection)
    (c : Command) (r : Response c) (t : Collection) (h : Ledgered userId s₀ g s) (hg : (ledger mem userId).guarantee g c)
    (he : Executes c s r t) : (ledger mem userId).rely g c r ∧ Ledgered userId s₀ ((ledger mem userId).next g c r) t := by
  have hstep : (protocol mem userId).rely g.progress c r ∧
      Alone userId s₀ ((protocol mem userId).next g.progress c r) t := Alone.step g.progress s c r t h.alone hg.1 he
  obtain ⟨hrely, halone⟩ := hstep
  refine ⟨hrely, ?_⟩
  cases c with
  | get user? =>
    obtain ⟨⟨-, hnone⟩, -⟩ := hg
    refine ⟨halone, fun _ => h.start hnone, fun d₀ hd => ?_⟩
    obtain rfl := Option.some.inj hd
    refine ⟨∅, .refl, Or.inl ⟨(h.alone.start hnone).2, fun o => ?_⟩⟩
    have hmerged : ((ledger mem userId).next g (.get user?) r).merged = [] := h.start hnone
    rw [hmerged]
    exact Iff.rfl
  | query text nResults user? => exact ⟨halone, h.start, h.absorptions⟩
  | update id metadata =>
    obtain ⟨⟨d₀, old, record, hlisted, hdeleted, hold, hext, rfl, rfl⟩, d₁, consumed, hlisted', habs, hkeys⟩ := hg
    obtain rfl := Option.some.inj (hlisted.symm.trans hlisted')
    refine ⟨halone, fun hnone => absurd (hlisted.symm.trans hnone) (by simp), fun d hd => ?_⟩
    obtain rfl := Option.some.inj (hlisted.symm.trans hd)
    exact ⟨consumed, habs, Or.inl ⟨hdeleted, hkeys⟩⟩
  | delete ids =>
    obtain ⟨⟨d₀, consumed, hlisted, hdeleted, habs, rfl⟩, hsome⟩ := hg
    refine ⟨halone, fun hnone => absurd (hlisted.symm.trans hnone) (by simp), fun d hd => ?_⟩
    obtain rfl := Option.some.inj (hlisted.symm.trans hd)
    exact ⟨consumed, habs, Or.inr ⟨hsome, rfl⟩⟩
  | _ => exact hg.1.elim

variable {mem : LongTermMemory} {userId : String} {s t u : Collection} {α : Type}
  {tr : List (Prog.Exchange Command Response Collection)}

/-- Wherever an attempt has stopped, the records of the user are those of `s` after some absorptions; either the absorbed
ones are still there, and are those the ledger has as merged, or they are deleted. -/
theorem exists_absorptions {q : Program (Except MemoryError Nat)}
    (h : (consolidate mem userId).Goes Executes s tr q u) : ∃ d₀ d consumed, (∀ k, d₀.get? k = (stored userId s).get? k) ∧
      Absorptions absorb d₀ d consumed ∧
        (((ledger mem userId).after {} tr).progress.deleted = [] ∧ (∀ k, (stored userId u).get? k = d.get? k) ∧
            (∀ o, o ∈ consumed.keys ↔ o ∈ ((ledger mem userId).after {} tr).merged) ∨
          ((ledger mem userId).after {} tr).progress.deleted ≠ [] ∧
            ∀ k, (stored userId u).get? k = (survivors d consumed).get? k) := by
  have hstart : Ledgered userId s {} s :=
    ⟨⟨fun _ => ⟨rfl, rfl⟩, fun d₀ hd => absurd hd (by simp), fun d₀ hd => absurd hd (by simp), Frame.refl userId s⟩,
      fun _ => rfl, fun d₀ hd => absurd hd (by simp)⟩
  have hfollows : (consolidate mem userId).Follows (ledger mem userId) (fun _ _ => True) {} :=
    (follows_ledger mem userId).map fun _ _ _ => trivial
  obtain ⟨-, hkept⟩ := hfollows.goes Ledgered.step hstart h
  generalize (ledger mem userId).after {} tr = g at hkept ⊢
  cases hlisted : g.progress.listed with
  | none =>
    -- nothing has happened yet
    obtain ⟨rfl, hdeleted⟩ := hkept.alone.start hlisted
    refine ⟨stored userId u, stored userId u, ∅, fun _ => rfl, .refl, Or.inl ⟨hdeleted, fun _ => rfl, fun o => ?_⟩⟩
    rw [hkept.start hlisted]
    exact Iff.rfl
  | some d₀ =>
    obtain ⟨consumed, habs, hstate⟩ := hkept.absorptions d₀ hlisted
    have hrecords := hkept.alone.records d₀ hlisted
    refine ⟨d₀, g.progress.known, consumed, hkept.alone.listed d₀ hlisted, habs, ?_⟩
    rcases hstate with ⟨hdeleted, hkeys⟩ | ⟨hsome, hdeleted⟩
    · refine Or.inl ⟨hdeleted, fun k => ?_, hkeys⟩
      rw [hrecords, hdeleted, if_neg List.not_mem_nil]
    · refine Or.inr ⟨hsome, fun k => Option.ext fun r => ?_⟩
      rw [hrecords, hdeleted, get?_survivors, Option.eq_none_iff_forall_ne_some]
      by_cases hk : k ∈ consumed.keys
      · obtain ⟨a, ha⟩ := Dict.mem_keys_iff.1 hk
        simp [hk, ha]
      · have hnone : ∀ a, consumed.get? k ≠ some a := fun a ha => hk (Dict.mem_keys_iff.2 ⟨a, ha⟩)
        simp [hk, hnone]

/-- Whatever an attempt has written and deleted, the user knows the same. -/
theorem exists_of_goes {q : Program (Except MemoryError Nat)} (h : (consolidate mem userId).Goes Executes s tr q u)
    (p : MemoryRecord → Prop) (hp : ∀ x y, p (absorb x y) ↔ p x ∨ p y) :
    (∃ r ∈ (stored userId u).values, p r) ↔ ∃ r ∈ (stored userId s).values, p r := by
  obtain ⟨d₀, d, consumed, hd₀, habs, ⟨-, hu, -⟩ | ⟨-, hu⟩⟩ := exists_absorptions h
  · simp only [(Dict.values_perm hu).mem_iff, ← (Dict.values_perm hd₀).mem_iff]
    exact habs.exists_value_iff p hp
  · simp only [(Dict.values_perm hu).mem_iff, ← (Dict.values_perm hd₀).mem_iff]
    exact habs.exists_iff p hp

theorem maximum_of_goes {q : Program (Except MemoryError Nat)} (h : (consolidate mem userId).Goes Executes s tr q u) :
    ((stored userId u).values.map MemoryRecord.importance).maximum =
      ((stored userId s).values.map MemoryRecord.importance).maximum := by
  obtain ⟨d₀, d, consumed, hd₀, habs, ⟨-, hu, -⟩ | ⟨-, hu⟩⟩ := exists_absorptions h
  · rw [((Dict.values_perm hu).map _).maximum_eq, ← ((Dict.values_perm hd₀).map _).maximum_eq]
    exact habs.maximum_values_eq MemoryRecord.importance fun _ _ => rfl
  · rw [((Dict.values_perm hu).map _).maximum_eq, ← ((Dict.values_perm hd₀).map _).maximum_eq]
    exact habs.maximum_eq MemoryRecord.importance fun _ _ => rfl

/-- Accesses are counted twice unless the attempt is harmless. -/
theorem accessCount_of_goes (hcount : ∀ r ∈ (stored userId s).values, 0 ≤ r.accessCount)
    {q : Program (Except MemoryError Nat)} (h : (consolidate mem userId).Goes Executes s tr q u) :
    ((stored userId u).values.map MemoryRecord.accessCount).sum =
      ((stored userId s).values.map MemoryRecord.accessCount).sum ↔ HarmlessFailure mem userId s tr := by
  unfold HarmlessFailure
  obtain ⟨d₀, d, consumed, hd₀, habs, ⟨hdeleted, hu, hkeys⟩ | ⟨hdeleted, hu⟩⟩ := exists_absorptions h
  · have hold := Dict.values_perm hd₀
    have hweights : ∀ k v, d₀.get? k = some v → 0 ≤ v.accessCount := fun k v hk =>
      hcount v (hold.mem_iff.1 (Dict.mem_values_iff.2 ⟨k, hk⟩))
    rw [or_iff_right fun hsome => hsome hdeleted, ((Dict.values_perm hu).map _).sum_eq, ← (hold.map _).sum_eq,
      habs.sum_values_eq_iff (fun _ _ => rfl) hweights]
    have hgone : ∀ o, consumed.get? o ≠ none ↔ o ∈ ((ledger mem userId).after {} tr).merged := by
      intro o
      rw [← hkeys, Dict.mem_keys_iff, Option.ne_none_iff_exists']
    simp only [hgone, hd₀]
    exact ⟨fun hzero o ho r hr => hzero o r ho hr, fun hzero o r ho hr => hzero o ho r hr⟩
  · rw [((Dict.values_perm hu).map _).sum_eq, ← ((Dict.values_perm hd₀).map _).sum_eq]
    exact iff_of_true (habs.sum_eq MemoryRecord.accessCount fun _ _ => rfl) (Or.inl hdeleted)

/-- However often and wherever a consolidation fails, one that runs to its end restores what the user had if and only if
the failure was harmless. -/
theorem retry_iff {q : Program (Except MemoryError Nat)} {result : Except MemoryError Nat}
    (hcount : ∀ r ∈ (stored userId s).values, 0 ≤ r.accessCount)
    (hfailed : (consolidate mem userId).Goes Executes s tr q u)
    (hretry : (consolidate mem userId).Runs Executes u result t) :
    SameTotals userId s t ↔ HarmlessFailure mem userId s tr := by
  obtain ⟨n, -, hconserves⟩ := consolidate_conserves hretry
  rw [← accessCount_of_goes hcount hfailed, ← hconserves.accessCount]
  refine ⟨fun h => h.accessCount, fun h => ?_⟩
  have hlist : ∀ (list : MemoryRecord → List String), (∀ x y, list (absorb x y) = fromkeys (list x ++ list y)) →
      ∀ v, (∃ r ∈ (stored userId u).values, v ∈ list r) ↔ ∃ r ∈ (stored userId s).values, v ∈ list r := by
    intro list hlist v
    refine exists_of_goes hfailed (fun r => v ∈ list r) fun x y => ?_
    rw [hlist, mem_fromkeys, List.mem_append]
  exact {
    facts := fun f => (hconserves.facts f).trans (hlist MemoryRecord.facts (fun _ _ => rfl) f)
    preferences := fun p => (hconserves.preferences p).trans (hlist MemoryRecord.preferences (fun _ _ => rfl) p)
    toolsUsed := fun x => (hconserves.toolsUsed x).trans (hlist MemoryRecord.toolsUsed (fun _ _ => rfl) x)
    importance := hconserves.importance.trans (maximum_of_goes hfailed)
    accessCount := h }

/-! ### Two records, one of them accessed -/

/-- The second of the two records has been accessed `n` times. -/
def accessedRecords (n : Int) : Collection :=
  addEntry (addEntry ∅ "m1" ⟨(acme "m1" "Fiscal year ends in June." 0).embeddingText,
      toMetadata (acme "m1" "Fiscal year ends in June." 0)⟩)
    "m2" ⟨(acme "m2" "Reports in EUR." 0).embeddingText, toMetadata { acme "m2" "Reports in EUR." 0 with accessCount := n }⟩

/-- The first attempt has listed and searched, and has written the merged record. -/
def failedAttempt (n : Int) : List (Prog.Exchange Command Response Collection) × Program (Except MemoryError Nat) ×
    Collection :=
  Prog.go (Chroma.exec allNear) 3 (consolidate sampleMemory "alice") (accessedRecords n)

theorem goes_failedAttempt (n : Int) : (consolidate sampleMemory "alice").Goes Executes (accessedRecords n)
    (failedAttempt n).1 (failedAttempt n).2.1 (failedAttempt n).2.2 :=
  Prog.goes_go (executes_exec allNear) 3 _ _

/-- A failure is harmless if the absorbed record has never been accessed. -/
theorem retry_unaccessed : SameTotals "alice" (accessedRecords 0)
    ((consolidate sampleMemory "alice").eval (Chroma.exec allNear) (failedAttempt 0).2.2).2 :=
  (retry_iff (by decide +kernel) (goes_failedAttempt 0)
    (Prog.runs_of_eval (executes_exec allNear) (consolidate sampleMemory "alice") _)).2 (Or.inr (by decide +kernel))

/-- Two accesses become four. -/
theorem accesses_counted_twice : ∃ tr q u result t,
    (consolidate sampleMemory "alice").Goes Executes (accessedRecords 2) tr q u ∧
      (consolidate sampleMemory "alice").Runs Executes u result t ∧
        (∀ r ∈ (stored "alice" (accessedRecords 2)).values, 0 ≤ r.accessCount) ∧
          ¬ SameTotals "alice" (accessedRecords 2) t := by
  refine ⟨_, _, _, _, _, goes_failedAttempt 2,
    Prog.runs_of_eval (executes_exec allNear) (consolidate sampleMemory "alice") _, by decide +kernel, fun h => ?_⟩
  have hold : ((stored "alice" (accessedRecords 2)).values.map MemoryRecord.accessCount).sum = 2 := by decide +kernel
  have hnew : ((stored "alice" ((consolidate sampleMemory "alice").eval (Chroma.exec allNear)
      (failedAttempt 2).2.2).2).values.map MemoryRecord.accessCount).sum = 4 := by decide +kernel
  have hsame := h.accessCount
  rw [hold, hnew] at hsame
  exact absurd hsame (by decide)

end AgentOrchestrator.LongTermMemory
