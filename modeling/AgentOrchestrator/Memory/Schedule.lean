import AgentOrchestrator.Memory.Lifetime

/-!
# When memories are expired

Importance only decays: a record that would be deleted now would be deleted at any later time, as long as nobody accesses
it.  So it does not matter how often `expire` runs; only its last run counts (`expire_twice`).
-/

namespace AgentOrchestrator.LongTermMemory

open Chroma

theorem effectiveImportance_antitone {record : MemoryRecord} (hcount : 0 ≤ record.accessCount) {mem : LongTermMemory}
    (hlife : 0 < mem.halfLifeDays) {t₁ t₂ : ℚ} (h : t₁ ≤ t₂) :
    effectiveImportance mem record t₂ ≤ effectiveImportance mem record t₁ := by
  have hhalf : (0 : ℝ) < mem.halfLifeDays := by exact_mod_cast hlife
  have hage : (((t₁ - record.lastAccessedAt) / 86400 : ℚ) : ℝ) ≤ (((t₂ - record.lastAccessedAt) / 86400 : ℚ) : ℝ) := by
    have hq : (t₁ - record.lastAccessedAt) / 86400 ≤ (t₂ - record.lastAccessedAt) / 86400 := by linarith
    exact_mod_cast hq
  rw [effectiveImportance_eq, effectiveImportance_eq]
  exact halved_le (weight_nonneg hcount) le_rfl (max_le_max_right 0 hage) hhalf

/-- What has expired stays expired. -/
theorem Expired.mono {record : MemoryRecord} (hcount : 0 ≤ record.accessCount) {mem : LongTermMemory}
    (hlife : 0 < mem.halfLifeDays) {t₁ t₂ : ℚ} (ht : t₁ ≤ t₂) (h : Expired mem t₁ record) : Expired mem t₂ record := by
  obtain ⟨hage, himportance⟩ := h
  refine ⟨hage.trans ?_, (effectiveImportance_antitone hcount hlife ht).trans_lt himportance⟩
  have hdiff : t₁ - record.createdAt ≤ t₂ - record.createdAt := by linarith
  exact div_le_div_of_nonneg_right hdiff (by norm_num)

/-- `expire` with this filter deletes the entry. -/
def ExpiredEntry (mem : LongTermMemory) (now : ℚ) (e : String × Metadata) : Prop := Expired mem now (fromResult e.1 e.2)

/-- The filter that `expire` passes on: an empty user is no user. -/
def userFilter (userId : Option String) : Option String := userId.filter fun u => u ≠ ""

variable {mem : LongTermMemory} {userId : Option String} {now : ℚ} {s t : Collection} {n : Nat}

open Classical in
/-- `expire` returns how many of the listed entries have expired. -/
theorem expire_count (h : (expire mem userId now).Runs Executes s n t) :
    n = (select (userFilter userId) s).countP fun e => ExpiredEntry mem now e := by
  obtain ⟨records, u, hget, hrest⟩ := Prog.Runs.bind_iff.1 h
  obtain ⟨results, v, hlist, hret⟩ := Prog.Runs.bind_iff.1 hget
  obtain ⟨hperm, rfl⟩ := Prog.Runs.perform_iff.1 hlist
  obtain ⟨rfl, rfl⟩ := Prog.Runs.ret_iff.1 hret
  have hn : n = (((results.map fun e => fromResult e.1 e.2).filter fun r => Expired mem now r).map
      MemoryRecord.id).length := by
    dsimp only at hrest
    split at hrest
    · obtain ⟨_, _, -, hlast⟩ := Prog.Runs.bind_iff.1 hrest
      exact (Prog.Runs.ret_iff.1 hlast).1
    · exact (Prog.Runs.ret_iff.1 hrest).1
  rw [hn, List.length_map, ← List.countP_eq_length_filter, List.countP_map, hperm.countP_eq]
  rfl

open Classical in
/-- What is listed after `expire` is what was listed and has not expired. -/
theorem select_expire (h : (expire mem userId now).Runs Executes s n t) :
    (select (userFilter userId) t).Perm
      ((select (userFilter userId) s).filter fun e => ¬ ExpiredEntry mem now e) := by
  refine (List.perm_ext_iff_of_nodup (List.Nodup.of_map _ (nodup_select _ _))
    ((List.Nodup.of_map _ (nodup_select _ _)).filter _)).2 ?_
  rintro ⟨id, m⟩
  simp only [List.mem_filter, mem_select, decide_eq_true_iff]
  constructor
  · rintro ⟨e, he, rfl, hu⟩
    obtain ⟨hs, hlive⟩ := (expire_spec h id e).1 he
    exact ⟨⟨e, hs, rfl, hu⟩, fun hexpired => hlive ⟨hu, hexpired⟩⟩
  · rintro ⟨⟨e, he, rfl, hu⟩, hlive⟩
    exact ⟨e, (expire_spec h id e).2 ⟨he, fun hgone => hlive hgone.2⟩, rfl, hu⟩

theorem countP_add_countP_filter {α : Type} (l : List α) (p q : α → Bool) (h : ∀ a ∈ l, p a = true → q a = true) :
    l.countP p + (l.filter fun a => !p a).countP q = l.countP q := by
  induction l with
  | nil => rfl
  | cons a l ih =>
    have hrest := ih fun b hb => h b (List.mem_cons_of_mem _ hb)
    cases hp : p a with
    | true =>
      have hq := h a List.mem_cons_self hp
      simp only [List.countP_cons, List.filter_cons, hp, hq, Bool.not_true, Bool.false_eq_true, if_false, if_true]
      omega
    | false =>
      simp only [List.countP_cons, List.filter_cons, hp, Bool.not_false, Bool.false_eq_true, if_false, if_true]
      omega

/-- Running `expire` at two times leaves what running it at the second one alone leaves, and deletes as many entries. -/
theorem expire_twice {t₁ t₂ : ℚ} (ht : t₁ ≤ t₂) (hlife : 0 < mem.halfLifeDays)
    (hcount : ∀ id e, s.get? id = some e → 0 ≤ (fromResult id e.metadata).accessCount) {u v w : Collection}
    {n₁ n₂ n : Nat} (h₁ : (expire mem userId t₁).Runs Executes s n₁ u) (h₂ : (expire mem userId t₂).Runs Executes u n₂ v)
    (h : (expire mem userId t₂).Runs Executes s n w) : (∀ id, v.get? id = w.get? id) ∧ n₁ + n₂ = n := by
  classical
  constructor
  · intro id
    refine Option.ext fun e => ?_
    rw [expire_spec h₂, expire_spec h₁, expire_spec h]
    constructor
    · rintro ⟨⟨he, -⟩, hlive⟩
      exact ⟨he, hlive⟩
    · rintro ⟨he, hlive⟩
      exact ⟨⟨he, fun hgone => hlive ⟨hgone.1, hgone.2.mono (hcount id e he) hlife ht⟩⟩, hlive⟩
  · have hstays : ∀ e ∈ select (userFilter userId) s, decide (ExpiredEntry mem t₁ e) = true →
        decide (ExpiredEntry mem t₂ e) = true := by
      rintro ⟨id, m⟩ hmem hexpired
      obtain ⟨e, he, rfl, -⟩ := mem_select.1 hmem
      exact decide_eq_true ((of_decide_eq_true hexpired).mono (hcount id e he) hlife ht)
    rw [expire_count h₁, expire_count h₂, expire_count h, (select_expire h₁).countP_eq,
      ← countP_add_countP_filter _ _ _ hstays]
    simp only [decide_not]

/-- Two records of one day, after a month and after a year. -/
theorem expire_twice_sample : ∃ n₁ n₂ n u v w,
    (expire sampleMemory (some "alice") (30 * 86400)).Runs Executes (twoRecords 86400) n₁ u ∧
      (expire sampleMemory (some "alice") (365 * 86400)).Runs Executes u n₂ v ∧
        (expire sampleMemory (some "alice") (365 * 86400)).Runs Executes (twoRecords 86400) n w ∧
          (∀ id, v.get? id = w.get? id) ∧ n₁ + n₂ = n := by
  have hruns := fun now s => Prog.runs_of_eval (executes_exec allNear) (expire sampleMemory (some "alice") now) s
  have hcount : ∀ e ∈ (twoRecords 86400).items, 0 ≤ (fromResult e.1 e.2.metadata).accessCount := by decide +kernel
  exact ⟨_, _, _, _, _, _, hruns _ _, hruns _ _, hruns _ _,
    expire_twice (by norm_num) (by norm_num [sampleMemory]) (fun id e he => hcount (id, e) (Dict.mem_items_iff.2 he))
      (hruns _ _) (hruns _ _) (hruns _ _)⟩

end AgentOrchestrator.LongTermMemory
