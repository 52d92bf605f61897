import AgentOrchestrator.Lib.Decay
import AgentOrchestrator.Memory.Consolidation
import Mathlib.Analysis.SpecialFunctions.Log.Basic

/-!
# Expiry of memories

`expire` deletes the records that are past the grace period and whose importance has decayed below the minimum.  Both are
a matter of days: the grace period of a record ends on one, and its importance is below the minimum after another
(`not_expired_iff`).
-/

namespace AgentOrchestrator.LongTermMemory

open Chroma

/-- Over the real numbers; ages are days, times are seconds. -/
noncomputable def effectiveImportance (mem : LongTermMemory) (record : MemoryRecord) (now : ℚ) : ℝ :=
  let ageDays : ℝ := max (((now - record.lastAccessedAt) / 86400 : ℚ) : ℝ) 0
  let decay : ℝ := ((1 / 2 : ℚ) : ℝ) ^ (ageDays / mem.halfLifeDays)
  let frequencyBoost : ℝ := 1 + Real.log (1 + record.accessCount)
  (record.importance.1 : ℝ) * frequencyBoost * decay

/-- `expire` deletes the record. -/
def Expired (mem : LongTermMemory) (now : ℚ) (record : MemoryRecord) : Prop :=
  mem.minAgeDaysBeforeExpiry ≤ (now - record.createdAt) / 86400 ∧
    effectiveImportance mem record now < mem.minImportance

open Classical in
noncomputable def expire (mem : LongTermMemory) (userId : Option String) (now : ℚ) : Program Nat := do
  let records ← getRecords (userId.filter fun u => u ≠ "")
  let toDelete := (records.filter fun record => Expired mem now record).map MemoryRecord.id
  if toDelete ≠ [] then
    Prog.perform (Command.delete toDelete)
  return toDelete.length

/-- After `expire` the entries are those it has not listed or not found expired. -/
theorem expire_spec {mem : LongTermMemory} {userId : Option String} {now : ℚ} {s t : Collection} {n : Nat}
    (h : (expire mem userId now).Runs Executes s n t) (id : String) (e : Entry) :
    t.get? id = some e ↔ s.get? id = some e ∧
      ¬ (e.metadata.ofUser (userId.filter fun u => u ≠ "") = true ∧ Expired mem now (fromResult id e.metadata)) := by
  classical
  obtain ⟨records, u, hget, hrest⟩ := Prog.Runs.bind_iff.1 h
  obtain ⟨rfl, hrecords⟩ := getRecords_spec hget
  have hread : t.get? id =
      (deleteIds u ((records.filter fun r => Expired mem now r).map MemoryRecord.id)).get? id := by
    dsimp only at hrest
    split at hrest
    · obtain ⟨_, v, hdelete, hret⟩ := Prog.Runs.bind_iff.1 hrest
      obtain ⟨-, rfl⟩ := Prog.Runs.ret_iff.1 hret
      exact congrArg (fun s => Dict.get? s id) (Prog.Runs.perform_iff.1 hdelete)
    · rename_i hnone
      obtain ⟨-, rfl⟩ := Prog.Runs.ret_iff.1 hrest
      rw [not_not.1 hnone, get?_deleteIds, if_neg List.not_mem_nil]
  have hlisted : id ∈ (records.filter fun r => Expired mem now r).map MemoryRecord.id ↔
      ∃ e, u.get? id = some e ∧ e.metadata.ofUser (userId.filter fun u => u ≠ "") = true ∧
        Expired mem now (fromResult id e.metadata) := by
    simp only [List.mem_map, List.mem_filter, decide_eq_true_iff]
    constructor
    · rintro ⟨r, ⟨hr, hexpired⟩, rfl⟩
      obtain ⟨e', he', hu, hfrom⟩ := (hrecords r).1 hr
      exact ⟨e', he', hu, hfrom ▸ hexpired⟩
    · rintro ⟨e', he', hu, hexpired⟩
      exact ⟨fromResult id e'.metadata, ⟨(hrecords _).2 ⟨e', he', hu, rfl⟩, hexpired⟩, rfl⟩
  rw [hread, get?_deleteIds]
  by_cases hid : id ∈ (records.filter fun r => Expired mem now r).map MemoryRecord.id
  · obtain ⟨e', he', hgone⟩ := hlisted.1 hid
    rw [if_pos hid, he']
    refine iff_of_false (by simp) fun hkept => ?_
    obtain rfl := Option.some.inj hkept.1
    exact hkept.2 hgone
  · rw [if_neg hid]
    exact ⟨fun he => ⟨he, fun hgone => hid (hlisted.2 ⟨e, he, hgone⟩)⟩, fun hkept => hkept.1⟩

theorem get?_stored_expire {mem : LongTermMemory} {userId : String} {user? : Option String}
    (hu : user? = none ∨ user? = some userId) {now : ℚ} {s t : Collection} {n : Nat}
    (h : (expire mem user? now).Runs Executes s n t) {id : String} {r : MemoryRecord} :
    (stored userId t).get? id = some r ↔ (stored userId s).get? id = some r ∧ ¬ Expired mem now r := by
  have hall : ∀ m : Metadata, m.userId = userId → m.ofUser (user?.filter fun u => u ≠ "") = true := by
    rintro m rfl
    rcases hu with rfl | rfl
    · rfl
    · by_cases hempty : m.userId = ""
      · simp [Metadata.ofUser, hempty]
      · simp [Metadata.ofUser, Option.filter, hempty]
  simp only [get?_stored, expire_spec h]
  constructor
  · rintro ⟨e, ⟨he, hkept⟩, huser, rfl⟩
    exact ⟨⟨e, he, huser, rfl⟩, fun hexpired => hkept ⟨hall _ huser, hexpired⟩⟩
  · rintro ⟨⟨e, he, huser, rfl⟩, hkept⟩
    exact ⟨e, ⟨he, fun hgone => hkept hgone.2⟩, huser, rfl⟩

/-! ### How long a record lives -/

/-- The importance before it decays. -/
noncomputable def weight (record : MemoryRecord) : ℝ :=
  (record.importance.1 : ℝ) * (1 + Real.log (1 + record.accessCount))

theorem effectiveImportance_eq (mem : LongTermMemory) (record : MemoryRecord) (now : ℚ) :
    effectiveImportance mem record now =
      halved (weight record) (max (((now - record.lastAccessedAt) / 86400 : ℚ) : ℝ) 0) mem.halfLifeDays := by
  have hhalf : ((1 / 2 : ℚ) : ℝ) = 1 / 2 := by norm_num
  unfold effectiveImportance halved
  rw [hhalf]
  rfl

theorem boost_nonneg {record : MemoryRecord} (h : 0 ≤ record.accessCount) :
    0 ≤ Real.log (1 + record.accessCount) := by
  have hcount : (0 : ℝ) ≤ record.accessCount := by exact_mod_cast h
  exact Real.log_nonneg (by linarith)

theorem weight_nonneg {record : MemoryRecord} (h : 0 ≤ record.accessCount) : 0 ≤ weight record := by
  have himportance : (0 : ℝ) ≤ (record.importance.1 : ℝ) := by exact_mod_cast record.importance.2.1
  exact mul_nonneg himportance (by linarith [boost_nonneg h])

/-- The day on which the grace period ends. -/
def graceEnd (mem : LongTermMemory) (record : MemoryRecord) : ℚ :=
  record.createdAt / 86400 + mem.minAgeDaysBeforeExpiry

/-- The day up to which the record would be important enough if it had the weight `w`. -/
noncomputable def decayEnd (mem : LongTermMemory) (record : MemoryRecord) (w : ℝ) : ℝ :=
  ((record.lastAccessedAt / 86400 : ℚ) : ℝ) + fallTime w mem.minImportance mem.halfLifeDays

theorem effectiveImportance_lt_iff {mem : LongTermMemory} {record : MemoryRecord} {now : ℚ}
    (hlife : 0 < mem.halfLifeDays) (hmin : 0 < mem.minImportance) (hcount : 0 ≤ record.accessCount) :
    effectiveImportance mem record now < mem.minImportance ↔
      (mem.minImportance : ℝ) ≤ weight record → decayEnd mem record (weight record) < ((now / 86400 : ℚ) : ℝ) := by
  have hhalf : (0 : ℝ) < mem.halfLifeDays := by exact_mod_cast hlife
  have hpos : (0 : ℝ) < mem.minImportance := by exact_mod_cast hmin
  rw [effectiveImportance_eq]
  by_cases hweight : (mem.minImportance : ℝ) ≤ weight record
  · have hfall : 0 ≤ fallTime (weight record) mem.minImportance mem.halfLifeDays :=
      fallTime_nonneg hpos hweight hhalf.le
    have hdays : (((now - record.lastAccessedAt) / 86400 : ℚ) : ℝ) =
        ((now / 86400 : ℚ) : ℝ) - ((record.lastAccessedAt / 86400 : ℚ) : ℝ) := by
      rw [sub_div, Rat.cast_sub]
    -- a time before the last access is judged as the last access itself, at which the weight is whole
    rw [halved_lt_iff (hpos.trans_le hweight) hpos hhalf, lt_max_iff, or_iff_left (not_lt.2 hfall), hdays, lt_sub_iff_add_lt']
    exact (imp_iff_right hweight).symm
  · have hle : halved (weight record) (max (((now - record.lastAccessedAt) / 86400 : ℚ) : ℝ) 0) mem.halfLifeDays ≤
        halved (weight record) 0 mem.halfLifeDays :=
      halved_le (weight_nonneg hcount) le_rfl (le_max_right _ _) hhalf
    rw [halved_zero] at hle
    exact iff_of_true (hle.trans_lt (not_le.1 hweight)) fun hmore => absurd hmore hweight

/-- A record lives to the end of its grace period, and as long as it is important enough. -/
theorem not_expired_iff {mem : LongTermMemory} {record : MemoryRecord} {now : ℚ} (hlife : 0 < mem.halfLifeDays)
    (hcount : 0 ≤ record.accessCount) : ¬ Expired mem now record ↔ mem.minImportance ≤ 0 ∨
      Lives (graceEnd mem record) (mem.minImportance ≤ weight record) (decayEnd mem record (weight record)) (now / 86400) := by
  have hgrace : mem.minAgeDaysBeforeExpiry ≤ (now - record.createdAt) / 86400 ↔ graceEnd mem record ≤ now / 86400 := by
    rw [sub_div, le_sub_iff_add_le', graceEnd]
  by_cases hmin : mem.minImportance ≤ 0
  · have hzero : (mem.minImportance : ℝ) ≤ 0 := by exact_mod_cast hmin
    have hnonneg : 0 ≤ effectiveImportance mem record now := by
      rw [effectiveImportance_eq]
      exact halved_nonneg (weight_nonneg hcount) _ _
    exact iff_of_true (fun hexpired => absurd hexpired.2 (not_lt.2 (hzero.trans hnonneg))) (Or.inl hmin)
  · unfold Expired Lives
    rw [hgrace, effectiveImportance_lt_iff hlife (not_le.1 hmin) hcount, not_and_or, not_le, Classical.not_imp, not_lt,
      or_iff_right hmin]

end AgentOrchestrator.LongTermMemory
