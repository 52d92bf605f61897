import Mathlib.Analysis.SpecialFunctions.Log.Base
import Mathlib.Data.Rat.Cast.Order

/-!
# Decay with a half-life

`halved w age h` is what is left of the weight `w` at the age `age`, if half of it is lost in every period of length
`h`.  It grows with the weight and shrinks with the age, and it falls below a smaller weight at an age that the logarithm
of their ratio tells (`halved_lt_iff`).

Something that lives before one day, or up to another one, is alive on the days `Lives`.  When it lives as long as
something else can be read off the days (`forall_lives_iff`), and no two things live longer together than the one of them
that lives longer (`exists_of_forall_exists`).
-/

/-- What is left of a weight. -/
noncomputable def halved (w age h : ℝ) : ℝ := w * (1 / 2) ^ (age / h)

theorem halved_zero (w h : ℝ) : halved w 0 h = w := by simp [halved]

theorem halved_nonneg {w : ℝ} (hw : 0 ≤ w) (age h : ℝ) : 0 ≤ halved w age h :=
  mul_nonneg hw (Real.rpow_nonneg (by norm_num) _)

theorem halved_le {w w' age age' h : ℝ} (hw : 0 ≤ w) (hww' : w ≤ w') (hage : age' ≤ age) (hh : 0 < h) :
    halved w age h ≤ halved w' age' h := by
  have hexp : age' / h ≤ age / h := div_le_div_of_nonneg_right hage hh.le
  have hpow : (1 / 2 : ℝ) ^ (age / h) ≤ (1 / 2) ^ (age' / h) :=
    Real.rpow_le_rpow_of_exponent_ge (by norm_num) (by norm_num) hexp
  exact mul_le_mul hww' hpow (Real.rpow_nonneg (by norm_num) _) (hw.trans hww')

/-- The age up to which a weight `w` has not fallen below `m`. -/
noncomputable def fallTime (w m h : ℝ) : ℝ := h * Real.logb 2 (w / m)

theorem fallTime_nonneg {w m h : ℝ} (hm : 0 < m) (hmw : m ≤ w) (hh : 0 ≤ h) : 0 ≤ fallTime w m h :=
  mul_nonneg hh (Real.logb_nonneg one_lt_two ((one_le_div hm).2 hmw))

theorem fallTime_mono {w w' m h : ℝ} (hw : 0 < w) (hww' : w ≤ w') (hm : 0 < m) (hh : 0 ≤ h) :
    fallTime w m h ≤ fallTime w' m h := by
  have hlog : Real.logb 2 (w / m) ≤ Real.logb 2 (w' / m) :=
    Real.logb_le_logb_of_le one_lt_two (div_pos hw hm) (div_le_div_of_nonneg_right hww' hm.le)
  exact mul_le_mul_of_nonneg_left hlog hh

/-- A weight is halved as often as the logarithm says before it falls below another one. -/
theorem halved_lt_iff {w m age h : ℝ} (hw : 0 < w) (hm : 0 < m) (hh : 0 < h) :
    halved w age h < m ↔ fallTime w m h < age := by
  unfold fallTime
  have hpow : (0 : ℝ) < 2 ^ (age / h) := Real.rpow_pos_of_pos two_pos _
  have hhalf : halved w age h = w / 2 ^ (age / h) := by
    unfold halved
    rw [one_div, Real.inv_rpow two_pos.le, ← div_eq_mul_inv]
  rw [hhalf, div_lt_comm₀ hpow hm, ← Real.logb_lt_iff_lt_rpow one_lt_two (div_pos hw hm), lt_div_iff₀' hh]

/-! ### Up to when something lives -/

/-- Alive on the day `d` is what lives before the day `g` and, if `p`, up to the day `e`. -/
def Lives (g : ℚ) (p : Prop) (e : ℝ) (d : ℚ) : Prop := d < g ∨ p ∧ (d : ℝ) ≤ e

theorem Lives.before {g d d' : ℚ} {p : Prop} {e : ℝ} (h : Lives g p e d) (hd : d' ≤ d) : Lives g p e d' := by
  have hcast : (d' : ℝ) ≤ d := by exact_mod_cast hd
  exact h.imp hd.trans_lt (And.imp_right hcast.trans)

/-- What ends before some moment is not alive on some day before it. -/
theorem exists_not_lives {g : ℚ} {p : Prop} {e b : ℝ} (hg : (g : ℝ) < b) (he : ¬ (p ∧ b ≤ e)) :
    ∃ d : ℚ, (d : ℝ) < b ∧ ¬ Lives g p e d := by
  by_cases hp : p
  · obtain ⟨d, hd, hdb⟩ := exists_rat_btwn (max_lt hg (not_le.1 fun hle => he ⟨hp, hle⟩))
    obtain ⟨hgd, hed⟩ := max_lt_iff.1 hd
    exact ⟨d, hdb, not_or.2 ⟨not_lt.2 (by exact_mod_cast hgd.le), fun hlive => not_le.2 hed hlive.2⟩⟩
  · exact ⟨g, hg, not_or.2 ⟨lt_irrefl g, fun hlive => hp hlive.1⟩⟩

/-- What lives on every day on which something else does. -/
theorem forall_lives_iff {g g' : ℚ} {p p' : Prop} {e e' : ℝ} : (∀ d, Lives g p e d → Lives g' p' e' d) ↔
    (g ≤ g' ∨ p' ∧ (g : ℝ) ≤ e') ∧ (p → e < g' ∨ p' ∧ e ≤ e') := by
  constructor
  · intro h
    constructor
    · by_contra hnot
      obtain ⟨hg, he⟩ := not_or.1 hnot
      obtain ⟨d, hd, hdead⟩ := exists_not_lives (b := g) (by exact_mod_cast not_le.1 hg) he
      exact hdead (h d (Or.inl (by exact_mod_cast hd)))
    · intro hp
      by_contra hnot
      obtain ⟨hg, he⟩ := not_or.1 hnot
      rcases (not_lt.1 hg).eq_or_lt with heq | hlt
      · -- the first end excludes its day, the second one does not
        rcases h g' (Or.inr ⟨hp, heq.le⟩) with hless | hlive
        · exact lt_irrefl _ hless
        · exact he ⟨hlive.1, heq ▸ hlive.2⟩
      · obtain ⟨d, hd, hdead⟩ := exists_not_lives hlt he
        exact hdead (h d (Or.inr ⟨hp, hd.le⟩))
  · rintro ⟨hgrace, hdecay⟩ d (hd | ⟨hp, hd⟩)
    · rcases hgrace with hle | ⟨hp, hle⟩
      · exact Or.inl (hd.trans_le hle)
      · have hcast : (d : ℝ) < g := by exact_mod_cast hd
        exact Or.inr ⟨hp, (hcast.trans_le hle).le⟩
    · rcases hdecay hp with hlt | ⟨hp', hle⟩
      · exact Or.inl (by exact_mod_cast hd.trans_lt hlt)
      · exact Or.inr ⟨hp', hd.trans hle⟩

/-- If there is always one of a list, one of them lives on all the days. -/
theorem exists_of_forall_exists {ι : Type} (alive : ι → ℚ → Prop) {l : List ι}
    (hbefore : ∀ i ∈ l, ∀ d d', alive i d → d' ≤ d → alive i d') {days : ℚ → Prop} {d₀ : ℚ} (h₀ : days d₀)
    (h : ∀ d, days d → ∃ i ∈ l, alive i d) : ∃ i ∈ l, ∀ d, days d → alive i d := by
  by_contra hnone
  have hlast : ∃ d, days d ∧ ∀ i ∈ l, ¬ alive i d := by
    clear h
    induction l with
    | nil => exact ⟨d₀, h₀, by simp⟩
    | cons i l ih =>
      obtain ⟨d, hd, hgone⟩ := ih (fun j hj => hbefore j (List.mem_cons_of_mem _ hj))
        fun ⟨j, hj, hall⟩ => hnone ⟨j, List.mem_cons_of_mem _ hj, hall⟩
      have hi : ∃ d, days d ∧ ¬ alive i d := by
        by_contra hall
        push Not at hall
        exact hnone ⟨i, List.mem_cons_self, hall⟩
      obtain ⟨d', hd', hgone'⟩ := hi
      -- on the later of the two days nothing is alive
      rcases le_total d d' with hle | hle
      · refine ⟨d', hd', List.forall_mem_cons.2 ⟨hgone', fun j hj hlive => hgone j hj ?_⟩⟩
        exact hbefore j (List.mem_cons_of_mem _ hj) d' d hlive hle
      · refine ⟨d, hd, List.forall_mem_cons.2 ⟨fun hlive => hgone' ?_, hgone⟩⟩
        exact hbefore i List.mem_cons_self d d' hlive hle
  obtain ⟨d, hd, hgone⟩ := hlast
  obtain ⟨i, hi, hlive⟩ := h d hd
  exact hgone i hi hlive
