import AgentOrchestrator.Lib.Exec
import Mathlib.Data.List.ReduceOption

/-!
# Processes on one store

Any number of processes of one kind work on a store that all of them see.  `Crew` says how a process begins on a store
and how it moves, and `others` what the rest may do to the store meanwhile: the laws ask that a process that begins or
moves does no more than that to any other.  So each process, seen by itself, is a run of its own steps and of changes of
the store by others (`Crew.solo_of_exec`), and what is known of such runs holds of each process in every interleaving.
-/

/-- A kind of process: `store` is what a state shows of the store, and `put` replaces it. -/
structure Crew (κ σ ε S : Type) where
  store : σ → S
  put : S → σ → σ
  begins : κ → S → σ → Prop
  step : κ → σ → ε → σ → Prop
  others : κ → S → S → Prop
  /-- Nothing of the process is in the store yet. -/
  fresh : κ → S → Prop
  store_put : ∀ s r, store (put s r) = s
  others_of_begins : ∀ k k' s r, begins k s r → k ≠ k' → others k' s (store r)
  others_of_step : ∀ k k' r l r', step k r l r' → k ≠ k' → others k' (store r) (store r')
  fresh_of_others : ∀ k s s', fresh k s → others k s s' → fresh k s'

namespace Crew

variable {κ σ ε S : Type} (crew : Crew κ σ ε S)

/-- The store and the processes that have begun. -/
structure Fleet (κ σ S : Type) where
  store : S
  member : κ → Option σ

inductive Label (κ ε : Type) where
  | begun (k : κ)
  | moved (k : κ) (l : ε)

/-- The labels of one process. -/
def Label.of [DecidableEq κ] (k : κ) : Label κ ε → Option ε
  | .begun _ => none
  | .moved k' l => if k' = k then some l else none

/-- A process sees the store that another one has left. -/
def Fleet.set [DecidableEq κ] (f : Fleet κ σ S) (k : κ) (r : σ) : Fleet κ σ S where
  store := crew.store r
  member k' := if k' = k then some r else (f.member k').map (crew.put (crew.store r))

/-- A new process begins, or one of them moves. -/
inductive Step [DecidableEq κ] : Fleet κ σ S → Label κ ε → Fleet κ σ S → Prop
  | begin {f : Fleet κ σ S} {k : κ} {r : σ} (hm : f.member k = none) (h : crew.begins k f.store r) :
      Step f (.begun k) (f.set crew k r)
  | move {f : Fleet κ σ S} {k : κ} {r r' : σ} {l : ε} (hm : f.member k = some r) (h : crew.step k r l r') :
      Step f (.moved k l) (f.set crew k r')

/-- A process by itself: its own steps, and changes of the store by others. -/
inductive Solo (k : κ) : σ → Option ε → σ → Prop
  | own {r r' : σ} {l : ε} (h : crew.step k r l r') : Solo k r (some l) r'
  | others {r : σ} {s : S} (h : crew.others k (crew.store r) s) : Solo k r none (crew.put s r)

/-- Where a process of a fleet comes from: it has begun on a store without anything of it, and has run since. -/
def Ran (k : κ) (labels : List ε) (r : σ) : Prop :=
  ∃ s r₀ tr, crew.fresh k s ∧ crew.begins k s r₀ ∧ Exec (crew.Solo k) r₀ tr r ∧ tr.reduceOption = labels

variable {crew} {k : κ} {r : σ}

theorem Ran.own {labels : List ε} {r' : σ} {l : ε} (h : crew.Ran k labels r) (hs : crew.step k r l r') :
    crew.Ran k (labels ++ [l]) r' := by
  obtain ⟨s, r₀, tr, hf, hb, hr, rfl⟩ := h
  exact ⟨s, r₀, tr ++ [some l], hf, hb, hr.snoc (.own hs), List.reduceOption_append tr [some l]⟩

theorem Ran.others {labels : List ε} {s : S} (h : crew.Ran k labels r) (hs : crew.others k (crew.store r) s) :
    crew.Ran k labels (crew.put s r) := by
  obtain ⟨s', r₀, tr, hf, hb, hr, rfl⟩ := h
  exact ⟨s', r₀, tr ++ [none], hf, hb, hr.snoc (.others hs), (List.reduceOption_append tr [none]).trans (List.append_nil _)⟩

variable [DecidableEq κ] {f f' : Fleet κ σ S} {l : Label κ ε} {tr : List (Label κ ε)}

/-- The processes that have begun. -/
theorem member_set {k' : κ} :
    (∃ r', (f.set crew k r).member k' = some r') ↔ k' = k ∨ ∃ r', f.member k' = some r' := by
  unfold Fleet.set
  by_cases hk : k' = k
  · simp [hk]
  · simp [hk]

/-- What is known of one process in a fleet. -/
def Member (crew : Crew κ σ ε S) (k : κ) (labels : List ε) (f : Fleet κ σ S) : Prop :=
  (f.member k = none → crew.fresh k f.store ∧ labels = []) ∧
    ∀ r, f.member k = some r → crew.store r = f.store ∧ crew.Ran k labels r

/-- What another process does leaves what is known of this one. -/
theorem Member.others {labels : List ε} (h : Member crew k labels f) {k' : κ} (hne : k' ≠ k)
    (ho : crew.others k f.store (crew.store r)) : Member crew k labels (f.set crew k' r) := by
  have hmember : (f.set crew k' r).member k = (f.member k).map (crew.put (crew.store r)) := if_neg (Ne.symm hne)
  refine ⟨fun hm => ?_, fun r' hm => ?_⟩
  · rw [hmember, Option.map_eq_none_iff] at hm
    obtain ⟨hfresh, hlabels⟩ := h.1 hm
    exact ⟨crew.fresh_of_others _ _ _ hfresh ho, hlabels⟩
  · rw [hmember] at hm
    obtain ⟨r₀, hr₀, rfl⟩ := Option.map_eq_some_iff.1 hm
    obtain ⟨hstore, hran⟩ := h.2 r₀ hr₀
    exact ⟨crew.store_put _ _, hran.others (hstore ▸ ho)⟩

theorem Member.step {labels : List ε} (h : Member crew k labels f) (hs : crew.Step f l f')
    (hall : ∀ k' r, f.member k' = some r → crew.store r = f.store) :
    Member crew k (labels ++ (l.of k).toList) f' := by
  cases hs with
  | @begin k' r hm hb =>
    show Member crew k (labels ++ []) _
    rw [List.append_nil]
    by_cases hk : k' = k
    · subst hk
      have hself : (f.set crew k' r).member k' = some r := if_pos rfl
      obtain ⟨hfresh, rfl⟩ := h.1 hm
      refine ⟨fun hnone => absurd (hself.symm.trans hnone) (by simp), fun r' hr' => ?_⟩
      obtain rfl := Option.some.inj (hself.symm.trans hr')
      exact ⟨rfl, f.store, r, [], hfresh, hb, .refl, rfl⟩
    · exact h.others hk (crew.others_of_begins _ _ _ _ hb hk)
  | @move k' r r' l hm hs =>
    by_cases hk : k' = k
    · subst hk
      have hself : (f.set crew k' r').member k' = some r' := if_pos rfl
      obtain ⟨-, hran⟩ := h.2 r hm
      refine ⟨fun hnone => absurd (hself.symm.trans hnone) (by simp), fun r'' hr'' => ?_⟩
      obtain rfl := Option.some.inj (hself.symm.trans hr'')
      refine ⟨rfl, ?_⟩
      simp only [Label.of, if_true, Option.toList_some]
      exact hran.own hs
    · have hother : ((Label.moved k' l).of k).toList = [] := by simp [Label.of, hk]
      rw [hother, List.append_nil]
      exact h.others hk (hall k' r hm ▸ crew.others_of_step _ _ _ _ _ hs hk)

/-- The fleet without processes. -/
def Fleet.empty (s : S) : Fleet κ σ S := ⟨s, fun _ => none⟩

/-- In every interleaving each process has run by itself, with its own steps in their order. -/
theorem solo_of_exec {s : S} (hs : ∀ k, crew.fresh k s) (h : Exec crew.Step (.empty s) tr f) (k : κ) :
    Member crew k (tr.filterMap (Label.of k)) f := by
  have hall : ∀ k, Member crew k (tr.filterMap (Label.of k)) f := by
    refine h.invariant (fun tr f => ∀ k, Member crew k (tr.filterMap (Label.of k)) f) ?_ ?_
    · exact fun k => ⟨fun _ => ⟨hs k, rfl⟩, fun r hr => absurd hr (by simp [Fleet.empty])⟩
    · intro tr t l u _ ih hstep k
      have hlast : [l].filterMap (Label.of k) = (l.of k).toList := by cases hl : l.of k <;> simp [hl]
      rw [List.filterMap_append, hlast]
      exact (ih k).step hstep fun k' r hr => ((ih k').2 r hr).1
  exact hall k

/-! ### Two processes -/

variable (crew)

/-- The fleet of two processes. -/
def Fleet.pair (k k' : κ) (p : σ × σ) : Fleet κ σ S where
  store := crew.store p.1
  member j := if j = k then some p.1 else if j = k' then some p.2 else none

/-- One of two processes moves, and the other one sees the store that it leaves. -/
def advancePair {ι : Type} (advance : κ → σ → ι → Except Unit (ε × σ)) (k k' : κ) (p : σ × σ) :
    ι ⊕ ι → Except Unit (Label κ ε × σ × σ)
  | .inl i =>
    match advance k p.1 i with
    | .ok (l, r) => .ok (.moved k l, r, crew.put (crew.store r) p.2)
    | .error e => .error e
  | .inr i =>
    match advance k' p.2 i with
    | .ok (l, r) => .ok (.moved k' l, crew.put (crew.store r) p.1, r)
    | .error e => .error e

variable {crew} {k' : κ} {p p' : σ × σ}

theorem eq_of_member_pair {j : κ} (h : (Fleet.pair crew k k' p).member j = some r) : r = p.1 ∨ r = p.2 := by
  unfold Fleet.pair at h
  dsimp only at h
  split at h
  · exact Or.inl (Option.some.inj h).symm
  · split at h
    · exact Or.inr (Option.some.inj h).symm
    · exact absurd h (by simp)

theorem eq_pair (hstore : f.store = crew.store p.1) (hk : f.member k = some p.1) (hk' : f.member k' = some p.2)
    (hrest : ∀ j, j ≠ k → j ≠ k' → f.member j = none) : f = Fleet.pair crew k k' p := by
  obtain ⟨store, member⟩ := f
  obtain rfl := hstore
  unfold Fleet.pair
  congr 1
  funext j
  by_cases hj : j = k
  · rw [if_pos hj, hj, ← hk]
  · rw [if_neg hj]
    by_cases hj' : j = k'
    · rw [if_pos hj', hj', ← hk']
    · rw [if_neg hj', ← hrest j hj hj']

theorem set_pair_left (hne : k ≠ k') (r : σ) : (Fleet.pair crew k k' p).set crew k r =
    Fleet.pair crew k k' (r, crew.put (crew.store r) p.2) :=
  eq_pair rfl (by simp [Fleet.set]) (by simp [Fleet.set, Fleet.pair, hne.symm]) fun j hj hj' => by
    simp [Fleet.set, Fleet.pair, hj, hj']

theorem set_pair_right (hne : k ≠ k') (r : σ) : (Fleet.pair crew k k' p).set crew k' r =
    Fleet.pair crew k k' (crew.put (crew.store r) p.1, r) :=
  eq_pair (crew.store_put _ _).symm (by simp [Fleet.set, Fleet.pair, hne]) (by simp [Fleet.set]) fun j hj hj' => by
    simp [Fleet.set, Fleet.pair, hj, hj']

/-- One process begins after the other. -/
theorem set_set_empty (hne : k ≠ k') (s : S) (r r' : σ) : ((Fleet.empty s).set crew k r).set crew k' r' =
    Fleet.pair crew k k' (crew.put (crew.store r') r, r') :=
  eq_pair (crew.store_put _ _).symm (by simp [Fleet.set, hne]) (by simp [Fleet.set]) fun j hj hj' => by
    simp [Fleet.set, Fleet.empty, hj, hj']

theorem step_of_advancePair {ι : Type} {advance : κ → σ → ι → Except Unit (ε × σ)} {i : ι ⊕ ι}
    (hadvance : ∀ k r i l r', advance k r i = .ok (l, r') → crew.step k r l r') (hne : k ≠ k')
    (h : crew.advancePair advance k k' p i = .ok (l, p')) :
    crew.Step (Fleet.pair crew k k' p) l (Fleet.pair crew k k' p') := by
  unfold advancePair at h
  cases i with
  | inl i =>
    dsimp only at h
    split at h
    · rename_i hi
      obtain ⟨rfl, rfl⟩ := Prod.mk.inj (Except.ok.inj h)
      rw [← set_pair_left hne]
      exact .move (if_pos rfl) (hadvance _ _ _ _ _ hi)
    · exact absurd h (by simp)
  | inr i =>
    dsimp only at h
    split at h
    · rename_i hi
      obtain ⟨rfl, rfl⟩ := Prod.mk.inj (Except.ok.inj h)
      rw [← set_pair_right hne]
      exact .move ((if_neg hne.symm).trans (if_pos rfl)) (hadvance _ _ _ _ _ hi)
    · exact absurd h (by simp)

/-- A script for two processes, one of which has begun after the other, is a run of their fleet. -/
theorem exec_of_pairScript {ι : Type} {advance : κ → σ → ι → Except Unit (ε × σ)} {s : S} {r r' : σ}
    {script : List (ι ⊕ ι)} {q : List (Label κ ε) → σ × σ → Bool}
    (hadvance : ∀ k r i l r', advance k r i = .ok (l, r') → crew.step k r l r') (hne : k ≠ k')
    (hb : crew.begins k s r) (hb' : crew.begins k' (crew.store r) r')
    (h : scriptEnds (crew.advancePair advance k k') (crew.put (crew.store r') r, r') script q = true) :
    ∃ tr p, Exec crew.Step (.empty s) (.begun k :: .begun k' :: tr) (Fleet.pair crew k k' p) ∧ q tr p = true := by
  have hbegun : Exec crew.Step (.empty s) [.begun k, .begun k'] (Fleet.pair crew k k' (crew.put (crew.store r') r, r')) := by
    have hnone : ((Fleet.empty s).set crew k r).member k' = none := by simp [Fleet.set, Fleet.empty, hne.symm]
    rw [← set_set_empty hne]
    exact (Exec.single (Step.begin rfl hb)).snoc (Step.begin hnone hb')
  obtain ⟨tr, p, hr, hq⟩ := exec_of_scriptEnds h
  refine ⟨tr, p, hbegun.trans ?_, hq⟩
  clear hq
  induction hr with
  | refl => exact .refl
  | snoc _ hs ih =>
    obtain ⟨i, hi⟩ := hs
    exact ih.snoc (step_of_advancePair hadvance hne hi)

end Crew
