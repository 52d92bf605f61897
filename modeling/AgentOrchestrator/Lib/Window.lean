import Mathlib.Algebra.Order.Group.Defs
import Mathlib.Data.List.TakeWhile

/-!
# Sliding windows

A limiter admits a request if fewer than `limit` requests have been admitted in the `span` before it.  It keeps the times
of the requests it has admitted and drops from the front of that list, at the time of the next request, those that have
become too old.  `Window.Holds` says what the list has at any time: all that has been admitted, but for requests that are
too old for every request to come.
-/

namespace Window

variable {T : Type} [LinearOrder T]

private theorem dropWhile_lt_eq_filter {l : List T} (h : l.Pairwise (· ≤ ·)) (c : T) :
    (l.dropWhile fun t => t < c) = l.filter fun t => c ≤ t := by
  induction l with
  | nil => rfl
  | cons t l ih =>
    rw [List.pairwise_cons] at h
    by_cases ht : t < c
    · rw [List.dropWhile_cons_of_pos (by simpa using ht), List.filter_cons_of_neg (by simpa using ht), ih h.2]
    · -- all the others are later
      rw [List.dropWhile_cons_of_neg (by simpa using ht), List.filter_eq_self.2]
      intro u hu
      have htu : t ≤ u := (List.mem_cons.1 hu).elim (fun h => h.ge) (h.1 u)
      simpa using (not_lt.1 ht).trans htu

/-- The number of requests admitted in a closed interval. -/
def between (start stop : T) (admitted : List T) : Nat := admitted.countP fun t => start ≤ t ∧ t ≤ stop

variable [AddCommGroup T]

/-- Drop the times that are too old from the front. -/
def prune (span now : T) (stamps : List T) : List T := stamps.dropWhile fun t => t < now - span

/-- At most `limit` requests are admitted in any closed interval of length `span`. -/
def Within (span : T) (limit : Nat) (admitted : List T) : Prop := ∀ start, between start (start + span) admitted ≤ limit

/-- The limiter has `stamps` of the requests admitted up to `latest`. -/
structure Holds (span latest : T) (admitted stamps : List T) : Prop where
  sorted : admitted.Pairwise (· ≤ ·)
  le_latest : ∀ t ∈ admitted, t ≤ latest
  suffix : ∃ dropped, admitted = dropped ++ stamps ∧ ∀ t ∈ dropped, t < latest - span

variable {span latest now : T} {limit : Nat} {admitted stamps : List T}

theorem Holds.start : Holds span latest [] [] := ⟨.nil, by simp, [], rfl, by simp⟩

theorem Holds.prune (h : Holds span now admitted stamps) : Holds span now admitted (prune span now stamps) := by
  obtain ⟨dropped, heq, hold⟩ := h.suffix
  refine ⟨h.sorted, h.le_latest, dropped ++ stamps.takeWhile fun t => t < now - span, ?_, fun t ht => ?_⟩
  · rw [List.append_assoc, heq]
    exact congrArg (dropped ++ ·) List.takeWhile_append_dropWhile.symm
  · rcases List.mem_append.1 ht with ht | ht
    · exact hold t ht
    · simpa using List.mem_takeWhile_imp ht

theorem Holds.push (h : Holds span now admitted stamps) : Holds span now (admitted ++ [now]) (stamps ++ [now]) := by
  obtain ⟨dropped, heq, hold⟩ := h.suffix
  refine ⟨?_, fun t ht => ?_, dropped, by rw [heq, List.append_assoc], hold⟩
  · rw [List.pairwise_append]
    exact ⟨h.sorted, List.pairwise_singleton _ _, fun t ht u hu => List.mem_singleton.1 hu ▸ h.le_latest t ht⟩
  · rcases List.mem_append.1 ht with ht | ht
    · exact h.le_latest t ht
    · exact (List.mem_singleton.1 ht).le

/-- What is left after the old times are dropped is what has been admitted in the last `span`. -/
theorem Holds.length_prune (h : Holds span now admitted stamps) :
    (Window.prune span now stamps).length = between (now - span) now admitted := by
  obtain ⟨dropped, heq, hold⟩ := h.suffix
  have hsorted : stamps.Pairwise (· ≤ ·) := (List.pairwise_append.1 (heq ▸ h.sorted)).2.1
  have hdropped : between (now - span) now dropped = 0 := by
    refine List.countP_eq_zero.2 fun t ht => ?_
    simpa using fun hle => absurd hle (not_le.2 (hold t ht))
  have hstamps : between (now - span) now stamps = stamps.countP fun t => now - span ≤ t := by
    refine List.countP_congr fun t ht => ?_
    have hle : t ≤ now := h.le_latest t (heq ▸ List.mem_append_right dropped ht)
    simp [hle]
  unfold Window.prune
  rw [dropWhile_lt_eq_filter hsorted, ← List.countP_eq_length_filter, ← hstamps, heq]
  have hsplit : between (now - span) now (dropped ++ stamps) =
      between (now - span) now dropped + between (now - span) now stamps := List.countP_append
  rw [hsplit, hdropped, Nat.zero_add]

theorem Within.nil : Within span limit [] := fun _ => Nat.zero_le _

variable [IsOrderedAddMonoid T]

/-- Time passes. -/
theorem Holds.wait (h : Holds span latest admitted stamps) (hnow : latest ≤ now) : Holds span now admitted stamps := by
  obtain ⟨dropped, heq, hold⟩ := h.suffix
  refine ⟨h.sorted, fun t ht => (h.le_latest t ht).trans hnow, dropped, heq, fun t ht => ?_⟩
  exact (hold t ht).trans_le (sub_le_sub_right hnow span)

/-- A request that is admitted only below the limit of its window keeps every other window within the limit. -/
theorem Within.push (h : Within span limit admitted) (hle : ∀ t ∈ admitted, t ≤ now)
    (hlt : between (now - span) now admitted < limit) : Within span limit (admitted ++ [now]) := by
  intro start
  unfold between
  rw [List.countP_append, List.countP_singleton]
  split
  · rename_i hnow
    -- the interval is no longer than the window that ends now
    have hnow : start ≤ now ∧ now ≤ start + span := by simpa using hnow
    have hcount : between start (start + span) admitted ≤ between (now - span) now admitted := by
      refine List.countP_mono_left fun t ht hin => ?_
      have hin : start ≤ t ∧ t ≤ start + span := by simpa using hin
      have hrecent : now - span ≤ t ∧ t ≤ now := ⟨(sub_le_iff_le_add.2 hnow.2).trans hin.1, hle t ht⟩
      simpa using hrecent
    exact (Nat.succ_le_succ hcount).trans hlt
  · exact h start

end Window
