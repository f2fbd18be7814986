import Mathlib

/-!
# Library/WorkTally — items handed out by a counter and counted down as they finish

Workers claim items of one task by taking the next index, run them, and count each finished one
down.  Nothing says who runs what, or in which order items finish; a `WorkTally` still says that each
item has one claimer, who is running it until it finishes, and that a count of zero means every item
has finished and none is running.
-/

variable {τ : Type}

/-- How far a task is: `len` items, `next` the counter, `unfinished` the count; the claims made, the
items finished, and the items each worker is in. -/
structure WorkTally (len next unfinished : ℕ) (claims : List (ℕ × τ)) (finished : List ℕ)
    (running : τ → List ℕ) : Prop where
  claimed : claims.map Prod.fst = List.range (min next len)
  finished_nodup : finished.Nodup
  finished_lt : ∀ i ∈ finished, i < min next len
  count : unfinished + finished.length = len
  running_nodup : ∀ t, (running t).Nodup
  mem_running : ∀ t i, i ∈ running t ↔ (i, t) ∈ claims ∧ i ∉ finished

namespace WorkTally

variable {len next unfinished : ℕ} {claims : List (ℕ × τ)} {finished : List ℕ} {running : τ → List ℕ}

/-- A task nobody started. -/
theorem start (len : ℕ) (running : τ → List ℕ) (h : ∀ t, running t = []) :
    WorkTally len 0 len [] [] running :=
  ⟨by simp, List.nodup_nil, fun _ h => absurd h (by simp), rfl, fun t => by simp [h t], fun t i => by
    simp [h t]⟩

variable (h : WorkTally len next unfinished claims finished running)
include h

/-- An index is claimed once: by one worker. -/
theorem claimer_unique {i : ℕ} {t u : τ} (ht : (i, t) ∈ claims) (hu : (i, u) ∈ claims) : t = u := by
  have hnodup : (claims.map Prod.fst).Nodup := by
    rw [h.claimed]
    exact List.nodup_range
  exact congrArg Prod.snd (List.inj_on_of_nodup_map hnodup ht hu rfl)

/-- What is claimed is an index handed out. -/
theorem lt_of_claimed {i : ℕ} {t : τ} (ht : (i, t) ∈ claims) : i < min next len := by
  have hmem : i ∈ claims.map Prod.fst := List.mem_map_of_mem (f := Prod.fst) ht
  rwa [h.claimed, List.mem_range] at hmem

/-- An index handed out is claimed by someone. -/
theorem exists_claimer {i : ℕ} (hi : i < min next len) : ∃ t, (i, t) ∈ claims := by
  have hmem : i ∈ claims.map Prod.fst := by rwa [h.claimed, List.mem_range]
  obtain ⟨⟨_, t⟩, ht, rfl⟩ := List.mem_map.mp hmem
  exact ⟨t, ht⟩

/-- **A claim**: the counter's index, for one worker. -/
theorem claim [DecidableEq τ] (t : τ) (hlt : next < len) {running' : τ → List ℕ}
    (hown : running' t = next :: running t) (hothers : ∀ u, u ≠ t → running' u = running u) :
    WorkTally len (next + 1) unfinished (claims ++ [(next, t)]) finished running' := by
  have hmin : min next len = next := min_eq_left hlt.le
  have hmin' : min (next + 1) len = next + 1 := min_eq_left hlt
  have hnew (u : τ) : (next, u) ∉ claims := fun hu => by
    have hu' := h.lt_of_claimed hu
    omega
  have hfresh : next ∉ finished := fun hf => by
    have hf' := h.finished_lt next hf
    omega
  refine ⟨?_, h.finished_nodup, fun i hi => ?_, h.count, fun u => ?_, fun u i => ?_⟩
  · rw [List.map_append, h.claimed, hmin, hmin', List.range_succ]
    rfl
  · exact (h.finished_lt i hi).trans_le (by omega)
  · by_cases hu : u = t
    · rw [hu, hown]
      exact List.nodup_cons.mpr ⟨fun hmem => hnew t ((h.mem_running t next).mp hmem).1,
        h.running_nodup t⟩
    · rw [hothers u hu]
      exact h.running_nodup u
  · rw [List.mem_append, List.mem_singleton, Prod.mk.injEq]
    by_cases hu : u = t
    · rw [hu, hown, List.mem_cons, h.mem_running]
      constructor
      · rintro (rfl | ⟨hc, hf⟩)
        · exact ⟨.inr ⟨rfl, rfl⟩, hfresh⟩
        · exact ⟨.inl hc, hf⟩
      · rintro ⟨hc | ⟨rfl, -⟩, hf⟩
        · exact .inr ⟨hc, hf⟩
        · exact .inl rfl
    · rw [hothers u hu, h.mem_running]
      simp [hu]

/-- A claim past the last item claims nothing. -/
theorem pass (hle : len ≤ next) : WorkTally len (next + 1) unfinished claims finished running := by
  have hmin : min (next + 1) len = min next len := by omega
  exact ⟨by rw [hmin]; exact h.claimed, h.finished_nodup, fun i hi => by
    rw [hmin]; exact h.finished_lt i hi, h.count, h.running_nodup, h.mem_running⟩

/-- A running item is counted. -/
theorem pos_of_running {t : τ} {i : ℕ} (hi : i ∈ running t) : 0 < unfinished := by
  obtain ⟨hc, hf⟩ := (h.mem_running t i).mp hi
  have hsub : (i :: finished) ⊆ List.range len := by
    intro j hj
    rw [List.mem_range]
    rcases List.mem_cons.mp hj with rfl | hj
    · exact (h.lt_of_claimed hc).trans_le (min_le_right _ _)
    · exact (h.finished_lt j hj).trans_le (min_le_right _ _)
  have hle := (List.subperm_of_subset (List.nodup_cons.mpr ⟨hf, h.finished_nodup⟩) hsub).length_le
  rw [List.length_cons, List.length_range] at hle
  have := h.count
  omega

/-- **A finish**: the worker leaves the item, which is counted down. -/
theorem finish [DecidableEq τ] {t : τ} {i : ℕ} {rest : List ℕ} (hrun : running t = i :: rest)
    {running' : τ → List ℕ} (hown : running' t = rest) (hothers : ∀ u, u ≠ t → running' u = running u) :
    WorkTally len next (unfinished - 1) claims (finished ++ [i]) running' := by
  have hi : i ∈ running t := by rw [hrun]; exact List.mem_cons_self
  have hpos := h.pos_of_running hi
  obtain ⟨hc, hf⟩ := (h.mem_running t i).mp hi
  have hnodup := h.running_nodup t
  rw [hrun, List.nodup_cons] at hnodup
  refine ⟨h.claimed, ?_, fun j hj => ?_, ?_, fun u => ?_, fun u j => ?_⟩
  · exact List.nodup_append.mpr ⟨h.finished_nodup, List.nodup_singleton i, fun a ha b hb e =>
      hf (by rwa [← List.mem_singleton.mp hb, ← e])⟩
  · rcases List.mem_append.mp hj with hj | hj
    · exact h.finished_lt j hj
    · rw [List.mem_singleton.mp hj]
      exact h.lt_of_claimed hc
  · rw [List.length_append, List.length_singleton]
    have := h.count
    omega
  · by_cases hu : u = t
    · rw [hu, hown]
      exact hnodup.2
    · rw [hothers u hu]
      exact h.running_nodup u
  · rw [List.mem_append, List.mem_singleton, not_or]
    by_cases hu : u = t
    · rw [hu, hown]
      have hiff := h.mem_running t j
      rw [hrun, List.mem_cons] at hiff
      constructor
      · intro hj
        obtain ⟨hjc, hjf⟩ := hiff.mp (.inr hj)
        exact ⟨hjc, hjf, fun e => hnodup.1 (e ▸ hj)⟩
      · rintro ⟨hjc, hjf, hji⟩
        exact (hiff.mpr ⟨hjc, hjf⟩).resolve_left hji
    · rw [hothers u hu, h.mem_running]
      constructor
      · rintro ⟨hjc, hjf⟩
        exact ⟨hjc, hjf, fun e => hu (h.claimer_unique (e ▸ hjc) hc)⟩
      · rintro ⟨hjc, hjf, -⟩
        exact ⟨hjc, hjf⟩

/-- **A count of zero**: every item is claimed and finished, and nobody is in one. -/
theorem done (hzero : unfinished = 0) :
    len ≤ next ∧ (∀ i < len, i ∈ finished) ∧ ∀ t, running t = [] := by
  have hlen : finished.length = len := by
    have := h.count
    omega
  have hsub : finished ⊆ List.range len := fun j hj =>
    List.mem_range.mpr ((h.finished_lt j hj).trans_le (min_le_right _ _))
  have hperm : finished.Perm (List.range len) :=
    (List.subperm_of_subset h.finished_nodup hsub).perm_of_length_le (by simp [hlen])
  have hall : ∀ i < len, i ∈ finished := fun i hi => hperm.symm.mem_iff.mp (List.mem_range.mpr hi)
  refine ⟨?_, hall, fun t => List.eq_nil_iff_forall_not_mem.mpr fun i hi => ?_⟩
  · by_contra hlt
    have hlast := h.finished_lt next (hall next (by omega))
    omega
  · have hpos := h.pos_of_running hi
    omega

/-- **Once every item is claimed, a count above zero has a worker in an item.** -/
theorem exists_running (hpos : 0 < unfinished) (hle : len ≤ next) : ∃ t i, i ∈ running t := by
  have hmin : min next len = len := min_eq_right hle
  obtain ⟨i, hi, hf⟩ : ∃ i < len, i ∉ finished := by
    by_contra hno
    push Not at hno
    have hsub : List.range len ⊆ finished := fun i hi => hno i (List.mem_range.mp hi)
    have hlen := (List.subperm_of_subset List.nodup_range hsub).length_le
    rw [List.length_range] at hlen
    have := h.count
    omega
  obtain ⟨t, ht⟩ := h.exists_claimer (i := i) (by omega)
  exact ⟨t, i, (h.mem_running t i).mpr ⟨ht, hf⟩⟩

end WorkTally
