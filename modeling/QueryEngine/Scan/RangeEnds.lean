import QueryEngine.Library.Clusters
import QueryEngine.Scan.BlockBounds

/-!
# Scan/RangeEnds — where the next range of blocks ends

A page's range ends where a few of a table's row groups do.  Groups that overlap are read together, so the end
is that of a cluster of them, at most the fourth; no group straddles it (`nextBlockRangeEnd_sound`).
-/

open Clusters Fallible

namespace QueryEngine

/-- What a table's footer says: its columns' types, and the statistics of each row group. -/
structure TableFooter where
  dataType : String → Option DataType
  groups : List (String → Option ColumnStats)

/-- The end of the first four clusters of row groups that end at a block or after it, in order; nothing unless
every row group's bounds are known. -/
def rangeEnd (bounds : List (Option (ℕ × ℕ))) (fromBlock : ℕ) : Option ℕ :=
  (bounds.mapM id).bind fun bounds =>
    let spans := (((bounds.filter fun b => decide (fromBlock ≤ b.2)).map toLex).insertionSort (· ≤ ·)).map ofLex
    let ends := (joinAll spans).reverse
    if min ends.length 4 = 0 then none else ends[min ends.length 4 - 1]?

/-- The ends of one range after the other, each from the block after the last. -/
def rangeEnds (bounds : List (Option (ℕ × ℕ))) : ℕ → ℕ → List ℕ
  | 0, _ => []
  | steps + 1, fromBlock =>
    match rangeEnd bounds fromBlock with
    | none => []
    | some e => e :: rangeEnds bounds steps (e + 1)

namespace TableFooter

/-- The block bounds of each row group. -/
def bounds (table : TableFooter) (blockColumn : String) : List (Option (ℕ × ℕ)) :=
  table.groups.map fun stats => (table.dataType blockColumn).bind fun width => blockBounds width (stats blockColumn)

/-- Up to four row-group ranges, strict overlaps merged. -/
def nextBlockRangeEnd (table : TableFooter) (blockColumn : String) (fromBlock : ℕ) : Option ℕ :=
  rangeEnd (table.bounds blockColumn) fromBlock

/-- Bounds that are stated are in order. -/
theorem le_of_mem_bounds {table : TableFooter} {blockColumn : String} {b : ℕ × ℕ}
    (h : some b ∈ table.bounds blockColumn) : b.1 ≤ b.2 := by
  obtain ⟨stats, -, h⟩ := List.mem_map.mp h
  obtain ⟨width, -, h⟩ := Option.bind_eq_some_iff.mp h
  obtain ⟨_, -, h⟩ := Option.bind_eq_some_iff.mp h
  obtain ⟨min, -, h⟩ := Option.bind_eq_some_iff.mp h
  obtain ⟨max, -, h⟩ := Option.bind_eq_some_iff.mp h
  split at h
  · next hle =>
    obtain rfl := Option.some.inj h
    exact hle
  · exact absurd h (by simp)

end TableFooter

/-! ## One range -/

section Range

variable {bounds : List (Option (ℕ × ℕ))} {known : List (ℕ × ℕ)} {fromBlock : ℕ}

/-- The row groups that end at a block or after it. -/
def endingFrom (bounds : List (Option (ℕ × ℕ))) (fromBlock : ℕ) : List (ℕ × ℕ) :=
  (bounds.filterMap id).filter fun b => decide (fromBlock ≤ b.2)

/-- The same groups, in the order they are joined. -/
def sortedFrom (bounds : List (Option (ℕ × ℕ))) (fromBlock : ℕ) : List (ℕ × ℕ) :=
  (((endingFrom bounds fromBlock).map toLex).insertionSort (· ≤ ·)).map ofLex

theorem perm_sortedFrom (bounds : List (Option (ℕ × ℕ))) (fromBlock : ℕ) :
    (sortedFrom bounds fromBlock).Perm (endingFrom bounds fromBlock) := by
  have hperm := (List.perm_insertionSort (· ≤ ·) ((endingFrom bounds fromBlock).map toLex)).map ofLex
  rwa [List.map_map, List.map_id''] at hperm
  exact fun _ => rfl

theorem pairwise_sortedFrom (bounds : List (Option (ℕ × ℕ))) (fromBlock : ℕ) :
    (sortedFrom bounds fromBlock).Pairwise fun s t => toLex s ≤ toLex t := by
  rw [sortedFrom, List.pairwise_map]
  exact List.pairwise_insertionSort (· ≤ ·) _

theorem mem_endingFrom {b : ℕ × ℕ} : b ∈ endingFrom bounds fromBlock ↔ some b ∈ bounds ∧ fromBlock ≤ b.2 := by
  simp [endingFrom]

theorem length_joinAll_sortedFrom :
    (joinAll (sortedFrom bounds fromBlock)).length = 0 ↔ endingFrom bounds fromBlock = [] := by
  rw [List.length_eq_zero_iff, joinAll_eq_nil, ← List.length_eq_zero_iff,
    (perm_sortedFrom bounds fromBlock).length_eq, List.length_eq_zero_iff]

/-- Bounds that are all known are those that some are. -/
theorem mapM_id (bounds : List (Option (ℕ × ℕ))) :
    bounds.mapM id = if none ∈ bounds then none else some (bounds.filterMap id) := by
  induction bounds with
  | nil => rfl
  | cons b bounds ih =>
    rw [List.mapM_cons, ih]
    cases b with
    | none => simp
    | some b => by_cases h : none ∈ bounds <;> simp [h]

/-- **The range ends with a cluster, at most the fourth**, or there is no saying where. -/
theorem rangeEnd_eq (bounds : List (Option (ℕ × ℕ))) (fromBlock : ℕ) : rangeEnd bounds fromBlock =
    if none ∈ bounds ∨ endingFrom bounds fromBlock = [] then none
    else (joinAll (sortedFrom bounds fromBlock)).reverse[
      min (joinAll (sortedFrom bounds fromBlock)).length 4 - 1]? := by
  rw [rangeEnd, mapM_id]
  by_cases hnone : none ∈ bounds
  · simp [hnone]
  · rw [if_neg hnone, Option.bind_some]
    change (if min (joinAll (sortedFrom bounds fromBlock)).reverse.length 4 = 0 then none else
      (joinAll (sortedFrom bounds fromBlock)).reverse[
        min (joinAll (sortedFrom bounds fromBlock)).reverse.length 4 - 1]?) = _
    rw [List.length_reverse]
    by_cases hempty : endingFrom bounds fromBlock = []
    · have hsorted : sortedFrom bounds fromBlock = [] := by rw [sortedFrom, hempty]; rfl
      rw [hsorted, if_pos (Or.inr hempty)]
      rfl
    · have hlength := mt length_joinAll_sortedFrom.mp hempty
      rw [if_neg (by omega), if_neg (by simp [hnone, hempty])]

/-- **There is no range end exactly when some group's bounds are unknown or no group ends from here on.** -/
theorem rangeEnd_eq_none : rangeEnd bounds fromBlock = none ↔
    none ∈ bounds ∨ ∀ b, some b ∈ bounds → b.2 < fromBlock := by
  have hempty : endingFrom bounds fromBlock = [] ↔ ∀ b, some b ∈ bounds → b.2 < fromBlock := by
    simp only [List.eq_nil_iff_forall_not_mem, mem_endingFrom, not_and, not_le]
  rw [rangeEnd_eq, ← hempty]
  constructor
  · intro h
    by_contra hno
    rw [if_neg hno, List.getElem?_eq_none_iff, List.length_reverse] at h
    have hlength := mt length_joinAll_sortedFrom.mp fun hempty => hno (Or.inr hempty)
    omega
  · exact fun h => if_pos h

/-- **A range ends where a cluster does**, at most the fourth. -/
theorem exists_cluster (hordered : ∀ b, some b ∈ bounds → b.1 ≤ b.2) {e : ℕ}
    (h : rangeEnd bounds fromBlock = some e) : ∃ clusters c, Clustering (endingFrom bounds fromBlock) clusters ∧
      clusters[min clusters.length 4 - 1]? = some c ∧ Closes c e := by
  have hperm := perm_sortedFrom bounds fromBlock
  obtain ⟨clusters, hclustering, hcloses⟩ := exists_clusters
    (fun s hs => hordered s (mem_endingFrom.mp (hperm.mem_iff.mp hs)).1) (pairwise_sortedFrom bounds fromBlock)
  rw [rangeEnd_eq] at h
  split at h
  · exact absurd h (by simp)
  · rw [← List.length_reverse, ← hcloses.length_eq] at h
    obtain ⟨hlt, he⟩ := List.getElem?_eq_some_iff.mp h
    have hlt' : min clusters.length 4 - 1 < clusters.length := hlt.trans_eq hcloses.length_eq.symm
    refine ⟨clusters, clusters[min clusters.length 4 - 1],
      ⟨hclustering.parts.trans hperm, hclustering.linked, hclustering.ascending⟩,
      List.getElem?_eq_getElem hlt', ?_⟩
    rw [← he]
    exact (List.forall₂_iff_get.mp hcloses).2 _ hlt' hlt

/-- **The order of the row groups does not matter.** -/
theorem rangeEnd_perm {others : List (Option (ℕ × ℕ))} (h : others.Perm bounds) (fromBlock : ℕ) :
    rangeEnd others fromBlock = rangeEnd bounds fromBlock := by
  have hending : (endingFrom others fromBlock).Perm (endingFrom bounds fromBlock) :=
    (h.filterMap id).filter _
  have hsorted : sortedFrom others fromBlock = sortedFrom bounds fromBlock := by
    refine congrArg (List.map ofLex) (List.Perm.eq_of_pairwise' (List.pairwise_insertionSort (· ≤ ·) _)
      (List.pairwise_insertionSort (· ≤ ·) _) ?_)
    exact ((List.perm_insertionSort _ _).trans (hending.map toLex)).trans (List.perm_insertionSort _ _).symm
  rw [rangeEnd_eq, rangeEnd_eq, hsorted]
  refine if_congr (or_congr h.mem_iff ?_) rfl rfl
  rw [← List.length_eq_zero_iff, hending.length_eq, List.length_eq_zero_iff]

/-! ## One range after the other -/

/-- **A range leaves fewer groups to end after it.** -/
theorem length_endingFrom_succ (hordered : ∀ b, some b ∈ bounds → b.1 ≤ b.2) {e : ℕ}
    (h : rangeEnd bounds fromBlock = some e) :
    fromBlock ≤ e ∧ (endingFrom bounds (e + 1)).length < (endingFrom bounds fromBlock).length := by
  obtain ⟨clusters, c, hclustering, hc, ⟨last, hlast, rfl⟩, -⟩ := exists_cluster hordered h
  have hmem : last ∈ endingFrom bounds fromBlock :=
    hclustering.parts.mem_iff.mp (List.mem_flatten.mpr ⟨c, List.mem_of_getElem? hc, hlast⟩)
  have hfrom := (mem_endingFrom.mp hmem).2
  have hfilter : endingFrom bounds (last.2 + 1) =
      (endingFrom bounds fromBlock).filter fun b => decide (last.2 + 1 ≤ b.2) := by
    rw [endingFrom, endingFrom, List.filter_filter]
    refine List.filter_congr fun b _ => ?_
    rw [Bool.eq_iff_iff, Bool.and_eq_true, decide_eq_true_eq, decide_eq_true_eq]
    omega
  refine ⟨hfrom, ?_⟩
  rw [hfilter, List.length_filter_lt_length_iff_exists]
  exact ⟨last, hmem, by simp⟩

/-- **Ranges one after the other reach every group's end**, in as many steps as there are groups to end. -/
theorem exists_mem_rangeEnds (hordered : ∀ b, some b ∈ bounds → b.1 ≤ b.2) (hknown : none ∉ bounds) :
    ∀ {steps fromBlock : ℕ}, (endingFrom bounds fromBlock).length ≤ steps → ∀ b, some b ∈ bounds →
      fromBlock ≤ b.2 → ∃ e ∈ rangeEnds bounds steps fromBlock, b.2 ≤ e
  | 0, fromBlock, hsteps, b, hb, hfrom => by
    have hmem : b ∈ endingFrom bounds fromBlock := mem_endingFrom.mpr ⟨hb, hfrom⟩
    rw [List.length_eq_zero_iff.mp (Nat.le_zero.mp hsteps)] at hmem
    exact absurd hmem List.not_mem_nil
  | steps + 1, fromBlock, hsteps, b, hb, hfrom => by
    rw [rangeEnds]
    cases h : rangeEnd bounds fromBlock with
    | none =>
      rcases rangeEnd_eq_none.mp h with hnone | hpast
      · exact absurd hnone hknown
      · exact absurd hfrom (not_le.mpr (hpast b hb))
    | some e =>
      dsimp only
      rcases Nat.lt_or_ge e b.2 with hlt | hge
      · have hfewer := (length_endingFrom_succ hordered h).2
        have hafter : e + 1 ≤ b.2 := hlt
        have hsteps : (endingFrom bounds (e + 1)).length ≤ steps := by omega
        obtain ⟨e', he', hle⟩ := exists_mem_rangeEnds hordered hknown hsteps b hb hafter
        exact ⟨e', List.mem_cons_of_mem _ he', hle⟩
      · exact ⟨e, List.mem_cons_self, hge⟩

/-- **The ranges end by themselves**: more steps find no more of them. -/
theorem rangeEnds_eq (hordered : ∀ b, some b ∈ bounds → b.1 ≤ b.2) :
    ∀ {steps fromBlock : ℕ}, (endingFrom bounds fromBlock).length ≤ steps → ∀ more,
      rangeEnds bounds (steps + more) fromBlock = rangeEnds bounds steps fromBlock
  | 0, fromBlock, hsteps, more => by
    have hnone : rangeEnd bounds fromBlock = none := by
      rw [rangeEnd_eq]
      exact if_pos (Or.inr (List.length_eq_zero_iff.mp (Nat.le_zero.mp hsteps)))
    cases more with
    | zero => rfl
    | succ more => simp only [rangeEnds, hnone]
  | steps + 1, fromBlock, hsteps, more => by
    rw [Nat.add_right_comm, rangeEnds, rangeEnds]
    cases h : rangeEnd bounds fromBlock with
    | none => rfl
    | some e =>
      have hfewer := (length_endingFrom_succ hordered h).2
      exact congrArg (e :: ·) (rangeEnds_eq hordered (by omega) more)

end Range

/-- **The next range end is sound.**  There is none exactly when some row group has no bounds to trust or none
ends from the block on.  Otherwise it is the last block of some group, from the block on; no group that ends
from the block on straddles it; it closes a cluster of strictly overlapping groups, at most the fourth; the
order of the groups does not matter; and ranges one after the other reach every group's end, in no more steps
than there are groups. -/
theorem nextBlockRangeEnd_sound (table : TableFooter) (blockColumn : String) (fromBlock : ℕ) :
    (table.nextBlockRangeEnd blockColumn fromBlock = none ↔
      none ∈ table.bounds blockColumn ∨ ∀ b, some b ∈ table.bounds blockColumn → b.2 < fromBlock) ∧
    (∀ e ∈ table.nextBlockRangeEnd blockColumn fromBlock, fromBlock ≤ e ∧
      (∃ b, some b ∈ table.bounds blockColumn ∧ b.2 = e) ∧
      (∀ b, some b ∈ table.bounds blockColumn → fromBlock ≤ b.2 → ¬(b.1 < e ∧ e < b.2)) ∧
      ∃ clusters c, Clustering (endingFrom (table.bounds blockColumn) fromBlock) clusters ∧
        clusters[min clusters.length 4 - 1]? = some c ∧ Closes c e) ∧
    (∀ groups, groups.Perm table.groups →
      TableFooter.nextBlockRangeEnd { table with groups } blockColumn fromBlock =
        table.nextBlockRangeEnd blockColumn fromBlock) ∧
    (none ∉ table.bounds blockColumn → ∀ b, some b ∈ table.bounds blockColumn → fromBlock ≤ b.2 →
      ∃ e ∈ rangeEnds (table.bounds blockColumn) table.groups.length fromBlock, b.2 ≤ e) ∧
    ∀ more, rangeEnds (table.bounds blockColumn) (table.groups.length + more) fromBlock =
      rangeEnds (table.bounds blockColumn) table.groups.length fromBlock := by
  have hordered : ∀ b, some b ∈ table.bounds blockColumn → b.1 ≤ b.2 := fun b => TableFooter.le_of_mem_bounds
  have hsteps : (endingFrom (table.bounds blockColumn) fromBlock).length ≤ table.groups.length :=
    calc (endingFrom (table.bounds blockColumn) fromBlock).length
        ≤ ((table.bounds blockColumn).filterMap id).length := List.length_filter_le ..
      _ ≤ (table.bounds blockColumn).length := List.length_filterMap_le ..
      _ = table.groups.length := List.length_map _
  refine ⟨rangeEnd_eq_none, fun e he => ?_, fun groups hperm => rangeEnd_perm (hperm.map _) fromBlock,
    fun hknown => exists_mem_rangeEnds hordered hknown hsteps, rangeEnds_eq hordered hsteps⟩
  obtain ⟨clusters, c, hclustering, hc, hcloses⟩ := exists_cluster hordered he
  obtain ⟨last, hlast, hend⟩ := hcloses.1
  have hmem := mem_endingFrom.mp
    (hclustering.parts.mem_iff.mp (List.mem_flatten.mpr ⟨c, List.mem_of_getElem? hc, hlast⟩))
  refine ⟨hend ▸ hmem.2, ⟨last, hmem.1, hend⟩, fun b hb hfrom => ?_, clusters, c, hclustering, hc, hcloses⟩
  exact hclustering.not_straddling (fun s hs => hordered s (mem_endingFrom.mp hs).1) hc hcloses
    (mem_endingFrom.mpr ⟨hb, hfrom⟩)

end QueryEngine
