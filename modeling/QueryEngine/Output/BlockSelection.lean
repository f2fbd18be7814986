import QueryEngine.Library.Saturating
import QueryEngine.Scan.ColumnCache

/-!
# Output/BlockSelection — the blocks of a page, as many as its budget holds

A page reads ranges of blocks, weighs what they hold and selects blocks until the budget is crossed.  However
the blocks are split over ranges, the selection is the longest prefix within the budget (`weighted_prefix`).
-/

open Saturating

namespace QueryEngine

/-! ## Selecting -/

/-- A weighted prefix across disjoint, complete ranges of blocks. -/
structure BlockSelection where
  budget : ℕ
  cumulative : ℕ
  blocks : List ℕ
  /-- What each of `blocks` weighs. -/
  weights : List ℕ
  deriving DecidableEq, Repr

namespace BlockSelection

/-- No block selected yet. -/
def new (budget : ℕ) : BlockSelection := ⟨budget, 0, [], []⟩

/-- One block of a range. -/
def offer (s : BlockSelection) (block weight : ℕ) : BlockSelection :=
  let cumulative := add u64Max s.cumulative weight
  if s.blocks = [] ∨ cumulative ≤ s.budget then
    ⟨s.budget, cumulative, s.blocks ++ [block], s.weights ++ [weight]⟩
  else { s with cumulative := cumulative }

/-- Offer the blocks of a range, to the first that crosses the budget.  Returns whether one did. -/
def extend (s : BlockSelection) (weights : ℕ → Option ℕ) : List ℕ → BlockSelection × Bool
  | [] => (s, false)
  | block :: blocks =>
    let next := s.offer block ((weights block).getD 0)
    if next.budget < next.cumulative then (next, true) else next.extend weights blocks

/-- A range of a page: its candidate blocks, and what they weigh. -/
structure Range where
  blocks : List ℕ
  weights : ℕ → Option ℕ

/-- The candidates of a range, each with its weight. -/
def Range.candidates (range : Range) : List (ℕ × ℕ) :=
  range.blocks.map fun block => (block, (range.weights block).getD 0)

/-- Every range offered, whatever the earlier ones returned. -/
def extendAll (s : BlockSelection) (ranges : List Range) : BlockSelection :=
  ranges.foldl (fun s range => (s.extend range.weights range.blocks).1) s

/-- The loop of a page: it stops after the range that crosses the budget, and passes over one without
blocks. -/
def selectPage (s : BlockSelection) : List Range → BlockSelection
  | [] => s
  | range :: ranges =>
    if range.blocks = [] then s.selectPage ranges
    else
      let extended := s.extend range.weights range.blocks
      if extended.2 then extended.1 else extended.1.selectPage ranges

/-! ## What is selected -/

/-- What some candidates weigh together. -/
def total (candidates : List (ℕ × ℕ)) : ℕ := sum u64Max (candidates.map Prod.snd)

/-- **A selection holds of the candidates offered**: it took the longest prefix of them within its budget, and
counts what they weigh, up to where they cross it. -/
structure Holds (s : BlockSelection) (budget : ℕ) (offered : List (ℕ × ℕ)) : Prop where
  bounded : s.budget = budget
  cumulative : total offered ≤ budget ∧ s.cumulative = total offered ∨
    budget < total offered ∧ budget < s.cumulative
  taken : ∃ n, Longest u64Max budget (offered.map Prod.snd) n ∧
    s.blocks = (offered.take n).map Prod.fst ∧ s.weights = (offered.take n).map Prod.snd

variable {s : BlockSelection} {budget : ℕ} {offered : List (ℕ × ℕ)}

theorem Holds.new (budget : ℕ) : (new budget).Holds budget [] :=
  ⟨rfl, .inl ⟨Nat.zero_le _, rfl⟩, 0, .nil, rfl, rfl⟩

/-- Past the budget, nothing offered later is taken. -/
theorem Holds.append (h : s.Holds budget offered) (hover : budget < total offered) (more : List (ℕ × ℕ)) :
    s.Holds budget (offered ++ more) := by
  obtain ⟨n, hn, hblocks, hweights⟩ := h.taken
  have htake : (offered ++ more).take n = offered.take n :=
    List.take_append_of_le_length (by simpa using hn.le_length)
  refine ⟨h.bounded, .inr ⟨?_, ?_⟩, n, ?_, by rw [htake, hblocks], by rw [htake, hweights]⟩
  · rw [total, List.map_append]
    exact hover.trans_le (sum_le_sum_append _ _)
  · rcases h.cumulative with ⟨hle, -⟩ | ⟨-, hlt⟩
    · omega
    · exact hlt
  · rw [List.map_append]
    refine hn.append (fun hnil => ?_) hover _
    rw [total, hnil] at hover
    exact absurd hover (by simp [sum])

/-- One block more, while the budget is not crossed. -/
theorem Holds.offer_within (h : s.Holds budget offered) (hfits : total offered ≤ budget) (block weight : ℕ) :
    (s.offer block weight).Holds budget (offered ++ [(block, weight)]) := by
  obtain ⟨n, hn, hblocks, hweights⟩ := h.taken
  have hcumulative : s.cumulative = total offered := by
    rcases h.cumulative with ⟨-, heq⟩ | ⟨hlt, -⟩
    · exact heq
    · omega
  have htotal : add u64Max s.cumulative weight = total (offered ++ [(block, weight)]) := by
    rw [hcumulative, total, total, List.map_append]
    exact (sum_concat _ _).symm
  -- everything offered so far fits, and is taken
  have hlen : n = offered.length := by
    simpa using hn.unique (Longest.whole (.inr hfits))
  rw [hlen, List.take_length] at hblocks hweights
  have hnil : s.blocks = [] ↔ offered = [] := by rw [hblocks, List.map_eq_nil_iff]
  unfold BlockSelection.offer
  dsimp only
  simp only [htotal, h.bounded, hnil]
  split
  · next hpick =>
    refine ⟨rfl, ?_, offered.length + 1, ?_, ?_, ?_⟩
    · rcases le_or_gt (total (offered ++ [(block, weight)])) budget with hle | hlt
      · exact .inl ⟨hle, rfl⟩
      · exact .inr ⟨hlt, hlt⟩
    · have hwhole : ((offered ++ [(block, weight)]).map Prod.snd).length = offered.length + 1 := by simp
      rw [← hwhole]
      exact Longest.whole (hpick.imp (fun hnil => by simp [hnil]) id)
    · rw [List.take_of_length_le (by simp), hblocks, List.map_append]
      rfl
    · rw [List.take_of_length_le (by simp), hweights, List.map_append]
      rfl
  · next hrefuse =>
    rw [not_or, not_le] at hrefuse
    refine ⟨rfl, .inr ⟨hrefuse.2, hrefuse.2⟩, offered.length, ?_, ?_, ?_⟩
    · have hover := hrefuse.2
      rw [total, List.map_append] at hover
      have hrefused := Longest.refused (by simpa using hrefuse.1) hfits hover
      rw [List.length_map] at hrefused
      rwa [List.map_append]
    · rw [List.take_left, hblocks]
    · rw [List.take_left, hweights]

/-- One block more, past the budget: it is not taken. -/
theorem Holds.offer_over (h : s.Holds budget offered) (hover : budget < total offered) (block weight : ℕ) :
    (s.offer block weight).Holds budget (offered ++ [(block, weight)]) := by
  have hcumulative : budget < s.cumulative := by
    rcases h.cumulative with ⟨hle, -⟩ | ⟨-, hlt⟩
    · omega
    · exact hlt
  have hcap : total offered ≤ u64Max := by
    rw [total, sum_eq]
    exact min_le_right _ _
  have hnext : budget < add u64Max s.cumulative weight := by
    rw [add]
    omega
  have hrefuse : ¬(s.blocks = [] ∨ add u64Max s.cumulative weight ≤ s.budget) := by
    rw [h.bounded, not_or]
    refine ⟨fun hnil => ?_, by omega⟩
    obtain ⟨n, hn, hblocks, -⟩ := h.taken
    rw [hnil, eq_comm, List.map_eq_nil_iff, List.take_eq_nil_iff] at hblocks
    rcases hblocks with rfl | rfl
    · have hlen : 0 < (offered.map Prod.snd).length := List.length_pos_of_ne_nil fun hnil => by
        rw [total, hnil] at hover
        exact absurd hover (by simp [sum])
      exact absurd ((hn.le_iff 1 hlen).mpr (.inl le_rfl)) (by omega)
    · exact absurd hover (by simp [total, sum])
  have hsame := h.append hover [(block, weight)]
  have hover' : budget < total (offered ++ [(block, weight)]) := by
    rw [total, List.map_append]
    exact hover.trans_le (sum_le_sum_append _ _)
  unfold BlockSelection.offer
  dsimp only
  rw [if_neg hrefuse]
  exact ⟨h.bounded, .inr ⟨hover', hnext⟩, hsame.taken⟩

/-- **One block more.** -/
theorem Holds.offer (h : s.Holds budget offered) (block weight : ℕ) :
    (s.offer block weight).Holds budget (offered ++ [(block, weight)]) := by
  rcases le_or_gt (total offered) budget with hfits | hover
  · exact h.offer_within hfits block weight
  · exact h.offer_over hover block weight

/-- The budget is crossed when what is offered crosses it. -/
theorem Holds.lt_cumulative_iff (h : s.Holds budget offered) : s.budget < s.cumulative ↔ budget < total offered := by
  rw [h.bounded]
  rcases h.cumulative with ⟨hle, heq⟩ | ⟨hlt, hlt'⟩
  · rw [heq]
  · exact ⟨fun _ => hlt, fun _ => hlt'⟩

/-- **A range more**, whether or not the budget was crossed before or is now. -/
theorem Holds.extend (weights : ℕ → Option ℕ) : ∀ (blocks : List ℕ) {s : BlockSelection}
    {offered : List (ℕ × ℕ)}, s.Holds budget offered →
    (s.extend weights blocks).1.Holds budget (offered ++ Range.candidates ⟨blocks, weights⟩) ∧
      ((s.extend weights blocks).2 = true →
        budget < total (offered ++ Range.candidates ⟨blocks, weights⟩))
  | [], s, offered, h => by
    rw [Range.candidates, List.map_nil, List.append_nil]
    exact ⟨h, fun hflag => absurd hflag Bool.false_ne_true⟩
  | block :: blocks, s, offered, h => by
    have hsplit : offered ++ Range.candidates ⟨block :: blocks, weights⟩ =
        (offered ++ [(block, (weights block).getD 0)]) ++ Range.candidates ⟨blocks, weights⟩ := by
      simp [Range.candidates]
    have hnext := h.offer block ((weights block).getD 0)
    rw [hsplit, BlockSelection.extend]
    split
    · next hcrossed =>
      have hall := hnext.append (hnext.lt_cumulative_iff.mp hcrossed) (Range.candidates ⟨blocks, weights⟩)
      refine ⟨hall, fun _ => ?_⟩
      rw [total, List.map_append]
      exact (hnext.lt_cumulative_iff.mp hcrossed).trans_le (sum_le_sum_append _ _)
    · exact Holds.extend weights blocks hnext

/-- Every range offered. -/
theorem Holds.extendAll : ∀ (ranges : List Range) {s : BlockSelection} {offered : List (ℕ × ℕ)},
    s.Holds budget offered → (s.extendAll ranges).Holds budget (offered ++ ranges.flatMap Range.candidates)
  | [], s, offered, h => by rwa [List.flatMap_nil, List.append_nil]
  | range :: ranges, s, offered, h => by
    rw [List.flatMap_cons, ← List.append_assoc]
    exact Holds.extendAll ranges (h.extend range.weights range.blocks).1

/-- The loop of a page stops where nothing more is taken. -/
theorem Holds.selectPage : ∀ (ranges : List Range) {s : BlockSelection} {offered : List (ℕ × ℕ)},
    s.Holds budget offered → (s.selectPage ranges).Holds budget (offered ++ ranges.flatMap Range.candidates)
  | [], s, offered, h => by rwa [List.flatMap_nil, List.append_nil]
  | range :: ranges, s, offered, h => by
    rw [List.flatMap_cons, ← List.append_assoc, BlockSelection.selectPage]
    split
    · next hnone =>
      rw [Range.candidates, hnone, List.map_nil, List.append_nil]
      exact Holds.selectPage ranges h
    · obtain ⟨hextended, hover⟩ := h.extend range.weights range.blocks
      dsimp only
      split
      · next hflag => exact hextended.append (hover hflag) _
      · exact Holds.selectPage ranges hextended

/-- Two selections of the same candidates are the same. -/
theorem Holds.unique {other : BlockSelection} (h : s.Holds budget offered) (h' : other.Holds budget offered) :
    s.blocks = other.blocks ∧ s.weights = other.weights := by
  obtain ⟨n, hn, hblocks, hweights⟩ := h.taken
  obtain ⟨m, hm, hblocks', hweights'⟩ := h'.taken
  obtain rfl := hn.unique hm
  exact ⟨hblocks.trans hblocks'.symm, hweights.trans hweights'.symm⟩

/-- **Weighted prefix selection.**  Offering any ranges selects the longest prefix of their candidates that the
budget holds, and the first candidate at least; once one is refused no later one is taken, and how the
candidates are split over ranges changes nothing, nor does stopping at the first range that crosses the
budget. -/
theorem weighted_prefix (budget : ℕ) (ranges : List Range) :
    let s := (new budget).extendAll ranges
    let candidates := ranges.flatMap Range.candidates
    (∃ n, Longest u64Max budget (candidates.map Prod.snd) n ∧
      s.blocks = (candidates.take n).map Prod.fst ∧ s.weights = (candidates.take n).map Prod.snd) ∧
    (∀ later, s.blocks.length < candidates.length →
      (s.extendAll later).blocks = s.blocks ∧ (s.extendAll later).weights = s.weights) ∧
    (∀ others : List Range, others.flatMap Range.candidates = candidates →
      ((new budget).extendAll others).blocks = s.blocks ∧ ((new budget).extendAll others).weights = s.weights) ∧
    ((new budget).selectPage ranges).blocks = s.blocks ∧ ((new budget).selectPage ranges).weights = s.weights := by
  intro s candidates
  have h : s.Holds budget candidates := by simpa using (Holds.new budget).extendAll ranges
  refine ⟨h.taken, fun later hrefused => ?_, fun others hothers => ?_, ?_⟩
  · obtain ⟨n, hn, hblocks, hweights⟩ := h.taken
    obtain ⟨m, hm, hblocks', hweights'⟩ := (h.extendAll later).taken
    have hlt : n < (candidates.map Prod.snd).length := by
      rw [hblocks, List.length_map, List.length_take] at hrefused
      rw [List.length_map]
      omega
    have hfits : n ≤ candidates.length := by simpa using hn.le_length
    rw [List.map_append] at hm
    obtain rfl := hm.unique (hn.append_of_lt hlt _)
    rw [List.take_append_of_le_length hfits] at hblocks' hweights'
    exact ⟨hblocks'.trans hblocks.symm, hweights'.trans hweights.symm⟩
  · have hsame : ((new budget).extendAll others).Holds budget candidates := by
      simpa [hothers] using (Holds.new budget).extendAll others
    exact hsame.unique h
  · have hpage : ((new budget).selectPage ranges).Holds budget candidates := by
      simpa using (Holds.new budget).selectPage ranges
    exact hpage.unique h

/-- A first block that crosses the budget is the page, and blocks of no weight stay with the last that fits. -/
example : (((new 10).selectPage [⟨[], fun _ => none⟩, ⟨[3, 4], fun _ => some 20⟩, ⟨[5], fun _ => none⟩]).blocks,
    ((new 10).selectPage [⟨[3], fun _ => some 10⟩, ⟨[4, 7], fun _ => none⟩, ⟨[8], fun _ => some 1⟩]).blocks) =
    ([3], [3, 4, 7]) := by decide

end BlockSelection

end QueryEngine
