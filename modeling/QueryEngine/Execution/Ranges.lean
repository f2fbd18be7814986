import QueryEngine.Library.Lookup
import QueryEngine.Library.Tiling
import QueryEngine.Output.BlockSelection
import QueryEngine.Scan.RangeEnds

/-!
# Execution/Ranges — where the block ranges of a page end

A page reads complete block ranges, one after the other.  Row groups, an estimate of weights or a count of headers
hint where a range may end; whatever they hint, a range ends no earlier than it starts and the last one reaches the end
of the request (`rangeEnd_spec`).  A selection pass of a deferred page spans a bounded number of headers
(`headers_in_pass`).
-/

open Lookup Fallible

namespace QueryEngine

/-- What the ends of a page's ranges are decided from. -/
structure RangeHints where
  /-- The request's blocks. -/
  fromBlock : ℕ
  toBlock : Option ℕ
  weightBudget : ℕ
  rangeReads : Bool
  /-- Whether payloads are read after selection. -/
  deferred : Bool
  /-- Whether some table has an item that matches every row. -/
  unfiltered : Bool
  /-- Whether one selection pass over the whole request fits the budget, by the footer. -/
  selectionFits : Bool
  /-- The first range, as a narrow size scan estimates it. -/
  initialRangeEnd : Except String (Option ℕ)
  /-- Each table's batch of row groups from a block on, and the column its blocks are in. -/
  tableRangeEnds : List (ℕ → Option ℕ)
  /-- The blocks of the request's headers, ascending; none where payloads are not deferred. -/
  headerNumbers : List ℕ

namespace RangeHints

/-- The header blocks that the first pass over an item without filters spans. -/
def unfilteredSpan : ℕ := 16

/-- The header blocks that a selective pass spans. -/
def selectiveSpan : ℕ := 1024

/-- How many more header blocks the rest of a budget holds, at the weight per header block of those read. -/
def headersBudgetHolds (budget weight headersRead : ℕ) : ℕ :=
  -- headers that weighed nothing say nothing of the ones after them
  if weight = 0 then u64Max
  else min (((budget - weight) * headersRead + (weight - 1)) / weight) u64Max

/-- A range that covers a batch of row groups in every table; nothing when one table cannot tell. -/
def nextRangeEnd (hints : RangeHints) (fromBlock : ℕ) : Option ℕ :=
  (hints.tableRangeEnds.foldlM (fun (e : Option ℕ) (table : ℕ → Option ℕ) =>
    (table fromBlock).map fun hint => some (e.elim hint (max · hint))) none).join

/-- How many header blocks one selection pass may span; nothing when it may span the request. -/
def selectionSpan (hints : RangeHints) (weight headersRead headersLeft : ℕ) : Option ℕ :=
  let holds := headersBudgetHolds hints.weightBudget weight headersRead
  if hints.deferred = false then none
  else if hints.unfiltered = true ∧ headersRead = 0 then some unfilteredSpan
  else if hints.unfiltered = true ∧ holds ≤ selectiveSpan then some (max holds unfilteredSpan)
  -- only a request that a range would split asks the footer
  else if selectiveSpan < headersLeft ∧ hints.selectionFits = true then none
  else some selectiveSpan

/-- How many headers are before a block. -/
def headersRead (hints : RangeHints) (fromBlock : ℕ) : ℕ :=
  partitionPoint (fun block => decide (block < fromBlock)) hints.headerNumbers

/-- Where the header that ends a pass is. -/
def spanEnd (hints : RangeHints) (weight fromBlock : ℕ) : Option ℕ :=
  let first := hints.headersRead fromBlock
  (hints.selectionSpan weight first (hints.headerNumbers.length - first)).bind fun span =>
    hints.headerNumbers[first + span - 1]?

/-- The hint of the chunk, and that of the headers where they tell. -/
def nearer : Option ℕ → Option ℕ → Option ℕ
  | hint, none => hint
  | none, some e => some e
  | some hint, some e => some (min hint e)

/-- The hint a range ends at; one that covers the whole request is none. -/
def hint (hints : RangeHints) (chunkHint : Option ℕ) (weight fromBlock : ℕ) (requestEnd : Option ℕ) : Option ℕ :=
  (nearer chunkHint (hints.spanEnd weight fromBlock)).filter fun e => requestEnd.all fun last => decide (e < last)

/-- What the chunk hints of the range from a block. -/
def chunkHint (hints : RangeHints) (fromBlock : ℕ) (firstRange : Bool) : Except String (Option ℕ) :=
  if hints.rangeReads = false then .ok none
  else if firstRange then hints.initialRangeEnd
  else .ok (hints.nextRangeEnd fromBlock)

/-- Where a range ends with a hint, and whether that is the end of the request. -/
def endAt (hints : RangeHints) (fromBlock : ℕ) (requestEnd : Option ℕ) : Option ℕ → Option ℕ × Bool
  | none => (hints.toBlock, true)
  | some hint =>
    match requestEnd with
    | some last => (some (min (max hint fromBlock) last), decide (min (max hint fromBlock) last = last))
    | none => (some (max hint fromBlock), false)

/-- Where the range from a block ends, and whether it reaches the end of the request. -/
def rangeEnd (hints : RangeHints) (weight fromBlock : ℕ) (firstRange : Bool) (requestEnd : Option ℕ) :
    Except String (Option ℕ × Bool) :=
  (hints.chunkHint fromBlock firstRange).map fun chunkHint =>
    hints.endAt fromBlock requestEnd (hints.hint chunkHint weight fromBlock requestEnd)

/-! ## What a range end is -/

/-- **Where a range may end**: at the end of the request, or before it and no earlier than it starts. -/
structure Ends (toBlock requestEnd : Option ℕ) (fromBlock : ℕ) (found : Option ℕ × Bool) : Prop where
  last : found.2 = true → found.1 = toBlock ∨ found.1 = requestEnd
  inner : found.2 = false → ∃ e, found.1 = some e ∧ fromBlock ≤ e ∧ ∀ last ∈ requestEnd, e < last

variable {hints : RangeHints} {weight fromBlock : ℕ} {firstRange : Bool} {requestEnd : Option ℕ}

/-- **A range ends where it may**, whatever the hints say. -/
theorem rangeEnd_spec {found : Option ℕ × Bool}
    (h : hints.rangeEnd weight fromBlock firstRange requestEnd = .ok found) :
    Ends hints.toBlock requestEnd fromBlock found := by
  obtain ⟨chunkHint, -, rfl⟩ := map_eq_ok.mp h
  cases hints.hint chunkHint weight fromBlock requestEnd with
  | none => exact ⟨fun _ => .inl rfl, fun hinner => absurd hinner (by simp [endAt])⟩
  | some hint =>
    cases requestEnd with
    | none => exact ⟨fun hlast => absurd hlast (by simp [endAt]), fun _ => ⟨_, rfl, le_max_right _ _, by simp⟩⟩
    | some last =>
      refine ⟨fun hlast => .inr (congrArg some (of_decide_eq_true hlast)), fun hinner => ?_⟩
      have hne : min (max hint fromBlock) last ≠ last := of_decide_eq_false hinner
      refine ⟨_, rfl, by omega, fun e he => ?_⟩
      obtain rfl := Option.some.inj he
      omega

/-! ## How many headers a pass spans -/

/-- A pass never spans more headers than a selective one. -/
theorem selectionSpan_le {headersRead headersLeft span : ℕ}
    (h : hints.selectionSpan weight headersRead headersLeft = some span) : 0 < span ∧ span ≤ selectiveSpan := by
  unfold selectionSpan at h
  dsimp only at h
  split_ifs at h with _ _ hholds _
  · obtain rfl := Option.some.inj h
    decide
  · obtain rfl := Option.some.inj h
    exact ⟨lt_max_of_lt_right (by decide), max_le hholds.2 (by decide)⟩
  · obtain rfl := Option.some.inj h
    decide

/-- The headers from a block on are those past the first that reach it. -/
theorem drop_partitionPoint {xs : List ℕ} (h : xs.Pairwise (· < ·)) (fromBlock : ℕ) :
    xs.drop (partitionPoint (fun block => decide (block < fromBlock)) xs) =
      xs.filter fun block => decide (fromBlock ≤ block) := by
  induction xs with
  | nil => rfl
  | cons x xs ih =>
    obtain ⟨hx, hxs⟩ := List.pairwise_cons.mp h
    unfold partitionPoint at ih ⊢
    by_cases hlt : x < fromBlock
    · rw [List.takeWhile_cons_of_pos (by simpa using hlt), List.length_cons, List.drop_succ_cons, ih hxs,
        List.filter_cons_of_neg (by simpa using hlt)]
    · rw [List.takeWhile_cons_of_neg (by simpa using hlt), List.length_nil, List.drop_zero, eq_comm,
        List.filter_eq_self]
      intro y hy
      rcases List.mem_cons.mp hy with rfl | hy
      · simpa using hlt
      · have := hx y hy
        simp only [decide_eq_true_eq]
        omega

/-- The headers of a range. -/
def headersIn (hints : RangeHints) (fromBlock : ℕ) (toBlock : Option ℕ) : List ℕ :=
  hints.headerNumbers.filter fun block => decide (fromBlock ≤ block) && toBlock.all fun e => decide (block ≤ e)

theorem headersIn_eq (h : hints.headerNumbers.Pairwise (· < ·)) (toBlock : Option ℕ) :
    hints.headersIn fromBlock toBlock = (hints.headerNumbers.drop (hints.headersRead fromBlock)).filter fun block =>
      toBlock.all fun e => decide (block ≤ e) := by
  rw [headersRead, drop_partitionPoint h, List.filter_filter, headersIn]
  exact List.filter_congr fun _ _ => Bool.and_comm _ _

/-- The entries of an ascending list up to its `n`th are at most `n`. -/
theorem length_filter_le_of_getElem? {xs : List ℕ} (h : xs.Pairwise (· < ·)) {n e : ℕ} (hget : xs[n]? = some e) :
    (xs.filter fun x => decide (x ≤ e)).length ≤ n + 1 := by
  have hsplit : xs.filter (fun x => decide (x ≤ e)) = (xs.take (n + 1)).filter (fun x => decide (x ≤ e)) := by
    conv_lhs => rw [← List.take_append_drop (n + 1) xs]
    rw [List.filter_append, List.append_right_eq_self, List.filter_eq_nil_iff]
    intro y hy
    obtain ⟨i, hi⟩ := List.mem_iff_getElem?.mp hy
    rw [List.getElem?_drop] at hi
    obtain ⟨hn, rfl⟩ := List.getElem?_eq_some_iff.mp hget
    obtain ⟨hm, rfl⟩ := List.getElem?_eq_some_iff.mp hi
    have := List.pairwise_iff_getElem.mp h n (n + 1 + i) hn hm (by omega)
    simpa using this
  rw [hsplit]
  exact (List.length_filter_le _ _).trans (by simp)

/-- A pass holds no more headers than it may span. -/
theorem headers_in_span (hascending : hints.headerNumbers.Pairwise (· < ·)) {last : ℕ} (hlast : requestEnd = some last)
    (hend : ∀ block ∈ hints.headerNumbers, block ≤ last) {found : Option ℕ × Bool}
    (h : hints.rangeEnd weight fromBlock firstRange requestEnd = .ok found) {span : ℕ}
    (hspan : hints.selectionSpan weight (hints.headersRead fromBlock)
      (hints.headerNumbers.length - hints.headersRead fromBlock) = some span) :
    (hints.headersIn fromBlock found.1).length ≤ span := by
  have hdrop := drop_partitionPoint hascending fromBlock
  have hpos := (selectionSpan_le hspan).1
  obtain ⟨chunkHint, -, rfl⟩ := map_eq_ok.mp h
  rw [headersIn_eq hascending]
  cases hget : hints.headerNumbers[hints.headersRead fromBlock + span - 1]? with
  | none =>
    -- fewer headers are left than the pass spans
    have hlen := List.getElem?_eq_none_iff.mp hget
    refine (List.length_filter_le _ _).trans ?_
    rw [List.length_drop]
    omega
  | some e =>
    have hgetdrop : (hints.headerNumbers.drop (hints.headersRead fromBlock))[span - 1]? = some e := by
      rw [List.getElem?_drop, ← hget]
      congr 1
      omega
    have hbounded := length_filter_le_of_getElem? (hascending.sublist (List.drop_sublist _ _)) hgetdrop
    have hfrom : fromBlock ≤ e := by
      have hmem := List.mem_of_getElem? hgetdrop
      rw [headersRead, hdrop] at hmem
      simpa using (List.mem_filter.mp hmem).2
    have hspanEnd : hints.spanEnd weight fromBlock = some e := by
      rw [spanEnd, hspan]
      exact hget
    obtain ⟨n, hn, hne⟩ : ∃ n, nearer chunkHint (some e) = some n ∧ n ≤ e := by
      cases chunkHint with
      | none => exact ⟨e, rfl, le_rfl⟩
      | some c => exact ⟨min c e, rfl, min_le_right _ _⟩
    -- the range ends at that header or before it, or that header is the request's last
    set found := hints.endAt fromBlock requestEnd (hints.hint chunkHint weight fromBlock requestEnd) with hfound
    have hin : ∀ block ∈ hints.headerNumbers, (found.1.all fun e => decide (block ≤ e)) = true → block ≤ e := by
      intro block hblock hall
      have hle := hend block hblock
      rw [hint, hspanEnd, hn, hlast] at hfound
      by_cases hlt : n < last
      · rw [Option.filter_some, if_pos (by simpa using hlt)] at hfound
        rw [hfound, endAt] at hall
        simp only [Option.all_some, decide_eq_true_eq] at hall
        omega
      · omega
    have hsub : ((hints.headerNumbers.drop (hints.headersRead fromBlock)).filter fun block =>
        found.1.all fun e => decide (block ≤ e)).length ≤
          ((hints.headerNumbers.drop (hints.headersRead fromBlock)).filter fun block => decide (block ≤ e)).length := by
      rw [← List.countP_eq_length_filter, ← List.countP_eq_length_filter]
      exact List.countP_mono_left fun block hblock hall =>
        decide_eq_true (hin block (List.mem_of_mem_drop hblock) hall)
    omega

/-- **A selection pass is bounded**, however row groups overlap and whether or not they have statistics: each range of a
deferred page holds at most as many headers as a selective pass spans, unless the footer says that the whole request's
selection fits; and the first range of a page with an unfiltered item at most as many as its first pass spans. -/
theorem headers_in_pass (hascending : hints.headerNumbers.Pairwise (· < ·)) (hdeferred : hints.deferred = true)
    {last : ℕ} (hlast : requestEnd = some last) (hend : ∀ block ∈ hints.headerNumbers, block ≤ last)
    {found : Option ℕ × Bool} (h : hints.rangeEnd weight fromBlock firstRange requestEnd = .ok found) :
    ((hints.selectionFits = false ∨ hints.headerNumbers.length - hints.headersRead fromBlock ≤ selectiveSpan) →
      (hints.headersIn fromBlock found.1).length ≤ selectiveSpan) ∧
    (hints.unfiltered = true → (∀ block ∈ hints.headerNumbers, fromBlock ≤ block) →
      (hints.headersIn fromBlock found.1).length ≤ unfilteredSpan) := by
  constructor
  · intro hsplit
    obtain ⟨span, hspan⟩ : ∃ span, hints.selectionSpan weight (hints.headersRead fromBlock)
        (hints.headerNumbers.length - hints.headersRead fromBlock) = some span := by
      unfold selectionSpan
      dsimp only
      rw [if_neg (by simp [hdeferred])]
      split_ifs with _ _ hfits
      · exact ⟨_, rfl⟩
      · exact ⟨_, rfl⟩
      · rcases hsplit with hno | hle
        · exact absurd hfits.2 (by simp [hno])
        · omega
      · exact ⟨_, rfl⟩
    exact (headers_in_span hascending hlast hend h hspan).trans (selectionSpan_le hspan).2
  · intro hunfiltered hfrom
    have hread : hints.headersRead fromBlock = 0 := by
      rw [headersRead, partitionPoint, List.length_eq_zero_iff, List.takeWhile_eq_nil_iff]
      intro hne
      simpa using hfrom _ (List.getElem_mem hne)
    refine headers_in_span hascending hlast hend h ?_
    rw [hread, selectionSpan, if_neg (by simp [hdeferred]), if_pos ⟨hunfiltered, rfl⟩]

/-- Twenty headers of an item that matches every row, its payloads deferred. -/
def unfilteredHints : RangeHints :=
  ⟨100, none, 1000, true, true, true, false, .ok none, [], (List.range 20).map (· + 100)⟩

theorem headers_in_pass_unfiltered :
    ((unfilteredHints.selectionFits = false ∨
      unfilteredHints.headerNumbers.length - unfilteredHints.headersRead 100 ≤ selectiveSpan) →
      (unfilteredHints.headersIn 100 (some 115)).length ≤ selectiveSpan) ∧
    (unfilteredHints.unfiltered = true → (∀ block ∈ unfilteredHints.headerNumbers, 100 ≤ block) →
      (unfilteredHints.headersIn 100 (some 115)).length ≤ unfilteredSpan) :=
  @headers_in_pass unfilteredHints 0 100 true (some 119) (by decide) rfl 119 rfl (by decide) (some 115, false) rfl

end RangeHints

end QueryEngine
