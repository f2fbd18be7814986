import QueryEngine.Execution.PageLoop

/-!
# Execution/SelectPage — the page of a request

Wherever the hints let ranges end, they tile the request, the loop ends, and the page is the longest prefix of the
request's candidate blocks within the budget, with every row of each (`page_of_request`).  So hints decide how a page is
read and not what it holds (`page_independent_of_hints`).
-/

open Selection Kleene Fallible Lookup Saturating Tiling

namespace QueryEngine

/-- A range that does not cross a budget leaves it uncrossed. -/
theorem BlockSelection.Holds.total_le_of_extend {budget : ℕ} (weights : ℕ → Option ℕ) :
    ∀ (blocks : List ℕ) {s : BlockSelection} {offered : List (ℕ × ℕ)}, s.Holds budget offered →
    BlockSelection.total offered ≤ budget → (s.extend weights blocks).2 = false →
    BlockSelection.total (offered ++ BlockSelection.Range.candidates ⟨blocks, weights⟩) ≤ budget
  | [], s, offered, _, hle, _ => by rwa [BlockSelection.Range.candidates, List.map_nil, List.append_nil]
  | block :: blocks, s, offered, h, hle, hflag => by
    have hsplit : offered ++ BlockSelection.Range.candidates ⟨block :: blocks, weights⟩ =
        (offered ++ [(block, (weights block).getD 0)]) ++ BlockSelection.Range.candidates ⟨blocks, weights⟩ := by
      simp [BlockSelection.Range.candidates]
    have hnext := h.offer block ((weights block).getD 0)
    rw [BlockSelection.extend] at hflag
    split at hflag
    · cases hflag
    · next hcrossed =>
      rw [hnext.lt_cumulative_iff, not_lt] at hcrossed
      rw [hsplit]
      exact hnext.total_le_of_extend weights blocks hcrossed hflag

namespace PageSource

section Request

variable {p : PageSource} {ι : Type} [DecidableEq ι] {identify : String → ScannedRow → ι} {block weight : ι → ℕ}
  {rows : List (List ScannedRow)} {recorded : String → Bool} {fromBlock : ℕ} {toBlock : Option ℕ} {outputs : Outputs}
    {boundary : List ℕ}

/-! ## What the loop keeps -/

/-- Blocks with what they weigh. -/
def weighed (weight : ℕ → ℕ) (blocks : List ℕ) : List (ℕ × ℕ) := blocks.map fun b => (b, weight b)

theorem weighed_append (weight : ℕ → ℕ) (blocks more : List ℕ) :
    weighed weight (blocks ++ more) = weighed weight blocks ++ weighed weight more := List.map_append

/-- What is kept of a source's rows: the rows, or what identifies them where payloads are read later. -/
def kept (p : PageSource) (source : SourceProjection) (rows : List ScannedRow) : List ScannedRow :=
  if p.hints.deferred then rows.map (ScannedRow.project (rowKey source.desc)) else rows

theorem kept_append (source : SourceProjection) (rows more : List ScannedRow) :
    p.kept source (rows ++ more) = p.kept source rows ++ p.kept source more := by
  unfold kept
  split
  · exact List.map_append
  · rfl

/-- The rows of a source whose blocks pass a test. -/
def rowsWhere (test : ℕ → Bool) (source : SourceProjection × List ScannedRow) : List ScannedRow :=
  source.2.filter fun row => (row.block source.1.desc.blockNumberColumn).any test

/-- What a range leaves of its rows: those in it, of the selected blocks alone where payloads are read later. -/
def leaves (p : PageSource) (fromBlock : ℕ) (toBlock : Option ℕ) (selected : List ℕ) (b : ℕ) : Bool :=
  inSpan fromBlock toBlock b && (!p.hints.deferred || decide (b ∈ selected))

theorem zip_map_fst {sources : List SourceProjection} {rows : List (List ScannedRow)}
    (h : sources.length = rows.length) :
    (sources.zip rows).map Prod.fst = sources := List.map_fst_zip h.le

/-- A page's sources are as many as the request's lists of rows. -/
theorem Reads.length_eq (h : p.Reads identify block weight rows recorded fromBlock toBlock outputs) :
    p.sources.length = rows.length := by
  rw [← h.filtered.length_eq, sources, ← fst_sourcesOf h.present, List.length_map]

/-- What a range reads, source by source. -/
theorem Reads.scannedOf_eq (h : p.Reads identify block weight rows recorded fromBlock toBlock outputs) :
    scannedOf p.tables outputs = (p.sources.zip rows).map (rowsWhere (inSpan fromBlock toBlock)) := by
  have hsources : scannedOf p.tables outputs = (sourcesOf p.tables outputs).map fun s =>
      (s.2.getD .default).scanned := by
    rw [scannedOf, sourcesOf, List.map_flatMap]
    refine List.flatMap_congr fun table ht => ?_
    obtain ⟨output, houtput⟩ := Option.isSome_iff_exists.mp (h.present table ht)
    rw [houtput]
    simp only [Option.getD_some, TableOutput.sourceRows, List.map_cons, List.map_map]
    rfl
  have hzip : p.sources.zip rows = ((sourcesOf p.tables outputs).zip rows).map fun s => (s.1.1, s.2) := by
    rw [sources, ← fst_sourcesOf h.present, List.zip_map_left]
    rfl
  rw [hsources, hzip, List.map_map]
  have hfiltered := h.filtered
  generalize sourcesOf p.tables outputs = read at hfiltered
  clear hsources hzip h
  induction hfiltered with
  | nil => rfl
  | cons hrow _ ih => rw [List.map_cons, List.zip_cons_cons, List.map_cons, ih, hrow]; rfl

/-- **What a range leaves for the page**, source by source. -/
theorem Reads.exists_kept (h : p.Reads identify block weight rows recorded fromBlock toBlock outputs)
    (selected : List ℕ) :
    ∃ left, cond p.hints.deferred (retainSelectedKeys p.tables outputs selected) (.ok outputs) = .ok left ∧
      OutputsRecorded p.tables recorded left ∧
      (∀ table ∈ p.tables, (left table.projection.table).isSome = true) ∧
      scannedOf p.tables left = (p.sources.zip rows).map fun s =>
        p.kept s.1 (rowsWhere (p.leaves fromBlock toBlock selected) s) := by
  cases hdeferred : p.hints.deferred with
  | false =>
    refine ⟨outputs, rfl, h.recorded, h.present, h.scannedOf_eq.trans (List.map_congr_left fun s _ => ?_)⟩
    have hsame : p.leaves fromBlock toBlock selected = inSpan fromBlock toBlock :=
      funext fun b => by simp [leaves, hdeferred]
    rw [kept, if_neg (by simp [hdeferred]), hsame]
  | true =>
    obtain ⟨left, hleft, hrecorded, hpresent, hscanned⟩ := exists_retainSelectedKeys p.distinct h.placed h.recorded
      h.present selected
    refine ⟨left, hleft, hrecorded, hpresent, ?_⟩
    have hzip : List.zipWith (retained selected) p.sources ((p.sources.zip rows).map
        (rowsWhere (inSpan fromBlock toBlock))) =
        (p.sources.zip rows).map fun s => retained selected s.1 (rowsWhere (inSpan fromBlock toBlock) s) :=
      calc _ = List.zipWith (retained selected) ((p.sources.zip rows).map Prod.fst)
            ((p.sources.zip rows).map (rowsWhere (inSpan fromBlock toBlock))) := by rw [zip_map_fst h.length_eq]
        _ = _ := by rw [List.zipWith_map, List.zipWith_self]
    rw [hscanned, h.scannedOf_eq]
    refine hzip.trans (List.map_congr_left fun s _ => ?_)
    rw [retained, kept, if_pos hdeferred, rowsWhere, rowsWhere, List.filter_filter]
    congr 1
    refine List.filter_congr fun row _ => ?_
    cases row.block s.1.desc.blockNumberColumn with
    | none => rfl
    | some b => simp [leaves, hdeferred, Bool.and_comm]

/-- **What the loop keeps** while the budget is not crossed: the ranges read tile the request so far, all their blocks
are selected, and the rows kept of each source are those of the ranges. -/
structure Progress (p : PageSource) (rows : List (List ScannedRow)) (recorded : String → Bool) (candidates : List ℕ)
    (weight : ℕ → ℕ) (s : PageState) (spans : List (ℕ × ℕ)) : Prop where
  tiles : Tiles p.hints.fromBlock spans s.fromBlock
  fits : s.fromBlock ≤ u64Max
  first : s.firstRange = true → spans = []
  holds : s.selection.Holds p.hints.weightBudget (weighed weight (candidates.filter fun b => decide (b < s.fromBlock)))
  within : BlockSelection.total (weighed weight (candidates.filter fun b => decide (b < s.fromBlock))) ≤
    p.hints.weightBudget
  recorded : OutputsRecorded p.tables recorded s.tables
  rows : scannedOf p.tables s.tables = (p.sources.zip rows).map fun source =>
    p.kept source.1 (spans.flatMap fun span => rowsWhere (Tiling.holds span) source)
  readThrough : s.readThrough = none

/-- **The page of a request**: ranges that tile it up to the last one read, which ends at `toBlock`; the longest prefix
of the candidates that the budget holds; and every row of each selected block, source by source, in the order its range
returned it. -/
structure IsPage (p : PageSource) (rows : List (List ScannedRow)) (candidates : List ℕ) (weight : ℕ → ℕ)
    (requestEnd : Option ℕ) (s : PageState) (spans : List (ℕ × ℕ)) (toBlock : Option ℕ) : Prop where
  tiles : Tiles p.hints.fromBlock spans s.fromBlock
  holds : s.selection.Holds p.hints.weightBudget (weighed weight candidates)
  rows : ∃ read : SourceProjection × List ScannedRow → List ScannedRow,
    scannedOf p.tables s.tables = (p.sources.zip rows).map (fun source => p.kept source.1 (read source)) ∧
    ∀ source ∈ p.sources.zip rows, ∀ b ∈ s.selection.blocks,
      ((read source).filter fun row => row.block source.1.desc.blockNumberColumn == some b) =
        source.2.filter fun row => row.block source.1.desc.blockNumberColumn == some b
  /-- Where the page stopped before the end: at the end of the last range, with the budget crossed. -/
  stopped : ∀ e ∈ s.readThrough, toBlock = some e ∧ (∀ last ∈ requestEnd, e < last) ∧
    (∀ b ∈ s.selection.blocks, b ≤ e) ∧
    p.hints.weightBudget < BlockSelection.total (weighed weight (candidates.filter fun b => decide (b ≤ e)))
  /-- Otherwise every candidate was read. -/
  complete : s.readThrough = none → ∀ b ∈ candidates, b < s.fromBlock ∨ inSpan s.fromBlock toBlock b = true

/-- A candidate has a header. -/
theorem Scans.header_of_candidate (h : p.Scans identify block weight rows recorded)
    (hboundary : ∀ b ∈ boundary, b ∈ p.headerBlocks) {b : ℕ} (hb : b ∈ p.candidates identify block rows boundary) :
    b ∈ p.headerBlocks := by
  rw [candidates, mem_sortDedup, List.mem_append] at hb
  rcases hb with hb | hb
  · obtain ⟨s, hs, hb⟩ := List.mem_flatMap.mp hb
    obtain ⟨row, hrow, rfl⟩ := List.mem_map.mp hb
    obtain ⟨header, hheader, heq⟩ := (h.placed s hs row hrow).2
    exact heq ▸ List.mem_map_of_mem hheader
  · cases hall : p.includeAllBlocks with
    | true => rwa [hall] at hb
    | false =>
      rw [hall] at hb
      exact hboundary b hb

/-- A row's block is a candidate. -/
theorem Scans.candidate_of_row (h : p.Scans identify block weight rows recorded)
    {s : SourceProjection × List ScannedRow}
    (hs : s ∈ p.sources.zip rows) {row : ScannedRow} (hrow : row ∈ s.2) : ∃ b,
      row.block s.1.desc.blockNumberColumn = some b ∧ b ∈ p.candidates identify block rows boundary := by
  refine ⟨_, (h.placed s hs row hrow).1, ?_⟩
  rw [candidates, mem_sortDedup, List.mem_append]
  exact .inl (List.mem_flatMap.mpr ⟨s, hs, List.mem_map_of_mem (f := fun row => block (identify s.1.table row)) hrow⟩)

/-- A range offers its blocks with what they weigh. -/
theorem select_eq {reading : RangeReading} {selection : BlockSelection} {budget : ℕ} {offered : List (ℕ × ℕ)}
    {weight : ℕ → ℕ} (h : selection.Holds budget offered)
    (hweights : ∀ b ∈ reading.blocks, (reading.weights b).getD 0 = weight b) :
    (reading.select selection).1.Holds budget (offered ++ weighed weight reading.blocks) ∧
      ((reading.select selection).2 = true →
        budget < BlockSelection.total (offered ++ weighed weight reading.blocks)) ∧
      (BlockSelection.total offered ≤ budget → (reading.select selection).2 = false →
        BlockSelection.total (offered ++ weighed weight reading.blocks) ≤ budget) := by
  have hcandidates : BlockSelection.Range.candidates ⟨reading.blocks, reading.weights⟩ =
      weighed weight reading.blocks := List.map_congr_left fun b hb => by rw [hweights b hb]
  unfold RangeReading.select
  split
  · next hnone =>
    rw [hnone, weighed, List.map_nil, List.append_nil]
    exact ⟨h, fun hflag => absurd hflag Bool.false_ne_true, fun hle _ => hle⟩
  · have hextend := h.extend reading.weights reading.blocks
    rw [hcandidates] at hextend
    refine ⟨hextend.1, hextend.2, fun hle hflag => ?_⟩
    rw [← hcandidates]
    exact h.total_le_of_extend reading.weights reading.blocks hle hflag

/-- What is selected was offered. -/
theorem mem_of_selected {selection : BlockSelection} {budget : ℕ} {weight : ℕ → ℕ} {blocks : List ℕ}
    (h : selection.Holds budget (weighed weight blocks)) {b : ℕ} (hb : b ∈ selection.blocks) : b ∈ blocks := by
  obtain ⟨n, -, htaken, -⟩ := h.taken
  rw [htaken] at hb
  obtain ⟨entry, hentry, rfl⟩ := List.mem_map.mp hb
  obtain ⟨c, hc, rfl⟩ := List.mem_map.mp (List.mem_of_mem_take hentry)
  exact hc

/-- What fits the budget is selected. -/
theorem selected_of_mem {selection : BlockSelection} {budget : ℕ} {weight : ℕ → ℕ} {blocks : List ℕ}
    (h : selection.Holds budget (weighed weight blocks)) (hfits : BlockSelection.total (weighed weight blocks) ≤ budget)
    {b : ℕ} (hb : b ∈ blocks) : b ∈ selection.blocks := by
  obtain ⟨n, hn, htaken, -⟩ := h.taken
  have hlen : n = (weighed weight blocks).length := by simpa using hn.unique (Longest.whole (.inr hfits))
  rw [htaken, hlen, List.take_length, weighed, List.map_map]
  exact List.mem_map.mpr ⟨b, hb, rfl⟩

/-- The candidates a range adds to those before it. -/
theorem filter_step {candidates : List ℕ} (hsorted : candidates.Pairwise (· < ·)) {e : ℕ} (he : fromBlock ≤ e) :
    candidates.filter (fun b => decide (b < fromBlock)) ++ candidates.filter (inSpan fromBlock (some e)) =
      candidates.filter fun b => decide (b < e + 1) := by
  refine (filter_lt_append hsorted fromBlock fun b => decide (b ≤ e)).trans (List.filter_congr fun b _ => ?_)
  rw [Bool.eq_iff_iff, Bool.or_eq_true, decide_eq_true_eq, decide_eq_true_eq, decide_eq_true_eq]
  omega

/-- The candidates of a range that reaches them all are those left. -/
theorem filter_last {candidates : List ℕ} (hsorted : candidates.Pairwise (· < ·))
    (hall : ∀ b ∈ candidates, b < fromBlock ∨ inSpan fromBlock toBlock b = true) :
    candidates.filter (fun b => decide (b < fromBlock)) ++ candidates.filter (inSpan fromBlock toBlock) =
      candidates := by
  refine (filter_lt_append hsorted fromBlock fun b => toBlock.all fun e => decide (b ≤ e)).trans ?_
  refine List.filter_eq_self.mpr fun b hb => ?_
  rw [Bool.or_eq_true, decide_eq_true_eq]
  exact (hall b hb).imp_right fun hin => (Bool.and_eq_true_iff.mp hin).2

/-- A request that no candidate is outside of. -/
structure Bounded (p : PageSource) (boundary : List ℕ) (requestEnd : Option ℕ) : Prop where
  starts : p.hints.fromBlock ≤ u64Max
  initial : ∃ e, p.hints.initialRangeEnd = .ok e
  boundary : ∀ b ∈ boundary, b ∈ p.headerBlocks
  ends : ∀ last ∈ requestEnd, ∀ b ∈ p.headerBlocks, b ≤ last

/-- The last range holds every header from its start on. -/
theorem Bounded.inSpan_last {requestEnd : Option ℕ} (hbounded : p.Bounded boundary requestEnd)
    (h : p.Scans identify block weight rows recorded) {found : Option ℕ × Bool}
    (hends : RangeHints.Ends p.hints.toBlock requestEnd fromBlock found) (hlast : found.2 = true) {b : ℕ}
    (hb : b ∈ p.headerBlocks) (hle : fromBlock ≤ b) : inSpan fromBlock found.1 b = true := by
  obtain ⟨header, hheader, rfl⟩ := List.mem_map.mp hb
  have hin := (Bool.and_eq_true_iff.mp (h.requested header hheader).1).2
  rw [inSpan, Bool.and_eq_true, decide_eq_true_eq]
  refine ⟨hle, ?_⟩
  rcases hends.last hlast with hto | hto
  · rwa [hto]
  · rw [hto, Option.all_eq_true]
    exact fun last hlast => decide_eq_true (hbounded.ends last hlast _ hb)

/-- Where a range ends is known once the size scan is read. -/
theorem exists_rangeEnd (p : PageSource) (h : ∃ e, p.hints.initialRangeEnd = .ok e) (s : PageState)
    (requestEnd : Option ℕ) :
    ∃ found, p.hints.rangeEnd s.selection.cumulative s.fromBlock s.firstRange requestEnd = .ok found := by
  obtain ⟨e, he⟩ := h
  obtain ⟨chunkHint, hchunk⟩ : ∃ c, p.hints.chunkHint s.fromBlock s.firstRange = .ok c := by
    unfold RangeHints.chunkHint
    split_ifs
    · exact ⟨_, rfl⟩
    · exact ⟨e, he⟩
    · exact ⟨_, rfl⟩
  exact ⟨_, map_eq_ok.mpr ⟨chunkHint, hchunk, rfl⟩⟩

/-- The headers of a request are within it. -/
theorem Scans.requested_of_header (h : p.Scans identify block weight rows recorded) {b : ℕ} (hb : b ∈ p.headerBlocks) :
    p.hints.fromBlock ≤ b ∧ b ≤ u64Max := by
  obtain ⟨header, hheader, rfl⟩ := List.mem_map.mp hb
  obtain ⟨hin, hle⟩ := h.requested header hheader
  exact ⟨of_decide_eq_true (Bool.and_eq_true_iff.mp hin).1, hle⟩

/-- **A page is read, or another range follows it**, as `advance` says. -/
theorem advance_cases (s : PageState) (found : Option ℕ × Bool) (extended : BlockSelection × Bool) (tables : Outputs) :
    (∃ e, extended.2 = false ∧ found.2 = false ∧ found.1 = some e ∧ e < u64Max ∧
      s.advance found extended tables = (⟨extended.1, tables, e + 1, false, s.readThrough⟩, false)) ∨
    (extended.2 = true ∧ found.2 = false ∧
      s.advance found extended tables = (⟨extended.1, tables, s.fromBlock, s.firstRange, found.1⟩, true)) ∨
    ((found.2 = true ∨ ∀ e ∈ found.1, u64Max ≤ e) ∧
      s.advance found extended tables = (⟨extended.1, tables, s.fromBlock, s.firstRange, s.readThrough⟩, true)) := by
  cases hlast : found.2 with
  | true => exact .inr (.inr ⟨.inl rfl, by simp [PageState.advance, hlast]⟩)
  | false =>
    cases hcrossed : extended.2 with
    | true => exact .inr (.inl ⟨rfl, rfl, by simp [PageState.advance, hlast, hcrossed]⟩)
    | false =>
      cases hend : found.1 with
      | none =>
        refine .inr (.inr ⟨.inr fun _ h => absurd h (Option.not_mem_none _), ?_⟩)
        simp [PageState.advance, hlast, hcrossed, hend]
      | some e =>
        rcases Nat.lt_or_ge e u64Max with hlt | hge
        · exact .inl ⟨e, rfl, rfl, rfl, hlt, by simp [PageState.advance, hlast, hcrossed, hend, hlt, Option.filter]⟩
        · refine .inr (.inr ⟨.inr fun _ h => Option.some.inj h ▸ hge, ?_⟩)
          simp [PageState.advance, hlast, hcrossed, hend, Nat.not_lt.mpr hge, Option.filter]

/-- A block read by the end of a range has all its rows read, once. -/
theorem Progress.rows_of_block {candidates : List ℕ} {weight : ℕ → ℕ} {s : PageState} {spans : List (ℕ × ℕ)}
    (h : p.Progress rows recorded candidates weight s spans) {selected : List ℕ} {b : ℕ} (hle : p.hints.fromBlock ≤ b)
    (hin : b < s.fromBlock ∨ p.leaves s.fromBlock toBlock selected b = true)
      (source : SourceProjection × List ScannedRow) :
    (((spans.flatMap fun span => rowsWhere (Tiling.holds span) source) ++
      rowsWhere (p.leaves s.fromBlock toBlock selected) source).filter fun row =>
        row.block source.1.desc.blockNumberColumn == some b) =
      source.2.filter fun row => row.block source.1.desc.blockNumberColumn == some b := by
  rw [List.filter_append]
  unfold rowsWhere
  rcases Nat.lt_or_ge b s.fromBlock with hlt | hge
  · rw [h.tiles.filter_flatMap _ _ hle hlt, Tiling.filter_any, if_neg, List.append_nil]
    simp [leaves, inSpan, Nat.not_le.mpr hlt]
  · rw [Tiling.filter_flatMap_eq_nil, List.nil_append, Tiling.filter_any,
      if_pos (hin.resolve_left (Nat.not_lt.mpr hge))]
    intro span hspan
    have hbefore := (h.tiles.span_le span hspan).2.2
    simp [Tiling.holds]
    omega

/-- **One range more** keeps the loop's progress, or ends with the page. -/
theorem Progress.exists_step {requestEnd : Option ℕ} {s : PageState} {spans : List (ℕ × ℕ)}
    (hprogress : p.Progress rows recorded (p.candidates identify block rows boundary)
      (p.blockWeight identify block weight rows) s spans)
    (h : p.Scans identify block weight rows recorded) (hbounded : p.Bounded boundary requestEnd) :
    ∃ next, p.step requestEnd boundary s = .ok next ∧
      (next.2 = false → ∃ e, s.fromBlock ≤ e ∧ next.1.fromBlock = e + 1 ∧
        p.Progress rows recorded (p.candidates identify block rows boundary)
          (p.blockWeight identify block weight rows) next.1 (spans ++ [(s.fromBlock, e)])) ∧
      (next.2 = true → ∃ toBlock, p.IsPage rows (p.candidates identify block rows boundary)
        (p.blockWeight identify block weight rows) requestEnd next.1 spans toBlock) := by
  set candidates := p.candidates identify block rows boundary with hcandidates
  set weight' := p.blockWeight identify block weight rows with hweight'
  have hsorted : candidates.Pairwise (· < ·) := pairwise_sortDedup _
  have hheader : ∀ b ∈ candidates, b ∈ p.headerBlocks := fun b hb => h.header_of_candidate hbounded.boundary hb
  have hrequested : ∀ b ∈ candidates, p.hints.fromBlock ≤ b ∧ b ≤ u64Max :=
    fun b hb => h.requested_of_header (hheader b hb)
  have hfrom := hprogress.tiles.le
  -- where the range ends
  obtain ⟨found, hfound⟩ := p.exists_rangeEnd (hbounded.initial) s requestEnd
  have hends := RangeHints.rangeEnd_spec hfound
  have hlastIn : found.2 = true → ∀ b ∈ p.headerBlocks, s.fromBlock ≤ b → inSpan s.fromBlock found.1 b = true :=
    fun hlast b hb hle => hbounded.inSpan_last h hends hlast hb hle
  -- what it reads
  obtain ⟨reading, hreading, hblocks, hweights, hreads⟩ := @readRange_spec p ι _ identify block weight rows recorded
    s.fromBlock found.1 boundary h hfrom (s.firstRange && found.2) fun hwhole b hb => by
      obtain ⟨hfirst, hlast⟩ := Bool.and_eq_true_iff.mp hwhole
      have hstart : p.hints.fromBlock = s.fromBlock := (hprogress.first hfirst ▸ hprogress.tiles).eq_of_nil
      exact hlastIn hlast b hb (hstart ▸ (h.requested_of_header hb).1)
  rw [← hcandidates] at hblocks
  obtain ⟨hholds, hcrossed, hfits⟩ := select_eq hprogress.holds hweights
  set extended := reading.select s.selection with hextended
  rw [hblocks, ← weighed_append] at hholds hcrossed hfits
  -- what it leaves of its rows
  obtain ⟨left, hleft, hleftRecorded, hpresent, hscanned⟩ := hreads.exists_kept extended.1.blocks
  obtain ⟨tables, htables, htablesRecorded, hrows⟩ := exists_accumulateOutputs p.distinct hprogress.recorded
    hleftRecorded
    hpresent
  rw [hprogress.rows, hscanned, List.zipWith_map, List.zipWith_self] at hrows
  have hselected : ∀ b ∈ extended.1.blocks,
      b ∈ candidates ∧ (b < s.fromBlock ∨ inSpan s.fromBlock found.1 b = true) := by
    intro b hb
    rcases List.mem_append.mp (mem_of_selected hholds hb) with hb | hb
    · exact ⟨(List.mem_filter.mp hb).1, .inl (of_decide_eq_true (List.mem_filter.mp hb).2)⟩
    · exact ⟨(List.mem_filter.mp hb).1, .inr (List.mem_filter.mp hb).2⟩
  have hpageRows : ∃ read : SourceProjection × List ScannedRow → List ScannedRow,
      scannedOf p.tables tables = (p.sources.zip rows).map (fun source => p.kept source.1 (read source)) ∧
      ∀ source ∈ p.sources.zip rows, ∀ b ∈ extended.1.blocks,
        ((read source).filter fun row => row.block source.1.desc.blockNumberColumn == some b) =
          source.2.filter fun row => row.block source.1.desc.blockNumberColumn == some b := by
    refine ⟨fun source => (spans.flatMap fun span => rowsWhere (Tiling.holds span) source) ++
      rowsWhere (p.leaves s.fromBlock found.1 extended.1.blocks) source, ?_, fun source _ b hb => ?_⟩
    · exact hrows.trans (List.map_congr_left fun source _ => (kept_append source.1 _ _).symm)
    · obtain ⟨hb', hwhere⟩ := hselected b hb
      refine hprogress.rows_of_block (hrequested b hb').1 (hwhere.imp_right fun hin => ?_) source
      simp [leaves, hin, hb]
  refine ⟨s.advance found extended tables, ?_, ?_, ?_⟩
  · exact bind_eq_ok.mpr ⟨found, hfound, bind_eq_ok.mpr ⟨reading, hreading, bind_eq_ok.mpr ⟨left, hleft,
      bind_eq_ok.mpr ⟨tables, htables, rfl⟩⟩⟩⟩
  · intro hnext
    rcases advance_cases s found extended tables with ⟨e, hflag, hlast, hto, hlt, heq⟩ | ⟨-, -, heq⟩ | ⟨-, heq⟩
    · obtain ⟨e', he', hle, -⟩ := hends.inner hlast
      obtain rfl : e' = e := Option.some.inj (he'.symm.trans hto)
      rw [heq]
      rw [hto] at hholds hfits hrows
      rw [filter_step hsorted hle] at hholds hfits
      have hwithin := hfits hprogress.within hflag
      refine ⟨e', hle, rfl, ⟨hprogress.tiles.concat hle, Nat.succ_le_of_lt hlt,
        fun hfirst => absurd hfirst Bool.false_ne_true,
        hholds, hwithin, htablesRecorded, ?_, hprogress.readThrough⟩⟩
      refine hrows.trans (List.map_congr_left fun source hsource => ?_)
      -- nothing past the budget: every row of the range is kept
      have hall : rowsWhere (p.leaves s.fromBlock (some e') extended.1.blocks) source =
          rowsWhere (Tiling.holds (s.fromBlock, e')) source := by
        refine List.filter_congr fun row hrow => ?_
        obtain ⟨b, hb, hmem⟩ := h.candidate_of_row hsource hrow
        rw [hb, Option.any_some, Option.any_some, leaves]
        change (Tiling.holds (s.fromBlock, e') b && _) = _
        cases hin : Tiling.holds (s.fromBlock, e') b with
        | false => rfl
        | true =>
          have hb' : b ≤ e' := of_decide_eq_true (Bool.and_eq_true_iff.mp hin).2
          have hsel : b ∈ extended.1.blocks := selected_of_mem hholds hwithin
            (List.mem_filter.mpr ⟨hmem, decide_eq_true (Nat.lt_succ_of_le hb')⟩)
          simp [hsel]
      rw [hall, ← kept_append, List.flatMap_append, List.flatMap_singleton]
    · rw [heq] at hnext
      cases hnext
    · rw [heq] at hnext
      cases hnext
  · intro hnext
    refine ⟨found.1, ?_⟩
    rcases advance_cases s found extended tables with ⟨e, -, -, -, -, heq⟩ | ⟨hflag, hlast, heq⟩ | ⟨hlast, heq⟩
    · rw [heq] at hnext
      cases hnext
    · -- the budget is crossed before the end: nothing after this range is selected
      obtain ⟨e, hto, hle, hend⟩ := hends.inner hlast
      have hover := hcrossed hflag
      rw [hto, filter_step hsorted hle] at hholds hover
      have hsplit : weighed weight' candidates =
          weighed weight' (candidates.filter fun b => decide (b < e + 1)) ++
            weighed weight' (candidates.filter fun b => decide (e + 1 ≤ b) && true) := by
        rw [← weighed_append, filter_lt_append hsorted, List.filter_eq_self.mpr fun b _ => Bool.or_true _]
      rw [heq]
      refine ⟨hprogress.tiles, hsplit ▸ hholds.append hover _, hpageRows, fun e' he' => ?_, fun hnone => ?_⟩
      · obtain rfl : e = e' := Option.some.inj (hto.symm.trans he')
        refine ⟨hto, hend, fun b hb => ?_, ?_⟩
        · exact Nat.le_of_lt_succ (of_decide_eq_true (List.mem_filter.mp (mem_of_selected hholds hb)).2)
        · simpa only [Nat.lt_succ_iff] using hover
      · rw [hto] at hnone
        cases hnone
    · have hall : ∀ b ∈ candidates, b < s.fromBlock ∨ inSpan s.fromBlock found.1 b = true := by
        intro b hb
        refine (Nat.lt_or_ge b s.fromBlock).imp_right fun hge => ?_
        rcases hlast with hlast | hlast
        · exact hlastIn hlast b (hheader b hb) hge
        · rw [inSpan, Bool.and_eq_true, decide_eq_true_eq, Option.all_eq_true]
          exact ⟨hge, fun e he => decide_eq_true ((hrequested b hb).2.trans (hlast e he))⟩
      rw [filter_last hsorted hall] at hholds
      rw [heq]
      refine ⟨hprogress.tiles, hholds, hpageRows, fun e he => ?_, fun _ => hall⟩
      rw [hprogress.readThrough] at he
      cases he

/-- Before the first range nothing is kept. -/
theorem Scans.progress_start (h : p.Scans identify block weight rows recorded) (hstarts : p.hints.fromBlock ≤ u64Max)
    (hboundary : ∀ b ∈ boundary, b ∈ p.headerBlocks) :
    p.Progress rows recorded (p.candidates identify block rows boundary)
      (p.blockWeight identify block weight rows) p.start [] := by
  obtain ⟨outputs, -, hreads⟩ := h.scans p.hints.fromBlock p.hints.toBlock le_rfl
  have hnone : weighed (p.blockWeight identify block weight rows)
      ((p.candidates identify block rows boundary).filter fun b => decide (b < p.hints.fromBlock)) = [] := by
    rw [weighed, List.filter_eq_nil_iff.mpr fun b hb => ?_, List.map_nil]
    have hle := (h.requested_of_header (h.header_of_candidate hboundary hb)).1
    simpa using hle
  refine ⟨.nil _, hstarts, fun _ => rfl, ?_, ?_, fun table _ => ⟨Rows.recorded_default _, ?_⟩, ?_, rfl⟩
  · exact hnone ▸ BlockSelection.Holds.new _
  · exact hnone ▸ Nat.zero_le _
  · exact fun target _ => Rows.recorded_default _
  · have hempty : scannedOf p.tables (fun _ => none) = p.sources.map fun _ => [] := by
      rw [scannedOf, sources, List.map_flatMap]
      refine List.flatMap_congr fun table _ => ?_
      rw [List.map_cons]
      simp only [Option.getD_none, TableOutput.sourceRows, List.map_cons, List.map_map]
      refine congrArg _ ((List.map_congr_left fun _ _ => rfl).trans ?_)
      exact (List.map_map (l := table.targets.zipIdx) (f := Prod.fst) (g := fun _ => ([] : List ScannedRow))).symm.trans
        (congrArg _ (List.zipIdx_map_fst _ _))
    refine hempty.trans ?_
    conv_lhs => rw [← zip_map_fst hreads.length_eq, List.map_map]
    refine List.map_congr_left fun source _ => ?_
    simp [kept]

/-- **The loop ends with the page**: it takes no more steps than there are blocks left. -/
theorem Progress.exists_loop {requestEnd : Option ℕ} (h : p.Scans identify block weight rows recorded)
    (hbounded : p.Bounded boundary requestEnd) : ∀ (steps : ℕ) {s : PageState} {spans : List (ℕ × ℕ)},
    p.Progress rows recorded (p.candidates identify block rows boundary)
      (p.blockWeight identify block weight rows) s spans →
    u64Max < s.fromBlock + steps → ∃ last spans toBlock, p.loop requestEnd boundary steps s = .ok (some last) ∧
      p.IsPage rows (p.candidates identify block rows boundary) (p.blockWeight identify block weight rows) requestEnd
        last
        spans toBlock
  | 0, s, spans, hprogress, hsteps => by
    have := hprogress.fits
    omega
  | steps + 1, s, spans, hprogress, hsteps => by
    obtain ⟨next, hnext, hmore, hdone⟩ := hprogress.exists_step h hbounded
    cases hlast : next.2 with
    | true =>
      obtain ⟨toBlock, hpage⟩ := hdone hlast
      refine ⟨next.1, spans, toBlock, ?_, hpage⟩
      exact bind_eq_ok.mpr ⟨next, hnext, if_pos hlast⟩
    | false =>
      obtain ⟨e, hle, hfrom, hprogress'⟩ := hmore hlast
      obtain ⟨last, spans', toBlock, hloop, hpage⟩ := hprogress'.exists_loop h hbounded steps (by omega)
      refine ⟨last, spans', toBlock, ?_, hpage⟩
      exact bind_eq_ok.mpr ⟨next, hnext, by rw [if_neg (by simp [hlast]), hloop]⟩

/-! ## From the request to its page -/

/-- The same source under other hints. -/
def withHints (p : PageSource) (hints : RangeHints) : PageSource := { p with hints }

/-- Hints that leave the request as it is say nothing of its rows. -/
theorem Scans.withHints (h : p.Scans identify block weight rows recorded) {hints : RangeHints}
    (hfrom : hints.fromBlock = p.hints.fromBlock) (hto : hints.toBlock = p.hints.toBlock) :
    (p.withHints hints).Scans identify block weight rows recorded := by
  refine ⟨h.headers, fun header hheader => ?_, h.placed, fun fromBlock toBlock hle => ?_⟩
  · change inSpan hints.fromBlock hints.toBlock header.1 = true ∧ _
    rw [hfrom, hto]
    exact h.requested header hheader
  · obtain ⟨outputs, hok, hreads⟩ := h.scans fromBlock toBlock (hfrom ▸ hle)
    exact ⟨outputs, hok, hreads.recorded, hreads.present, hreads.placed, hreads.filtered, hreads.identified⟩

/-- A list with an entry has a greatest one. -/
theorem exists_max? {xs : List ℕ} {x : ℕ} (h : x ∈ xs) :
    ∃ greatest, xs.max? = some greatest ∧ ∀ y ∈ xs, y ≤ greatest := by
  obtain ⟨greatest, hgreatest⟩ := Option.isSome_iff_exists.mp (List.isSome_max?_of_mem h)
  exact ⟨greatest, hgreatest, fun y hy => (List.max?_eq_some_iff.mp hgreatest).2 y hy⟩

/-- The boundary blocks of a request bound its headers. -/
theorem Scans.exists_boundary (h : p.Scans identify block weight rows recorded) (hstarts : p.hints.fromBlock ≤ u64Max)
    (hinitial : ∃ e, p.hints.initialRangeEnd = .ok e) :
    ∃ boundary, boundaryBlocks p.headers p.blocks.blockNumberColumn = .ok boundary ∧
      p.Bounded boundary (p.requestEnd boundary) := by
  obtain ⟨blocks, hok, hmem⟩ := collectBlockNumbers_eq h.headers
  have hheader : ∀ b, b ∈ blocks ↔ b ∈ p.headerBlocks := fun b => by
    rw [hmem, headerBlocks, mem_headerRows]
  refine ⟨blocks.min?.toList ++ blocks.max?.toList, map_eq_ok.mpr ⟨blocks, hok, rfl⟩, hstarts, hinitial, ?_, ?_⟩
  · intro b hb
    rcases List.mem_append.mp hb with hb | hb
    · exact (hheader b).mp (List.min?_mem (Option.mem_toList.mp hb))
    · exact (hheader b).mp (List.max?_mem (Option.mem_toList.mp hb))
  · intro last hlast b hb
    obtain ⟨header, hmem, rfl⟩ := List.mem_map.mp hb
    have hblock := (hheader header.1).mpr hb
    have hto := (Bool.and_eq_true_iff.mp (h.requested header hmem).1).2
    rw [Option.all_eq_true] at hto
    obtain ⟨greatest, hgreatest, hle⟩ := exists_max? hblock
    have hmem : greatest ∈ blocks.min?.toList ++ blocks.max?.toList :=
      List.mem_append_right _ (Option.mem_toList.mpr hgreatest)
    obtain ⟨last', hlast', hle'⟩ := exists_max? hmem
    have hbelow := (hle _ hblock).trans (hle' _ hmem)
    rw [requestEnd, hlast', Option.map_some, Option.some_or] at hlast
    obtain rfl := Option.some.inj hlast
    cases hrequest : p.hints.toBlock with
    | none => exact hbelow
    | some e => exact le_min (of_decide_eq_true (hto e hrequest)) hbelow

/-- **What a page holds of its request**: the longest prefix of the candidates that the budget holds, with every row of
each block in it, source by source; and where it stopped before the end, no candidate up to there is left to read. -/
structure Answers (p : PageSource) (rows : List (List ScannedRow)) (candidates : List ℕ) (weight : ℕ → ℕ)
    (page : Page) : Prop where
  selected : ∃ n, n ≠ 0 ∧ Longest u64Max p.hints.weightBudget (candidates.map weight) n ∧
    page.blocks = candidates.take n ∧ page.weights = (candidates.take n).map weight
  rows : ∃ read : SourceProjection × List ScannedRow → List ScannedRow,
    scannedOf p.tables page.tables = (p.sources.zip rows).map (fun source => p.kept source.1 (read source)) ∧
    ∀ source ∈ p.sources.zip rows, ∀ b ∈ page.blocks,
      ((read source).filter fun row => row.block source.1.desc.blockNumberColumn == some b) =
        source.2.filter fun row => row.block source.1.desc.blockNumberColumn == some b
  headers : page.headers = p.headers
  stopped : ∀ e ∈ page.readThrough, (∀ b ∈ page.blocks, b ≤ e) ∧
    p.hints.weightBudget < BlockSelection.total (weighed weight (candidates.filter fun b => decide (b ≤ e)))

/-- A longest prefix is empty where there is nothing to take alone. -/
theorem taken_eq_nil {budget n : ℕ} {weights : List ℕ} (h : Longest u64Max budget weights n) :
    n = 0 ↔ weights = [] := by
  constructor
  · rintro rfl
    by_contra hne
    exact absurd ((h.le_iff 1 (List.length_pos_of_ne_nil hne)).mpr (.inl le_rfl)) (by omega)
  · rintro rfl
    exact Nat.le_zero.mp h.le_length

/-- The page that a loop's end is made into answers its request. -/
theorem IsPage.answers {candidates : List ℕ} {weight : ℕ → ℕ} {requestEnd : Option ℕ} {s : PageState}
    {spans : List (ℕ × ℕ)}
    (h : p.IsPage rows candidates weight requestEnd s spans toBlock) :
    (candidates = [] → p.page s = none) ∧
      (candidates ≠ [] → ∃ page, p.page s = some page ∧ p.Answers rows candidates weight page) := by
  obtain ⟨n, hn, hblocks, hweights⟩ := h.holds.taken
  rw [weighed, List.map_map] at hn
  rw [weighed, ← List.map_take, List.map_map] at hblocks hweights
  replace hblocks : s.selection.blocks = candidates.take n := hblocks.trans (List.map_id _)
  constructor
  · intro hempty
    exact if_pos (by rw [hblocks, hempty, List.take_nil])
  · intro hne
    have hn0 : n ≠ 0 := fun h0 => hne (List.map_eq_nil_iff.mp ((taken_eq_nil hn).mp h0))
    have hfull : s.selection.blocks ≠ [] := by
      rw [hblocks, Ne, List.take_eq_nil_iff]
      exact fun h0 => h0.elim hn0 hne
    refine ⟨_, if_neg hfull, ⟨n, hn0, hn, hblocks, hweights⟩, h.rows, rfl, fun e he => ?_⟩
    obtain ⟨-, -, hle, hover⟩ := h.stopped e he
    exact ⟨hle, hover⟩

/-- **Range after range, a request's page is selected.** -/
theorem Scans.exists_selectRanges (h : p.Scans identify block weight rows recorded)
    (hstarts : p.hints.fromBlock ≤ u64Max)
    (hinitial : ∃ e, p.hints.initialRangeEnd = .ok e) {steps : ℕ} (hsteps : u64Max < p.hints.fromBlock + steps) :
    ∃ boundary last spans toBlock, boundaryBlocks p.headers p.blocks.blockNumberColumn = .ok boundary ∧
      p.selectRanges steps = .ok (some last) ∧ p.IsPage rows (p.candidates identify block rows boundary)
        (p.blockWeight identify block weight rows) (p.requestEnd boundary) last spans toBlock := by
  obtain ⟨boundary, hboundary, hbounded⟩ := h.exists_boundary hstarts hinitial
  obtain ⟨numbers, hnumbers⟩ : ∃ numbers, cond p.hints.deferred
      (collectBlockNumbers p.headers p.blocks.blockNumberColumn) (.ok []) = .ok numbers := by
    cases p.hints.deferred with
    | false => exact ⟨[], rfl⟩
    | true => exact (collectBlockNumbers_eq h.headers).imp fun _ hok => hok.1
  -- counting the headers leaves the request as it is
  have hcounted : (p.withHeaderNumbers numbers).Scans identify block weight rows recorded :=
    @Scans.withHints p ι _ identify block weight rows recorded h
      { p.hints with headerNumbers := sortDedup numbers } rfl rfl
  have hbounded' : (p.withHeaderNumbers numbers).Bounded boundary (p.requestEnd boundary) :=
    ⟨hbounded.starts, hbounded.initial, hbounded.boundary, hbounded.ends⟩
  obtain ⟨last, spans, toBlock, hloop, hpage⟩ := (hcounted.progress_start hstarts hbounded.boundary).exists_loop
    hcounted
    hbounded' steps hsteps
  exact ⟨boundary, last, spans, toBlock, hboundary,
    bind_eq_ok.mpr ⟨boundary, hboundary, bind_eq_ok.mpr ⟨numbers, hnumbers, hloop⟩⟩,
    hpage.tiles, hpage.holds, hpage.rows, hpage.stopped, hpage.complete⟩

end Request

/-! ### One log in three blocks -/

/-- Logs, with what they weigh. -/
def logProjection : SourceProjection := ⟨"logs", ⟨"block_number", none, ["log_index"]⟩, ⟨1, ["data_size"]⟩⟩

/-- A log in block 6, as one row group holds it. -/
def oneLog : Rows := ⟨[weighedBatch [6]], some [[0]], by simp [aligned, weighedBatch]⟩

/-- The log of a chunk with headers at 5, 6 and 9. -/
def logSource : PageSource where
  hints := ⟨5, some 9, 30, true, false, false, false, .ok (some 6), [fun from_ => some from_], []⟩
  tables := [⟨logProjection, []⟩]
  distinct := List.nodup_singleton _
  includeAllBlocks := false
  blocks := ⟨"block_number", none, []⟩
  headerWeight := ⟨10, []⟩
  headers := [weighedBatch [5, 6, 9]]
  hasher := fun _ => 0
  scanTables := fun fromBlock toBlock => .ok fun table =>
    if table = "logs" then some ⟨if inSpan fromBlock toBlock 6 then oneLog else .default, fun _ => none⟩ else none

/-- A range reads the log where it holds block 6. -/
theorem logSource_reads (fromBlock : ℕ) (toBlock : Option ℕ) : logSource.Reads (fun _ row => row.position.getD 0)
    (fun _ => 6) (fun _ => 4) [oneLog.scanned] (fun _ => true) fromBlock toBlock (fun table =>
      if table = "logs" then some ⟨if inSpan fromBlock toBlock 6 then oneLog else .default, fun _ => none⟩ else
        none) := by
  have hrow : ∀ row ∈ oneLog.scanned, row.block "block_number" = some 6 := by decide
  have hentries : (⟨"logs", logProjection.desc, logProjection.weight, oneLog⟩ : WeighedRows).entries =
      [⟨⟨"logs", logProjection.desc, logProjection.weight, oneLog⟩, weighedBatch [6], 0, 6, some 0⟩] := rfl
  have hnone : (⟨"logs", logProjection.desc, logProjection.weight, .default⟩ : WeighedRows).entries = [] := rfl
  have htables : logSource.tables = [⟨logProjection, []⟩] := rfl
  have hname : logProjection.table = "logs" := rfl
  cases hin : inSpan fromBlock toBlock 6 with
  | false =>
    refine ⟨?_, ?_, ?_, ?_, ?_⟩
    · rw [OutputsRecorded, htables, List.forall_mem_singleton]
      exact ⟨Rows.recorded_default _, fun _ hmem => absurd hmem List.not_mem_nil⟩
    · rw [htables, List.forall_mem_singleton]
      rfl
    · change ∀ s ∈ [(logProjection, some Rows.default)], _
      rw [List.forall_mem_singleton]
      exact fun batch hmem => absurd hmem List.not_mem_nil
    · refine .cons ?_ .nil
      exact (List.filter_eq_nil_iff.mpr fun row hmem => by
        change ¬((row.block "block_number").any _ = true)
        rw [hrow row hmem]; simp [hin]).symm
    · change Identified [⟨"logs", logProjection.desc, logProjection.weight, .default⟩] _ _ _
      constructor
      all_goals simp [hnone]
  | true =>
    refine ⟨?_, ?_, ?_, ?_, ?_⟩
    · rw [OutputsRecorded, htables, List.forall_mem_singleton]
      exact ⟨fun _ => rfl, fun _ hmem => absurd hmem List.not_mem_nil⟩
    · rw [htables, List.forall_mem_singleton]
      rfl
    · change ∀ s ∈ [(logProjection, some oneLog)], _
      rw [List.forall_mem_singleton]
      exact List.forall_mem_singleton.mpr rfl
    · refine .cons ?_ .nil
      exact (List.filter_eq_self.mpr fun row hmem => by
        change (row.block "block_number").any _ = true
        rw [hrow row hmem]; simp [hin]).symm
    · change Identified [⟨"logs", logProjection.desc, logProjection.weight, oneLog⟩] _ _ _
      constructor
      all_goals simp [hentries]
      rfl

theorem logSource_scans : logSource.Scans (fun _ row => row.position.getD 0) (fun _ => 6) (fun _ => 4) [oneLog.scanned]
    fun _ => true := by
  have hrow : ∀ row ∈ oneLog.scanned, row.block "block_number" = some 6 := by decide
  refine ⟨by simp [logSource]; decide, by decide, ?_, fun fromBlock toBlock _ =>
    ⟨_, rfl, logSource_reads fromBlock toBlock⟩⟩
  change ∀ s ∈ [(logProjection, oneLog.scanned)], _
  simp only [List.forall_mem_singleton]
  exact fun row hmem => ⟨hrow row hmem, (6, 10), by decide, rfl⟩

/-! ## The page -/

section Page

variable {p : PageSource} {ι : Type} [DecidableEq ι] {identify : String → ScannedRow → ι} {block weight : ι → ℕ}
  {rows : List (List ScannedRow)} {recorded : String → Bool}

/-- **The page of a request.**  Whatever the hints, reading range after range ends: with no page where the request
reaches no block, and else with the longest prefix of its candidate blocks that the budget holds, the first at least;
each block weighs its header and its rows once, and comes with all of its rows, source by source; and a page that
stopped before the end of the request has read the budget's worth of blocks. -/
theorem page_of_request (h : p.Scans identify block weight rows recorded) (hstarts : p.hints.fromBlock ≤ u64Max)
    (hinitial : ∃ e, p.hints.initialRangeEnd = .ok e) {steps : ℕ} (hsteps : u64Max < p.hints.fromBlock + steps) :
    ∃ boundary found, boundaryBlocks p.headers p.blocks.blockNumberColumn = .ok boundary ∧
      p.selectPage steps = .ok (some found) ∧
      (p.candidates identify block rows boundary = [] → found = none) ∧
      (p.candidates identify block rows boundary ≠ [] → ∃ page, found = some page ∧
        p.Answers rows (p.candidates identify block rows boundary) (p.blockWeight identify block weight rows) page) :=
          by
  obtain ⟨boundary, last, spans, toBlock, hboundary, hranges, hpage⟩ := h.exists_selectRanges hstarts hinitial hsteps
  obtain ⟨hnone, hsome⟩ := hpage.answers
  exact ⟨boundary, p.page last, hboundary, map_eq_ok.mpr ⟨some last, hranges, rfl⟩, hnone, hsome⟩

theorem page_of_logSource : ∃ boundary found, boundaryBlocks logSource.headers "block_number" = .ok boundary ∧
    logSource.selectPage u64Max = .ok (some found) ∧
    (logSource.candidates (fun _ row => row.position.getD 0) (fun _ => 6) [oneLog.scanned] boundary = [] → found =
      none) ∧
    (logSource.candidates (fun _ row => row.position.getD 0) (fun _ => 6) [oneLog.scanned] boundary ≠ [] →
      ∃ page, found = some page ∧ logSource.Answers [oneLog.scanned]
        (logSource.candidates (fun _ row => row.position.getD 0) (fun _ => 6) [oneLog.scanned] boundary)
        (logSource.blockWeight (fun _ row => row.position.getD 0) (fun _ => 6) (fun _ => 4) [oneLog.scanned]) page) :=
  page_of_request logSource_scans (by decide) ⟨_, rfl⟩ (by decide)

/-- **Two pages hold the same**: the same blocks, what they weigh, and the rows of each. -/
structure Agrees (p q : PageSource) (rows : List (List ScannedRow)) (page page' : Page) : Prop where
  blocks : page.blocks = page'.blocks
  weights : page.weights = page'.weights
  rows : ∃ read read' : SourceProjection × List ScannedRow → List ScannedRow,
    scannedOf p.tables page.tables = (p.sources.zip rows).map (fun source => p.kept source.1 (read source)) ∧
    scannedOf q.tables page'.tables = (p.sources.zip rows).map (fun source => q.kept source.1 (read' source)) ∧
    ∀ source ∈ p.sources.zip rows, ∀ b ∈ page.blocks,
      ((read source).filter fun row => row.block source.1.desc.blockNumberColumn == some b) =
        (read' source).filter fun row => row.block source.1.desc.blockNumberColumn == some b

/-- **Hints decide how a page is read, not what it holds.**  Reading a request range by range, in whatever ranges
statistics, the size scan and the header counts suggest, and with payloads deferred or not, gives the page that one read
of the whole request gives: the same blocks, what they weigh, and the rows of each. -/
theorem page_independent_of_hints (h : p.Scans identify block weight rows recorded)
    (hstarts : p.hints.fromBlock ≤ u64Max)
    {hints : RangeHints} (hfrom : hints.fromBlock = p.hints.fromBlock) (hto : hints.toBlock = p.hints.toBlock)
    (hbudget : hints.weightBudget = p.hints.weightBudget) (hinitial : ∃ e, p.hints.initialRangeEnd = .ok e)
    (hinitial' : ∃ e, hints.initialRangeEnd = .ok e) {steps : ℕ} (hsteps : u64Max < p.hints.fromBlock + steps) :
    ∃ found found', p.selectPage steps = .ok (some found) ∧ (p.withHints hints).selectPage steps = .ok (some found') ∧
      Option.Rel (p.Agrees (p.withHints hints) rows) found found' := by
  obtain ⟨boundary, last, _, _, hboundary, hranges, hpage⟩ := h.exists_selectRanges hstarts hinitial hsteps
  obtain ⟨boundary', last', _, _, hboundary', hranges', hpage'⟩ := @Scans.exists_selectRanges
    (p.withHints hints) ι _ identify
    block weight rows recorded (h.withHints hfrom hto) (hfrom.symm ▸ hstarts) hinitial' steps (hfrom.symm ▸ hsteps)
  obtain rfl : boundary' = boundary := Except.ok.inj (hboundary'.symm.trans hboundary)
  refine ⟨_, _, map_eq_ok.mpr ⟨some last, hranges, rfl⟩, map_eq_ok.mpr ⟨some last', hranges', rfl⟩, ?_⟩
  obtain ⟨hnone, hsome⟩ := hpage.answers
  obtain ⟨hnone', hsome'⟩ := hpage'.answers
  by_cases hempty : p.candidates identify block rows boundary' = []
  · rw [hnone hempty, hnone' hempty]
    exact .none
  · obtain ⟨page, hsomePage, hpage⟩ := hsome hempty
    obtain ⟨page', hsomePage', hpage'⟩ := hsome' hempty
    rw [hsomePage, hsomePage']
    obtain ⟨n, -, hn, hblocks, hweights⟩ := hpage.selected
    obtain ⟨n', -, hn', hblocks', hweights'⟩ := hpage'.selected
    obtain rfl : n' = n := (hbudget ▸ hn').unique hn
    obtain ⟨read, hread, hrows⟩ := hpage.rows
    obtain ⟨read', hread', hrows'⟩ := hpage'.rows
    have hsame : page'.blocks = page.blocks := hblocks'.trans hblocks.symm
    refine .some ⟨hsame.symm, hweights.trans hweights'.symm, read, read', hread, hread', fun source hsource b hb => ?_⟩
    exact (hrows source hsource b hb).trans (hrows' source hsource b (hsame.symm ▸ hb)).symm

/-- The log's request as one read. -/
def wholeRequest : RangeHints := ⟨5, some 9, 30, false, true, false, true, .ok none, [], []⟩

theorem page_independent_of_wholeRequest : ∃ found found', logSource.selectPage u64Max = .ok (some found) ∧
    (logSource.withHints wholeRequest).selectPage u64Max = .ok (some found') ∧
      Option.Rel (logSource.Agrees (logSource.withHints wholeRequest) [oneLog.scanned]) found found' :=
  @page_independent_of_hints logSource ℕ _ _ _ _ _ _ logSource_scans (by decide) wholeRequest rfl rfl rfl ⟨_, rfl⟩
    ⟨_, rfl⟩
    u64Max (by decide)

end Page

end PageSource

end QueryEngine
