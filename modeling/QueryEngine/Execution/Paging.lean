import QueryEngine.Execution.SelectPage

/-!
# Execution/Paging — a request read page after page

A client that continues from the block after a page's last one reads every row of the request, once,
  whatever the budgets
and hints of its pages, in no more pages than there are headers (`pages_of_request`).
-/

open Selection Kleene Fallible Lookup Saturating Tiling

namespace QueryEngine

namespace PageSource

/-- The rest of a request after a block. -/
def after (p : PageSource) (last : ℕ) : Except String PageSource :=
  (p.headers.mapM (filterToBlocks p.blocks.blockNumberColumn fun b => decide (last < b))).map fun headers =>
    { p with hints := { p.hints with fromBlock := last + 1 }, headers }

/-- A request read under some budget and hints. -/
def asked (p : PageSource) (hints : RangeHints) : PageSource :=
  p.withHints { hints with fromBlock := p.hints.fromBlock, toBlock := p.hints.toBlock }

/-- The pages of a request, each from the block after the last one's: as many as there are hints, or until no block is
left. -/
def pages (steps : ℕ) : List RangeHints → PageSource → Except String (List Page)
  | [], _ => .ok []
  | hints :: more, p => do
    match ← (p.asked hints).selectPage steps with
    | some (some page) =>
      let last := page.blocks.getLastD 0
      if last < u64Max then do
        let rest ← p.after last
        let later ← pages steps more rest
        .ok (page :: later)
      else .ok [page]
    | _ => .ok []

section Rest

variable {p : PageSource} {ι : Type} [DecidableEq ι] {identify : String → ScannedRow → ι} {block weight : ι → ℕ}
  {rows : List (List ScannedRow)} {recorded : String → Bool}

/-- The rows of a source after a block. -/
def rowsAfter (last : ℕ) (source : SourceProjection × List ScannedRow) : List ScannedRow :=
  rowsWhere (fun b => decide (last < b)) source

theorem zip_zip_map {α β γ : Type} (f : α × β → γ) (xs : List α) (ys : List β) :
    xs.zip ((xs.zip ys).map f) = (xs.zip ys).map fun s => (s.1, f s) := by
  induction xs generalizing ys with
  | nil => rfl
  | cons x xs ih =>
    cases ys with
    | nil => rfl
    | cons y ys => rw [List.zip_cons_cons, List.map_cons, List.zip_cons_cons, ih, List.map_cons]

theorem forall₂_zip_map {α β γ : Type} {R S : α × γ → β → Prop} {f : α × β → β} {xs : List (α × γ)} {ys : List β}
    (h : List.Forall₂ R xs ys) (himp : ∀ x y, R x y → S x (f (x.1, y))) :
    List.Forall₂ S xs (((xs.map Prod.fst).zip ys).map f) := by
  induction h with
  | nil => exact .nil
  | cons h _ ih => exact .cons (himp _ _ h) ih

/-- **What is left of a request is a request**, of the rows and the headers after the block. -/
theorem Scans.exists_after (h : p.Scans identify block weight rows recorded) {last : ℕ}
    (hlast : p.hints.fromBlock ≤ last) :
    ∃ rest, p.after last = .ok rest ∧ rest.hints.fromBlock = last + 1 ∧ rest.tables = p.tables ∧
      rest.includeAllBlocks = p.includeAllBlocks ∧
      (∀ b, b ∈ rest.headerBlocks ↔ b ∈ p.headerBlocks ∧ last < b) ∧
      rest.Scans identify block weight ((p.sources.zip rows).map (rowsAfter last)) recorded := by
  obtain ⟨headers, hheaders, hcut, hplaced⟩ := @exists_headers p.blocks p.headerWeight
    (fun b => decide (last < b)) _ h.headers
  refine ⟨_, map_eq_ok.mpr ⟨headers, hheaders, rfl⟩, rfl, rfl, rfl, fun b => ?_, hplaced, fun header hheader => ?_,
    fun s hs row hrow => ?_, fun fromBlock toBlock hle => ?_⟩
  · change b ∈ (headerRows p.blocks p.headerWeight headers).map Prod.fst ↔ _
    rw [hcut, headerBlocks]
    simp only [List.mem_map, List.mem_filter, decide_eq_true_eq]
    constructor
    · rintro ⟨header, ⟨hheader, hlt⟩, rfl⟩
      exact ⟨⟨header, hheader, rfl⟩, hlt⟩
    · rintro ⟨⟨header, hheader, rfl⟩, hlt⟩
      exact ⟨header, ⟨hheader, hlt⟩, rfl⟩
  · change header ∈ headerRows p.blocks p.headerWeight headers at hheader
    rw [hcut, List.mem_filter, decide_eq_true_eq] at hheader
    obtain ⟨hin, hmax⟩ := h.requested header hheader.1
    refine ⟨?_, hmax⟩
    rw [inSpan, Bool.and_eq_true, decide_eq_true_eq] at hin ⊢
    exact ⟨hheader.2, hin.2⟩
  · change s ∈ p.sources.zip _ at hs
    rw [zip_zip_map] at hs
    obtain ⟨source, hsource, rfl⟩ := List.mem_map.mp hs
    obtain ⟨hmem, hlt⟩ := List.mem_filter.mp hrow
    obtain ⟨hblock, header, hheader, heq⟩ := h.placed source hsource row hmem
    rw [hblock, Option.any_some, decide_eq_true_eq] at hlt
    refine ⟨hblock, header, ?_, heq⟩
    change header ∈ headerRows p.blocks p.headerWeight headers
    rw [hcut, List.mem_filter, decide_eq_true_eq, heq]
    exact ⟨hheader, hlt⟩
  · obtain ⟨outputs, hok, hreads⟩ := h.scans fromBlock toBlock (hlast.trans ((Nat.le_succ last).trans hle))
    refine ⟨outputs, hok, hreads.recorded, hreads.present, hreads.placed, ?_, hreads.identified⟩
    change List.Forall₂ _ (sourcesOf p.tables outputs) ((p.sources.zip rows).map (rowsAfter last))
    rw [sources, ← fst_sourcesOf hreads.present]
    refine forall₂_zip_map hreads.filtered fun s all hs => ?_
    rw [hs, rowsAfter, rowsWhere, List.filter_filter]
    refine List.filter_congr fun row _ => ?_
    cases row.block s.1.desc.blockNumberColumn with
    | none => rfl
    | some b =>
      rw [Option.any_some, Option.any_some, Bool.eq_iff_iff, Bool.and_eq_true, decide_eq_true_eq]
      refine ⟨fun hin => ⟨hin, ?_⟩, And.left⟩
      have hfrom := of_decide_eq_true (Bool.and_eq_true_iff.mp hin).1
      change last + 1 ≤ fromBlock at hle
      omega

/-- The blocks a request owes: those with a row, and all of them where all are asked for. -/
def owed (p : PageSource) (identify : String → ScannedRow → ι) (block : ι → ℕ) (rows : List (List ScannedRow)) :
    List ℕ :=
  ((p.sources.zip rows).flatMap fun s => s.2.map fun row => block (identify s.1.table row)) ++
    cond p.includeAllBlocks p.headerBlocks []

/-- A page holds of a request's rows those of its blocks, source by source. -/
def Fills (p : PageSource) (rows : List (List ScannedRow)) (page : Page) : Prop :=
  ∃ (hints : RangeHints) (read : SourceProjection × List ScannedRow → List ScannedRow),
    scannedOf p.tables page.tables = (p.sources.zip rows).map (fun source => (p.asked hints).kept source.1
      (read source)) ∧
    ∀ source ∈ p.sources.zip rows, ∀ b ∈ page.blocks,
      ((read source).filter fun row => row.block source.1.desc.blockNumberColumn == some b) =
        source.2.filter fun row => row.block source.1.desc.blockNumberColumn == some b

/-- A prefix of ascending numbers ends at its greatest, which those after it are above. -/
theorem take_getLastD {xs : List ℕ} (h : xs.Pairwise (· < ·)) {n : ℕ} (hn : n ≠ 0) (hne : xs ≠ []) :
    (xs.take n).getLastD 0 ∈ xs.take n ∧ (∀ b ∈ xs.take n, b ≤ (xs.take n).getLastD 0) ∧
      ∀ b ∈ xs, b ≤ (xs.take n).getLastD 0 → b ∈ xs.take n := by
  have htake : xs.take n ≠ [] := by
    rw [Ne, List.take_eq_nil_iff]
    exact fun h => h.elim hn hne
  have hlast : (xs.take n).getLastD 0 = (xs.take n).getLast htake := by
    rw [List.getLastD_eq_getLast?, List.getLast?_eq_some_getLast htake]
    rfl
  rw [hlast]
  have hmem := List.getLast_mem htake
  refine ⟨hmem, fun b hb => ?_, fun b hb hle => ?_⟩
  · have hsorted := h.sublist (List.take_sublist n xs)
    rw [← List.dropLast_append_getLast htake] at hb hsorted
    rcases List.mem_append.mp hb with hb | hb
    · exact Nat.le_of_lt ((List.pairwise_append.mp hsorted).2.2 b hb _ (List.mem_singleton_self _))
    · exact Nat.le_of_eq (List.mem_singleton.mp hb)
  · rw [← List.take_append_drop n xs] at hb h
    rcases List.mem_append.mp hb with hb | hb
    · exact hb
    · exact absurd ((List.pairwise_append.mp h).2.2 _ hmem b hb) (Nat.not_lt.mpr hle)

/-- **The pages of a request so far**: ascending blocks with headers, with all of their rows, and every block owed among
them, unless it is left for a page not asked for yet. -/
structure Paged (p : PageSource) (owed : List ℕ) (rows : List (List ScannedRow)) (asked : ℕ) (found : List Page) :
    Prop where
  ascending : (found.flatMap Page.blocks).Pairwise (· < ·)
  nonempty : ∀ page ∈ found, page.blocks ≠ []
  within : ∀ b ∈ found.flatMap Page.blocks, b ∈ p.headerBlocks
  fills : ∀ page ∈ found, p.Fills rows page
  owed : ∀ b ∈ owed, b ∈ found.flatMap Page.blocks ∨ found.length = asked ∧ ∀ c ∈ found.flatMap Page.blocks, c < b

omit [DecidableEq ι] in
/-- What is owed is a candidate. -/
theorem mem_candidates_of_owed {boundary : List ℕ} {b : ℕ} (hb : b ∈ p.owed identify block rows) :
    b ∈ p.candidates identify block rows boundary := by
  rw [candidates, mem_sortDedup, List.mem_append]
  rcases List.mem_append.mp hb with hb | hb
  · exact .inl hb
  · cases hall : p.includeAllBlocks with
    | false =>
      rw [hall] at hb
      exact absurd hb List.not_mem_nil
    | true =>
      rw [hall] at hb
      exact .inr hb

/-- A page of the rest of a request holds the request's rows. -/
theorem Fills.of_after {rest : PageSource} {last : ℕ} (hhints : rest.tables = p.tables) {page : Page}
    (hafter : ∀ b ∈ page.blocks, last < b) (h : rest.Fills ((p.sources.zip rows).map (rowsAfter last)) page) :
    p.Fills rows page := by
  obtain ⟨hints, read, hread, hrows⟩ := h
  have hsources : rest.sources = p.sources := by rw [sources, hhints, sources]
  refine ⟨hints, fun source => read (source.1, rowsAfter last source), ?_, fun source hsource b hb => ?_⟩
  · rw [hhints, hsources, zip_zip_map, List.map_map] at hread
    exact hread
  · have hmem : (source.1, rowsAfter last source) ∈ rest.sources.zip ((p.sources.zip rows).map (rowsAfter last)) := by
      rw [hsources, zip_zip_map]
      exact List.mem_map.mpr ⟨source, hsource, rfl⟩
    refine (hrows _ hmem b hb).trans ?_
    dsimp only
    rw [rowsAfter, rowsWhere, Tiling.filter_any, if_pos (decide_eq_true (hafter b hb))]

/-- What is owed after a block is owed by what is left. -/
theorem mem_owed_after {rest : PageSource} {last : ℕ} (htables : rest.tables = p.tables)
    (hall : rest.includeAllBlocks = p.includeAllBlocks)
    (hheaders : ∀ b, b ∈ rest.headerBlocks ↔ b ∈ p.headerBlocks ∧ last < b)
    (h : p.Scans identify block weight rows recorded) {b : ℕ} (hb : b ∈ p.owed identify block rows) (hlt : last < b) :
    b ∈ rest.owed identify block ((p.sources.zip rows).map (rowsAfter last)) := by
  have hsources : rest.sources = p.sources := by rw [sources, htables, sources]
  rw [owed, List.mem_append, hsources, zip_zip_map, hall]
  rcases List.mem_append.mp hb with hb | hb
  · refine .inl ?_
    obtain ⟨source, hsource, hb⟩ := List.mem_flatMap.mp hb
    obtain ⟨row, hrow, rfl⟩ := List.mem_map.mp hb
    refine List.mem_flatMap.mpr ⟨_, List.mem_map.mpr ⟨source, hsource, rfl⟩, List.mem_map.mpr ⟨row, ?_, rfl⟩⟩
    refine List.mem_filter.mpr ⟨hrow, ?_⟩
    rw [(h.placed source hsource row hrow).1, Option.any_some]
    exact decide_eq_true hlt
  · refine .inr ?_
    cases hflag : p.includeAllBlocks with
    | false =>
      rw [hflag] at hb
      exact absurd hb List.not_mem_nil
    | true =>
      rw [hflag] at hb
      exact (hheaders b).mpr ⟨hb, hlt⟩

/-- **Page after page, a request is read.** -/
theorem Scans.exists_pages {steps : ℕ} (hsteps : u64Max < steps) : ∀ (hints : List RangeHints) {p : PageSource}
    {rows : List (List ScannedRow)}, p.Scans identify block weight rows recorded → p.hints.fromBlock ≤ u64Max →
    (∀ hint ∈ hints, ∃ e, hint.initialRangeEnd = .ok e) →
    ∃ found, p.pages steps hints = .ok found ∧ p.Paged (p.owed identify block rows) rows hints.length found
  | [], p, rows, _, _, _ => by
    refine ⟨[], rfl, .nil, ?_, ?_, ?_, fun b _ => .inr ⟨rfl, ?_⟩⟩
    all_goals exact fun _ hmem => absurd hmem List.not_mem_nil
  | hint :: hints, p, rows, h, hstarts, hinitial => by
    have hasked : (p.asked hint).Scans identify block weight rows recorded := h.withHints rfl rfl
    obtain ⟨boundary, last, spans, toBlock, hboundary, hranges, hpage⟩ := hasked.exists_selectRanges hstarts
      (hinitial hint List.mem_cons_self) (hsteps.trans_le (Nat.le_add_left _ _))
    obtain ⟨boundary', hboundary', hbounded⟩ := hasked.exists_boundary hstarts (hinitial hint List.mem_cons_self)
    obtain rfl : boundary' = boundary := Except.ok.inj (hboundary'.symm.trans hboundary)
    have hselect : (p.asked hint).selectPage steps = .ok (some ((p.asked hint).page last)) :=
      map_eq_ok.mpr ⟨some last, hranges, rfl⟩
    obtain ⟨hnone, hsome⟩ := hpage.answers
    set candidates := (p.asked hint).candidates identify block rows boundary' with hcandidates
    have hsorted : candidates.Pairwise (· < ·) := pairwise_sortDedup _
    have hheader : ∀ b ∈ candidates, b ∈ p.headerBlocks := fun b hb => hasked.header_of_candidate hbounded.boundary hb
    have howed : ∀ b ∈ p.owed identify block rows, b ∈ candidates := fun b hb =>
      @mem_candidates_of_owed (p.asked hint) _ _ _ _ boundary' b hb
    by_cases hempty : candidates = []
    · refine ⟨[], bind_eq_ok.mpr ⟨_, hselect, by rw [hnone hempty]⟩, .nil, ?_, ?_, ?_, fun b hb => ?_⟩
      · exact fun _ hmem => absurd hmem List.not_mem_nil
      · exact fun _ hmem => absurd hmem List.not_mem_nil
      · exact fun _ hmem => absurd hmem List.not_mem_nil
      · have hb := howed b hb
        rw [hempty] at hb
        exact absurd hb List.not_mem_nil
    · obtain ⟨page, hsomePage, hanswers⟩ := hsome hempty
      obtain ⟨n, hn, -, hblocks, -⟩ := hanswers.selected
      obtain ⟨hlast, hle, hbelow⟩ := take_getLastD hsorted hn hempty
      rw [← hblocks] at hlast hle hbelow
      have hfills : p.Fills rows page := ⟨hint, hanswers.rows⟩
      have hpageSorted : page.blocks.Pairwise (· < ·) := hblocks ▸ hsorted.sublist (List.take_sublist _ _)
      have hpageHeader : ∀ b ∈ page.blocks, b ∈ p.headerBlocks := fun b hb =>
        hheader b (List.mem_of_mem_take (hblocks ▸ hb))
      by_cases hmax : page.blocks.getLastD 0 < u64Max
      · have hfrom : p.hints.fromBlock ≤ page.blocks.getLastD 0 := (h.requested_of_header (hpageHeader _ hlast)).1
        obtain ⟨rest, hrest, hrestFrom, htables, hall, hrestHeaders, hrestScans⟩ := h.exists_after hfrom
        obtain ⟨later, hlater, hpaged⟩ := Scans.exists_pages hsteps hints hrestScans (hrestFrom.symm ▸ hmax)
          fun hint hmem => hinitial hint (List.mem_cons_of_mem _ hmem)
        have hafter : ∀ b ∈ later.flatMap Page.blocks, page.blocks.getLastD 0 < b := fun b hb =>
          ((hrestHeaders b).mp (hpaged.within b hb)).2
        refine ⟨page :: later, bind_eq_ok.mpr ⟨_, hselect, ?_⟩, ?_, ?_, ?_, ?_, fun b hb => ?_⟩
        · rw [hsomePage]
          dsimp only
          rw [if_pos hmax]
          exact bind_eq_ok.mpr ⟨rest, hrest, bind_eq_ok.mpr ⟨later, hlater, rfl⟩⟩
        · rw [List.flatMap_cons]
          exact List.pairwise_append.mpr ⟨hpageSorted, hpaged.ascending, fun b hb c hc =>
            (hle b hb).trans_lt (hafter c hc)⟩
        · exact List.forall_mem_cons.mpr ⟨List.ne_nil_of_mem hlast, hpaged.nonempty⟩
        · rw [List.flatMap_cons]
          exact List.forall_mem_append.mpr ⟨hpageHeader, fun b hb => ((hrestHeaders b).mp (hpaged.within b hb)).1⟩
        · refine List.forall_mem_cons.mpr ⟨hfills, fun other hother => ?_⟩
          exact (hpaged.fills other hother).of_after htables fun b hb =>
            hafter b (List.mem_flatMap.mpr ⟨other, hother, hb⟩)
        · rw [List.flatMap_cons, List.mem_append]
          rcases Nat.lt_or_ge (page.blocks.getLastD 0) b with hlt | hge
          · rcases hpaged.owed b (mem_owed_after htables hall hrestHeaders h hb hlt) with hin | ⟨hlen, hbefore⟩
            · exact .inl (.inr hin)
            · refine .inr ⟨by rw [List.length_cons, List.length_cons, hlen], List.forall_mem_append.mpr
              ⟨fun c hc => ?_, hbefore⟩⟩
              exact (hle c hc).trans_lt hlt
          · exact .inl (.inl (hbelow b (howed b hb) hge))
      · -- no block is after the greatest
        refine ⟨[page], bind_eq_ok.mpr ⟨_, hselect, ?_⟩, ?_, ?_, ?_, ?_, fun b hb => .inl ?_⟩
        · rw [hsomePage]
          exact if_neg hmax
        · rwa [List.flatMap_singleton]
        · exact List.forall_mem_singleton.mpr (List.ne_nil_of_mem hlast)
        · rwa [List.flatMap_singleton]
        · exact List.forall_mem_singleton.mpr hfills
        · rw [List.flatMap_singleton]
          refine hbelow b (howed b hb) ?_
          exact (h.requested_of_header (hheader b (howed b hb))).2.trans (Nat.not_lt.mp hmax)


/-- Pages with blocks of their own are no more than the headers. -/
theorem Paged.length_le {owed : List ℕ} {asked : ℕ} {found : List Page} (h : p.Paged owed rows asked found) :
    found.length ≤ p.headerBlocks.toFinset.card := by
  have hone : found.length ≤ (found.flatMap Page.blocks).length := by
    have hnonempty := h.nonempty
    clear h
    induction found with
    | nil => exact le_rfl
    | cons page found ih =>
      have hpage := List.length_pos_of_ne_nil (hnonempty page List.mem_cons_self)
      have hfound := ih fun other hother => hnonempty other (List.mem_cons_of_mem _ hother)
      rw [List.flatMap_cons, List.length_append, List.length_cons]
      omega
  refine hone.trans ?_
  rw [← List.toFinset_card_of_nodup (h.ascending.imp fun hlt => Nat.ne_of_lt hlt)]
  refine Finset.card_le_card fun b hb => ?_
  exact List.mem_toFinset.mpr (h.within b (List.mem_toFinset.mp hb))

/-- **Paging loses and repeats nothing.**  Whatever the budgets and hints of its pages, asking again from the block
after a page's last one gives ascending blocks, each in one page and with every row of it, source by source; no block
with a row, nor any header where all are asked for, is passed over; and asking once more often than there are headers
reads the whole request. -/
theorem pages_of_request (h : p.Scans identify block weight rows recorded) (hstarts : p.hints.fromBlock ≤ u64Max)
    {steps : ℕ} (hsteps : u64Max < steps) {hints : List RangeHints}
      (hinitial : ∀ hint ∈ hints, ∃ e, hint.initialRangeEnd = .ok e) :
    ∃ found, p.pages steps hints = .ok found ∧ (found.flatMap Page.blocks).Pairwise (· < ·) ∧
      (∀ page ∈ found, page.blocks ≠ [] ∧ p.Fills rows page) ∧
      (∀ b ∈ p.owed identify block rows, b ∈ found.flatMap Page.blocks ∨
        found.length = hints.length ∧ ∀ c ∈ found.flatMap Page.blocks, c < b) ∧
      (p.headerBlocks.toFinset.card < hints.length →
        ∀ b ∈ p.owed identify block rows, b ∈ found.flatMap Page.blocks) := by
  obtain ⟨found, hfound, hpaged⟩ := h.exists_pages hsteps hints hstarts hinitial
  refine ⟨found, hfound, hpaged.ascending, fun page hpage => ⟨hpaged.nonempty page hpage, hpaged.fills page hpage⟩,
    hpaged.owed, fun hmore b hb => (hpaged.owed b hb).resolve_right fun hstopped => ?_⟩
  have := hpaged.length_le
  omega

theorem pages_of_logSource : ∃ found, logSource.pages (u64Max + 1) (List.replicate 4 wholeRequest) = .ok found ∧
    (found.flatMap Page.blocks).Pairwise (· < ·) ∧
    (∀ page ∈ found, page.blocks ≠ [] ∧ logSource.Fills [oneLog.scanned] page) ∧
    (∀ b ∈ logSource.owed (fun _ row => row.position.getD 0) (fun _ => 6) [oneLog.scanned],
      b ∈ found.flatMap Page.blocks ∨
        found.length = (List.replicate 4 wholeRequest).length ∧ ∀ c ∈ found.flatMap Page.blocks, c < b) ∧
    (logSource.headerBlocks.toFinset.card < (List.replicate 4 wholeRequest).length →
      ∀ b ∈ logSource.owed (fun _ row => row.position.getD 0) (fun _ => 6) [oneLog.scanned],
        b ∈ found.flatMap Page.blocks) :=
  @pages_of_request logSource ℕ _ _ _ _ _ _ logSource_scans (by decide) (u64Max + 1) (Nat.lt_succ_self _)
    (List.replicate 4 wholeRequest) fun hint hmem => ⟨none, by rw [List.eq_of_mem_replicate hmem]; rfl⟩

end Rest

end PageSource

end QueryEngine
