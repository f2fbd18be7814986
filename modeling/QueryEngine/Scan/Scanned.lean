import QueryEngine.Scan.Chunk
import QueryEngine.Scan.ListedUnion
import QueryEngine.Scan.Rows

/-!
# Scan/Scanned — what a scan reports of its rows

A scan hands on its rows, and for each of the request's tags which rows one of the tag's items matched.  Every way a row
group may be read tags a row by the request's own items, however few of them still ran on it; collected, the tags pick
exactly the rows that their items match.
-/

open Fallible Selection

namespace QueryEngine

/-! ## Collecting the parts -/

/-- **What a scan returns**: its rows, and for each of the request's item tags, which of those rows one of the tag's
items matched. -/
structure Scanned where
  rows : Rows
  /-- Per tag, in request order: its items and one mask per batch. -/
  tags : List (List ℕ × List (List Bool))

namespace Scanned

/-- What a reader read for a request, where every tag marks every row once and positions are there when asked for. -/
def new (request : ScanRequest) (rows : Rows) (tags : List (List (List Bool))) : Except String Scanned :=
  if tags.length ≠ request.itemTags.length then
    .error (toString tags.length ++ " item tags reported where the request asked for " ++ toString
      request.itemTags.length)
  else if ¬∀ masks ∈ tags, masks.map List.length = rows.batches.map RecordBatch.numRows then
    .error "an item tag must mark every row once"
  else if request.positions ∧ rows.positions.isNone then .error "the request asked for each row's position"
  else .ok ⟨rows, request.itemTags.zip tags⟩

/-- The rows one of `items` matched, when the request named them as a tag.  Batches without one are left out. -/
def matchedBy (scanned : Scanned) (items : List ℕ) : Option (List RecordBatch) :=
  (scanned.tags.find? fun tag => tag.1 == items).map fun tag =>
    ((scanned.rows.batches.zip tag.2).filter fun b => decide (0 < b.2.count true)).map fun b => b.1.filter b.2

/-- The parts collected so far. -/
structure Collected where
  batches : List RecordBatch
  positions : Option (List (List ℕ))
  tags : List (List (List Bool))

/-- One more part. -/
def Collected.push (collected : Collected) (part : ScannedBatch) : Except String Collected :=
  if part.tags.length ≠ collected.tags.length then .error "a batch must carry every tag"
  else
    let tags := List.zipWith (fun masks mask => masks ++ [mask]) collected.tags part.tags
    match collected.positions, part.positions with
    | some _, none => .error "the scan must record every row's position"
    | some positions, some recorded => .ok ⟨collected.batches ++ [part.batch], some (positions ++ [recorded]), tags⟩
    | none, _ => .ok ⟨collected.batches ++ [part.batch], none, tags⟩

/-- The rows collected, each with its position where positions were. -/
def Collected.rows (collected : Collected) : Except String Rows :=
  match collected.positions with
  | some positions =>
    match Rows.withPositions collected.batches positions with
    | some rows => .ok rows
    | none => .error "every row must have exactly one position"
  | none => .ok (Rows.new collected.batches)

/-- **What a scan returns, of the batches its readers do.** -/
def collect (request : ScanRequest) (parts : List ScannedBatch) : Except String Scanned := do
  let collected ← parts.foldlM Collected.push
    ⟨[], if request.positions then some [] else none, request.itemTags.map fun _ => []⟩
  let rows ← collected.rows
  new request rows collected.tags

/-- A column of the parts' tags. -/
def masksOf (parts : List ScannedBatch) (tag : ℕ) : List (List Bool) := parts.map fun part => part.tags.getD tag []

/-- Parts that carry what the request asks are collected, each after the ones before it. -/
theorem push_parts {request : ScanRequest} : ∀ {parts : List ScannedBatch} (collected : Collected),
    (∀ part ∈ parts, part.Complete request) → collected.tags.length = request.itemTags.length →
    (collected.positions.isSome = true → request.positions = true) →
    parts.foldlM Collected.push collected = .ok ⟨collected.batches ++ parts.map ScannedBatch.batch,
      collected.positions.map (· ++ parts.map fun part => part.positions.getD []),
      (List.range request.itemTags.length).map fun tag => collected.tags.getD tag [] ++ masksOf parts tag⟩
  | [], ⟨batches, positions, tags⟩, _, htags, _ => by
    have hself : ((List.range request.itemTags.length).map fun tag => tags.getD tag []) = tags := by
      refine List.ext_getElem (by simpa using htags.symm) fun i h₁ h₂ => ?_
      simp [List.getD_eq_getElem?_getD, h₂]
    simp only [List.foldlM_nil, masksOf, List.map_nil, List.append_nil, Option.map_id_fun', id_eq, hself]
    rfl
  | part :: parts, ⟨batches, positions, tags⟩, hcomplete, htags, hpositions => by
    have hpart := hcomplete part List.mem_cons_self
    have hlen : part.tags.length = tags.length := hpart.tags.trans htags.symm
    have hpush : Collected.push ⟨batches, positions, tags⟩ part = .ok ⟨batches ++ [part.batch],
        positions.map (· ++ [part.positions.getD []]),
        List.zipWith (fun masks mask => masks ++ [mask]) tags part.tags⟩ := by
      unfold Collected.push
      rw [if_neg (not_not.mpr hlen)]
      cases positions with
      | none => rfl
      | some positions =>
        obtain ⟨recorded, hrecorded⟩ := Option.isSome_iff_exists.mp (hpart.positions (hpositions rfl))
        simp [hrecorded]
    rw [List.foldlM_cons, hpush]
    refine (push_parts _ (fun p hp => hcomplete p (List.mem_cons_of_mem _ hp)) (by simp [hlen, ← htags])
      fun h => hpositions (by simpa using h)).trans ?_
    simp only [List.map_cons, List.append_assoc, List.singleton_append, Option.map_map, Function.comp_def]
    congr 2
    refine List.map_congr_left fun tag htag => ?_
    have hlt : tag < tags.length := htags ▸ List.mem_range.mp htag
    have hlt' : tag < part.tags.length := hlen ▸ hlt
    simp [List.getD_eq_getElem?_getD, masksOf, hlt, hlt']

section Collect

variable {request : ScanRequest} {parts : List ScannedBatch}

/-- **Parts that carry what the request asks are collected** as they are. -/
theorem collect_eq (h : ∀ part ∈ parts, part.Complete request) : ∃ rows, collect request parts =
    .ok ⟨rows, request.itemTags.zip ((List.range request.itemTags.length).map (masksOf parts))⟩ ∧
      rows.batches = parts.map ScannedBatch.batch ∧
      rows.positions = if request.positions then some (parts.map fun part => part.positions.getD []) else none := by
  have hstart : (if request.positions then some [] else none : Option (List (List ℕ))).isSome = true →
      request.positions = true := by
    cases request.positions <;> simp
  have hpush := push_parts ⟨[], if request.positions then some [] else none, request.itemTags.map fun _ => []⟩ h
    (by simp) hstart
  have hmasks : ((List.range request.itemTags.length).map fun tag =>
      (request.itemTags.map fun _ => ([] : List (List Bool))).getD tag [] ++ masksOf parts tag) =
      (List.range request.itemTags.length).map (masksOf parts) := by
    refine List.map_congr_left fun tag htag => ?_
    have hlt : tag < request.itemTags.length := List.mem_range.mp htag
    simp [List.getD_eq_getElem?_getD, hlt]
  rw [hmasks, List.nil_append] at hpush
  -- every tag has a mark of every row, since each part has
  have haligned : ∀ masks ∈ (List.range request.itemTags.length).map (masksOf parts),
      masks.map List.length = (parts.map ScannedBatch.batch).map RecordBatch.numRows := by
    intro masks hmasks
    obtain ⟨tag, htag, rfl⟩ := List.mem_map.mp hmasks
    rw [masksOf, List.map_map, List.map_map]
    refine List.map_congr_left fun part hpart => ?_
    have hlt : tag < part.tags.length := (h part hpart).tags ▸ List.mem_range.mp htag
    rw [Function.comp_apply, Function.comp_apply, List.getD_eq_getElem _ _ hlt]
    exact (h part hpart).aligned.tags _ (List.getElem_mem hlt)
  have hnew (rows : Rows) (hbatches : rows.batches = parts.map ScannedBatch.batch)
      (hpositions : request.positions = true → rows.positions.isSome = true) :
      new request rows ((List.range request.itemTags.length).map (masksOf parts)) =
        .ok ⟨rows, request.itemTags.zip ((List.range request.itemTags.length).map (masksOf parts))⟩ := by
    unfold new
    rw [if_neg (by simp), if_neg (not_not.mpr (by rw [hbatches]; exact haligned)), if_neg]
    rintro ⟨hasked, hnone⟩
    rw [Option.isNone_iff_eq_none.mp hnone] at hpositions
    exact absurd (hpositions hasked) (by simp)
  cases hasked : request.positions with
  | false =>
    rw [hasked] at hpush
    refine ⟨Rows.new (parts.map ScannedBatch.batch), bind_eq_ok.mpr ⟨_, by rw [hasked]; exact hpush,
      bind_eq_ok.mpr ⟨_, rfl, hnew _ rfl (by simp [hasked])⟩⟩, rfl, rfl⟩
  | true =>
    rw [hasked] at hpush
    have hplaced : QueryEngine.aligned (parts.map ScannedBatch.batch)
        (parts.map fun part => part.positions.getD []) := by
      rw [QueryEngine.aligned, List.map_map, List.map_map]
      refine List.map_congr_left fun part hpart => ?_
      obtain ⟨recorded, hrecorded⟩ := Option.isSome_iff_exists.mp ((h part hpart).positions hasked)
      rw [Function.comp_apply, Function.comp_apply, hrecorded]
      exact (h part hpart).aligned.positions recorded hrecorded
    refine ⟨⟨parts.map ScannedBatch.batch, some (parts.map fun part => part.positions.getD []), by simpa using hplaced⟩,
      bind_eq_ok.mpr ⟨_, by rw [hasked]; exact hpush, bind_eq_ok.mpr ⟨_, ?_, hnew _ rfl fun _ => rfl⟩⟩, rfl, rfl⟩
    unfold Collected.rows Rows.withPositions
    simp [hplaced]

/-! ### The rows of a tag -/

/-- Whether a returned row is one that the tag's items matched. -/
def hasTag (tag : ℕ) (row : ScannedRow) : Bool := row.tags[tag]? == some (some true)

/-- The rows a part's mask keeps are those that carry the tag. -/
theorem allValues_filter {part : ScannedBatch} (h : part.Complete request) {tag : ℕ}
    (htag : tag < request.itemTags.length) :
    (part.batch.filter (part.tags.getD tag [])).allValues = (part.rows.filter (hasTag tag)).map ScannedRow.values := by
  have hlt : tag < part.tags.length := h.tags ▸ htag
  set mask := part.tags.getD tag [] with hmask
  have hget : part.tags[tag]? = some mask := by
    rw [hmask, List.getD_eq_getElem?_getD, List.getElem?_eq_getElem hlt, Option.getD_some]
  have hlen : mask.length = part.batch.numRows := h.aligned.tags mask (List.mem_of_getElem? hget)
  have hself : mask = (List.range part.batch.numRows).map fun i => mask[i]? == some true := by
    refine List.ext_getElem (by simpa using hlen) fun i h₁ h₂ => ?_
    simp [h₁]
  have hcarries : ∀ i, hasTag tag ⟨part.batch.values i, part.positions.bind (·[i]?), part.tags.map (·[i]?)⟩ =
      (mask[i]? == some true) := by
    intro i
    rw [hasTag, List.getElem?_map, hget, Option.map_some]
    cases mask[i]? <;> simp
  have hoffsets : offsets mask = (List.range part.batch.numRows).filter fun i => mask[i]? == some true := by
    conv_lhs => rw [hself]
    exact offsets_test _ _
  calc (part.batch.filter mask).allValues
      = (List.range (mask.count true)).map (part.batch.filter mask).values := by
        rw [RecordBatch.allValues, RecordBatch.numRows_filter hlen]
    _ = pick mask ((List.range part.batch.numRows).map part.batch.values) :=
        map_range_pick hlen fun i j hj => values_filter hlen hj
    _ = ((List.range part.batch.numRows).filter fun i => mask[i]? == some true).map part.batch.values := by
        rw [pick_offsets hlen, hoffsets]
    _ = (part.rows.filter (hasTag tag)).map ScannedRow.values := by
        rw [ScannedBatch.rows, List.filter_map, List.map_map]
        simp only [Function.comp_def, hcarries]

/-- What is left out has nothing to add. -/
theorem flatMap_filter_of_eq_nil {α β : Type} {keep : α → Bool} {f : α → List β} : ∀ {xs : List α},
    (∀ x ∈ xs, keep x = false → f x = []) → (xs.filter keep).flatMap f = xs.flatMap f
  | [], _ => rfl
  | x :: xs, h => by
    have hrest := flatMap_filter_of_eq_nil fun y hy => h y (List.mem_cons_of_mem _ hy)
    cases hx : keep x with
    | true => rw [List.filter_cons_of_pos hx, List.flatMap_cons, List.flatMap_cons, hrest]
    | false =>
      rw [List.filter_cons_of_neg (by simp [hx]), List.flatMap_cons, h x List.mem_cons_self hx, List.nil_append, hrest]

/-- A list the request names is one of its tags. -/
theorem find?_tag {items : List ℕ} {f : ℕ → List (List Bool)} (h : items ∈ request.itemTags) :
    ∃ tag, request.itemTags[tag]? = some items ∧
      (request.itemTags.zip ((List.range request.itemTags.length).map f)).find? (fun t => t.1 == items) =
        some (items, f tag) := by
  obtain ⟨found, hfound⟩ : ∃ found, (request.itemTags.zip ((List.range request.itemTags.length).map f)).find?
      (fun t => t.1 == items) = some found := by
    refine Option.isSome_iff_exists.mp (List.find?_isSome.mpr ?_)
    obtain ⟨tag, htag, rfl⟩ := List.getElem_of_mem h
    exact ⟨(request.itemTags[tag], f tag), List.mem_iff_getElem?.mpr ⟨tag, by simp [htag]⟩, by simp⟩
  obtain ⟨tag, htag⟩ := List.mem_iff_getElem?.mp (List.mem_of_find?_eq_some hfound)
  obtain ⟨named, masks⟩ := found
  rw [List.getElem?_zip_eq_some] at htag
  obtain ⟨hnamed, hmasks⟩ := htag
  obtain rfl : named = items := by simpa using List.find?_some hfound
  have hlt : tag < request.itemTags.length := (List.getElem?_eq_some_iff.mp hnamed).1
  have hf : f tag = masks := by simpa [hlt] using hmasks
  exact ⟨tag, hnamed, by rw [hfound, hf]⟩

/-- **A tag picks the rows that carry it.** -/
theorem matchedBy_eq (h : ∀ part ∈ parts, part.Complete request) {items : List ℕ} (hitems : items ∈ request.itemTags)
    {rows : Rows} (hbatches : rows.batches = parts.map ScannedBatch.batch) : ∃ tag matched,
      request.itemTags[tag]? = some items ∧
      (Scanned.mk rows (request.itemTags.zip ((List.range request.itemTags.length).map (masksOf parts)))).matchedBy
        items =
        some matched ∧
      matched.flatMap RecordBatch.allValues =
        ((parts.flatMap ScannedBatch.rows).filter (hasTag tag)).map ScannedRow.values := by
  obtain ⟨tag, htag, hfind⟩ := find?_tag (f := masksOf parts) hitems
  have hlt : tag < request.itemTags.length := (List.getElem?_eq_some_iff.mp htag).1
  refine ⟨tag, _, htag, by rw [matchedBy, hfind, Option.map_some], ?_⟩
  rw [hbatches, masksOf, List.zip_map', List.flatMap_map, flatMap_filter_of_eq_nil, List.flatMap_map,
    List.filter_flatMap,
    List.map_flatMap]
  · exact List.flatMap_congr fun part hpart => allValues_filter (h part hpart) hlt
  · intro b hb hnone
    obtain ⟨part, hpart, rfl⟩ := List.mem_map.mp hb
    -- a part without a row of the tag
    have hmask : (part.tags.getD tag []).length = part.batch.numRows := by
      have hmem : tag < part.tags.length := (h part hpart).tags ▸ hlt
      rw [List.getD_eq_getElem _ _ hmem]
      exact (h part hpart).aligned.tags _ (List.getElem_mem hmem)
    have hzero : (part.tags.getD tag []).count true = 0 := Nat.eq_zero_of_not_pos (of_decide_eq_false hnone)
    rw [RecordBatch.allValues, RecordBatch.numRows_filter hmask, hzero]
    rfl

end Collect

end Scanned

/-! ## The ways to read a row group -/

/-- What admits the rows of several items together, where their lists are merged. -/
def itemUnion (request : ScanRequest) (active : List ℕ) : Option RowPredicate :=
  if 1 < active.length then listedUnion (active.filterMap (request.predicates[·]?)) else none

/-- A pass's column cache, as a row group finds it: what the budget decides, and what is held. -/
structure PassCache where
  /-- The bit that a comparison leaves of a null answer. -/
  left : ℕ → Bool
  budget : Budget
  held : HeldColumns

/-- A row group of a file: its rows, where they start, how it is read, and statistics that bound it. -/
structure FileGroup where
  rows : RecordBatch
  start : ℕ
  reader : RowFilterReader
  cache : Option PassCache
  stats : String → Option ColumnStats
  summary : String → ColumnSummary
  bound : StatsBound rows stats
  summarized : ∀ name, (summary name).Of (rows.columnByName name)

/-- **Scan a row group of a file**: not at all where its statistics rule it out, else through the cache or the row
filter. -/
def FileGroup.scan (group : FileGroup) (request : ScanRequest) : Except String (List ScannedBatch) :=
  match prepareRowGroup group.rows request group.stats group.summary with
  | none => .ok []
  | some prepared =>
    let union := itemUnion request prepared.activeItems
    match group.cache with
    | none => scanRowGroup group.reader group.rows group.start request prepared union
    | some cache => (scanGroup group.reader cache.left cache.budget cache.held group.rows group.start request prepared
        union).map Prod.fst

/-- A table a scan may read: a file of row groups, or a store of columns. -/
inductive ScannedTable
  | file (groups : List FileGroup)
  | store (name : String) (table : ColumnarTable) (rows : RecordBatch) (serves : table.Serves rows)

namespace ScannedTable

/-- The batches of a table that a scan reads. -/
def scanBatches (request : ScanRequest) : ScannedTable → Except String (List ScannedBatch)
  | file groups => (groups.mapM fun group : FileGroup => group.scan request).map List.flatten
  | store name table _ _ => scanColumnar name table request

/-- **A scan**, with what the request asked to learn about the rows. -/
def scanRows (table : ScannedTable) (request : ScanRequest) : Except String Scanned := do
  let parts ← table.scanBatches request
  Scanned.collect request parts

/-- The row groups of a table, each with where it starts. -/
def rowGroups : ScannedTable → List (RecordBatch × ℕ)
  | file groups => groups.map fun group => (group.rows, group.start)
  | store _ _ rows _ => [(rows, 0)]

/-- A cache holds what its loads give. -/
def CachesHold (request : ScanRequest) : ScannedTable → Prop
  | file groups => ∀ group ∈ groups, ∀ cache ∈ group.cache, cache.held.Holds request.blockNumberColumn group.rows
  | store .. => True

end ScannedTable

/-- What a request promises of a row group: its filters read it, its relation's keys place the rows they pick, and the
pass's window holds every row it keeps. -/
structure ScanRequest.Fits (request : ScanRequest) (group : RecordBatch) : Prop where
  readable : request.Readable group
  placed : request.Placed group
  window : ∀ row < group.numRows, request.keepsRow group row = true →
    insideBounds request.blockNumberColumn (request.window.getD ⟨none, none⟩).bounds group row = true
  /-- A row's place in its row group is kept in 32 bits. -/
  rows_lt : group.numRows < 2 ^ 32

section Routes

variable {request : ScanRequest}

/-- **The union of the active items admits what they match**, as the row group checks them. -/
theorem admits_itemUnion {group : RecordBatch} {prepared : PreparedRowGroup} (hreadable : request.Readable group)
    (hsound : prepared.Sound request group) : Admits (itemUnion request prepared.activeItems)
      (preparedItems request.predicates prepared.activeItems prepared.narrowed) group := by
  intro _ _ u hu
  obtain ⟨-, hunion⟩ := Option.ite_none_right_eq_some.mp hu
  have hactive : ∀ p ∈ prepared.activeItems.filterMap (request.predicates[·]?), p ∈ request.predicates := fun p hp => by
    obtain ⟨item, -, hitem⟩ := List.mem_filterMap.mp hp
    exact List.mem_of_getElem? hitem
  refine ⟨comparable_listedUnion hunion fun p hp => hreadable.comparable p (hactive p hp),
    fun row hrow left hleft hholds => ?_⟩
  -- an item left of an active one matches what the active one does
  have hchecks := checksAs_preparedItems hreadable.comparable prepared.activeItems prepared.narrowed hsound.active
    hsound.narrowed
  obtain ⟨k, hk, rfl⟩ := List.getElem_of_mem hleft
  obtain ⟨-, hnone⟩ | ⟨item, y, hitem, hy, p, hp, -, hsame⟩ := getElem?_of_forall₂ hchecks k
  · rw [List.getElem?_eq_getElem hk] at hnone
    exact absurd hnone (by simp)
  · rw [List.getElem?_eq_getElem hk] at hy
    obtain rfl := Option.some.inj hy
    rw [hsame row hrow] at hholds
    exact holdsAt_listedUnion hunion (List.mem_filterMap.mpr ⟨item, List.mem_of_getElem? hitem, hp⟩) hholds

/-- A row group prepared and read through the row filter gives the rows that the request asks for. -/
theorem FileGroup.scanRowGroup_rows (group : FileGroup) (hreadable : request.Readable group.rows)
    {prepared : PreparedRowGroup} (h : prepareRowGroup group.rows request group.stats group.summary = some prepared) :
    ∃ batches, scanRowGroup group.reader group.rows group.start request prepared
        (itemUnion request prepared.activeItems) = .ok batches ∧ (∀ b ∈ batches, b.Complete request) ∧
      batches.flatMap ScannedBatch.rows = request.rowsOf group.rows group.start := by
  have hsound : prepared.Sound request group.rows := prepareItems_sound
    (GroupStats.sound_read hreadable.comparable group.summarized) hreadable.comparable
      (prepareItems_of_prepareRowGroup h)
  exact QueryEngine.scanRowGroup_rows group.reader group.start hreadable hsound (admits_itemUnion hreadable hsound)

/-- **A row group of a file gives the rows that the request asks for**, where no cache is in its way. -/
theorem FileGroup.scan_rows_of_no_cache (group : FileGroup) (hreadable : request.Readable group.rows)
    (hplaced : request.Placed group.rows) (hcache : group.cache = none) :
    ∃ batches, group.scan request = .ok batches ∧ (∀ b ∈ batches, b.Complete request) ∧
      batches.flatMap ScannedBatch.rows = request.rowsOf group.rows group.start := by
  unfold FileGroup.scan
  cases h : prepareRowGroup group.rows request group.stats group.summary with
  | none => exact ⟨[], rfl, nofun, (rowsOf_of_none fun row hrow =>
      keepsRow_of_prepareRowGroup hreadable hplaced group.bound group.summarized h hrow).symm⟩
  | some prepared =>
    rw [hcache]
    exact group.scanRowGroup_rows hreadable h

/-- **A row group of a file gives the rows that the request asks for**, tagged by its items, whichever way it is read.
-/
theorem FileGroup.scan_rows (group : FileGroup) (hfits : request.Fits group.rows)
    (htags : ∀ items ∈ request.itemTags, ∀ item ∈ items, item < request.predicates.length)
    (hcache : ∀ cache ∈ group.cache, cache.held.Holds request.blockNumberColumn group.rows) :
    ∃ batches, group.scan request = .ok batches ∧ (∀ b ∈ batches, b.Complete request) ∧
      batches.flatMap ScannedBatch.rows = request.rowsOf group.rows group.start := by
  have hreadable := hfits.readable
  cases hcached : group.cache with
  | none => exact group.scan_rows_of_no_cache hreadable hfits.placed hcached
  | some cache =>
    unfold FileGroup.scan
    cases h : prepareRowGroup group.rows request group.stats group.summary with
    | none => exact ⟨[], rfl, nofun, (rowsOf_of_none fun row hrow =>
        keepsRow_of_prepareRowGroup hreadable hfits.placed group.bound group.summarized h hrow).symm⟩
    | some prepared =>
      obtain ⟨direct, hdirect, hcomplete, hrows⟩ := group.scanRowGroup_rows hreadable h
      rw [hcached]
      dsimp only
      unfold scanGroup
      split
      · next hevery =>
        have hshared : request.Shared group.rows :=
          ⟨hfits.rows_lt, List.all_eq_true.mp hevery, htags, hfits.window⟩
        obtain ⟨found, held, hdecoded, -, hfound⟩ := scanDecodedRowGroup_rows group.reader cache.left cache.budget
          group.start hreadable hshared (hcache cache hcached)
        rw [hdecoded]
        cases found with
        | none => exact ⟨direct, map_eq_ok.mpr ⟨(direct, held), bind_eq_ok.mpr
          ⟨_, rfl, bind_eq_ok.mpr ⟨direct, hdirect, rfl⟩⟩,
            rfl⟩, hcomplete, hrows⟩
        | some batches => exact ⟨batches, rfl, hfound batches rfl⟩
      · exact ⟨direct, map_eq_ok.mpr ⟨(direct, cache.held), bind_eq_ok.mpr ⟨direct, hdirect, rfl⟩, rfl⟩, hcomplete,
          hrows⟩

/-- Row groups that each give the rows asked for give them together, in order. -/
theorem scanGroups_rows : ∀ (groups : List FileGroup), (∀ group ∈ groups, ∃ batches, group.scan request = .ok batches ∧
    (∀ b ∈ batches, b.Complete request) ∧ batches.flatMap ScannedBatch.rows = request.rowsOf group.rows group.start) →
    ∃ parts, (ScannedTable.file groups).scanBatches request = .ok parts ∧ (∀ part ∈ parts, part.Complete request) ∧
      parts.flatMap ScannedBatch.rows = groups.flatMap fun group => request.rowsOf group.rows group.start
  | [], _ => ⟨[], rfl, nofun, rfl⟩
  | group :: groups, hgroup => by
    obtain ⟨first, hfirst, hcomplete, hrows⟩ := hgroup group List.mem_cons_self
    obtain ⟨rest, hrest, hrestcomplete, hrestrows⟩ := scanGroups_rows groups fun g hg => hgroup g
      (List.mem_cons_of_mem _ hg)
    obtain ⟨parts, hparts, rfl⟩ := map_eq_ok.mp hrest
    refine ⟨first ++ parts.flatten, map_eq_ok.mpr ⟨first :: parts,
      mapM_eq_ok.mpr (.cons hfirst (mapM_eq_ok.mp hparts)), rfl⟩, ?_, ?_⟩
    · exact List.forall_mem_append.mpr ⟨hcomplete, hrestcomplete⟩
    · rw [List.flatMap_append, hrows, hrestrows, List.flatMap_cons]

/-- **A table gives the rows that the request asks for**, each with its tags. -/
theorem ScannedTable.scanBatches_rows (table : ScannedTable) (hfits : ∀ g ∈ table.rowGroups, request.Fits g.1)
    (htags : ∀ items ∈ request.itemTags, ∀ item ∈ items, item < request.predicates.length)
    (hcaches : table.CachesHold request) : ∃ parts, table.scanBatches request = .ok parts ∧
      (∀ part ∈ parts, part.Complete request) ∧
      parts.flatMap ScannedBatch.rows = table.rowGroups.flatMap fun g => request.rowsOf g.1 g.2 := by
  cases table with
  | store name table rows serves =>
    have hown := hfits (rows, 0) List.mem_cons_self
    obtain ⟨-, batches, -, -, -, hscan, hcomplete, hrows⟩ := scanColumnar_rows name serves hown.readable hown.placed
    exact ⟨batches, hscan, hcomplete, by rw [hrows, rowGroups, List.flatMap_singleton]⟩
  | file groups =>
    rw [rowGroups, List.flatMap_map]
    exact scanGroups_rows groups fun group hmem =>
      group.scan_rows (hfits (group.rows, group.start) (List.mem_map_of_mem hmem)) htags (hcaches group hmem)

/-- The rows of a row group that a scan returns and one of `items` matches. -/
def ScanRequest.matchedRows (request : ScanRequest) (items : List ℕ) (group : RecordBatch) :
    List (List (String × Option Cell)) :=
  ((List.range group.numRows).filter fun row => request.keepsRow group row && request.tagged items group row).map
    (group.outputs (request.outputNames group)).values

/-- The rows of a row group that carry a tag are those that its items match. -/
theorem filter_rowsOf {items : List ℕ} {tag : ℕ} (htag : request.itemTags[tag]? = some items) (group : RecordBatch)
    (start : ℕ) : ((request.rowsOf group start).filter (Scanned.hasTag tag)).map ScannedRow.values =
      request.matchedRows items group := by
  have hcarries : ∀ row, Scanned.hasTag tag (request.rowOf group start row) = request.tagged items group row := by
    intro row
    rw [Scanned.hasTag, ScanRequest.rowOf, List.getElem?_map, htag, Option.map_some]
    cases request.tagged items group row <;> rfl
  rw [ScanRequest.rowsOf, ScanRequest.matchedRows, List.filter_map, List.map_map, List.filter_filter]
  simp only [Function.comp_def, hcarries, Bool.and_comm]
  rfl

/-- **Item tags are exact.**  However a table's row groups are read, every row returned carries exactly the tags of the
items that match it, and a tag picks exactly the rows returned that one of its items matches. -/
theorem item_tags_exact (table : ScannedTable) (hfits : ∀ g ∈ table.rowGroups, request.Fits g.1)
    (htags : ∀ items ∈ request.itemTags, ∀ item ∈ items, item < request.predicates.length)
    (hcaches : table.CachesHold request) : ∃ parts scanned, table.scanBatches request = .ok parts ∧
      parts.flatMap ScannedBatch.rows = table.rowGroups.flatMap (fun g => request.rowsOf g.1 g.2) ∧
      table.scanRows request = .ok scanned ∧ scanned.rows.batches = parts.map ScannedBatch.batch ∧
      ∀ items ∈ request.itemTags, ∃ matched, scanned.matchedBy items = some matched ∧
        matched.flatMap RecordBatch.allValues = table.rowGroups.flatMap fun g => request.matchedRows items g.1 := by
  obtain ⟨parts, hparts, hcomplete, hrows⟩ := table.scanBatches_rows hfits htags hcaches
  obtain ⟨rows, hcollect, hbatches, -⟩ := Scanned.collect_eq hcomplete
  refine ⟨parts, _, hparts, hrows, bind_eq_ok.mpr ⟨parts, hparts, hcollect⟩, hbatches, fun items hitems => ?_⟩
  obtain ⟨tag, matched, htag, hmatched, hvalues⟩ := Scanned.matchedBy_eq hcomplete hitems hbatches
  refine ⟨matched, hmatched, ?_⟩
  rw [hvalues, hrows, List.filter_flatMap, List.map_flatMap]
  exact List.flatMap_congr fun g _ => filter_rowsOf htag g.1 g.2

end Routes

/-! ### Row groups of two blocks -/

/-- A row group of two blocks, in order. -/
def blocksFrom (a b : BitVec 64) : RecordBatch where
  numRows := 2
  columns := [("number", .scalar (.int .uint64) [⟨a, true⟩, ⟨b, true⟩])]
  lengths := by simp [Column.len]
  offsets := by simp [Column.OffsetsFit]

/-- It in a file, with statistics of its blocks, and behind a cache or not. -/
def statedBlocks (a b : BitVec 64) (h : a.toNat ≤ b.toNat) (start : ℕ) (cache : Option PassCache) : FileGroup where
  rows := blocksFrom a b
  start := start
  reader := wholeReader
  cache := cache
  stats name := if name = "number" then some ⟨some (.int64 a), some (.int64 b)⟩ else none
  summary name := if name = "number" then ⟨some (.ints (.scalar (.int .uint64)) a.toNat b.toNat), true⟩ else
    ⟨none, false⟩
  bound := by
    intro name c ints hc hints s hs
    dsimp only at hs
    split at hs
    · next hname =>
      subst hname
      obtain rfl := Option.some.inj hs
      obtain rfl := Option.some.inj hc
      obtain rfl := Option.some.inj hints
      refine ⟨false, fun slot hslot _ => ⟨fun m hm => ?_, fun m hm => ?_⟩⟩
      all_goals
        obtain rfl := Option.some.inj hm
        rw [TwosComplement.read_false, TwosComplement.read_false]
        rcases List.mem_pair.mp hslot with rfl | rfl <;>
          dsimp only [IntType.bits] <;> omega
    · exact absurd hs (Option.not_mem_none s)
  summarized name := by
    split
    · next hname =>
      subst hname
      refine ⟨fun range hrange => ⟨_, rfl, ?_, fun cell hcell => ?_⟩, fun _ c hc cell hcell => ?_⟩
      · obtain rfl := Option.some.inj hrange
        rintro stored min max heq
        cases heq
        rfl
      · obtain rfl := Option.some.inj hrange
        rcases List.mem_pair.mp hcell with rfl | rfl
        · exact ⟨rfl, le_refl _, Int.ofNat_le.mpr h⟩
        · exact ⟨rfl, Int.ofNat_le.mpr h, le_refl _⟩
      · obtain rfl := Option.some.inj hc
        rcases List.mem_pair.mp hcell with rfl | rfl <;> rfl
    · exact ⟨nofun, nofun⟩

/-- An item that asks for one block. -/
def blockItem (n : BitVec 64) : RowPredicate := ⟨[listOn "number" (.scalar (.int .uint64) [⟨n, true⟩])], []⟩

/-- Blocks 5 and 10 from block 4 on, each its own item's. -/
def listedBlocks : ScanRequest :=
  { everyBlock none [[0], [1]] with
    predicates := [blockItem 5, blockItem 10]
    fromBlock := some 4 }

theorem readable_listedBlocks (a b : BitVec 64) : listedBlocks.Readable (blocksFrom a b) := by
  have hblocks : listedBlocks.BlocksReadable (blocksFrom a b) := by
    intro name hname
    obtain rfl : "number" = name := Option.some.inj hname
    refine ⟨.scalar (.int .uint64) [⟨a, true⟩, ⟨b, true⟩], rfl, rfl, fun row hrow => ?_⟩
    have hrow' : row < 2 := hrow
    interval_cases row <;> rfl
  refine ⟨List.cons_ne_nil "number" [], fun p hp q hq col hcol => ?_, hblocks, nofun, nofun, nofun⟩
  rcases List.mem_pair.mp hp with rfl | rfl
  all_goals
    obtain rfl := List.mem_singleton.mp hq
    obtain rfl := Option.some.inj hcol
    rfl

/-- A pass without a window takes every block. -/
theorem insideBounds_blocksFrom (a b : BitVec 64) {row : ℕ} (hrow : row < 2) :
    insideBounds (some "number") (Window.mk none none).bounds (blocksFrom a b) row = true := by
  have hinside (v : BitVec 64) : (decide (0 ≤ v.toNat) && decide (v.toNat ≤ u64Max)) = true := by
    have hlt := v.isLt
    rw [Bool.and_eq_true, decide_eq_true_eq, decide_eq_true_eq]
    exact ⟨Nat.zero_le _, by unfold u64Max; omega⟩
  interval_cases row
  · exact hinside a
  · exact hinside b

theorem placed_listedBlocks (a b : BitVec 64) : listedBlocks.Placed (blocksFrom a b) :=
  ⟨nofun, nofun, fun hkeyed => absurd hkeyed (by decide)⟩

/-- Three row groups: one before block 4, one of block 5 alone, and one of both. -/
def threeGroups (cache : Option PassCache) : List FileGroup :=
  [statedBlocks 1 2 (by decide) 0 cache, statedBlocks 5 5 (by decide) 2 cache, statedBlocks 5 10 (by decide) 4 cache]

theorem mem_threeGroups {cache : Option PassCache} {group : FileGroup} (h : group ∈ threeGroups cache) :
    group.cache = cache ∧ ∃ a b, group.rows = blocksFrom a b := by
  simp only [threeGroups, List.mem_cons, List.not_mem_nil, or_false] at h
  rcases h with rfl | rfl | rfl <;> exact ⟨rfl, _, _, rfl⟩

/-- **Every tag is exact where items are left out, narrowed and joined**: the first row group is not read, the second is
read with the first item alone, narrowed to nothing it checks, and the third through the union of both. -/
theorem item_tags_exact_threeGroups : ∃ scanned fives tens,
    (ScannedTable.file (threeGroups (some ⟨fun _ => false, generous, .empty⟩))).scanRows listedBlocks = .ok scanned ∧
    scanned.matchedBy [0] = some fives ∧ scanned.matchedBy [1] = some tens ∧
    fives.flatMap RecordBatch.allValues = List.replicate 3 [("number", some (.scalar (.int .uint64) (some 5)))] ∧
    tens.flatMap RecordBatch.allValues = [[("number", some (.scalar (.int .uint64) (some 10)))]] ∧
    (threeGroups none).map (fun group => prepareRowGroup group.rows listedBlocks group.stats group.summary) =
      [none, some ⟨[0], [(0, ⟨[], []⟩)]⟩, some ⟨[0, 1], []⟩] ∧
    (itemUnion listedBlocks [0, 1]).isSome := by
  obtain ⟨parts, scanned, -, -, hscanned, -, hmatched⟩ :=
    @item_tags_exact listedBlocks (.file (threeGroups (some ⟨fun _ => false, generous, .empty⟩)))
      (fun g hg => by
        obtain ⟨group, hgroup, rfl⟩ := List.mem_map.mp hg
        obtain ⟨-, a, b, hrows⟩ := mem_threeGroups hgroup
        dsimp only
        rw [hrows]
        exact ⟨readable_listedBlocks a b, placed_listedBlocks a b, fun row hrow _ => insideBounds_blocksFrom a b hrow,
          show 2 < 2 ^ 32 by decide⟩)
      (by decide) fun group hgroup cache hcache => by
        obtain rfl := Option.some.inj ((mem_threeGroups hgroup).1.symm.trans hcache)
        exact HeldColumns.empty_holds _ _
  obtain ⟨fives, hfives, hfiveRows⟩ := hmatched [0] (by decide)
  obtain ⟨tens, htens, htenRows⟩ := hmatched [1] (by decide)
  exact ⟨scanned, fives, tens, hscanned, hfives, htens, hfiveRows, htenRows, rfl, rfl⟩

/-! ## Nothing of the pruning shows -/

section Pruning

variable {request : ScanRequest}

/-- **What a request asks of a row**: a block in the range, a key the key filter holds, an address its sources relate
to, and an item that matches. -/
def ScanRequest.asks (request : ScanRequest) (group : RecordBatch) (row : ℕ) : Bool :=
  (request.blockNumberColumn.all fun name => inBlocks name request.fromBlock request.toBlock group row) &&
    (request.keyFilter.all fun keys => keys.holdsRow group row) &&
    (request.hierarchicalFilter.all fun addresses => addresses.relatesRow group row) && request.matchesItem group row

/-- **A request's two filters follow the same rows** when a row whose address is related holds a key: the keys are those
of the groups that the addresses are looked up in. -/
def ScanRequest.Follows (request : ScanRequest) (group : RecordBatch) : Prop :=
  ∀ keys ∈ request.keyFilter, ∀ addresses ∈ request.hierarchicalFilter, ∀ row < group.numRows,
    addresses.relatesRow group row = true → keys.holdsRow group row = true

/-- The filter a scan checks rows by passes the rows that both filters of the request do. -/
theorem relation_keepsRow {group : RecordBatch} (hfollows : request.Follows group) {row : ℕ}
    (hrow : row < group.numRows) :
    (RowFilters.of request).relation.keepsRow group row =
      ((request.keyFilter.all fun keys => keys.holdsRow group row) &&
        request.hierarchicalFilter.all fun addresses => addresses.relatesRow group row) := by
  unfold RowFilters.of
  dsimp only
  cases haddresses : request.hierarchicalFilter with
  | some addresses =>
    cases hkeys : request.keyFilter with
    | none => simp [Relation.keepsRow]
    | some keys =>
      have hrelated := hfollows keys hkeys addresses haddresses row hrow
      simp only [Relation.keepsRow, Option.all_some]
      rw [Bool.eq_iff_iff, Bool.and_eq_true]
      exact ⟨fun h => ⟨hrelated h, h⟩, And.right⟩
  | none => cases request.keyFilter <;> simp [Relation.keepsRow]

/-- **The engine's filters of one relation follow the same rows.** -/
theorem holdsRow_of_relatesRow {sources : List RecordBatch} {names : List String} {sourceBlock targetBlock : String}
    {sourceAddress targetAddress : String} {mode : HierarchicalMode} {inclusive : Bool} {keys : KeyFilter}
    {addresses : HierarchicalFilter} {group : RecordBatch} (hfits : KeySet.Fits sources names)
    (hfits' : SourceAddresses.Fits sources names sourceAddress)
    (hs : ∀ b ∈ sources, b.AddressedAt names sourceAddress) (ht : group.AddressedAt names targetAddress)
    (hkeys : KeyFilter.build sources names names sourceBlock targetBlock = some keys)
    (haddresses : HierarchicalFilter.build sources names sourceAddress targetAddress mode inclusive = some addresses)
    {row : ℕ} (hrow : row < group.numRows) (h : addresses.relatesRow group row = true) :
    keys.holdsRow group row = true := by
  rw [HierarchicalFilter.build_eq hfits'] at haddresses
  obtain rfl := Option.some.inj haddresses
  have hrelated : ((HierarchicalFilter.ofBatches sources names sourceAddress targetAddress mode inclusive).mask group
      fun _ => true)[row]? = some true := by
    rw [HierarchicalFilter.mask_eq, List.getElem?_map, List.getElem?_range hrow, Option.map_some, h]
    rfl
  obtain ⟨tuple, htuple, -, -, batch, hbatch, i, hi, hown, -⟩ :=
    (HierarchicalFilter.mask_iff mode inclusive hfits' hs ht hrow).mp hrelated
  have hjoined : semiJoined sources names group names row = true :=
    semiJoined_iff.mpr ⟨tuple, htuple, batch, hbatch, i, hi, hown⟩
  rw [KeyFilter.build_eq hfits rfl] at hkeys
  obtain rfl := Option.some.inj hkeys
  have hmask := KeySet.mask_ofBatches (fun b hb => (hs b hb).keyed) ht.keyed hfits sourceBlock fun _ => true
  have hread : KeyFilter.Reads ⟨names, (KeySet.ofBatches sources names sourceBlock).keySet,
      (KeySet.ofBatches sources names sourceBlock).sortedBlocks, targetBlock, false⟩ group := KeyFilter.reads_ofBatches
  have heq := (KeyFilter.mask_eq hread fun _ => true).symm.trans hmask
  have hat := congrArg (·[row]?) (Except.ok.inj heq)
  simp only [List.getElem?_map, List.getElem?_range hrow, Option.map_some, Bool.true_or, Bool.true_and,
    Option.some_inj] at hat
  rw [hat, hjoined]

/-- **A scan keeps the rows that the request asks for**, where relation keys place the rows they pick. -/
theorem keepsRow_eq_asks {group : RecordBatch} (hreadable : request.Readable group) (hplaced : request.Placed group)
    (hfollows : request.Follows group) {row : ℕ} (hrow : row < group.numRows) :
    request.keepsRow group row = request.asks group row := by
  rw [ScanRequest.asks, Bool.and_assoc _ _ (request.hierarchicalFilter.all _), ← relation_keepsRow hfollows hrow,
    Bool.eq_iff_iff]
  constructor
  · intro hkeeps
    have hblocks : (request.blockNumberColumn.all fun name =>
        inBlocks name request.fromBlock request.toBlock group row) = true :=
      Option.all_eq_true _ _ |>.mpr fun name hname => inBlocks_of_keepsRow hreadable.blocks hplaced hrow hkeeps hname
    rw [ScanRequest.keepsRow, Bool.and_assoc, Bool.and_eq_true] at hkeeps
    rw [Bool.and_assoc, hblocks, hkeeps.2]
    rfl
  · intro hasks
    rw [Bool.and_assoc, Bool.and_eq_true] at hasks
    have hrange : request.inRange group row = true := by
      by_cases hkeyed : request.keyed = true
      · rw [ScanRequest.keyed] at hkeyed
        have hnone : (RowFilters.of request).blocks = none := by
          change (if _ && !(RowFilters.of request).relation.keyed && _ then _ else none) = none
          rw [hkeyed]
          simp
        rw [ScanRequest.inRange, hnone]
      · cases hname : request.blockNumberColumn with
        | none => rw [ScanRequest.inRange, hname]; cases (RowFilters.of request).blocks <;> rfl
        | some name =>
          obtain ⟨t, v, hcell⟩ := hreadable.blocks.exists_block hname hrow
          rw [inRange_eq_inBlocks (Bool.not_eq_true _ ▸ hkeyed) hname hcell]
          exact (Option.all_eq_true _ _).mp hasks.1 name hname
    rw [ScanRequest.keepsRow, hrange, Bool.true_and]
    exact hasks.2

/-- **Pruning and staging are invisible.**  Of the row groups of a file, each with statistics that are sound or say
nothing, a scan returns the rows that the request asks for and no others, in file order. -/
theorem pruning_invisible {groups : List FileGroup} (hcache : ∀ group ∈ groups, group.cache = none)
    (hreadable : ∀ group ∈ groups, request.Readable group.rows) (hplaced : ∀ group ∈ groups, request.Placed group.rows)
    (hfollows : ∀ group ∈ groups, request.Follows group.rows) :
    ∃ parts, (ScannedTable.file groups).scanBatches request = .ok parts ∧
      parts.flatMap ScannedBatch.rows = groups.flatMap fun group =>
        ((List.range group.rows.numRows).filter (request.asks group.rows)).map
          (request.rowOf group.rows group.start) := by
  obtain ⟨parts, hparts, -, hrows⟩ := scanGroups_rows groups fun group hmem =>
    group.scan_rows_of_no_cache (hreadable group hmem) (hplaced group hmem) (hcache group hmem)
  refine ⟨parts, hparts, hrows.trans (List.flatMap_congr fun group hmem => ?_)⟩
  rw [ScanRequest.rowsOf]
  congr 1
  exact List.filter_congr fun row hrow =>
    keepsRow_eq_asks (hreadable group hmem) (hplaced group hmem) (hfollows group hmem) (List.mem_range.mp hrow)

/-- A call of a file without statistics. -/
def uncached (rows : RecordBatch) : FileGroup :=
  ⟨rows, 0, wholeReader, none, fun _ => none, fun _ => ⟨none, false⟩, nofun, fun _ => ⟨nofun, nofun⟩⟩

/-- The calls below a call, and itself, by their block and address. -/
def callsBelow : ScanRequest :=
  { everyBlock none [] with
    keyFilter := KeyFilter.build [lateCall] ["number"] ["number"] "number" "number"
    hierarchicalFilter := HierarchicalFilter.build [lateCall] ["number"] "address" "address" .children true }

theorem addressedAt_lateCall : lateCall.AddressedAt ["number"] "address" := ⟨.cons rfl .nil, rfl⟩

/-- **Row groups are left out and items narrowed and joined, and none of it shows**; and a scan that follows addresses
with the keys of their groups keeps the related rows. -/
theorem pruning_invisible_threeGroups :
    (∃ parts, (ScannedTable.file (threeGroups none)).scanBatches listedBlocks = .ok parts ∧
      (parts.flatMap ScannedBatch.rows).map (fun row => (row.position, row.tags)) =
        [(some 2, [some true, some false]), (some 3, [some true, some false]), (some 4, [some true, some false]),
          (some 5, [some false, some true])]) ∧
    ∃ parts, (ScannedTable.file [uncached lateCall]).scanBatches callsBelow = .ok parts ∧
      (parts.flatMap ScannedBatch.rows).map ScannedRow.position = [some 0] := by
  refine ⟨?_, ?_⟩
  · obtain ⟨parts, hparts, hrows⟩ := @pruning_invisible listedBlocks (threeGroups none)
      (fun group hgroup => (mem_threeGroups hgroup).1)
      (fun group hgroup => by
        obtain ⟨-, a, b, hrows⟩ := mem_threeGroups hgroup
        exact hrows ▸ readable_listedBlocks a b)
      (fun group hgroup => by
        obtain ⟨-, a, b, hrows⟩ := mem_threeGroups hgroup
        exact hrows ▸ placed_listedBlocks a b)
      fun group hgroup => nofun
    exact ⟨parts, hparts, by rw [hrows]; rfl⟩
  · have hkeys : ∀ keys ∈ callsBelow.keyFilter, keys.sortedBlocks = [0] ∧ keys.blockNumberColumn = "number" ∧
        keys.Fits := by
      intro keys hkeys
      obtain rfl := Option.some.inj hkeys
      exact ⟨by decide, rfl, fun sources h => by cases h⟩
    obtain ⟨parts, hparts, hrows⟩ := @pruning_invisible callsBelow [uncached lateCall]
      (fun group hgroup => by obtain rfl := List.mem_singleton.mp hgroup; rfl)
      (fun group hgroup => by
        obtain rfl := List.mem_singleton.mp hgroup
        refine ⟨List.cons_ne_nil "number" [], nofun, fun name hname => ?_, fun keys h => (hkeys keys h).2.2,
          fun keys h => ?_, fun _ => rfl⟩
        · obtain rfl : "number" = name := Option.some.inj hname
          refine ⟨.scalar (.int .uint64) [⟨0, true⟩], rfl, rfl, fun row hrow => ?_⟩
          have hrow' : row < 1 := hrow
          interval_cases row
          rfl
        · obtain rfl := Option.some.inj h
          intro converter values hset
          cases hset)
      (fun group hgroup => by
        obtain rfl := List.mem_singleton.mp hgroup
        refine ⟨fun keys h => ?_, fun keys h row hrow _ => ?_, fun hkeyed => absurd hkeyed (by decide)⟩
        · rw [(hkeys keys h).1]
          exact List.pairwise_singleton _ _
        · rw [(hkeys keys h).1, (hkeys keys h).2.1]
          have hrow' : row < 1 := hrow
          interval_cases row
          exact ⟨.uint64, 0, rfl, List.mem_singleton_self _⟩)
      fun group hgroup keys hkeys addresses haddresses row hrow h => by
        obtain rfl := List.mem_singleton.mp hgroup
        have hbuilt : HierarchicalFilter.build [lateCall] ["number"] "address" "address" .children true =
            some addresses := haddresses
        exact holdsRow_of_relatesRow (fun h => absurd h (by decide)) ⟨by decide, by decide⟩
          (fun b hb => List.mem_singleton.mp hb ▸ addressedAt_lateCall) addressedAt_lateCall hkeys hbuilt hrow h
    exact ⟨parts, hparts, by rw [hrows]; rfl⟩

/-- The calls below a call of block 0, among the keys of another block. -/
def otherKeys : ScanRequest :=
  { callsBelow with keyFilter := KeyFilter.build [blocksFrom 1 1] ["number"] ["number"] "number" "number" }

/-- **Relation keys fix the blocks of the rows they pick**, so no filter checks the range of these rows: keys outside it
pick rows outside it.  And addresses are checked instead of keys, so keys of other rows do not leave out a row whose
address is related. -/
theorem pruning_visible_earlyKeys :
    (((ScannedTable.file [uncached twoBlocks]).scanBatches earlyKeys).map
        (fun parts => (parts.flatMap ScannedBatch.rows).map ScannedRow.position) = .ok [some 0] ∧
      (List.range twoBlocks.numRows).filter (earlyKeys.asks twoBlocks) = []) ∧
    ((ScannedTable.file [uncached lateCall]).scanBatches otherKeys).map
        (fun parts => (parts.flatMap ScannedBatch.rows).map ScannedRow.position) = .ok [some 0] ∧
      (List.range lateCall.numRows).filter (otherKeys.asks lateCall) = [] :=
  ⟨⟨rfl, rfl⟩, rfl, rfl⟩

end Pruning

end QueryEngine
