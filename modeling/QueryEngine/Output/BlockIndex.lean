import QueryEngine.Library.CountingSort
import QueryEngine.Library.Segments
import QueryEngine.Output.MergedSources

/-!
# Output/BlockIndex — the rows of a page's blocks

A page's blocks are found by position, in a table of slots when they are dense and by bisection otherwise;
its rows are then counted and put by their block's position.  A slot holds a position and one at 32 bits, so
the table loses the block at position `2 ^ 32 - 1` of a page that long; below that both forms say where each
block is, and the index lists each block's rows in file order (`BlockPositions.exact_iff`).
-/

open Lookup Segments CountingSort Fallible

namespace QueryEngine

/-- A page's blocks: ascending, each once, and each a 64-bit number. -/
structure PageBlocks where
  blocks : List ℕ
  ascending : blocks.Pairwise (· < ·)
  fits : ∀ b ∈ blocks, b < 2 ^ 64

/-! ## Positions -/

/-- Where each block of a page sits in it. -/
structure BlockPositions where
  blocks : List ℕ
  /-- `position + 1` of block `blocks[0] + i`, or 0 for a block the page lacks. -/
  dense : Option (List ℕ)

namespace BlockPositions

/-- How many block numbers a page spans. -/
def span (blocks : List ℕ) : Option ℕ :=
  match blocks.head?, blocks.getLast? with
  | some first, some last => (subChecked last first).bind fun reach => addChecked 128 reach 1
  | _, _ => some 0

/-- A position and one, as a 32-bit slot holds it. -/
def slotEntry (position : ℕ) : ℕ := (position % 2 ^ 32 + 1) % 2 ^ 32

/-- A block's slot written. -/
def fill (first : ℕ) (dense : List ℕ) (entry : ℕ × ℕ) : Option (List ℕ) :=
  (subChecked entry.1 first).bind fun slot =>
    if slot < dense.length then some (dense.set slot (slotEntry entry.2)) else none

/-- The positions of a page's blocks; a span past what 64 bits count is cut to them. -/
def new (blocks : List ℕ) : Option BlockPositions :=
  (span blocks).bind fun span =>
    (mulChecked 128 blocks.length 4).bind fun slots =>
      if span ≤ max slots (2 ^ 16) then
        (blocks.zipIdx.foldlM (fill (blocks.headD 0)) (List.replicate (span % 2 ^ 64) 0)).map fun dense =>
          ⟨blocks, some dense⟩
      else some ⟨blocks, none⟩

/-- A block's position, by bisection. -/
def search (blocks : List ℕ) (block : ℕ) : Option ℕ :=
  let place := partitionPoint (fun b => decide (b < block)) blocks
  if blocks[place]? = some block then some place else none

/-- A block's position in the page. -/
def position (positions : BlockPositions) (block : ℕ) : Option ℕ :=
  match positions.dense with
  | some dense =>
    positions.blocks.head?.bind fun first =>
      (subChecked block first).bind fun slot => dense[slot]?.bind fun entry => subChecked entry 1
  | none => search positions.blocks block

/-! ### Where each block is -/

/-- **Bisection says where each block is.** -/
theorem search_eq_some {blocks : List ℕ} (h : blocks.Pairwise (· < ·)) {block i : ℕ} :
    search blocks block = some i ↔ blocks[i]? = some block := by
  unfold search
  dsimp only
  constructor
  · intro hfound
    split at hfound
    · next hat =>
      obtain rfl := Option.some.inj hfound
      exact hat
    · exact absurd hfound (by simp)
  · intro hi
    have hfound := (binarySearch_iff h block).mpr (List.mem_of_getElem? hi)
    rw [binarySearch, beq_iff_eq] at hfound
    rw [if_pos hfound, Option.some.injEq]
    exact (List.getElem?_inj (List.getElem?_eq_some_iff.mp hfound).1
      (h.imp fun hlt => Nat.ne_of_lt hlt)).mp (hfound.trans hi.symm)

section Fill

variable {blocks : List ℕ} {first size : ℕ} {dense : List ℕ}

/-- **Filling the table writes each block's own slot**, and no other. -/
theorem fill_run (hascending : blocks.Pairwise (· < ·)) (hfirst : ∀ b ∈ blocks, first ≤ b)
    (h : blocks.zipIdx.foldlM (fill first) (List.replicate size 0) = some dense) :
    dense.length = size ∧ (∀ i b, blocks[i]? = some b → dense[b - first]? = some (slotEntry i)) ∧
      ∀ k entry, (∀ b ∈ blocks, b - first ≠ k) → dense[k]? = some entry → entry = 0 := by
  induction blocks using List.reverseRecOn generalizing dense with
  | nil =>
    obtain rfl := Option.some.inj h
    refine ⟨List.length_replicate, fun i b hb => absurd hb (by simp), fun k entry _ hk => ?_⟩
    exact (List.mem_replicate.mp (List.mem_of_getElem? hk)).2
  | append_singleton blocks b ih =>
    rw [List.zipIdx_append, List.zipIdx_singleton, Nat.zero_add, CountingSort.foldlM_concat] at h
    obtain ⟨before, hbefore, hlast⟩ := Option.bind_eq_some_iff.mp h
    obtain ⟨hlength, hentries, helsewhere⟩ := ih (List.pairwise_append.mp hascending).1
      (fun x hx => hfirst x (List.mem_append_left _ hx)) hbefore
    have hb := hfirst b (by simp)
    rw [fill, subChecked_of_le hb, Option.bind_some] at hlast
    split at hlast
    · next hslot =>
      obtain rfl := Option.some.inj hlast
      have hne {x : ℕ} (hx : x ∈ blocks) : b - first ≠ x - first := by
        have hlt := (List.pairwise_append.mp hascending).2.2 x hx b (by simp)
        have hle := hfirst x (List.mem_append_left _ hx)
        omega
      refine ⟨by rw [List.length_set, hlength], fun i x hx => ?_, fun k entry hk hentry => ?_⟩
      · rcases Nat.lt_or_ge i blocks.length with hi | hi
        · rw [List.getElem?_append_left hi] at hx
          rw [List.getElem?_set_ne (hne (List.mem_of_getElem? hx))]
          exact hentries i x hx
        · rw [List.getElem?_append_right hi, List.getElem?_singleton] at hx
          split at hx
          · next hi0 =>
            obtain rfl := Option.some.inj hx
            obtain rfl : i = blocks.length := by omega
            exact List.getElem?_set_self hslot
          · exact absurd hx (by simp)
      · rw [List.getElem?_set_ne (hk b (by simp))] at hentry
        exact helsewhere k entry (fun x hx => hk x (List.mem_append_left _ hx)) hentry
    · exact absurd hlast (by simp)

/-- A table as long as the span has a slot for each block. -/
theorem exists_fill (hascending : blocks.Pairwise (· < ·))
    (hblocks : ∀ b ∈ blocks, first ≤ b ∧ b - first < size) :
    ∃ dense, blocks.zipIdx.foldlM (fill first) (List.replicate size 0) = some dense := by
  induction blocks using List.reverseRecOn with
  | nil => exact ⟨_, rfl⟩
  | append_singleton blocks b ih =>
    have hbefore := fun x hx => hblocks x (List.mem_append_left [b] hx)
    have hascending' := (List.pairwise_append.mp hascending).1
    obtain ⟨before, hfill⟩ := ih hascending' hbefore
    have hlength := (fill_run hascending' (fun x hx => (hbefore x hx).1) hfill).1
    obtain ⟨hfirst, hslot⟩ := hblocks b (by simp)
    rw [List.zipIdx_append, List.zipIdx_singleton, Nat.zero_add, CountingSort.foldlM_concat, hfill,
      Option.bind_some, fill, subChecked_of_le hfirst, Option.bind_some, hlength, if_pos hslot]
    exact ⟨_, rfl⟩

end Fill

end BlockPositions

/-! ## Rows by block -/

/-- The block of each row of a batch that carries the column. -/
def batchRowBlocks (batch : RecordBatch) (bnColumn : String) : Result (List ℕ) :=
  match batch.columnByName bnColumn with
  | none => .ok []
  | some col =>
    match IntColumn.resolve col with
    | none => .error ⟨.unsupportedKeyType, "block number column '" ++ bnColumn ++ "' is stored as " ++
        col.dataType.display ++ ", which is not an integer"⟩
    | some reader => .ok reader.blockNumbers

/-- Every row and its block, in the order the rows sit in. -/
def rowBlocks (batches : List RecordBatch) (bnColumn : String) : Result (List ((ℕ × ℕ) × ℕ)) :=
  (batches.zipIdx.mapM fun batch => (batchRowBlocks batch.1 bnColumn).map fun blocks =>
    blocks.zipIdx.map fun row => ((batch.2, row.2), row.1)).map List.flatten

/-- The rows of a page's blocks: one run of rows a block, all in one buffer. -/
structure BlockIndex where
  /-- Block `i`'s rows are those from the `i`th start to the next. -/
  starts : List ℕ
  rows : List (ℕ × ℕ)

namespace BlockIndex

/-- Each block's rows in file order; nothing where an index would be out of bounds. -/
def build (batches : List RecordBatch) (bnColumn : String) (positions : BlockPositions) :
    Result (Option BlockIndex) :=
  (rowBlocks batches bnColumn).map fun visits =>
    (group id (fun visit => positions.position visit.2) Prod.fst positions.blocks.length (0, 0) visits).map
      fun built => ⟨built.1, built.2⟩

/-- The rows of the page's `position`th block. -/
def rowsAt (index : BlockIndex) (position : ℕ) : Option (List (ℕ × ℕ)) :=
  index.starts[position]?.bind fun start =>
    index.starts[position + 1]?.bind fun stop =>
      if start ≤ stop ∧ stop ≤ index.rows.length then
        some ((index.rows.drop start).take (stop - start))
      else none

end BlockIndex

/-! ## What the positions of a page say -/

namespace BlockPositions

variable {page : PageBlocks} {size : ℕ}

/-- Whether a page's blocks are dense enough to take a slot each. -/
def isDense (blocks : List ℕ) : Bool :=
  (span blocks).any fun span => decide (span ≤ max (blocks.length * 4) (2 ^ 16))

/-- A page holds no more blocks than there are numbers. -/
theorem length_le (page : PageBlocks) : page.blocks.length ≤ 2 ^ 64 := by
  have hnodup : page.blocks.Nodup := page.ascending.imp fun h => Nat.ne_of_lt h
  rw [← List.toFinset_card_of_nodup hnodup]
  calc page.blocks.toFinset.card ≤ (Finset.range (2 ^ 64)).card :=
        Finset.card_le_card fun b hb => Finset.mem_range.mpr (page.fits b (List.mem_toFinset.mp hb))
    _ = 2 ^ 64 := Finset.card_range _

/-- **A page's span never overflows**, and each of its blocks is within it. -/
theorem exists_span (page : PageBlocks) : ∃ reach, span page.blocks = some reach ∧ reach ≤ 2 ^ 64 ∧
    ∀ b ∈ page.blocks, page.blocks.headD 0 ≤ b ∧ b - page.blocks.headD 0 < reach := by
  obtain ⟨blocks, hascending, hfits⟩ := page
  dsimp only
  cases blocks with
  | nil => exact ⟨0, rfl, Nat.zero_le _, fun b hb => absurd hb (by simp)⟩
  | cons first rest =>
    have hlast : (first :: rest).getLast (by simp) < 2 ^ 64 := hfits _ (List.getLast_mem (by simp))
    have hbound : ∀ b ∈ first :: rest, first ≤ b ∧ b ≤ (first :: rest).getLast (by simp) := by
      intro b hb
      refine ⟨?_, ?_⟩
      · rcases rel_head hascending hb with rfl | hlt
        · exact le_refl _
        · exact le_of_lt hlt
      · rcases rel_getLast hascending (by simp) hb with heq | hlt
        · exact le_of_eq heq
        · exact le_of_lt hlt
    have hreach := (hbound first List.mem_cons_self).2
    refine ⟨(first :: rest).getLast (by simp) - first + 1, ?_, by omega, fun b hb => ?_⟩
    · rw [span, List.head?_cons, List.getLast?_eq_some_getLast (by simp)]
      dsimp only
      rw [subChecked_of_le hreach, Option.bind_some, addChecked_of_lt (by omega)]
    · obtain ⟨hfirst, hle⟩ := hbound b hb
      rw [List.headD_cons]
      omega

/-- **A page's positions are found by the form its density asks for.** -/
theorem new_eq (page : PageBlocks) : ∃ reach, span page.blocks = some reach ∧ new page.blocks =
    if isDense page.blocks then
      (page.blocks.zipIdx.foldlM (fill (page.blocks.headD 0)) (List.replicate (reach % 2 ^ 64) 0)).map
        fun dense => ⟨page.blocks, some dense⟩
    else some ⟨page.blocks, none⟩ := by
  obtain ⟨reach, hspan, -, -⟩ := exists_span page
  have hlength := length_le page
  refine ⟨reach, hspan, ?_⟩
  rw [new, isDense, hspan, Option.bind_some, mulChecked_of_lt (by omega), Option.bind_some, Option.any_some]
  simp only [decide_eq_true_eq]

/-- **In the table a block is at its position**, as long as a slot holds it. -/
theorem position_dense {dense : List ℕ} (hfill : page.blocks.zipIdx.foldlM (fill (page.blocks.headD 0))
    (List.replicate size 0) = some dense) (hlength : page.blocks.length < 2 ^ 32)
    (hfirst : ∀ b ∈ page.blocks, page.blocks.headD 0 ≤ b) {block i : ℕ} :
    position ⟨page.blocks, some dense⟩ block = some i ↔ page.blocks[i]? = some block := by
  obtain ⟨-, hentries, helsewhere⟩ := fill_run page.ascending hfirst hfill
  have hentry {j : ℕ} (hj : j < page.blocks.length) : slotEntry j = j + 1 := by
    rw [slotEntry, Nat.mod_eq_of_lt (by omega), Nat.mod_eq_of_lt (by omega)]
  constructor
  · intro h
    obtain ⟨first, hhead, hrest⟩ := Option.bind_eq_some_iff.mp h
    obtain ⟨slot, hslot, hrest⟩ := Option.bind_eq_some_iff.mp hrest
    obtain ⟨entry, hat, hpos⟩ := Option.bind_eq_some_iff.mp hrest
    have hheadD : page.blocks.headD 0 = first := by rw [List.headD_eq_head?_getD, hhead, Option.getD_some]
    obtain ⟨hle, rfl⟩ := subChecked_eq_some.mp hslot
    obtain ⟨hpos, rfl⟩ := subChecked_eq_some.mp hpos
    -- the slot is one some block wrote, and that block is this one
    by_contra hne
    refine absurd (helsewhere (block - first) entry (fun b hb heq => hne ?_) hat) (by omega)
    have hb' := hfirst b hb
    obtain rfl : b = block := by omega
    obtain ⟨j, hj, hjb⟩ := List.mem_iff_getElem.mp hb
    have hown := hentries j b (by rw [List.getElem?_eq_getElem hj, hjb])
    rw [hheadD, hat, hentry hj, Option.some.injEq] at hown
    rw [hown, Nat.add_sub_cancel, List.getElem?_eq_getElem hj, hjb]
  · intro h
    obtain ⟨hi, -⟩ := List.getElem?_eq_some_iff.mp h
    have hmem := List.mem_of_getElem? h
    have hhead : page.blocks.head? = some (page.blocks.headD 0) := by
      cases hblocks : page.blocks with
      | nil => rw [hblocks] at hmem; exact absurd hmem (by simp)
      | cons first rest => rfl
    rw [position]
    dsimp only
    rw [hhead, Option.bind_some, subChecked_of_le (hfirst block hmem), Option.bind_some, hentries i block h,
      Option.bind_some, hentry hi, subChecked_of_le (by omega), Nat.add_sub_cancel]

/-- **The table loses the block whose position and one a slot does not hold.** -/
theorem position_lost {dense : List ℕ} (hfill : page.blocks.zipIdx.foldlM (fill (page.blocks.headD 0))
    (List.replicate size 0) = some dense) (hfirst : ∀ b ∈ page.blocks, page.blocks.headD 0 ≤ b)
    {block : ℕ} (hblock : page.blocks[2 ^ 32 - 1]? = some block) :
    position ⟨page.blocks, some dense⟩ block = none := by
  obtain ⟨-, hentries, -⟩ := fill_run page.ascending hfirst hfill
  have hentry := hentries _ block hblock
  have hmem := List.mem_of_getElem? hblock
  rw [position]
  dsimp only
  cases hblocks : page.blocks with
  | nil => rfl
  | cons first rest =>
    have hhead : page.blocks.headD 0 = first := by rw [hblocks, List.headD_cons]
    rw [hhead] at hentry hfirst
    rw [List.head?_cons, Option.bind_some, subChecked_of_le (hfirst block hmem), Option.bind_some, hentry]
    rfl

end BlockPositions

/-! ## Rows in file order -/

/-- What a batch's reader says is each row's block. -/
theorem blockAt_eq {batch : RecordBatch} {bnColumn : String} {blocks : List ℕ}
    (h : batchRowBlocks batch bnColumn = .ok blocks) (row : ℕ) :
    batch.blockAt bnColumn row = blocks[row]? := by
  unfold batchRowBlocks at h
  unfold RecordBatch.blockAt
  split at h
  · next hcol =>
    obtain rfl := Except.ok.inj h
    rw [hcol]
    rfl
  · next col hcol =>
    split at h
    · exact absurd h (by simp)
    · next reader hreader =>
      obtain rfl := Except.ok.inj h
      rw [hcol, Option.bind_some, hreader, Option.bind_some]

theorem length_batchRowBlocks {batch : RecordBatch} {bnColumn : String} {blocks : List ℕ}
    (h : batchRowBlocks batch bnColumn = .ok blocks) : blocks.length ≤ batch.numRows := by
  unfold batchRowBlocks at h
  split at h
  · obtain rfl := Except.ok.inj h
    exact Nat.zero_le _
  · next col hcol =>
    split at h
    · exact absurd h (by simp)
    · next reader hreader =>
      obtain rfl := Except.ok.inj h
      rw [IntColumn.blockNumbers, List.length_map, IntColumn.length_slots hreader, batch.len_columnByName hcol]

/-- The places of an element are its indices in order. -/
theorem map_snd_filter_zipIdx (blocks : List ℕ) (block : ℕ) {n : ℕ} (hn : blocks.length ≤ n) :
    (blocks.zipIdx.filter fun row => decide (row.1 = block)).map Prod.snd =
      (List.range n).filter fun row => decide (blocks[row]? = some block) := by
  have hfilter : (blocks.zipIdx.filter fun row => decide (row.1 = block)) =
      blocks.zipIdx.filter ((fun row => decide (blocks[row]? = some block)) ∘ Prod.snd) := by
    refine List.filter_congr fun row hrow => ?_
    refine decide_eq_decide.mpr ?_
    rw [List.mem_zipIdx_iff_getElem?.mp hrow, Option.some.injEq]
  obtain ⟨k, rfl⟩ := Nat.exists_eq_add_of_le hn
  have hpast : ((List.range k).map (blocks.length + ·)).filter
      (fun row => decide (blocks[row]? = some block)) = [] := by
    refine List.filter_eq_nil_iff.mpr fun row hrow => ?_
    obtain ⟨j, -, rfl⟩ := List.mem_map.mp hrow
    rw [List.getElem?_eq_none (Nat.le_add_right _ _)]
    simp
  rw [hfilter, ← List.filter_map, List.zipIdx_map_snd, List.range_add, List.filter_append, hpast,
    List.append_nil, List.range_eq_range']

/-- **The rows visited at a block are the block's rows**, in file order. -/
theorem map_filter_rowBlocks {batches : List RecordBatch} {bnColumn : String}
    {visits : List ((ℕ × ℕ) × ℕ)} (h : rowBlocks batches bnColumn = .ok visits) (block : ℕ) :
    (visits.filter fun visit => decide (visit.2 = block)).map Prod.fst =
      rowsOfBlock batches bnColumn block := by
  obtain ⟨perBatch, hbatches, rfl⟩ := map_eq_ok.mp h
  have hall := mapM_eq_ok.mp hbatches
  have hindexed : ∀ p ∈ batches.zipIdx, batches[p.2]? = some p.1 := fun p hp =>
    List.mem_zipIdx_iff_getElem?.mp hp
  rw [rowsOfBlock, Rows.refs]
  change _ = (batches.zipIdx.flatMap _).filter _
  clear hbatches h
  generalize batches.zipIdx = indexed at hall hindexed
  induction hall with
  | nil => rfl
  | @cons p visits indexed perBatch hp hrest ih =>
    obtain ⟨blocks, hblocks, rfl⟩ := map_eq_ok.mp hp
    rw [List.flatten_cons, List.filter_append, List.map_append, List.flatMap_cons, List.filter_append,
      ih fun q hq => hindexed q (List.mem_cons_of_mem _ hq)]
    refine congrArg (· ++ _) ?_
    rw [List.filter_map, List.map_map, List.filter_map]
    have hrows := map_snd_filter_zipIdx blocks block (length_batchRowBlocks hblocks)
    have hat : ((List.range p.1.numRows).filter
        ((fun r => (batches[r.1]?).any fun batch => decide (batch.blockAt bnColumn r.2 = some block)) ∘
          fun row => (p.2, row))) =
        (List.range p.1.numRows).filter fun row => decide (blocks[row]? = some block) := by
      refine List.filter_congr fun row _ => ?_
      rw [Function.comp_apply, hindexed p List.mem_cons_self, Option.any_some, blockAt_eq hblocks]
    rw [hat, ← hrows, List.map_map]
    rfl

namespace BlockPositions

/-- What positions of a page are good for: both forms agree and say where each block is, nothing is said of
other numbers, and the index built by them is each block's rows in file order, every row once. -/
structure Exact (page : PageBlocks) (positions : BlockPositions) : Prop where
  agrees : ∀ block, positions.position block = search page.blocks block
  placed : ∀ block i, positions.position block = some i ↔ page.blocks[i]? = some block
  outside : ∀ block, block ∉ page.blocks → positions.position block = none
  grouped : ∀ (batches : List RecordBatch) (bnColumn : String) (visits : List ((ℕ × ℕ) × ℕ)),
    rowBlocks batches bnColumn = .ok visits → ∃ index,
      BlockIndex.build batches bnColumn positions = .ok (some index) ∧
      (∀ i block, page.blocks[i]? = some block → index.rowsAt i = some (rowsOfBlock batches bnColumn block)) ∧
      index.rows = page.blocks.flatMap (rowsOfBlock batches bnColumn) ∧ index.rows.Nodup

/-- A row is of one block. -/
theorem nodup_rowsOfBlocks {blocks : List ℕ} (h : blocks.Nodup) (batches : List RecordBatch)
    (bnColumn : String) : (blocks.flatMap (rowsOfBlock batches bnColumn)).Nodup := by
  refine List.nodup_flatMap.mpr ⟨fun block _ => (nodup_refs _).filter _, h.imp fun hne r hr hr' => ?_⟩
  obtain ⟨batch, hbatch, -, hblock⟩ := mem_rowsOfBlock.mp hr
  obtain ⟨batch', hbatch', -, hblock'⟩ := mem_rowsOfBlock.mp hr'
  obtain rfl := Option.some.inj (hbatch.symm.trans hbatch')
  exact hne (Option.some.inj (hblock.symm.trans hblock'))

/-- **Positions that are right group rows right.** -/
theorem grouped_of_placed {page : PageBlocks} {positions : BlockPositions}
    (hblocks : positions.blocks = page.blocks)
    (hplaced : ∀ block i, positions.position block = some i ↔ page.blocks[i]? = some block)
    {batches : List RecordBatch} {bnColumn : String} {visits : List ((ℕ × ℕ) × ℕ)}
    (hvisits : rowBlocks batches bnColumn = .ok visits) : ∃ index,
      BlockIndex.build batches bnColumn positions = .ok (some index) ∧
      (∀ i block, page.blocks[i]? = some block → index.rowsAt i = some (rowsOfBlock batches bnColumn block)) ∧
      index.rows = page.blocks.flatMap (rowsOfBlock batches bnColumn) ∧ index.rows.Nodup := by
  set bucket : (ℕ × ℕ) × ℕ → Option ℕ := fun visit => positions.position visit.2 with hbucket
  have hbound : ∀ visit ∈ visits, ∀ i, bucket visit = some i → i < page.blocks.length := fun visit _ i hi =>
    (List.getElem?_eq_some_iff.mp ((hplaced visit.2 i).mp hi)).1
  have hrun {i block : ℕ} (hi : page.blocks[i]? = some block) :
      (ofBucket bucket visits i).map Prod.fst = rowsOfBlock batches bnColumn block := by
    rw [← map_filter_rowBlocks hvisits block, ofBucket]
    refine congrArg (List.map Prod.fst) (List.filter_congr fun visit _ => decide_eq_decide.mpr ?_)
    rw [hbucket, hplaced, hi, Option.some.injEq, eq_comm]
  have hrows : ((List.range page.blocks.length).flatMap fun i => (ofBucket bucket visits i).map Prod.fst) =
      page.blocks.flatMap (rowsOfBlock batches bnColumn) := by
    have hnumbers := List.zipIdx_map_snd 0 page.blocks
    have hblocks := List.zipIdx_map_fst 0 page.blocks
    rw [List.range_eq_range', ← hnumbers, List.flatMap_map]
    conv_rhs => rw [← hblocks, List.flatMap_map]
    exact List.flatMap_congr fun p hp => hrun (List.mem_zipIdx_iff_getElem?.mp hp)
  have hstart {i : ℕ} (hi : i < page.blocks.length + 1) :
      ((List.range (page.blocks.length + 1)).map (startOf bucket visits))[i]? =
        some (startOf bucket visits i) := by
    rw [List.getElem?_map, List.getElem?_range hi, Option.map_some]
  refine ⟨⟨(List.range (page.blocks.length + 1)).map (startOf bucket visits),
    (List.range page.blocks.length).flatMap fun i => (ofBucket bucket visits i).map Prod.fst⟩, ?_,
    fun i block hi => ?_, hrows, ?_⟩
  · rw [BlockIndex.build, hvisits, hblocks]
    exact congrArg Except.ok (congrArg (Option.map _) (group_eq (0, 0) (fun _ _ => rfl) hbound))
  · have hlt := (List.getElem?_eq_some_iff.mp hi).1
    rw [BlockIndex.rowsAt, hstart (by omega), Option.bind_some, hstart (by omega), Option.bind_some, if_pos,
      run_group hlt, hrun hi]
    exact ⟨startOf_mono bucket visits (by omega), by rw [length_runs]; exact startOf_mono bucket visits hlt⟩
  · rw [hrows]
    exact nodup_rowsOfBlocks (page.ascending.imp fun h => Nat.ne_of_lt h) batches bnColumn

/-- Positions that say where each block is are exact. -/
theorem exact_of_placed {page : PageBlocks} {positions : BlockPositions}
    (hblocks : positions.blocks = page.blocks)
    (hplaced : ∀ block i, positions.position block = some i ↔ page.blocks[i]? = some block) :
    Exact page positions where
  agrees block := Option.ext fun i => (hplaced block i).trans (search_eq_some page.ascending).symm
  placed := hplaced
  outside block hout := Option.eq_none_iff_forall_not_mem.mpr fun i hi =>
    hout (List.mem_of_getElem? ((hplaced block i).mp hi))
  grouped _ _ _ := grouped_of_placed hblocks hplaced

/-- A dense page of `2 ^ 32` blocks or more has no exact positions. -/
theorem not_exact {page : PageBlocks} (hdense : isDense page.blocks = true)
    (hlength : 2 ^ 32 ≤ page.blocks.length) {positions : BlockPositions}
    (hnew : new page.blocks = some positions) : ¬Exact page positions := by
  intro hexact
  obtain ⟨reach, -, hform⟩ := new_eq page
  obtain ⟨reach', hspan, -, hblocks⟩ := exists_span page
  rw [hform, if_pos hdense] at hnew
  obtain ⟨dense, hfill, rfl⟩ := Option.map_eq_some_iff.mp hnew
  have hat : page.blocks[2 ^ 32 - 1]? = some page.blocks[2 ^ 32 - 1] := List.getElem?_eq_getElem (by omega)
  have hlost := position_lost hfill (fun b hb => (hblocks b hb).1) hat
  rw [(hexact.placed _ _).mpr hat] at hlost
  exact absurd hlost (by simp)

/-- **The positions of a page are exact, and its index with them, unless it is dense and of `2 ^ 32` blocks or
more.** -/
theorem exact_iff (page : PageBlocks) : (∃ positions, new page.blocks = some positions ∧ Exact page positions) ↔
    (isDense page.blocks = true → page.blocks.length < 2 ^ 32) := by
  constructor
  · rintro ⟨positions, hnew, hexact⟩ hdense
    by_contra hlength
    exact not_exact hdense (Nat.le_of_not_lt hlength) hnew hexact
  · intro h
    obtain ⟨reach, hspan, hform⟩ := new_eq page
    obtain ⟨reach', hspan', -, hblocks⟩ := exists_span page
    obtain rfl := Option.some.inj (hspan.symm.trans hspan')
    cases hdense : isDense page.blocks with
    | false =>
      rw [hdense, if_neg (by simp)] at hform
      exact ⟨_, hform, exact_of_placed rfl fun block i => search_eq_some page.ascending⟩
    | true =>
      have hlength := h hdense
      have hsize : reach < 2 ^ 64 := by
        rw [isDense, hspan, Option.any_some, decide_eq_true_eq] at hdense
        omega
      obtain ⟨dense, hfill⟩ := exists_fill page.ascending hblocks
      rw [hdense, if_pos rfl, Nat.mod_eq_of_lt hsize, hfill] at hform
      exact ⟨_, hform, exact_of_placed rfl fun block i =>
        position_dense hfill hlength fun b hb => (hblocks b hb).1⟩

/-- A page without gaps is dense. -/
theorem isDense_range {n : ℕ} (hn : 0 < n) (hfits : n < 2 ^ 128) : isDense (List.range n) = true := by
  obtain ⟨k, rfl⟩ : ∃ k, n = k + 1 := ⟨n - 1, by omega⟩
  have hspan : span (List.range (k + 1)) = some (k + 1) := by
    rw [span, List.head?_range, List.getLast?_range, if_neg (by omega), if_neg (by omega)]
    exact addChecked_of_lt hfits
  rw [isDense, hspan, List.length_range, Option.any_some, decide_eq_true_eq]
  omega

/-- A page of the blocks from 0 to the last 32-bit number. -/
def longPage : PageBlocks where
  blocks := List.range (2 ^ 32)
  ascending := List.pairwise_lt_range
  fits := fun b hb => lt_trans (List.mem_range.mp hb) (by decide)

/-- The last block of a page of `2 ^ 32` has no slot that says so. -/
theorem not_exact_longPage :
    ¬∃ positions, new longPage.blocks = some positions ∧ Exact longPage positions := by
  rintro ⟨positions, hnew, hexact⟩
  have hblocks : longPage.blocks = List.range (2 ^ 32) := by rw [longPage]
  have hdense : isDense longPage.blocks = true := by
    rw [hblocks]
    exact isDense_range (Nat.two_pow_pos 32) (Nat.pow_lt_pow_right (by decide) (by decide))
  have hlength : 2 ^ 32 ≤ longPage.blocks.length := by rw [hblocks, List.length_range]
  exact not_exact hdense hlength hnew hexact

end BlockPositions

end QueryEngine
