import QueryEngine.Execution.RelationRows
import QueryEngine.Join.BlockAgreement

/-!
# Execution/RelationRanges — relations stay within their blocks

A relation's key starts with the block number on both sides, so a row is related to rows of its own block alone
(`relates_within_blocks`).  So a page read range by range relates the rows it relates when read whole, and a target is
read between the first and the last block of the source rows.
-/

open Selection Fallible TwosComplement

namespace QueryEngine

/-! ## The block that leads a key -/

/-- A column of block numbers, none of them negative. -/
def RecordBatch.Numbered (batch : RecordBatch) (column : String) : Prop :=
  ∃ (t : IntType) (slots : List (Slot t.Native)), batch.columnByName column = some (.scalar (.int t) slots) ∧
    ∀ s ∈ slots, 0 ≤ t.value s.value

/-- **A key leads with its row's block.** -/
theorem RecordBatch.Numbered.block_of_key {batch : RecordBatch} {column : String} (h : batch.Numbered column)
    {names : List String} {row : ℕ} {tuple : List KeyValue} (htuple : batch.keyTuple (column :: names) row =
      some tuple) :
    ∃ b < 2 ^ 64, batch.blockAt column row = some b ∧ tuple.head? = some (.int (storedKey b)) := by
  obtain ⟨t, slots, hcolumn, hpositive⟩ := h
  rcases mapM_eq_some.mp htuple with _ | ⟨hv, -⟩
  rw [hcolumn, Option.bind_some, Column.keyValue] at hv
  obtain ⟨x, hx, rfl⟩ := Option.map_eq_some_iff.mp hv
  obtain ⟨s, hs, hget⟩ := Option.bind_eq_some_iff.mp hx
  have hvalue : s.value = x := by
    unfold Slot.get? at hget
    split at hget
    · exact Option.some.inj hget
    · cases hget
  have hbits : t.bits ≤ 64 := by rcases t.bits_cases with h | h | h | h <;> omega
  refine ⟨x.toNat, x.isLt.trans_le (Nat.pow_le_pow_right (by norm_num) hbits), ?_, ?_⟩
  · rw [RecordBatch.blockAt, hcolumn]
    change (slots.map fun s => s.value.toNat)[row]? = _
    rw [List.getElem?_map, hs, ← hvalue]
    rfl
  · rw [List.head?_cons, t.value_of_nonneg (hvalue ▸ hpositive s (List.mem_of_getElem? hs))]

/-- Equal leading components are one block. -/
theorem block_eq_of_storedKey {a b : ℕ} (ha : a < 2 ^ 64) (hb : b < 2 ^ 64) (h : storedKey a = storedKey b) :
    a = b := by
  rw [storedKey, storedKey, BitVec.ofInt_natCast, BitVec.ofInt_natCast] at h
  have := congrArg BitVec.toNat h
  rwa [BitVec.toNat_ofNat, BitVec.toNat_ofNat, Nat.mod_eq_of_lt ha, Nat.mod_eq_of_lt hb] at this

/-! ## Related one row to one -/

/-- Whether a target row is related to one source row. -/
def RelationPlan.RelatesRow (relation : RelationPlan) (table : String) (desc target : TableDescription)
    (source : RecordBatch)
    (i : ℕ) (batch : RecordBatch) (row : ℕ) : Prop :=
  (relation.kind = .join ∧ ∃ tuple, batch.keyTuple relation.rightKey row = some tuple ∧
    source.keyTuple relation.leftKey i = some tuple) ∨
  ∃ spec, HierarchicalSpec.of relation target table desc = some spec ∧
    ∃ tuple, batch.keyTuple spec.groupKeys row = some tuple ∧
      ∃ address, batch.itemsAt spec.targetAddress row = some address ∧ source.keyTuple spec.groupKeys i = some tuple ∧
        ∃ own, source.itemsAt spec.sourceAddress i = some own ∧ RelatedPaths spec.mode spec.inclusive own address

section Blocks

variable {table : String} {desc target : TableDescription} {relation : RelationPlan} {sources : List RecordBatch}
  {source batch : RecordBatch} {i row : ℕ}

/-- A row is related to sources when it is to a row of theirs. -/
theorem relates_iff_relatesRow : relation.Relates table desc target sources batch row ↔
    ∃ source ∈ sources, ∃ i < source.numRows, relation.RelatesRow table desc target source i batch row := by
  constructor
  · rintro (⟨hjoin, hjoined⟩ | ⟨spec, hspec, tuple, htuple, address, haddress, s, hs, i, hi, hown, own, hread,
    hrelated⟩)
    · obtain ⟨tuple, htuple, s, hs, i, hi, hown⟩ := semiJoined_iff.mp hjoined
      exact ⟨s, hs, i, hi, .inl ⟨hjoin, tuple, htuple, hown⟩⟩
    · exact ⟨s, hs, i, hi, .inr ⟨spec, hspec, tuple, htuple, address, haddress, hown, own, hread, hrelated⟩⟩
  · rintro ⟨s, hs, i, hi, ⟨hjoin, tuple, htuple, hown⟩ | ⟨spec, hspec, tuple, htuple, address, haddress, hown, own,
    hread, hrelated⟩⟩
    · exact .inl ⟨hjoin, semiJoined_iff.mpr ⟨tuple, htuple, s, hs, i, hi, hown⟩⟩
    · exact .inr ⟨spec, hspec, tuple, htuple, address, haddress, s, hs, i, hi, hown, own, hread, hrelated⟩

/-- **A relation whose key starts with the block number on both sides**; a hierarchical one groups both tables by the
same columns, the block number among them. -/
structure RelationPlan.LedByBlock (relation : RelationPlan) (desc target : TableDescription) : Prop where
  left : ∃ rest, relation.leftKey = desc.blockNumberColumn :: rest
  right : ∃ rest, relation.rightKey = target.blockNumberColumn :: rest
  grouped : relation.kind ≠ .join → target.blockNumberColumn = desc.blockNumberColumn ∧
    target.addressColumn ≠ some desc.blockNumberColumn

/-- **A row is related to rows of its block.** -/
theorem RelationPlan.LedByBlock.block_eq (h : relation.LedByBlock desc target)
    (hsource : source.Numbered desc.blockNumberColumn) (hbatch : batch.Numbered target.blockNumberColumn)
    (hrelates : relation.RelatesRow table desc target source i batch row) :
    ∃ b, batch.blockAt target.blockNumberColumn row = some b ∧ source.blockAt desc.blockNumberColumn i = some b := by
  have hsame : ∀ {names others : List String} {tuple : List KeyValue},
      batch.keyTuple (target.blockNumberColumn :: names) row = some tuple →
      source.keyTuple (desc.blockNumberColumn :: others) i = some tuple →
      ∃ b, batch.blockAt target.blockNumberColumn row = some b ∧ source.blockAt desc.blockNumberColumn i = some b := by
    intro names others tuple htuple hown
    obtain ⟨a, ha, hat, hhead⟩ := hbatch.block_of_key htuple
    obtain ⟨b, hb, hbt, hhead'⟩ := hsource.block_of_key hown
    have hkey : storedKey a = storedKey b := by
      have := hhead.symm.trans hhead'
      injection this with this
      injection this
    obtain rfl := block_eq_of_storedKey ha hb hkey
    exact ⟨a, hat, hbt⟩
  rcases hrelates with ⟨-, tuple, htuple, hown⟩ | ⟨spec, hspec, tuple, htuple, -, -, hown, -⟩
  · obtain ⟨rest, hleft⟩ := h.left
    obtain ⟨others, hright⟩ := h.right
    rw [hleft] at hown
    rw [hright] at htuple
    exact hsame htuple hown
  · obtain ⟨hkind, hgroup⟩ := HierarchicalSpec.of_eq_some hspec
    obtain ⟨hname, haddress⟩ := h.grouped hkind
    obtain ⟨rest, hleft⟩ := h.left
    have hlead : spec.groupKeys = desc.blockNumberColumn :: groupKeysForRelation rest target.addressColumn := by
      rw [hgroup, hleft, groupKeysForRelation, List.filter_cons_of_pos (by simpa using haddress.symm),
        groupKeysForRelation]
    rw [hlead] at hown htuple
    rw [← hname] at htuple
    exact hsame htuple hown

/-- The rows of some sources that a range of blocks holds, wherever they are read. -/
structure CutTo (keep : ℕ → Bool) (column : String) (sources cut : List RecordBatch) : Prop where
  kept : ∀ s ∈ sources, ∀ i < s.numRows, ∀ b, s.blockAt column i = some b → keep b = true →
    ∃ c ∈ cut, ∃ k < c.numRows, (∀ names, c.keyTuple names k = s.keyTuple names i) ∧
      ∀ address, c.itemsAt address k = s.itemsAt address i
  read : ∀ c ∈ cut, ∀ k < c.numRows, ∃ s ∈ sources, ∃ i < s.numRows,
    (∀ names, c.keyTuple names k = s.keyTuple names i) ∧
    ∀ address, c.itemsAt address k = s.itemsAt address i

/-- A row's address is the one it had. -/
theorem itemsAt_filter {keep : List Bool} {k : ℕ} (hlen : keep.length = source.numRows)
    (hk : (offsets keep)[k]? = some i)
    (name : String) : (source.filter keep).itemsAt name k = source.itemsAt name i := by
  unfold RecordBatch.itemsAt
  rw [RecordBatch.columnByName_filter]
  cases hc : source.columnByName name with
  | none => rfl
  | some c =>
    rcases c with ⟨_ | _ | _ | _ | _, rows⟩ | ⟨_ | _, item, rows⟩ | ⟨item, values, keys⟩
    case list.false =>
      have hpick : (Column.filter.pick keep rows)[k]? = rows[i]? :=
        getElem?_pick_offset hlen hk (RecordBatch.len_columnByName hc)
      rw [Option.map_some, Column.filter]
      dsimp only
      rw [hpick]
    all_goals rfl

/-- **Batches cut to a range hold its rows.** -/
theorem exists_cutTo {keep : ℕ → Bool} {column : String} : ∀ {sources : List RecordBatch},
    (∀ s ∈ sources, (batchBlockNumbers s column).isSome = true) →
    ∃ cut, sources.mapM (filterToBlocks column keep) = .ok cut ∧ CutTo keep column sources cut := by
  intro sources hplaced
  have hone : ∀ s ∈ sources, ∃ mask : List Bool, filterToBlocks column keep s = .ok (s.filter mask) ∧
      mask.length = s.numRows ∧ ∀ i b, s.blockAt column i = some b → mask[i]? = some (keep b) := by
    intro s hs
    obtain ⟨blocks, hblocks⟩ := Option.isSome_iff_exists.mp (hplaced s hs)
    obtain ⟨t, slots, hcolumn, hvalid, rfl, hlength⟩ := batchBlockNumbers_eq_some hblocks
    refine ⟨(slots.map fun s => s.value.toNat).map keep, ?_, by rw [List.length_map, List.length_map, hlength], ?_⟩
    · have hresolve : BlockNumbers.resolve (.scalar (.int t) slots) column = .ok (slots.map fun s => s.value.toNat) :=
        BlockNumbers.resolve_eq_ok.mpr ⟨⟨t, slots⟩, rfl, hvalid, rfl⟩
      rw [filterToBlocks, hcolumn]
      dsimp only
      rw [hresolve]
    · intro i b hb
      rw [RecordBatch.blockAt, hcolumn] at hb
      change (slots.map fun s => s.value.toNat)[i]? = some b at hb
      rw [List.getElem?_map, hb, Option.map_some]
  choose! mask hmask hlen hkeep using hone
  refine ⟨sources.map fun s => s.filter (mask s), ?_, ?_, ?_⟩
  · exact mapM_eq_ok.mpr (List.forall₂_map_right_iff.mpr (List.forall₂_same.mpr hmask))
  · intro s hs i hi b hb hkept
    have hmem : i ∈ offsets (mask s) := mem_offsets.mpr (by rw [hkeep s hs i b hb, hkept])
    obtain ⟨k, hk⟩ := List.mem_iff_getElem?.mp hmem
    refine ⟨_, List.mem_map_of_mem hs, k, ?_, fun names => keyTuple_filter (hlen s hs) hk names,
      fun name => itemsAt_filter (hlen s hs) hk name⟩
    rw [RecordBatch.numRows_filter (hlen s hs), ← length_offsets]
    exact (List.getElem?_eq_some_iff.mp hk).1
  · intro c hc k hk
    obtain ⟨s, hs, rfl⟩ := List.mem_map.mp hc
    rw [RecordBatch.numRows_filter (hlen s hs), ← length_offsets] at hk
    have hoffset := List.getElem?_eq_getElem hk
    refine ⟨s, hs, _, hlen s hs ▸ lt_of_mem_offsets hoffset, fun names => keyTuple_filter (hlen s hs) hoffset names,
      fun name => itemsAt_filter (hlen s hs) hoffset name⟩

/-- What relates two rows is their keys and addresses. -/
theorem RelationPlan.RelatesRow.congr {other : RecordBatch} {k : ℕ}
    (hkeys : ∀ names, other.keyTuple names k = source.keyTuple names i)
    (haddresses : ∀ address, other.itemsAt address k = source.itemsAt address i) :
    relation.RelatesRow table desc target other k batch row ↔ relation.RelatesRow table desc target source i batch
      row := by
  simp only [RelationPlan.RelatesRow, hkeys, haddresses]

/-- **Relations stay within their blocks.**  A target row in a range of blocks is related to the source rows exactly
when it is to those of the range, so a page read range by range relates what it relates when read whole; and its block
is one of the source rows', so nothing related is outside of their first and last block. -/
theorem relates_within_blocks (table : String) (h : relation.LedByBlock desc target)
    (hplaced : ∀ s ∈ sources, (batchBlockNumbers s desc.blockNumberColumn).isSome = true)
    (hsources : ∀ s ∈ sources, s.Numbered desc.blockNumberColumn) (keep : ℕ → Bool) :
    ∃ cut, sources.mapM (filterToBlocks desc.blockNumberColumn keep) = .ok cut ∧
      ∀ (batch : RecordBatch) (row : ℕ), batch.Numbered target.blockNumberColumn →
        ((∀ b ∈ batch.blockAt target.blockNumberColumn row, keep b = true) →
          (relation.Relates table desc target cut batch row ↔ relation.Relates table desc target sources batch row)) ∧
        (relation.Relates table desc target sources batch row → ∃ b, batch.blockAt target.blockNumberColumn row =
          some b ∧
          ∃ s ∈ sources, ∃ i < s.numRows, s.blockAt desc.blockNumberColumn i = some b) := by
  obtain ⟨cut, hcutOk, hcut⟩ := @exists_cutTo keep desc.blockNumberColumn sources hplaced
  refine ⟨cut, hcutOk, fun batch row hbatch => ⟨fun hkeep => ?_, fun hrelates => ?_⟩⟩
  · rw [relates_iff_relatesRow, relates_iff_relatesRow]
    constructor
    · rintro ⟨c, hc, k, hk, hrelates⟩
      obtain ⟨s, hs, i, hi, hkeys, haddresses⟩ := hcut.read c hc k hk
      exact ⟨s, hs, i, hi, (RelationPlan.RelatesRow.congr hkeys haddresses).mp hrelates⟩
    · rintro ⟨s, hs, i, hi, hrelates⟩
      obtain ⟨b, hb, hown⟩ := h.block_eq (hsources s hs) hbatch hrelates
      obtain ⟨c, hc, k, hk, hkeys, haddresses⟩ := hcut.kept s hs i hi b hown (hkeep b hb)
      exact ⟨c, hc, k, hk, (RelationPlan.RelatesRow.congr hkeys haddresses).mpr hrelates⟩
  · obtain ⟨s, hs, i, hi, hrelates⟩ := relates_iff_relatesRow.mp hrelates
    obtain ⟨b, hb, hown⟩ := h.block_eq (hsources s hs) hbatch hrelates
    exact ⟨b, hb, s, hs, i, hi, hown⟩

theorem relates_within_blocks_oneCall : ∃ cut, [oneCall .uint32 3].mapM
    (filterToBlocks "number" fun b => decide (b ≤ 5)) =
      .ok cut ∧ ∀ (batch : RecordBatch) (row : ℕ), batch.Numbered "number" →
        ((∀ b ∈ batch.blockAt "number" row, decide (b ≤ 5) = true) →
          (RelationPlan.Relates ⟨"calls", .children, ["number", "path"], ["number", "path"], [], none⟩ "calls" callTable
              callTable cut batch row ↔
            RelationPlan.Relates ⟨"calls", .children, ["number", "path"], ["number", "path"], [], none⟩ "calls"
              callTable
              callTable [oneCall .uint32 3] batch row)) ∧
        (RelationPlan.Relates ⟨"calls", .children, ["number", "path"], ["number", "path"], [], none⟩ "calls" callTable
            callTable [oneCall .uint32 3] batch row →
          ∃ b, batch.blockAt "number" row = some b ∧
            ∃ s ∈ [oneCall .uint32 3], ∃ i < s.numRows, s.blockAt "number" i = some b) :=
  @relates_within_blocks callTable callTable ⟨"calls", .children, ["number", "path"], ["number", "path"], [], none⟩
    [oneCall .uint32 3] "calls" ⟨⟨_, rfl⟩, ⟨_, rfl⟩, fun _ => ⟨rfl, by decide⟩⟩
    (fun s hs => by rw [List.mem_singleton.mp hs]; rfl)
    (fun s hs => by
      rw [List.mem_singleton.mp hs]
      exact ⟨.uint64, [.some 0], rfl, fun slot hslot => by rw [List.mem_singleton.mp hslot]; decide⟩)
    fun b => decide (b ≤ 5)

end Blocks

end QueryEngine
