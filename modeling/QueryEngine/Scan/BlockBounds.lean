import QueryEngine.Scan.Keys

/-!
# Scan/BlockBounds — one block number, whoever reads it

Four readers meet a block-number column: the range mask, `BlockNumbers` behind every row that is
placed, the sorted blocks a key filter prunes by, and the bounds a row group's statistics state.
They read one number — the stored bits, unsigned — and the statistics are the reader that could go
wrong: a writer orders them by its own sign, so bounds that straddle the sign come out inverted once
reinterpreted, and such bounds prune nothing.
-/

open TwosComplement Kleene Lookup

namespace QueryEngine

/-! ## Rows -/

/-- The block number of each row of a batch, checked once: a column that is not an integer, or that
leaves a row without a block, is refused. -/
def BlockNumbers.resolve (column : Column) (name : String) : Result (List ℕ) :=
  match IntColumn.resolve column with
  | none => .error ⟨.malformedChunkData, "block-number column '" ++ name ++ "' is stored as " ++
      column.dataType.display ++ ", which is not an integer"⟩
  | some reader =>
    if 0 < reader.nullCount then
      .error ⟨.malformedChunkData, "block-number column '" ++ name ++ "' leaves " ++
        toString reader.nullCount ++ " of " ++ toString column.len ++ " rows without a block"⟩
    else .ok reader.blockNumbers

/-- **What is read is a block number for each row**, of a column of integers without a null. -/
theorem BlockNumbers.resolve_eq_ok {column : Column} {name : String} {numbers : List ℕ} :
    resolve column name = .ok numbers ↔ ∃ reader, IntColumn.resolve column = some reader ∧
      (∀ s ∈ reader.slots, s.valid = true) ∧ reader.blockNumbers = numbers := by
  unfold resolve
  cases IntColumn.resolve column with
  | none => simp
  | some reader =>
    have hnull : 0 < reader.nullCount ↔ ¬∀ s ∈ reader.slots, s.valid = true := by
      rw [IntColumn.nullCount, List.countP_pos_iff]
      simp
    dsimp only
    split
    · next h =>
      simp only [reduceCtorEq, Option.some.injEq, exists_eq_left', false_iff, not_and]
      exact fun hvalid => absurd hvalid (hnull.mp h)
    · next h =>
      simp only [Except.ok.injEq, Option.some.injEq, exists_eq_left']
      exact (and_iff_right (not_not.mp (hnull.not.mp h))).symm

/-! ## Statistics -/

/-- A bound as a row group's statistics state it, at the file's physical type. -/
inductive StatValue
  | int32 (v : BitVec 32)
  | int64 (v : BitVec 64)
  | float (bits : BitVec 32)
  | double (bits : BitVec 64)
  | byteArray (v : Bytes)
  | boolean (v : Bool)
  | fixedLenByteArray (v : Bytes)

/-- What a row group's statistics state of a column. -/
structure ColumnStats where
  min : Option StatValue
  max : Option StatValue

/-- The integer a bound is. -/
def statScalar : StatValue → Option (BitVec 64)
  | .int32 v => some (v.signExtend 64)
  | .int64 v => some v
  | _ => none

/-- The blocks a row group spans, at the column's physical width.  Bounds of wrapped values can come
out inverted; such a pair must not prune any rows. -/
def blockBounds (width : DataType) (stats : Option ColumnStats) : Option (ℕ × ℕ) :=
  stats.bind fun stats =>
    ((stats.min.bind statScalar).bind (blockNumberAt width)).bind fun min =>
      ((stats.max.bind statScalar).bind (blockNumberAt width)).bind fun max =>
        if min ≤ max then some (min, max) else none

/-- Whether a row group's bounds rule out every row of a block range. -/
def outOfRange (bounds : Option (ℕ × ℕ)) (lo hi : Option ℕ) : Bool :=
  bounds.any fun b => lo.any (fun lo => decide (b.2 < lo)) || hi.any fun hi => decide (hi < b.1)

/-- Whether a row group's bounds rule out every row that a key filter keeps. -/
def outOfKeys (bounds : Option (ℕ × ℕ)) (keys : KeyFilter) : Bool :=
  bounds.any fun b => !keys.hasBlockWithin b.1 b.2

/-- **Statistics bound the rows they are of**, in the order their writer took: the column's own, or
the signed or unsigned order of its words. -/
def ColumnStats.Bound (stats : ColumnStats) (ints : IntColumn) (order : Bool) : Prop :=
  ∀ s ∈ ints.slots, s.valid = true →
    (∀ m, stats.min.bind statScalar = some m →
      read order ints.type.bits m.toNat ≤ read order ints.type.bits s.value.toNat) ∧
    ∀ m, stats.max.bind statScalar = some m →
      read order ints.type.bits s.value.toNat ≤ read order ints.type.bits m.toNat

/-- A statistic is the block number its own bits are, unsigned. -/
theorem blockNumberAt_int (t : IntType) (m : BitVec 64) :
    ∃ n, blockNumberAt (.scalar (.int t)) m = some n ∧ (n : ℤ) = read false t.bits m.toNat := by
  refine ⟨_, rfl, ?_⟩
  rw [BitVec.toNat_setWidth, read_false]
  push_cast
  rfl

/-- **A row group's bounds hold the block number of every row.** -/
theorem between_blockBounds {ints : IntColumn} {stats : ColumnStats} {order : Bool}
    (hbound : stats.Bound ints order) {lo hi : ℕ}
    (h : blockBounds (.scalar (.int ints.type)) (some stats) = some (lo, hi))
    {s : Slot ints.type.Native} (hs : s ∈ ints.slots) (hvalid : s.valid = true) :
    lo ≤ s.value.toNat ∧ s.value.toNat ≤ hi := by
  rw [blockBounds, Option.bind_some] at h
  obtain ⟨_, hfirst, h⟩ := Option.bind_eq_some_iff.mp h
  obtain ⟨_, hlast, h⟩ := Option.bind_eq_some_iff.mp h
  obtain ⟨min, hmin, hlo⟩ := Option.bind_eq_some_iff.mp hfirst
  obtain ⟨max, hmax, hhi⟩ := Option.bind_eq_some_iff.mp hlast
  split at h
  · next hle =>
    obtain ⟨rfl, rfl⟩ := Prod.mk.inj (Option.some.inj h)
    obtain ⟨l, hl, hread⟩ := blockNumberAt_int ints.type min
    obtain ⟨m, hm, hread'⟩ := blockNumberAt_int ints.type max
    obtain rfl := Option.some.inj (hl.symm.trans hlo)
    obtain rfl := Option.some.inj (hm.symm.trans hhi)
    obtain ⟨hbelow, habove⟩ := hbound s hs hvalid
    have hbetween := unsigned_between order (hbelow min hmin) (habove max hmax)
      (by rw [← hread, ← hread']; exact_mod_cast hle)
    have hself : read false ints.type.bits (s.value.toNat : ℤ) = s.value.toNat :=
      read_eq_self ⟨by positivity, by exact_mod_cast s.value.isLt⟩
    rw [← hread, ← hread', hself] at hbetween
    exact_mod_cast hbetween
  · exact absurd h (by simp)

/-! ## One number -/

/-- The rows of a column as every reader of block numbers sees them. -/
structure ReadersAgree (ints : IntColumn) (numbers : List ℕ) : Prop where
  /-- The range mask keeps a row exactly when its number is in the range. -/
  within : ∀ (lo hi : Option ℕ) (row n : ℕ), numbers[row]? = some n →
    ((Mask.kept (ints.blockNumbersWithin lo hi))[row]? = some true ↔
      (∀ b ∈ lo, b ≤ n) ∧ ∀ b ∈ hi, n ≤ b)
  /-- The blocks of the rows that a key filter was built from are their numbers. -/
  blocks : ∀ (valid : List Bool) (n : ℕ), n ∈ sortDedup (extractBlockNumbers
    (.scalar (.int ints.type) ints.slots) valid) ↔
    ∃ row : ℕ, valid[row]? = some true ∧ numbers[row]? = some n
  /-- A row group is left out of a range only when none of its rows is in it. -/
  range : ∀ (stats : ColumnStats) order, stats.Bound ints order → ∀ lo hi : Option ℕ,
    outOfRange (blockBounds (.scalar (.int ints.type)) (some stats)) lo hi = true →
      ∀ n ∈ numbers, ¬((∀ b ∈ lo, b ≤ n) ∧ ∀ b ∈ hi, n ≤ b)
  /-- A row group is left out of a key filter only when none of its rows is in a block of the keys'
  source rows. -/
  keys : ∀ (stats : ColumnStats) order, stats.Bound ints order →
    ∀ {kinds : List KeyKind} {sources : List RecordBatch} {leftKeys rightKeys : List String}
      {sourceBlock targetBlock : String} {keys : KeyFilter},
      (∀ b ∈ sources, b.KeyedAt kinds leftKeys) →
      KeyFilter.build sources leftKeys rightKeys sourceBlock targetBlock = some keys →
      outOfKeys (blockBounds (.scalar (.int ints.type)) (some stats)) keys = true →
      ∀ batch ∈ sources, ∀ row < batch.numRows, (batch.keyTuple leftKeys row).isSome →
        ∀ n ∈ batch.blockAt sourceBlock row, n ∉ numbers

/-- A key filter without a block in a span has no source row in it. -/
theorem not_between_of_hasBlockWithin {kinds : List KeyKind} {sources : List RecordBatch}
    {leftKeys rightKeys : List String} {sourceBlock targetBlock : String} {keys : KeyFilter}
    (hs : ∀ b ∈ sources, b.KeyedAt kinds leftKeys)
    (hkeys : KeyFilter.build sources leftKeys rightKeys sourceBlock targetBlock = some keys)
    {lo hi : ℕ} (h : keys.hasBlockWithin lo hi = false) {batch : RecordBatch} (hb : batch ∈ sources)
    {row n : ℕ} (hrow : row < batch.numRows) (hkey : (batch.keyTuple leftKeys row).isSome)
    (hn : batch.blockAt sourceBlock row = some n) : ¬(lo ≤ n ∧ n ≤ hi) := by
  rintro ⟨hlo, hhi⟩
  obtain ⟨built, hbuilt, hfilter⟩ := Option.bind_eq_some_iff.mp hkeys
  obtain ⟨hblocks, -⟩ := KeySet.of_build hbuilt
  unfold KeySet.filter at hfilter
  split at hfilter
  · obtain rfl := Option.some.inj hfilter
    have hmem := (KeySet.mem_sortedBlocks hs sourceBlock).mpr ⟨batch, hb, row, hrow, hkey, hn⟩
    have hsorted := @KeySet.pairwise_sortedBlocks sources leftKeys sourceBlock
    rw [← hblocks] at hmem hsorted
    rw [← Bool.not_eq_true, KeyFilter.hasBlockWithin_iff hsorted] at h
    exact h ⟨n, hmem, hlo, hhi⟩
  · exact absurd hfilter (by simp)

/-- **Every reader of a block-number column reads the same number**, and statistics leave out no row
whose number is asked for. -/
theorem block_numbers_agree (ints : IntColumn) (name : String) {numbers : List ℕ}
    (h : BlockNumbers.resolve (.scalar (.int ints.type) ints.slots) name = .ok numbers) :
    ReadersAgree ints numbers := by
  obtain ⟨_, hreader, hvalid, rfl⟩ := BlockNumbers.resolve_eq_ok.mp h
  obtain rfl := Option.some.inj hreader
  have hrow {n : ℕ} (hn : n ∈ ints.blockNumbers) {stats : ColumnStats} {order : Bool}
      (hbound : stats.Bound ints order) {b : ℕ × ℕ}
      (hb : blockBounds (.scalar (.int ints.type)) (some stats) = some b) : b.1 ≤ n ∧ n ≤ b.2 := by
    obtain ⟨s, hs, rfl⟩ := List.mem_map.mp hn
    exact between_blockBounds hbound hb hs (hvalid s hs)
  refine ⟨fun lo hi row n hn => ?_, fun valid n => ?_, fun stats order hbound lo hi hout n hn => ?_,
    fun stats order hbound kinds sources leftKeys rightKeys sourceBlock targetBlock keys hs hkeys hout
      batch hbatch row hlt hkey n hn hmem => ?_⟩
  · rw [IntColumn.blockNumbers, List.getElem?_map] at hn
    obtain ⟨s, hs, rfl⟩ := Option.map_eq_some_iff.mp hn
    have hget : s.get? = some s.value := by
      rw [Slot.get?, hvalid s (List.mem_of_getElem? hs), if_pos rfl]
    rw [IntColumn.blockNumbersWithin, kept_within, List.getElem?_map, hs]
    simp only [Option.map_some, hget, Option.any_some, Option.some.injEq, Bool.and_eq_true,
      Option.all_eq_true, decide_eq_true_eq, Option.mem_def]
  · rw [mem_sortDedup, KeySet.mem_extractBlockNumbers]
    constructor
    · rintro ⟨_, hints, row, hn, hv⟩
      obtain rfl := Option.some.inj hints
      exact ⟨row, hv, hn⟩
    · rintro ⟨row, hv, hn⟩
      exact ⟨_, rfl, row, hn, hv⟩
  · obtain ⟨b, hb, hout⟩ := (Option.any_eq_true _ _).mp hout
    obtain ⟨hbelow, habove⟩ := hrow hn hbound hb
    rintro ⟨hlo, hhi⟩
    rcases Bool.or_eq_true_iff.mp hout with h | h
    · obtain ⟨l, hl, hlt⟩ := (Option.any_eq_true _ _).mp h
      exact absurd (hlo l hl) (by have := of_decide_eq_true hlt; omega)
    · obtain ⟨m, hm, hlt⟩ := (Option.any_eq_true _ _).mp h
      exact absurd (hhi m hm) (by have := of_decide_eq_true hlt; omega)
  · obtain ⟨b, hb, hout⟩ := (Option.any_eq_true _ _).mp hout
    exact not_between_of_hasBlockWithin hs hkeys (by simpa using hout) hbatch hlt hkey hn
      (hrow hmem hbound hb)

/-- A column of wrapped block numbers: 2³² - 1 and 5, in thirty-two signed bits. -/
def wrappedBlocks : IntColumn := ⟨.int32, [.some (-1), .some 5]⟩

theorem block_numbers_agree_wrapped : ReadersAgree wrappedBlocks [4294967295, 5] :=
  block_numbers_agree wrappedBlocks "number" (by decide)

/-- Statistics of wrapped values come out inverted, and bound nothing. -/
example : blockBounds (.scalar (.int .int32)) (some ⟨some (.int32 (-1)), some (.int32 5)⟩) = none := by
  decide

end QueryEngine
