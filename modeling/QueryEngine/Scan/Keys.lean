import QueryEngine.Scan.AddressSpans

/-!
# Scan/Keys — the keys a relation keeps its target's rows by

The keys of some source rows are built once and matched against any target whose key columns line up
with them.  Two integers are held as pairs, two integers and a path as an address index, anything
else as bytes; a row's whole identity, nulls included, as a row format writes it.
-/

open Lookup Fallible

namespace QueryEngine

/-- A row format: the types of its columns, and how it writes a row's cells. -/
structure RowConverter where
  fields : List DataType
  format : List Cell → Bytes

/-- The rows of some columns as the format writes them.  It takes as many columns as it has fields, each of its
field's type, and of one length. -/
def RowConverter.convertColumns (converter : RowConverter) (columns : List Column) : Except String (List Bytes) :=
  if columns.length ≠ converter.fields.length then
    .error ("Invalid argument error: Incorrect number of arrays provided to RowConverter, expected " ++
      toString converter.fields.length ++ " got " ++ toString columns.length)
  else
    match (columns.zip converter.fields).find? fun c => decide (c.1.dataType ≠ c.2) with
    | some c => .error ("Invalid argument error: RowConverter column schema mismatch, expected " ++ c.2.display ++
        " got " ++ c.1.dataType.display)
    | none =>
      let rows := (columns.head?.map Column.len).getD 0
      if columns.all fun c => decide (c.len = rows) then
        .ok ((List.range rows).map fun row => converter.format (columns.filterMap fun c => c.cells[row]?))
      else .error "Invalid argument error: RowConverter columns must all have the same length"

/-- How a set of keys is held. -/
inductive CompositeKeySet
  /-- Two integer key columns. -/
  | fixed16 (pairs : PairSet)
  /-- Two integer columns and a path of item indices. -/
  | pairPath (sources : SourceAddresses)
  /-- Any key, as bytes. -/
  | wide (keys : List Bytes)
  /-- Row identity during materialization, including null key components. -/
  | rows (converter : RowConverter) (values : List Bytes)

/-- Whether no key is held. -/
def CompositeKeySet.isEmpty : CompositeKeySet → Bool
  | fixed16 pairs => pairs.isEmpty
  | pairPath sources => sources.isEmpty
  | wide keys => keys.isEmpty
  | rows _ values => values.isEmpty

/-- A set-based filter for join keys. -/
structure KeyFilter where
  /-- The columns forming the key, in the target. -/
  columns : List String
  keySet : CompositeKeySet
  /-- The blocks a key can fall in, sorted and unique. -/
  sortedBlocks : List ℕ
  /-- The target's block column. -/
  blockNumberColumn : String
  /-- Apply the block predicate before decoding a complete row identity. -/
  materialization : Bool

/-- The keys of some source rows, built once and matched against any target. -/
structure KeySet where
  keySet : CompositeKeySet
  /-- The blocks of the source rows with a complete key, sorted and unique. -/
  sortedBlocks : List ℕ
  /-- How many columns a key has. -/
  width : ℕ
  /-- Whether every key column was read, so that a row without a key had a null in it. -/
  readable : Bool

/-- The block numbers of a column's rows that are valid in `rows`.  A column that is not an integer
contributes nothing. -/
def extractBlockNumbers (col : Column) (rows : List Bool) : List ℕ :=
  match IntColumn.resolve col with
  | none => []
  | some reader => (reader.blockNumbers.zip rows).filterMap fun p => if p.2 then some p.1 else none

/-- The columns of some names, in order. -/
def RecordBatch.columnsNamed (batch : RecordBatch) (names : List String) : Except String (List Column) :=
  names.mapM fun name =>
    match batch.columnByName name with
    | some column => .ok column
    | none => .error ("Schema error: Unable to get field named \"" ++ name ++ "\". Valid fields: [" ++
        ", ".intercalate (batch.columns.map fun c => "\"" ++ c.1 ++ "\"") ++ "]")

/-- Which rows of a batch hold one of the keys.  Only candidates are asked, but where whole rows are. -/
def compositeKeyInSetMask (batch : RecordBatch) (keyColumns : List String)
    (keySet : CompositeKeySet) (candidate : ℕ → Bool) : Except String (List Bool) :=
  match keySet with
  | .fixed16 set =>
    match pairKeys batch keyColumns with
    | none => .ok (List.replicate batch.numRows false)
    | some pairs => .ok ((List.range batch.numRows).map fun row =>
      candidate row && (pairs[row]?).join.any fun p => set.contains p.1 p.2)
  | .wide set => .ok ((List.range batch.numRows).map fun row =>
    candidate row && (keyBytes (typedKeyColumns batch keyColumns) row).any fun key => decide (key ∈ set))
  | .pairPath sources =>
    .ok (sources.mask batch (keyColumns.take 2) (keyColumns.getD 2 "") candidate
      fun group path => sources.holds group path)
  | .rows converter values => do
    let columns ← batch.columnsNamed keyColumns
    let rows ← converter.convertColumns columns
    .ok (rows.map fun row => decide (row ∈ values))

namespace KeyFilter

/-- Whether a key can fall in a row group whose blocks span `[min, max]`. -/
def hasBlockWithin (filter : KeyFilter) (min max : ℕ) : Bool :=
  let first := partitionPoint (fun block => decide (block < min)) filter.sortedBlocks
  (filter.sortedBlocks[first]?).any fun block => decide (block ≤ max)

/-- Whether a scan checks block bounds before the keys. -/
def checksBlocksFirst (filter : KeyFilter) : Bool := filter.materialization

/-- Which rows of a batch hold one of the keys. -/
def mask (filter : KeyFilter) (batch : RecordBatch) (candidate : ℕ → Bool) : Except String (List Bool) :=
  compositeKeyInSetMask batch filter.columns filter.keySet candidate

/-- Whether no row can hold a key. -/
def isEmpty (filter : KeyFilter) : Bool := filter.keySet.isEmpty

end KeyFilter

namespace KeySet

section Build

variable (batches : List RecordBatch) (leftKeys : List String) (blockColumn : String)

/-- The first batch with rows. -/
def firstBatch : Option RecordBatch := batches.find? fun batch => decide (0 < batch.numRows)

/-- Whether keys are two integers, as the first batch with rows says. -/
def useFixed16 : Bool :=
  leftKeys.length == 2 && (firstBatch batches).any fun batch =>
    leftKeys.all fun key =>
      ((batch.columnByName key).bind TypedKeyColumn.resolve).any TypedKeyColumn.isInteger

/-- Whether keys are two integers and a path, as the first batch with rows says. -/
def usePairPath : Bool :=
  leftKeys.length == 3 && (firstBatch batches).any fun batch =>
    let int (key : String) : Bool := ((batch.columnByName key).bind IntColumn.resolve).isSome
    int (leftKeys.getD 0 "") && int (leftKeys.getD 1 "") &&
      (addressList batch (leftKeys.getD 2 "")).isSome

/-- The blocks of a batch's rows, those valid in `rows`. -/
def batchBlocks (batch : RecordBatch) (rows : List Bool) : List ℕ :=
  match batch.columnByName blockColumn with
  | some col => extractBlockNumbers col rows
  | none => []

/-- Keys of two integers and a path, those that an index holds. -/
def ofPaths (sources : SourceAddresses) : KeySet where
  keySet := .pairPath sources
  sortedBlocks := sortDedup <| batches.flatMap fun batch =>
    batchBlocks blockColumn batch (completeKeys batch leftKeys)
  width := leftKeys.length
  readable := keysReadable batches leftKeys

/-- Keys of two integers. -/
def ofPairs : KeySet :=
  let present := batches.filter fun batch => decide (0 < batch.numRows)
  let read := present.filterMap fun batch => (pairKeys batch leftKeys).map fun pairs => (batch, pairs)
  { keySet := .fixed16 (.new (read.flatMap fun p => p.2.filterMap id))
    sortedBlocks := sortDedup <| read.flatMap fun p =>
      batchBlocks blockColumn p.1 (p.2.map Option.isSome)
    width := leftKeys.length
    readable := keysReadable batches leftKeys && decide (read.length = present.length) }

/-- Keys as bytes. -/
def ofBytes : KeySet :=
  let present := batches.filter fun batch => decide (0 < batch.numRows)
  { keySet := .wide (present.flatMap fun batch =>
      (List.range batch.numRows).filterMap (keyBytes (typedKeyColumns batch leftKeys)))
    sortedBlocks := sortDedup <| present.flatMap fun batch =>
      batchBlocks blockColumn batch (completeKeys batch leftKeys)
    width := leftKeys.length
    readable := keysReadable batches leftKeys }

/-- The keys of every row of some batches, or nothing where an index of them cannot be built. -/
def build : Option KeySet :=
  if usePairPath batches leftKeys then
    (SourceAddresses.build batches (leftKeys.take 2) (leftKeys.getD 2 "")).map
      (ofPaths batches leftKeys blockColumn)
  else if useFixed16 batches leftKeys then some (ofPairs batches leftKeys blockColumn)
  else some (ofBytes batches leftKeys blockColumn)

/-- The keys of every row of some batches, whatever their number. -/
def ofBatches : KeySet :=
  if usePairPath batches leftKeys then
    ofPaths batches leftKeys blockColumn (.ofBatches batches (leftKeys.take 2) (leftKeys.getD 2 ""))
  else if useFixed16 batches leftKeys then ofPairs batches leftKeys blockColumn
  else ofBytes batches leftKeys blockColumn

/-- **The size a set of keys is built for**: one of pairs and paths is for as many as their index is. -/
def Fits : Prop :=
  usePairPath batches leftKeys = true → SourceAddresses.Fits batches (leftKeys.take 2) (leftKeys.getD 2 "")

/-- Keys that fit are built. -/
theorem build_eq (hfits : Fits batches leftKeys) :
    build batches leftKeys blockColumn = some (ofBatches batches leftKeys blockColumn) := by
  unfold build ofBatches
  split
  · next hpath => rw [SourceAddresses.build_eq (hfits hpath), Option.map_some]
  · split <;> rfl

/-- What is built has the blocks and the width of all the keys. -/
theorem of_build {batches leftKeys blockColumn} {keys : KeySet} (h : build batches leftKeys blockColumn = some keys) :
    keys.sortedBlocks = (ofBatches batches leftKeys blockColumn).sortedBlocks ∧
      keys.width = (ofBatches batches leftKeys blockColumn).width := by
  unfold build at h
  unfold ofBatches
  split at h
  · next hpath =>
    obtain ⟨sources, -, rfl⟩ := Option.map_eq_some_iff.mp h
    rw [if_pos hpath]
    exact ⟨rfl, rfl⟩
  · next hpath =>
    rw [if_neg hpath]
    split at h
    · next hfixed =>
      rw [if_pos hfixed, Option.some.inj h]
      exact ⟨rfl, rfl⟩
    · next hfixed =>
      rw [if_neg hfixed, Option.some.inj h]
      exact ⟨rfl, rfl⟩

end Build

/-- Whether no target row can hold a key: every source row has a null in its key. -/
def matchesNothing (keys : KeySet) : Bool := keys.readable && keys.keySet.isEmpty

/-- Target rows whose key columns hold one of the keys, paired with the source's in order.  Keys of
another width are refused. -/
def filter (keys : KeySet) (rightKeys : List String) (targetBlockColumn : String) : Option KeyFilter :=
  if keys.width = rightKeys.length then
    some ⟨rightKeys, keys.keySet, keys.sortedBlocks, targetBlockColumn, false⟩
  else none

end KeySet

/-- A key filter of the rows of some source batches. -/
def KeyFilter.build (primaryBatches : List RecordBatch) (leftKeys rightKeys : List String)
    (primaryBlockColumn targetBlockColumn : String) : Option KeyFilter :=
  (KeySet.build primaryBatches leftKeys primaryBlockColumn).bind fun keys => keys.filter rightKeys targetBlockColumn

/-! ## What a key filter keeps -/

/-- The keys some rows have, by their columns. -/
def sourceKeys (batches : List RecordBatch) (names : List String) : List (List KeyValue) :=
  batches.flatMap fun batch => (List.range batch.numRows).filterMap (batch.keyTuple names)

theorem mem_sourceKeys {batches : List RecordBatch} {names : List String} {tuple : List KeyValue} :
    tuple ∈ sourceKeys batches names ↔
      ∃ batch ∈ batches, ∃ row < batch.numRows, batch.keyTuple names row = some tuple := by
  simp only [sourceKeys, List.mem_flatMap, List.mem_filterMap, List.mem_range]

/-- **The semi-join**: which of a target's rows have a key that a source row has. -/
def semiJoined (batches : List RecordBatch) (leftKeys : List String) (target : RecordBatch)
    (rightKeys : List String) (row : ℕ) : Bool :=
  (target.keyTuple rightKeys row).any fun tuple => decide (tuple ∈ sourceKeys batches leftKeys)

theorem semiJoined_iff {batches : List RecordBatch} {leftKeys : List String} {target : RecordBatch}
    {rightKeys : List String} {row : ℕ} :
    semiJoined batches leftKeys target rightKeys row = true ↔
      ∃ tuple, target.keyTuple rightKeys row = some tuple ∧
        ∃ batch ∈ batches, ∃ i < batch.numRows, batch.keyTuple leftKeys i = some tuple := by
  rw [semiJoined, Option.any_eq_true]
  refine exists_congr fun tuple => ?_
  rw [decide_eq_true_eq, mem_sourceKeys]

/-- The block number a row's block column holds, nulls included as whatever their slots hold. -/
def RecordBatch.blockAt (batch : RecordBatch) (column : String) (row : ℕ) : Option ℕ :=
  ((batch.columnByName column).bind IntColumn.resolve).bind fun ints => ints.blockNumbers[row]?

/-- A key of a pair and a path is the pair's key and the address. -/
theorem RecordBatch.KeyedAt.pair_path {batch : RecordBatch} {p q r : String}
    (h : batch.KeyedAt [.int, .int, .path] [p, q, r]) : batch.KeyedAt [.int, .int] [p, q] ∧ ∀ row,
      batch.keyTuple [p, q, r] row = (batch.keyTuple [p, q] row).bind fun tuple =>
        (batch.addressAt r row).map fun keys => tuple ++ [.path keys] := by
  rcases h with _ | ⟨hp, _ | ⟨hq, _ | ⟨hr, ⟨⟩⟩⟩⟩
  refine ⟨.cons hp (.cons hq .nil), fun row => ?_⟩
  rw [show [p, q, r] = [p, q] ++ [r] from rfl, RecordBatch.keyTuple_concat]
  obtain ⟨col, hcol, hkind⟩ := Option.bind_eq_some_iff.mp hr
  unfold RecordBatch.addressAt
  rw [hcol, Option.bind_some]
  cases hv : col.keyValue row with
  | none => rfl
  | some v =>
    have hvkind := Column.kind_keyValue hv
    rw [hkind] at hvkind
    cases v with
    | path keys => rfl
    | _ => exact absurd hvkind (by simp [KeyValue.kind])

namespace KeySet

variable {kinds : List KeyKind} {batches : List RecordBatch} {leftKeys rightKeys : List String}
  {target : RecordBatch}

/-- The first batch with rows is one of the batches. -/
theorem firstBatch_mem {batch : RecordBatch} (h : batch ∈ firstBatch batches) : batch ∈ batches :=
  List.mem_of_find?_eq_some h

theorem kinds_of_useFixed16 (hs : ∀ b ∈ batches, b.KeyedAt kinds leftKeys)
    (h : useFixed16 batches leftKeys = true) : kinds = [.int, .int] := by
  obtain ⟨hlen, hany⟩ := Bool.and_eq_true_iff.mp h
  obtain ⟨batch, hfirst, hall⟩ := (Option.any_eq_true _ _).mp hany
  obtain ⟨a, b, rfl⟩ := List.length_eq_two.mp (beq_iff_eq.mp hlen)
  have hkind {name : String} (hname : name ∈ [a, b]) :
      (batch.columnByName name).bind Column.keyKind = some .int := by
    obtain ⟨col, hcol, hint⟩ := (Option.any_eq_true _ _).mp (List.all_eq_true.mp hall name hname)
    obtain ⟨c, hc, hres⟩ := Option.bind_eq_some_iff.mp hcol
    cases col with
    | int ints => rw [hc, Option.bind_some, Column.keyKind_of_resolve (TypedKeyColumn.resolve_int hres)]
    | _ => exact absurd hint (by simp [TypedKeyColumn.isInteger])
  rcases hs batch (firstBatch_mem hfirst) with _ | ⟨ha, _ | ⟨hb, ⟨⟩⟩⟩
  rw [hkind (by simp)] at ha hb
  rw [← Option.some.inj ha, ← Option.some.inj hb]

/-- An address column of a batch whose key columns hold components holds paths. -/
theorem keyKind_of_addressList {batch : RecordBatch} {name : String} {addresses : List (Option Bytes)}
    (h : addressList batch name = some addresses) :
    (batch.columnByName name).bind Column.keyKind = some .path := by
  unfold addressList at h
  split at h
  · next item rows hc =>
    rw [hc]
    cases item with
    | int t => rfl
    | _ => exact absurd h (by simp [elementKeys])
  · exact absurd h (by simp)

theorem kinds_of_usePairPath (hs : ∀ b ∈ batches, b.KeyedAt kinds leftKeys)
    (h : usePairPath batches leftKeys = true) :
    kinds = [.int, .int, .path] ∧ ∃ a b c, leftKeys = [a, b, c] := by
  obtain ⟨hlen, hany⟩ := Bool.and_eq_true_iff.mp h
  obtain ⟨batch, hfirst, hall⟩ := (Option.any_eq_true _ _).mp hany
  obtain ⟨a, b, c, rfl⟩ := List.length_eq_three.mp (beq_iff_eq.mp hlen)
  obtain ⟨hab, hpath⟩ := Bool.and_eq_true_iff.mp hall
  obtain ⟨ha, hb⟩ := Bool.and_eq_true_iff.mp hab
  have hint {name : String} (hname : ((batch.columnByName name).bind IntColumn.resolve).isSome = true) :
      (batch.columnByName name).bind Column.keyKind = some .int := by
    obtain ⟨ints, hints⟩ := Option.isSome_iff_exists.mp hname
    obtain ⟨col, hcol, hres⟩ := Option.bind_eq_some_iff.mp hints
    rw [hcol, Option.bind_some, Column.keyKind_of_resolve hres]
  obtain ⟨addresses, haddresses⟩ := Option.isSome_iff_exists.mp hpath
  rcases hs batch (firstBatch_mem hfirst) with _ | ⟨hka, _ | ⟨hkb, _ | ⟨hkc, ⟨⟩⟩⟩⟩
  rw [@hint a ha] at hka
  rw [@hint b hb] at hkb
  rw [@keyKind_of_addressList _ c _ haddresses] at hkc
  refine ⟨?_, a, b, c, rfl⟩
  rw [← Option.some.inj hka, ← Option.some.inj hkb, ← Option.some.inj hkc]

/-- What a mask keeps, once its set is known to hold the sources' keys. -/
theorem map_range_congr {n : ℕ} {candidate f g : ℕ → Bool} (h : ∀ row < n, f row = g row) :
    ((List.range n).map fun row => candidate row && f row) =
      (List.range n).map fun row => candidate row && g row :=
  List.map_congr_left fun row hrow => by rw [h row (List.mem_range.mp hrow)]

variable (hs : ∀ b ∈ batches, b.KeyedAt kinds leftKeys) (ht : target.KeyedAt kinds rightKeys)
include hs ht

/-- **Keys held as bytes** keep the rows the semi-join does. -/
theorem mask_wide (candidate : ℕ → Bool) :
    compositeKeyInSetMask target rightKeys
      (.wide ((batches.filter fun batch => decide (0 < batch.numRows)).flatMap fun batch =>
        (List.range batch.numRows).filterMap (keyBytes (typedKeyColumns batch leftKeys)))) candidate =
      .ok ((List.range target.numRows).map fun row =>
        candidate row && semiJoined batches leftKeys target rightKeys row) := by
  refine congrArg Except.ok (map_range_congr fun row _ => ?_)
  rw [keyBytes_eq, Option.any_map, semiJoined]
  cases htuple : target.keyTuple rightKeys row with
  | none => rfl
  | some tuple =>
    rw [Option.any_some, Option.any_some, decide_eq_decide, mem_sourceKeys]
    simp only [List.mem_flatMap, List.mem_filter, decide_eq_true_eq, List.mem_filterMap,
      List.mem_range, keyBytes_eq, Option.map_eq_some_iff]
    constructor
    · rintro ⟨batch, ⟨hbatch, -⟩, i, hi, source, hsource, hbytes⟩
      obtain rfl := (keyBytes_injective (hs batch hbatch) ht hsource htuple).mp hbytes
      exact ⟨batch, hbatch, i, hi, hsource⟩
    · rintro ⟨batch, hbatch, i, hi, hsource⟩
      exact ⟨batch, ⟨hbatch, by omega⟩, i, hi, tuple, hsource, rfl⟩

/-- **Keys held as pairs** keep the rows the semi-join does. -/
theorem mask_fixed16 (hkinds : kinds = [.int, .int]) (candidate : ℕ → Bool) :
    compositeKeyInSetMask target rightKeys
      (.fixed16 (.new (((batches.filter fun batch => decide (0 < batch.numRows)).filterMap
        fun batch => (pairKeys batch leftKeys).map fun pairs => (batch, pairs)).flatMap
          fun p => p.2.filterMap id))) candidate =
      .ok ((List.range target.numRows).map fun row =>
        candidate row && semiJoined batches leftKeys target rightKeys row) := by
  subst hkinds
  obtain ⟨pairs, hpairs⟩ := ht.pairKeys
  simp only [compositeKeyInSetMask, hpairs]
  refine congrArg Except.ok (map_range_congr fun row _ => ?_)
  rw [semiJoined, keyTuple_of_pairKeys hpairs, Option.any_map]
  cases (pairs[row]?).join with
  | none => rfl
  | some p =>
    rw [Option.any_some, Option.any_some, Bool.eq_iff_iff, PairSet.contains_new,
      decide_eq_true_eq, mem_sourceKeys]
    simp only [List.mem_flatMap, List.mem_filterMap, List.mem_filter, decide_eq_true_eq, id,
      Option.map_eq_some_iff]
    constructor
    · rintro ⟨_, ⟨batch, ⟨hbatch, -⟩, own, hown, rfl⟩, q, hq, rfl⟩
      obtain ⟨i, hi⟩ := List.mem_iff_getElem?.mp hq
      have hlt := (List.getElem?_eq_some_iff.mp hi).1
      rw [length_pairKeys hown] at hlt
      exact ⟨batch, hbatch, i, hlt, by rw [keyTuple_of_pairKeys hown, hi]; rfl⟩
    · rintro ⟨batch, hbatch, i, hi, hsource⟩
      obtain ⟨own, hown⟩ := (hs batch hbatch).pairKeys
      rw [keyTuple_of_pairKeys hown] at hsource
      obtain ⟨q, hq, heq⟩ := Option.map_eq_some_iff.mp hsource
      refine ⟨(batch, own), ⟨batch, ⟨hbatch, by omega⟩, own, hown, rfl⟩, some q, ?_, ?_⟩
      · exact List.mem_iff_getElem?.mpr ⟨i, Option.join_eq_some_iff.mp hq⟩
      · simp only [List.cons.injEq, KeyValue.int.injEq, and_true] at heq
        rw [← Prod.ext heq.1 heq.2]

/-- **Keys held as pairs and paths** keep the rows the semi-join does. -/
theorem mask_pairPath {a b c x y z : String} (hleft : leftKeys = [a, b, c])
    (hright : rightKeys = [x, y, z]) (hkinds : kinds = [.int, .int, .path])
    (hfits : SourceAddresses.Fits batches [a, b] c) (candidate : ℕ → Bool) :
    compositeKeyInSetMask target rightKeys (.pairPath (.ofBatches batches [a, b] c)) candidate =
      .ok ((List.range target.numRows).map fun row =>
        candidate row && semiJoined batches leftKeys target rightKeys row) := by
  subst hleft hright hkinds
  obtain ⟨hpair, htuple⟩ := RecordBatch.KeyedAt.pair_path ht
  change Except.ok (SourceAddresses.mask (.ofBatches batches [a, b] c) target [x, y] z candidate _) = _
  rw [SourceAddresses.mask_eq, SourceAddresses.groupId_ofBatches hfits]
  refine congrArg Except.ok (map_range_congr fun row _ => ?_)
  rw [Bool.eq_iff_iff, semiJoined_iff]
  simp only [Option.any_eq_true, SourceAddresses.ofBatches]
  constructor
  · rintro ⟨keys, hkeys, group, hgroup, hholds⟩
    obtain ⟨key, hkey, hname⟩ := Option.bind_eq_some_iff.mp hgroup
    obtain ⟨pair, hpairt, hpack⟩ := Option.bind_eq_some_iff.mp hkey
    obtain ⟨batch, hbatch, i, hi, hskey, hspath⟩ := SourceAddresses.mem_sourceRows.mp
      ((SourceAddresses.holds_iff (SourceAddresses.whole_sourceRows _) hname _).mp hholds)
    obtain ⟨spair, hspairt, hspack⟩ := Option.bind_eq_some_iff.mp hskey
    obtain ⟨skeys, hskeys, heq⟩ := Option.map_eq_some_iff.mp hspath
    obtain rfl := pathBytes_injective heq
    obtain ⟨hspair, hstuple⟩ := RecordBatch.KeyedAt.pair_path (hs batch hbatch)
    obtain rfl := GroupKind.pack_injective (hspair.keyTuple hspairt) (hpair.keyTuple hpairt)
      hspack hpack
    exact ⟨_, by rw [htuple, hpairt, Option.bind_some, hkeys, Option.map_some],
      batch, hbatch, i, hi, by rw [hstuple, hspairt, Option.bind_some, hskeys, Option.map_some]⟩
  · rintro ⟨tuple, htup, batch, hbatch, i, hi, hsource⟩
    obtain ⟨hspair, hstuple⟩ := RecordBatch.KeyedAt.pair_path (hs batch hbatch)
    rw [htuple] at htup
    rw [hstuple] at hsource
    obtain ⟨pair, hpairt, htup⟩ := Option.bind_eq_some_iff.mp htup
    obtain ⟨keys, hkeys, rfl⟩ := Option.map_eq_some_iff.mp htup
    obtain ⟨spair, hspairt, hsource⟩ := Option.bind_eq_some_iff.mp hsource
    obtain ⟨skeys, hskeys, heq⟩ := Option.map_eq_some_iff.mp hsource
    obtain ⟨rfl, hpath⟩ := List.append_inj heq (by
      rw [← (hspair.keyTuple hspairt).length_eq, ← (hpair.keyTuple hpairt).length_eq])
    obtain rfl : skeys = keys := by simpa using hpath
    obtain ⟨key, hpack⟩ := (SourceAddresses.groupKind batches [a, b]).exists_pack
      (hpair.keyTuple hpairt)
    have hrow : (key, pathBytes skeys) ∈
        SourceAddresses.sourceRows (SourceAddresses.groupKind batches [a, b]) batches [a, b] c :=
      SourceAddresses.mem_sourceRows.mpr
        ⟨batch, hbatch, i, hi, by rw [hspairt]; exact hpack, by rw [hskeys]; rfl⟩
    obtain ⟨group, hname⟩ := SourceAddresses.exists_name _ hrow
    refine ⟨skeys, hkeys, group, ?_, ?_⟩
    · rw [hpairt]
      exact Option.bind_eq_some_iff.mpr ⟨key, hpack, hname⟩
    · exact (SourceAddresses.holds_iff (SourceAddresses.whole_sourceRows _) hname _).mpr hrow

omit hs ht in
/-- The block a row is in, where the block column holds integers. -/
theorem mem_extractBlockNumbers {col : Column} {valid : List Bool} {n : ℕ} :
    n ∈ extractBlockNumbers col valid ↔ ∃ ints, IntColumn.resolve col = some ints ∧
      ∃ row : ℕ, ints.blockNumbers[row]? = some n ∧ valid[row]? = some true := by
  unfold extractBlockNumbers
  cases IntColumn.resolve col with
  | none => simp
  | some ints =>
    simp only [List.mem_filterMap, Option.some.injEq, exists_eq_left']
    constructor
    · rintro ⟨⟨m, v⟩, hmem, heq⟩
      obtain ⟨row, hrow⟩ := List.mem_iff_getElem?.mp hmem
      obtain ⟨hm, hv⟩ := List.getElem?_zip_eq_some.mp hrow
      dsimp only at heq
      split at heq
      · next htrue =>
        rw [← Option.some.inj heq]
        exact ⟨row, hm, hv.trans (by rw [htrue])⟩
      · exact absurd heq (by simp)
    · rintro ⟨row, hm, hv⟩
      exact ⟨(n, true), List.mem_iff_getElem?.mpr ⟨row, List.getElem?_zip_eq_some.mpr ⟨hm, hv⟩⟩, rfl⟩

omit hs ht in
/-- A batch's blocks are those of its rows with a key. -/
theorem mem_batchBlocks {batch : RecordBatch} {blockColumn : String} {valid : List Bool}
    (hvalid : valid = (List.range batch.numRows).map fun row => (batch.keyTuple leftKeys row).isSome)
    {n : ℕ} : n ∈ batchBlocks blockColumn batch valid ↔
      ∃ row < batch.numRows, (batch.keyTuple leftKeys row).isSome ∧
        batch.blockAt blockColumn row = some n := by
  have hrow {row : ℕ} : valid[row]? = some true ↔
      row < batch.numRows ∧ (batch.keyTuple leftKeys row).isSome := by
    rw [hvalid, List.getElem?_map]
    rcases Nat.lt_or_ge row batch.numRows with hlt | hge
    · simp [hlt]
    · rw [List.getElem?_eq_none (by simpa using hge)]
      simp only [Option.map_none, reduceCtorEq, false_iff, not_and]
      omega
  unfold batchBlocks RecordBatch.blockAt
  cases batch.columnByName blockColumn with
  | none => simp
  | some col =>
    rw [mem_extractBlockNumbers]
    simp only [Option.bind_some, Option.bind_eq_some_iff, hrow]
    constructor
    · rintro ⟨ints, hints, row, hn, hlt, hkey⟩
      exact ⟨row, hlt, hkey, ints, hints, hn⟩
    · rintro ⟨row, hlt, hkey, ints, hints, hn⟩
      exact ⟨ints, hints, row, hn, hlt, hkey⟩

omit ht in
/-- **The blocks kept for pruning are those of the source rows with a key.** -/
theorem mem_sortedBlocks (blockColumn : String) {n : ℕ} :
    n ∈ (ofBatches batches leftKeys blockColumn).sortedBlocks ↔
      ∃ batch ∈ batches, ∃ row < batch.numRows, (batch.keyTuple leftKeys row).isSome ∧
        batch.blockAt blockColumn row = some n := by
  have hcomplete {batch : RecordBatch} (hbatch : batch ∈ batches) :=
    @mem_batchBlocks leftKeys batch blockColumn _ (hs batch hbatch).completeKeys_eq n
  unfold ofBatches
  split
  · simp only [ofPaths, mem_sortDedup, List.mem_flatMap]
    exact exists_congr fun batch => and_congr_right fun hbatch => hcomplete hbatch
  · split
    · next hfixed =>
      obtain rfl := kinds_of_useFixed16 hs hfixed
      simp only [ofPairs, mem_sortDedup, List.mem_flatMap, List.mem_filterMap, List.mem_filter,
        decide_eq_true_eq, Option.map_eq_some_iff]
      have hvalid {batch : RecordBatch} {pairs : List (Option Pair)}
          (hpairs : pairKeys batch leftKeys = some pairs) : pairs.map Option.isSome =
            (List.range batch.numRows).map fun row => (batch.keyTuple leftKeys row).isSome := by
        refine List.ext_getElem (by simp [length_pairKeys hpairs]) fun row h₁ h₂ => ?_
        rw [List.getElem_map, List.getElem_map, List.getElem_range, keyTuple_of_pairKeys hpairs,
          Option.isSome_map, List.getElem?_eq_getElem (by simpa using h₁), Option.join_some]
      constructor
      · rintro ⟨_, ⟨batch, ⟨hbatch, -⟩, pairs, hpairs, rfl⟩, hn⟩
        exact ⟨batch, hbatch, (mem_batchBlocks (hvalid hpairs)).mp hn⟩
      · rintro ⟨batch, hbatch, row, hlt, hkey⟩
        obtain ⟨pairs, hpairs⟩ := (hs batch hbatch).pairKeys
        exact ⟨(batch, pairs), ⟨batch, ⟨hbatch, by omega⟩, pairs, hpairs, rfl⟩,
          (mem_batchBlocks (hvalid hpairs)).mpr ⟨row, hlt, hkey⟩⟩
    · simp only [ofBytes, mem_sortDedup, List.mem_flatMap, List.mem_filter, decide_eq_true_eq]
      constructor
      · rintro ⟨batch, ⟨hbatch, -⟩, hn⟩
        exact ⟨batch, hbatch, (hcomplete hbatch).mp hn⟩
      · rintro ⟨batch, hbatch, row, hlt, hkey⟩
        exact ⟨batch, ⟨hbatch, by omega⟩, (hcomplete hbatch).mpr ⟨row, hlt, hkey⟩⟩

omit hs ht in
/-- Blocks are kept in order. -/
theorem pairwise_sortedBlocks (blockColumn : String) :
    (ofBatches batches leftKeys blockColumn).sortedBlocks.Pairwise (· < ·) := by
  unfold ofBatches
  split
  · exact pairwise_sortDedup _
  · split <;> exact pairwise_sortDedup _

omit hs ht in
/-- A key has a column for each of the source's. -/
@[simp] theorem width_ofBatches (blockColumn : String) :
    (ofBatches batches leftKeys blockColumn).width = leftKeys.length := by
  unfold ofBatches
  split
  · rfl
  · split <;> rfl

/-- **A filter keeps the rows the semi-join does**, whichever layout holds the keys. -/
theorem mask_ofBatches (hfits : Fits batches leftKeys) (blockColumn : String) (candidate : ℕ → Bool) :
    compositeKeyInSetMask target rightKeys (ofBatches batches leftKeys blockColumn).keySet candidate =
      .ok ((List.range target.numRows).map fun row =>
        candidate row && semiJoined batches leftKeys target rightKeys row) := by
  unfold ofBatches
  split
  · next hpath =>
    obtain ⟨hkinds, a, b, c, rfl⟩ := kinds_of_usePairPath hs hpath
    obtain ⟨x, y, z, rfl⟩ : ∃ x y z, rightKeys = [x, y, z] := by
      refine List.length_eq_three.mp ?_
      rw [← ht.length_eq, hkinds]
      rfl
    exact mask_pairPath hs ht rfl rfl hkinds (hfits hpath) candidate
  · split
    · next hfixed => exact mask_fixed16 hs ht (kinds_of_useFixed16 hs hfixed) candidate
    · exact mask_wide hs ht candidate

end KeySet

/-- Keys that fit, and are as many as the target's columns, make a filter. -/
theorem KeyFilter.build_eq {batches : List RecordBatch} {leftKeys rightKeys : List String}
    {sourceBlock targetBlock : String}
    (hfits : KeySet.Fits batches leftKeys) (hpaired : leftKeys.length = rightKeys.length) :
    KeyFilter.build batches leftKeys rightKeys sourceBlock targetBlock =
      some ⟨rightKeys, (KeySet.ofBatches batches leftKeys sourceBlock).keySet,
        (KeySet.ofBatches batches leftKeys sourceBlock).sortedBlocks, targetBlock, false⟩ := by
  rw [build, KeySet.build_eq _ _ _ hfits, Option.bind_some, KeySet.filter, KeySet.width_ofBatches, if_pos hpaired]

/-- **A row group is kept exactly when a key's block falls in its bounds.** -/
theorem KeyFilter.hasBlockWithin_iff {filter : KeyFilter}
    (h : filter.sortedBlocks.Pairwise (· < ·)) (min max : ℕ) :
    filter.hasBlockWithin min max = true ↔ ∃ block ∈ filter.sortedBlocks, min ≤ block ∧ block ≤ max := by
  have hfirst := first_reaching (h.imp le_of_lt) min (· ≤ max) fun _ _ => le_trans
  rw [hasBlockWithin, Option.any_eq_true, ← hfirst]
  simp only [decide_eq_true_eq]

end QueryEngine
