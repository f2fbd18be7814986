import QueryEngine.Scan.Keys

/-!
# Join/SemiJoin — the join over rows already read

A relation whose keys are not pushed into the target's scan is joined here: the keys of one side go
into a hash set as bytes, and the rows of the other are looked up in it.  A null component gives a
row no key.  Keys are typed column by column, and a column no key is read from is refused.
-/

open Numerals Fallible

namespace QueryEngine

/-- A typed key extractor. -/
inductive TypedExtractor
  | int (ints : IntColumn)
  | text (rows : List (Slot Text))
  | boolean (rows : List (Slot Bool))
  | fixedBinary (rows : List (Slot Bytes))
  | intList (t : IntType) (rows : List (Slot (List (Slot t.Native))))

namespace TypedExtractor

/-- The extractor for a column's type. -/
def new : Column → Result TypedExtractor
  | .scalar (.int t) rows => .ok (.int ⟨t, rows⟩)
  | .scalar (.text _) rows => .ok (.text rows)
  | .scalar .boolean rows => .ok (.boolean rows)
  | .scalar (.bytes (.fixedSizeBinary _)) rows =>
    .ok (.fixedBinary (rows.map fun s => ⟨s.value.val, s.valid⟩))
  | .list false (.int t) rows => .ok (.intList t rows)
  | .list false item _ =>
    .error ⟨.unsupportedKeyType, "unsupported list element type for join key: " ++ item.display⟩
  | col =>
    .error ⟨.unsupportedKeyType, "unsupported join key column type: " ++ col.dataType.display⟩

/-- What a column writes for a row; nothing for a null. -/
def append : TypedExtractor → ℕ → Option Bytes
  | int ints, row => ((ints.slots[row]?).bind Slot.get?).map fun v =>
    wordLe (storedKey (ints.type.value v))
  | text rows, row => ((rows[row]?).bind Slot.get?).map fun t =>
    leBytes 4 t.bytes.length ++ t.bytes
  | boolean rows, row => ((rows[row]?).bind Slot.get?).map fun b => [if b then 1 else 0]
  | fixedBinary rows, row => (rows[row]?).bind Slot.get?
  | intList t rows, row => ((rows[row]?).bind Slot.get?).map fun elements =>
    leBytes 4 elements.length ++ elements.flatMap fun s => wordLe (storedKey (t.value s.value))

/-- **An extractor reads every kind of key component**, and writes what a key filter does. -/
theorem new_eq_ok {c : Column} {kind : KeyKind} (h : c.keyKind = some kind) :
    ∃ extractor, new c = .ok extractor ∧
      ∀ row, extractor.append row = (c.keyValue row).map KeyValue.bytes := by
  rcases c with ⟨_ | _ | _ | _ | _, rows⟩ | ⟨_ | _, _ | _ | _ | _ | _, rows⟩ | _
  case scalar.int t =>
    exact ⟨_, rfl, fun row => by simp [append, Column.keyValue, KeyValue.bytes, Function.comp_def]⟩
  case scalar.text =>
    exact ⟨_, rfl, fun row => by simp [append, Column.keyValue, KeyValue.bytes, Function.comp_def]⟩
  case list.false.int t =>
    exact ⟨_, rfl, fun row => by
      simp [append, Column.keyValue, KeyValue.bytes, Function.comp_def, List.flatMap_map]⟩
  all_goals exact absurd h (by simp [Column.keyKind])

end TypedExtractor

/-- The columns of some names, in order. -/
def resolveKeyIndices (batch : RecordBatch) (keyColumns : List String) : Result (List Column) :=
  keyColumns.mapM fun name =>
    match batch.columnByName name with
    | some col => .ok col
    | none => .error ⟨.columnNotFound, "key column '" ++ name ++ "' not found in schema"⟩

/-- A composite key; nothing when a column is null. -/
def writeKey (extractors : List TypedExtractor) (row : ℕ) : Option Bytes :=
  (extractors.mapM fun (ext : TypedExtractor) => ext.append row).map List.flatten

/-- The key of each row of a batch. -/
def batchKeys (batch : RecordBatch) (keyColumns : List String) : Result (List (Option Bytes)) :=
  (resolveKeyIndices batch keyColumns).bind fun cols =>
    (cols.mapM TypedExtractor.new).bind fun extractors =>
      .ok ((List.range batch.numRows).map (writeKey extractors))

/-- The set of keys of some rows.  Rows with any null key are skipped. -/
def buildKeySet (batches : List RecordBatch) (keyColumns : List String) : Result (List Bytes) :=
  (batches.mapM fun batch => batchKeys batch keyColumns).bind fun keys =>
    .ok (keys.flatten.filterMap id)

/-- A mask selecting no row of each batch. -/
def noRows (batches : List RecordBatch) : List (List Bool) :=
  batches.map fun batch => List.replicate batch.numRows false

/-- Which rows of each probe batch have a key of the build side. -/
def semiJoinMasks (buildBatches : List RecordBatch) (buildKey : List String)
    (probeBatches : List RecordBatch) (probeKey : List String) : Result (List (List Bool)) :=
  if buildBatches.isEmpty || probeBatches.isEmpty then .ok (noRows probeBatches)
  else
    (buildKeySet buildBatches buildKey).bind fun keySet =>
      if keySet.isEmpty then .ok (noRows probeBatches)
      else
        probeBatches.mapM fun batch => (batchKeys batch probeKey).bind fun keys =>
          .ok (keys.map fun key => key.any fun key => decide (key ∈ keySet))

/-- Which rows of each lookup batch have a key of an input row. -/
def lookupJoinMasks (inputBatches : List RecordBatch) (inputKey : List String)
    (lookupBatches : List RecordBatch) (lookupKey : List String) : Result (List (List Bool)) :=
  semiJoinMasks inputBatches inputKey lookupBatches lookupKey

/-! ## What the join keeps -/

/-- **A batch's keys are its rows' tuples**, written out. -/
theorem batchKeys_eq {batch : RecordBatch} {kinds : List KeyKind} {names : List String}
    (h : batch.KeyedAt kinds names) :
    batchKeys batch names = .ok ((List.range batch.numRows).map fun row =>
      (batch.keyTuple names row).map fun tuple => tuple.flatMap KeyValue.bytes) := by
  have hcols : ∃ cols extractors, resolveKeyIndices batch names = .ok cols ∧
      cols.mapM TypedExtractor.new = .ok extractors ∧
      ∀ row, (extractors.mapM fun (ext : TypedExtractor) => ext.append row) =
        (batch.keyTuple names row).map (List.map KeyValue.bytes) := by
    induction h with
    | nil => exact ⟨[], [], rfl, rfl, fun row => rfl⟩
    | @cons kind name _ names hkind _ ih =>
      obtain ⟨cols, extractors, hcols, hextractors, hwrite⟩ := ih
      obtain ⟨c, hc, hck⟩ := Option.bind_eq_some_iff.mp hkind
      obtain ⟨extractor, hnew, happend⟩ := TypedExtractor.new_eq_ok hck
      refine ⟨c :: cols, extractor :: extractors, ?_, ?_, fun row => ?_⟩
      · exact mapM_eq_ok.mpr (.cons (by rw [hc]) (mapM_eq_ok.mp hcols))
      · exact mapM_eq_ok.mpr (.cons hnew (mapM_eq_ok.mp hextractors))
      · unfold RecordBatch.keyTuple at hwrite ⊢
        rw [List.mapM_cons, List.mapM_cons, happend, hwrite, hc, Option.bind_some]
        cases c.keyValue row with
        | none => rfl
        | some v =>
          cases names.mapM fun name => (batch.columnByName name).bind fun col => col.keyValue row <;>
            rfl
  obtain ⟨cols, extractors, hresolve, hextractors, hwrite⟩ := hcols
  rw [batchKeys, hresolve]
  change (cols.mapM TypedExtractor.new).bind _ = _
  rw [hextractors]
  refine congrArg Except.ok (List.map_congr_left fun row _ => ?_)
  rw [writeKey, hwrite, Option.map_map]
  cases batch.keyTuple names row <;> rfl

section Joined

variable {kinds : List KeyKind} {sources targets : List RecordBatch} {leftKeys rightKeys : List String}
  (hs : ∀ b ∈ sources, b.KeyedAt kinds leftKeys) (ht : ∀ b ∈ targets, b.KeyedAt kinds rightKeys)
include hs

/-- The set of keys holds the source rows' tuples, written out. -/
theorem buildKeySet_eq : ∃ keySet, buildKeySet sources leftKeys = .ok keySet ∧
    ∀ key, key ∈ keySet ↔ ∃ tuple ∈ sourceKeys sources leftKeys,
      tuple.flatMap KeyValue.bytes = key := by
  have hkeys : (sources.mapM fun batch => batchKeys batch leftKeys) =
      .ok (sources.map fun batch => (List.range batch.numRows).map fun row =>
        (batch.keyTuple leftKeys row).map fun tuple => tuple.flatMap KeyValue.bytes) := by
    refine mapM_eq_ok.mpr (List.forall₂_map_right_iff.mpr (List.forall₂_same.mpr fun b hb => ?_))
    exact batchKeys_eq (hs b hb)
  refine ⟨_, by rw [buildKeySet, hkeys]; rfl, fun key => ?_⟩
  simp only [List.mem_filterMap, List.mem_flatten, List.mem_map, mem_sourceKeys, id]
  constructor
  · rintro ⟨_, ⟨_, ⟨batch, hbatch, rfl⟩, hrow⟩, rfl⟩
    obtain ⟨row, hlt, hkey⟩ := List.mem_map.mp hrow
    obtain ⟨tuple, htuple, rfl⟩ := Option.map_eq_some_iff.mp hkey
    exact ⟨tuple, ⟨batch, hbatch, row, List.mem_range.mp hlt, htuple⟩, rfl⟩
  · rintro ⟨tuple, ⟨batch, hbatch, row, hlt, htuple⟩, rfl⟩
    refine ⟨_, ⟨_, ⟨batch, hbatch, rfl⟩, ?_⟩, rfl⟩
    exact List.mem_map.mpr ⟨row, List.mem_range.mpr hlt, by rw [htuple]; rfl⟩

include ht

/-- **The join over rows already read is the semi-join**: it keeps the rows a key filter does. -/
theorem semiJoinMasks_eq : semiJoinMasks sources leftKeys targets rightKeys =
    .ok (targets.map fun target => (List.range target.numRows).map
      (semiJoined sources leftKeys target rightKeys)) := by
  obtain ⟨keySet, hbuild, hmem⟩ := buildKeySet_eq hs
  -- a set without keys joins with nothing
  have hnone (hempty : sourceKeys sources leftKeys = []) : noRows targets =
      targets.map fun target => (List.range target.numRows).map
        (semiJoined sources leftKeys target rightKeys) := by
    refine List.map_congr_left fun target _ => ?_
    rw [← List.length_range (n := target.numRows), ← List.map_const', List.length_range]
    refine List.map_congr_left fun row _ => ?_
    simp [semiJoined, hempty]
  unfold semiJoinMasks
  split
  · next hno =>
    rcases Bool.or_eq_true_iff.mp hno with hsources | htargets
    · obtain rfl := List.isEmpty_iff.mp hsources
      rw [hnone rfl]
    · obtain rfl := List.isEmpty_iff.mp htargets
      rfl
  · rw [hbuild]
    change (if _ then _ else _) = _
    split
    · next hempty =>
      rw [hnone]
      refine List.eq_nil_iff_forall_not_mem.mpr fun tuple htuple => ?_
      have hkey := (hmem _).mpr ⟨tuple, htuple, rfl⟩
      rw [List.isEmpty_iff.mp hempty] at hkey
      exact absurd hkey (by simp)
    · refine mapM_eq_ok.mpr (List.forall₂_map_right_iff.mpr (List.forall₂_same.mpr fun b hb => ?_))
      rw [batchKeys_eq (ht b hb)]
      refine congrArg Except.ok ?_
      rw [List.map_map]
      refine List.map_congr_left fun row _ => ?_
      rw [Function.comp_apply, Option.any_map, semiJoined]
      cases htuple : b.keyTuple rightKeys row with
      | none => rfl
      | some tuple =>
        rw [Option.any_some, Option.any_some, decide_eq_decide, hmem]
        constructor
        · rintro ⟨source, hsource, hbytes⟩
          obtain ⟨batch, hbatch, i, -, hi⟩ := mem_sourceKeys.mp hsource
          rwa [← (keyBytes_injective (hs batch hbatch) (ht b hb) hi htuple).mp hbytes]
        · exact fun hsource => ⟨tuple, hsource, rfl⟩

end Joined

/-! ## A key filter is a semi-join -/

/-- **A key filter keeps a row exactly when a source row has its key**, whichever layout holds the
keys; it keeps every row group a key's block is in; and the join over rows already read keeps the
same rows.  Integers compare once widened by their own sign, and a path's null element compares as
the value its slot holds. -/
theorem key_filter_is_semi_join (kinds : List KeyKind) (sources : List RecordBatch)
    (leftKeys rightKeys : List String) (sourceBlock targetBlock : String) (target : RecordBatch)
    (hpaired : leftKeys.length = rightKeys.length) (hfits : KeySet.Fits sources leftKeys)
    (hs : ∀ b ∈ sources, b.KeyedAt kinds leftKeys) (ht : target.KeyedAt kinds rightKeys) :
    ∃ filter mask, KeyFilter.build sources leftKeys rightKeys sourceBlock targetBlock = some filter ∧
      filter.mask target (fun _ => true) = .ok mask ∧
      (∀ row < target.numRows, mask[row]? = some true ↔
        ∃ tuple, target.keyTuple rightKeys row = some tuple ∧
          ∃ batch ∈ sources, ∃ i < batch.numRows, batch.keyTuple leftKeys i = some tuple) ∧
      (∀ min max, (∃ batch ∈ sources, ∃ i < batch.numRows, (batch.keyTuple leftKeys i).isSome ∧
          ∃ block, batch.blockAt sourceBlock i = some block ∧ min ≤ block ∧ block ≤ max) →
        filter.hasBlockWithin min max = true) ∧
      semiJoinMasks sources leftKeys [target] rightKeys = .ok [mask] := by
  have hmask := KeySet.mask_ofBatches hs ht hfits sourceBlock fun _ => true
  simp only [Bool.true_and] at hmask
  refine ⟨_, _, KeyFilter.build_eq hfits hpaired, hmask, fun row hrow => ?_, fun min max => ?_, ?_⟩
  · rw [List.getElem?_map, List.getElem?_range hrow, ← semiJoined_iff]
    simp
  · rintro ⟨batch, hbatch, i, hi, hkey, block, hblock, hmin, hmax⟩
    refine (KeyFilter.hasBlockWithin_iff (KeySet.pairwise_sortedBlocks sourceBlock) min max).mpr
      ⟨block, ?_, hmin, hmax⟩
    exact (KeySet.mem_sortedBlocks hs sourceBlock).mpr ⟨batch, hbatch, i, hi, hkey, hblock⟩
  · rw [semiJoinMasks_eq hs fun b hb => List.mem_singleton.mp hb ▸ ht]
    rfl

/-- A batch of one column and one row. -/
def oneRow (name : String) (col : Column) (hlen : col.len = 1) (hfit : col.OffsetsFit) : RecordBatch where
  numRows := 1
  columns := [(name, col)]
  lengths c hc := by
    rw [List.mem_singleton.mp hc]
    exact hlen
  offsets c hc := by
    rw [List.mem_singleton.mp hc]
    exact hfit

/-- A row whose path is one 32-bit element. -/
def onePath (element : Slot (BitVec 32)) : RecordBatch :=
  oneRow "path" (.list false (.int .uint32) [.some [element]]) rfl
    (show 1 + 0 < 2 ^ 31 by decide)

/-- A batch of a block, a transaction and a path. -/
def oneCallPath (block transaction : BitVec 64) (path : List (Slot (BitVec 32))) (hshort : path.length < 2 ^ 31) :
    RecordBatch where
  numRows := 1
  columns := [("number", .scalar (.int .uint64) [.some block]),
    ("transaction", .scalar (.int .uint64) [.some transaction]),
    ("path", .list false (.int .uint32) [.some path])]
  lengths c hc := by
    simp only [List.mem_cons, List.not_mem_nil, or_false] at hc
    rcases hc with rfl | rfl | rfl <;> rfl
  offsets c hc := by
    simp only [List.mem_cons, List.not_mem_nil, or_false] at hc
    rcases hc with rfl | rfl | rfl
    · trivial
    · trivial
    · change path.length + 0 < 2 ^ 31
      omega

/-- Two calls of a transaction keep the call they hold. -/
theorem key_filter_is_semi_join_calls :
    let sources := [oneCallPath 5 1 [.some 0] (by decide), oneCallPath 5 1 [.some 0, .some 2] (by decide)]
    let target := oneCallPath 5 1 [.some 0, .some 2] (by decide)
    let names := ["number", "transaction", "path"]
    ∃ filter mask, KeyFilter.build sources names names "number" "number" = some filter ∧
      filter.mask target (fun _ => true) = .ok mask ∧
      (∀ row < target.numRows, mask[row]? = some true ↔
        ∃ tuple, target.keyTuple names row = some tuple ∧
          ∃ batch ∈ sources, ∃ i < batch.numRows, batch.keyTuple names i = some tuple) ∧
      (∀ min max, (∃ batch ∈ sources, ∃ i < batch.numRows, (batch.keyTuple names i).isSome ∧
          ∃ block, batch.blockAt "number" i = some block ∧ min ≤ block ∧ block ≤ max) →
        filter.hasBlockWithin min max = true) ∧
      semiJoinMasks sources names [target] names = .ok [mask] :=
  key_filter_is_semi_join [.int, .int, .path] _ ["number", "transaction", "path"] ["number", "transaction", "path"]
    "number" "number" _ rfl (fun _ => ⟨by decide, by decide⟩) (fun b hb => by
      simp only [List.mem_cons, List.not_mem_nil, or_false] at hb
      rcases hb with rfl | rfl <;> exact .cons rfl (.cons rfl (.cons rfl .nil)))
    (.cons rfl (.cons rfl (.cons rfl .nil)))

/-- **A null element joins the value its slot holds**: a path of one null, over a slot of zero, keeps
the row whose path is one zero, though no two of their elements are equal. -/
theorem null_element_joins_its_slot :
    (KeyFilter.build [onePath ⟨0, false⟩] ["path"] ["path"] "number" "number").map
        (fun filter => (filter.mask (onePath (.some 0)) fun _ => true).toOption) = some (some [true]) ∧
      ((onePath ⟨0, false⟩).columnByName "path").bind (fun col => col.elementsAt 0) = some [none] ∧
      ((onePath (.some 0)).columnByName "path").bind (fun col => col.elementsAt 0) = some [some 0] := by
  decide

end QueryEngine
