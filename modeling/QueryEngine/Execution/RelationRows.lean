import QueryEngine.Execution.Relations
import QueryEngine.Scan.PairSets

/-!
# Execution/RelationRows — every route reads the related rows

However a relation's target is read, the rows are those related to a source row: by an equal key, or by an address of
their group (`relation_rows`).
-/

open Selection Kleene Fallible Lookup QueryEngine.SourceAddresses

namespace QueryEngine

/-! ## Rows that pass a test -/

namespace Rows

/-- The rows that pass a test of their batch and place. -/
def selected (rows : Rows) (test : RecordBatch → ℕ → Bool) : List ScannedRow :=
  rows.batches.zipIdx.flatMap fun b => pick ((List.range b.1.numRows).map (test b.1)) (rows.partAt b).rows

theorem selected_congr {rows : Rows} {test other : RecordBatch → ℕ → Bool}
    (h : ∀ batch ∈ rows.batches, ∀ row < batch.numRows, test batch row = other batch row) :
    rows.selected test = rows.selected other := by
  refine List.flatMap_congr fun b hb => congrArg (pick · _) (List.map_congr_left fun row hrow => ?_)
  exact h b.1 (List.fst_mem_of_mem_zipIdx hb) row (List.mem_range.mp hrow)

theorem selected_eq_nil {rows : Rows} {test : RecordBatch → ℕ → Bool}
    (h : ∀ batch ∈ rows.batches, ∀ row < batch.numRows, test batch row = false) : rows.selected test = [] := by
  rw [@selected_congr rows test (fun _ _ => false) h, selected, List.flatMap_eq_nil_iff]
  intro b _
  rw [List.map_const', pick_replicate_false]

/-- **A filter of masks that mark a test keeps the rows that pass it.** -/
theorem filter_selected {rows : Rows} {mask : ℕ → RecordBatch → Except String Mask} {test : RecordBatch → ℕ → Bool}
    (h : ∀ b ∈ rows.batches.zipIdx, ∃ m, mask b.2 b.1 = .ok m ∧ Mask.kept m = (List.range b.1.numRows).map (test b.1)) :
    ∃ kept, rows.filter mask = .ok kept ∧ kept.scanned = rows.selected test := by
  have hlength {m : Mask} {n : ℕ} {f : ℕ → Bool} (hm : Mask.kept m = (List.range n).map f) : m.length = n := by
    have := congrArg List.length hm
    simpa using this
  obtain ⟨kept, hkept⟩ := exists_filter fun b hb => (h b hb).imp fun m hm => ⟨hm.1, (hlength hm.2).le⟩
  obtain ⟨masks, hmasks, -, hparts⟩ := filter_eq_ok hkept
  have hall : List.Forall₂ (fun b m => Mask.kept m = (List.range b.1.numRows).map (test b.1)) rows.batches.zipIdx
      masks := by
    refine forall₂_imp_mem (mapM_eq_ok.mp hmasks) fun b hb m hm => ?_
    obtain ⟨m', hm', hspec⟩ := h b hb
    rwa [Except.ok.inj (hm.symm.trans hm')]
  refine ⟨kept, hkept, ?_⟩
  have haligned : List.Forall₂ (fun part mask => part.Aligned ∧ mask.length = part.batch.numRows) rows.parts masks :=
    List.forall₂_map_left_iff.mpr (forall₂_imp_mem hall fun b hb m hm =>
      ⟨rows.aligned_parts _ (List.mem_map_of_mem hb), hlength hm⟩)
  rw [scanned, hparts, flatMap_keptParts haligned, parts, partsOf, List.zip_map_left, List.flatMap_map, selected]
  clear hmasks hparts haligned h
  generalize rows.batches.zipIdx = batches at hall ⊢
  induction hall with
  | nil => rfl
  | cons hm _ ih =>
    rw [List.zip_cons_cons, List.flatMap_cons, List.flatMap_cons, ih, ← hm]
    rfl

end Rows

/-! ## Sources without a key -/

/-- Source addresses without any have none in a group. -/
theorem SourceAddresses.not_mem_paths_of_isEmpty {sources : SourceAddresses} (h : sources.isEmpty = true) (group : ℕ)
    (path : Bytes) : path ∉ sources.paths.getD group [] := by
  rw [isEmpty, List.all_eq_true] at h
  rw [List.getD_eq_getElem?_getD]
  cases hgroup : sources.paths[group]? with
  | none => exact List.not_mem_nil
  | some own =>
    rw [Option.getD_some, List.isEmpty_iff.mp (h own (List.mem_of_getElem? hgroup))]
    exact List.not_mem_nil

namespace KeySet

variable {batches : List RecordBatch} {leftKeys rightKeys : List String} {kinds : List KeyKind} {target : RecordBatch}

/-- Columns of components are read. -/
theorem keysReadable_of_keyedAt (hs : ∀ b ∈ batches, b.KeyedAt kinds leftKeys) : keysReadable batches leftKeys =
    true := by
  unfold keysReadable
  refine List.all_eq_true.mpr fun batch hbatch => List.all_eq_true.mpr fun name hname => ?_
  obtain ⟨kind, hkind⟩ : ∃ kind, (batch.columnByName name).bind Column.keyKind = some kind := by
    have hkeyed := hs batch (List.mem_of_mem_filter hbatch)
    clear hs hbatch
    induction hkeyed with
    | nil => exact absurd hname List.not_mem_nil
    | cons h _ ih =>
      rcases List.mem_cons.mp hname with rfl | hname
      · exact ⟨_, h⟩
      · exact ih hname
  obtain ⟨c, hc, hck⟩ := Option.bind_eq_some_iff.mp hkind
  dsimp only
  rw [hc, Option.bind_some]
  rcases c with ⟨_ | _ | _ | _ | _, rows⟩ | ⟨_ | _, _ | _ | _ | _ | _, rows⟩ | _
  case scalar.int | scalar.text | list.false.int => rfl
  all_goals exact absurd hck (by simp [Column.keyKind])

/-- **A set without keys keeps no row.** -/
theorem semiJoined_of_isEmpty (hfits : Fits batches leftKeys) (hs : ∀ b ∈ batches, b.KeyedAt kinds leftKeys)
    (ht : target.KeyedAt kinds rightKeys) {blockColumn : String}
    (hempty : (ofBatches batches leftKeys blockColumn).keySet.isEmpty = true) {row : ℕ}
    (hrow : row < target.numRows) : semiJoined batches leftKeys target rightKeys row = false := by
  have hmask := mask_ofBatches hs ht hfits blockColumn fun _ => true
  refine Bool.eq_false_iff.mpr fun hjoined => ?_
  have hkept (mask : List Bool) (h : compositeKeyInSetMask target rightKeys (ofBatches batches leftKeys
      blockColumn).keySet (fun _ => true) = .ok mask) : mask[row]? = some true := by
    rw [hmask] at h
    rw [← Except.ok.inj h, List.getElem?_map, List.getElem?_range hrow, Option.map_some, hjoined]
    rfl
  clear hmask
  revert hkept hempty
  unfold ofBatches
  split
  · intro hempty hkept
    dsimp only [ofPaths, CompositeKeySet.isEmpty] at hempty
    dsimp only [ofPaths, compositeKeyInSetMask] at hkept
    have hmask := hkept _ rfl
    rw [mask_eq, List.getElem?_map, List.getElem?_range hrow, Option.map_some, Option.some_inj,
      Bool.true_and] at hmask
    obtain ⟨keys, -, hany⟩ := (Option.any_eq_true _ _).mp hmask
    obtain ⟨group, -, hholds⟩ := (Option.any_eq_true _ _).mp hany
    have hindexed := indexed_ofRows (@whole_sourceRows batches (leftKeys.take 2) (leftKeys.getD 2 "")
      (groupKind batches (leftKeys.take 2)))
    have hmem := (hindexed.holds_iff group (pathBytes keys)).mp hholds
    exact SourceAddresses.not_mem_paths_of_isEmpty hempty group _ hmem
  · split
    · intro hempty hkept
      dsimp only [ofPairs, CompositeKeySet.isEmpty] at hempty
      rw [PairSet.isEmpty_new] at hempty
      simp only [ofPairs, compositeKeyInSetMask, hempty] at hkept
      cases hpairs : pairKeys target rightKeys with
      | none =>
        rw [hpairs] at hkept
        have hmask := hkept _ rfl
        rw [List.getElem?_replicate, if_pos hrow] at hmask
        exact absurd hmask (by simp)
      | some pairs =>
        rw [hpairs] at hkept
        have hmask := hkept _ rfl
        rw [List.getElem?_map, List.getElem?_range hrow, Option.map_some, Option.some_inj, Bool.true_and] at hmask
        obtain ⟨pair, -, hcontains⟩ := (Option.any_eq_true _ _).mp hmask
        exact absurd ((PairSet.contains_new [] pair.1 pair.2).mp hcontains) List.not_mem_nil
    · intro hempty hkept
      dsimp only [ofBytes, CompositeKeySet.isEmpty] at hempty
      dsimp only [ofBytes, compositeKeyInSetMask] at hkept
      have hmask := hkept _ rfl
      rw [List.isEmpty_iff.mp hempty, List.getElem?_map, List.getElem?_range hrow] at hmask
      simp at hmask

end KeySet

namespace AddressIndex

variable {batches : List RecordBatch} {groupKeyColumns : List String} {sourceAddress targetAddress : String}
  {target : RecordBatch}

/-- Every source row is read, so an index without addresses is of rows with a null in each. -/
theorem readable_ofBatches (hs : ∀ b ∈ batches, b.AddressedAt groupKeyColumns sourceAddress) :
    (ofBatches batches groupKeyColumns sourceAddress).readable = true := by
  rw [ofBatches, of, Bool.and_eq_true]
  refine ⟨List.all_eq_true.mpr fun batch hbatch => ?_, KeySet.keysReadable_of_keyedAt fun b hb => (hs b hb).keyed⟩
  obtain ⟨c, hc, hck⟩ := Option.bind_eq_some_iff.mp (hs batch (List.mem_of_mem_filter hbatch)).addressed
  rw [addressList, hc]
  rcases c with ⟨_ | _ | _ | _ | _, rows⟩ | ⟨_ | _, _ | _ | _ | _ | _, rows⟩ | _
  case list.false.int => rfl
  all_goals exact absurd hck (by simp [Column.keyKind])

/-- **An index without addresses relates no row.** -/
theorem not_related_of_isEmpty (ht : target.AddressedAt groupKeyColumns targetAddress)
    (hempty : (SourceAddresses.ofBatches batches groupKeyColumns sourceAddress).isEmpty = true)
      (mode : HierarchicalMode)
    (inclusive : Bool) {row : ℕ} : ¬RelatedInGroup RecordBatch.addressAt mode inclusive batches groupKeyColumns
      sourceAddress targetAddress target row := by
  rintro ⟨tuple, htuple, -, -, batch, hbatch, i, hi, hown, source, hread, -⟩
  have hfits := ht.keyed.keyTuple htuple
  obtain ⟨key, hkey⟩ := @exists_pack_groupKind batches groupKeyColumns tuple hfits
  have hmem : (key, pathBytes source) ∈
      sourceRows (groupKind batches groupKeyColumns) batches groupKeyColumns sourceAddress := by
    refine SourceAddresses.mem_sourceRows.mpr ⟨batch, hbatch, i, hi, ?_, ?_⟩
    · rw [hown]
      exact hkey
    · rw [hread]
      rfl
  obtain ⟨group, hname⟩ := exists_name _ hmem
  have hpath : pathBytes source ∈ (SourceAddresses.ofBatches batches groupKeyColumns sourceAddress).paths.getD group
      [] :=
    (mem_paths _ hname _).mpr hmem
  exact SourceAddresses.not_mem_paths_of_isEmpty hempty group _ hpath

end AddressIndex

/-! ## What is related, and what a scan owes its filters -/

/-- **Whether a target row is related to a source row**: by an equal key, or by an address of its group. -/
def RelationPlan.Relates (relation : RelationPlan) (table : String) (desc target : TableDescription)
    (sources : List RecordBatch) (batch : RecordBatch) (row : ℕ) : Prop :=
  relation.kind = .join ∧ semiJoined sources relation.leftKey batch relation.rightKey row = true ∨
    ∃ spec, HierarchicalSpec.of relation target table desc = some spec ∧
      RelatedInGroup RecordBatch.itemsAt spec.mode spec.inclusive sources spec.groupKeys spec.sourceAddress
        spec.targetAddress batch row

/-- **Columns a relation reads**: keys of the same kinds on both sides, and addresses that are lists of item indices. -/
structure RelationPlan.Reads (relation : RelationPlan) (table : String) (desc target : TableDescription)
    (sources targets : List RecordBatch) : Prop where
  join : relation.kind = .join → ∃ kinds, (∀ b ∈ sources, b.KeyedAt kinds relation.leftKey) ∧
    ∀ b ∈ targets, b.KeyedAt kinds relation.rightKey
  /-- A children or parents relation groups both tables by the same columns. -/
  grouped : relation.kind ≠ .join → groupKeysForRelation relation.leftKey target.addressColumn =
    groupKeysForRelation relation.rightKey target.addressColumn
  sources : ∀ spec ∈ HierarchicalSpec.of relation target table desc, ∀ b ∈ sources,
    b.AddressedAt spec.groupKeys spec.sourceAddress ∧ b.ItemIndices spec.sourceAddress
  targets : ∀ spec ∈ HierarchicalSpec.of relation target table desc, ∀ b ∈ targets,
    b.AddressedAt spec.groupKeys spec.targetAddress ∧ b.ItemIndices spec.targetAddress

/-- **The size a relation's shared values are built for**: that of its key set and of its address index. -/
structure RelationPlan.Fits (relation : RelationPlan) (table : String) (desc target : TableDescription)
    (sources : List RecordBatch) : Prop where
  keys : ∀ pushed ∈ pushdownKeys relation target, KeySet.Fits sources pushed.1
  addresses : ∀ spec ∈ addressSpec table desc relation target,
    SourceAddresses.Fits sources spec.groupKeys spec.sourceAddress

/-- Whether a filter's mask keeps a row. -/
def KeyFilter.keeps (filter : KeyFilter) (batch : RecordBatch) (row : ℕ) : Bool :=
  (filter.mask batch fun _ => true).toOption.any fun mask => mask[row]? == some true

/-- Whether a row passes the filters of its scan. -/
def passes (keyFilter : Option KeyFilter) (hierarchicalFilter : Option HierarchicalFilter) (batch : RecordBatch)
    (row : ℕ) : Bool :=
  (keyFilter.all fun filter => filter.keeps batch row) &&
    hierarchicalFilter.all fun filter => (filter.mask batch fun _ => true)[row]? == some true

/-- **What a scan of the target owes the filters it is given**: the rows of the scan without filters that pass them. -/
structure Delivers (scanRows : Option KeyFilter → Option HierarchicalFilter → Except String Rows) (all : Rows)
    (keyFilter : Option KeyFilter) (hierarchicalFilter : Option HierarchicalFilter) : Prop where
  unfiltered : keyFilter = none → hierarchicalFilter = none → scanRows none none = .ok all
  filtered : ∃ rows, scanRows keyFilter hierarchicalFilter = .ok rows ∧
    rows.scanned = all.selected (passes keyFilter hierarchicalFilter)

/-! ## Every route reads the related rows -/

section Routes

variable {table : String} {desc target : TableDescription} {relation : RelationPlan} {source : List RecordBatch}

/-- A relation's input as its own rows give it, nothing shared. -/
def RelationInput.own (table : String) (desc : TableDescription) (relation : RelationPlan) (target : TableDescription)
    (source : List RecordBatch) : RelationInput where
  relation := relation
  target := target
  hierarchy := HierarchicalSpec.of relation target table desc
  source := source
  keyFilter := ((pushdownKeys relation target).bind fun pushed =>
    (KeySet.ofBatches source pushed.1 desc.blockNumberColumn).filter pushed.2 target.blockNumberColumn).filter fun
      filter =>
      !filter.isEmpty
  hierarchicalFilter := ((addressSpec table desc relation target).map fun spec =>
    (AddressIndex.ofBatches source spec.groupKeys spec.sourceAddress).filter spec.targetAddress spec.mode
      spec.inclusive).filter
      fun filter => !filter.isEmpty
  keyless := (pushdownKeys relation target).any (fun pushed =>
      (KeySet.ofBatches source pushed.1 desc.blockNumberColumn).matchesNothing) ||
    (addressSpec table desc relation target).any fun spec =>
      (AddressIndex.ofBatches source spec.groupKeys spec.sourceAddress).matchesNothing

/-- **Shared values give a relation the input its own rows give it.** -/
theorem relationInput_eq {keySet : Option (List ℕ) × List String → Except String KeySet}
    {addressIndex : Option (List ℕ) × List String × String → Except String AddressIndex}
    {sources : Option (List ℕ) → Except String (List RecordBatch)}
    (hpaired : ∀ pushed ∈ pushdownKeys relation target, pushed.1.length = pushed.2.length)
    (hkeys : ∀ pushed ∈ pushdownKeys relation target, keySet (relation.sourceItems, pushed.1) =
      .ok (KeySet.ofBatches source pushed.1 desc.blockNumberColumn))
    (haddresses : ∀ spec ∈ addressSpec table desc relation target,
      addressIndex (relation.sourceItems, spec.groupKeys, spec.sourceAddress) =
        .ok (AddressIndex.ofBatches source spec.groupKeys spec.sourceAddress))
    (hsource : sources relation.sourceItems = .ok source) :
    relationInput table desc keySet addressIndex sources relation target =
      .ok (.own table desc relation target source) := by
  have hfound : (pushdownKeys relation target).elim (.ok none) (fun pushed =>
      (keySet (relation.sourceItems, pushed.1)).map fun set => some (set, pushed.2)) =
      .ok ((pushdownKeys relation target).map fun pushed =>
        (KeySet.ofBatches source pushed.1 desc.blockNumberColumn, pushed.2)) := by
    cases hpushed : pushdownKeys relation target with
    | none => rfl
    | some pushed =>
      rw [Option.elim_some, hkeys pushed hpushed]
      rfl
  have hindexed : (addressSpec table desc relation target).elim (.ok none) (fun spec =>
      (addressIndex (relation.sourceItems, spec.groupKeys, spec.sourceAddress)).map fun index => some (index, spec)) =
      .ok ((addressSpec table desc relation target).map fun spec =>
        (AddressIndex.ofBatches source spec.groupKeys spec.sourceAddress, spec)) := by
    cases hspec : addressSpec table desc relation target with
    | none => rfl
    | some spec =>
      rw [Option.elim_some, haddresses spec hspec]
      rfl
  have hfilter : ((pushdownKeys relation target).map fun pushed =>
      (KeySet.ofBatches source pushed.1 desc.blockNumberColumn, pushed.2)).elim (.ok none) (fun pushed =>
        (pushedFilter pushed.1 pushed.2 target.blockNumberColumn).map some) =
      .ok ((pushdownKeys relation target).bind fun pushed =>
        (KeySet.ofBatches source pushed.1 desc.blockNumberColumn).filter pushed.2 target.blockNumberColumn) := by
    cases hpushed : pushdownKeys relation target with
    | none => rfl
    | some pushed =>
      rw [Option.map_some, Option.elim_some, Option.bind_some, pushedFilter, KeySet.filter, KeySet.width_ofBatches,
        if_pos (hpaired pushed hpushed)]
      rfl
  refine bind_eq_ok.mpr ⟨_, hfound, bind_eq_ok.mpr ⟨_, hindexed, bind_eq_ok.mpr ⟨_, hfilter, bind_eq_ok.mpr
    ⟨_, hsource, ?_⟩⟩⟩⟩
  rw [RelationInput.own, Option.map_map, Option.any_map, Option.any_map]
  rfl

/-- What an address is followed by. -/
theorem HierarchicalSpec.of_eq_some {spec : HierarchicalSpec}
    (h : HierarchicalSpec.of relation target table desc = some spec) :
    relation.kind ≠ .join ∧ spec.groupKeys = groupKeysForRelation relation.leftKey target.addressColumn := by
  obtain ⟨mode, hmode, h⟩ := Option.bind_eq_some_iff.mp h
  obtain ⟨address, haddress, h⟩ := Option.bind_eq_some_iff.mp h
  obtain rfl := Option.some.inj h
  refine ⟨fun hjoin => ?_, by rw [haddress]⟩
  rw [hjoin] at hmode
  cases hmode

theorem HierarchicalSpec.of_join (h : relation.kind = .join) : HierarchicalSpec.of relation target table desc =
    none := by
  rw [HierarchicalSpec.of, h]
  rfl

theorem addressSpec_eq_some {spec : HierarchicalSpec} : addressSpec table desc relation target = some spec ↔
    HierarchicalSpec.of relation target table desc = some spec ∧ spec.groupKeys ≠ [] := by
  rw [addressSpec, Option.filter_eq_some_iff]
  simp

theorem pushdownKeys_join (h : relation.kind = .join) : pushdownKeys relation target =
    if relation.leftKey ≠ [] ∧ relation.rightKey ≠ [] then some (relation.leftKey, relation.rightKey) else none := by
  rw [pushdownKeys, h]

theorem pushdownKeys_grouped (h : relation.kind ≠ .join)
    (hgrouped : groupKeysForRelation relation.leftKey target.addressColumn =
      groupKeysForRelation relation.rightKey target.addressColumn) :
    pushdownKeys relation target = if groupKeysForRelation relation.leftKey target.addressColumn ≠ [] then
      some (groupKeysForRelation relation.leftKey target.addressColumn,
        groupKeysForRelation relation.leftKey target.addressColumn) else none := by
  cases hkind : relation.kind with
  | join => exact absurd hkind h
  | children | parents =>
    rw [pushdownKeys, hkind]
    dsimp only
    rw [← hgrouped]
    simp only [and_self]

/-- No row is related to sources without rows. -/
theorem not_relates_of_empty (h : ∀ batch ∈ source, batch.numRows = 0) {batch : RecordBatch} {row : ℕ} :
    ¬relation.Relates table desc target source batch row := by
  rintro (⟨-, hjoined⟩ | ⟨spec, -, hrelated⟩)
  · obtain ⟨_, -, b, hb, i, hi, -⟩ := semiJoined_iff.mp hjoined
    rw [h b hb] at hi
    exact absurd hi (Nat.not_lt_zero i)
  · obtain ⟨_, -, _, -, b, hb, i, hi, -⟩ := hrelated
    rw [h b hb] at hi
    exact absurd hi (Nat.not_lt_zero i)

/-- A row of a group related to a source has the source's group key. -/
theorem semiJoined_of_related {α : Type} {read : RecordBatch → String → ℕ → Option (List α)} {mode : HierarchicalMode}
    {inclusive : Bool} {groupKeys : List String} {sourceAddress targetAddress : String} {batch : RecordBatch} {row : ℕ}
    (h : RelatedInGroup read mode inclusive source groupKeys sourceAddress targetAddress batch row) :
    semiJoined source groupKeys batch groupKeys row = true := by
  obtain ⟨tuple, htuple, _, -, b, hb, i, hi, hown, -⟩ := h
  exact semiJoined_iff.mpr ⟨tuple, htuple, b, hb, i, hi, hown⟩

/-- A related row is related by its addresses' join keys. -/
theorem RelationPlan.Reads.related {targets : List RecordBatch} (h : relation.Reads table desc target source targets)
    {spec : HierarchicalSpec} (hspec : HierarchicalSpec.of relation target table desc = some spec) {batch : RecordBatch}
    (hbatch : batch ∈ targets) {row : ℕ} :
    RelatedInGroup RecordBatch.addressAt spec.mode spec.inclusive source spec.groupKeys spec.sourceAddress
      spec.targetAddress batch row ↔ relation.Relates table desc target source batch row := by
  have hsources := fun b hb => (h.sources spec hspec b hb).1
  have htarget := h.targets spec hspec batch hbatch
  have hsettled : ClashesSettled spec.mode spec.inclusive source spec.groupKeys spec.sourceAddress spec.targetAddress
      batch row := clashesSettled_of_itemIndices (fun b hb => (h.sources spec hspec b hb).2) htarget.2 row
  have hagree := (readings_agree_iff hsources htarget.1).mpr hsettled
  refine Iff.trans hagree ⟨?_, ?_⟩
  · exact fun hrelated => .inr ⟨spec, hspec, hrelated⟩
  · rintro (⟨hjoin, -⟩ | ⟨spec', hspec', hrelated⟩)
    · exact absurd hjoin (HierarchicalSpec.of_eq_some hspec).1
    · obtain rfl := Option.some.inj (hspec'.symm.trans hspec)
      exact hrelated

/-- **A relation that follows nothing relates nothing.** -/
theorem RelationPlan.Reads.not_relates {targets : List RecordBatch}
    (h : relation.Reads table desc target source targets) (hfits : relation.Fits table desc target source)
    (hnothing : (RelationInput.own table desc relation target source).followsNothing = true) {batch : RecordBatch}
    (hbatch : batch ∈ targets) {row : ℕ} (hrow : row < batch.numRows) :
    ¬relation.Relates table desc target source batch row := by
  rcases Bool.or_eq_true_iff.mp hnothing with hkeyless | hempty
  · intro hrelates
    rcases Bool.or_eq_true_iff.mp hkeyless with hkeys | haddresses
    · obtain ⟨pushed, hpushed, hmatches⟩ := (Option.any_eq_true _ _).mp hkeys
      have hsize := hfits.keys pushed hpushed
      have hnone := (Bool.and_eq_true_iff.mp hmatches).2
      rcases hrelates with ⟨hjoin, hjoined⟩ | ⟨spec, hspec, hrelated⟩
      · obtain ⟨kinds, hs, ht⟩ := h.join hjoin
        rw [pushdownKeys_join hjoin] at hpushed
        split at hpushed
        · obtain rfl := Option.some.inj hpushed
          rw [KeySet.semiJoined_of_isEmpty hsize hs (ht batch hbatch) hnone hrow] at hjoined
          cases hjoined
        · cases hpushed
      · obtain ⟨hkind, hgroup⟩ := HierarchicalSpec.of_eq_some hspec
        rw [pushdownKeys_grouped hkind (h.grouped hkind), ← hgroup] at hpushed
        split at hpushed
        · obtain rfl := Option.some.inj hpushed
          have hjoined := semiJoined_of_related hrelated
          rw [KeySet.semiJoined_of_isEmpty hsize (fun b hb => (h.sources spec hspec b hb).1.keyed)
            (h.targets spec hspec batch hbatch).1.keyed hnone hrow] at hjoined
          cases hjoined
        · cases hpushed
    · obtain ⟨spec, hspec, hmatches⟩ := (Option.any_eq_true _ _).mp haddresses
      obtain ⟨hspec, -⟩ := addressSpec_eq_some.mp hspec
      exact AddressIndex.not_related_of_isEmpty (h.targets spec hspec batch hbatch).1
        (Bool.and_eq_true_iff.mp hmatches).2
        spec.mode spec.inclusive ((h.related hspec hbatch).mpr hrelates)
  · exact not_relates_of_empty fun b hb => beq_iff_eq.mp (List.all_eq_true.mp hempty b hb)

/-- A join's masks, as a filter of rows takes them. -/
theorem filter_maskAt {all : Rows} {masks : List (List Bool)} {test : RecordBatch → ℕ → Bool}
    (h : ∀ (i : ℕ) batch, all.batches[i]? = some batch → ∃ mask, masks[i]? = some mask ∧
      mask = (List.range batch.numRows).map (test batch)) :
    ∃ kept, all.filter (fun index _ => maskAt masks index) = .ok kept ∧ kept.scanned = all.selected test := by
  refine Rows.filter_selected fun b hb => ?_
  obtain ⟨mask, hmask, rfl⟩ := h b.2 b.1 (List.mk_mem_zipIdx_iff_getElem?.mp hb)
  refine ⟨_, by rw [maskAt, hmask], ?_⟩
  rw [Mask.kept, List.map_map, List.map_map]
  exact List.map_congr_left fun row _ => keeps_some _

/-- What a mask answers row by row. -/
theorem mask_eq_map {mask : List Bool} {n : ℕ} {test : ℕ → Bool} (hlen : mask.length = n)
    (h : ∀ row < n, mask[row]? = some true ↔ test row = true) : mask = (List.range n).map test := by
  refine List.ext_getElem (by simpa using hlen) fun i h₁ h₂ => ?_
  have hrow := h i (hlen ▸ h₁)
  rw [List.getElem?_eq_getElem h₁, Option.some_inj] at hrow
  rw [List.getElem_map, List.getElem_range]
  exact Bool.eq_iff_iff.mpr hrow

/-- **A pushed-down key keeps the semi-join.** -/
theorem RelationPlan.Fits.keeps_of_own {kinds : List KeyKind} {left right : List String} {batch : RecordBatch}
    (hfits : relation.Fits table desc target source) (hs : ∀ b ∈ source, b.KeyedAt kinds left)
    (ht : batch.KeyedAt kinds right)
    (hpushed : pushdownKeys relation target = if left ≠ [] ∧ right ≠ [] then some (left, right) else none)
    {filter : KeyFilter} (hfilter : (RelationInput.own table desc relation target source).keyFilter = some filter)
    {row : ℕ} (hrow : row < batch.numRows) :
    filter.keeps batch row = true ↔ semiJoined source left batch right row = true := by
  have hfound := (Option.filter_eq_some_iff.mp hfilter).1
  have hsize := hfits.keys
  rw [hpushed] at hfound hsize
  split at hfound
  · next hsome =>
    rw [if_pos hsome] at hsize
    rw [Option.bind_some, KeySet.filter] at hfound
    split at hfound
    · obtain rfl := Option.some.inj hfound
      have hmask := KeySet.mask_ofBatches hs ht (hsize _ rfl) desc.blockNumberColumn fun _ => true
      rw [KeyFilter.keeps, KeyFilter.mask, hmask]
      change ((List.map _ _)[row]? == some true) = true ↔ _
      rw [List.getElem?_map, List.getElem?_range hrow]
      simp
    · cases hfound
  · cases hfound

/-- A join has a mask of every row. -/
theorem length_of_modeMasks {mode : HierarchicalMode} {targets : List RecordBatch} {groupKeys : List String}
    {sourceAddress targetAddress : String} {inclusive : Bool} {masks : List (List Bool)}
    (h : modeMasks mode source targets groupKeys sourceAddress targetAddress inclusive = .ok masks) {i : ℕ}
    {batch : RecordBatch} (hbatch : targets[i]? = some batch) {mask : List Bool} (hmask : masks[i]? = some mask) :
    mask.length = batch.numRows := by
  rw [modeMasks_eq, hierarchicalMasks] at h
  split at h
  · obtain rfl := Except.ok.inj h
    rw [noRows, List.getElem?_map, hbatch] at hmask
    obtain rfl := Option.some.inj hmask
    exact List.length_replicate
  · obtain ⟨grouped, -, h⟩ := bind_eq_ok.mp h
    obtain ⟨-, hall⟩ := List.forall₂_iff_get.mp (mapM_eq_ok.mp h)
    obtain ⟨hi, rfl⟩ := List.getElem?_eq_some_iff.mp hbatch
    obtain ⟨hj, rfl⟩ := List.getElem?_eq_some_iff.mp hmask
    obtain ⟨rows, hrows, hmap⟩ := bind_eq_ok.mp (hall i hi hj)
    obtain ⟨keys, -, hrows⟩ := bind_eq_ok.mp hrows
    obtain ⟨addresses, -, hrows⟩ := bind_eq_ok.mp hrows
    have hlen := (mapM_eq_ok.mp hrows).length_eq
    rw [List.length_range] at hlen
    have hmapped := congrArg List.length (Except.ok.inj hmap)
    rw [List.length_map] at hmapped
    exact hmapped.symm.trans hlen.symm

/-- **A children or parents relation pushes its addresses down**, where columns group its rows and it follows one. -/
theorem RelationPlan.Reads.hierarchicalFilter_own {targets : List RecordBatch}
    (h : relation.Reads table desc target source targets) {spec : HierarchicalSpec}
    (hspec : HierarchicalSpec.of relation target table desc = some spec) (hnone : spec.groupKeys ≠ [])
    (hfollows : (RelationInput.own table desc relation target source).followsNothing = false) :
    (RelationInput.own table desc relation target source).hierarchicalFilter =
      some (.ofBatches source spec.groupKeys spec.sourceAddress spec.targetAddress spec.mode spec.inclusive) := by
  have haddress : addressSpec table desc relation target = some spec := addressSpec_eq_some.mpr ⟨hspec, hnone⟩
  have hempty : (AddressIndex.ofBatches source spec.groupKeys spec.sourceAddress).sources.isEmpty = false := by
    refine Bool.eq_false_iff.mpr fun hempty => ?_
    have hkeyless : (RelationInput.own table desc relation target source).keyless = true := by
      refine Bool.or_eq_true_iff.mpr (.inr ((Option.any_eq_true _ _).mpr ⟨spec, haddress, ?_⟩))
      exact Bool.and_eq_true_iff.mpr ⟨AddressIndex.readable_ofBatches fun b hb => (h.sources spec hspec b hb).1, hempty⟩
    rw [RelationInput.followsNothing, hkeyless, Bool.true_or] at hfollows
    cases hfollows
  rw [RelationInput.own, haddress, Option.map_some]
  change Option.filter (fun filter : HierarchicalFilter => !filter.isEmpty) (some _) = some _
  refine Option.filter_eq_some_iff.mpr ⟨rfl, ?_⟩
  change (!(AddressIndex.ofBatches source spec.groupKeys spec.sourceAddress).sources.isEmpty) = true
  rw [hempty]
  rfl

open Classical in
/-- **The rows of a join**, pushed down to the scan or made of the rows read. -/
theorem RelationPlan.Reads.exists_join {all : Rows} (h : relation.Reads table desc target source all.batches)
    (hfits : relation.Fits table desc target source)
    {scanRows : Option KeyFilter → Option HierarchicalFilter → Except String Rows}
    (hscan : Delivers scanRows all (RelationInput.own table desc relation target source).keyFilter
      (RelationInput.own table desc relation target source).hierarchicalFilter)
    (hjoin : relation.kind = .join) :
    ∃ found, scanRelation (.own table desc relation target source) scanRows = .ok found ∧
      found.scanned = all.selected fun batch row => decide (relation.Relates table desc target source batch row) := by
  obtain ⟨kinds, hs, ht⟩ := h.join hjoin
  have hrelates : ∀ batch row, decide (relation.Relates table desc target source batch row) =
      semiJoined source relation.leftKey batch relation.rightKey row := fun batch row => by
    rw [Bool.eq_iff_iff, decide_eq_true_iff]
    refine ⟨?_, fun hjoined => .inl ⟨hjoin, hjoined⟩⟩
    rintro (⟨-, hjoined⟩ | ⟨spec, hspec, -⟩)
    · exact hjoined
    · rw [HierarchicalSpec.of_join hjoin] at hspec
      cases hspec
  simp only [hrelates]
  have haddresses : (RelationInput.own table desc relation target source).hierarchicalFilter = none := by
    rw [RelationInput.own, addressSpec, HierarchicalSpec.of_join hjoin]
    rfl
  cases hfilter : (RelationInput.own table desc relation target source).keyFilter with
  | some filter =>
    obtain ⟨rows, hrows, hscanned⟩ := hscan.filtered
    rw [hfilter, haddresses] at hrows hscanned
    refine ⟨rows, ?_, hscanned.trans (Rows.selected_congr fun batch hbatch row hrow => ?_)⟩
    · rw [scanRelation_join hjoin, hfilter, haddresses]
      exact bind_eq_ok.mpr ⟨rows, hrows, rfl⟩
    · rw [passes, Option.all_some, Option.all_none, Bool.and_true, Bool.eq_iff_iff,
        hfits.keeps_of_own hs (ht batch hbatch) (pushdownKeys_join hjoin) hfilter hrow]
  | none =>
    have hmasks : lookupJoinMasks source relation.leftKey all.batches relation.rightKey = _ := semiJoinMasks_eq hs ht
    obtain ⟨kept, hkept, hscanned⟩ := @filter_maskAt all _ (fun batch row =>
      semiJoined source relation.leftKey batch relation.rightKey row) fun i batch hbatch =>
        ⟨_, by rw [List.getElem?_map, hbatch]; rfl, rfl⟩
    refine ⟨kept, ?_, hscanned⟩
    rw [scanRelation_join hjoin, hfilter, haddresses]
    refine bind_eq_ok.mpr ⟨all, hscan.unfiltered hfilter haddresses, bind_eq_ok.mpr ⟨_, ?_, hkept⟩⟩
    change reported (lookupJoinMasks source relation.leftKey all.batches relation.rightKey) = _
    rw [hmasks]
    rfl

open Classical in
/-- **The rows of a children or parents relation**, by an address filter in the scan or a join over the rows read. -/
theorem RelationPlan.Reads.exists_hierarchical {all : Rows} (h : relation.Reads table desc target source all.batches)
    (hfits : relation.Fits table desc target source)
    {scanRows : Option KeyFilter → Option HierarchicalFilter → Except String Rows}
    (hscan : Delivers scanRows all (RelationInput.own table desc relation target source).keyFilter
      (RelationInput.own table desc relation target source).hierarchicalFilter)
    (hkind : relation.kind ≠ .join)
    (hfollows : (RelationInput.own table desc relation target source).followsNothing = false) :
    ∃ found, scanRelation (.own table desc relation target source) scanRows = .ok found ∧
      found.scanned = all.selected fun batch row => decide (relation.Relates table desc target source batch row) := by
  cases hspec : HierarchicalSpec.of relation target table desc with
  | none =>
    -- the target has no addresses
    have haddresses : (RelationInput.own table desc relation target source).hierarchicalFilter = none := by
      rw [RelationInput.own, addressSpec, hspec]
      rfl
    obtain ⟨rows, hrows, -⟩ := hscan.filtered
    rw [haddresses] at hrows
    refine ⟨.default, ?_, (Rows.selected_eq_nil fun batch _ row _ => decide_eq_false ?_).symm⟩
    · rw [scanRelation_hierarchical hkind, haddresses]
      refine bind_eq_ok.mpr ⟨rows, hrows, ?_⟩
      rw [if_neg (by simp), RelationInput.relatives, show RelationInput.hierarchy _ = none from hspec]
    · rintro (⟨hjoin, -⟩ | ⟨spec, hsome, -⟩)
      · exact hkind hjoin
      · rw [hspec] at hsome
        cases hsome
  | some spec =>
    obtain ⟨-, hgroup⟩ := HierarchicalSpec.of_eq_some hspec
    have hpushed := pushdownKeys_grouped hkind (h.grouped hkind)
    rw [← hgroup] at hpushed
    by_cases hnone : spec.groupKeys = []
    · -- no column groups the rows: they are read, and joined
      have hkeys : (RelationInput.own table desc relation target source).keyFilter = none := by
        rw [RelationInput.own, hpushed, if_neg (by simp [hnone])]
        rfl
      have haddresses : (RelationInput.own table desc relation target source).hierarchicalFilter = none := by
        rw [RelationInput.own, addressSpec, hspec]
        simp [hnone]
      obtain ⟨masks, hmasks, hkept⟩ := modeMasks_iff spec.mode spec.inclusive
        (fun b hb => (h.sources spec hspec b hb).1)
        fun b hb => (h.targets spec hspec b hb).1
      obtain ⟨kept, hfilter, hscanned⟩ := @filter_maskAt all masks (fun batch row =>
        decide (relation.Relates table desc target source batch row)) fun i batch hbatch => by
          obtain ⟨mask, hmask, hrows⟩ := hkept i batch hbatch
          refine ⟨mask, hmask, mask_eq_map (length_of_modeMasks hmasks hbatch hmask) fun row hrow => ?_⟩
          rw [hrows row hrow, decide_eq_true_iff]
          constructor
          · exact fun hrelated => .inr ⟨spec, hspec, hrelated⟩
          · rintro (⟨hjoin, -⟩ | ⟨spec', hspec', hrelated⟩)
            · exact absurd hjoin hkind
            · obtain rfl := Option.some.inj (hspec'.symm.trans hspec)
              exact hrelated
      refine ⟨kept, ?_, hscanned⟩
      rw [scanRelation_hierarchical hkind, hkeys, haddresses]
      refine bind_eq_ok.mpr ⟨all, hscan.unfiltered hkeys haddresses, ?_⟩
      rw [if_neg (by simp), RelationInput.relatives, show RelationInput.hierarchy _ = some spec from hspec]
      refine bind_eq_ok.mpr ⟨masks, ?_, hfilter⟩
      change reported (modeMasks spec.mode source all.batches spec.groupKeys spec.sourceAddress spec.targetAddress
        spec.inclusive) = _
      rw [hmasks]
      rfl
    · have haddresses := h.hierarchicalFilter_own hspec hnone hfollows
      obtain ⟨rows, hrows, hscanned⟩ := hscan.filtered
      rw [haddresses] at hrows hscanned
      refine ⟨rows, ?_, hscanned.trans (Rows.selected_congr fun batch hbatch row hrow => ?_)⟩
      · rw [scanRelation_hierarchical hkind, haddresses]
        exact bind_eq_ok.mpr ⟨rows, hrows, rfl⟩
      · have hs := fun b hb => (h.sources spec hspec b hb).1
        have ht := (h.targets spec hspec batch hbatch).1
        have hsize := hfits.addresses spec (addressSpec_eq_some.mpr ⟨hspec, hnone⟩)
        have hmask := (HierarchicalFilter.mask_iff spec.mode spec.inclusive hsize hs ht hrow).trans
            (h.related hspec hbatch)
        rw [passes, Option.all_some, Bool.eq_iff_iff, Bool.and_eq_true, beq_iff_eq, hmask, decide_eq_true_iff]
        refine ⟨And.right, fun hrelates => ⟨?_, hrelates⟩⟩
        -- a related row has a source's group key
        rw [Option.all_eq_true]
        intro filter hfilter
        have hpushed' : pushdownKeys relation target =
            if spec.groupKeys ≠ [] ∧ spec.groupKeys ≠ [] then some (spec.groupKeys, spec.groupKeys) else none := by
          rw [hpushed]
          simp only [and_self]
        rw [hfits.keeps_of_own (fun b hb => (hs b hb).keyed) ht.keyed hpushed' hfilter hrow]
        exact semiJoined_of_related ((h.related hspec hbatch).mpr hrelates)

open Classical in
/-- **A relation's rows are the related ones**, by whichever route. -/
theorem RelationPlan.Reads.exists_rows {all : Rows} (h : relation.Reads table desc target source all.batches)
    (hfits : relation.Fits table desc target source)
    {scanRows : Option KeyFilter → Option HierarchicalFilter → Except String Rows}
    (hscan : Delivers scanRows all (RelationInput.own table desc relation target source).keyFilter
      (RelationInput.own table desc relation target source).hierarchicalFilter) :
    ∃ found, relationRows (.own table desc relation target source) scanRows = .ok found ∧
      (found.getD .default).scanned =
        all.selected fun batch row => decide (relation.Relates table desc target source batch row) := by
  unfold relationRows
  cases hfollows : (RelationInput.own table desc relation target source).followsNothing with
  | true =>
    refine ⟨none, if_pos rfl, (Rows.selected_eq_nil fun batch hbatch row hrow => decide_eq_false ?_).symm⟩
    exact h.not_relates hfits hfollows hbatch hrow
  | false =>
    obtain ⟨found, hfound, hscanned⟩ : ∃ found, scanRelation (.own table desc relation target source) scanRows =
        .ok found ∧ found.scanned = all.selected fun batch row =>
          decide (relation.Relates table desc target source batch row) := by
      by_cases hjoin : relation.kind = .join
      · exact h.exists_join hfits hscan hjoin
      · exact h.exists_hierarchical hfits hscan hjoin hfollows
    exact ⟨some found, by rw [if_neg Bool.false_ne_true, hfound]; rfl, hscanned⟩

end Routes

/-- **Every relation has the input its own rows give it**, with no value asked of the shared ones that was not built. -/
theorem relationInputs_eq (table : String) (desc : TableDescription)
    {relations : List (RelationPlan × TableDescription)} {sources : BuiltOnce (Option (List ℕ)) (List RecordBatch)}
    {rowsOf : Option (List ℕ) → List RecordBatch}
    (hsources : ∀ r ∈ relations, sources.get r.1.sourceItems = .ok (rowsOf r.1.sourceItems))
    (hpaired : ∀ r ∈ relations, ∀ pushed ∈ pushdownKeys r.1 r.2, pushed.1.length = pushed.2.length)
    (hfits : ∀ r ∈ relations, r.1.Fits table desc r.2 (rowsOf r.1.sourceItems)) :
    relationInputs table desc relations sources =
      .ok (relations.map fun r => .own table desc r.1 r.2 (rowsOf r.1.sourceItems)) := by
  obtain ⟨keySets, hkeySets, hkeys⟩ := @BuiltOnce.exists_tryBuild _ _ _ (relations.filterMap fun r =>
      (pushdownKeys r.1 r.2).map fun pushed => (r.1.sourceItems, pushed.1))
    (fun key => (sources.get key.1).bind fun batches => indexed (KeySet.build batches key.2 desc.blockNumberColumn))
    (fun key => KeySet.ofBatches (rowsOf key.1) key.2 desc.blockNumberColumn) fun key hkey => by
      obtain ⟨r, hr, hkey⟩ := List.mem_filterMap.mp hkey
      obtain ⟨pushed, hpushed, rfl⟩ := Option.map_eq_some_iff.mp hkey
      rw [hsources r hr]
      change indexed (KeySet.build _ _ _) = _
      rw [KeySet.build_eq _ _ _ ((hfits r hr).keys pushed hpushed)]
      rfl
  obtain ⟨indexes, hindexes, haddresses⟩ := @BuiltOnce.exists_tryBuild _ _ _ (relations.filterMap fun r =>
      (addressSpec table desc r.1 r.2).map fun spec => (r.1.sourceItems, spec.groupKeys, spec.sourceAddress))
    (fun key => (sources.get key.1).bind fun batches => indexed (AddressIndex.build batches key.2.1 key.2.2))
    (fun key => AddressIndex.ofBatches (rowsOf key.1) key.2.1 key.2.2) fun key hkey => by
      obtain ⟨r, hr, hkey⟩ := List.mem_filterMap.mp hkey
      obtain ⟨spec, hspec, rfl⟩ := Option.map_eq_some_iff.mp hkey
      rw [hsources r hr]
      change indexed (AddressIndex.build _ _ _) = _
      rw [AddressIndex.build_eq ((hfits r hr).addresses spec hspec)]
      rfl
  have hinputs : List.Forall₂ (fun r input => relationInput table desc keySets.get indexes.get sources.get r.1 r.2 =
      .ok input) relations (relations.map fun r => .own table desc r.1 r.2 (rowsOf r.1.sourceItems)) := by
    refine List.forall₂_map_right_iff.mpr (List.forall₂_same.mpr fun r hr => ?_)
    refine relationInput_eq (hpaired r hr) (fun pushed hpushed => ?_) (fun spec hspec => ?_) (hsources r hr)
    · exact hkeys (r.1.sourceItems, pushed.1) (List.mem_filterMap.mpr ⟨r, hr, by rw [hpushed]; rfl⟩)
    · exact haddresses (r.1.sourceItems, spec.groupKeys, spec.sourceAddress)
        (List.mem_filterMap.mpr ⟨r, hr, by rw [hspec]; rfl⟩)
  exact bind_eq_ok.mpr ⟨keySets, hkeySets, bind_eq_ok.mpr ⟨indexes, hindexes, mapM_eq_ok.mpr hinputs⟩⟩

open Classical in
/-- **The rows of a table's relations.**  Every relation has an input, with no value asked for that was not built; and
the rows it reads are the target rows related to one of the rows it follows, no others and each once, in the target's
order: whether a key set or an address index pushed down to the scan keeps them, shared with other relations or not, or
a join over the rows read does, or the target is never opened. -/
theorem relation_rows (table : String) (desc : TableDescription) {relations : List (RelationPlan × TableDescription)}
    {sources : BuiltOnce (Option (List ℕ)) (List RecordBatch)} {rowsOf : Option (List ℕ) → List RecordBatch}
    (hsources : ∀ r ∈ relations, sources.get r.1.sourceItems = .ok (rowsOf r.1.sourceItems))
    (hpaired : ∀ r ∈ relations, ∀ pushed ∈ pushdownKeys r.1 r.2, pushed.1.length = pushed.2.length)
    (hfits : ∀ r ∈ relations, r.1.Fits table desc r.2 (rowsOf r.1.sourceItems)) :
    ∃ inputs, relationInputs table desc relations sources = .ok inputs ∧ List.Forall₂ (fun r input =>
      ∀ (all : Rows) (scanRows : Option KeyFilter → Option HierarchicalFilter → Except String Rows),
        r.1.Reads table desc r.2 (rowsOf r.1.sourceItems) all.batches →
        Delivers scanRows all input.keyFilter input.hierarchicalFilter →
        ∃ found, relationRows input scanRows = .ok found ∧ (found.getD .default).scanned = all.selected fun batch row =>
          decide (r.1.Relates table desc r.2 (rowsOf r.1.sourceItems) batch row)) relations inputs := by
  refine ⟨_, relationInputs_eq table desc hsources hpaired hfits, ?_⟩
  exact List.forall₂_map_right_iff.mpr (List.forall₂_same.mpr fun r hr all scanRows hreads hscan =>
    hreads.exists_rows (hfits r hr) hscan)

/-! ### A call, its children and the calls of its block -/

/-- A scan of rows in memory. -/
def filteredScan (all : Rows) (keyFilter : Option KeyFilter) (hierarchicalFilter : Option HierarchicalFilter) :
    Except String Rows :=
  if keyFilter.isNone && hierarchicalFilter.isNone then .ok all
  else all.filter fun _ batch =>
    .ok ((List.range batch.numRows).map fun row => some (passes keyFilter hierarchicalFilter batch row))

theorem delivers_filteredScan (all : Rows) (keyFilter : Option KeyFilter)
    (hierarchicalFilter : Option HierarchicalFilter) :
    Delivers (filteredScan all) all keyFilter hierarchicalFilter := by
  refine ⟨fun _ _ => rfl, ?_⟩
  unfold filteredScan
  split
  · next hnone =>
    obtain ⟨hkey, haddress⟩ := Bool.and_eq_true_iff.mp hnone
    rw [Option.isNone_iff_eq_none.mp hkey, Option.isNone_iff_eq_none.mp haddress]
    refine ⟨all, rfl, ?_⟩
    rw [Rows.scanned, Rows.parts, partsOf, List.flatMap_map, Rows.selected]
    refine List.flatMap_congr fun b _ => ?_
    have hlen : (List.range b.1.numRows).length = (all.partAt b).rows.length := by
      rw [ScannedBatch.rows, List.length_map]
      rfl
    rw [show (List.range b.1.numRows).map (passes none none b.1) = List.replicate (all.partAt b).rows.length true by
      rw [← hlen]; exact List.map_const' .., pick_replicate_true]
    rfl
  · refine Rows.filter_selected fun b _ => ⟨_, rfl, ?_⟩
    rw [Mask.kept, List.map_map]
    exact List.map_congr_left fun row _ => keeps_some _

/-- Calls, by block and path. -/
def callTable : TableDescription := ⟨"number", some "path", []⟩

/-- The children of a call, and the calls of its block. -/
def callRelations : List (RelationPlan × TableDescription) :=
  [(⟨"calls", .children, ["number", "path"], ["number", "path"], [], none⟩, callTable),
    (⟨"calls", .join, ["number"], ["number"], [], none⟩, callTable)]

/-- The rows of one call. -/
def oneCallRows : Rows := .new [oneCall .uint32 3]

theorem itemIndices_oneCall : (oneCall .uint32 3).ItemIndices "path" := by
  intro row address hread x hx
  cases row with
  | zero =>
    obtain rfl := Option.some.inj (show some [⟨.uint32, (3 : BitVec 32)⟩] = some address from hread)
    obtain rfl := List.mem_singleton.mp hx
    decide
  | succ row => exact absurd hread (by simp [RecordBatch.storedAt, oneCall, RecordBatch.columnByName])

theorem fits_callRelations : ∀ r ∈ callRelations, r.1.Fits "calls" callTable r.2 [oneCall .uint32 3] := by
  intro r _
  exact ⟨fun _ _ _ => SourceAddresses.fits_one rfl, fun _ _ => SourceAddresses.fits_one rfl⟩

theorem reads_callRelations : ∀ r ∈ callRelations,
    r.1.Reads "calls" callTable r.2 [oneCall .uint32 3] oneCallRows.batches := by
  have hone : ∀ b ∈ oneCallRows.batches, b = oneCall .uint32 3 := fun b hb => List.mem_singleton.mp hb
  intro r hr
  rcases List.mem_pair.mp hr with rfl | rfl
  · refine ⟨fun hjoin => absurd hjoin (by decide), fun _ => rfl, ?_, ?_⟩
    · rintro _ ⟨⟩ b hb
      rw [List.mem_singleton.mp hb]
      exact ⟨addressedAt_oneCall .uint32 3, itemIndices_oneCall⟩
    · rintro _ ⟨⟩ b hb
      rw [hone b hb]
      exact ⟨addressedAt_oneCall .uint32 3, itemIndices_oneCall⟩
  · refine ⟨fun _ => ⟨[.int], fun b hb => ?_, fun b hb => ?_⟩, fun _ => rfl, ?_, ?_⟩
    · rw [List.mem_singleton.mp hb]
      exact .cons rfl .nil
    · rw [hone b hb]
      exact .cons rfl .nil
    · exact fun _ hspec => absurd hspec (Option.not_mem_none _)
    · exact fun _ hspec => absurd hspec (Option.not_mem_none _)

open Classical in
theorem relation_rows_oneCall : ∃ inputs,
    relationInputs "calls" callTable callRelations ⟨[(none, [oneCall .uint32 3])]⟩ = .ok inputs ∧
      List.Forall₂ (fun r input => ∃ found, relationRows input (filteredScan oneCallRows) = .ok found ∧
        (found.getD .default).scanned = oneCallRows.selected fun batch row =>
          decide (r.1.Relates "calls" callTable r.2 [oneCall .uint32 3] batch row)) callRelations inputs := by
  obtain ⟨inputs, hinputs, hrows⟩ := @relation_rows "calls" callTable callRelations ⟨[(none, [oneCall .uint32 3])]⟩
    (fun _ => [oneCall .uint32 3])
    (by
      intro r hr
      rcases List.mem_pair.mp hr with rfl | rfl <;> rfl)
    (by
      intro r hr
      rcases List.mem_pair.mp hr with rfl | rfl <;> decide)
    fits_callRelations
  refine ⟨inputs, hinputs, forall₂_imp_mem hrows fun r hr input hinput => ?_⟩
  exact hinput oneCallRows (filteredScan oneCallRows) (reads_callRelations r hr) (delivers_filteredScan oneCallRows _ _)

end QueryEngine
