import QueryEngine.Join.SemiJoin

/-!
# Join/Hierarchical — children and parents over rows already read

A hierarchical relation is pushed into the target's scan as an index of the source addresses, or
joined here once both sides are read.  The two read an address apart: the index keeps each element
as its join key, widened by its own sign, and the join as its block number cut to thirty-two bits.
`hierarchical_filter_eq_join` says that they keep the same rows as long as the two readings relate a
source row and a target row of one group alike — they do wherever the elements are item indices,
not negative and below 2³².
-/

open Numerals Fallible TwosComplement

namespace QueryEngine

/-! ## The pushed-down filter -/

/-- A filter for hierarchical joins. -/
structure HierarchicalFilter where
  sources : SourceAddresses
  /-- Group key columns in the target table. -/
  groupKeyColumns : List String
  /-- Address column in the target table. -/
  addressColumn : String
  mode : HierarchicalMode
  /-- Whether same-depth addresses count as a match. -/
  inclusive : Bool

namespace HierarchicalFilter

/-- The filter of some source batches, or nothing where they cannot be indexed. -/
def build (primaryBatches : List RecordBatch) (groupKeyColumns : List String)
    (sourceAddressColumn targetAddressColumn : String) (mode : HierarchicalMode)
    (inclusive : Bool) : Option HierarchicalFilter :=
  (SourceAddresses.build primaryBatches groupKeyColumns sourceAddressColumn).map fun sources =>
    ⟨sources, groupKeyColumns, targetAddressColumn, mode, inclusive⟩

/-- The filter of some source batches, whatever their number. -/
def ofBatches (primaryBatches : List RecordBatch) (groupKeyColumns : List String)
    (sourceAddressColumn targetAddressColumn : String) (mode : HierarchicalMode)
    (inclusive : Bool) : HierarchicalFilter :=
  ⟨.ofBatches primaryBatches groupKeyColumns sourceAddressColumn, groupKeyColumns, targetAddressColumn,
    mode, inclusive⟩

theorem build_eq {primaryBatches : List RecordBatch} {groupKeyColumns : List String} {sourceAddressColumn : String}
    (hfits : SourceAddresses.Fits primaryBatches groupKeyColumns sourceAddressColumn) (targetAddressColumn : String)
    (mode : HierarchicalMode) (inclusive : Bool) :
    build primaryBatches groupKeyColumns sourceAddressColumn targetAddressColumn mode inclusive =
      some (ofBatches primaryBatches groupKeyColumns sourceAddressColumn targetAddressColumn mode inclusive) := by
  rw [build, SourceAddresses.build_eq hfits, Option.map_some]
  rfl

/-- Which rows of a batch hold an address related to a source address of their group. -/
def mask (filter : HierarchicalFilter) (batch : RecordBatch) (candidate : ℕ → Bool) : List Bool :=
  filter.sources.mask batch filter.groupKeyColumns filter.addressColumn candidate
    fun group path => filter.sources.relates group path filter.mode filter.inclusive

end HierarchicalFilter

/-! ## The join -/

/-- A hierarchical address as a path of item indices: each element's block number, cut to 32 bits.
A null address has none, and nor has one whose elements are not integers. -/
def extractAddress : (item : ScalarType) → Slot (List (Slot item.Value)) → List (BitVec 32)
  | .int _, r => if r.valid then r.value.map fun s => s.value.setWidth 32 else []
  | _, _ => []

/-- The key that groups a row; nothing when a key column is null there, before the columns after it
are looked at. -/
def makeGroupKey : List Column → ℕ → Result (Option Bytes)
  | [], _ => .ok (some [])
  | col :: cols, row =>
    match IntColumn.resolve col with
    | none => .error ⟨.unsupportedKeyType,
        "unsupported group key column type: " ++ col.dataType.display⟩
    | some ints =>
      match (ints.slots[row]?).bind Slot.get? with
      | none => .ok none
      | some v => (makeGroupKey cols row).map fun rest =>
        rest.map fun rest => wordLe (storedKey (ints.type.value v)) ++ rest

/-- The columns of some names, all of which have to be there. -/
def resolveIndices (batch : RecordBatch) (columns : List String) : Result (List Column) :=
  columns.mapM fun name =>
    match batch.columnByName name with
    | some col => .ok col
    | none => .error ⟨.columnNotFound, "column '" ++ name ++ "' not found in schema"⟩

/-- An address column's rows: whether each has an address, and the address. -/
def addressColumnRows (batch : RecordBatch) (name : String) :
    Result (List (Option (List (BitVec 32)))) :=
  match batch.columnByName name with
  | none => .error ⟨.columnNotFound, "column '" ++ name ++ "' not found"⟩
  | some (.list false item rows) =>
    .ok (rows.map fun r => if r.valid then some (extractAddress item r) else none)
  | some _ => .error ⟨.unsupportedKeyType, "'" ++ name ++ "' must be a List<UInt32> column"⟩

/-- The group and address of each row of a batch; nothing for a null address, which is not the empty
one, and nothing for a row that no key groups. -/
def groupedAddresses (batch : RecordBatch) (groupKeyColumns : List String) (addressColumn : String) :
    Result (List (Option (Bytes × List (BitVec 32)))) :=
  (resolveIndices batch groupKeyColumns).bind fun keys =>
    (addressColumnRows batch addressColumn).bind fun addresses =>
      (List.range batch.numRows).mapM fun row =>
        match (addresses[row]?).join with
        | none => .ok none
        | some address => (makeGroupKey keys row).map fun key => key.map fun key => (key, address)

/-- Whether a row stands below one of its group's source addresses. -/
def isChild (inclusive : Bool) (target parent : List (BitVec 32)) : Bool :=
  if inclusive then decide (parent.length ≤ target.length) && target.take parent.length == parent
  else decide (parent.length < target.length) && target.take parent.length == parent

/-- Whether a row stands above one of its group's source addresses. -/
def isParent (inclusive : Bool) (target child : List (BitVec 32)) : Bool :=
  if inclusive then decide (target.length ≤ child.length) && child.take target.length == target
  else decide (target.length < child.length) && child.take target.length == target

/-- Which rows of each target batch have an address that `related` accepts beside a source address
of their group. -/
def hierarchicalMasks (related : List (BitVec 32) → List (BitVec 32) → Bool)
    (sourceBatches targetBatches : List RecordBatch) (groupKeyColumns : List String)
    (sourceAddressColumn targetAddressColumn : String) : Result (List (List Bool)) :=
  if sourceBatches.isEmpty || targetBatches.isEmpty then .ok (noRows targetBatches)
  else
    (sourceBatches.mapM fun batch =>
        groupedAddresses batch groupKeyColumns sourceAddressColumn).bind fun grouped =>
      let sourceAddresses := grouped.flatten.filterMap id
      targetBatches.mapM fun batch =>
        (groupedAddresses batch groupKeyColumns targetAddressColumn).bind fun rows =>
          .ok (rows.map fun row => row.any fun row => sourceAddresses.any fun source =>
            source.1 == row.1 && related row.2 source.2)

/-- Which rows of each target batch are children of a source row. -/
def childrenMasks (sourceBatches targetBatches : List RecordBatch) (groupKeyColumns : List String)
    (sourceAddressColumn targetAddressColumn : String) (inclusive : Bool) :
    Result (List (List Bool)) :=
  hierarchicalMasks (isChild inclusive) sourceBatches targetBatches groupKeyColumns
    sourceAddressColumn targetAddressColumn

/-- Which rows of each target batch are parents of a source row. -/
def parentsMasks (sourceBatches targetBatches : List RecordBatch) (groupKeyColumns : List String)
    (sourceAddressColumn targetAddressColumn : String) (inclusive : Bool) :
    Result (List (List Bool)) :=
  hierarchicalMasks (isParent inclusive) sourceBatches targetBatches groupKeyColumns
    sourceAddressColumn targetAddressColumn

/-- The join of a mode. -/
def modeMasks : HierarchicalMode → List RecordBatch → List RecordBatch → List String → String →
    String → Bool → Result (List (List Bool))
  | .children => childrenMasks
  | .parents => parentsMasks

/-! ## What the join keeps -/

/-- Which addresses a mode relates to a source's, whatever their elements are. -/
def RelatedPaths {α : Type} (mode : HierarchicalMode) (inclusive : Bool) (source target : List α) :
    Prop :=
  match mode with
  | .children => source <+: target ∧ (inclusive = true ∨ source ≠ target)
  | .parents => target <+: source ∧ (inclusive = true ∨ source ≠ target)

/-- A prefix test by lengths. -/
theorem take_eq_iff {α : Type} [DecidableEq α] (inclusive : Bool) (xs ys : List α) :
    (if inclusive then decide (xs.length ≤ ys.length) && ys.take xs.length == xs
      else decide (xs.length < ys.length) && ys.take xs.length == xs) = true ↔
        xs <+: ys ∧ (inclusive = true ∨ xs ≠ ys) := by
  have htake : ys.take xs.length = xs ↔ xs <+: ys := by
    rw [List.prefix_iff_eq_take, eq_comm]
  cases inclusive with
  | true =>
    simp only [if_true, Bool.and_eq_true, decide_eq_true_eq, beq_iff_eq, htake, true_or, and_true]
    exact ⟨And.right, fun h => ⟨h.length_le, h⟩⟩
  | false =>
    simp only [Bool.false_eq_true, if_false, Bool.and_eq_true, decide_eq_true_eq, beq_iff_eq, htake,
      false_or]
    constructor
    · rintro ⟨hlt, h⟩
      exact ⟨h, fun e => absurd hlt (by rw [e]; exact lt_irrefl _)⟩
    · rintro ⟨h, hne⟩
      exact ⟨lt_of_le_of_ne h.length_le fun e => hne (h.eq_of_length e), h⟩

/-- The relation a mode's join asks of two addresses. -/
def modeRelated : HierarchicalMode → Bool → List (BitVec 32) → List (BitVec 32) → Bool
  | .children => isChild
  | .parents => isParent

theorem modeRelated_iff (mode : HierarchicalMode) (inclusive : Bool)
    (source target : List (BitVec 32)) :
    modeRelated mode inclusive target source = true ↔ RelatedPaths mode inclusive source target := by
  cases mode with
  | children => exact take_eq_iff inclusive source target
  | parents =>
    rw [modeRelated, isParent, take_eq_iff, RelatedPaths, ne_comm]

theorem modeMasks_eq (mode : HierarchicalMode) (sources targets : List RecordBatch)
    (groupKeyColumns : List String) (sourceAddress targetAddress : String) (inclusive : Bool) :
    modeMasks mode sources targets groupKeyColumns sourceAddress targetAddress inclusive =
      hierarchicalMasks (modeRelated mode inclusive) sources targets groupKeyColumns sourceAddress
        targetAddress := by
  cases mode <;> rfl

/-! ## One relation, two readings of an address -/

/-- A row's address as the join reads it: item indices. -/
def RecordBatch.itemsAt (batch : RecordBatch) (column : String) (row : ℕ) :
    Option (List (BitVec 32)) :=
  match batch.columnByName column with
  | some (.list false item rows) =>
    (rows[row]?).bind fun r => if r.valid then some (extractAddress item r) else none
  | _ => none

/-- A batch whose group keys are integers and whose addresses are lists of integers, at any width. -/
structure RecordBatch.AddressedAt (batch : RecordBatch) (groupKeyColumns : List String)
    (addressColumn : String) : Prop where
  keyed : batch.KeyedAt (List.replicate groupKeyColumns.length .int) groupKeyColumns
  addressed : (batch.columnByName addressColumn).bind Column.keyKind = some .path

/-- Whether a source row of the target row's group holds an address related to the target row's,
both read by `read`. -/
def RelatedInGroup {α : Type} (read : RecordBatch → String → ℕ → Option (List α))
    (mode : HierarchicalMode) (inclusive : Bool) (sources : List RecordBatch)
    (groupKeyColumns : List String) (sourceAddress targetAddress : String) (target : RecordBatch)
    (row : ℕ) : Prop :=
  ∃ tuple, target.keyTuple groupKeyColumns row = some tuple ∧
    ∃ address, read target targetAddress row = some address ∧
      ∃ batch ∈ sources, ∃ i < batch.numRows, batch.keyTuple groupKeyColumns i = some tuple ∧
        ∃ source, read batch sourceAddress i = some source ∧
          RelatedPaths mode inclusive source address

/-! ### What the filter keeps -/

theorem related_eq (mode : HierarchicalMode) (inclusive : Bool) (source target : List (BitVec 64)) :
    SourceAddresses.Related mode inclusive source target = RelatedPaths mode inclusive source target := by
  cases mode <;> rfl

section Filter

open Lookup SourceAddresses

variable {sources : List RecordBatch} {groupKeyColumns : List String}
  {sourceAddress targetAddress : String} {target : RecordBatch}

/-- A tuple of integers is a key of the kind the sources hold. -/
theorem exists_pack_groupKind {tuple : List KeyValue}
    (h : List.Forall₂ (fun kind v => v.kind = kind ∧ v.Fits)
      (List.replicate groupKeyColumns.length .int) tuple) :
    ∃ key, (groupKind sources groupKeyColumns).pack tuple = some key := by
  cases hkind : groupKind sources groupKeyColumns with
  | bytes => exact ⟨_, rfl⟩
  | pair =>
    have htwo : groupKeyColumns.length = 2 := by
      dsimp only [groupKind] at hkind
      split at hkind
      · next hpair => exact beq_iff_eq.mp (Bool.and_eq_true_iff.mp hpair).1
      · exact absurd hkind (by simp)
    rw [htwo] at h
    exact GroupKind.exists_pack .pair h

/-- A group asked for its sources: none when no source row names it. -/
theorem asks_iff {kind : GroupKind} {rows : List (kind.Key × Bytes)}
    (hrows : ∀ row ∈ rows, ∃ keys, row.2 = pathBytes keys) (key : kind.Key)
    (keys : List (BitVec 64)) (mode : HierarchicalMode) (inclusive : Bool) :
    ((name (ofRows kind rows).groups key).any fun group =>
        (ofRows kind rows).relates group (pathBytes keys) mode inclusive) = true ↔
      ∃ source, (key, pathBytes source) ∈ rows ∧ Related mode inclusive source keys := by
  cases hname : name (ofRows kind rows).groups key with
  | none =>
    rw [Option.any_none]
    refine iff_of_false (by simp) ?_
    rintro ⟨path, hpath, -⟩
    obtain ⟨group, hgroup⟩ := exists_name rows hpath
    rw [hname] at hgroup
    exact absurd hgroup (by simp)
  | some group => rw [Option.any_some, relates_iff hrows hname]

/-- **The filter keeps a row related to a source of its group**, each address read as its elements'
join keys. -/
theorem HierarchicalFilter.mask_iff (mode : HierarchicalMode) (inclusive : Bool)
    (hfits : SourceAddresses.Fits sources groupKeyColumns sourceAddress)
    (hs : ∀ b ∈ sources, b.AddressedAt groupKeyColumns sourceAddress)
    (ht : target.AddressedAt groupKeyColumns targetAddress) {row : ℕ} (hrow : row < target.numRows) :
    ((HierarchicalFilter.ofBatches sources groupKeyColumns sourceAddress targetAddress mode inclusive).mask
        target fun _ => true)[row]? = some true ↔
      RelatedInGroup RecordBatch.addressAt mode inclusive sources groupKeyColumns sourceAddress
        targetAddress target row := by
  rw [mask, ofBatches, SourceAddresses.mask_eq, groupId_ofBatches hfits, List.getElem?_map,
    List.getElem?_range hrow, Option.map_some, Option.some_inj, Bool.true_and]
  unfold RelatedInGroup
  cases htuple : target.keyTuple groupKeyColumns row with
  | none => simp
  | some tuple =>
    cases haddress : target.addressAt targetAddress row with
    | none => simp
    | some address =>
      have htarget := ht.keyed.keyTuple htuple
      obtain ⟨key, hkey⟩ : ∃ key, (groupKind sources groupKeyColumns).pack tuple = some key :=
        exists_pack_groupKind htarget
      -- a source row is indexed under the key exactly when it has the tuple
      have hindexed (path : List (BitVec 64)) :
          (key, pathBytes path) ∈ sourceRows (groupKind sources groupKeyColumns) sources
              groupKeyColumns sourceAddress ↔
            ∃ batch ∈ sources, ∃ i < batch.numRows,
              batch.keyTuple groupKeyColumns i = some tuple ∧
              batch.addressAt sourceAddress i = some path := by
        rw [SourceAddresses.mem_sourceRows]
        constructor
        · rintro ⟨batch, hbatch, i, hi, hpack, hpath⟩
          obtain ⟨own, hown, hown'⟩ := Option.bind_eq_some_iff.mp hpack
          obtain ⟨read, hread, hbytes⟩ := Option.map_eq_some_iff.mp hpath
          obtain rfl := GroupKind.pack_injective ((hs batch hbatch).keyed.keyTuple hown) htarget hown' hkey
          exact ⟨batch, hbatch, i, hi, hown, by rw [hread, pathBytes_injective hbytes]⟩
        · rintro ⟨batch, hbatch, i, hi, hown, hread⟩
          exact ⟨batch, hbatch, i, hi, by rw [hown]; exact hkey, by rw [hread]; rfl⟩
      simp only [Option.any_some, Option.some.injEq, exists_eq_left', Option.bind_some]
      have hpack : (SourceAddresses.ofBatches sources groupKeyColumns sourceAddress).kind.pack tuple =
          some key := hkey
      rw [hpack]
      refine (asks_iff (whole_sourceRows _) key address mode inclusive).trans ?_
      constructor
      · rintro ⟨path, hpath, hrelated⟩
        obtain ⟨batch, hbatch, i, hi, hown, hread⟩ := (hindexed path).mp hpath
        exact ⟨batch, hbatch, i, hi, hown, path, hread, by rwa [← related_eq]⟩
      · rintro ⟨batch, hbatch, i, hi, hown, path, hread, hrelated⟩
        exact ⟨path, (hindexed path).mpr ⟨batch, hbatch, i, hi, hown, hread⟩, by rwa [related_eq]⟩

end Filter

/-! ### What the join keeps -/

section Join

variable {batch : RecordBatch} {groupKeyColumns : List String} {addressColumn : String}

/-- Integer columns group every row: by their join keys, written out, unless one is null. -/
theorem makeGroupKey_eq {names : List String}
    (h : batch.KeyedAt (List.replicate names.length .int) names) :
    ∃ cols, resolveIndices batch names = .ok cols ∧ ∀ row, makeGroupKey cols row =
      .ok ((batch.keyTuple names row).map fun tuple => tuple.flatMap KeyValue.bytes) := by
  induction names with
  | nil => exact ⟨[], rfl, fun row => rfl⟩
  | cons name names ih =>
    rcases h with _ | ⟨hkind, hrest⟩
    obtain ⟨cols, hcols, hkeys⟩ := ih hrest
    obtain ⟨c, hc, hck⟩ := Option.bind_eq_some_iff.mp hkind
    obtain ⟨ints, hints⟩ := Column.resolve_of_keyKind_int hck
    refine ⟨c :: cols, mapM_eq_ok.mpr (.cons (by rw [hc]) (mapM_eq_ok.mp hcols)), fun row => ?_⟩
    have htuple : batch.keyTuple (name :: names) row = (c.keyValue row).bind fun v =>
        (batch.keyTuple names row).map (v :: ·) := by
      unfold RecordBatch.keyTuple
      rw [List.mapM_cons, hc, Option.bind_some]
      cases c.keyValue row with
      | none => rfl
      | some v =>
        cases names.mapM fun name => (batch.columnByName name).bind fun col => col.keyValue row <;> rfl
    rw [makeGroupKey, hints, htuple, IntColumn.keyValue_of_resolve hints]
    dsimp only
    cases (ints.slots[row]?).bind Slot.get? with
    | none => rfl
    | some v =>
      dsimp only
      rw [hkeys]
      cases batch.keyTuple names row <;> rfl

/-- An address column's rows are its addresses. -/
theorem addressColumnRows_eq (h : (batch.columnByName addressColumn).bind Column.keyKind = some .path) :
    ∃ addresses, addressColumnRows batch addressColumn = .ok addresses ∧
      ∀ row, (addresses[row]?).join = batch.itemsAt addressColumn row := by
  obtain ⟨c, hc, hck⟩ := Option.bind_eq_some_iff.mp h
  unfold addressColumnRows RecordBatch.itemsAt
  rw [hc]
  rcases c with ⟨_ | _ | _ | _ | _, rows⟩ | ⟨_ | _, _ | _ | _ | _ | _, rows⟩ | _
  case list.false.int t =>
    refine ⟨_, rfl, fun row => ?_⟩
    dsimp only
    rw [List.getElem?_map]
    cases rows[row]? <;> rfl
  all_goals exact absurd hck (by simp [Column.keyKind])

/-- A batch's rows, grouped: each with a group key and an address. -/
def RecordBatch.groupedRows (batch : RecordBatch) (groupKeyColumns : List String)
    (addressColumn : String) : List (Option (Bytes × List (BitVec 32))) :=
  (List.range batch.numRows).map fun row =>
    (batch.itemsAt addressColumn row).bind fun address =>
      (batch.keyTuple groupKeyColumns row).map fun tuple => (tuple.flatMap KeyValue.bytes, address)

/-- What the rows of some batches, grouped, hold. -/
theorem mem_grouped {batches : List RecordBatch} {key : Bytes} {address : List (BitVec 32)} :
    (key, address) ∈ ((batches.map fun batch =>
        batch.groupedRows groupKeyColumns addressColumn).flatten.filterMap id) ↔
      ∃ batch ∈ batches, ∃ i < batch.numRows, ∃ tuple,
        batch.keyTuple groupKeyColumns i = some tuple ∧ tuple.flatMap KeyValue.bytes = key ∧
        batch.itemsAt addressColumn i = some address := by
  simp only [List.mem_filterMap, List.mem_flatten, List.mem_map, id, RecordBatch.groupedRows]
  constructor
  · rintro ⟨_, ⟨_, ⟨batch, hbatch, rfl⟩, hrow⟩, rfl⟩
    obtain ⟨i, hi, hrow⟩ := List.mem_map.mp hrow
    obtain ⟨read, hread, hrow⟩ := Option.bind_eq_some_iff.mp hrow
    obtain ⟨tuple, htuple, hpair⟩ := Option.map_eq_some_iff.mp hrow
    obtain ⟨rfl, rfl⟩ := Prod.mk.inj hpair
    exact ⟨batch, hbatch, i, List.mem_range.mp hi, tuple, htuple, rfl, hread⟩
  · rintro ⟨batch, hbatch, i, hi, tuple, htuple, rfl, hread⟩
    refine ⟨_, ⟨_, ⟨batch, hbatch, rfl⟩, List.mem_map.mpr ⟨i, List.mem_range.mpr hi, rfl⟩⟩, ?_⟩
    rw [hread, htuple]
    rfl

/-- **A batch of integer keys and addresses is grouped row by row.** -/
theorem groupedAddresses_eq (h : batch.AddressedAt groupKeyColumns addressColumn) :
    groupedAddresses batch groupKeyColumns addressColumn =
      .ok (batch.groupedRows groupKeyColumns addressColumn) := by
  obtain ⟨cols, hcols, hkeys⟩ := makeGroupKey_eq h.keyed
  obtain ⟨addresses, haddresses, hread⟩ := addressColumnRows_eq h.addressed
  rw [groupedAddresses, hcols]
  change (addressColumnRows batch addressColumn).bind _ = _
  rw [haddresses]
  refine mapM_eq_ok.mpr (List.forall₂_map_right_iff.mpr (List.forall₂_same.mpr fun row _ => ?_))
  rw [hread]
  cases batch.itemsAt addressColumn row with
  | none => rfl
  | some address =>
    dsimp only
    rw [hkeys]
    cases batch.keyTuple groupKeyColumns row <;> rfl

/-- A row is related to a grouped source exactly when it is to a source row of its group. -/
theorem any_grouped_iff (mode : HierarchicalMode) (inclusive : Bool) {sources : List RecordBatch} {target : RecordBatch}
    {sourceAddress targetAddress : String} (hs : ∀ b ∈ sources, b.AddressedAt groupKeyColumns sourceAddress)
    (ht : target.AddressedAt groupKeyColumns targetAddress) (row : ℕ) :
    (((target.itemsAt targetAddress row).bind fun address =>
      (target.keyTuple groupKeyColumns row).map fun tuple => (tuple.flatMap KeyValue.bytes, address)).any fun row =>
        ((sources.map fun batch => batch.groupedRows groupKeyColumns sourceAddress).flatten.filterMap id).any
          fun source => source.1 == row.1 && modeRelated mode inclusive row.2 source.2) = true ↔
      RelatedInGroup RecordBatch.itemsAt mode inclusive sources groupKeyColumns sourceAddress targetAddress target
        row := by
  unfold RelatedInGroup
  cases htuple : target.keyTuple groupKeyColumns row with
  | none => simp
  | some tuple =>
    cases haddress : target.itemsAt targetAddress row with
    | none => simp
    | some address =>
      have hbytes {batch : RecordBatch} (hbatch : batch ∈ sources) {i : ℕ} {own : List KeyValue}
          (hown : batch.keyTuple groupKeyColumns i = some own) :
          own.flatMap KeyValue.bytes = tuple.flatMap KeyValue.bytes ↔ own = tuple :=
        keyBytes_injective (hs batch hbatch).keyed ht.keyed hown htuple
      simp only [Option.bind_some, Option.map_some, Option.any_some, List.any_eq_true,
        Bool.and_eq_true, beq_iff_eq, modeRelated_iff, Option.some.injEq, exists_eq_left']
      constructor
      · rintro ⟨⟨key, source⟩, hsource, hkey, hrelated⟩
        obtain ⟨batch, hbatch, i, hi, own, hown, rfl, hread⟩ := mem_grouped.mp hsource
        exact ⟨batch, hbatch, i, hi, by rw [hown, (hbytes hbatch hown).mp hkey], source, hread, hrelated⟩
      · rintro ⟨batch, hbatch, i, hi, hown, source, hread, hrelated⟩
        exact ⟨(_, source), mem_grouped.mpr ⟨batch, hbatch, i, hi, tuple, hown, rfl, hread⟩, rfl, hrelated⟩

/-- **The join keeps a row related to a source of its group**, each address read as item indices. -/
theorem modeMasks_iff (mode : HierarchicalMode) (inclusive : Bool)
    {sources targets : List RecordBatch} {sourceAddress targetAddress : String}
    (hs : ∀ b ∈ sources, b.AddressedAt groupKeyColumns sourceAddress)
    (ht : ∀ b ∈ targets, b.AddressedAt groupKeyColumns targetAddress) :
    ∃ masks, modeMasks mode sources targets groupKeyColumns sourceAddress targetAddress inclusive =
        .ok masks ∧
      ∀ (i : ℕ) target, targets[i]? = some target → ∃ mask, masks[i]? = some mask ∧
        ∀ row < target.numRows, mask[row]? = some true ↔
          RelatedInGroup RecordBatch.itemsAt mode inclusive sources groupKeyColumns sourceAddress
            targetAddress target row := by
  rw [modeMasks_eq]
  unfold hierarchicalMasks
  split
  · next hempty =>
    refine ⟨_, rfl, fun i target htarget => ⟨_, by rw [noRows, List.getElem?_map, htarget]; rfl,
      fun row hrow => ?_⟩⟩
    have hsources : sources = [] := by
      rcases Bool.or_eq_true_iff.mp hempty with h | h
      · exact List.isEmpty_iff.mp h
      · rw [List.isEmpty_iff.mp h] at htarget
        exact absurd htarget (by simp)
    subst hsources
    rw [List.getElem?_replicate, if_pos hrow]
    refine iff_of_false (by simp) ?_
    rintro ⟨_, -, _, -, _, hbatch, -⟩
    exact absurd hbatch (by simp)
  · have hgrouped (column : String) (batches : List RecordBatch)
        (h : ∀ b ∈ batches, b.AddressedAt groupKeyColumns column) :
        List.Forall₂ (fun batch rows => groupedAddresses batch groupKeyColumns column = .ok rows)
          batches (batches.map fun batch => batch.groupedRows groupKeyColumns column) :=
      List.forall₂_map_right_iff.mpr (List.forall₂_same.mpr fun b hb => groupedAddresses_eq (h b hb))
    have hmasks : List.Forall₂ (fun batch mask =>
        ((groupedAddresses batch groupKeyColumns targetAddress).bind fun rows =>
          .ok (rows.map fun row => row.any fun row =>
            ((sources.map fun batch => batch.groupedRows groupKeyColumns sourceAddress).flatten.filterMap
              id).any fun source => source.1 == row.1 && modeRelated mode inclusive row.2 source.2)) =
          (.ok mask : Result (List Bool))) targets (targets.map fun batch =>
            (batch.groupedRows groupKeyColumns targetAddress).map fun row => row.any fun row =>
              ((sources.map fun batch =>
                batch.groupedRows groupKeyColumns sourceAddress).flatten.filterMap id).any
                  fun source => source.1 == row.1 && modeRelated mode inclusive row.2 source.2) := by
      refine List.forall₂_map_right_iff.mpr (List.forall₂_same.mpr fun b hb => ?_)
      rw [groupedAddresses_eq (ht b hb)]
      rfl
    rw [mapM_eq_ok.mpr (hgrouped sourceAddress sources hs)]
    refine ⟨_, mapM_eq_ok.mpr hmasks, fun i target htarget =>
      ⟨_, by rw [List.getElem?_map, htarget]; rfl, fun row hrow => ?_⟩⟩
    rw [List.getElem?_map, RecordBatch.groupedRows, List.getElem?_map, List.getElem?_range hrow,
      Option.map_some, Option.map_some, Option.some_inj]
    exact any_grouped_iff mode inclusive hs (ht target (List.mem_of_getElem? htarget)) row

end Join

/-! ### Where the two readings agree -/

/-- An element of an address as it is stored. -/
abbrev StoredInt := (t : IntType) × t.Native

namespace StoredInt

/-- The element as the filter reads it: its value in 64 bits. -/
def key (x : StoredInt) : BitVec 64 := storedKey (x.1.value x.2)

/-- The element as the join reads it: its bits, unsigned and cut to 32. -/
def item (x : StoredInt) : BitVec 32 := x.2.setWidth 32

/-- **Two stored elements clash** when their values are one number in 64 bits and their unsigned bits are not one
in 32, or the other way round. -/
def Clash (x y : StoredInt) : Prop :=
  ¬((x.1.value x.2 ≡ y.1.value y.2 [ZMOD 2 ^ 64]) ↔ x.2.toNat ≡ y.2.toNat [MOD 2 ^ 32])

theorem key_eq_iff {x y : StoredInt} : x.key = y.key ↔ x.1.value x.2 ≡ y.1.value y.2 [ZMOD 2 ^ 64] := by
  rw [key, key, storedKey, storedKey, ← BitVec.toNat_inj, BitVec.toNat_ofInt, BitVec.toNat_ofInt, Int.ModEq]
  push_cast
  have hx := Int.emod_nonneg (x.1.value x.2) (show (2 : ℤ) ^ 64 ≠ 0 by norm_num)
  have hy := Int.emod_nonneg (y.1.value y.2) (show (2 : ℤ) ^ 64 ≠ 0 by norm_num)
  omega

theorem item_eq_iff {x y : StoredInt} : x.item = y.item ↔ x.2.toNat ≡ y.2.toNat [MOD 2 ^ 32] := by
  rw [item, item, ← BitVec.toNat_inj, BitVec.toNat_setWidth, BitVec.toNat_setWidth, Nat.ModEq]

/-- Elements that do not clash are one to the filter exactly when they are to the join. -/
theorem key_eq_iff_item_eq {x y : StoredInt} (h : ¬Clash x y) : x.key = y.key ↔ x.item = y.item := by
  rw [key_eq_iff, item_eq_iff]
  exact not_not.mp h

end StoredInt

/-- A row's address as its elements are stored, whatever a null element's slot holds. -/
def RecordBatch.storedAt (batch : RecordBatch) (column : String) (row : ℕ) : Option (List StoredInt) :=
  match batch.columnByName column with
  | some (.list false (.int t) rows) =>
    ((rows[row]?).bind Slot.get?).map fun elements => elements.map fun s => ⟨t, s.value⟩
  | _ => none

/-- Whether two addresses' lengths let a mode relate them. -/
def LengthsRelated {α : Type} (mode : HierarchicalMode) (inclusive : Bool) (source target : List α) : Prop :=
  match mode with
  | .children => source.length < target.length ∨ inclusive = true ∧ source.length = target.length
  | .parents => target.length < source.length ∨ inclusive = true ∧ target.length = source.length

/-- Whether two addresses' elements are the same, as far as both go. -/
def Matched {α : Type} (same : α → α → Prop) (source target : List α) : Prop :=
  ∀ (i : ℕ) (x y : α), source[i]? = some x → target[i]? = some y → same x y

section Paths

variable {α β : Type}

theorem isPrefix_map_iff (f : α → β) (xs ys : List α) : xs.map f <+: ys.map f ↔
    xs.length ≤ ys.length ∧ Matched (fun x y => f x = f y) xs ys := by
  rw [List.prefix_iff_getElem?]
  constructor
  · intro h
    refine ⟨?_, fun i x y hx hy => ?_⟩
    · by_contra hlt
      have hread := h ys.length (by rw [List.length_map]; omega)
      rw [List.getElem?_eq_none (by rw [List.length_map])] at hread
      exact absurd hread (by simp)
    · obtain ⟨hi, rfl⟩ := List.getElem?_eq_some_iff.mp hx
      have hread := h i (by rwa [List.length_map])
      rw [List.getElem?_map, hy, Option.map_some, List.getElem_map, Option.some_inj] at hread
      exact hread.symm
  · rintro ⟨hle, hmatched⟩ i hi
    rw [List.length_map] at hi
    have hx : xs[i]? = some xs[i] := List.getElem?_eq_getElem hi
    have hy : ys[i]? = some ys[i] := List.getElem?_eq_getElem (by omega)
    rw [List.getElem?_map, hy, Option.map_some, List.getElem_map, hmatched i _ _ hx hy]

/-- **Addresses relate by their lengths and their elements.** -/
theorem relatedPaths_map_iff (f : α → β) (mode : HierarchicalMode) (inclusive : Bool) (source target : List α) :
    RelatedPaths mode inclusive (source.map f) (target.map f) ↔
      LengthsRelated mode inclusive source target ∧ Matched (fun x y => f x = f y) source target := by
  have hone (xs ys : List α) : (xs.map f <+: ys.map f ∧ (inclusive = true ∨ xs.map f ≠ ys.map f)) ↔
      (xs.length < ys.length ∨ inclusive = true ∧ xs.length = ys.length) ∧ Matched (fun x y => f x = f y) xs ys := by
    rw [isPrefix_map_iff]
    constructor
    · rintro ⟨⟨hle, hmatched⟩, hstrict⟩
      refine ⟨?_, hmatched⟩
      rcases Nat.lt_or_eq_of_le hle with hlt | heq
      · exact .inl hlt
      · refine .inr ⟨hstrict.resolve_right fun hne => hne ?_, heq⟩
        refine ((isPrefix_map_iff f xs ys).mpr ⟨hle, hmatched⟩).eq_of_length ?_
        rw [List.length_map, List.length_map, heq]
    · rintro ⟨hlt | ⟨hinclusive, heq⟩, hmatched⟩
      · refine ⟨⟨hlt.le, hmatched⟩, .inr fun heq => ?_⟩
        have hlen := congrArg List.length heq
        rw [List.length_map, List.length_map] at hlen
        omega
      · exact ⟨⟨heq.le, hmatched⟩, .inl hinclusive⟩
  cases mode with
  | children => exact hone source target
  | parents =>
    have hswap : Matched (fun x y => f x = f y) target source ↔ Matched (fun x y => f x = f y) source target :=
      ⟨fun h i x y hx hy => (h i y x hy hx).symm, fun h i x y hx hy => (h i y x hy hx).symm⟩
    rw [RelatedPaths, ne_comm, hone target source, hswap]
    rfl

end Paths

/-- The rows of a target row's group, each with its address and the target row's. -/
def InGroup (sources : List RecordBatch) (groupKeyColumns : List String) (sourceAddress targetAddress : String)
    (target : RecordBatch) (row : ℕ) (source address : List StoredInt) : Prop :=
  ∃ tuple, target.keyTuple groupKeyColumns row = some tuple ∧ target.storedAt targetAddress row = some address ∧
    ∃ batch ∈ sources, ∃ i < batch.numRows, batch.keyTuple groupKeyColumns i = some tuple ∧
      batch.storedAt sourceAddress i = some source

/-- **No element tells the readings apart** for a row: a source address of its group that is related to it in one
reading, and has an element there that clashes with the row's, is not the only one related — one of the group is
in the other reading too. -/
def ClashesSettled (mode : HierarchicalMode) (inclusive : Bool) (sources : List RecordBatch)
    (groupKeyColumns : List String) (sourceAddress targetAddress : String) (target : RecordBatch) (row : ℕ) : Prop :=
  let grouped := InGroup sources groupKeyColumns sourceAddress targetAddress target row
  ∀ source address, grouped source address → LengthsRelated mode inclusive source address →
    (∃ (i : ℕ) (x y : StoredInt), source[i]? = some x ∧ address[i]? = some y ∧ StoredInt.Clash x y) →
      (Matched (fun x y => x.key = y.key) source address → ∃ other, grouped other address ∧
        LengthsRelated mode inclusive other address ∧ Matched (fun x y => x.item = y.item) other address) ∧
      (Matched (fun x y => x.item = y.item) source address → ∃ other, grouped other address ∧
        LengthsRelated mode inclusive other address ∧ Matched (fun x y => x.key = y.key) other address)

/-- Every element of every address is an item index: not negative, and below 2³². -/
def RecordBatch.ItemIndices (batch : RecordBatch) (addressColumn : String) : Prop :=
  ∀ (row : ℕ) (address : List StoredInt), batch.storedAt addressColumn row = some address →
    ∀ x ∈ address, 0 ≤ x.1.value x.2 ∧ x.1.value x.2 < 2 ^ 32

section Readings

variable {batch : RecordBatch} {column : String} (h : (batch.columnByName column).bind Column.keyKind = some .path)
  (row : ℕ)
include h

theorem addressAt_eq_stored : batch.addressAt column row = (batch.storedAt column row).map (List.map StoredInt.key) :=
    by
  obtain ⟨c, hc, hck⟩ := Option.bind_eq_some_iff.mp h
  unfold RecordBatch.addressAt RecordBatch.storedAt
  rw [hc, Option.bind_some]
  rcases c with ⟨_ | _ | _ | _ | _, rows⟩ | ⟨_ | _, _ | _ | _ | _ | _, rows⟩ | _
  case list.false.int t =>
    dsimp only [Column.keyValue]
    cases (rows[row]?).bind Slot.get? with
    | none => rfl
    | some elements =>
      refine congrArg some ?_
      rw [List.map_map]
      rfl
  all_goals exact absurd hck (by simp [Column.keyKind])

theorem itemsAt_eq_stored : batch.itemsAt column row = (batch.storedAt column row).map (List.map StoredInt.item) := by
  obtain ⟨c, hc, hck⟩ := Option.bind_eq_some_iff.mp h
  unfold RecordBatch.itemsAt RecordBatch.storedAt
  rw [hc]
  rcases c with ⟨_ | _ | _ | _ | _, rows⟩ | ⟨_ | _, _ | _ | _ | _ | _, rows⟩ | _
  case list.false.int t =>
    dsimp only
    cases hrow : rows[row]? with
    | none => rfl
    | some r =>
      rcases r with ⟨elements, _ | _⟩
      · rfl
      · refine congrArg some ?_
        rw [List.map_map]
        rfl
  all_goals exact absurd hck (by simp [Column.keyKind])

end Readings

section Agreement

variable {mode : HierarchicalMode} {inclusive : Bool} {sources : List RecordBatch} {groupKeyColumns : List String}
  {sourceAddress targetAddress : String} {target : RecordBatch} {row : ℕ}

/-- **A row is related in a reading exactly when a source of its group matches it there.** -/
theorem relatedInGroup_iff {β : Type} {read : RecordBatch → String → ℕ → Option (List β)} {f : StoredInt → β}
    (hsource : ∀ b ∈ sources, ∀ i, read b sourceAddress i = (b.storedAt sourceAddress i).map (List.map f))
    (htarget : read target targetAddress row = (target.storedAt targetAddress row).map (List.map f)) :
    RelatedInGroup read mode inclusive sources groupKeyColumns sourceAddress targetAddress target row ↔
      ∃ source address, InGroup sources groupKeyColumns sourceAddress targetAddress target row source address ∧
        LengthsRelated mode inclusive source address ∧ Matched (fun x y => f x = f y) source address := by
  unfold RelatedInGroup InGroup
  rw [htarget]
  constructor
  · rintro ⟨tuple, htuple, _, haddress, batch, hbatch, i, hi, hown, _, hread, hrelated⟩
    obtain ⟨address, hstored, rfl⟩ := Option.map_eq_some_iff.mp haddress
    rw [hsource batch hbatch] at hread
    obtain ⟨source, hsourceStored, rfl⟩ := Option.map_eq_some_iff.mp hread
    exact ⟨source, address, ⟨tuple, htuple, hstored, batch, hbatch, i, hi, hown, hsourceStored⟩,
      (relatedPaths_map_iff f mode inclusive source address).mp hrelated⟩
  · rintro ⟨source, address, ⟨tuple, htuple, hstored, batch, hbatch, i, hi, hown, hread⟩, hrelated⟩
    refine ⟨tuple, htuple, _, by rw [hstored]; rfl, batch, hbatch, i, hi, hown, _, by
      rw [hsource batch hbatch, hread]; rfl, ?_⟩
    exact (relatedPaths_map_iff f mode inclusive source address).mpr hrelated

/-- **The two readings relate a row alike exactly when its clashes are settled.** -/
theorem readings_agree_iff (hs : ∀ b ∈ sources, b.AddressedAt groupKeyColumns sourceAddress)
    (ht : target.AddressedAt groupKeyColumns targetAddress) :
    (RelatedInGroup RecordBatch.addressAt mode inclusive sources groupKeyColumns sourceAddress targetAddress target
      row ↔
      RelatedInGroup RecordBatch.itemsAt mode inclusive sources groupKeyColumns sourceAddress targetAddress target
        row) ↔
      ClashesSettled mode inclusive sources groupKeyColumns sourceAddress targetAddress target row := by
  rw [relatedInGroup_iff (fun b hb i => addressAt_eq_stored (hs b hb).addressed i)
    (addressAt_eq_stored ht.addressed row),
    relatedInGroup_iff (fun b hb i => itemsAt_eq_stored (hs b hb).addressed i) (itemsAt_eq_stored ht.addressed row)]
  -- a row has one address
  have hone {source other address address' : List StoredInt}
      (h : InGroup sources groupKeyColumns sourceAddress targetAddress target row source address)
      (h' : InGroup sources groupKeyColumns sourceAddress targetAddress target row other address') :
      address' = address := by
    obtain ⟨_, _, haddress, _⟩ := h
    obtain ⟨_, _, haddress', _⟩ := h'
    exact Option.some.inj (haddress'.symm.trans haddress)
  constructor
  · rintro h source address hgroup hlengths -
    refine ⟨fun hkeys => ?_, fun hitems => ?_⟩
    · obtain ⟨other, address', hother, hrelated⟩ := h.mp ⟨source, address, hgroup, hlengths, hkeys⟩
      obtain rfl := hone hgroup hother
      exact ⟨other, hother, hrelated⟩
    · obtain ⟨other, address', hother, hrelated⟩ := h.mpr ⟨source, address, hgroup, hlengths, hitems⟩
      obtain rfl := hone hgroup hother
      exact ⟨other, hother, hrelated⟩
  · intro h
    -- without a clash, a source that matches in one reading matches in the other
    have hsame {source address : List StoredInt} (hno : ¬∃ (i : ℕ) (x y : StoredInt), source[i]? = some x ∧
        address[i]? = some y ∧ StoredInt.Clash x y) :
        Matched (fun x y => x.key = y.key) source address ↔ Matched (fun x y => x.item = y.item) source address := by
      refine forall_congr' fun i => forall_congr' fun x => forall_congr' fun y => forall_congr' fun hx =>
        forall_congr' fun hy => StoredInt.key_eq_iff_item_eq fun hclash => hno ⟨i, x, y, hx, hy, hclash⟩
    constructor
    · rintro ⟨source, address, hgroup, hlengths, hkeys⟩
      by_cases hclash : ∃ (i : ℕ) (x y : StoredInt), source[i]? = some x ∧ address[i]? = some y ∧ StoredInt.Clash x y
      · obtain ⟨other, hother⟩ := (h source address hgroup hlengths hclash).1 hkeys
        exact ⟨other, address, hother⟩
      · exact ⟨source, address, hgroup, hlengths, (hsame hclash).mp hkeys⟩
    · rintro ⟨source, address, hgroup, hlengths, hitems⟩
      by_cases hclash : ∃ (i : ℕ) (x y : StoredInt), source[i]? = some x ∧ address[i]? = some y ∧ StoredInt.Clash x y
      · obtain ⟨other, hother⟩ := (h source address hgroup hlengths hclash).2 hitems
        exact ⟨other, address, hother⟩
      · exact ⟨source, address, hgroup, hlengths, (hsame hclash).mpr hitems⟩

end Agreement

/-- A value that is not negative is its bits, unsigned. -/
theorem IntType.value_of_nonneg (t : IntType) {b : t.Native} (h : 0 ≤ t.value b) :
    t.value b = b.toNat := by
  have hb : InRange false t.bits (b.toNat : ℤ) := ⟨by positivity, by exact_mod_cast b.isLt⟩
  have hread := t.value_eq_read b
  cases hs : t.signed with
  | false => rw [hread, hs, read_eq_self hb]
  | true =>
    rw [hs, read_true_of_unsigned hb] at hread
    split at hread
    · exact hread
    · rw [hread] at h
      exact absurd h (by linarith [hb.2])

/-- Item indices do not clash. -/
theorem StoredInt.not_clash {x y : StoredInt} (hx : 0 ≤ x.1.value x.2 ∧ x.1.value x.2 < 2 ^ 32)
    (hy : 0 ≤ y.1.value y.2 ∧ y.1.value y.2 < 2 ^ 32) : ¬Clash x y := by
  obtain ⟨t, a⟩ := x
  obtain ⟨u, b⟩ := y
  dsimp only at hx hy
  have ha := t.value_of_nonneg hx.1
  have hb := u.value_of_nonneg hy.1
  rw [ha] at hx
  rw [hb] at hy
  unfold Clash
  dsimp only
  rw [ha, hb, Int.ModEq, Nat.ModEq]
  omega

/-- So item indices on both sides are related alike by both readings. -/
theorem clashesSettled_of_itemIndices {mode : HierarchicalMode} {inclusive : Bool}
    {sources : List RecordBatch} {groupKeyColumns : List String}
    {sourceAddress targetAddress : String} {target : RecordBatch}
    (hsource : ∀ b ∈ sources, b.ItemIndices sourceAddress)
    (htarget : target.ItemIndices targetAddress) (row : ℕ) :
    ClashesSettled mode inclusive sources groupKeyColumns sourceAddress targetAddress target row := by
  rintro source address ⟨_, _, haddress, batch, hbatch, i, -, -, hread⟩ - ⟨j, x, y, hx, hy, hclash⟩
  exact absurd hclash (StoredInt.not_clash (hsource batch hbatch i source hread x (List.mem_of_getElem? hx))
    (htarget row address haddress y (List.mem_of_getElem? hy)))

/-- **The pushed-down filter and the join keep the same row exactly when no element tells its two readings
apart** — as none does wherever every element is an item index. -/
theorem hierarchical_filter_eq_join (mode : HierarchicalMode) (inclusive : Bool)
    (sources targets : List RecordBatch) (groupKeyColumns : List String)
    (sourceAddress targetAddress : String) (hfits : SourceAddresses.Fits sources groupKeyColumns sourceAddress)
    (hs : ∀ b ∈ sources, b.AddressedAt groupKeyColumns sourceAddress)
    (ht : ∀ b ∈ targets, b.AddressedAt groupKeyColumns targetAddress) :
    ∃ filter masks, HierarchicalFilter.build sources groupKeyColumns sourceAddress targetAddress mode inclusive =
        some filter ∧
      modeMasks mode sources targets groupKeyColumns sourceAddress targetAddress inclusive = .ok masks ∧
      ∀ (i : ℕ) target, targets[i]? = some target → ∃ mask, masks[i]? = some mask ∧
        ∀ row < target.numRows,
          (((filter.mask target fun _ => true)[row]? = some true ↔ mask[row]? = some true) ↔
            ClashesSettled mode inclusive sources groupKeyColumns sourceAddress targetAddress target row) ∧
          ((∀ b ∈ sources, b.ItemIndices sourceAddress) → target.ItemIndices targetAddress →
            ClashesSettled mode inclusive sources groupKeyColumns sourceAddress targetAddress target row) := by
  obtain ⟨masks, hmasks, hkept⟩ := modeMasks_iff mode inclusive hs ht
  refine ⟨_, masks, HierarchicalFilter.build_eq hfits targetAddress mode inclusive, hmasks, fun i target htarget => ?_⟩
  have haddressed := ht target (List.mem_of_getElem? htarget)
  obtain ⟨mask, hmask, hrows⟩ := hkept i target htarget
  refine ⟨mask, hmask, fun row hrow => ⟨?_, fun hsource htarget => clashesSettled_of_itemIndices hsource htarget row⟩⟩
  rw [HierarchicalFilter.mask_iff mode inclusive hfits hs haddressed hrow, hrows row hrow,
    readings_agree_iff hs haddressed]

/-- A call of block 0 at a path of one element. -/
def oneCall (t : IntType) (element : t.Native) : RecordBatch where
  numRows := 1
  columns := [("number", .scalar (.int .uint64) [.some 0]),
    ("path", .list false (.int t) [.some [.some element]])]
  lengths c hc := by
    rcases List.mem_pair.mp hc with rfl | rfl <;> rfl
  offsets c hc := by
    rcases List.mem_pair.mp hc with rfl | rfl
    · trivial
    · exact show 1 + 0 < 2 ^ 31 by decide

theorem addressedAt_oneCall (t : IntType) (element : t.Native) :
    (oneCall t element).AddressedAt ["number"] "path" :=
  ⟨.cons rfl .nil, rfl⟩

/-- Two calls and one below them: kept by both, whichever width holds the path. -/
theorem hierarchical_filter_eq_join_calls :
    let sources := [oneCall .uint32 3, oneCall .int16 3]
    let targets := [oneCall .uint32 3]
    ∃ filter masks, HierarchicalFilter.build sources ["number"] "path" "path" .children true = some filter ∧
      modeMasks .children sources targets ["number"] "path" "path" true = .ok masks ∧
      ∀ (i : ℕ) target, targets[i]? = some target → ∃ mask, masks[i]? = some mask ∧
        ∀ row < target.numRows,
          (((filter.mask target fun _ => true)[row]? = some true ↔ mask[row]? = some true) ↔
            ClashesSettled .children true sources ["number"] "path" "path" target row) ∧
          ((∀ b ∈ sources, b.ItemIndices "path") → target.ItemIndices "path" →
            ClashesSettled .children true sources ["number"] "path" "path" target row) :=
  hierarchical_filter_eq_join .children true _ _ ["number"] "path" "path" ⟨by decide, by decide⟩
    (fun b hb => by
      simp only [List.mem_cons, List.not_mem_nil, or_false] at hb
      rcases hb with rfl | rfl <;> exact addressedAt_oneCall _ _)
    (fun _ hb => List.mem_singleton.mp hb ▸ addressedAt_oneCall .uint32 3)

/-- **An element wrapped into fewer bits is related to its unsigned reading by the join alone**: a
16-bit −1 is a key of its own, and the item index 65535. -/
theorem wrapped_element_joins_apart :
    (HierarchicalFilter.build [oneCall .int16 (-1)] ["number"] "path" "path" .children true).map (fun filter =>
        filter.mask (oneCall .uint16 65535) fun _ => true) = some [false] ∧
      childrenMasks [oneCall .int16 (-1)] [oneCall .uint16 65535] ["number"] "path" "path" true =
        .ok [[true]] := by
  decide

end QueryEngine
