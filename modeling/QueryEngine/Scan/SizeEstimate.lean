import QueryEngine.Library.Fallible
import QueryEngine.Library.Saturating
import QueryEngine.Scan.ArrowBuffers
import QueryEngine.Scan.ColumnCache

/-!
# Scan/SizeEstimate — what a scan's columns decode to, bounded by the footer

The estimate counts each leaf's level entries at their cost, a bitmap a level rounded up in every batch, and the
contents of strings.  An array of offsets has one more than it has entries, which the count leaves out; whether what
the bitmaps' rounding leaves over makes up for it is decided by one row of the columns (`estimate_bounds_iff`).
-/

namespace QueryEngine

/-! ## The estimate -/

/-- How a page stores its values. -/
inductive Encoding
  | plain | deltaLengthByteArray | rle | dictionary | deltaByteArray | another
  deriving DecidableEq, Repr

/-- What the footer says of a column chunk. -/
structure ColumnChunkMetaData where
  numValues : ℤ
  unencodedByteArrayDataBytes : Option ℤ
  encodings : List Encoding
  dictionaryPageOffset : Option ℤ
  uncompressedSize : ℤ

namespace ColumnChunkMetaData

/-- The bytes a byte-string column chunk's values hold, where the footer bounds them. -/
def byteStringBytes (column : ColumnChunkMetaData) : Option ℕ :=
  match column.unencodedByteArrayDataBytes with
  | some bytes => some bytes.toNat
  | none =>
    let keepsValuesWhole := column.encodings.all fun e => e = .plain ∨ e = .deltaLengthByteArray ∨ e = .rle
    let whole := !column.encodings.isEmpty && keepsValuesWhole && column.dictionaryPageOffset.isNone
    if whole then some column.uncompressedSize.toNat else none

/-- What one column chunk decodes to: its level entries at their cost, a bitmap per level rounded up to whole bytes
in every batch, and its byte strings. -/
def decodedBytes (column : ColumnChunkMetaData) (cost : LeafCost) (batches : ℕ) : Option ℕ :=
  let entries := column.numValues.toNat
  let fixed := min (entries * cost.bytes) u64Max
  let bitmaps := Saturating.add u64Max ((min (entries * cost.bits) u64Max + 7) / 8) (min (cost.bits * batches) u64Max)
  let contents := if cost.byteStrings then column.byteStringBytes else some 0
  contents.map fun contents => Saturating.add u64Max (Saturating.add u64Max fixed bitmaps) contents

end ColumnChunkMetaData

/-- A root column a scan reads: its type, and the parquet leaves under it. -/
structure ArrowField where
  name : String
  nullable : Bool
  dataType : ArrowType
  leaves : List ℕ

/-- The parquet leaves of a root column, each with what one of its level entries decodes to. -/
def ArrowField.fieldLeaves (field : ArrowField) : Option (List (ℕ × LeafCost)) :=
  (field.dataType.leafCosts .default).bind fun costs =>
    if field.leaves.length = costs.length then some (field.leaves.zip costs) else none

/-- The metadata of a row group: its rows and its columns. -/
structure RowGroupMetaData where
  numRows : ℤ
  column : ℕ → ColumnChunkMetaData

/-- The batches a row group is read in. -/
def RowGroupMetaData.batches (group : RowGroupMetaData) (batchSize : ℕ) : ℕ :=
  (group.numRows.toNat + max batchSize 1 - 1) / max batchSize 1

/-- What the footer counts of one row group: each leaf, and the rows' positions where they are recorded. -/
def RowGroupMetaData.parts (leaves : List (ℕ × LeafCost)) (batchSize : ℕ) (positions : Bool)
    (group : RowGroupMetaData) : List (Option ℕ) :=
  leaves.map (fun leaf => (group.column leaf.1).decodedBytes leaf.2 (group.batches batchSize)) ++
    if positions then [some (min (group.numRows.toNat * 8) u64Max)] else []

/-- **An upper bound on what a scan's output arrays hold**, from the footer alone.  The columns are those of the
request that the file has, and the groups those its statistics do not rule out. -/
def estimateScanBytes (fields : List ArrowField) (groups : List RowGroupMetaData) (batchSize : ℕ)
    (positions : Bool) : Option ℕ :=
  (fields.mapM ArrowField.fieldLeaves).bind fun leaves =>
    ((groups.flatMap (RowGroupMetaData.parts leaves.flatten batchSize positions)).mapM id).map
      (Saturating.sum u64Max)

/-! ## A row group -/

/-- Some rows of a row group, read together. -/
structure Batch where
  rows : ℕ
  column : ArrowField → List Value

/-- What a column chunk's footer says of what its leaf stores: its level entries, the bytes of its strings where the
writer counted them, and pages that hold every value whole. -/
structure ColumnChunkMetaData.Stores (column : ColumnChunkMetaData) (leaf : LeafData) : Prop where
  entries : column.numValues = leaf.entries
  counted : ∀ bytes, column.unencodedByteArrayDataBytes = some bytes → bytes = leaf.contents
  whole : column.encodings ≠ [] → (∀ e ∈ column.encodings, e = .plain ∨ e = .deltaLengthByteArray ∨ e = .rle) →
    column.dictionaryPageOffset = none → (leaf.contents : ℤ) ≤ column.uncompressedSize

/-- A column's values over the batches of its row group. -/
def ArrowField.stored (field : ArrowField) (batches : List Batch) : List Value :=
  batches.flatMap fun batch => batch.column field

/-- **What a row group's columns hold, as its footer describes them**, in the batches a scan reads it in. -/
structure RowGroupMetaData.Holds (group : RowGroupMetaData) (fields : List ArrowField) (batchSize : ℕ)
    (batches : List Batch) : Prop where
  count : batches.length = group.batches batchSize
  rows : (batches.map Batch.rows).sum = group.numRows
  nonempty : ∀ batch ∈ batches, 0 < batch.rows ∧ batch.rows ≤ max batchSize 1
  column : ∀ batch ∈ batches, ∀ field ∈ fields, (batch.column field).length = batch.rows
  stores : ∀ field ∈ fields, List.Forall₂ (fun leaf data => (group.column leaf).Stores data) field.leaves
    (field.dataType.leaves (field.stored batches))

/-- **The bytes of the buffers** a scan decodes of a row group: each column's in every batch, and the positions. -/
def decodedBuffers (fields : List ArrowField) (positions : Bool) (batches : List Batch) : ℕ :=
  (fields.map fun field =>
    (batches.map fun batch => field.dataType.buffers field.nullable (batch.column field)).sum).sum +
  if positions then 8 * (batches.map Batch.rows).sum else 0

/-- No fixed-size list of a column is null. -/
def Batch.Filled (fields : List ArrowField) (batch : Batch) : Prop :=
  ∀ field ∈ fields, field.dataType.Filled (batch.column field)

/-- **A column's batches** are a row's bytes each, and what its leaves are charged. -/
theorem field_buffers_le {field : ArrowField} {costs : List LeafCost}
    (hcosts : field.dataType.leafCosts .default = some costs) {batches : List Batch}
    (hfilled : ∀ batch ∈ batches, field.dataType.Filled (batch.column field))
    (hrows : ∀ batch ∈ batches, 0 < (batch.column field).length) :
    8 * (batches.map fun batch => field.dataType.buffers field.nullable (batch.column field)).sum +
        batches.length * (costs.map LeafCost.entryBits).sum ≤
      batches.length * (8 * field.dataType.rowBytes field.nullable) +
        weigh costs (field.dataType.leaves (field.stored batches)) := by
  induction batches with
  | nil => simp
  | cons batch batches ih =>
    rw [List.forall_mem_cons] at hfilled hrows
    have hrest := ih hfilled.2 hrows.2
    have hspare : Spare .default 0 (field.dataType.leaves (batch.column field)) := fun leaf hleaf =>
      ⟨hrows.1.trans_le (field.dataType.length_le_entries _ leaf hleaf), Nat.zero_le _⟩
    have hwithin : List.Forall₂ LeafData.Within (field.dataType.leaves (batch.column field))
        (field.dataType.leaves (batch.column field)) := List.forall₂_same.mpr fun _ _ => ⟨le_rfl, rfl⟩
    have hone := field.dataType.buffers_le field.nullable _ _ costs _ 0 hcosts hfilled.1 hwithin hspare
    have hlength (rows : List Value) := field.dataType.length_leafCosts _ costs rows hcosts
    have hsplit : weigh costs (field.dataType.leaves (field.stored (batch :: batches))) =
        weigh costs (field.dataType.leaves (batch.column field)) +
          weigh costs (field.dataType.leaves (field.stored batches)) := by
      rw [ArrowField.stored, List.flatMap_cons, field.dataType.leaves_append, weigh_add costs (hlength _) (hlength _)]
      rfl
    rw [hsplit]
    simp only [List.map_cons, List.sum_cons, List.length_cons, Nat.add_mul, Nat.one_mul]
    omega

/-! ## The footer's count -/

/-- A count that bounds a number of bits, or has reached the largest. -/
def Covers (bits : ℕ) (counts : List ℕ) : Prop := u64Max ≤ counts.sum ∨ bits ≤ 8 * counts.sum

theorem Covers.append {bits others : ℕ} {counts more : List ℕ} (h : Covers bits counts) (h' : Covers others more) :
    Covers (bits + others) (counts ++ more) := by
  unfold Covers at h h' ⊢
  rw [List.sum_append]
  omega

theorem Covers.mono {bits fewer : ℕ} {counts : List ℕ} (h : Covers bits counts) (hle : fewer ≤ bits) :
    Covers fewer counts :=
  h.imp_right hle.trans

/-- The writer's count, or the pages that keep every value whole, hold the contents. -/
theorem ColumnChunkMetaData.Stores.contents_le {column : ColumnChunkMetaData} {leaf : LeafData}
    (h : column.Stores leaf) {bytes : ℕ} (hbytes : column.byteStringBytes = some bytes) :
    leaf.contents ≤ bytes := by
  unfold byteStringBytes at hbytes
  split at hbytes
  · next counted hcounted =>
    have hequal := h.counted counted hcounted
    obtain rfl := Option.some.inj hbytes
    omega
  · simp only [Option.ite_none_right_eq_some, Bool.and_eq_true, Bool.not_eq_true', List.isEmpty_eq_false_iff,
      List.all_eq_true, decide_eq_true_eq, Option.isNone_iff_eq_none, Option.some.injEq] at hbytes
    obtain ⟨⟨⟨hne, hwhole⟩, hdictionary⟩, rfl⟩ := hbytes
    have hstored := h.whole hne hwhole hdictionary
    omega

/-- **A chunk's count** covers what its entries, its batches' bitmaps and its contents are charged. -/
theorem ColumnChunkMetaData.covers_decodedBytes {column : ColumnChunkMetaData} {leaf : LeafData} {cost : LeafCost}
    {batches bytes : ℕ} (hstores : column.Stores leaf) (hbits : leaf.entries * cost.bits ≤ u64Max)
    (hbytes : column.decodedBytes cost batches = some bytes) :
    Covers (leaf.entries * cost.entryBits + 8 * cost.contentBytes leaf.contents + batches * (8 * cost.bits))
      [bytes] := by
  have hentries : column.numValues.toNat = leaf.entries := by rw [hstores.entries, Int.toNat_natCast]
  have hcharged : leaf.entries * cost.entryBits = 8 * (leaf.entries * cost.bytes) + leaf.entries * cost.bits := by
    rw [LeafCost.entryBits]
    ring
  have hbatches : batches * (8 * cost.bits) = 8 * (cost.bits * batches) := by ring
  unfold decodedBytes at hbytes
  obtain ⟨contents, hcontents, rfl⟩ := Option.map_eq_some_iff.mp hbytes
  have hle : cost.contentBytes leaf.contents ≤ contents := by
    unfold LeafCost.contentBytes
    split at hcontents
    · next hstrings =>
      rw [if_pos hstrings]
      exact hstores.contents_le hcontents
    · next hother =>
      rw [if_neg hother]
      exact Nat.zero_le _
  rw [hcharged, hbatches, hentries]
  unfold Covers Saturating.add
  simp only [List.sum_cons, List.sum_nil]
  omega

/-- The bits that one row and one batch are charged for a leaf. -/
def LeafCost.rowCharge (cost : LeafCost) : ℕ := 8 * cost.bytes + 9 * cost.bits

/-- **A column's chunks** cover what its leaves are charged. -/
theorem covers_leaves {group : RowGroupMetaData} {batches : ℕ} :
    ∀ {costs : List LeafCost} {leaves : List ℕ} {stored : List LeafData} {counts : List ℕ},
      List.Forall₂ (fun leaf data => (group.column leaf).Stores data) leaves stored →
      costs.length = leaves.length →
      (∀ leaf ∈ leaves.zip costs, (group.column leaf.1).numValues.toNat * leaf.2.bits ≤ u64Max) →
      List.Forall₂ (fun part count => part = some count)
        ((leaves.zip costs).map fun leaf => (group.column leaf.1).decodedBytes leaf.2 batches) counts →
      Covers (weigh costs stored + batches * (8 * (costs.map LeafCost.bits).sum)) counts
  | [], leaves, stored, counts, hstores, hlength, _, hcounts => by
    obtain rfl := List.eq_nil_of_length_eq_zero hlength.symm
    cases hcounts
    exact .inr (by simp [weigh])
  | cost :: costs, [], _, _, _, hlength, _, _ => nomatch hlength
  | cost :: costs, leaf :: leaves, stored, counts, hstores, hlength, hbits, hcounts => by
    obtain ⟨data, others, hone, hothers, rfl⟩ := List.forall₂_cons_left_iff.mp hstores
    rw [List.zip_cons_cons, List.map_cons] at hcounts
    obtain ⟨count, counted, hcount, hcounted, rfl⟩ := List.forall₂_cons_left_iff.mp hcounts
    rw [List.zip_cons_cons, List.forall_mem_cons] at hbits
    have hentries : (group.column leaf).numValues.toNat = data.entries := by rw [hone.entries, Int.toNat_natCast]
    have hhead := ColumnChunkMetaData.covers_decodedBytes hone (hentries ▸ hbits.1) hcount
    have htail := covers_leaves hothers (Nat.succ.inj hlength) hbits.2 hcounted
    refine (hhead.append htail).mono (le_of_eq ?_)
    simp only [weigh, List.zipWith_cons_cons, List.sum_cons, List.map_cons]
    ring

/-- No bitmap of a row group overflows a count. -/
def RowGroupMetaData.Counted (group : RowGroupMetaData) (leaves : List (ℕ × LeafCost)) : Prop :=
  ∀ leaf ∈ leaves, (group.column leaf.1).numValues.toNat * leaf.2.bits ≤ u64Max

/-- What a row of the columns takes, in bytes. -/
def rowBytes (fields : List ArrowField) : ℕ :=
  (fields.map fun field => field.dataType.rowBytes field.nullable).sum

/-- What a row and a batch are charged, in bits. -/
def rowCharge (leaves : List (ℕ × LeafCost)) : ℕ := (leaves.map fun leaf => leaf.2.rowCharge).sum

theorem fieldLeaves_eq_some {field : ArrowField} {leaves : List (ℕ × LeafCost)}
    (h : field.fieldLeaves = some leaves) :
    ∃ costs, field.dataType.leafCosts .default = some costs ∧ costs.length = field.leaves.length ∧
      leaves = field.leaves.zip costs := by
  obtain ⟨costs, hcosts, h⟩ := Option.bind_eq_some_iff.mp h
  obtain ⟨hlength, rfl⟩ := Option.ite_none_right_eq_some.mp h |>.imp_right Option.some.inj
  exact ⟨costs, hcosts, hlength.symm, rfl⟩

theorem map_rowCharge_zip {leaves : List ℕ} {costs : List LeafCost} (h : costs.length = leaves.length) :
    (leaves.zip costs).map (fun leaf => leaf.2.rowCharge) = costs.map LeafCost.rowCharge := by
  have hsnd := congrArg (List.map LeafCost.rowCharge) (List.map_snd_zip h.le)
  rwa [List.map_map] at hsnd

theorem sum_rowCharge (costs : List LeafCost) : (costs.map LeafCost.rowCharge).sum =
    (costs.map LeafCost.entryBits).sum + 8 * (costs.map LeafCost.bits).sum := by
  rw [← List.sum_map_mul_left, ← List.sum_map_add]
  refine congrArg List.sum (List.map_congr_left fun cost _ => ?_)
  rw [LeafCost.rowCharge, LeafCost.entryBits]
  ring

/-- **The columns of a row group**, but for what one row and one batch leave over. -/
theorem covers_columns {group : RowGroupMetaData} {batchSize : ℕ} {batches : List Batch} :
    ∀ {fields : List ArrowField} {leaves : List (List (ℕ × LeafCost))} {counts : List ℕ},
      List.Forall₂ (fun field costed => field.fieldLeaves = some costed) fields leaves →
      (∀ batch ∈ batches, batch.Filled fields) →
      group.Holds fields batchSize batches → group.Counted leaves.flatten →
      List.Forall₂ (fun part count => part = some count)
        (leaves.flatten.map fun leaf => (group.column leaf.1).decodedBytes leaf.2 batches.length) counts →
      ∃ bits, Covers bits counts ∧
        8 * (fields.map fun field =>
          (batches.map fun batch => field.dataType.buffers field.nullable (batch.column field)).sum).sum +
            batches.length * rowCharge leaves.flatten ≤ batches.length * (8 * rowBytes fields) + bits
  | [], leaves, counts, hleaves, _, _, _, hcounts => by
    cases hleaves
    cases hcounts
    exact ⟨0, .inr (Nat.zero_le _), by simp [rowCharge]⟩
  | field :: fields, leaves, counts, hleaves, hfilled, hholds, hcounted, hcounts => by
    obtain ⟨costed, more, hone, hmore, rfl⟩ := List.forall₂_cons_left_iff.mp hleaves
    obtain ⟨costs, hcosts, hlength, rfl⟩ := fieldLeaves_eq_some hone
    rw [List.flatten_cons, List.map_append] at hcounts
    obtain ⟨first, others, rfl, hfirst, hothers⟩ := exists_append_of_forall₂ hcounts
    have hrest : group.Holds fields batchSize batches :=
      { hholds with
        column := fun batch hbatch other hother => hholds.column batch hbatch other (List.mem_cons_of_mem _ hother)
        stores := fun other hother => hholds.stores other (List.mem_cons_of_mem _ hother) }
    obtain ⟨bits, hcovers, hle⟩ := covers_columns hmore
      (fun batch hbatch other hother => hfilled batch hbatch other (List.mem_cons_of_mem _ hother)) hrest
      (fun leaf hleaf => hcounted leaf (List.mem_append_right _ hleaf)) hothers
    have hstores := hholds.stores field List.mem_cons_self
    have hhead := covers_leaves hstores hlength (fun leaf hleaf => hcounted leaf (List.mem_append_left _ hleaf)) hfirst
    have hbuffers := field_buffers_le hcosts (fun batch hbatch => hfilled batch hbatch field List.mem_cons_self)
      fun batch hbatch => by
        rw [hholds.column batch hbatch field List.mem_cons_self]
        exact (hholds.nonempty batch hbatch).1
    have hzip := map_rowCharge_zip hlength
    have hcharge := sum_rowCharge costs
    refine ⟨_, hhead.append hcovers, ?_⟩
    simp only [rowCharge, rowBytes, List.flatten_cons, List.map_append, List.sum_append, List.map_cons, List.sum_cons,
      hzip, hcharge, Nat.mul_add] at hle ⊢
    omega

/-- A row's buffers are within what a row and a batch are charged. -/
def RowFits (fields : List ArrowField) (leaves : List (ℕ × LeafCost)) : Prop :=
  8 * rowBytes fields ≤ rowCharge leaves

instance (fields : List ArrowField) (leaves : List (ℕ × LeafCost)) : Decidable (RowFits fields leaves) :=
  inferInstanceAs (Decidable (_ ≤ _))

/-- **A row group's parts** cover its buffers, where a row's are covered. -/
theorem covers_group {fields : List ArrowField} {leaves : List (List (ℕ × LeafCost))} {group : RowGroupMetaData}
    {batchSize : ℕ} {positions : Bool} {batches : List Batch} {counts : List ℕ}
    (hleaves : List.Forall₂ (fun field costed => field.fieldLeaves = some costed) fields leaves)
    (hfits : RowFits fields leaves.flatten) (hfilled : ∀ batch ∈ batches, batch.Filled fields)
    (hholds : group.Holds fields batchSize batches) (hcounted : group.Counted leaves.flatten)
    (hcounts : List.Forall₂ (fun part count => part = some count)
      (group.parts leaves.flatten batchSize positions) counts) :
    Covers (8 * decodedBuffers fields positions batches) counts := by
  rw [RowGroupMetaData.parts, ← hholds.count] at hcounts
  obtain ⟨first, others, rfl, hfirst, hothers⟩ := exists_append_of_forall₂ hcounts
  obtain ⟨bits, hcovers, hle⟩ := covers_columns hleaves hfilled hholds hcounted hfirst
  have hrow := Nat.mul_le_mul_left batches.length hfits
  have hpositions : Covers (8 * if positions then 8 * (batches.map Batch.rows).sum else 0) others := by
    cases positions with
    | false => exact .inr (Nat.zero_le _)
    | true =>
      obtain ⟨count, rest, hcount, hrest, rfl⟩ := List.forall₂_cons_left_iff.mp hothers
      cases hrest
      obtain rfl := Option.some.inj hcount
      have hrows := hholds.rows
      unfold Covers
      simp only [List.sum_cons, List.sum_nil, if_true]
      omega
  refine (hcovers.append hpositions).mono ?_
  rw [decodedBuffers, Nat.mul_add]
  omega

/-- A row group, and the batches it is read in. -/
structure ReadGroup where
  group : RowGroupMetaData
  batches : List Batch

/-- **What a scan reads**: row groups as their footers describe them, no fixed-size list null and no count of bits
past the largest. -/
structure ScanReads (fields : List ArrowField) (leaves : List (ℕ × LeafCost)) (batchSize : ℕ)
    (read : List ReadGroup) : Prop where
  holds : ∀ g ∈ read, g.group.Holds fields batchSize g.batches
  filled : ∀ g ∈ read, ∀ batch ∈ g.batches, batch.Filled fields
  counted : ∀ g ∈ read, g.group.Counted leaves

/-- The bytes of every buffer a scan decodes. -/
def scannedBuffers (fields : List ArrowField) (positions : Bool) (read : List ReadGroup) : ℕ :=
  (read.map fun g => decodedBuffers fields positions g.batches).sum

theorem covers_scan {fields : List ArrowField} {leaves : List (List (ℕ × LeafCost))} {batchSize : ℕ}
    {positions : Bool} (hleaves : List.Forall₂ (fun field costed => field.fieldLeaves = some costed) fields leaves)
    (hfits : RowFits fields leaves.flatten) :
    ∀ {read : List ReadGroup} {counts : List ℕ}, ScanReads fields leaves.flatten batchSize read →
      List.Forall₂ (fun part count => part = some count)
        ((read.map ReadGroup.group).flatMap (RowGroupMetaData.parts leaves.flatten batchSize positions)) counts →
      Covers (8 * scannedBuffers fields positions read) counts
  | [], _, _, hcounts => by
    cases hcounts
    exact .inr (Nat.zero_le _)
  | g :: read, counts, hread, hcounts => by
    rw [List.map_cons, List.flatMap_cons] at hcounts
    obtain ⟨first, others, rfl, hfirst, hothers⟩ := exists_append_of_forall₂ hcounts
    have hhead := covers_group hleaves hfits (hread.filled g List.mem_cons_self) (hread.holds g List.mem_cons_self)
      (hread.counted g List.mem_cons_self) hfirst
    have hrest : ScanReads fields leaves.flatten batchSize read :=
      ⟨fun g hg => hread.holds g (List.mem_cons_of_mem _ hg), fun g hg => hread.filled g (List.mem_cons_of_mem _ hg),
        fun g hg => hread.counted g (List.mem_cons_of_mem _ hg)⟩
    refine (hhead.append (covers_scan hleaves hfits hrest hothers)).mono (le_of_eq ?_)
    rw [scannedBuffers, List.map_cons, List.sum_cons, Nat.mul_add, scannedBuffers]

/-! ## One row in each batch -/

/-- The footer of eight entries in each leaf, without contents. -/
def sampleChunk : ColumnChunkMetaData := ⟨8, some 0, [], none, 0⟩

/-- Eight rows, each in a batch of its own. -/
def sampleGroup : ReadGroup :=
  ⟨⟨8, fun _ => sampleChunk⟩, List.replicate 8 ⟨1, fun field => List.replicate 1
    (field.dataType.sample field.nullable)⟩⟩

theorem stored_sampleGroup (field : ArrowField) :
    field.stored sampleGroup.batches = List.replicate 8 (field.dataType.sample field.nullable) := rfl

/-- The leaves of a column store what the footer of the eight rows says. -/
theorem stores_sampleGroup {field : ArrowField} {costed : List (ℕ × LeafCost)}
    (hcosted : field.fieldLeaves = some costed) (hfilled : field.dataType.listsFilled field.nullable = true) :
    List.Forall₂ (fun leaf data => (sampleGroup.group.column leaf).Stores data) field.leaves
      (field.dataType.leaves (field.stored sampleGroup.batches)) := by
  obtain ⟨costs, hcosts, hlength, -⟩ := fieldLeaves_eq_some hcosted
  rw [stored_sampleGroup]
  refine List.forall₂_iff_get.mpr ⟨?_, fun i _ hi => ?_⟩
  · rw [← hlength]
    exact field.dataType.length_leafCosts _ costs _ hcosts
  · have hleaf := field.dataType.leaves_sample field.nullable hfilled 8 _ (List.get_mem _ ⟨i, hi⟩)
    rw [hleaf]
    exact ⟨rfl, fun bytes h => (Option.some.inj h).symm, fun hne => absurd rfl hne⟩

/-- The eight rows are read as their footer describes them. -/
theorem scanReads_sampleGroup {fields : List ArrowField} {leaves : List (List (ℕ × LeafCost))}
    (hleaves : fields.mapM ArrowField.fieldLeaves = some leaves)
    (hfilled : ∀ field ∈ fields, field.dataType.listsFilled field.nullable = true)
    (hbits : ∀ leaf ∈ leaves.flatten, 8 * leaf.2.bits ≤ u64Max) :
    ScanReads fields leaves.flatten 1 [sampleGroup] := by
  have hbatch : ∀ batch ∈ sampleGroup.batches,
      batch = ⟨1, fun field => List.replicate 1 (field.dataType.sample field.nullable)⟩ := fun batch hbatch =>
    List.eq_of_mem_replicate hbatch
  have hcosted := Fallible.isSome_mapM ArrowField.fieldLeaves fields
  rw [hleaves, Option.isSome_some, eq_comm, List.all_eq_true] at hcosted
  refine ⟨List.forall_mem_singleton.mpr ⟨rfl, rfl, ?_, ?_, ?_⟩, ?_, List.forall_mem_singleton.mpr hbits⟩
  · intro batch h
    rw [hbatch batch h]
    exact ⟨Nat.zero_lt_one, le_rfl⟩
  · intro batch h field _
    rw [hbatch batch h, List.length_replicate]
  · intro field hfield
    obtain ⟨costed, hone⟩ := Option.isSome_iff_exists.mp (hcosted field hfield)
    exact stores_sampleGroup hone (hfilled field hfield)
  · rw [List.forall_mem_singleton]
    exact fun batch h field hfield => field.dataType.filled_of_listsFilled field.nullable (hfilled field hfield) _

/-- What the eight rows are counted for. -/
def sampleCount (cost : LeafCost) : ℕ :=
  Saturating.add u64Max (Saturating.add u64Max (min (8 * cost.bytes) u64Max)
    (Saturating.add u64Max ((min (8 * cost.bits) u64Max + 7) / 8) (min (cost.bits * 8) u64Max))) 0

theorem decodedBytes_sampleChunk (cost : LeafCost) :
    sampleChunk.decodedBytes cost 8 = some (sampleCount cost) := by
  unfold ColumnChunkMetaData.decodedBytes
  cases cost.byteStrings <;> rfl

theorem sampleCount_le (cost : LeafCost) : sampleCount cost ≤ cost.rowCharge := by
  unfold sampleCount Saturating.add LeafCost.rowCharge
  omega

/-- **The eight rows' estimate** is at most what one row and one batch are charged. -/
theorem estimate_sampleGroup {fields : List ArrowField} {leaves : List (List (ℕ × LeafCost))}
    (hleaves : fields.mapM ArrowField.fieldLeaves = some leaves) :
    ∃ bytes, estimateScanBytes fields [sampleGroup.group] 1 false = some bytes ∧
      bytes ≤ rowCharge leaves.flatten := by
  have hparts : ([sampleGroup.group].flatMap (RowGroupMetaData.parts leaves.flatten 1 false)).mapM id =
      some (leaves.flatten.map fun leaf => sampleCount leaf.2) := by
    rw [List.flatMap_singleton, RowGroupMetaData.parts, Fallible.mapM_eq_some]
    simp only [Bool.false_eq_true, if_false, List.append_nil, List.forall₂_map_left_iff, List.forall₂_map_right_iff,
      List.forall₂_same]
    exact fun leaf _ => decodedBytes_sampleChunk leaf.2
  refine ⟨_, by rw [estimateScanBytes, hleaves, Option.bind_some, hparts, Option.map_some], ?_⟩
  rw [Saturating.sum_eq]
  refine (min_le_left _ _).trans ?_
  rw [rowCharge]
  exact List.sum_le_sum fun leaf _ => sampleCount_le leaf.2

theorem scannedBuffers_sampleGroup {fields : List ArrowField}
    (hfilled : ∀ field ∈ fields, field.dataType.listsFilled field.nullable = true) :
    scannedBuffers fields false [sampleGroup] = 8 * rowBytes fields := by
  have hfield : ∀ field ∈ fields, (sampleGroup.batches.map fun batch =>
      field.dataType.buffers field.nullable (batch.column field)).sum =
        8 * field.dataType.rowBytes field.nullable := by
    intro field hfield
    rw [sampleGroup, List.map_replicate, List.sum_replicate, smul_eq_mul,
      field.dataType.buffers_sample field.nullable (hfilled field hfield)]
  rw [scannedBuffers, List.map_singleton, List.sum_singleton, decodedBuffers, if_neg Bool.false_ne_true, Nat.add_zero,
    List.map_congr_left hfield, List.sum_map_mul_left, rowBytes]

/-! ## The bound -/

/-- **The estimate bounds the buffers** a scan of these columns decodes. -/
def EstimateBounds (fields : List ArrowField) (leaves : List (ℕ × LeafCost)) : Prop :=
  ∀ (read : List ReadGroup) (batchSize : ℕ) (positions : Bool) (bytes : ℕ), ScanReads fields leaves batchSize read →
    estimateScanBytes fields (read.map ReadGroup.group) batchSize positions = some bytes →
    min (scannedBuffers fields positions read) u64Max ≤ bytes

/-- **The decoded-size estimate is an upper bound exactly for the columns whose row it covers.**  Where a row's
buffers, an offset past the last among them, are within what a row and a batch are charged, it bounds every scan;
where they are not, eight rows in batches of their own decode to more. -/
theorem estimate_bounds_iff (fields : List ArrowField) (leaves : List (List (ℕ × LeafCost)))
    (hleaves : fields.mapM ArrowField.fieldLeaves = some leaves) :
    (RowFits fields leaves.flatten → EstimateBounds fields leaves.flatten) ∧
    ((∀ field ∈ fields, field.dataType.listsFilled field.nullable = true) → 8 * rowBytes fields ≤ u64Max →
      (∀ leaf ∈ leaves.flatten, 8 * leaf.2.bits ≤ u64Max) →
      (EstimateBounds fields leaves.flatten ↔ RowFits fields leaves.flatten)) := by
  have hcosted := Fallible.mapM_eq_some.mp hleaves
  have hbounds : RowFits fields leaves.flatten → EstimateBounds fields leaves.flatten := by
    intro hfits read batchSize positions bytes hread hbytes
    rw [estimateScanBytes, hleaves, Option.bind_some] at hbytes
    obtain ⟨counts, hcounts, rfl⟩ := Option.map_eq_some_iff.mp hbytes
    have hcovers := covers_scan hcosted hfits hread (Fallible.mapM_eq_some.mp hcounts)
    rw [Saturating.sum_eq]
    unfold Covers at hcovers
    omega
  refine ⟨hbounds, fun hfilled hsmall hbits => ⟨fun h => ?_, hbounds⟩⟩
  obtain ⟨bytes, hbytes, hle⟩ := estimate_sampleGroup hleaves
  have hbound := h [sampleGroup] 1 false bytes (scanReads_sampleGroup hleaves hfilled hbits) hbytes
  rw [scannedBuffers_sampleGroup hfilled, min_eq_left hsmall] at hbound
  exact hbound.trans hle

def numberField : ArrowField := ⟨"number", true, .primitive 8, [0]⟩

def textField : ArrowField := ⟨"hash", false, .utf8, [0]⟩

theorem estimate_bounds_iff_columns :
    EstimateBounds [numberField] [(0, ⟨8, 1, false⟩)] ∧ ¬ EstimateBounds [textField] [(0, ⟨4, 1, true⟩)] :=
  ⟨(estimate_bounds_iff [numberField] [[(0, ⟨8, 1, false⟩)]] rfl).1 (by decide),
    fun h => absurd (((estimate_bounds_iff [textField] [[(0, ⟨4, 1, true⟩)]] rfl).2 (by decide) (by decide)
      (by decide)).mp h) (by decide)⟩

/-- A row group of one string of two bytes. -/
def lonelyString : ReadGroup :=
  ⟨⟨1, fun _ => ⟨1, some 2, [.plain], none, 6⟩⟩, [⟨1, fun _ => [.bytes 2]⟩]⟩

theorem not_estimate_bounds :
    ScanReads [textField] [(0, ⟨4, 1, true⟩)] 8192 [lonelyString] ∧
      estimateScanBytes [textField] [lonelyString.group] 8192 false = some 8 ∧
      scannedBuffers [textField] false [lonelyString] = 10 := by
  refine ⟨⟨?_, ?_, ?_⟩, by decide, by decide⟩
  · rw [List.forall_mem_singleton]
    refine ⟨by decide, rfl, by decide, ?_, ?_⟩
    · intro batch hbatch field _
      rw [List.mem_singleton.mp hbatch]
      rfl
    · intro field hfield
      rw [List.mem_singleton.mp hfield]
      refine .cons ⟨rfl, fun bytes h => ?_, fun _ _ _ => by decide⟩ .nil
      exact (Option.some.inj h).symm
  · rw [List.forall_mem_singleton]
    intro batch hbatch field hfield
    rw [List.mem_singleton.mp hfield]
    trivial
  · rw [List.forall_mem_singleton]
    intro leaf hleaf
    rw [List.mem_singleton.mp hleaf]
    decide

/-! ## A held column -/

mutual

/-- The offsets past the last entry, one of each list and string array of a type. -/
def ArrowType.lastOffsets : ArrowType → ℕ
  | .list _ item => 4 + item.lastOffsets
  | .map _ entries => 4 + entries.lastOffsets
  | .largeList _ item => 8 + item.lastOffsets
  | .fixedSizeList _ item _ => item.lastOffsets
  | .struct fields => fields.lastOffsets
  | .utf8 | .binary => 4
  | .largeUtf8 | .largeBinary => 8
  | _ => 0

/-- Those of each field. -/
def ArrowFields.lastOffsets : ArrowFields → ℕ
  | .one _ field => field.lastOffsets
  | .cons _ field rest => field.lastOffsets + rest.lastOffsets

end

theorem bitmap_one_le (valid : Bool) : bitmap valid 1 ≤ 1 := by
  cases valid <;> decide

theorem rowCharge_level (above : LeafCost) (width : ℕ) :
    (above.level.withOffsets width).rowCharge = above.rowCharge + 8 * width + 9 := by
  simp only [LeafCost.rowCharge, LeafCost.withOffsets, LeafCost.level]
  ring

mutual

/-- **A row is charged all but its last offsets.** -/
theorem ArrowType.rowBytes_le : ∀ (ty : ArrowType) (valid : Bool) (above : LeafCost) (costs : List LeafCost),
    ty.leafCosts above = some costs →
    8 * ty.rowBytes valid + above.rowCharge ≤ (costs.map LeafCost.rowCharge).sum + 8 * ty.lastOffsets
  | .list nullable item, valid, above, costs | .map nullable item, valid, above, costs => by
    intro hcosts
    have hvalid := bitmap_one_le valid
    have hitem := item.rowBytes_le nullable (above.level.withOffsets 4) costs hcosts
    rw [rowCharge_level] at hitem
    simp only [ArrowType.rowBytes, ArrowType.lastOffsets]
    omega
  | .largeList nullable item, valid, above, costs => by
    intro hcosts
    have hvalid := bitmap_one_le valid
    have hitem := item.rowBytes_le nullable (above.level.withOffsets 8) costs hcosts
    rw [rowCharge_level] at hitem
    simp only [ArrowType.rowBytes, ArrowType.lastOffsets]
    omega
  | .fixedSizeList nullable item _, valid, above, costs => by
    intro hcosts
    have hvalid := bitmap_one_le valid
    have hitem := item.rowBytes_le nullable (above.level.withOffsets 0) costs hcosts
    rw [rowCharge_level] at hitem
    simp only [ArrowType.rowBytes, ArrowType.lastOffsets]
    omega
  | .struct fields, valid, above, costs => by
    intro hcosts
    have hvalid := bitmap_one_le valid
    have hfields := fields.rowBytes_le (above.level.withOffsets 0) costs hcosts
    rw [rowCharge_level] at hfields
    simp only [ArrowType.rowBytes, ArrowType.lastOffsets]
    omega
  | .utf8, valid, above, costs | .binary, valid, above, costs | .largeUtf8, valid, above, costs
  | .largeBinary, valid, above, costs | .boolean, valid, above, costs | .null, valid, above, costs
  | .fixedSizeBinary _, valid, above, costs | .primitive _, valid, above, costs => by
    intro hcosts
    cases hcosts
    have hvalid := bitmap_one_le valid
    simp only [ArrowType.rowBytes, ArrowType.lastOffsets, List.map_cons, List.map_nil, List.sum_cons, List.sum_nil,
      LeafCost.rowCharge, LeafCost.withOffsets, LeafCost.level]
    omega
  | .other, _, _, _ => fun hcosts => nomatch hcosts

theorem ArrowFields.rowBytes_le : ∀ (fields : ArrowFields) (level : LeafCost) (costs : List LeafCost),
    fields.leafCosts level = some costs →
    8 * fields.rowBytes + level.rowCharge ≤ (costs.map LeafCost.rowCharge).sum + 8 * fields.lastOffsets
  | .one nullable field, level, costs => field.rowBytes_le nullable level costs
  | .cons nullable field rest, level, costs => by
    intro hcosts
    obtain ⟨first, hfirst, hcosts⟩ := Option.bind_eq_some_iff.mp hcosts
    obtain ⟨others, hothers, rfl⟩ := Option.map_eq_some_iff.mp hcosts
    have hhead := field.rowBytes_le nullable level first hfirst
    have htail := rest.rowBytes_le level others hothers
    rw [ArrowFields.rowBytes, ArrowFields.lastOffsets, List.map_append, List.sum_append]
    omega

end

/-- The most a column of a row group decodes to, every row of it. -/
def columnBytesBound (group : RowGroupMetaData) (field : ArrowField) : Option ℕ :=
  field.fieldLeaves.bind fun leaves =>
    ((leaves.map fun leaf => (group.column leaf.1).decodedBytes leaf.2 1).mapM id).map (Saturating.sum u64Max)

/-- The most a column holds once decoded: its values, and the arrays around them. -/
def columnReservation (emptySize : ArrowType → ℕ) (group : RowGroupMetaData) (field : ArrowField) : Option ℕ :=
  (columnBytesBound group field).map fun values => Saturating.add u64Max values (emptySize field.dataType)

/-- **A held column fits its reservation**: the empty arrays around it hold the offsets its count leaves out. -/
theorem columnReservation_bounds {emptySize : ArrowType → ℕ} (hempty : ∀ ty, ty.lastOffsets ≤ emptySize ty)
    {group : RowGroupMetaData} {field : ArrowField} {batchSize : ℕ} {batch : Batch} {bytes : ℕ}
    (hholds : group.Holds [field] batchSize [batch]) (hfilled : batch.Filled [field])
    (hcounted : ∀ leaves, field.fieldLeaves = some leaves → group.Counted leaves)
    (hbytes : columnReservation emptySize group field = some bytes) :
    min (field.dataType.buffers field.nullable (batch.column field)) u64Max ≤ bytes := by
  obtain ⟨values, hvalues, rfl⟩ := Option.map_eq_some_iff.mp hbytes
  obtain ⟨leaves, hleaves, hvalues⟩ := Option.bind_eq_some_iff.mp hvalues
  obtain ⟨counts, hcounts, rfl⟩ := Option.map_eq_some_iff.mp hvalues
  have hflat : [leaves].flatten = leaves := by rw [List.flatten_cons, List.flatten_nil, List.append_nil]
  obtain ⟨bits, hcovers, hle⟩ := covers_columns (.cons hleaves .nil) (List.forall_mem_singleton.mpr hfilled) hholds
    (hflat.symm ▸ hcounted leaves hleaves) (hflat.symm ▸ Fallible.mapM_eq_some.mp hcounts)
  obtain ⟨costs, hcosts, hlength, rfl⟩ := fieldLeaves_eq_some hleaves
  have hrow := field.dataType.rowBytes_le field.nullable _ costs hcosts
  have hoffsets := hempty field.dataType
  have hzip := map_rowCharge_zip hlength
  rw [Saturating.sum_eq]
  unfold Covers at hcovers
  unfold Saturating.add
  simp only [hflat, rowCharge, rowBytes, hzip, List.map_cons, List.map_nil, List.sum_cons, List.sum_nil,
    List.length_cons, List.length_nil] at hle
  omega

end QueryEngine
