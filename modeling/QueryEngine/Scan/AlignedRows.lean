import QueryEngine.Scan.Scanned

/-!
# Scan/AlignedRows — rows, positions and tags rewritten side by side

A batch of rows, the position of each and the marks of each tag are arrays of their own,
  and every operation rewrites all
of them.  An operation is told by what it does to whole rows: a mask picks them in order, a split cuts them,
  a projection
leaves some of their columns, and an append that does not refuse puts one table's after the other's.
-/

open Fallible Selection Kleene

namespace QueryEngine

/-! ## Masks over arrays -/

/-- What a mask selects of so many rows: neither a null nor the rows past its end. -/
def padded (mask : Mask) (rows : ℕ) : List Bool := Mask.kept mask ++ List.replicate (rows - mask.length) false

/-- The rows of an array that a mask selects.  A mask longer than the array is refused. -/
def selectedRows (mask : Mask) (rows : ℕ) : Except String (List Bool) :=
  if rows < mask.length then .error ("Filter predicate of length " ++ toString mask.length ++
    " is larger than target array of length " ++ toString rows)
  else .ok (padded mask rows)

/-- The entries of an array that a mask selects. -/
def filterArray {α : Type} (xs : List α) (mask : Mask) : Except String (List α) :=
  (selectedRows mask xs.length).map fun keep => pick keep xs

/-- The rows of a batch that a mask selects. -/
def filterRecordBatch (batch : RecordBatch) (mask : Mask) : Except String RecordBatch :=
  (selectedRows mask batch.numRows).map batch.filter

/-- The positions that a mask selects, where there are any. -/
def filterPositions (positions : Option (List ℕ)) (mask : Mask) : Except String (Option (List ℕ)) :=
  match positions with
  | some ps => (filterArray ps mask).map some
  | none => .ok none

theorem selectedRows_eq_ok {mask : Mask} {rows : ℕ} {keep : List Bool} :
    selectedRows mask rows = .ok keep ↔ mask.length ≤ rows ∧ keep = padded mask rows := by
  unfold selectedRows
  split
  · next hlt => exact ⟨nofun, fun h => absurd h.1 (Nat.not_le.mpr hlt)⟩
  · next hle => exact ⟨fun h => ⟨Nat.not_lt.mp hle, (Except.ok.inj h).symm⟩, fun h => congrArg Except.ok h.2.symm⟩

theorem length_padded {mask : Mask} {rows : ℕ} (h : mask.length ≤ rows) : (padded mask rows).length = rows := by
  rw [padded, List.length_append, Mask.length_kept, List.length_replicate]
  omega

/-- Rows past the end of a selection are not selected. -/
theorem pick_append_false {α : Type} (k : ℕ) : ∀ (keep : List Bool) (xs : List α),
    pick (keep ++ List.replicate k false) xs = pick keep xs
  | [], xs => pick_replicate_false k xs
  | _ :: _, [] => by simp
  | true :: keep, x :: xs => congrArg (x :: ·) (pick_append_false k keep xs)
  | false :: keep, _ :: xs => pick_append_false k keep xs

theorem pick_padded {α : Type} (mask : Mask) (rows : ℕ) (xs : List α) :
    pick (padded mask rows) xs = pick (Mask.kept mask) xs := pick_append_false _ _ _

/-- An array filtered is what is picked of it. -/
theorem filterArray_eq_ok {α : Type} {xs ys : List α} {mask : Mask} (h : filterArray xs mask = .ok ys) :
    ys = pick (padded mask xs.length) xs := by
  obtain ⟨keep, hkeep, rfl⟩ := map_eq_ok.mp h
  rw [(selectedRows_eq_ok.mp hkeep).2]

theorem filterRecordBatch_eq_ok {batch kept : RecordBatch} {mask : Mask} (h : filterRecordBatch batch mask = .ok kept) :
    mask.length ≤ batch.numRows ∧ kept = batch.filter (padded mask batch.numRows) := by
  obtain ⟨keep, hkeep, rfl⟩ := map_eq_ok.mp h
  obtain ⟨hle, rfl⟩ := selectedRows_eq_ok.mp hkeep
  exact ⟨hle, rfl⟩

/-- Positions filtered are what is picked of them. -/
theorem filterPositions_eq_ok {positions kept : Option (List ℕ)} {mask : Mask} {rows : ℕ}
    (hlen : ∀ ps ∈ positions, ps.length = rows) (h : filterPositions positions mask = .ok kept) :
    kept = positions.map (pick (padded mask rows)) := by
  cases positions with
  | none => exact (Except.ok.inj h).symm
  | some ps =>
    obtain ⟨picked, hpicked, rfl⟩ := map_eq_ok.mp h
    rw [filterArray_eq_ok hpicked, hlen ps rfl, Option.map_some]

theorem forall₂_imp_mem {α β : Type} {R S : α → β → Prop} {xs : List α} {ys : List β} (h : List.Forall₂ R xs ys)
    (himp : ∀ x ∈ xs, ∀ y, R x y → S x y) : List.Forall₂ S xs ys := by
  induction h with
  | nil => exact .nil
  | @cons x y xs ys hxy _ ih =>
    exact .cons (himp x List.mem_cons_self y hxy) (ih fun x hx => himp x (List.mem_cons_of_mem _ hx))

/-- What relates each element to one value alone is a map. -/
theorem eq_map_of_forall₂ {α β : Type} {R : α → β → Prop} {f : α → β} {xs : List α} {ys : List β}
    (h : List.Forall₂ R xs ys) (hf : ∀ x ∈ xs, ∀ y, R x y → y = f x) : ys = xs.map f := by
  induction h with
  | nil => rfl
  | @cons x y xs ys hxy _ ih =>
    rw [List.map_cons, hf x (List.mem_cons_self ..) y hxy, ih fun z hz => hf z (List.mem_cons_of_mem _ hz)]

/-! ## A batch with its positions and tags -/

namespace ScannedBatch

variable {part : ScannedBatch}

@[simp] theorem length_rows (part : ScannedBatch) : part.rows.length = part.batch.numRows := by simp [rows]

/-- The rows a mask selects, with their positions and tags. -/
def filterMask (part : ScannedBatch) (mask : Mask) : Except String ScannedBatch := do
  let positions ← filterPositions part.positions mask
  let tags ← part.tags.mapM fun tag => filterArray tag mask
  let batch ← filterRecordBatch part.batch mask
  .ok ⟨batch, positions, tags⟩

/-- **All arrays are filtered alike**: by the rows the mask selects, where it is no longer than the batch. -/
theorem filterMask_eq_ok (h : part.Aligned) {mask : Mask} {kept : ScannedBatch}
    (hkept : part.filterMask mask = .ok kept) :
    mask.length ≤ part.batch.numRows ∧ kept = part.filter (padded mask part.batch.numRows) := by
  obtain ⟨positions, hpositions, hrest⟩ := bind_eq_ok.mp hkept
  obtain ⟨tags, htags, hrest⟩ := bind_eq_ok.mp hrest
  obtain ⟨batch, hbatch, hrest⟩ := bind_eq_ok.mp hrest
  obtain rfl := Except.ok.inj hrest
  obtain ⟨hle, rfl⟩ := filterRecordBatch_eq_ok hbatch
  have htag : tags = part.tags.map (pick (padded mask part.batch.numRows)) := by
    refine eq_map_of_forall₂ (mapM_eq_ok.mp htags) fun tag hmem picked hpicked => ?_
    rw [filterArray_eq_ok hpicked, h.tags tag hmem]
  exact ⟨hle, by rw [filterPositions_eq_ok h.positions hpositions, htag]; rfl⟩

/-- **A filtered batch holds the rows that the mask selects**, each with its position and tags. -/
theorem filterMask_rows (h : part.Aligned) {mask : Mask} {kept : ScannedBatch}
    (hkept : part.filterMask mask = .ok kept) :
    kept.Aligned ∧ kept.rows = pick (Mask.kept mask) part.rows := by
  obtain ⟨hle, rfl⟩ := filterMask_eq_ok h hkept
  have hlen := length_padded hle
  exact ⟨h.filter hlen, by rw [rows_filter h hlen, pick_padded]⟩

/-- **A split cuts the rows in their order.** -/
theorem rows_split_eq_cut (h : part.Aligned) (size : ℕ) :
    (part.split size).map rows = cut ((part.split size).map fun piece => piece.batch.numRows) part.rows := by
  have hcut : ∀ xss : List (List ScannedRow), cut (xss.map List.length) xss.flatten = xss := by
    intro xss
    induction xss with
    | nil => rfl
    | cons xs xss ih => rw [List.map_cons, List.flatten_cons, cut, List.take_left, List.drop_left, ih]
  rw [← rows_split h size, List.flatMap_def]
  have hlens : ((part.split size).map fun piece => piece.batch.numRows) =
      ((part.split size).map rows).map List.length := by
    rw [List.map_map]
    exact List.map_congr_left fun piece _ => (length_rows piece).symm
  rw [hlens, hcut]

/-- A piece of a split is recorded with positions as the batch is. -/
theorem positions_split (part : ScannedBatch) (size : ℕ) :
    ∀ piece ∈ part.split size, piece.positions.isSome = part.positions.isSome := by
  intro piece hpiece
  obtain ⟨rfl, -⟩ | ⟨start, len, -, -, rfl⟩ := mem_split hpiece
  · rfl
  · rw [slice, Option.isSome_map]

/-- A piece of a split is no larger than asked. -/
theorem numRows_split (part : ScannedBatch) (size : ℕ) : ∀ piece ∈ part.split size,
    piece.batch.numRows ≤ max size 1 := by
  intro piece hpiece
  obtain ⟨rfl, hsmall⟩ | ⟨start, len, hle, hlen, rfl⟩ := mem_split hpiece
  · exact hsmall
  · exact (length_slice hle).le.trans hlen

end ScannedBatch

/-! ## Rows in batches -/

/-- Batches, each with its positions where positions are recorded. -/
def partsOf (batches : List RecordBatch) (positions : Option (List (List ℕ))) : List ScannedBatch :=
  batches.zipIdx.map fun b => ⟨b.1, positions.map fun ps => ps.getD b.2 [], []⟩

theorem zipIdx_append_map {α : Type} (xs ys : List α) :
    (xs ++ ys).zipIdx = xs.zipIdx ++ ys.zipIdx.map fun b => (b.1, xs.length + b.2) := by
  rw [List.zipIdx_append, Nat.zero_add]
  exact congrArg (xs.zipIdx ++ ·) List.zipIdx_eq_map_add

/-- Two tables one after the other, each batch with the positions it had. -/
theorem partsOf_append {batches more : List RecordBatch} {ps qs : List (List ℕ)} (h : ps.length = batches.length) :
    partsOf (batches ++ more) (some (ps ++ qs)) = partsOf batches (some ps) ++ partsOf more (some qs) := by
  unfold partsOf
  rw [zipIdx_append_map, List.map_append, List.map_map]
  congr 1
  · refine List.map_congr_left fun b hb => ?_
    have hlt : b.2 < ps.length := h ▸ (List.getElem?_eq_some_iff.mp (List.mem_zipIdx_iff_getElem?.mp hb)).1
    simp [List.getD_eq_getElem?_getD, List.getElem?_append_left hlt]
  · refine List.map_congr_left fun b _ => ?_
    simp [List.getD_eq_getElem?_getD, ← h, List.getElem?_append_right]

theorem partsOf_append_none (batches more : List RecordBatch) :
    partsOf (batches ++ more) none = partsOf batches none ++ partsOf more none := by
  unfold partsOf
  rw [zipIdx_append_map, List.map_append, List.map_map]
  rfl

/-- Every batch of aligned rows is aligned. -/
theorem aligned_of_mem_partsOf {batches : List RecordBatch} {positions : Option (List (List ℕ))}
    (h : ∀ ps ∈ positions, aligned batches ps) : ∀ part ∈ partsOf batches positions, part.Aligned := by
  intro part hpart
  obtain ⟨b, hb, rfl⟩ := List.mem_map.mp hpart
  refine ⟨fun ps hps => ?_, nofun⟩
  obtain ⟨all, hall, rfl⟩ := Option.map_eq_some_iff.mp hps
  have hbatch := List.mem_zipIdx_iff_getElem?.mp hb
  have hlen := congrArg (·[b.2]?) (h all hall)
  simp only [List.getElem?_map, hbatch, Option.map_some] at hlen
  obtain ⟨ps, hps, hlen⟩ := Option.map_eq_some_iff.mp hlen
  rw [List.getD_eq_getElem?_getD, hps, Option.getD_some, hlen]

namespace Rows

/-- The batches, each with its positions. -/
def parts (rows : Rows) : List ScannedBatch := partsOf rows.batches rows.positions

/-- One batch of them, at its place. -/
def partAt (rows : Rows) (b : RecordBatch × ℕ) : ScannedBatch :=
  ⟨b.1, rows.positions.map fun ps => ps.getD b.2 [], []⟩

theorem aligned_parts (rows : Rows) : ∀ part ∈ rows.parts, part.Aligned := aligned_of_mem_partsOf rows.aligned

/-- What a filter has kept so far. -/
structure Kept where
  batches : List RecordBatch
  positions : Option (List (List ℕ))

/-- The positions of one more batch that a mask selects, where positions are recorded. -/
def keepPositions (kept all : Option (List (List ℕ))) (index : ℕ) (mask : Mask) :
    Except String (Option (List (List ℕ))) :=
  match kept, all with
  | some ps, some all => (filterArray (all.getD index []) mask).map fun picked => some (ps ++ [picked])
  | kept, _ => .ok kept

/-- One batch filtered: left out when the mask selects none of its rows. -/
def keepBatch (rows : Rows) (mask : ℕ → RecordBatch → Except String Mask) (kept : Kept) (b : RecordBatch × ℕ) :
    Except String Kept := do
  let mask ← mask b.2 b.1
  if (Mask.kept mask).count true = 0 then .ok kept
  else do
    let batch ← filterRecordBatch b.1 mask
    let positions ← keepPositions kept.positions rows.positions b.2 mask
    .ok ⟨kept.batches ++ [batch], positions⟩

/-- The batches with the rows that masks select; those that a mask empties are dropped. -/
def keptParts (parts : List ScannedBatch) (masks : List Mask) : List ScannedBatch :=
  (parts.zip masks).filterMap fun p =>
    if (Mask.kept p.2).count true = 0 then none else some (p.1.filter (padded p.2 p.1.batch.numRows))

/-- A mask that selects a row is no longer than its batch. -/
def Covers (part : ScannedBatch) (mask : Mask) : Prop :=
  (Mask.kept mask).count true ≠ 0 → mask.length ≤ part.batch.numRows

/-- **What a filter keeps of the batches so far**: those the masks select rows of, aligned, with their positions. -/
structure Keeps (rows : Rows) (mask : ℕ → RecordBatch → Except String Mask) (done : List (RecordBatch × ℕ))
    (kept : Kept) : Prop where
  recorded : kept.positions.isSome = rows.positions.isSome
  aligned : ∀ ps ∈ kept.positions, QueryEngine.aligned kept.batches ps
  kept : ∃ masks, List.Forall₂ (fun b m => mask b.2 b.1 = .ok m ∧ Covers (rows.partAt b) m) done masks ∧
    partsOf kept.batches kept.positions = keptParts (done.map rows.partAt) masks

theorem keptParts_append {parts more : List ScannedBatch} {masks masks' : List Mask} (h : parts.length = masks.length) :
    keptParts (parts ++ more) (masks ++ masks') = keptParts parts masks ++ keptParts more masks' := by
  rw [keptParts, List.zip_append h, List.filterMap_append]
  rfl

/-- The positions of a batch are filtered as the batch is, or are not recorded at all. -/
theorem keepPositions_eq_ok {kept all next : Option (List (List ℕ))} {index rows : ℕ} {mask : Mask}
    (hrecorded : kept.isSome = all.isSome) (hlen : ∀ ps ∈ all, (ps.getD index []).length = rows)
    (h : keepPositions kept all index mask = .ok next) : (kept = none ∧ all = none ∧ next = none) ∨
      ∃ ps qs, kept = some ps ∧ all = some qs ∧ next = some (ps ++ [pick (padded mask rows) (qs.getD index [])]) := by
  cases kept with
  | none =>
    refine .inl ⟨rfl, Option.isNone_iff_eq_none.mp (by simpa using hrecorded.symm), ?_⟩
    cases all <;> exact (Except.ok.inj h).symm
  | some ps =>
    obtain ⟨qs, rfl⟩ := Option.isSome_iff_exists.mp hrecorded.symm
    obtain ⟨picked, hpicked, rfl⟩ := map_eq_ok.mp h
    exact .inr ⟨ps, qs, rfl, rfl, by rw [filterArray_eq_ok hpicked, hlen qs rfl]⟩

/-- The positions of a batch are as many as its rows. -/
theorem length_positions (rows : Rows) {b : RecordBatch × ℕ} (hb : b ∈ rows.batches.zipIdx) :
    ∀ ps ∈ rows.positions, (ps.getD b.2 []).length = b.1.numRows := by
  intro ps hps
  have hpart := rows.aligned_parts _ (List.mem_map_of_mem hb)
  exact hpart.positions _ (by rw [Option.mem_def.mp hps]; rfl)

/-- Aligned rows with one aligned batch more. -/
theorem aligned_concat {batches : List RecordBatch} {ps : List (List ℕ)} (h : QueryEngine.aligned batches ps)
    {batch : RecordBatch} {more : List ℕ} (hmore : more.length = batch.numRows) :
    QueryEngine.aligned (batches ++ [batch]) (ps ++ [more]) := by
  rw [QueryEngine.aligned, List.map_append, List.map_append, h, List.map_singleton, List.map_singleton, hmore]

/-- **One batch more**: its positions are filtered as its rows are. -/
theorem Keeps.step {rows : Rows} {mask : ℕ → RecordBatch → Except String Mask} {done : List (RecordBatch × ℕ)}
    {kept next : Kept} {b : RecordBatch × ℕ} (hb : b ∈ rows.batches.zipIdx) (h : Keeps rows mask done kept)
    (hstep : rows.keepBatch mask kept b = .ok next) : Keeps rows mask (done ++ [b]) next := by
  obtain ⟨masks, hmasks, hparts⟩ := h.kept
  obtain ⟨m, hm, hstep⟩ := bind_eq_ok.mp hstep
  have hlen : (done.map rows.partAt).length = masks.length := by rw [List.length_map, hmasks.length_eq]
  have hall (hcovers : Covers (rows.partAt b) m) :
      List.Forall₂ (fun b m => mask b.2 b.1 = .ok m ∧ Covers (rows.partAt b) m) (done ++ [b]) (masks ++ [m]) :=
    List.rel_append hmasks (.cons ⟨hm, hcovers⟩ .nil)
  split at hstep
  · next hzero =>
    obtain rfl := Except.ok.inj hstep
    refine ⟨h.recorded, h.aligned, masks ++ [m], hall fun hne => absurd hzero hne, ?_⟩
    rw [List.map_append, keptParts_append hlen, hparts]
    simp [keptParts, hzero]
  · next hsome =>
    obtain ⟨batch, hbatch, hstep⟩ := bind_eq_ok.mp hstep
    obtain ⟨positions, hpositions, hnext⟩ := bind_eq_ok.mp hstep
    obtain rfl := Except.ok.inj hnext
    obtain ⟨hle, rfl⟩ := filterRecordBatch_eq_ok hbatch
    have hlast : keptParts [rows.partAt b] [m] = [(rows.partAt b).filter (padded m b.1.numRows)] := by
      simp [keptParts, hsome, partAt]
    have hcount : (b.1.filter (padded m b.1.numRows)).numRows = (padded m b.1.numRows).count true :=
      RecordBatch.numRows_filter (length_padded hle)
    obtain ⟨hkept, hrows, rfl⟩ | ⟨ps, qs, hkept, hrows, rfl⟩ :=
      keepPositions_eq_ok h.recorded (rows.length_positions hb) hpositions
    · refine ⟨by rw [hrows], nofun, masks ++ [m], hall fun _ => hle, ?_⟩
      rw [List.map_append, keptParts_append hlen, ← hparts, List.map_singleton, hlast, hkept, partsOf_append_none]
      simp [partsOf, partAt, ScannedBatch.filter, hrows]
    · have halign := h.aligned ps hkept
      have hpicked : (pick (padded m b.1.numRows) (qs.getD b.2 [])).length =
          (b.1.filter (padded m b.1.numRows)).numRows := by
        rw [hcount, length_pick (by rw [length_padded hle, rows.length_positions hb qs hrows])]
      refine ⟨by rw [hrows]; rfl, ?_, masks ++ [m], hall fun _ => hle, ?_⟩
      · rintro _ ⟨⟩
        exact aligned_concat halign hpicked
      · have hlength : ps.length = kept.batches.length := by simpa using congrArg List.length halign
        rw [List.map_append, keptParts_append hlen, ← hparts, List.map_singleton, hlast, hkept, partsOf_append hlength]
        simp [partsOf, partAt, ScannedBatch.filter, hrows]

/-- **The loop keeps what the masks select.** -/
theorem keeps_filterLoop {rows : Rows} {mask : ℕ → RecordBatch → Except String Mask} {kept : Kept}
    (h : rows.batches.zipIdx.foldlM (rows.keepBatch mask) ⟨[], rows.positions.map fun _ => []⟩ = .ok kept) :
    Keeps rows mask rows.batches.zipIdx kept := by
  refine foldlM_run h ⟨by simp, ?_, [], .nil, rfl⟩ fun done mid b next hb hmid hstep => hmid.step hb hstep
  intro ps hps
  obtain ⟨all, -, rfl⟩ := Option.map_eq_some_iff.mp hps
  rfl

/-- The rows that masks select in each batch, and their positions.  Batches that a mask empties are dropped. -/
def filter (rows : Rows) (mask : ℕ → RecordBatch → Except String Mask) : Except String Rows :=
  match h : rows.batches.zipIdx.foldlM (rows.keepBatch mask) ⟨[], rows.positions.map fun _ => []⟩ with
  | .ok kept => .ok ⟨kept.batches, kept.positions, (keeps_filterLoop h).aligned⟩
  | .error e => .error e

/-- **A filter keeps of each batch what its mask selects**, and drops the batches whose mask selects nothing. -/
theorem filter_eq_ok {rows kept : Rows} {mask : ℕ → RecordBatch → Except String Mask}
    (h : rows.filter mask = .ok kept) :
    ∃ masks, (rows.batches.zipIdx.mapM fun b => mask b.2 b.1) = .ok masks ∧ List.Forall₂ Covers rows.parts masks ∧
      kept.parts = keptParts rows.parts masks := by
  unfold filter at h
  split at h
  · next found hfound =>
    obtain rfl := Except.ok.inj h
    obtain ⟨masks, hmasks, hparts⟩ := (keeps_filterLoop hfound).kept
    refine ⟨masks, mapM_eq_ok.mpr (hmasks.imp fun _ _ hm => hm.1), ?_, hparts⟩
    exact List.forall₂_map_left_iff.mpr (hmasks.imp fun _ _ hm => hm.2)
  · exact absurd h nofun

/-- The columns of some names, in their order.  Every row keeps its position. -/
def project (rows : Rows) (columns : List String) : Rows where
  batches := rows.batches.map fun batch => batch.outputs columns
  positions := rows.positions
  aligned := by
    intro ps hps
    rw [QueryEngine.aligned, List.map_map]
    exact rows.aligned ps hps

/-- A projection leaves each batch its positions. -/
theorem parts_project (rows : Rows) (columns : List String) :
    (rows.project columns).parts = rows.parts.map fun part => { part with batch := part.batch.outputs columns } := by
  rw [parts, parts, partsOf, partsOf, project, List.zipIdx_map, List.map_map, List.map_map]
  rfl

theorem aligned_append {batches more : List RecordBatch} {ps qs : List (List ℕ)} (h : QueryEngine.aligned batches ps)
    (hmore : QueryEngine.aligned more qs) : QueryEngine.aligned (batches ++ more) (ps ++ qs) := by
  rw [QueryEngine.aligned, List.map_append, List.map_append, h, hmore]

/-- Another table's rows after these: the rows as they are then, and whether they were refused. -/
def append (rows other : Rows) : Rows × Except String Unit :=
  if other.batches = [] then (rows, .ok ())
  else if rows.batches = [] then (other, .ok ())
  else
    match hmine : rows.positions, htheirs : other.positions with
    | some mine, some theirs => (⟨rows.batches ++ other.batches, some (mine ++ theirs), by
        rintro _ ⟨⟩
        exact aligned_append (rows.aligned mine hmine) (other.aligned theirs htheirs)⟩, .ok ())
    | none, none => (⟨rows.batches ++ other.batches, none, nofun⟩, .ok ())
    | some _, none => (rows, .error "rows with positions and rows without cannot be merged")
    | none, some _ => (rows, .error "rows with positions and rows without cannot be merged")

/-- **An append puts the batches after these**, each with its positions, or is refused and leaves the rows. -/
theorem append_outcome (rows other : Rows) :
    ((rows.append other).2 = .ok () ∧ (rows.append other).1.parts = rows.parts ++ other.parts) ∨
      ((∃ e, (rows.append other).2 = .error e) ∧ (rows.append other).1 = rows) := by
  generalize hresult : rows.append other = result
  unfold append at hresult
  split_ifs at hresult with hother hrows
  · subst hresult
    exact .inl ⟨rfl, by simp [parts, partsOf, hother]⟩
  · subst hresult
    exact .inl ⟨rfl, by simp [parts, partsOf, hrows]⟩
  · split at hresult
    · next mine theirs hmine htheirs =>
      subst hresult
      have hlen : mine.length = rows.batches.length := by simpa using congrArg List.length (rows.aligned mine hmine)
      refine .inl ⟨rfl, (partsOf_append hlen).trans ?_⟩
      rw [parts, parts, hmine, htheirs]
    · next hmine htheirs =>
      subst hresult
      refine .inl ⟨rfl, (partsOf_append_none _ _).trans ?_⟩
      rw [parts, parts, hmine, htheirs]
    · subst hresult
      exact .inr ⟨⟨_, rfl⟩, rfl⟩
    · subst hresult
      exact .inr ⟨⟨_, rfl⟩, rfl⟩

/-- **A refused append leaves the rows as they were.** -/
theorem append_refused {rows other : Rows} {e : String} (h : (rows.append other).2 = .error e) :
    (rows.append other).1 = rows := by
  obtain ⟨hok, -⟩ | ⟨-, hsame⟩ := append_outcome rows other
  · rw [hok] at h
    exact absurd h nofun
  · exact hsame

end Rows

/-! ## Collected scans -/

namespace Scanned

/-- The batches, each with its positions and its mark of each tag. -/
def parts (scanned : Scanned) : List ScannedBatch :=
  scanned.rows.batches.zipIdx.map fun b =>
    { scanned.rows.partAt b with tags := scanned.tags.map fun tag => tag.2.getD b.2 [] }

/-- Every tag marks every row of every batch once. -/
def TagsAligned (scanned : Scanned) : Prop :=
  ∀ tag ∈ scanned.tags, tag.2.map List.length = scanned.rows.batches.map RecordBatch.numRows

section Collect

variable {request : ScanRequest} {parts : List ScannedBatch} {scanned : Scanned}

/-- Parts that are collected carry what the request asks of them. -/
theorem complete_of_collect (haligned : ∀ part ∈ parts, part.Aligned) (h : collect request parts = .ok scanned) :
    ∀ part ∈ parts, part.Complete request := by
  obtain ⟨collected, hcollected, -⟩ := bind_eq_ok.mp h
  have hrun := foldlM_run (P := fun done collected => collected.tags.length = request.itemTags.length ∧
    (request.positions = true → collected.positions.isSome = true) ∧ ∀ part ∈ done, part.Complete request) hcollected
      ?_ ?_
  · exact hrun.2.2
  · refine ⟨List.length_map .., fun hasked => by rw [if_pos hasked]; rfl, nofun⟩
  · rintro done mid part next hpart ⟨htags, hpositions, hdone⟩ hpush
    unfold Collected.push at hpush
    split at hpush
    · exact absurd hpush nofun
    · next hlen =>
      have hlen : part.tags.length = mid.tags.length := not_not.mp hlen
      have hcomplete (hplaced : request.positions = true → part.positions.isSome = true) :
          ∀ p ∈ done ++ [part], p.Complete request := List.forall_mem_append.mpr
        ⟨hdone, List.forall_mem_singleton.mpr ⟨haligned part hpart, hlen.trans htags, hplaced⟩⟩
      have hzip : (List.zipWith (fun masks mask => masks ++ [mask]) mid.tags part.tags).length =
          request.itemTags.length := by
        rw [List.length_zipWith, hlen, Nat.min_self, htags]
      split at hpush
      · exact absurd hpush nofun
      · next positions recorded hmid hrecorded =>
        obtain rfl := Except.ok.inj hpush
        exact ⟨hzip, fun _ => rfl, hcomplete fun _ => by rw [hrecorded]; rfl⟩
      · next hmid =>
        obtain rfl := Except.ok.inj hpush
        have hnot : request.positions ≠ true := fun hasked => by
          have hsome := hpositions hasked
          rw [hmid] at hsome
          exact absurd hsome nofun
        exact ⟨hzip, fun hasked => absurd hasked hnot, hcomplete fun hasked => absurd hasked hnot⟩

/-- What is kept of a part that is collected: its positions where the request asks for them. -/
def collected (request : ScanRequest) (part : ScannedBatch) : ScannedBatch :=
  { part with positions := if request.positions then part.positions else none }

/-- **A collected scan holds its parts one after the other**, with their positions and tags. -/
theorem parts_collect (haligned : ∀ part ∈ parts, part.Aligned) (h : collect request parts = .ok scanned) :
    scanned.TagsAligned ∧ scanned.parts = parts.map (collected request) := by
  have hcomplete := complete_of_collect haligned h
  obtain ⟨rows, hcollect, hbatches, hpositions⟩ := collect_eq hcomplete
  obtain rfl := Except.ok.inj (hcollect.symm.trans h)
  have hlen : ((List.range request.itemTags.length).map (masksOf parts)).length = request.itemTags.length := by simp
  constructor
  · intro tag htag
    obtain ⟨k, hk, hmask⟩ := List.mem_map.mp (List.of_mem_zip htag).2
    rw [← hmask, masksOf, hbatches, List.map_map, List.map_map]
    refine List.map_congr_left fun part hpart => ?_
    have hlt : k < part.tags.length := (hcomplete part hpart).tags ▸ List.mem_range.mp hk
    rw [Function.comp_apply, Function.comp_apply, List.getD_eq_getElem _ _ hlt]
    exact (haligned part hpart).tags _ (List.getElem_mem hlt)
  · refine List.ext_getElem? fun k => ?_
    rw [Scanned.parts, List.getElem?_map, List.getElem?_zipIdx, List.getElem?_map, hbatches, List.getElem?_map]
    cases hpart : parts[k]? with
    | none => rfl
    | some part =>
      have hwhole := hcomplete part (List.mem_of_getElem? hpart)
      have hplace : rows.positions.map (fun ps => ps.getD k []) = if request.positions then part.positions else
          none := by
        rw [hpositions]
        split
        · next hasked =>
          obtain ⟨ps, hps⟩ := Option.isSome_iff_exists.mp (hwhole.positions hasked)
          simp [List.getD_eq_getElem?_getD, hpart, hps]
        · rfl
      have htags : (request.itemTags.zip ((List.range request.itemTags.length).map (masksOf parts))).map
          (fun tag => tag.2.getD k []) = part.tags := by
        have hsnd := List.map_map (f := Prod.snd) (g := fun masks : List (List Bool) => masks.getD k [])
          (l := request.itemTags.zip ((List.range request.itemTags.length).map (masksOf parts)))
        rw [List.map_snd_zip (by rw [hlen]), List.map_map] at hsnd
        refine hsnd.symm.trans (List.ext_getElem (by simp [hwhole.tags]) fun tag hlt hlt' => ?_)
        simp [masksOf, List.getD_eq_getElem?_getD, hpart, hlt']
      simp only [Option.map_some, Nat.zero_add, Rows.partAt, collected, hplace, htags]

end Collect

end Scanned

/-! ## What each batch holds of the rows first read -/

/-- **What is left of the rows first read**: whether their positions and their marks of tags are, and the columns asked
of them, one projection after the other. -/
structure View where
  positions : Bool
  tags : Bool
  projections : List (List String)

/-- The cells of some columns, in their order. -/
def projected (values : List (String × Option Cell)) (columns : List String) : List (String × Option Cell) :=
  columns.filterMap fun name => values.find? fun v => v.1 == name

namespace View

/-- What is left of a row. -/
def of (view : View) (first : ScannedRow) : ScannedRow where
  values := view.projections.foldl projected first.values
  position := if view.positions then first.position else none
  tags := if view.tags then first.tags else []

end View

/-- Rows first read, and what is left of each. -/
abbrev Held := View × List ScannedRow

/-- **A batch holds rows first read**, in order: of each exactly what is left, and positions where any are. -/
structure Holds (part : ScannedBatch) (held : Held) : Prop where
  rows : part.rows = held.2.map held.1.of
  positions : part.positions.isSome = held.1.positions

/-- What a batch is read as. -/
def ScannedBatch.held (part : ScannedBatch) : Held := (⟨part.positions.isSome, true, []⟩, part.rows)

/-- A row of a batch. -/
def ScannedBatch.rowAt (part : ScannedBatch) (i : ℕ) : ScannedRow :=
  ⟨part.batch.values i, part.positions.bind (·[i]?), part.tags.map (·[i]?)⟩

theorem holds_self (part : ScannedBatch) : Holds part part.held := by
  refine ⟨?_, rfl⟩
  have hself : part.rows = part.rows.map id := (List.map_id _).symm
  rw [ScannedBatch.held, hself, List.map_map]
  refine List.map_congr_left fun row hrow => ?_
  obtain ⟨i, -, rfl⟩ := List.mem_map.mp hrow
  refine congrArg (fun position => (⟨part.batch.values i, position, part.tags.map (·[i]?)⟩ : ScannedRow)) ?_
  cases part.positions <;> rfl

/-- The cells of a projected batch. -/
theorem values_outputs (batch : RecordBatch) (columns : List String) (i : ℕ) :
    (batch.outputs columns).values i = projected (batch.values i) columns := by
  rw [RecordBatch.values, RecordBatch.outputs, List.map_filterMap, projected]
  refine List.filterMap_congr fun name _ => ?_
  rw [RecordBatch.values, List.find?_map, RecordBatch.columnByName]
  change _ = Option.map (fun c : String × Column => (c.1, c.2.cells[i]?)) (batch.columns.find? fun c => c.1 == name)
  cases hfound : batch.columns.find? fun c => c.1 == name with
  | none => rfl
  | some c =>
    have hname : (c.1 == name) = true := @List.find?_some _ (fun c : String × Column => c.1 == name) _ _ hfound
    rw [← beq_iff_eq.mp hname]
    rfl

section Kinds

variable {part : ScannedBatch} {view : View} {source : List ScannedRow}

/-- A filtered batch holds what is picked. -/
theorem Holds.filter (h : Holds part (view, source)) (haligned : part.Aligned) {keep : List Bool}
    (hlen : keep.length = part.batch.numRows) : Holds (part.filter keep) (view, pick keep source) := by
  refine ⟨?_, ?_⟩
  · rw [ScannedBatch.rows_filter haligned hlen, h.rows, pick_map]
  · rw [← h.positions, ScannedBatch.filter, Option.isSome_map]

/-- A batch of as many rows holds the same rows where of each is left what another view leaves. -/
theorem Holds.of_rows {part' : ScannedBatch} {view' : View} (h : Holds part (view, source))
    (hnum : part'.batch.numRows = part.batch.numRows) (hpositions : part'.positions.isSome = view'.positions)
    (hrow : ∀ i first, part.rowAt i = view.of first → part'.rowAt i = view'.of first) : Holds part' (view', source) :=
      by
  have hrows : (List.range part.batch.numRows).map part.rowAt = source.map view.of := h.rows
  rw [← List.forall₂_eq_eq_eq, List.forall₂_map_left_iff, List.forall₂_map_right_iff] at hrows
  refine ⟨?_, hpositions⟩
  change (List.range part'.batch.numRows).map part'.rowAt = source.map view'.of
  rw [hnum, ← List.forall₂_eq_eq_eq, List.forall₂_map_left_iff, List.forall₂_map_right_iff]
  exact hrows.imp hrow

/-- A projected batch holds the columns asked. -/
theorem Holds.project (h : Holds part (view, source)) (columns : List String) :
    Holds { part with batch := part.batch.outputs columns }
      ({ view with projections := view.projections ++ [columns] }, source) := by
  refine h.of_rows rfl h.positions fun i first hrow => ?_
  have hvalues := congrArg ScannedRow.values hrow
  have hposition := congrArg ScannedRow.position hrow
  have htags := congrArg ScannedRow.tags hrow
  dsimp only [ScannedBatch.rowAt, View.of] at hvalues hposition htags ⊢
  rw [values_outputs, hvalues, hposition, htags, List.foldl_append, List.foldl_cons, List.foldl_nil]

/-- A batch without its tags holds the rest. -/
theorem Holds.untag (h : Holds part (view, source)) :
    Holds { part with tags := [] } ({ view with tags := false }, source) := by
  refine h.of_rows rfl h.positions fun i first hrow => ?_
  have hvalues := congrArg ScannedRow.values hrow
  have hposition := congrArg ScannedRow.position hrow
  dsimp only [ScannedBatch.rowAt, View.of] at hvalues hposition ⊢
  rw [hvalues, hposition]
  rfl

/-- So does a batch that is collected, with its positions where they are asked for. -/
theorem Holds.collected (h : Holds part (view, source)) {request : ScanRequest}
    (hasked : request.positions = true → part.positions.isSome = true) :
    Holds (Scanned.collected request part) ({ view with positions := request.positions }, source) := by
  unfold Scanned.collected
  cases hpositions : request.positions with
  | true =>
    have hview : view.positions = true := h.positions.symm.trans (hasked hpositions)
    rw [if_pos rfl]
    exact ⟨by rw [h.rows, ← hview], hasked hpositions⟩
  | false =>
    refine h.of_rows rfl rfl fun i first hrow => ?_
    have hvalues := congrArg ScannedRow.values hrow
    have htags := congrArg ScannedRow.tags hrow
    dsimp only [ScannedBatch.rowAt, View.of] at hvalues htags ⊢
    rw [hvalues, htags]
    rfl

end Kinds

/-- The rows that masks select of each batch's; batches that a mask empties are dropped. -/
def keptHeld (held : List Held) (masks : List Mask) : List Held :=
  (held.zip masks).filterMap fun p =>
    if (Mask.kept p.2).count true = 0 then none else some (p.1.1, pick (Mask.kept p.2) p.1.2)

/-- **Filtered batches hold the rows that their masks select.** -/
theorem holds_keptParts {parts : List ScannedBatch} {held : List Held} {masks : List Mask}
    (h : List.Forall₂ Holds parts held) (haligned : ∀ part ∈ parts, part.Aligned)
    (hcovers : List.Forall₂ Rows.Covers parts masks) :
    List.Forall₂ Holds (Rows.keptParts parts masks) (keptHeld held masks) := by
  induction h generalizing masks with
  | nil => exact .nil
  | @cons part source parts sources hpart _ ih =>
    cases hcovers with
    | @cons _ m _ masks hm hmasks =>
      have hrest := ih (fun p hp => haligned p (List.mem_cons_of_mem _ hp)) hmasks
      unfold Rows.keptParts keptHeld at hrest ⊢
      rw [List.zip_cons_cons, List.zip_cons_cons, List.filterMap_cons, List.filterMap_cons]
      by_cases hzero : (Mask.kept m).count true = 0
      · simpa only [hzero, if_true] using hrest
      · simp only [hzero, if_false]
        refine .cons ?_ hrest
        have hfilter := hpart.filter (haligned part (List.mem_cons_self ..)) (length_padded (hm hzero))
        rwa [pick_padded] at hfilter

/-! ## Operations that go through -/

section GoesThrough

theorem exists_foldlM {α σ ε : Type} {f : σ → α → Except ε σ} : ∀ {xs : List α} {s : σ},
    (∀ x ∈ xs, ∀ s, ∃ t, f s x = .ok t) → ∃ t, xs.foldlM f s = .ok t
  | [], s, _ => ⟨s, rfl⟩
  | x :: xs, s, h => by
    obtain ⟨t, ht⟩ := h x List.mem_cons_self s
    obtain ⟨u, hu⟩ := @exists_foldlM _ _ _ f xs t fun y hy => h y (List.mem_cons_of_mem _ hy)
    exact ⟨u, by rw [List.foldlM_cons]; exact bind_eq_ok.mpr ⟨t, ht, hu⟩⟩

theorem exists_filterArray {α : Type} {xs : List α} {mask : Mask} (h : mask.length ≤ xs.length) :
    ∃ kept, filterArray xs mask = .ok kept :=
  ⟨_, map_eq_ok.mpr ⟨_, selectedRows_eq_ok.mpr ⟨h, rfl⟩, rfl⟩⟩

/-- **A mask no longer than a batch filters it.** -/
theorem ScannedBatch.exists_filterMask {part : ScannedBatch} (h : part.Aligned) {mask : Mask}
    (hfits : mask.length ≤ part.batch.numRows) : ∃ kept, part.filterMask mask = .ok kept := by
  obtain ⟨positions, hpositions⟩ : ∃ positions, filterPositions part.positions mask = .ok positions := by
    cases hps : part.positions with
    | none => exact ⟨none, rfl⟩
    | some ps =>
      obtain ⟨kept, hkept⟩ := exists_filterArray (hfits.trans (h.positions ps hps).ge)
      exact ⟨some kept, map_eq_ok.mpr ⟨kept, hkept, rfl⟩⟩
  have htags : ∀ tag ∈ part.tags, ∃ kept, filterArray tag mask = .ok kept := fun tag htag =>
    exists_filterArray (hfits.trans (h.tags tag htag).ge)
  choose! kept hkept using htags
  have hall : part.tags.mapM (fun tag => filterArray tag mask) = .ok (part.tags.map kept) :=
    mapM_eq_ok.mpr (List.forall₂_map_right_iff.mpr (List.forall₂_same.mpr hkept))
  obtain ⟨batch, hbatch⟩ : ∃ batch, filterRecordBatch part.batch mask = .ok batch :=
    ⟨_, map_eq_ok.mpr ⟨_, selectedRows_eq_ok.mpr ⟨hfits, rfl⟩, rfl⟩⟩
  exact ⟨⟨batch, positions, part.tags.map kept⟩,
    bind_eq_ok.mpr ⟨positions, hpositions, bind_eq_ok.mpr ⟨_, hall, bind_eq_ok.mpr ⟨batch, hbatch, rfl⟩⟩⟩⟩

namespace Rows

/-- **Masks no longer than their batches are never refused.** -/
theorem exists_filter {rows : Rows} {mask : ℕ → RecordBatch → Except String Mask}
    (h : ∀ b ∈ rows.batches.zipIdx, ∃ m, mask b.2 b.1 = .ok m ∧ m.length ≤ b.1.numRows) :
    ∃ kept, rows.filter mask = .ok kept := by
  obtain ⟨kept, hkept⟩ := @exists_foldlM _ _ _ (rows.keepBatch mask) rows.batches.zipIdx
    ⟨[], rows.positions.map fun _ => []⟩ fun b hb s => by
      obtain ⟨m, hm, hfits⟩ := h b hb
      by_cases hnone : (Mask.kept m).count true = 0
      · exact ⟨s, by rw [keepBatch, hm]; exact if_pos hnone⟩
      · obtain ⟨positions, hpositions⟩ : ∃ positions, keepPositions s.positions rows.positions b.2 m =
          .ok positions := by
          unfold keepPositions
          cases hs : s.positions with
          | none => exact ⟨_, rfl⟩
          | some ps =>
            cases hall : rows.positions with
            | none => exact ⟨_, rfl⟩
            | some all =>
              obtain ⟨picked, hpicked⟩ := exists_filterArray (hfits.trans (rows.length_positions hb all hall).ge)
              exact ⟨_, by dsimp only; rw [hpicked]; rfl⟩
        refine ⟨⟨s.batches ++ [b.1.filter (padded m b.1.numRows)], positions⟩, ?_⟩
        rw [keepBatch, hm]
        refine (if_neg hnone).trans (bind_eq_ok.mpr ⟨_, ?_, bind_eq_ok.mpr ⟨positions, hpositions, rfl⟩⟩)
        exact map_eq_ok.mpr ⟨_, selectedRows_eq_ok.mpr ⟨hfits, rfl⟩, rfl⟩
  unfold filter
  split
  · exact ⟨_, rfl⟩
  · next e herror =>
    rw [hkept] at herror
    cases herror

/-- **Rows with positions and rows without do not mix**, unless one side has no batches. -/
theorem append_ok_iff (rows other : Rows) : (rows.append other).2 = .ok () ↔
    other.batches = [] ∨ rows.batches = [] ∨ rows.positions.isSome = other.positions.isSome := by
  generalize hresult : rows.append other = result
  unfold append at hresult
  split_ifs at hresult with hother hrows
  · subst hresult
    simp [hother]
  · subst hresult
    simp [hrows]
  · split at hresult
    all_goals
      next hmine htheirs =>
      subst hresult
      simp [hother, hrows, hmine, htheirs]

end Rows

end GoesThrough

/-! ## Sequences of operations -/

/-- What a run of operations has made: batches of a scan, collected scans and tables, each beside the rows first read
that it is to hold and what is left of them, batch by batch.  What an operation takes stays, as if it had been copied
first. -/
structure Store where
  parts : List (ScannedBatch × Held)
  scans : List (Scanned × List Held)
  tables : List (Rows × List Held)

/-- An operation on what has been made so far. -/
inductive Operation
  /-- A reader returns a batch. -/
  | read (part : ScannedBatch) (aligned : part.Aligned)
  /-- A table of batches, with a position for every row or without positions. -/
  | readRows (rows : Rows)
  | filterPart (i : ℕ) (mask : Mask)
  | split (i size : ℕ)
  | collect (request : ScanRequest) (is : List ℕ)
  | intoRows (i : ℕ)
  | filterRows (i : ℕ) (mask : ℕ → RecordBatch → Except String Mask)
  | project (i : ℕ) (columns : List String)
  | append (i j : ℕ)

namespace Store

/-- Nothing made yet. -/
def empty : Store := ⟨[], [], []⟩

/-- A filtered batch is to hold the rows that the mask selects. -/
def filterPart (s : Store) (i : ℕ) (mask : Mask) : Option (ScannedBatch × Held) := do
  let (part, held) ← s.parts[i]?
  let kept ← (part.filterMask mask).toOption
  some (kept, held.1, pick (Mask.kept mask) held.2)

/-- The pieces of a split are to hold the rows in their order. -/
def split (s : Store) (i size : ℕ) : List (ScannedBatch × Held) :=
  match s.parts[i]? with
  | some (part, held) =>
    (part.split size).zip ((cut ((part.split size).map fun piece => piece.batch.numRows) held.2).map fun rows =>
      (held.1, rows))
  | none => []

/-- A collected scan is to hold what its parts do, batch by batch: with their positions where they are asked for. -/
def collect (s : Store) (request : ScanRequest) (is : List ℕ) : Option (Scanned × List Held) := do
  let parts ← is.mapM (s.parts[·]?)
  let scanned ← (Scanned.collect request (parts.map Prod.fst)).toOption
  some (scanned, parts.map fun p => ({ p.2.1 with positions := request.positions }, p.2.2))

/-- The rows of a scan are to hold what it did, without the tags. -/
def intoRows (s : Store) (i : ℕ) : Option (Rows × List Held) :=
  s.scans[i]?.map fun p => (p.1.rows, p.2.map fun held => ({ held.1 with tags := false }, held.2))

/-- Filtered rows are to hold what the masks select of each batch. -/
def filterRows (s : Store) (i : ℕ) (mask : ℕ → RecordBatch → Except String Mask) : Option (Rows × List Held) := do
  let (rows, held) ← s.tables[i]?
  let masks ← (rows.batches.zipIdx.mapM fun b => mask b.2 b.1).toOption
  let kept ← (rows.filter mask).toOption
  some (kept, keptHeld held masks)

/-- Projected rows are to hold the columns asked. -/
def project (s : Store) (i : ℕ) (columns : List String) : Option (Rows × List Held) :=
  s.tables[i]?.map fun p => (p.1.project columns,
    p.2.map fun held => ({ held.1 with projections := held.1.projections ++ [columns] }, held.2))

/-- A table is to hold another's rows after its own, unless it refused them. -/
def append (s : Store) (i j : ℕ) : List (Rows × List Held) :=
  match s.tables[i]?, s.tables[j]? with
  | some mine, some theirs =>
    let result := mine.1.append theirs.1
    s.tables.set i (result.1, if result.2.isOk then mine.2 ++ theirs.2 else mine.2)
  | _, _ => s.tables

/-- **One operation.**  One on what is not there, or that is refused, makes nothing. -/
def step (s : Store) : Operation → Store
  | .read part _ => { s with parts := s.parts ++ [(part, part.held)] }
  | .readRows rows => { s with tables := s.tables ++ [(rows, rows.parts.map ScannedBatch.held)] }
  | .filterPart i mask => { s with parts := s.parts ++ (s.filterPart i mask).toList }
  | .split i size => { s with parts := s.parts ++ s.split i size }
  | .collect request is => { s with scans := s.scans ++ (s.collect request is).toList }
  | .intoRows i => { s with tables := s.tables ++ (s.intoRows i).toList }
  | .filterRows i mask => { s with tables := s.tables ++ (s.filterRows i mask).toList }
  | .project i columns => { s with tables := s.tables ++ (s.project i columns).toList }
  | .append i j => { s with tables := s.append i j }

/-- A sequence of operations. -/
def run (operations : List Operation) : Store := operations.foldl step empty

end Store

/-- The rows that an operation reads for the first time. -/
def Operation.rowsRead : Operation → List (List ScannedRow)
  | .read part _ => [part.rows]
  | .readRows rows => rows.parts.map ScannedBatch.rows
  | _ => []

/-- Rows that are, in order, some of the rows of a batch read. -/
def FromRead (read : List (List ScannedRow)) (source : List ScannedRow) : Prop := ∃ first ∈ read, source.Sublist first

theorem FromRead.mono {read more : List (List ScannedRow)} {source : List ScannedRow} (h : FromRead read source)
    (hmore : read ⊆ more) : FromRead more source :=
  let ⟨first, hfirst, hsub⟩ := h
  ⟨first, hmore hfirst, hsub⟩

theorem FromRead.sublist {read : List (List ScannedRow)} {source less : List ScannedRow} (h : FromRead read source)
    (hless : less.Sublist source) : FromRead read less :=
  let ⟨first, hfirst, hsub⟩ := h
  ⟨first, hfirst, hless.trans hsub⟩

/-- A batch of a scan has one position and one mark of each tag for every row, and holds of its rows what is left. -/
structure PartSound (read : List (List ScannedRow)) (p : ScannedBatch × Held) : Prop where
  aligned : p.1.Aligned
  holds : Holds p.1 p.2
  source : FromRead read p.2.2

/-- A table has one position for every row of every batch, and each batch holds of its rows what is left. -/
structure TableSound (read : List (List ScannedRow)) (p : Rows × List Held) : Prop where
  aligned : ∀ ps ∈ p.1.positions, aligned p.1.batches ps
  holds : List.Forall₂ Holds p.1.parts p.2
  source : ∀ held ∈ p.2, FromRead read held.2

/-- A collected scan has one position and one mark of each tag for every row of every batch, and each batch holds of its
rows what is left. -/
structure ScanSound (read : List (List ScannedRow)) (p : Scanned × List Held) : Prop where
  aligned : ∀ ps ∈ p.1.rows.positions, aligned p.1.rows.batches ps
  tags : p.1.TagsAligned
  holds : List.Forall₂ Holds p.1.parts p.2
  source : ∀ held ∈ p.2, FromRead read held.2

/-- **Rows stay aligned** in everything that has been made. -/
structure Store.Sound (read : List (List ScannedRow)) (s : Store) : Prop where
  parts : ∀ p ∈ s.parts, PartSound read p
  scans : ∀ p ∈ s.scans, ScanSound read p
  tables : ∀ p ∈ s.tables, TableSound read p

/-- **What fits goes through**: masks no longer than the batches they filter, parts that carry what a request asks of
them, and tables of which both have positions or neither has. -/
structure Store.GoesThrough (s : Store) : Prop where
  filterPart : ∀ (i : ℕ) p mask, s.parts[i]? = some p → mask.length ≤ p.1.batch.numRows → (s.filterPart i mask).isSome
  split : ∀ (i : ℕ) p size, s.parts[i]? = some p → (s.split i size).map Prod.fst = p.1.split size ∧
    (s.split i size).flatMap (fun piece => piece.2.2) = p.2.2 ∧
    ∀ piece ∈ s.split i size, piece.1.batch.numRows ≤ max size 1
  collect : ∀ request is, (∀ i ∈ is, ∃ p, s.parts[i]? = some p ∧ p.1.Complete request) → (s.collect request is).isSome
  filterRows : ∀ (i : ℕ) p mask, s.tables[i]? = some p → (∀ b ∈ p.1.batches.zipIdx, ∃ m, mask b.2 b.1 = .ok m ∧
    m.length ≤ b.1.numRows) → (s.filterRows i mask).isSome
  append : ∀ (i j : ℕ) mine theirs, s.tables[i]? = some mine → s.tables[j]? = some theirs →
    (theirs.1.batches = [] ∨ mine.1.batches = [] ∨ mine.1.positions.isSome = theirs.1.positions.isSome) →
    ∃ rows, (s.append i j)[i]? = some (rows, mine.2 ++ theirs.2)

namespace Store

section Steps

variable {read : List (List ScannedRow)} {s : Store}

/-- What is sound of the rows read is sound of more of them. -/
theorem Sound.mono (h : s.Sound read) {more : List (List ScannedRow)} (hmore : read ⊆ more) : s.Sound more where
  parts p hp := ⟨(h.parts p hp).aligned, (h.parts p hp).holds, (h.parts p hp).source.mono hmore⟩
  scans p hp := ⟨(h.scans p hp).aligned, (h.scans p hp).tags, (h.scans p hp).holds,
    fun held hheld => ((h.scans p hp).source held hheld).mono hmore⟩
  tables p hp := ⟨(h.tables p hp).aligned, (h.tables p hp).holds,
    fun held hheld => ((h.tables p hp).source held hheld).mono hmore⟩

theorem ok_of_toOption {α : Type} {result : Except String α} {a : α} (h : result.toOption = some a) : result =
    .ok a := by
  cases result with
  | error e => exact absurd h nofun
  | ok b => exact congrArg Except.ok (Option.some.inj h)

theorem sound_filterPart (h : s.Sound read) {i : ℕ} {mask : Mask} : ∀ p ∈ s.filterPart i mask, PartSound read p := by
  intro p hp
  obtain ⟨⟨part, held⟩, hpart, hp⟩ := Option.bind_eq_some_iff.mp hp
  obtain ⟨kept, hkept, hp⟩ := Option.bind_eq_some_iff.mp hp
  obtain rfl := Option.some.inj hp
  obtain ⟨haligned, hholds, hsource⟩ := h.parts _ (List.mem_of_getElem? hpart)
  obtain ⟨hle, rfl⟩ := ScannedBatch.filterMask_eq_ok haligned (ok_of_toOption hkept)
  have hlen := length_padded hle
  have hfilter := Holds.filter hholds haligned hlen
  rw [pick_padded] at hfilter
  exact ⟨haligned.filter hlen, hfilter, hsource.sublist (sublist_pick _ _)⟩

/-- A list cut into pieces is so element by element. -/
theorem cut_map {α β : Type} (f : α → β) : ∀ (ns : List ℕ) (xs : List α), cut ns (xs.map f) = (cut ns xs).map
    (List.map f)
  | [], _ => rfl
  | n :: ns, xs => by
    rw [cut, cut, List.map_cons, List.map_take, ← List.map_drop, cut_map f ns]

/-- The pieces of a split hold the rows in their order. -/
theorem holds_split {part : ScannedBatch} {held : Held} (haligned : part.Aligned) (hholds : Holds part held)
    (size : ℕ) :
    List.Forall₂ (fun piece rows => Holds piece (held.1, rows)) (part.split size)
      (cut ((part.split size).map fun piece => piece.batch.numRows) held.2) := by
  have hcut := ScannedBatch.rows_split_eq_cut haligned size
  rw [hholds.rows, cut_map, ← List.forall₂_eq_eq_eq, List.forall₂_map_left_iff, List.forall₂_map_right_iff] at hcut
  refine forall₂_imp_mem hcut fun piece hpiece rows hrows => ⟨hrows, ?_⟩
  rw [← hholds.positions]
  exact ScannedBatch.positions_split part size piece hpiece

theorem sound_split (h : s.Sound read) {i size : ℕ} : ∀ p ∈ s.split i size, PartSound read p := by
  intro p hp
  unfold split at hp
  split at hp
  · next part held hpart =>
    obtain ⟨haligned, hholds, hsource⟩ := h.parts _ (List.mem_of_getElem? hpart)
    have hpieces := holds_split haligned hholds size
    rw [List.zip_map_right] at hp
    obtain ⟨⟨piece, rows⟩, hpair, rfl⟩ := List.mem_map.mp hp
    have hlengths : ((part.split size).map fun piece => piece.batch.numRows).sum = held.2.length := by
      have hrows := congrArg List.length hholds.rows
      rw [← ScannedBatch.rows_split haligned size, List.length_flatMap, List.length_map] at hrows
      simpa using hrows
    refine ⟨haligned.split size piece (List.of_mem_zip hpair).1, (List.forall₂_iff_zip.mp hpieces).2 hpair, ?_⟩
    refine hsource.sublist ?_
    rw [← flatten_cut hlengths]
    exact List.sublist_flatten_of_mem (List.of_mem_zip hpair).2
  · exact absurd hp List.not_mem_nil

theorem sound_collect (h : s.Sound read) {request : ScanRequest} {is : List ℕ} :
    ∀ p ∈ s.collect request is, ScanSound read p := by
  intro p hp
  obtain ⟨parts, hparts, hp⟩ := Option.bind_eq_some_iff.mp hp
  obtain ⟨scanned, hscanned, hp⟩ := Option.bind_eq_some_iff.mp hp
  obtain rfl := Option.some.inj hp
  have hsound : ∀ q ∈ parts, PartSound read q := by
    intro q hq
    obtain ⟨n, hn⟩ := List.mem_iff_getElem?.mp hq
    obtain ⟨-, hnone⟩ | ⟨i, q', -, hq', hi⟩ := getElem?_of_forall₂ (mapM_eq_some.mp hparts) n
    · exact absurd (hnone.symm.trans hn) nofun
    · obtain rfl := Option.some.inj (hq'.symm.trans hn)
      exact h.parts q' (List.mem_of_getElem? hi)
  have haligned : ∀ part ∈ parts.map Prod.fst, part.Aligned := by
    intro part hpart
    obtain ⟨q, hq, rfl⟩ := List.mem_map.mp hpart
    exact (hsound q hq).aligned
  have hcomplete := Scanned.complete_of_collect haligned (ok_of_toOption hscanned)
  obtain ⟨htags, hcollected⟩ := Scanned.parts_collect haligned (ok_of_toOption hscanned)
  refine ⟨scanned.rows.aligned, htags, ?_, fun held hheld => ?_⟩
  · rw [hcollected, List.map_map, List.forall₂_map_left_iff, List.forall₂_map_right_iff]
    refine List.forall₂_same.mpr fun q hq => (hsound q hq).holds.collected fun hasked => ?_
    exact (hcomplete q.1 (List.mem_map_of_mem hq)).positions hasked
  · obtain ⟨q, hq, rfl⟩ := List.mem_map.mp hheld
    exact (hsound q hq).source

theorem sound_intoRows (h : s.Sound read) {i : ℕ} : ∀ p ∈ s.intoRows i, TableSound read p := by
  intro p hp
  obtain ⟨q, hq, rfl⟩ := Option.map_eq_some_iff.mp hp
  obtain ⟨haligned, -, hholds, hsource⟩ := h.scans q (List.mem_of_getElem? hq)
  have hparts : q.1.rows.parts = q.1.parts.map fun part => { part with tags := [] } := by
    rw [Scanned.parts, List.map_map]
    rfl
  refine ⟨haligned, ?_, List.forall_mem_map.mpr hsource⟩
  rw [hparts, List.forall₂_map_left_iff, List.forall₂_map_right_iff]
  exact hholds.imp fun _ _ hpart => hpart.untag

/-- Rows kept of each batch are rows it holds. -/
theorem fromRead_keptHeld {held : List Held} (h : ∀ own ∈ held, FromRead read own.2) (masks : List Mask) :
    ∀ own ∈ keptHeld held masks, FromRead read own.2 := by
  intro own hown
  obtain ⟨p, hp, hpick⟩ := List.mem_filterMap.mp hown
  split at hpick
  · exact absurd hpick nofun
  · obtain rfl := Option.some.inj hpick
    exact (h p.1 (List.of_mem_zip hp).1).sublist (sublist_pick _ _)

theorem sound_filterRows (h : s.Sound read) {i : ℕ} {mask : ℕ → RecordBatch → Except String Mask} :
    ∀ p ∈ s.filterRows i mask, TableSound read p := by
  intro p hp
  obtain ⟨⟨rows, held⟩, hrows, hp⟩ := Option.bind_eq_some_iff.mp hp
  obtain ⟨masks, hmasks, hp⟩ := Option.bind_eq_some_iff.mp hp
  obtain ⟨kept, hkept, hp⟩ := Option.bind_eq_some_iff.mp hp
  obtain rfl := Option.some.inj hp
  obtain ⟨-, hholds, hsource⟩ := h.tables _ (List.mem_of_getElem? hrows)
  obtain ⟨masks', hmasks', hcovers, hparts⟩ := Rows.filter_eq_ok (ok_of_toOption hkept)
  obtain rfl := Except.ok.inj ((ok_of_toOption hmasks).symm.trans hmasks')
  refine ⟨kept.aligned, ?_, fromRead_keptHeld hsource masks⟩
  rw [hparts]
  exact holds_keptParts hholds rows.aligned_parts hcovers

theorem sound_project (h : s.Sound read) {i : ℕ} {columns : List String} :
    ∀ p ∈ s.project i columns, TableSound read p := by
  intro p hp
  obtain ⟨q, hq, rfl⟩ := Option.map_eq_some_iff.mp hp
  obtain ⟨-, hholds, hsource⟩ := h.tables q (List.mem_of_getElem? hq)
  refine ⟨(q.1.project columns).aligned, ?_, List.forall_mem_map.mpr hsource⟩
  rw [Rows.parts_project, List.forall₂_map_left_iff, List.forall₂_map_right_iff]
  exact hholds.imp fun _ _ hpart => hpart.project columns

theorem sound_append (h : s.Sound read) {i j : ℕ} : ∀ p ∈ s.append i j, TableSound read p := by
  intro p hp
  unfold append at hp
  split at hp
  · next mine theirs hmine htheirs =>
    obtain ⟨-, hmineHolds, hmineSource⟩ := h.tables _ (List.mem_of_getElem? hmine)
    obtain ⟨-, htheirHolds, htheirSource⟩ := h.tables _ (List.mem_of_getElem? htheirs)
    rcases List.mem_or_eq_of_mem_set hp with hp | rfl
    · exact h.tables p hp
    · refine ⟨(mine.1.append theirs.1).1.aligned, ?_, ?_⟩
      · obtain ⟨hok, hparts⟩ | ⟨⟨e, herror⟩, hsame⟩ := Rows.append_outcome mine.1 theirs.1
        · rw [hok, hparts]
          exact List.rel_append hmineHolds htheirHolds
        · rw [herror, hsame]
          exact hmineHolds
      · intro held hheld
        split at hheld
        · exact (List.mem_append.mp hheld).elim (hmineSource held) (htheirSource held)
        · exact hmineSource held hheld
  · exact h.tables p hp

/-- **One operation keeps rows aligned.** -/
theorem Sound.step (h : s.Sound read) (operation : Operation) : (s.step operation).Sound
    (read ++ operation.rowsRead) := by
  have hmore : read ⊆ read ++ operation.rowsRead := List.subset_append_left _ _
  obtain ⟨hparts, hscans, htables⟩ := h.mono hmore
  have hold := h.mono hmore
  cases operation with
  | read part aligned =>
    refine ⟨List.forall_mem_append.mpr ⟨hparts, List.forall_mem_singleton.mpr
      ⟨aligned, holds_self part, part.rows, ?_, .refl _⟩⟩, hscans, htables⟩
    exact List.mem_append_right _ List.mem_cons_self
  | readRows rows =>
    refine ⟨hparts, hscans, List.forall_mem_append.mpr ⟨htables, List.forall_mem_singleton.mpr
      ⟨rows.aligned, ?_, List.forall_mem_map.mpr fun part hpart => ⟨part.rows, ?_, .refl _⟩⟩⟩⟩
    · rw [List.forall₂_map_right_iff]
      exact List.forall₂_same.mpr fun part _ => holds_self part
    · exact List.mem_append_right _ (List.mem_map_of_mem hpart)
  | filterPart i mask =>
    exact ⟨List.forall_mem_append.mpr ⟨hparts, by simpa using sound_filterPart hold⟩, hscans, htables⟩
  | split i size => exact ⟨List.forall_mem_append.mpr ⟨hparts, sound_split hold⟩, hscans, htables⟩
  | collect request is =>
    exact ⟨hparts, List.forall_mem_append.mpr ⟨hscans, by simpa using sound_collect hold⟩, htables⟩
  | intoRows i => exact ⟨hparts, hscans, List.forall_mem_append.mpr ⟨htables, by simpa using sound_intoRows hold⟩⟩
  | filterRows i mask =>
    exact ⟨hparts, hscans, List.forall_mem_append.mpr ⟨htables, by simpa using sound_filterRows hold⟩⟩
  | project i columns =>
    exact ⟨hparts, hscans, List.forall_mem_append.mpr ⟨htables, by simpa using sound_project hold⟩⟩
  | append i j => exact ⟨hparts, hscans, sound_append hold⟩

/-- **A run of operations keeps rows aligned.** -/
theorem sound_run (operations : List Operation) : (run operations).Sound (operations.flatMap Operation.rowsRead) := by
  induction operations using List.reverseRecOn with
  | nil => exact ⟨nofun, nofun, nofun⟩
  | append_singleton operations operation ih =>
    rw [run, List.foldl_append, List.flatMap_append, List.flatMap_singleton]
    exact ih.step operation

theorem toOption_ok {α : Type} {result : Except String α} {a : α} (h : result = .ok a) : result.toOption = some a := by
  rw [h]
  rfl

/-- **Of what is sound, what fits goes through.** -/
theorem Sound.goesThrough (h : s.Sound read) : s.GoesThrough where
  filterPart i p mask hp hfits := by
    obtain ⟨kept, hkept⟩ := ScannedBatch.exists_filterMask (h.parts p (List.mem_of_getElem? hp)).aligned hfits
    simp only [filterPart, hp, Option.bind_eq_bind, Option.bind_some, toOption_ok hkept, Option.isSome_some]
  split i p size hp := by
    obtain ⟨part, held⟩ := p
    obtain ⟨haligned, hholds, -⟩ := h.parts _ (List.mem_of_getElem? hp)
    have hpieces := holds_split haligned hholds size
    have hsplit : s.split i size = (part.split size).zip
        ((cut ((part.split size).map fun piece => piece.batch.numRows) held.2).map fun rows => (held.1, rows)) := by
      rw [split, hp]
    have hlength : (part.split size).length =
        (cut ((part.split size).map fun piece => piece.batch.numRows) held.2).length := hpieces.length_eq
    refine ⟨?_, ?_, fun piece hpiece => ?_⟩
    · rw [hsplit, List.map_fst_zip (by rw [List.length_map, hlength])]
    · have hlengths : ((part.split size).map fun piece => piece.batch.numRows).sum = held.2.length := by
        have hrows := congrArg List.length hholds.rows
        rw [← ScannedBatch.rows_split haligned size, List.length_flatMap, List.length_map] at hrows
        simpa using hrows
      have hsnd := @List.map_snd_zip _ _ (part.split size) ((cut ((part.split size).map fun piece =>
        piece.batch.numRows) held.2).map fun rows => (held.1, rows)) (by rw [List.length_map, hlength])
      rw [hsplit, List.flatMap_def]
      have hrows : (List.zip (part.split size) ((cut ((part.split size).map fun piece => piece.batch.numRows)
          held.2).map fun rows => (held.1, rows))).map (fun piece => piece.2.2) =
            cut ((part.split size).map fun piece => piece.batch.numRows) held.2 := by
        have := congrArg (List.map Prod.snd) hsnd
        rw [List.map_map, List.map_map] at this
        exact this.trans (List.map_id _)
      rw [hrows, flatten_cut hlengths]
    · rw [hsplit] at hpiece
      exact ScannedBatch.numRows_split part size piece.1 (List.of_mem_zip hpiece).1
  collect request is hfits := by
    obtain ⟨parts, hparts, hcomplete⟩ : ∃ parts, is.mapM (s.parts[·]?) = some parts ∧
        ∀ part ∈ parts.map Prod.fst, part.Complete request := by
      induction is with
      | nil => exact ⟨[], rfl, nofun⟩
      | cons i is ih =>
        obtain ⟨p, hp, hwhole⟩ := hfits i List.mem_cons_self
        obtain ⟨parts, hparts, hcomplete⟩ := ih fun j hj => hfits j (List.mem_cons_of_mem _ hj)
        refine ⟨p :: parts, ?_, List.forall_mem_cons.mpr ⟨hwhole, hcomplete⟩⟩
        rw [List.mapM_cons, hp, hparts]
        rfl
    obtain ⟨rows, hcollect, -⟩ := @Scanned.collect_eq request (parts.map Prod.fst) hcomplete
    simp only [collect, hparts, Option.bind_eq_bind, Option.bind_some, toOption_ok hcollect, Option.isSome_some]
  filterRows i p mask hp hfits := by
    obtain ⟨kept, hkept⟩ := Rows.exists_filter hfits
    obtain ⟨masks, hmasks, -⟩ := Rows.filter_eq_ok hkept
    simp only [filterRows, hp, Option.bind_eq_bind, Option.bind_some, toOption_ok hkept, toOption_ok hmasks,
      Option.isSome_some]
  append i j mine theirs hmine htheirs hfits := by
    have hok := (Rows.append_ok_iff mine.1 theirs.1).mpr hfits
    have hlt := (List.getElem?_eq_some_iff.mp hmine).1
    refine ⟨(mine.1.append theirs.1).1, ?_⟩
    rw [append, hmine, htheirs]
    dsimp only
    rw [hok, List.getElem?_set_self hlt]
    rfl

end Steps

end Store

/-- **Rows stay aligned.**  After any sequence of operations, every batch that has been made has one position and one
mark of each tag for every row, and holds exactly the rows that the masks select of those first read, in their order: of
each the position and the tags it was read with, where they are recorded and asked for, and the columns asked of it.  An
operation whose arguments fit goes through, and an append that is refused leaves the receiver as it was. -/
theorem rows_stay_aligned (operations : List Operation) :
    (Store.run operations).Sound (operations.flatMap Operation.rowsRead) ∧ (Store.run operations).GoesThrough ∧
      ∀ (rows other : Rows) (e : String), (rows.append other).2 = .error e → (rows.append other).1 = rows :=
  ⟨Store.sound_run operations, (Store.sound_run operations).goesThrough, fun _ _ _ => Rows.append_refused⟩

/-- Three rows with positions and a tag, filtered, split, collected with positions and without, and put together. -/
def threeRows : List Operation :=
  [.read ⟨⟨3, [("number", .scalar (.int .uint64) [⟨1, true⟩, ⟨2, true⟩, ⟨3, true⟩])], by simp [Column.len],
      by simp [Column.OffsetsFit]⟩, some [7, 8, 9], [[true, false, true]]⟩
      ⟨by rintro _ ⟨⟩; rfl, fun tag htag => by rw [List.mem_singleton.mp htag]; rfl⟩,
    .filterPart 0 [some true, none, some true], .split 1 1,
    .collect { laterBlocks with positions := true, itemTags := [[0]] } [2, 3],
    .collect { laterBlocks with positions := false, itemTags := [[0]] } [0],
    .intoRows 0, .intoRows 1, .append 0 0, .append 0 1, .project 1 []]

/-- The rows of a null entry go with those of a false one, the two kept keep their positions and tags in batches of one,
and a table without positions is refused. -/
theorem rows_stay_aligned_threeRows : (Store.run threeRows).Sound (threeRows.flatMap Operation.rowsRead) ∧
    (Store.run threeRows).tables.map (fun p => p.1.positions) = [some [[7], [9], [7], [9]], none, none] ∧
    (Store.run threeRows).scans.map (fun p => p.1.tags) =
      [[([0], [[true], [true]])], [([0], [[true, false, true]])]] ∧
    (Store.run threeRows).tables.map (fun p => p.1.batches.map RecordBatch.numRows) = [[1, 1, 1, 1], [3], [3]] :=
  ⟨(rows_stay_aligned threeRows).1, rfl, rfl, rfl⟩

end QueryEngine
