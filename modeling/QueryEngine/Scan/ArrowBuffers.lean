import Mathlib

/-!
# Scan/ArrowBuffers — the buffers of a nested column, and what its leaves are charged

A leaf is charged for each of its level entries: its own width, the offsets of the lists above it, and a bit of every
level.  A batch's buffers are those of one row, and what the entries past the first of each leaf are charged
(`buffers_le`); a batch of one row with one item in each list takes no less.
-/

namespace QueryEngine

/-! ## Types -/

mutual

/-- The type of a decoded array; what an item or a member of it holds may be null. -/
inductive ArrowType
  | utf8 | binary | largeUtf8 | largeBinary | boolean | null
  | fixedSizeBinary (width : ℤ)
  | primitive (width : ℕ)
  | list (nullable : Bool) (item : ArrowType)
  | map (nullable : Bool) (entries : ArrowType)
  | largeList (nullable : Bool) (item : ArrowType)
  | fixedSizeList (nullable : Bool) (item : ArrowType) (size : ℕ)
  | struct (fields : ArrowFields)
  /-- A type whose decoded layout is not modelled. -/
  | other

/-- The members of a struct, one at least. -/
inductive ArrowFields
  | one (nullable : Bool) (field : ArrowType)
  | cons (nullable : Bool) (field : ArrowType) (rest : ArrowFields)

end

/-! ## Costs -/

/-- What one level entry of a parquet leaf decodes to, beside the contents of its byte strings. -/
structure LeafCost where
  /-- Fixed-width values and the offsets of the leaf and every list above it. -/
  bytes : ℕ
  /-- A validity bit for every level, and a boolean's value. -/
  bits : ℕ
  byteStrings : Bool
  deriving DecidableEq, Repr

namespace LeafCost

/-- The cost of a leaf below no level. -/
def default : LeafCost := ⟨0, 0, false⟩

/-- The cost a level below. -/
def level (above : LeafCost) : LeafCost := { above with bits := above.bits + 1 }

/-- The level with an offset of a width for each entry. -/
def withOffsets (level : LeafCost) (width : ℕ) : LeafCost := { level with bytes := level.bytes + width }

/-- The contents a leaf is charged for. -/
def contentBytes (cost : LeafCost) (contents : ℕ) : ℕ := if cost.byteStrings then contents else 0

/-- The bits an entry is charged for. -/
def entryBits (cost : LeafCost) : ℕ := 8 * cost.bytes + cost.bits

end LeafCost

mutual

/-- The cost of each parquet leaf under a type, in schema order. -/
def ArrowType.leafCosts : ArrowType → LeafCost → Option (List LeafCost)
  | .list _ item, above => item.leafCosts (above.level.withOffsets 4)
  | .map _ entries, above => entries.leafCosts (above.level.withOffsets 4)
  | .largeList _ item, above => item.leafCosts (above.level.withOffsets 8)
  | .fixedSizeList _ item _, above => item.leafCosts above.level
  | .struct fields, above => fields.leafCosts above.level
  | .utf8, above => some [{ above.level.withOffsets 4 with byteStrings := true }]
  | .binary, above => some [{ above.level.withOffsets 4 with byteStrings := true }]
  | .largeUtf8, above => some [{ above.level.withOffsets 8 with byteStrings := true }]
  | .largeBinary, above => some [{ above.level.withOffsets 8 with byteStrings := true }]
  | .boolean, above => some [{ above.level with bits := above.level.bits + 1 }]
  | .null, above => some [above.level]
  | .fixedSizeBinary width, above => some [above.level.withOffsets width.toNat]
  | .primitive width, above => some [above.level.withOffsets width]
  | .other, _ => none

/-- Those of each field, in order. -/
def ArrowFields.leafCosts : ArrowFields → LeafCost → Option (List LeafCost)
  | .one _ field, level => field.leafCosts level
  | .cons _ field rest, level =>
    (field.leafCosts level).bind fun costs => (rest.leafCosts level).map (costs ++ ·)

end

/-! ## What is decoded -/

/-- A value of a column, as large as its bytes. -/
inductive Value
  | null
  | bytes (size : ℕ)
  | list (items : List Value)
  | struct (members : List Value)

namespace Value

/-- The bytes of its contents. -/
def size : Value → ℕ
  | bytes size => size
  | _ => 0

/-- The items of a list. -/
def items : Value → List Value
  | list items => items
  | _ => []

/-- The slots a fixed-size list takes: a null one takes as many. -/
def slots (size : ℕ) : Value → List Value
  | list items => items
  | _ => List.replicate size null

/-- Whether it is null. -/
def isNull : Value → Bool
  | null => true
  | _ => false

/-- A member of a struct. -/
def member (i : ℕ) : Value → Value
  | struct members => members.getD i null
  | _ => null

end Value

/-- The bytes of one bit for each of some slots. -/
def bitBytes (n : ℕ) : ℕ := (n + 7) / 8

/-- The most that the validity of an array takes: a bit for each slot, where it may hold nulls. -/
def bitmap (nullable : Bool) (n : ℕ) : ℕ := if nullable then bitBytes n else 0

/-- The validity of an array: no bits where no slot is null. -/
def validity (nullable : Bool) (rows : List Value) : ℕ := bitmap (nullable && rows.any Value.isNull) rows.length

/-- The bytes of strings: an offset more than there are, and the contents. -/
def stringBytes (width : ℕ) (rows : List Value) : ℕ := width * (rows.length + 1) + (rows.map Value.size).sum

mutual

/-- **The buffers of a decoded array**, as the columnar format lays them out: values, an offset past the last of every
list and string, and validity where a slot is null. -/
def ArrowType.buffers : ArrowType → Bool → List Value → ℕ
  | .list nullable item, valid, rows =>
    validity valid rows + 4 * (rows.length + 1) + item.buffers nullable (rows.flatMap Value.items)
  | .map nullable entries, valid, rows =>
    validity valid rows + 4 * (rows.length + 1) + entries.buffers nullable (rows.flatMap Value.items)
  | .largeList nullable item, valid, rows =>
    validity valid rows + 8 * (rows.length + 1) + item.buffers nullable (rows.flatMap Value.items)
  | .fixedSizeList nullable item size, valid, rows =>
    validity valid rows + item.buffers nullable (rows.flatMap (Value.slots size))
  | .struct fields, valid, rows => validity valid rows + fields.buffers 0 rows
  | .utf8, valid, rows => validity valid rows + stringBytes 4 rows
  | .binary, valid, rows => validity valid rows + stringBytes 4 rows
  | .largeUtf8, valid, rows => validity valid rows + stringBytes 8 rows
  | .largeBinary, valid, rows => validity valid rows + stringBytes 8 rows
  | .boolean, valid, rows => validity valid rows + bitBytes rows.length
  | .null, _, _ => 0
  | .fixedSizeBinary width, valid, rows => validity valid rows + width.toNat * rows.length
  | .primitive width, valid, rows => validity valid rows + width * rows.length
  | .other, _, _ => 0

/-- Those of each field, from a member on. -/
def ArrowFields.buffers : ArrowFields → ℕ → List Value → ℕ
  | .one nullable field, i, rows => field.buffers nullable (rows.map (Value.member i))
  | .cons nullable field rest, i, rows =>
    field.buffers nullable (rows.map (Value.member i)) + rest.buffers (i + 1) rows

end

/-- What a parquet leaf stores: its level entries, and the bytes of its strings. -/
structure LeafData where
  entries : ℕ
  contents : ℕ

namespace LeafData

/-- Entries for the lists that have no item: each takes one. -/
def missing (rows : List Value) (leaf : LeafData) : LeafData :=
  { leaf with entries := leaf.entries + rows.countP fun v => v.items.isEmpty }

/-- The entries and contents of both. -/
def add (a b : LeafData) : LeafData := ⟨a.entries + b.entries, a.contents + b.contents⟩

end LeafData

mutual

/-- What each parquet leaf under a type stores of some values, in schema order. -/
def ArrowType.leaves : ArrowType → List Value → List LeafData
  | .list _ item, rows => (item.leaves (rows.flatMap Value.items)).map (LeafData.missing rows)
  | .map _ entries, rows => (entries.leaves (rows.flatMap Value.items)).map (LeafData.missing rows)
  | .largeList _ item, rows => (item.leaves (rows.flatMap Value.items)).map (LeafData.missing rows)
  | .fixedSizeList _ item _, rows => (item.leaves (rows.flatMap Value.items)).map (LeafData.missing rows)
  | .struct fields, rows => fields.leaves 0 rows
  | .utf8, rows => [⟨rows.length, (rows.map Value.size).sum⟩]
  | .binary, rows => [⟨rows.length, (rows.map Value.size).sum⟩]
  | .largeUtf8, rows => [⟨rows.length, (rows.map Value.size).sum⟩]
  | .largeBinary, rows => [⟨rows.length, (rows.map Value.size).sum⟩]
  | .boolean, rows => [⟨rows.length, 0⟩]
  | .null, rows => [⟨rows.length, 0⟩]
  | .fixedSizeBinary _, rows => [⟨rows.length, 0⟩]
  | .primitive _, rows => [⟨rows.length, 0⟩]
  | .other, _ => []

/-- Those of each field, from a member on. -/
def ArrowFields.leaves : ArrowFields → ℕ → List Value → List LeafData
  | .one _ field, i, rows => field.leaves (rows.map (Value.member i))
  | .cons _ field rest, i, rows => field.leaves (rows.map (Value.member i)) ++ rest.leaves (i + 1) rows

end

/-! ## A row -/

mutual

/-- The most that the buffers of an array of one value take, with one item in each of its lists. -/
def ArrowType.rowBytes : ArrowType → Bool → ℕ
  | .list nullable item, valid => bitmap valid 1 + 4 * 2 + item.rowBytes nullable
  | .map nullable entries, valid => bitmap valid 1 + 4 * 2 + entries.rowBytes nullable
  | .largeList nullable item, valid => bitmap valid 1 + 8 * 2 + item.rowBytes nullable
  | .fixedSizeList nullable item _, valid => bitmap valid 1 + item.rowBytes nullable
  | .struct fields, valid => bitmap valid 1 + fields.rowBytes
  | .utf8, valid => bitmap valid 1 + 4 * 2
  | .binary, valid => bitmap valid 1 + 4 * 2
  | .largeUtf8, valid => bitmap valid 1 + 8 * 2
  | .largeBinary, valid => bitmap valid 1 + 8 * 2
  | .boolean, valid => bitmap valid 1 + 1
  | .null, _ => 0
  | .fixedSizeBinary width, valid => bitmap valid 1 + width.toNat
  | .primitive width, valid => bitmap valid 1 + width
  | .other, _ => 0

/-- Those of each field. -/
def ArrowFields.rowBytes : ArrowFields → ℕ
  | .one nullable field => field.rowBytes nullable
  | .cons nullable field rest => field.rowBytes nullable + rest.rowBytes

end

mutual

/-- No fixed-size list is null. -/
def ArrowType.Filled : ArrowType → List Value → Prop
  | .list _ item, rows => item.Filled (rows.flatMap Value.items)
  | .map _ entries, rows => entries.Filled (rows.flatMap Value.items)
  | .largeList _ item, rows => item.Filled (rows.flatMap Value.items)
  | .fixedSizeList _ item size, rows =>
    (∀ v ∈ rows, v.slots size = v.items) ∧ item.Filled (rows.flatMap Value.items)
  | .struct fields, rows => fields.Filled 0 rows
  | _, _ => True

/-- Each field is, from a member on. -/
def ArrowFields.Filled : ArrowFields → ℕ → List Value → Prop
  | .one _ field, i, rows => field.Filled (rows.map (Value.member i))
  | .cons _ field rest, i, rows => field.Filled (rows.map (Value.member i)) ∧ rest.Filled (i + 1) rows

end

/-! ## One batch -/

theorem length_le_flatMap_items (rows : List Value) :
    rows.length ≤ (rows.flatMap Value.items).length + rows.countP fun v => v.items.isEmpty := by
  induction rows with
  | nil => simp
  | cons v rows ih =>
    rw [List.flatMap_cons, List.length_append, List.length_cons, List.countP_cons]
    cases hitems : v.items with
    | nil =>
      simp only [List.length_nil, List.isEmpty_nil, if_true]
      omega
    | cons item items =>
      simp only [List.length_cons, List.isEmpty_cons, Bool.false_eq_true, if_false]
      omega

mutual

/-- **Every value takes an entry of every leaf.** -/
theorem ArrowType.length_le_entries : ∀ (ty : ArrowType) (rows : List Value),
    ∀ leaf ∈ ty.leaves rows, rows.length ≤ leaf.entries
  | .list _ item, rows | .map _ item, rows | .largeList _ item, rows | .fixedSizeList _ item _, rows => by
    intro leaf hleaf
    rw [ArrowType.leaves] at hleaf
    obtain ⟨inner, hinner, rfl⟩ := List.mem_map.mp hleaf
    have hle := item.length_le_entries _ inner hinner
    have hitems := length_le_flatMap_items rows
    change _ ≤ inner.entries + _
    omega
  | .struct fields, rows => fields.length_le_entries 0 rows
  | .utf8, rows | .binary, rows | .largeUtf8, rows | .largeBinary, rows | .boolean, rows | .null, rows
  | .fixedSizeBinary _, rows | .primitive _, rows => by
    intro leaf hleaf
    rw [ArrowType.leaves, List.mem_singleton] at hleaf
    rw [hleaf]
  | .other, _ => by simp [ArrowType.leaves]

theorem ArrowFields.length_le_entries : ∀ (fields : ArrowFields) (i : ℕ) (rows : List Value),
    ∀ leaf ∈ fields.leaves i rows, rows.length ≤ leaf.entries
  | .one _ field, i, rows => by
    intro leaf hleaf
    have hle := field.length_le_entries (rows.map (Value.member i)) leaf hleaf
    rwa [List.length_map] at hle
  | .cons _ field rest, i, rows => by
    intro leaf hleaf
    rcases List.mem_append.mp hleaf with hleaf | hleaf
    · have hle := field.length_le_entries (rows.map (Value.member i)) leaf hleaf
      rwa [List.length_map] at hle
    · exact rest.length_le_entries (i + 1) rows leaf hleaf

end

mutual

/-- A leaf's cost stands for each leaf that stores values. -/
theorem ArrowType.length_leafCosts : ∀ (ty : ArrowType) (above : LeafCost) (costs : List LeafCost) (rows : List Value),
    ty.leafCosts above = some costs → costs.length = (ty.leaves rows).length
  | .list _ item, above, costs, rows | .map _ item, above, costs, rows | .largeList _ item, above, costs, rows
  | .fixedSizeList _ item _, above, costs, rows => by
    intro h
    rw [ArrowType.leaves, List.length_map]
    exact item.length_leafCosts _ costs _ h
  | .struct fields, above, costs, rows => fields.length_leafCosts 0 above.level costs rows
  | .utf8, _, _, _ | .binary, _, _, _ | .largeUtf8, _, _, _ | .largeBinary, _, _, _ | .boolean, _, _, _
  | .null, _, _, _ | .fixedSizeBinary _, _, _, _ | .primitive _, _, _, _ => by
    intro h
    cases h
    rfl
  | .other, _, _, _ => fun h => nomatch h

theorem ArrowFields.length_leafCosts : ∀ (fields : ArrowFields) (i : ℕ) (level : LeafCost) (costs : List LeafCost)
    (rows : List Value), fields.leafCosts level = some costs → costs.length = (fields.leaves i rows).length
  | .one _ field, i, level, costs, rows => field.length_leafCosts level costs _
  | .cons _ field rest, i, level, costs, rows => by
    intro h
    rw [ArrowFields.leafCosts] at h
    obtain ⟨first, hfirst, h⟩ := Option.bind_eq_some_iff.mp h
    obtain ⟨others, hothers, rfl⟩ := Option.map_eq_some_iff.mp h
    rw [ArrowFields.leaves, List.length_append, List.length_append,
      field.length_leafCosts level first (rows.map (Value.member i)) hfirst,
      rest.length_leafCosts (i + 1) level others rows hothers]

end

/-- What leaves are charged for their entries and contents, in bits. -/
def weigh (costs : List LeafCost) (leaves : List LeafData) : ℕ :=
  (List.zipWith (fun cost leaf => leaf.entries * cost.entryBits + 8 * cost.contentBytes leaf.contents) costs leaves).sum

theorem weigh_append {costs others : List LeafCost} {leaves more : List LeafData}
    (h : costs.length = leaves.length) :
    weigh (costs ++ others) (leaves ++ more) = weigh costs leaves + weigh others more := by
  rw [weigh, List.zipWith_append h, List.sum_append]
  rfl

/-- A leaf that stores the contents of another, and its entries at least. -/
def LeafData.Within (a b : LeafData) : Prop := a.entries ≤ b.entries ∧ a.contents = b.contents

/-- What a charge above leaves for each leaf past its first entry. -/
def Spare (above : LeafCost) (x : ℕ) (leaves : List LeafData) : Prop :=
  ∀ leaf ∈ leaves, 1 ≤ leaf.entries ∧ x ≤ (leaf.entries - 1) * above.entryBits

theorem eight_mul_validity_le (valid : Bool) (rows : List Value) :
    8 * validity valid rows ≤ 8 * bitmap valid 1 + (rows.length - 1) := by
  cases valid with
  | false => simp [validity, bitmap]
  | true =>
    simp only [validity, bitmap, bitBytes, if_true]
    split <;> omega

/-- **A level's own bytes past the first** are within what its entries are charged. -/
theorem level_le (valid : Bool) (width : ℕ) (rows : List Value) :
    8 * (validity valid rows + width * (rows.length + 1)) ≤
      8 * (bitmap valid 1 + width * 2) + (rows.length - 1) * (8 * width + 1) := by
  have hvalid := eight_mul_validity_le valid rows
  generalize rows.length = n at hvalid ⊢
  cases n with
  | zero => nlinarith
  | succ n =>
    rw [Nat.add_sub_cancel] at hvalid ⊢
    nlinarith

theorem LeafData.entries_le_of_within {n : ℕ} {own leaves : List LeafData}
    (h : List.Forall₂ LeafData.Within own leaves) (hle : ∀ leaf ∈ own, n ≤ leaf.entries) :
    ∀ leaf ∈ leaves, n ≤ leaf.entries := by
  induction h with
  | nil => simp
  | cons hone _ ih =>
    rw [List.forall_mem_cons] at hle ⊢
    exact ⟨hle.1.trans hone.1, ih hle.2⟩

theorem LeafData.within_of_missing {rows : List Value} {own leaves : List LeafData}
    (h : List.Forall₂ LeafData.Within (own.map (LeafData.missing rows)) leaves) :
    List.Forall₂ LeafData.Within own leaves :=
  (List.forall₂_map_left_iff.mp h).imp fun _ _ hone => ⟨(Nat.le_add_right _ _).trans hone.1, hone.2⟩

/-- What is related to two lists in one is two lists in one. -/
theorem exists_append_of_forall₂ {α β : Type} {r : α → β → Prop} {own more : List α} {all : List β}
    (h : List.Forall₂ r (own ++ more) all) :
    ∃ first others, all = first ++ others ∧ List.Forall₂ r own first ∧ List.Forall₂ r more others :=
  ⟨all.take own.length, all.drop own.length, (List.take_append_drop _ _).symm,
    (List.forall₂_take_append _ _ _ h.flip).flip, (List.forall₂_drop_append _ _ _ h.flip).flip⟩

/-- A level's charge spares its own bytes. -/
theorem Spare.level {above : LeafCost} {x n : ℕ} {leaves : List LeafData} (h : Spare above x leaves)
    (hn : ∀ leaf ∈ leaves, n ≤ leaf.entries) (width : ℕ) :
    Spare (above.level.withOffsets width) (x + (n - 1) * (8 * width + 1)) leaves := by
  intro leaf hleaf
  obtain ⟨hone, hx⟩ := h leaf hleaf
  have hcost : (above.level.withOffsets width).entryBits = above.entryBits + (8 * width + 1) := by
    simp only [LeafCost.entryBits, LeafCost.withOffsets, LeafCost.level]
    ring
  refine ⟨hone, ?_⟩
  rw [hcost, Nat.mul_add (leaf.entries - 1)]
  exact Nat.add_le_add hx (Nat.mul_le_mul_right _ (Nat.sub_le_sub_right (hn leaf hleaf) 1))

/-- **A leaf is charged for its array.** -/
theorem leaf_le {above cost : LeafCost} {leaf : LeafData} {x n own first grow : ℕ}
    (hspare : Spare above x [leaf]) (hn : n ≤ leaf.entries) (hcost : cost.entryBits = above.entryBits + grow)
    (hown : 8 * own ≤ 8 * first + (n - 1) * grow + 8 * cost.contentBytes leaf.contents) :
    x + 8 * own + (List.map LeafCost.entryBits [cost]).sum ≤ 8 * first + weigh [cost] [leaf] := by
  obtain ⟨hone, hx⟩ := hspare leaf (List.mem_singleton_self leaf)
  have hgrow : (n - 1) * grow ≤ (leaf.entries - 1) * grow := Nat.mul_le_mul_right _ (Nat.sub_le_sub_right hn 1)
  have hsplit : leaf.entries * cost.entryBits =
      (leaf.entries - 1) * above.entryBits + (leaf.entries - 1) * grow + cost.entryBits := by
    obtain ⟨e, he⟩ := Nat.exists_eq_add_of_le' hone
    rw [he, Nat.add_sub_cancel, hcost]
    ring
  simp only [weigh, List.map_cons, List.map_nil, List.sum_cons, List.sum_nil, List.zipWith_cons_cons,
    List.zipWith_nil_left, hsplit]
  omega

section Levels

variable {x : ℕ} {valid : Bool} {above : LeafCost} {rows : List Value} {costs : List LeafCost}
  {leaves : List LeafData}

/-- A list's own bytes, then its items'. -/
theorem list_le {own items first rest width : ℕ} (hown : own = validity valid rows + width * (rows.length + 1))
    (hfirst : first = bitmap valid 1 + width * 2)
    (h : x + (rows.length - 1) * (8 * width + 1) + 8 * items + (costs.map LeafCost.entryBits).sum ≤
      8 * rest + weigh costs leaves) :
    x + 8 * (own + items) + (costs.map LeafCost.entryBits).sum ≤ 8 * (first + rest) + weigh costs leaves := by
  have hlevel := level_le valid width rows
  rw [← hown, ← hfirst] at hlevel
  omega

/-- What a leaf without nested values is charged. -/
theorem single_le {own : LeafData} {cost : LeafCost} {bytes first grow : ℕ} (hentries : own.entries = rows.length)
    (hwithin : List.Forall₂ LeafData.Within [own] leaves) (hspare : Spare above x leaves)
    (hcost : cost.entryBits = above.entryBits + grow)
    (hown : 8 * bytes ≤ 8 * first + (rows.length - 1) * grow + 8 * cost.contentBytes own.contents) :
    x + 8 * bytes + (List.map LeafCost.entryBits [cost]).sum ≤ 8 * first + weigh [cost] leaves := by
  cases hwithin with
  | cons hone hnil =>
    cases hnil
    exact leaf_le hspare (hentries ▸ hone.1) hcost (hone.2 ▸ hown)

/-- A string column is charged an offset for each value, and its contents. -/
theorem string_le (width : ℕ)
    (hwithin : List.Forall₂ LeafData.Within [⟨rows.length, (rows.map Value.size).sum⟩] leaves)
    (hspare : Spare above x leaves) :
    x + 8 * (validity valid rows + stringBytes width rows) +
        (List.map LeafCost.entryBits [{ above.level.withOffsets width with byteStrings := true }]).sum ≤
      8 * (bitmap valid 1 + width * 2) +
        weigh [{ above.level.withOffsets width with byteStrings := true }] leaves := by
  have hlevel := level_le valid width rows
  have hcost : LeafCost.entryBits { above.level.withOffsets width with byteStrings := true } =
      above.entryBits + (8 * width + 1) := by
    simp only [LeafCost.entryBits, LeafCost.withOffsets, LeafCost.level]
    ring
  refine single_le rfl hwithin hspare hcost ?_
  simp only [stringBytes, LeafCost.contentBytes, if_true]
  omega

/-- A column of values of one width is charged that width for each. -/
theorem fixed_le (width : ℕ) (hwithin : List.Forall₂ LeafData.Within [⟨rows.length, 0⟩] leaves)
    (hspare : Spare above x leaves) :
    x + 8 * (validity valid rows + width * rows.length) +
        (List.map LeafCost.entryBits [above.level.withOffsets width]).sum ≤
      8 * (bitmap valid 1 + width) + weigh [above.level.withOffsets width] leaves := by
  have hcost : (above.level.withOffsets width).entryBits = above.entryBits + (8 * width + 1) := by
    simp only [LeafCost.entryBits, LeafCost.withOffsets, LeafCost.level]
    ring
  refine single_le rfl hwithin hspare hcost ?_
  have hlevel := level_le valid width rows
  rw [Nat.mul_succ, Nat.mul_two] at hlevel
  omega

/-- A list's items are spared what its own bytes leave. -/
theorem spare_items {item : ArrowType} {width : ℕ} (hspare : Spare above x leaves)
    (hwithin : List.Forall₂ LeafData.Within
      ((item.leaves (rows.flatMap Value.items)).map (LeafData.missing rows)) leaves) :
    Spare (above.level.withOffsets width) (x + (rows.length - 1) * (8 * width + 1)) leaves := by
  refine hspare.level (LeafData.entries_le_of_within hwithin fun leaf hleaf => ?_) width
  exact (ArrowType.list false item).length_le_entries rows leaf hleaf

end Levels

mutual

/-- **A batch's buffers** are a row's, and what its entries past the first of each leaf are charged. -/
theorem ArrowType.buffers_le : ∀ (ty : ArrowType) (valid : Bool) (rows : List Value) (above : LeafCost)
    (costs : List LeafCost) (leaves : List LeafData) (x : ℕ), ty.leafCosts above = some costs → ty.Filled rows →
    List.Forall₂ LeafData.Within (ty.leaves rows) leaves → Spare above x leaves →
    x + 8 * ty.buffers valid rows + (costs.map LeafCost.entryBits).sum ≤ 8 * ty.rowBytes valid + weigh costs leaves
  | .list nullable item, valid, rows, above, costs, leaves, x => by
    intro hcosts hfilled hwithin hspare
    exact list_le rfl rfl (item.buffers_le nullable _ _ costs leaves _ hcosts hfilled
      (LeafData.within_of_missing hwithin) (spare_items hspare hwithin))
  | .map nullable item, valid, rows, above, costs, leaves, x => by
    intro hcosts hfilled hwithin hspare
    exact list_le rfl rfl (item.buffers_le nullable _ _ costs leaves _ hcosts hfilled
      (LeafData.within_of_missing hwithin) (spare_items hspare hwithin))
  | .largeList nullable item, valid, rows, above, costs, leaves, x => by
    intro hcosts hfilled hwithin hspare
    exact list_le rfl rfl (item.buffers_le nullable _ _ costs leaves _ hcosts hfilled
      (LeafData.within_of_missing hwithin) (spare_items hspare hwithin))
  | .fixedSizeList nullable item size, valid, rows, above, costs, leaves, x => by
    intro hcosts hfilled hwithin hspare
    obtain ⟨hslots, hfilled⟩ := hfilled
    have hitems : rows.flatMap (Value.slots size) = rows.flatMap Value.items := List.flatMap_congr hslots
    have hlevel : above.level = above.level.withOffsets 0 := rfl
    rw [ArrowType.leafCosts, hlevel] at hcosts
    rw [ArrowType.buffers, ArrowType.rowBytes, hitems]
    exact list_le (by rw [Nat.zero_mul, Nat.add_zero]) (by rw [Nat.zero_mul, Nat.add_zero])
      (item.buffers_le nullable _ _ costs leaves _ hcosts hfilled
        (LeafData.within_of_missing hwithin) (spare_items hspare hwithin))
  | .struct fields, valid, rows, above, costs, leaves, x => by
    intro hcosts hfilled hwithin hspare
    have hlevel : above.level = above.level.withOffsets 0 := rfl
    rw [ArrowType.leafCosts, hlevel] at hcosts
    have hspared := hspare.level (LeafData.entries_le_of_within hwithin
      ((ArrowType.struct fields).length_le_entries rows)) 0
    exact list_le (by rw [Nat.zero_mul, Nat.add_zero]) (by rw [Nat.zero_mul, Nat.add_zero])
      (fields.buffers_le 0 rows _ costs leaves _ hcosts hfilled hwithin hspared)
  | .utf8, valid, rows, above, costs, leaves, x | .binary, valid, rows, above, costs, leaves, x => by
    intro hcosts _ hwithin hspare
    cases hcosts
    exact string_le 4 hwithin hspare
  | .largeUtf8, valid, rows, above, costs, leaves, x | .largeBinary, valid, rows, above, costs, leaves, x => by
    intro hcosts _ hwithin hspare
    cases hcosts
    exact string_le 8 hwithin hspare
  | .boolean, valid, rows, above, costs, leaves, x => by
    intro hcosts _ hwithin hspare
    cases hcosts
    have hcost : LeafCost.entryBits { above.level with bits := above.level.bits + 1 } = above.entryBits + 2 := by
      simp only [LeafCost.entryBits, LeafCost.level]
      ring
    refine single_le rfl hwithin hspare hcost ?_
    have hvalid := eight_mul_validity_le valid rows
    simp only [ArrowType.buffers, ArrowType.rowBytes, bitBytes]
    omega
  | .null, valid, rows, above, costs, leaves, x => by
    intro hcosts _ hwithin hspare
    cases hcosts
    have hcost : above.level.entryBits = above.entryBits + 1 := by
      simp only [LeafCost.entryBits, LeafCost.level]
      ring
    exact single_le rfl hwithin hspare hcost (Nat.zero_le _)
  | .fixedSizeBinary width, valid, rows, above, costs, leaves, x => by
    intro hcosts _ hwithin hspare
    cases hcosts
    exact fixed_le _ hwithin hspare
  | .primitive width, valid, rows, above, costs, leaves, x => by
    intro hcosts _ hwithin hspare
    cases hcosts
    exact fixed_le _ hwithin hspare
  | .other, _, _, _, _, _, _ => fun hcosts => nomatch hcosts

theorem ArrowFields.buffers_le : ∀ (fields : ArrowFields) (i : ℕ) (rows : List Value) (level : LeafCost)
    (costs : List LeafCost) (leaves : List LeafData) (x : ℕ), fields.leafCosts level = some costs →
    fields.Filled i rows → List.Forall₂ LeafData.Within (fields.leaves i rows) leaves → Spare level x leaves →
    x + 8 * fields.buffers i rows + (costs.map LeafCost.entryBits).sum ≤ 8 * fields.rowBytes + weigh costs leaves
  | .one nullable field, i, rows, level, costs, leaves, x => by
    intro hcosts hfilled hwithin hspare
    exact field.buffers_le nullable _ level costs leaves x hcosts hfilled hwithin hspare
  | .cons nullable field rest, i, rows, level, costs, leaves, x => by
    intro hcosts hfilled hwithin hspare
    obtain ⟨first, hfirst, hcosts⟩ := Option.bind_eq_some_iff.mp hcosts
    obtain ⟨others, hothers, rfl⟩ := Option.map_eq_some_iff.mp hcosts
    obtain ⟨mine, more, rfl, hmine, hmore⟩ := exists_append_of_forall₂ hwithin
    have hlength : first.length = mine.length :=
      (field.length_leafCosts level first _ hfirst).trans hmine.length_eq
    have hhead := field.buffers_le nullable _ level first mine x hfirst hfilled.1 hmine
      fun leaf hleaf => hspare leaf (List.mem_append_left _ hleaf)
    have htail := rest.buffers_le (i + 1) rows level others more 0 hothers hfilled.2 hmore
      fun leaf hleaf => ⟨(hspare leaf (List.mem_append_right _ hleaf)).1, Nat.zero_le _⟩
    rw [weigh_append hlength, List.map_append, List.sum_append, ArrowFields.buffers, ArrowFields.rowBytes]
    omega

end

/-! ## Batches together -/

theorem zipWith_add_missing (rows more : List Value) (own others : List LeafData) :
    (List.zipWith LeafData.add own others).map (LeafData.missing (rows ++ more)) =
      List.zipWith LeafData.add (own.map (LeafData.missing rows)) (others.map (LeafData.missing more)) := by
  rw [List.map_zipWith, List.zipWith_map]
  refine congrArg (fun f => List.zipWith f own others) (funext fun a => funext fun b => ?_)
  simp only [LeafData.add, LeafData.missing, List.countP_append, LeafData.mk.injEq, and_true]
  omega

mutual

/-- The leaves are the type's, whatever they store. -/
theorem ArrowType.length_leaves : ∀ (ty : ArrowType) (rows more : List Value),
    (ty.leaves rows).length = (ty.leaves more).length
  | .list _ item, rows, more | .map _ item, rows, more | .largeList _ item, rows, more
  | .fixedSizeList _ item _, rows, more => by
    rw [ArrowType.leaves, ArrowType.leaves, List.length_map, List.length_map]
    exact item.length_leaves _ _
  | .struct fields, rows, more => fields.length_leaves 0 rows more
  | .utf8, _, _ | .binary, _, _ | .largeUtf8, _, _ | .largeBinary, _, _ | .boolean, _, _ | .null, _, _
  | .fixedSizeBinary _, _, _ | .primitive _, _, _ | .other, _, _ => rfl

theorem ArrowFields.length_leaves : ∀ (fields : ArrowFields) (i : ℕ) (rows more : List Value),
    (fields.leaves i rows).length = (fields.leaves i more).length
  | .one _ field, i, rows, more => field.length_leaves _ _
  | .cons _ field rest, i, rows, more => by
    rw [ArrowFields.leaves, ArrowFields.leaves, List.length_append, List.length_append,
      field.length_leaves _ (more.map (Value.member i)), rest.length_leaves (i + 1) rows more]

end

mutual

/-- **Leaves store what their batches do**, together. -/
theorem ArrowType.leaves_append : ∀ (ty : ArrowType) (rows more : List Value),
    ty.leaves (rows ++ more) = List.zipWith LeafData.add (ty.leaves rows) (ty.leaves more)
  | .list _ item, rows, more | .map _ item, rows, more | .largeList _ item, rows, more
  | .fixedSizeList _ item _, rows, more => by
    rw [ArrowType.leaves, List.flatMap_append, item.leaves_append, zipWith_add_missing]
    rfl
  | .struct fields, rows, more => fields.leaves_append 0 rows more
  | .utf8, rows, more | .binary, rows, more | .largeUtf8, rows, more | .largeBinary, rows, more => by
    simp [ArrowType.leaves, LeafData.add]
  | .boolean, rows, more | .null, rows, more | .fixedSizeBinary _, rows, more | .primitive _, rows, more => by
    simp [ArrowType.leaves, LeafData.add]
  | .other, _, _ => rfl

theorem ArrowFields.leaves_append : ∀ (fields : ArrowFields) (i : ℕ) (rows more : List Value),
    fields.leaves i (rows ++ more) = List.zipWith LeafData.add (fields.leaves i rows) (fields.leaves i more)
  | .one _ field, i, rows, more => by
    rw [ArrowFields.leaves, List.map_append, field.leaves_append]
    rfl
  | .cons _ field rest, i, rows, more => by
    have hlength := field.length_leaves (rows.map (Value.member i)) (more.map (Value.member i))
    rw [ArrowFields.leaves, List.map_append, field.leaves_append, rest.leaves_append, ArrowFields.leaves,
      ArrowFields.leaves, List.zipWith_append hlength]

end

theorem weigh_add (costs : List LeafCost) : ∀ {leaves more : List LeafData}, costs.length = leaves.length →
    costs.length = more.length →
    weigh costs (List.zipWith LeafData.add leaves more) = weigh costs leaves + weigh costs more := by
  induction costs with
  | nil => simp [weigh]
  | cons cost costs ih =>
    intro leaves more hleaves hmore
    obtain ⟨leaf, leaves, rfl⟩ := List.exists_cons_of_length_eq_add_one hleaves.symm
    obtain ⟨other, more, rfl⟩ := List.exists_cons_of_length_eq_add_one hmore.symm
    have hrest := ih (Nat.succ.inj hleaves) (Nat.succ.inj hmore)
    have hcontents : cost.contentBytes (leaf.contents + other.contents) =
        cost.contentBytes leaf.contents + cost.contentBytes other.contents := by
      unfold LeafCost.contentBytes
      split <;> simp
    simp only [weigh, List.zipWith_cons_cons, List.sum_cons, LeafData.add, hcontents] at hrest ⊢
    rw [hrest]
    ring

/-! ## One row in each batch -/

mutual

/-- A type with no list in it. -/
def ArrowType.listFree : ArrowType → Bool
  | .list _ _ | .map _ _ | .largeList _ _ | .fixedSizeList _ _ _ => false
  | .struct fields => fields.listFree
  | _ => true

/-- Fields with no list in them. -/
def ArrowFields.listFree : ArrowFields → Bool
  | .one _ field => field.listFree
  | .cons _ field rest => field.listFree && rest.listFree

end

mutual

/-- A type whose lists, none of a fixed size, are not null and not below what may be: one row can then hold every null
and an item of each list. -/
def ArrowType.listsFilled : ArrowType → Bool → Bool
  | .list nullable item, valid => !valid && item.listsFilled nullable
  | .map nullable entries, valid => !valid && entries.listsFilled nullable
  | .largeList nullable item, valid => !valid && item.listsFilled nullable
  | .fixedSizeList _ _ _, _ => false
  | .struct fields, valid => if valid then fields.listFree else fields.listsFilled
  | _, _ => true

/-- Fields each of whose lists are so. -/
def ArrowFields.listsFilled : ArrowFields → Bool
  | .one nullable field => field.listsFilled nullable
  | .cons nullable field rest => field.listsFilled nullable && rest.listsFilled

end

mutual

/-- A value with a null where one may be, one item in each list, and empty strings. -/
def ArrowType.sample : ArrowType → Bool → Value
  | .list nullable item, _ => .list [item.sample nullable]
  | .map nullable entries, _ => .list [entries.sample nullable]
  | .largeList nullable item, _ => .list [item.sample nullable]
  | .fixedSizeList nullable item size, _ => .list (List.replicate size (item.sample nullable))
  | .struct fields, valid => if valid then .null else .struct fields.samples
  | _, valid => if valid then .null else .bytes 0

/-- A sample of each field. -/
def ArrowFields.samples : ArrowFields → List Value
  | .one nullable field => [field.sample nullable]
  | .cons nullable field rest => field.sample nullable :: rest.samples

end

theorem flatMap_items_replicate (n : ℕ) (v : Value) :
    (List.replicate n (Value.list [v])).flatMap Value.items = List.replicate n v := by
  induction n with
  | zero => rfl
  | succ n ih => rw [List.replicate_succ, List.flatMap_cons, ih, List.replicate_succ]; rfl

theorem countP_items_replicate (n : ℕ) (v : Value) :
    (List.replicate n (Value.list [v])).countP (fun v => v.items.isEmpty) = 0 := by
  rw [List.countP_replicate, if_neg (by simp [Value.items])]

theorem map_member_replicate {members rest : List Value} {i : ℕ} {v : Value} (h : members.drop i = v :: rest) (n : ℕ) :
    (List.replicate n (Value.struct members)).map (Value.member i) = List.replicate n v := by
  have hget : members.getD i .null = v := by
    rw [List.getD_eq_getElem?_getD, ← Nat.add_zero i, ← List.getElem?_drop, h]
    rfl
  rw [List.map_replicate, Value.member, hget]

theorem drop_succ_of_drop {members rest : List Value} {i : ℕ} {v : Value} (h : members.drop i = v :: rest) :
    members.drop (i + 1) = rest := by
  rw [← List.drop_drop, h]
  rfl

theorem map_member_null (i n : ℕ) : (List.replicate n Value.null).map (Value.member i) = List.replicate n .null :=
  List.map_replicate

mutual

/-- **Nulls store an entry each** in every leaf of a type without lists, and no contents. -/
theorem ArrowType.leaves_null : ∀ (ty : ArrowType), ty.listFree = true → ∀ n,
    ∀ leaf ∈ ty.leaves (List.replicate n .null), leaf = ⟨n, 0⟩
  | .list _ _, h, _ | .map _ _, h, _ | .largeList _ _, h, _ | .fixedSizeList _ _ _, h, _ => nomatch h
  | .struct fields, h, n => fields.leaves_null h 0 n
  | .utf8, _, n | .binary, _, n | .largeUtf8, _, n | .largeBinary, _, n => by simp [ArrowType.leaves, Value.size]
  | .boolean, _, n | .null, _, n | .fixedSizeBinary _, _, n | .primitive _, _, n | .other, _, n => by
    simp [ArrowType.leaves]

theorem ArrowFields.leaves_null : ∀ (fields : ArrowFields), fields.listFree = true → ∀ i n,
    ∀ leaf ∈ fields.leaves i (List.replicate n .null), leaf = ⟨n, 0⟩
  | .one _ field, h, i, n => by
    rw [ArrowFields.leaves, map_member_null]
    exact field.leaves_null h n
  | .cons _ field rest, h, i, n => by
    obtain ⟨hfield, hrest⟩ := Bool.and_eq_true_iff.mp h
    rw [ArrowFields.leaves, map_member_null]
    exact List.forall_mem_append.mpr ⟨field.leaves_null hfield n, rest.leaves_null hrest (i + 1) n⟩

end

mutual

/-- **Samples store an entry each** in every leaf, and no contents. -/
theorem ArrowType.leaves_sample : ∀ (ty : ArrowType) (valid : Bool), ty.listsFilled valid = true → ∀ n,
    ∀ leaf ∈ ty.leaves (List.replicate n (ty.sample valid)), leaf = ⟨n, 0⟩
  | .list nullable item, valid, h, n | .map nullable item, valid, h, n | .largeList nullable item, valid, h, n => by
    intro leaf hleaf
    rw [ArrowType.leaves, ArrowType.sample, flatMap_items_replicate] at hleaf
    obtain ⟨inner, hinner, rfl⟩ := List.mem_map.mp hleaf
    obtain rfl := item.leaves_sample nullable (Bool.and_eq_true_iff.mp h).2 n inner hinner
    simp only [LeafData.missing, countP_items_replicate, Nat.add_zero]
  | .struct fields, true, h, n => fields.leaves_null h 0 n
  | .struct fields, false, h, n => fields.leaves_samples h 0 fields.samples rfl n
  | .fixedSizeList _ _ _, _, h, _ => nomatch h
  | .utf8, valid, _, n | .binary, valid, _, n | .largeUtf8, valid, _, n | .largeBinary, valid, _, n => by
    cases valid <;> simp [ArrowType.leaves, ArrowType.sample, Value.size]
  | .boolean, _, _, n | .null, _, _, n | .fixedSizeBinary _, _, _, n | .primitive _, _, _, n | .other, _, _, n => by
    simp [ArrowType.leaves]

theorem ArrowFields.leaves_samples : ∀ (fields : ArrowFields), fields.listsFilled = true → ∀ i members,
    members.drop i = fields.samples → ∀ n,
    ∀ leaf ∈ fields.leaves i (List.replicate n (.struct members)), leaf = ⟨n, 0⟩
  | .one nullable field, h, i, members, hdrop, n => by
    rw [ArrowFields.leaves, map_member_replicate hdrop]
    exact field.leaves_sample nullable h n
  | .cons nullable field rest, h, i, members, hdrop, n => by
    obtain ⟨hfield, hrest⟩ := Bool.and_eq_true_iff.mp h
    rw [ArrowFields.leaves, map_member_replicate hdrop]
    exact List.forall_mem_append.mpr ⟨field.leaves_sample nullable hfield n,
      rest.leaves_samples hrest (i + 1) members (drop_succ_of_drop hdrop) n⟩

end

theorem validity_null (valid : Bool) : validity valid [.null] = bitmap valid 1 := by
  cases valid <;> rfl

mutual

/-- **A null's buffers** are a row's, in a type without lists. -/
theorem ArrowType.buffers_null : ∀ (ty : ArrowType), ty.listFree = true → ∀ valid,
    ty.buffers valid [.null] = ty.rowBytes valid
  | .list _ _, h, _ | .map _ _, h, _ | .largeList _ _, h, _ | .fixedSizeList _ _ _, h, _ => nomatch h
  | .struct fields, h, valid => by
    rw [ArrowType.buffers, ArrowType.rowBytes, validity_null, fields.buffers_null h]
  | .utf8, _, valid | .binary, _, valid | .largeUtf8, _, valid | .largeBinary, _, valid | .boolean, _, valid => by
    rw [ArrowType.buffers, ArrowType.rowBytes, validity_null]
    rfl
  | .null, _, _ | .other, _, _ => rfl
  | .fixedSizeBinary width, _, valid | .primitive width, _, valid => by
    rw [ArrowType.buffers, ArrowType.rowBytes, validity_null, List.length_singleton, Nat.mul_one]

theorem ArrowFields.buffers_null : ∀ (fields : ArrowFields), fields.listFree = true → ∀ i,
    fields.buffers i [.null] = fields.rowBytes
  | .one nullable field, h, i => field.buffers_null h nullable
  | .cons nullable field rest, h, i => by
    obtain ⟨hfield, hrest⟩ := Bool.and_eq_true_iff.mp h
    rw [ArrowFields.buffers, ArrowFields.rowBytes, ← field.buffers_null hfield nullable, ← rest.buffers_null hrest
      (i + 1)]
    rfl

end

mutual

/-- **A sample's buffers** are a row's. -/
theorem ArrowType.buffers_sample : ∀ (ty : ArrowType) (valid : Bool), ty.listsFilled valid = true →
    ty.buffers valid (List.replicate 1 (ty.sample valid)) = ty.rowBytes valid
  | .list nullable item, false, h | .map nullable item, false, h | .largeList nullable item, false, h => by
    rw [ArrowType.buffers, ArrowType.sample, flatMap_items_replicate,
      item.buffers_sample nullable (Bool.and_eq_true_iff.mp h).2, List.length_replicate]
    rfl
  | .list _ _, true, h | .map _ _, true, h | .largeList _ _, true, h => nomatch h
  | .struct fields, true, h => (ArrowType.struct fields).buffers_null h true
  | .struct fields, false, h => by
    rw [ArrowType.buffers, ArrowType.rowBytes, ArrowType.sample, if_neg Bool.false_ne_true,
      fields.buffers_samples h 0 fields.samples rfl]
    rfl
  | .fixedSizeList _ _ _, _, h => nomatch h
  | .utf8, true, _ | .binary, true, _ | .largeUtf8, true, _ | .largeBinary, true, _ | .boolean, true, _
  | .null, true, _ | .fixedSizeBinary _, true, _ | .primitive _, true, _ | .other, true, _ =>
    ArrowType.buffers_null _ rfl true
  | .utf8, false, _ | .binary, false, _ | .largeUtf8, false, _ | .largeBinary, false, _ | .boolean, false, _
  | .null, false, _ | .other, false, _ => rfl
  | .fixedSizeBinary width, false, _ | .primitive width, false, _ => by
    rw [ArrowType.buffers, List.length_replicate, Nat.mul_one, ArrowType.rowBytes]
    rfl

theorem ArrowFields.buffers_samples : ∀ (fields : ArrowFields), fields.listsFilled = true → ∀ i members,
    members.drop i = fields.samples → fields.buffers i (List.replicate 1 (.struct members)) = fields.rowBytes
  | .one nullable field, h, i, members, hdrop => by
    rw [ArrowFields.buffers, map_member_replicate hdrop]
    exact field.buffers_sample nullable h
  | .cons nullable field rest, h, i, members, hdrop => by
    obtain ⟨hfield, hrest⟩ := Bool.and_eq_true_iff.mp h
    rw [ArrowFields.buffers, map_member_replicate hdrop, field.buffers_sample nullable hfield,
      rest.buffers_samples hrest (i + 1) members (drop_succ_of_drop hdrop), ArrowFields.rowBytes]

end

mutual

/-- A type without lists has none of a fixed size that is null. -/
theorem ArrowType.filled_of_listFree : ∀ (ty : ArrowType), ty.listFree = true → ∀ rows, ty.Filled rows
  | .list _ _, h, _ | .map _ _, h, _ | .largeList _ _, h, _ | .fixedSizeList _ _ _, h, _ => nomatch h
  | .struct fields, h, rows => fields.filled_of_listFree h 0 rows
  | .utf8, _, _ | .binary, _, _ | .largeUtf8, _, _ | .largeBinary, _, _ | .boolean, _, _ | .null, _, _
  | .fixedSizeBinary _, _, _ | .primitive _, _, _ | .other, _, _ => trivial

theorem ArrowFields.filled_of_listFree : ∀ (fields : ArrowFields), fields.listFree = true → ∀ i rows,
    fields.Filled i rows
  | .one _ field, h, _, _ => field.filled_of_listFree h _
  | .cons _ field rest, h, i, rows => by
    obtain ⟨hfield, hrest⟩ := Bool.and_eq_true_iff.mp h
    exact ⟨field.filled_of_listFree hfield _, rest.filled_of_listFree hrest (i + 1) rows⟩

end

mutual

theorem ArrowType.filled_of_listsFilled : ∀ (ty : ArrowType) (valid : Bool), ty.listsFilled valid = true →
    ∀ rows, ty.Filled rows
  | .list nullable item, _, h, _ | .map nullable item, _, h, _ | .largeList nullable item, _, h, _ =>
    item.filled_of_listsFilled nullable (Bool.and_eq_true_iff.mp h).2 _
  | .fixedSizeList _ _ _, _, h, _ => nomatch h
  | .struct fields, true, h, rows => fields.filled_of_listFree h 0 rows
  | .struct fields, false, h, rows => fields.filled_of_listsFilled h 0 rows
  | .utf8, _, _, _ | .binary, _, _, _ | .largeUtf8, _, _, _ | .largeBinary, _, _, _ | .boolean, _, _, _ | .null, _, _, _
  | .fixedSizeBinary _, _, _, _ | .primitive _, _, _, _ | .other, _, _, _ => trivial

theorem ArrowFields.filled_of_listsFilled : ∀ (fields : ArrowFields), fields.listsFilled = true → ∀ i rows,
    fields.Filled i rows
  | .one nullable field, h, _, _ => field.filled_of_listsFilled nullable h _
  | .cons nullable field rest, h, i, rows => by
    obtain ⟨hfield, hrest⟩ := Bool.and_eq_true_iff.mp h
    exact ⟨field.filled_of_listsFilled nullable hfield _, rest.filled_of_listsFilled hrest (i + 1) rows⟩

end

end QueryEngine
