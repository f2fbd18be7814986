import QueryEngine.Execution.PageRows
import QueryEngine.Join.Hierarchical
import QueryEngine.Query.Plan

/-!
# Execution/Relations — the rows a relation relates to its source rows

A relation's target is read through a key filter or an address filter its scan applies, through key sets and address
indexes that relations of the same rows share, not at all where no source row has a key, or through a join over the rows
read.
-/

open Selection Kleene Fallible Lookup QueryEngine.SourceAddresses

namespace QueryEngine

/-! ## Values built once -/

/-- Values built once per distinct key. -/
structure BuiltOnce (κ V : Type) where
  built : List (κ × V)

namespace BuiltOnce

variable {κ V : Type} [DecidableEq κ]

/-- Each key once, in the order of its first use. -/
def distinct (keys : List κ) : List κ :=
  keys.foldl (fun distinct key => if key ∈ distinct then distinct else distinct ++ [key]) []

/-- Values built side by side; the first failure in key order. -/
def tryBuild (keys : List κ) (build : κ → Except String V) : Except String (BuiltOnce κ V) :=
  ((distinct keys).mapM fun key => (build key).map fun value => (key, value)).map BuiltOnce.mk

/-- The value built for a key, which must be one of the keys built. -/
def get (values : BuiltOnce κ V) (key : κ) : Except String V :=
  match values.built.find? fun entry => entry.1 == key with
  | some entry => .ok entry.2
  | none => .error "a value is built for every key"

theorem mem_foldl_distinct (keys : List κ) : ∀ (found : List κ) (key : κ),
    key ∈ keys.foldl (fun distinct key => if key ∈ distinct then distinct else distinct ++ [key]) found ↔
      key ∈ found ∨ key ∈ keys := by
  induction keys with
  | nil => simp
  | cons k keys ih =>
    intro found key
    rw [List.foldl_cons, ih]
    split
    · next hmem =>
      rw [List.mem_cons]
      constructor
      · exact Or.imp_right .inr
      · rintro (h | rfl | h)
        · exact .inl h
        · exact .inl hmem
        · exact .inr h
    · rw [List.mem_append, List.mem_singleton, List.mem_cons, or_assoc]

theorem mem_distinct {keys : List κ} {key : κ} : key ∈ distinct keys ↔ key ∈ keys := by
  rw [distinct, mem_foldl_distinct]
  simp

/-- **A shared value is the value built for its key alone**, and every key asked for has one. -/
theorem exists_tryBuild {keys : List κ} {build : κ → Except String V} {value : κ → V}
    (h : ∀ key ∈ keys, build key = .ok (value key)) :
    ∃ values, tryBuild keys build = .ok values ∧ ∀ key ∈ keys, values.get key = .ok (value key) := by
  have hall : (distinct keys).mapM (fun key => (build key).map fun value => (key, value)) =
      .ok ((distinct keys).map fun key => (key, value key)) := by
    refine mapM_eq_ok.mpr (List.forall₂_map_right_iff.mpr (List.forall₂_same.mpr fun key hkey => ?_))
    rw [h key (mem_distinct.mp hkey)]
    rfl
  refine ⟨⟨(distinct keys).map fun key => (key, value key)⟩, map_eq_ok.mpr ⟨_, hall, rfl⟩, fun key hkey => ?_⟩
  have hfind : ((distinct keys).map fun key => (key, value key)).find? (fun entry => entry.1 == key) =
      some (key, value key) := by
    rw [List.find?_map]
    have hkeyed : (distinct keys).find? ((fun entry : κ × V => entry.1 == key) ∘ fun key => (key, value key)) =
        some key := by
      obtain ⟨found, hfound⟩ := Option.isSome_iff_exists.mp (List.find?_isSome.mpr
        ⟨key, mem_distinct.mpr hkey, show ((fun entry : κ × V => entry.1 == key) ∘ fun key => (key, value key)) key =
          true by
          simp⟩)
      have heq := List.find?_some hfound
      rw [Function.comp_apply, beq_iff_eq] at heq
      rw [hfound, ← heq]
    rw [hkeyed]
    rfl
  rw [get, hfind]

end BuiltOnce

/-! ## What a relation follows -/

/-- A relation's key without the address column: the columns a hierarchical relation groups rows by. -/
def groupKeysForRelation (keys : List String) (address : Option String) : List String :=
  keys.filter fun key => decide (some key ≠ address)

/-- What a children or parents relation follows: which source addresses, and how a target's address relates to them. -/
structure HierarchicalSpec where
  groupKeys : List String
  sourceAddress : String
  targetAddress : String
  mode : HierarchicalMode
  inclusive : Bool

/-- The mode of a relation; none for a join. -/
def RelationKind.hierarchicalMode : RelationKind → Option HierarchicalMode
  | .children => some .children
  | .parents => some .parents
  | .join => none

/-- None for a join, and for a target without an address column.  Another table's row at the source's address belongs to
it, whatever the two address columns are called. -/
def HierarchicalSpec.of (relation : RelationPlan) (target : TableDescription) (sourceTable : String)
    (source : TableDescription) : Option HierarchicalSpec := do
  let mode ← relation.kind.hierarchicalMode
  let targetAddress ← target.addressColumn
  some ⟨groupKeysForRelation relation.leftKey (some targetAddress), source.addressColumn.getD targetAddress,
    targetAddress,
    mode, decide (relation.targetTable ≠ sourceTable)⟩

/-- The key a relation pushes down to its target scan, source columns first: the join key, or a hierarchical relation's
group key. -/
def pushdownKeys (relation : RelationPlan) (target : TableDescription) : Option (List String × List String) :=
  let keys :=
    match relation.kind with
    | .join => (relation.leftKey, relation.rightKey)
    | _ => (groupKeysForRelation relation.leftKey target.addressColumn,
        groupKeysForRelation relation.rightKey target.addressColumn)
  if keys.1 ≠ [] ∧ keys.2 ≠ [] then some keys else none

/-- The addresses of some source rows by group, built once and related to any target. -/
structure AddressIndex where
  sources : SourceAddresses
  groupKeyColumns : List String
  /-- Whether every group key and address column was read. -/
  readable : Bool

namespace AddressIndex

/-- An index of addresses, and whether the columns of their batches were read. -/
def of (primaryBatches : List RecordBatch) (groupKeyColumns : List String) (sourceAddressColumn : String)
    (sources : SourceAddresses) : AddressIndex :=
  ⟨sources, groupKeyColumns, (primaryBatches.filter fun batch => decide (0 < batch.numRows)).all (fun batch =>
    (addressList batch sourceAddressColumn).isSome) && keysReadable primaryBatches groupKeyColumns⟩

/-- The index of some source rows, nothing where their addresses are not counted in 32 bits. -/
def build (primaryBatches : List RecordBatch) (groupKeyColumns : List String) (sourceAddressColumn : String) :
    Option AddressIndex :=
  (SourceAddresses.build primaryBatches groupKeyColumns sourceAddressColumn).map
    (of primaryBatches groupKeyColumns sourceAddressColumn)

/-- The index of some batches' addresses, whatever their number. -/
def ofBatches (primaryBatches : List RecordBatch) (groupKeyColumns : List String) (sourceAddressColumn : String) :
    AddressIndex :=
  of primaryBatches groupKeyColumns sourceAddressColumn (.ofBatches primaryBatches groupKeyColumns sourceAddressColumn)

theorem build_eq {primaryBatches : List RecordBatch} {groupKeyColumns : List String} {sourceAddressColumn : String}
    (hfits : SourceAddresses.Fits primaryBatches groupKeyColumns sourceAddressColumn) :
    build primaryBatches groupKeyColumns sourceAddressColumn =
      some (ofBatches primaryBatches groupKeyColumns sourceAddressColumn) := by
  rw [build, SourceAddresses.build_eq hfits, Option.map_some, ofBatches]

/-- Whether no target row can relate to a source. -/
def matchesNothing (index : AddressIndex) : Bool := index.readable && index.sources.isEmpty

/-- The filter of a target by an index. -/
def filter (index : AddressIndex) (targetAddressColumn : String) (mode : HierarchicalMode) (inclusive : Bool) :
    HierarchicalFilter :=
  ⟨index.sources, index.groupKeyColumns, targetAddressColumn, mode, inclusive⟩

end AddressIndex

/-- Whether no row can be related. -/
def HierarchicalFilter.isEmpty (filter : HierarchicalFilter) : Bool := filter.sources.isEmpty

/-- What one relation's target scan needs from its table's rows. -/
structure RelationInput where
  relation : RelationPlan
  target : TableDescription
  hierarchy : Option HierarchicalSpec
  /-- The primary rows it follows: all of them, or those its own items matched. -/
  source : List RecordBatch
  keyFilter : Option KeyFilter
  hierarchicalFilter : Option HierarchicalFilter
  /-- Every row it follows has a null in its key or address. -/
  keyless : Bool

/-- Whether no target row can relate to the rows it follows, so that the target is never opened. -/
def RelationInput.followsNothing (input : RelationInput) : Bool :=
  input.keyless || input.source.all fun batch => batch.numRows == 0

section Inputs

variable (table : String) (desc : TableDescription)

/-- The address lookup of a relation, where its rows are in groups. -/
def addressSpec (relation : RelationPlan) (target : TableDescription) : Option HierarchicalSpec :=
  (HierarchicalSpec.of relation target table desc).filter fun spec => !spec.groupKeys.isEmpty

/-- A filter of the keys of a set.  Keys of another width are refused. -/
def pushedFilter (keys : KeySet) (right : List String) (targetBlockColumn : String) : Except String KeyFilter :=
  match keys.filter right targetBlockColumn with
  | some filter => .ok filter
  | none => .error "assertion failed: self.width == right_keys.len()"

/-- One relation's input, from the values built for all of them. -/
def relationInput (keySet : Option (List ℕ) × List String → Except String KeySet)
    (addressIndex : Option (List ℕ) × List String × String → Except String AddressIndex)
    (sources : Option (List ℕ) → Except String (List RecordBatch)) (relation : RelationPlan)
      (target : TableDescription) :
    Except String RelationInput := do
  let items := relation.sourceItems
  let keys ← (pushdownKeys relation target).elim (.ok none) fun pushed =>
    (keySet (items, pushed.1)).map fun set => some (set, pushed.2)
  let addresses ← (addressSpec table desc relation target).elim (.ok none) fun spec =>
    (addressIndex (items, spec.groupKeys, spec.sourceAddress)).map fun index => some (index, spec)
  let keyFilter ← keys.elim (.ok none) fun pushed =>
    (pushedFilter pushed.1 pushed.2 target.blockNumberColumn).map some
  let source ← sources items
  .ok ⟨relation, target, HierarchicalSpec.of relation target table desc, source,
    keyFilter.filter fun filter => !filter.isEmpty,
    (addresses.map fun found => found.1.filter found.2.targetAddress found.2.mode found.2.inclusive).filter fun
      filter =>
      !filter.isEmpty,
    keys.any (fun pushed => pushed.1.matchesNothing) || addresses.any fun found => found.1.matchesNothing⟩

/-- What is indexed, or the panic of a slice that misses. -/
def indexed {α : Type} (index : Option α) : Except String α :=
  index.elim (.error "range end index out of range for slice") .ok

/-- Each relation's input.  Relations that follow the same rows share the key set and the address index built from
them. -/
def relationInputs (relations : List (RelationPlan × TableDescription))
    (sources : BuiltOnce (Option (List ℕ)) (List RecordBatch)) : Except String (List RelationInput) := do
  let keySets ← BuiltOnce.tryBuild (relations.filterMap fun r =>
      (pushdownKeys r.1 r.2).map fun pushed => (r.1.sourceItems, pushed.1))
    fun key => (sources.get key.1).bind fun batches => indexed (KeySet.build batches key.2 desc.blockNumberColumn)
  let addressIndexes ← BuiltOnce.tryBuild (relations.filterMap fun r =>
      (addressSpec table desc r.1 r.2).map fun spec => (r.1.sourceItems, spec.groupKeys, spec.sourceAddress))
    fun key => (sources.get key.1).bind fun batches => indexed (AddressIndex.build batches key.2.1 key.2.2)
  relations.mapM fun r => relationInput table desc keySets.get addressIndexes.get sources.get r.1 r.2

end Inputs

/-! ## Reading the target -/

/-- A join's masks, as a filter of rows takes them. -/
def maskAt (masks : List (List Bool)) (index : ℕ) : Except String Mask :=
  match masks[index]? with
  | some mask => .ok (mask.map some)
  | none => .error "index out of bounds"

/-- A join's answer, or its message. -/
def reported {α : Type} : Result α → Except String α
  | .ok a => .ok a
  | .error e => .error e.message

/-- The target rows read that a join relates. -/
def RelationInput.joined (input : RelationInput) (target : Rows) : Except String Rows := do
  let masks ← reported (lookupJoinMasks input.source input.relation.leftKey target.batches input.relation.rightKey)
  target.filter fun index _ => maskAt masks index

/-- The target rows read that the address order relates; none of a target without addresses. -/
def RelationInput.relatives (input : RelationInput) (target : Rows) : Except String Rows :=
  match input.hierarchy with
  | none => .ok .default
  | some spec => do
    let masks ← reported (modeMasks spec.mode input.source target.batches spec.groupKeys spec.sourceAddress
      spec.targetAddress spec.inclusive)
    target.filter fun index _ => maskAt masks index

/-- Read the target rows one relation relates to its source rows.  A filter the scan applied already kept only the
related rows. -/
def scanRelation (input : RelationInput)
    (scanRows : Option KeyFilter → Option HierarchicalFilter → Except String Rows) : Except String Rows := do
  let target ← scanRows input.keyFilter input.hierarchicalFilter
  match input.relation.kind with
  | .join => if input.keyFilter.isSome then .ok target else input.joined target
  | _ => if input.hierarchicalFilter.isSome then .ok target else input.relatives target

theorem scanRelation_join {input : RelationInput} (h : input.relation.kind = .join)
    (scanRows : Option KeyFilter → Option HierarchicalFilter → Except String Rows) : scanRelation input scanRows =
      (scanRows input.keyFilter input.hierarchicalFilter).bind fun target =>
        if input.keyFilter.isSome then .ok target else input.joined target := by
  unfold scanRelation
  rw [h]
  rfl

theorem scanRelation_hierarchical {input : RelationInput} (h : input.relation.kind ≠ .join)
    (scanRows : Option KeyFilter → Option HierarchicalFilter → Except String Rows) : scanRelation input scanRows =
      (scanRows input.keyFilter input.hierarchicalFilter).bind fun target =>
        if input.hierarchicalFilter.isSome then .ok target else input.relatives target := by
  unfold scanRelation
  cases hkind : input.relation.kind with
  | join => exact absurd hkind h
  | children | parents => rfl

/-- A relation's rows; none where it follows nothing. -/
def relationRows (input : RelationInput)
    (scanRows : Option KeyFilter → Option HierarchicalFilter → Except String Rows) : Except String (Option Rows) :=
  if input.followsNothing then .ok none else (scanRelation input scanRows).map some

end QueryEngine
