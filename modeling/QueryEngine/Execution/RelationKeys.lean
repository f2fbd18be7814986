import QueryEngine.Query.Aliases
import QueryEngine.Query.Plan
import QueryEngine.Execution.RelationRanges

/-!
# Execution/RelationKeys — the loader's check of a relation

A relation that loads pairs its keys column by column, starts both with the block number, and walks an address that both
tables have (`checkRelation_eq_ok`); so execution can read it, whichever rows it follows, within its blocks
  (`loaded_relation`).
-/

open Fallible

namespace QueryEngine

/-! ## The check -/

/-- The names of a list, as a message shows them. -/
def displayNames (names : List String) : String := "[" ++ ", ".intercalate (names.map String.quote) ++ "]"

/-- A relation's kind, as a message spells it. -/
def RelationKind.display : RelationKind → String
  | .join => "Join"
  | .children => "Children"
  | .parents => "Parents"

section Check

variable (owner relationName : String)

/-- One side's keys are columns of its table, the block number first. -/
def checkKeySide (side : String) (keys : List String) (tableName : String) (table : Table) : Except String Unit := do
  keys.forM fun key => ensure (table.columns.contains key) (owner ++ ": relation '" ++ relationName ++ "' joins on " ++
    side ++ " key '" ++ key ++ "', which '" ++ tableName ++ "' does not have")
  ensure (keys.head? == some table.blockNumberColumn) (owner ++ ": relation '" ++ relationName ++ "' starts its " ++
    side ++ " key with '" ++ keys.head?.getD "" ++ "' rather than '" ++ table.blockNumberColumn ++
    "', so it can join across blocks")

/-- A side that is walked has an address column. -/
def checkAddress (kind : RelationKind) (side tableName : String) (table : Table) : Except String Unit :=
  ensure table.addressColumn.isSome (owner ++ ": relation '" ++ relationName ++ "' is " ++ kind.display ++
    ", but its " ++ side ++ " '" ++ tableName ++ "' declares no address column to walk")

/-- What a children or parents relation walks: addresses on both sides, and rows grouped by the same columns. -/
def checkWalk (relation : RelationDef) (sourceName : String) (source target : Table) : Except String Unit := do
  checkAddress owner relationName relation.kind "source" sourceName source
  checkAddress owner relationName relation.kind "target" relation.table target
  let leftGroup := groupKeysForRelation relation.effectiveLeftKey target.addressColumn
  let rightGroup := groupKeysForRelation relation.effectiveRightKey target.addressColumn
  ensure (leftGroup == rightGroup) (owner ++ ": relation '" ++ relationName ++ "' is " ++ relation.kind.display ++
    " and walks '" ++ target.addressColumn.getD "" ++ "', so the rest of its key must name the same columns on both " ++
    "sides, but they are " ++ displayNames leftGroup ++ " and " ++ displayNames rightGroup)

/-- A relation must name a table the dataset has, and key columns both sides carry. -/
def checkRelation (relation : RelationDef) (sourceName : String) (source : Table) (desc : DatasetDescription) :
    Except String Unit := do
  let target ← (desc.tables.get? relation.table).elim (.error (owner ++ ": relation '" ++ relationName ++
    "' targets table '" ++ relation.table ++ "', which the dataset does not have")) .ok
  let left := relation.effectiveLeftKey
  let right := relation.effectiveRightKey
  -- an empty key is the same key for every row
  ensure (!left.isEmpty && !right.isEmpty) (owner ++ ": relation '" ++ relationName ++
    "' declares no join key, which matches every row of '" ++ relation.table ++ "'")
  ensure (left.length == right.length) (owner ++ ": relation '" ++ relationName ++ "' joins " ++
    toString left.length ++ " left keys against " ++ toString right.length ++ " right keys")
  checkKeySide owner relationName "left" left sourceName source
  checkKeySide owner relationName "right" right relation.table target
  if relation.kind = .join then .ok () else checkWalk owner relationName relation sourceName source target

end Check

/-! ## What a relation that loads promises -/

/-- **Keys as the loader takes them**: paired, led by the block number, and over the same groups where addresses are
walked. -/
structure KeyedAsDeclared (kind : RelationKind) (left right : List String) (source target : TableDescription) :
    Prop where
  paired : left.length = right.length
  left_eq : ∃ rest, left = source.blockNumberColumn :: rest
  right_eq : ∃ rest, right = target.blockNumberColumn :: rest
  addressed : kind ≠ .join → source.addressColumn.isSome = true ∧ target.addressColumn.isSome = true
  grouped : kind ≠ .join → groupKeysForRelation left target.addressColumn =
    groupKeysForRelation right target.addressColumn

variable {owner relationName sourceName : String} {relation : RelationDef} {source : Table} {desc : DatasetDescription}

theorem checkKeySide_eq_ok {side tableName : String} {keys : List String} {table : Table} {u : Unit}
    (h : checkKeySide owner relationName side keys tableName table = .ok u) :
    ∃ rest, keys = table.blockNumberColumn :: rest := by
  obtain ⟨_, -, hhead⟩ := bind_eq_ok.mp h
  have hfirst := beq_iff_eq.mp (ensure_eq_ok.mp hhead)
  cases keys with
  | nil => cases hfirst
  | cons key rest => exact ⟨rest, by rw [Option.some.inj hfirst]⟩

/-- **A relation that loads is keyed as declared**, on a target that is there. -/
theorem checkRelation_eq_ok {u : Unit} (h : checkRelation owner relationName relation sourceName source desc = .ok u) :
    ∃ target, desc.tables.get? relation.table = some target ∧ KeyedAsDeclared relation.kind relation.effectiveLeftKey
      relation.effectiveRightKey source.toTableDescription target.toTableDescription := by
  obtain ⟨target, htarget, h⟩ := bind_eq_ok.mp h
  obtain ⟨_, -, h⟩ := bind_eq_ok.mp h
  obtain ⟨_, hpaired, h⟩ := bind_eq_ok.mp h
  obtain ⟨_, hleft, h⟩ := bind_eq_ok.mp h
  obtain ⟨_, hright, h⟩ := bind_eq_ok.mp h
  have hget : desc.tables.get? relation.table = some target := by
    cases hfound : desc.tables.get? relation.table with
    | none => rw [hfound] at htarget; cases htarget
    | some found => rw [hfound] at htarget; rw [Except.ok.inj htarget]
  refine ⟨target, hget, ⟨beq_iff_eq.mp (ensure_eq_ok.mp hpaired), checkKeySide_eq_ok hleft, checkKeySide_eq_ok hright,
    fun hkind => ?_, fun hkind => ?_⟩⟩
  all_goals
    rw [if_neg hkind] at h
    obtain ⟨_, hsource, h⟩ := bind_eq_ok.mp h
    obtain ⟨_, hwalked, h⟩ := bind_eq_ok.mp h
  · exact ⟨ensure_eq_ok.mp hsource, ensure_eq_ok.mp hwalked⟩
  · exact beq_iff_eq.mp (ensure_eq_ok.mp h)

/-- **A relation that loads stays within its blocks**, where no address column is a block number. -/
theorem KeyedAsDeclared.ledByBlock {relation : RelationPlan} {source target : TableDescription}
    (h : KeyedAsDeclared relation.kind relation.leftKey relation.rightKey source target)
    (hsource : target.addressColumn ≠ some source.blockNumberColumn)
    (htarget : target.addressColumn ≠ some target.blockNumberColumn) : relation.LedByBlock source target := by
  refine ⟨h.left_eq, h.right_eq, fun hkind => ⟨?_, hsource⟩⟩
  obtain ⟨rest, hleft⟩ := h.left_eq
  obtain ⟨others, hright⟩ := h.right_eq
  have hgrouped := h.grouped hkind
  rw [hleft, hright, groupKeysForRelation, groupKeysForRelation,
    List.filter_cons_of_pos (by simpa using hsource.symm),
    List.filter_cons_of_pos (by simpa using htarget.symm)] at hgrouped
  exact (List.cons.inj hgrouped).1.symm

/-! ## What a relation that loads is read as -/

/-- Relations whose keys load never fail to share their filters. -/
theorem KeyedAsDeclared.pushed_length {relation : RelationPlan} {source target : TableDescription}
    (h : KeyedAsDeclared relation.kind relation.leftKey relation.rightKey source target) :
    ∀ pushed ∈ pushdownKeys relation target, pushed.1.length = pushed.2.length := by
  intro pushed hpushed
  by_cases hjoin : relation.kind = .join
  · rw [pushdownKeys_join hjoin] at hpushed
    obtain ⟨-, hsome⟩ := Option.ite_none_right_eq_some.mp hpushed
    obtain rfl := Option.some.inj hsome
    exact h.paired
  · rw [pushdownKeys_grouped hjoin (h.grouped hjoin)] at hpushed
    obtain ⟨-, hsome⟩ := Option.ite_none_right_eq_some.mp hpushed
    obtain rfl := Option.some.inj hsome
    rfl

/-- The walk of a children or parents relation whose key is led by the block number. -/
theorem RelationPlan.LedByBlock.exists_spec {table : String} {source target : TableDescription}
    {relation : RelationPlan} (h : relation.LedByBlock source target) (hkind : relation.kind ≠ .join)
    (haddress : target.addressColumn.isSome = true) :
    ∃ spec, HierarchicalSpec.of relation target table source = some spec ∧ spec.groupKeys ≠ [] := by
  obtain ⟨address, haddress⟩ := Option.isSome_iff_exists.mp haddress
  obtain ⟨mode, hmode⟩ : ∃ mode, relation.kind.hierarchicalMode = some mode := by
    cases hrelation : relation.kind with
    | join => exact absurd hrelation hkind
    | children => exact ⟨.children, rfl⟩
    | parents => exact ⟨.parents, rfl⟩
  refine ⟨⟨groupKeysForRelation relation.leftKey (some address), source.addressColumn.getD address, address, mode,
    decide (relation.targetTable ≠ table)⟩, ?_, ?_⟩
  · rw [HierarchicalSpec.of, hmode, haddress]
    rfl
  · obtain ⟨rest, hleft⟩ := h.left
    obtain ⟨-, hnot⟩ := h.grouped hkind
    rw [haddress] at hnot
    rw [hleft, groupKeysForRelation, List.filter_cons_of_pos (by simpa using hnot.symm)]
    exact List.cons_ne_nil _ _

/-- **The plan of a relation that loaded**: following every row of its source table, or those that some of its items
matched. -/
def RelationPlan.Loaded (plan : RelationPlan) (sourceName : String) (source target : Table) (query : Query)
    (desc : DatasetDescription) : Prop :=
  ∃ (owner relationName : String) (relation : RelationDef) (items : Option (List ℕ)),
    checkRelation owner relationName relation sourceName source desc = .ok () ∧
    desc.tables.get? relation.table = some target ∧ plan = { planRelation query desc relation with sourceItems :=
      items }

theorem RelationPlan.Loaded.keyed {plan : RelationPlan} {target : Table} {query : Query}
    (h : plan.Loaded sourceName source target query desc) :
    KeyedAsDeclared plan.kind plan.leftKey plan.rightKey source.toTableDescription target.toTableDescription := by
  obtain ⟨owner, relationName, relation, items, hcheck, htarget, rfl⟩ := h
  obtain ⟨found, hfound, hkeyed⟩ := checkRelation_eq_ok hcheck
  obtain rfl := Option.some.inj (hfound.symm.trans htarget)
  exact hkeyed

/-- **Relations that load are ones execution can read.**  A relation that loads has the table it targets.  Of any list
of them, following all rows of their source table or those some items matched, the shared filters are built where the
rows followed fit an index, with no assertion of theirs failing; and where no address column is a block number, a
children or parents relation has an address to walk in groups, and each relates a row to rows of its own block alone. -/
theorem loaded_relation (sourceName : String) (source : Table) (query : Query) (desc : DatasetDescription) :
    (∀ owner relationName relation, checkRelation owner relationName relation sourceName source desc = .ok () →
      ∃ target, desc.tables.get? relation.table = some target ∧ ∀ items,
        RelationPlan.Loaded { planRelation query desc relation with sourceItems := items } sourceName source target
          query
          desc) ∧
    ∀ planned : List (RelationPlan × Table), (∀ r ∈ planned, r.1.Loaded sourceName source r.2 query desc) →
      (∀ (sources : BuiltOnce (Option (List ℕ)) (List RecordBatch)) (rowsOf : Option (List ℕ) → List RecordBatch),
        (∀ r ∈ planned, sources.get r.1.sourceItems = .ok (rowsOf r.1.sourceItems) ∧
          r.1.Fits sourceName source.toTableDescription r.2.toTableDescription (rowsOf r.1.sourceItems)) →
        ∃ inputs, relationInputs sourceName source.toTableDescription
          (planned.map fun r => (r.1, r.2.toTableDescription)) sources = .ok inputs) ∧
      ∀ r ∈ planned, r.2.addressColumn ≠ some source.blockNumberColumn →
        r.2.addressColumn ≠ some r.2.blockNumberColumn →
        (r.1.kind ≠ .join → ∃ spec, HierarchicalSpec.of r.1 r.2.toTableDescription sourceName
          source.toTableDescription = some spec ∧ spec.groupKeys ≠ []) ∧
        ∀ rows : List RecordBatch, (∀ s ∈ rows, s.Numbered source.blockNumberColumn) →
          ∀ (batch : RecordBatch) row, batch.Numbered r.2.blockNumberColumn →
            r.1.Relates sourceName source.toTableDescription r.2.toTableDescription rows batch row →
            ∃ b, batch.blockAt r.2.blockNumberColumn row = some b ∧ ∃ s ∈ rows, ∃ i < s.numRows,
              s.blockAt source.blockNumberColumn i = some b := by
  refine ⟨fun owner relationName relation hcheck => ?_, fun planned hloaded => ⟨fun sources rowsOf hsources => ?_,
    fun r hr hsource hown => ?_⟩⟩
  · obtain ⟨target, htarget, -⟩ := checkRelation_eq_ok hcheck
    exact ⟨target, htarget, fun items => ⟨owner, relationName, relation, items, hcheck, htarget, rfl⟩⟩
  · refine ⟨_, @relationInputs_eq sourceName source.toTableDescription _ sources rowsOf ?_ ?_ ?_⟩
    all_goals
      intro r hr
      obtain ⟨own, hown, rfl⟩ := List.mem_map.mp hr
    · exact (hsources own hown).1
    · exact (hloaded own hown).keyed.pushed_length
    · exact (hsources own hown).2
  · have hkeyed := (hloaded r hr).keyed
    have hled := hkeyed.ledByBlock hsource hown
    refine ⟨fun hkind => hled.exists_spec hkind (hkeyed.addressed hkind).2,
      fun rows hnumbered batch row hbatch hrelates =>
      ?_⟩
    obtain ⟨s, hs, i, hi, hrelated⟩ := relates_iff_relatesRow.mp hrelates
    obtain ⟨b, hb, hblock⟩ := hled.block_eq (hnumbered s hs) hbatch hrelated
    exact ⟨b, hb, s, hs, i, hi, hblock⟩

/-- Calls, each at its path in a block. -/
def tracedCalls : Table where
  blockNumberColumn := "number"
  addressColumn := some "path"
  itemOrderKeys := []
  requestSurface := none
  output := ⟨none, [], .empty, none, .empty⟩
  parentHashColumn := none
  columns := ⟨[("number", plainColumn .uint64), ("path", plainColumn .listUInt32)], by decide⟩

/-- A call's children are calls. -/
def childCalls : RelationDef := ⟨"calls", .children, ["number", "path"], [], []⟩

/-- The calls of a call's block. -/
def blockCalls : RelationDef := ⟨"calls", .join, ["number"], [], []⟩

def callsDataset : DatasetDescription := ⟨"test", ⟨[("calls", tracedCalls)], by decide⟩, .empty⟩

/-- A call's children and the calls of its block load, and are read for every call or for those an item matched. -/
theorem loaded_relation_childCalls :
    checkRelation "table 'calls'" "children" childCalls "calls" tracedCalls callsDataset = .ok () ∧
    checkRelation "table 'calls'" "block" blockCalls "calls" tracedCalls callsDataset = .ok () ∧
    ∀ rowsOf : Option (List ℕ) → List RecordBatch, (∀ items, SourceAddresses.Fits (rowsOf items) ["number"] "path") →
      ∃ inputs, relationInputs "calls" tracedCalls.toTableDescription
        [({ planRelation relatedQuery callsDataset childCalls with sourceItems := some [1] },
            tracedCalls.toTableDescription),
          (planRelation relatedQuery callsDataset blockCalls, tracedCalls.toTableDescription)]
        ⟨[(none, rowsOf none), (some [1], rowsOf (some [1]))]⟩ = .ok inputs := by
  refine ⟨rfl, rfl, fun rowsOf hfits => ?_⟩
  have hloaded : ∀ r ∈ [({ planRelation relatedQuery callsDataset childCalls with sourceItems := some [1] },
      tracedCalls),
      (planRelation relatedQuery callsDataset blockCalls, tracedCalls)],
      RelationPlan.Loaded r.1 "calls" tracedCalls r.2 relatedQuery callsDataset := by
    intro r hr
    rcases List.mem_pair.mp hr with rfl | rfl
    · exact ⟨"table 'calls'", "children", childCalls, some [1], rfl, rfl, rfl⟩
    · exact ⟨"table 'calls'", "block", blockCalls, none, rfl, rfl, rfl⟩
  refine ((loaded_relation "calls" tracedCalls relatedQuery callsDataset).2 _ hloaded).1 _ rowsOf fun r hr => ?_
  rcases List.mem_pair.mp hr with rfl | rfl
  · refine ⟨rfl, ⟨?_, ?_⟩⟩
    · rintro _ ⟨⟩ hpath
      cases hpath
    · rintro _ ⟨⟩
      exact hfits _
  · refine ⟨rfl, ⟨?_, ?_⟩⟩
    · rintro _ ⟨⟩ hpath
      cases hpath
    · rintro _ ⟨⟩

end QueryEngine
