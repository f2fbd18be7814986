import QueryEngine.Query.Filters

/-!
# Query/Plan — what a request compiles to

Each table a request has items of compiles to one plan: the predicates of its items, and the relations they ask
for.  A name is not a join — two names can declare one, and one name means another join through each alias — so
a relation is planned once a join, with the items that asked for it; items no row can match are not counted.
-/

open Fallible

namespace QueryEngine

/-! ## Requests and plans -/

/-- A parsed request. -/
structure Query where
  fromBlock : ℕ
  toBlock : Option ℕ
  includeAllBlocks : Bool
  parentBlockHash : Option String
  /-- The fields selected of each table. -/
  fields : Dict (List String)
  /-- The items of each table. -/
  items : Dict (List QueryItem)
  sets : Sets

/-- A relation to evaluate after a scan. -/
structure RelationPlan where
  targetTable : String
  kind : RelationKind
  leftKey : List String
  rightKey : List String
  outputColumns : List String
  /-- The items that asked for the relation; none when every item did. -/
  sourceItems : Option (List ℕ)
  deriving DecidableEq, Repr

/-- Whether another relation reads the same rows into the same output. -/
def RelationPlan.sameJoin (r other : RelationPlan) : Bool :=
  decide (r.targetTable = other.targetTable) && decide (r.kind = other.kind) && decide (r.leftKey = other.leftKey) &&
    decide (r.rightKey = other.rightKey) && decide (r.outputColumns = other.outputColumns)

/-- Whether the rows an item matched feed the relation. -/
def RelationPlan.follows (r : RelationPlan) (item : ℕ) : Prop := ∀ items ∈ r.sourceItems, item ∈ items

/-- A table's scan. -/
structure TablePlan where
  table : String
  outputColumns : List String
  predicates : List RowPredicate
  relations : List RelationPlan

/-- An execution plan. -/
structure Plan where
  fromBlock : ℕ
  toBlock : Option ℕ
  includeAllBlocks : Bool
  parentBlockHash : Option String
  blockTable : String
  blockOutputColumns : List String
  tablePlans : List TablePlan

/-! ## Relations -/

/-- The relation a name denotes for an item: the alias's own, where the item came through one. -/
def relationDef (metadata : DatasetDescription) (desc : Table) (item : QueryItem) (name : String) :
    Option RelationDef :=
  match item.aliasName with
  | some key => (metadata.aliases.get? key).bind fun a => a.relations.get? name
  | none => desc.request.relations.get? name

/-- Columns in the order the catalog defines them, then virtual fields, then what is neither. -/
def orderColumnsByMetadata (cols : List String) (desc : Option Table) : List String :=
  match desc with
  | none => cols
  | some desc =>
    let result := desc.columns.keys.filter (· ∈ cols) ++ desc.output.virtualFields.keys.filter (· ∈ cols)
    cols.foldl (fun result col => if col ∈ result then result else result ++ [col]) result

/-- The fields a request selects of a table, in order. -/
def selectedColumns (query : Query) (table : String) (desc : Option Table) : List String :=
  ((query.fields.get? table).map fun cols => orderColumnsByMetadata cols desc).getD []

/-- The join a relation declares, with nothing yet asking for it. -/
def planRelation (query : Query) (metadata : DatasetDescription) (d : RelationDef) : RelationPlan where
  targetTable := d.table
  kind := d.kind
  leftKey := d.effectiveLeftKey
  rightKey := d.effectiveRightKey
  outputColumns := selectedColumns query d.table (metadata.tables.get? d.table)
  sourceItems := none

/-- Relations planned so far, with the items asking for each. -/
abbrev Planned := List (RelationPlan × Finset ℕ)

/-- An item asks for a join: where it is planned, or newly. -/
def Planned.record (plan : RelationPlan) (item : ℕ) : Planned → Planned
  | [] => [(plan, {item})]
  | (r, sources) :: planned =>
    if r.sameJoin plan then (r, insert item sources) :: planned else (r, sources) :: record plan item planned

/-- The relation an item's name denotes, planned. -/
def itemRelation (query : Query) (metadata : DatasetDescription) (tableName : String) (desc : Table) (item : QueryItem)
    (name : String) : Result RelationPlan :=
  match relationDef metadata desc item name with
  | some d => .ok (planRelation query metadata d)
  | none => .error ⟨.unknownFilter, "unknown relation '" ++ name ++ "' for table '" ++ tableName ++ "'"⟩

/-- The relations an item asks for, recorded. -/
def recordItem (query : Query) (metadata : DatasetDescription) (tableName : String) (desc : Table) (item : QueryItem)
    (index : ℕ) (planned : Planned) : Result Planned :=
  item.relations.foldlM (fun planned name => do
    let plan ← itemRelation query metadata tableName desc item name
    .ok (planned.record plan index)) planned

/-! ## Tables -/

/-- What a table's items have compiled to so far. -/
structure TableState where
  predicates : List RowPredicate
  relations : Planned
  totalItems : ℕ
  referred : References

/-- One item more.  One that no row can match is not counted. -/
def planItem (hash : ℕ → Bytes → ℕ) (query : Query) (metadata : DatasetDescription) (tableName : String) (desc : Table)
    (s : TableState) (item : QueryItem) : Result TableState := do
  let scope : SetScope := ⟨query.sets, (query.fields.get? tableName).getD []⟩
  match ← compileItemPredicates hash item desc scope s.referred with
  | (.unsatisfiable, referred) => .ok { s with referred := referred }
  | (.predicate p, referred) =>
    let relations ← recordItem query metadata tableName desc item s.predicates.length s.relations
    .ok ⟨s.predicates ++ [p], relations, s.totalItems + 1, referred⟩

/-- The relations of a table.  One that every item asked for follows every row. -/
def fillSources (totalItems : ℕ) (planned : Planned) : List RelationPlan :=
  planned.map fun p =>
    { p.1 with sourceItems := if p.2.card = totalItems then none else some (p.2.sort (· ≤ ·)) }

/-- A table's plan, if any of its items can match. -/
def planTable (hash : ℕ → Bytes → ℕ) (query : Query) (metadata : DatasetDescription) (tableName : String)
    (items : List QueryItem) (referred : References) : Result (Option TablePlan × References) :=
  match metadata.tables.get? tableName with
  | none => .error ⟨.unknownTable, "table '" ++ tableName ++ "' not found in metadata"⟩
  | some desc => do
    let s ← items.foldlM (planItem hash query metadata tableName desc) ⟨[], [], 0, referred⟩
    if s.totalItems = 0 then .ok (none, s.referred)
    else
      .ok (some ⟨tableName, selectedColumns query tableName (some desc), s.predicates,
        fillSources s.totalItems s.relations⟩, s.referred)

/-- Whether one requested table comes before another: in the catalog's order, and by name. -/
def requestedBefore (metadata : DatasetDescription) (a b : String × List QueryItem) : Prop :=
  match metadata.tables.indexOf a.1, metadata.tables.indexOf b.1 with
  | none, none => a.1 ≤ b.1
  | none, some _ => True
  | some _, none => False
  | some i, some j => i < j ∨ i = j ∧ a.1 ≤ b.1

instance (metadata : DatasetDescription) : DecidableRel (requestedBefore metadata) := fun a b => by
  unfold requestedBefore
  split <;> infer_instance

/-- The plans of the requested tables. -/
def planTables (hash : ℕ → Bytes → ℕ) (query : Query) (metadata : DatasetDescription) :
    Result (List TablePlan × References) :=
  (query.items.entries.insertionSort (requestedBefore metadata)).foldlM (fun s requested => do
    let (plan, referred) ← planTable hash query metadata requested.1 requested.2 s.2
    .ok (s.1 ++ plan.toList, referred)) ([], ⟨[], 0⟩)

/-- **Compile a request.** -/
def compile (hash : ℕ → Bytes → ℕ) (query : Query) (metadata : DatasetDescription) : Result Plan := do
  let blockTable := ((metadata.tables.entries.find? fun t => t.2.isBlockTable).map Prod.fst).getD "blocks"
  let blockTableDesc := metadata.tables.get? blockTable
  let declared := (blockTableDesc.bind Table.parentHashColumn).isSome
  engineEnsure (query.parentBlockHash.isNone || declared) .unsupportedRequestField
    ("'parentBlockHash' is not supported for dataset '" ++ metadata.name ++ "': its '" ++ blockTable ++
      "' table declares no parent-hash column")
  let (tablePlans, referred) ← planTables hash query metadata
  match query.sets.keys.find? fun name => decide (name ∉ referred.named) with
  | some name => .error ⟨.invalidSet, "set '" ++ name ++ "' is declared, and no filter refers to it"⟩
  | none =>
    .ok ⟨query.fromBlock, query.toBlock, query.includeAllBlocks, query.parentBlockHash, blockTable,
      selectedColumns query blockTable blockTableDesc, tablePlans⟩

/-! ## Joins -/

namespace RelationPlan

/-- The join a relation is. -/
def join (r : RelationPlan) : String × RelationKind × List String × List String × List String :=
  (r.targetTable, r.kind, r.leftKey, r.rightKey, r.outputColumns)

theorem sameJoin_iff (r other : RelationPlan) : r.sameJoin other = true ↔ r.join = other.join := by
  simp only [sameJoin, join, Bool.and_eq_true, decide_eq_true_eq, Prod.mk.injEq, and_assoc]

end RelationPlan

/-- Which item asked for which join. -/
abbrev Asks := List (ℕ × RelationPlan)

/-- **What is planned is what was asked for**: a join once, with the items that asked for it. -/
structure AsksRecorded (planned : Planned) (asks : Asks) : Prop where
  distinct : (planned.map fun p => p.1.join).Nodup
  sources : ∀ p ∈ planned, ∀ i, i ∈ p.2 ↔ ∃ ask ∈ asks, ask.1 = i ∧ p.1.join = ask.2.join
  asked : ∀ ask ∈ asks, ∃ p ∈ planned, p.1.join = ask.2.join

namespace Planned

variable {plan : RelationPlan} {item : ℕ}

/-- The joins planned with one recorded. -/
theorem joins_record : ∀ planned : Planned, ((record plan item planned).map fun p => p.1.join) =
    if plan.join ∈ planned.map (fun p => p.1.join) then planned.map fun p => p.1.join
    else planned.map (fun p => p.1.join) ++ [plan.join]
  | [] => by simp [record]
  | (r, sources) :: planned => by
    rw [record]
    by_cases h : r.join = plan.join
    · rw [if_pos ((r.sameJoin_iff plan).mpr h)]
      simp [h]
    · have hne : ¬plan.join = r.join := fun heq => h heq.symm
      rw [if_neg fun hsame => h ((r.sameJoin_iff plan).mp hsame), List.map_cons, joins_record planned]
      split
      · next hmem => simp [hmem]
      · next hmem => simp [hne, hmem]

/-- What is planned once a join is recorded. -/
theorem mem_record : ∀ {planned : Planned}, (planned.map fun p => p.1.join).Nodup → ∀ p ∈ record plan item planned,
    (p ∈ planned ∧ p.1.join ≠ plan.join) ∨ (∃ q ∈ planned, q.1.join = plan.join ∧ p = (q.1, insert item q.2)) ∨
      (plan.join ∉ planned.map fun p => p.1.join) ∧ p = (plan, {item})
  | [], _, p, hp => .inr (.inr ⟨by simp, by simpa [record] using hp⟩)
  | (r, sources) :: planned, hnodup, p, hp => by
    rw [List.map_cons, List.nodup_cons] at hnodup
    rw [record] at hp
    split at hp
    · next hsame =>
      have hjoin := (r.sameJoin_iff plan).mp hsame
      rcases List.mem_cons.mp hp with rfl | hp
      · exact .inr (.inl ⟨(r, sources), List.mem_cons_self, hjoin, rfl⟩)
      · refine .inl ⟨List.mem_cons_of_mem _ hp, fun heq => hnodup.1 ?_⟩
        rw [hjoin, ← heq]
        exact List.mem_map.mpr ⟨p, hp, rfl⟩
    · next hsame =>
      have hjoin : r.join ≠ plan.join := fun heq => hsame ((r.sameJoin_iff plan).mpr heq)
      rcases List.mem_cons.mp hp with rfl | hp
      · exact .inl ⟨List.mem_cons_self, hjoin⟩
      · rcases mem_record hnodup.2 p hp with ⟨hmem, hne⟩ | ⟨q, hq, hqjoin, rfl⟩ | ⟨hnew, rfl⟩
        · exact .inl ⟨List.mem_cons_of_mem _ hmem, hne⟩
        · exact .inr (.inl ⟨q, List.mem_cons_of_mem _ hq, hqjoin, rfl⟩)
        · refine .inr (.inr ⟨?_, rfl⟩)
          rw [List.map_cons, List.mem_cons, not_or]
          exact ⟨fun heq => hjoin heq.symm, hnew⟩

end Planned

/-- **One item asks for one join more.** -/
theorem AsksRecorded.record {planned : Planned} {asks : Asks} (h : AsksRecorded planned asks) (plan : RelationPlan)
    (item : ℕ) :
    AsksRecorded (planned.record plan item) (asks ++ [(item, plan)]) := by
  have hjoins := @Planned.joins_record plan item planned
  refine ⟨?_, fun p hp i => ?_, fun ask hask => ?_⟩
  · rw [hjoins]
    split
    · exact h.distinct
    · next hnew =>
      rw [← List.concat_eq_append]
      exact h.distinct.concat hnew
  · simp only [List.mem_append, List.mem_singleton, or_and_right, exists_or, exists_eq_left]
    rcases Planned.mem_record h.distinct p hp with ⟨hmem, hne⟩ | ⟨q, hq, hjoin, rfl⟩ | ⟨hnew, rfl⟩
    · rw [h.sources p hmem]
      simp [hne]
    · rw [Finset.mem_insert, h.sources q hq]
      simp only [hjoin, and_true]
      rw [or_comm, eq_comm]
    · have hnone : ¬∃ ask ∈ asks, ask.1 = i ∧ plan.join = ask.2.join := by
        rintro ⟨ask, hask, -, hjoin⟩
        obtain ⟨q, hq, hq'⟩ := h.asked ask hask
        exact hnew (List.mem_map.mpr ⟨q, hq, hq'.trans hjoin.symm⟩)
      rw [Finset.mem_singleton]
      simp only [hnone, false_or, and_true]
      exact eq_comm
  · have hmem : ask.2.join ∈ (planned.record plan item).map fun p => p.1.join := by
      rw [hjoins]
      rcases List.mem_append.mp hask with hask | hask
      · obtain ⟨q, hq, hjoin⟩ := h.asked ask hask
        have hin : ask.2.join ∈ planned.map fun p => p.1.join := List.mem_map.mpr ⟨q, hq, hjoin⟩
        split
        · exact hin
        · exact List.mem_append_left _ hin
      · obtain rfl := List.mem_singleton.mp hask
        split
        · assumption
        · exact List.mem_append_right _ (List.mem_singleton_self _)
    obtain ⟨p, hp, hjoin⟩ := List.mem_map.mp hmem
    exact ⟨p, hp, hjoin⟩

/-! ## Items -/

/-- **The items that a row can match**, in order, each with what it compiles to. -/
def keptItems (hash : ℕ → Bytes → ℕ) (desc : Table) (scope : SetScope) (items : List QueryItem)
    (referred : References) :
    Result (List (QueryItem × RowPredicate) × References) :=
  items.foldlM (fun s item => do
    match ← compileItemPredicates hash item desc scope s.2 with
    | (.unsatisfiable, referred) => .ok (s.1, referred)
    | (.predicate p, referred) => .ok (s.1 ++ [(item, p)], referred)) ([], referred)

section Items

variable {hash : ℕ → Bytes → ℕ} {query : Query} {metadata : DatasetDescription} {tableName : String} {desc : Table}

/-- The joins an item asks for: those its relation names denote, through what it was addressed by. -/
def itemJoins (query : Query) (metadata : DatasetDescription) (desc : Table) (item : QueryItem) : List RelationPlan :=
  (item.relations.filterMap (relationDef metadata desc item)).map (planRelation query metadata)

/-- What kept items ask for, by their place among the kept. -/
def asksOf (query : Query) (metadata : DatasetDescription) (desc : Table) (kept : List QueryItem) : Asks :=
  kept.zipIdx.flatMap fun p => (itemJoins query metadata desc p.1).map fun join => (p.2, join)

theorem mem_asksOf {kept : List QueryItem} {ask : ℕ × RelationPlan} : ask ∈ asksOf query metadata desc kept ↔
    ∃ item, kept[ask.1]? = some item ∧ ask.2 ∈ itemJoins query metadata desc item := by
  obtain ⟨i, join⟩ := ask
  simp only [asksOf, List.mem_flatMap, List.mem_map, Prod.mk.injEq, Prod.exists, List.mem_zipIdx_iff_getElem?]
  constructor
  · rintro ⟨item, j, hitem, join, hjoin, rfl, rfl⟩
    exact ⟨item, hitem, hjoin⟩
  · rintro ⟨item, hitem, hjoin⟩
    exact ⟨item, i, hitem, join, hjoin, rfl, rfl⟩

theorem asksOf_append (kept : List QueryItem) (item : QueryItem) : asksOf query metadata desc (kept ++ [item]) =
    asksOf query metadata desc kept ++ (itemJoins query metadata desc item).map fun join => (kept.length, join) := by
  simp [asksOf, List.zipIdx_append]

/-- The relations an item asks for are recorded, each under its index. -/
theorem recordItem_spec {item : QueryItem} {index : ℕ} {planned after : Planned} {asks : Asks}
    (h : recordItem query metadata tableName desc item index planned = .ok after)
      (hrecorded : AsksRecorded planned asks) :
    AsksRecorded after (asks ++ (itemJoins query metadata desc item).map fun join => (index, join)) := by
  unfold recordItem at h
  unfold itemJoins
  generalize item.relations = names at h ⊢
  induction names generalizing planned asks with
  | nil =>
    obtain rfl := Except.ok.inj h
    simpa using hrecorded
  | cons name names ih =>
    rw [List.foldlM_cons] at h
    obtain ⟨next, hnext, h⟩ := bind_eq_ok.mp h
    obtain ⟨plan, hplan, hnext⟩ := bind_eq_ok.mp hnext
    obtain rfl := Except.ok.inj hnext
    unfold itemRelation at hplan
    cases hdef : relationDef metadata desc item name with
    | none => simp [hdef] at hplan
    | some d =>
      obtain rfl : planRelation query metadata d = plan := by simpa [hdef] using hplan
      have hrest := ih (hrecorded.record (planRelation query metadata d) index) h
      rw [List.filterMap_cons_some hdef, List.map_cons, List.map_cons]
      simpa using hrest

/-- What a table's items have compiled to, once those before `items` have. -/
structure PlansItems (hash : ℕ → Bytes → ℕ) (query : Query) (metadata : DatasetDescription) (tableName : String)
    (desc : Table) (referred : References) (items : List QueryItem) (s : TableState) : Prop where
  kept : ∃ kept, keptItems hash desc ⟨query.sets, (query.fields.get? tableName).getD []⟩ items referred =
    .ok (kept, s.referred) ∧ s.predicates = kept.map Prod.snd ∧ s.totalItems = kept.length ∧
      AsksRecorded s.relations (asksOf query metadata desc (kept.map Prod.fst))

/-- **One item more.** -/
theorem PlansItems.planItem {referred : References} {items : List QueryItem} {s after : TableState} {item : QueryItem}
    (h : PlansItems hash query metadata tableName desc referred items s)
    (hafter : planItem hash query metadata tableName desc s item = .ok after) :
    PlansItems hash query metadata tableName desc referred (items ++ [item]) after := by
  obtain ⟨kept, hkept, hpredicates, htotal, hrecorded⟩ := h.kept
  have hrun : ∀ next, (do
      match ← compileItemPredicates hash item desc ⟨query.sets, (query.fields.get? tableName).getD []⟩ s.referred with
      | (.unsatisfiable, referred) => Except.ok (kept, referred)
      | (.predicate p, referred) => .ok (kept ++ [(item, p)], referred)) = .ok next →
      keptItems hash desc ⟨query.sets, (query.fields.get? tableName).getD []⟩ (items ++ [item]) referred = .ok next :=
        by
    exact fun next hnext => foldlM_concat_eq_ok.mpr ⟨_, hkept, hnext⟩
  unfold QueryEngine.planItem at hafter
  obtain ⟨⟨compiled, referred'⟩, hcompiled, hafter⟩ := bind_eq_ok.mp hafter
  cases compiled with
  | unsatisfiable =>
    obtain rfl := Except.ok.inj hafter
    exact ⟨kept, hrun _ (bind_eq_ok.mpr ⟨_, hcompiled, rfl⟩), hpredicates, htotal, hrecorded⟩
  | predicate p =>
    obtain ⟨relations, hrelations, hafter⟩ := bind_eq_ok.mp hafter
    obtain rfl := Except.ok.inj hafter
    refine ⟨kept ++ [(item, p)], hrun _ (bind_eq_ok.mpr ⟨_, hcompiled, rfl⟩), by simp [hpredicates],
      by simp [htotal], ?_⟩
    have hlength : s.predicates.length = (kept.map Prod.fst).length := by simp [hpredicates]
    rw [List.map_append, List.map_singleton, asksOf_append, ← hlength]
    exact recordItem_spec hrelations hrecorded

/-- The items of a table are planned as they are kept. -/
theorem plansItems_foldlM {referred : References} {items : List QueryItem} {s : TableState}
    (h : items.foldlM (planItem hash query metadata tableName desc) ⟨[], [], 0, referred⟩ = .ok s) :
    PlansItems hash query metadata tableName desc referred items s :=
  foldlM_run (P := PlansItems hash query metadata tableName desc referred) h
    ⟨[], rfl, rfl, rfl, by simp, by simp, by simp [asksOf]⟩ fun _ _ _ _ _ hdone hstep => hdone.planItem hstep

/-- **A relation's sources are the items that asked for it.**  What a plan of a table says of the items kept. -/
structure SourcesExact (query : Query) (metadata : DatasetDescription) (desc : Table) (kept : List QueryItem)
    (relations : List RelationPlan) : Prop where
  distinct : relations.Pairwise fun r other => r.sameJoin other = false
  sources : ∀ r ∈ relations, ∀ i item, kept[i]? = some item → (r.follows i ↔ ∃ name ∈ item.relations,
    ∃ d, relationDef metadata desc item name = some d ∧ r.sameJoin (planRelation query metadata d) = true)
  ascending : ∀ r ∈ relations, ∀ sources ∈ r.sourceItems, sources.Pairwise (· < ·) ∧ ∀ i ∈ sources, i < kept.length
  every : ∀ r ∈ relations, r.sourceItems = none ↔ ∀ item ∈ kept, ∃ name ∈ item.relations,
    ∃ d, relationDef metadata desc item name = some d ∧ r.sameJoin (planRelation query metadata d) = true
  planned : ∀ item ∈ kept, ∀ name ∈ item.relations, ∀ d ∈ relationDef metadata desc item name,
    ∃ r ∈ relations, r.sameJoin (planRelation query metadata d) = true

/-- An item asks for a join exactly when a name of its denotes it. -/
theorem exists_mem_itemJoins {item : QueryItem} {r : RelationPlan} :
    (∃ join ∈ itemJoins query metadata desc item, r.join = join.join) ↔ ∃ name ∈ item.relations,
      ∃ d, relationDef metadata desc item name = some d ∧ r.sameJoin (planRelation query metadata d) = true := by
  simp only [itemJoins, List.mem_map, List.mem_filterMap, RelationPlan.sameJoin_iff]
  constructor
  · rintro ⟨_, ⟨d, ⟨name, hname, hd⟩, rfl⟩, hjoin⟩
    exact ⟨name, hname, d, hd, hjoin⟩
  · rintro ⟨name, hname, d, hd, hjoin⟩
    exact ⟨_, ⟨d, ⟨name, hname, hd⟩, rfl⟩, hjoin⟩

section Recorded

variable {planned : Planned} {kept : List QueryItem} (h : AsksRecorded planned (asksOf query metadata desc kept))
include h

section OnePlan

variable {p : RelationPlan × Finset ℕ} (hp : p ∈ planned)
include hp

/-- The sources recorded are the items a name of which denotes the join. -/
theorem AsksRecorded.mem_sources {i : ℕ} : i ∈ p.2 ↔ ∃ item, kept[i]? = some item ∧ ∃ name ∈ item.relations,
    ∃ d, relationDef metadata desc item name = some d ∧ p.1.sameJoin (planRelation query metadata d) = true := by
  rw [h.sources p hp i]
  constructor
  · rintro ⟨ask, hask, rfl, hjoin⟩
    obtain ⟨item, hitem, hmem⟩ := mem_asksOf.mp hask
    exact ⟨item, hitem, exists_mem_itemJoins.mp ⟨_, hmem, hjoin⟩⟩
  · rintro ⟨item, hitem, hasked⟩
    obtain ⟨join, hmem, hjoin⟩ := exists_mem_itemJoins.mpr hasked
    exact ⟨(i, join), mem_asksOf.mpr ⟨item, hitem, hmem⟩, rfl, hjoin⟩

theorem AsksRecorded.sources_subset : p.2 ⊆ Finset.range kept.length := by
  intro i hi
  obtain ⟨item, hitem, -⟩ := (h.mem_sources hp).mp hi
  exact Finset.mem_range.mpr (List.getElem?_eq_some_iff.mp hitem).1

/-- A source for each kept item is every kept item. -/
theorem AsksRecorded.card_sources_iff : p.2.card = kept.length ↔ p.2 = Finset.range kept.length := by
  constructor
  · exact fun hcard => Finset.eq_of_subset_of_card_le (h.sources_subset hp) (by simp [hcard])
  · exact fun heq => by simp [heq]

/-- Every item kept is a source when a name of each of them denotes the join. -/
theorem AsksRecorded.sources_eq_range_iff : p.2 = Finset.range kept.length ↔ ∀ item ∈ kept, ∃ name ∈ item.relations,
    ∃ d, relationDef metadata desc item name = some d ∧ p.1.sameJoin (planRelation query metadata d) = true := by
  constructor
  · intro heq item hitem
    obtain ⟨i, hi⟩ := List.mem_iff_getElem?.mp hitem
    have hmem : i ∈ p.2 := by
      rw [heq, Finset.mem_range]
      exact (List.getElem?_eq_some_iff.mp hi).1
    obtain ⟨other, hother, hasked⟩ := (h.mem_sources hp).mp hmem
    obtain rfl := Option.some.inj (hi.symm.trans hother)
    exact hasked
  · intro hevery
    refine Finset.Subset.antisymm (h.sources_subset hp) fun i hi => (h.mem_sources hp).mpr ?_
    have hlt := Finset.mem_range.mp hi
    exact ⟨kept[i], List.getElem?_eq_getElem hlt, hevery _ (List.getElem_mem hlt)⟩

/-- A relation filled in follows the sources recorded. -/
theorem AsksRecorded.follows_filled {i : ℕ} (hi : i < kept.length) :
    ({ p.1 with sourceItems := if p.2.card = kept.length then none else some (p.2.sort (· ≤ ·)) } :
      RelationPlan).follows i ↔ i ∈ p.2 := by
  unfold RelationPlan.follows
  dsimp only
  split
  · next hcard => simp [(h.card_sources_iff hp).mp hcard, hi]
  · simp

end OnePlan

/-- **What is recorded fills in as the sources of the items kept.** -/
theorem AsksRecorded.sourcesExact : SourcesExact query metadata desc kept (fillSources kept.length planned) := by
  refine ⟨?_, ?_, ?_, ?_, ?_⟩
  · rw [fillSources, List.pairwise_map]
    refine (List.pairwise_map.mp h.distinct).imp fun {p q} hne => ?_
    rw [← Bool.not_eq_true, RelationPlan.sameJoin_iff]
    exact hne
  · intro r hr i item hitem
    obtain ⟨p, hp, rfl⟩ := List.mem_map.mp hr
    rw [h.follows_filled hp (List.getElem?_eq_some_iff.mp hitem).1, h.mem_sources hp]
    constructor
    · rintro ⟨other, hother, hasked⟩
      obtain rfl := Option.some.inj (hitem.symm.trans hother)
      exact hasked
    · exact fun hasked => ⟨item, hitem, hasked⟩
  · intro r hr sources hsources
    obtain ⟨p, hp, rfl⟩ := List.mem_map.mp hr
    dsimp only at hsources
    split at hsources
    · exact absurd hsources (by simp)
    · obtain rfl := Option.some.inj hsources
      exact ⟨Finset.sortedLT_sort _ |>.pairwise, fun i hi =>
        Finset.mem_range.mp (h.sources_subset hp ((Finset.mem_sort _).mp hi))⟩
  · intro r hr
    obtain ⟨p, hp, rfl⟩ := List.mem_map.mp hr
    have hnone : (if p.2.card = kept.length then none else some (p.2.sort (· ≤ ·))) = none ↔
        p.2.card = kept.length := by split <;> simp_all
    exact hnone.trans ((h.card_sources_iff hp).trans (h.sources_eq_range_iff hp))
  · intro item hitem name hname d hd
    obtain ⟨i, hi⟩ := List.mem_iff_getElem?.mp hitem
    obtain ⟨p, hp, hjoin⟩ := h.asked (i, planRelation query metadata d) (mem_asksOf.mpr ⟨item, hi,
      List.mem_map.mpr ⟨d, List.mem_filterMap.mpr ⟨name, hname, hd⟩, rfl⟩⟩)
    exact ⟨_, List.mem_map_of_mem hp, (RelationPlan.sameJoin_iff _ _).mpr hjoin⟩

end Recorded

end Items

/-! ## Plans -/

/-- A table's plan is of the items kept. -/
theorem planTable_spec {hash : ℕ → Bytes → ℕ} {query : Query} {metadata : DatasetDescription} {tableName : String}
    {items : List QueryItem} {referred referred' : References} {plan : TablePlan}
    (h : planTable hash query metadata tableName items referred = .ok (some plan, referred')) :
    plan.table = tableName ∧ ∃ desc kept, metadata.tables.get? tableName = some desc ∧
      keptItems hash desc ⟨query.sets, (query.fields.get? tableName).getD []⟩ items referred = .ok (kept, referred') ∧
      plan.predicates = kept.map Prod.snd ∧
      SourcesExact query metadata desc (kept.map Prod.fst) plan.relations := by
  unfold planTable at h
  split at h
  · exact absurd h (by simp)
  · next desc hdesc =>
    obtain ⟨s, hs, h⟩ := bind_eq_ok.mp h
    obtain ⟨kept, hkept, hpredicates, htotal, hrecorded⟩ := (plansItems_foldlM hs).kept
    split at h
    · exact absurd h (by simp)
    · obtain ⟨hplan, rfl⟩ := Prod.mk.inj (Except.ok.inj h)
      obtain rfl := Option.some.inj hplan
      have hexact := hrecorded.sourcesExact
      rw [List.length_map, ← htotal] at hexact
      exact ⟨rfl, desc, kept, hdesc, hkept, hpredicates, hexact⟩

/-- What a request's items for a table come to: the predicates of those kept, and what they ask for. -/
def TablePlan.Exact (hash : ℕ → Bytes → ℕ) (query : Query) (metadata : DatasetDescription) (t : TablePlan) : Prop :=
  ∃ items desc referred kept referred', (t.table, items) ∈ query.items.entries ∧
    metadata.tables.get? t.table = some desc ∧
    keptItems hash desc ⟨query.sets, (query.fields.get? t.table).getD []⟩ items referred = .ok (kept, referred') ∧
    t.predicates = kept.map Prod.snd ∧ SourcesExact query metadata desc (kept.map Prod.fst) t.relations

/-- **A relation's sources are exactly the items that asked for it**: in every table plan of a request, no two
relations are one join, and a relation follows a kept item exactly when a name of the item's, through what it
was addressed by, is defined as that join. -/
theorem compile_relations {hash : ℕ → Bytes → ℕ} {query : Query} {metadata : DatasetDescription} {plan : Plan}
    (h : compile hash query metadata = .ok plan) : ∀ t ∈ plan.tablePlans, t.Exact hash query metadata := by
  unfold compile at h
  obtain ⟨-, -, h⟩ := bind_eq_ok.mp h
  obtain ⟨⟨tablePlans, referred⟩, hplans, h⟩ := bind_eq_ok.mp h
  dsimp only at h
  split at h
  · exact absurd h (by simp)
  · obtain rfl := Except.ok.inj h
    have hrun : ∀ t ∈ (tablePlans, referred).1, t.Exact hash query metadata := by
      refine foldlM_run (P := fun _ s => ∀ t ∈ s.1, t.Exact hash query metadata) hplans (by simp) ?_
      intro done s requested next hrequested hs hnext t ht
      obtain ⟨⟨table, referred'⟩, htable, hnext⟩ := bind_eq_ok.mp hnext
      obtain rfl := Except.ok.inj hnext
      rcases List.mem_append.mp ht with ht | ht
      · exact hs t ht
      · obtain rfl := Option.mem_toList.mp ht
        obtain ⟨hname, desc, kept, hdesc, hkept, hpredicates, hexact⟩ := planTable_spec htable
        rw [← hname] at hdesc hkept
        have hmem : (t.table, requested.2) ∈ query.items.entries := by
          rw [hname]
          exact (List.mem_insertionSort _).mp hrequested
        exact ⟨requested.2, desc, s.2, kept, referred', hmem, hdesc, hkept, hpredicates, hexact⟩
    exact hrun

section Related

def plainColumn (dataType : ColumnType) : ColumnDescription := ⟨dataType, none, false, false⟩

def itemsTable : Table where
  blockNumberColumn := "block_number"
  addressColumn := none
  itemOrderKeys := ["transaction_index"]
  requestSurface := some ⟨none, [], .empty, .empty⟩
  output := ⟨none, [], .empty, none, .empty⟩
  parentHashColumn := none
  columns := ⟨[("block_number", plainColumn .uint64), ("transaction_index", plainColumn .uint32),
    ("kind", plainColumn .string)], by decide⟩

/-- Items seen through an alias, and what they relate to. -/
def relatedItems : DatasetDescription where
  name := "test"
  tables := ⟨[("items", itemsTable), ("related", itemsTable)], by decide⟩
  aliases := ⟨[("filteredItems", ⟨"items", .empty, ["kind"], .empty,
    ⟨[("related", ⟨"related", .join, ["block_number", "transaction_index"], [], []⟩)], by decide⟩⟩)], by decide⟩

/-- The first and the last of three items can match; the first alone asks for the relation. -/
def relatedQuery : Query where
  fromBlock := 0
  toBlock := none
  includeAllBlocks := false
  parentBlockHash := none
  fields := .empty
  items := ⟨[("items", [⟨[("kind", .string ⟨[115], by decide⟩)], ["related"], some "filteredItems"⟩,
    ⟨[("kind", .array [])], ["related"], some "filteredItems"⟩,
    ⟨[("kind", .string ⟨[111], by decide⟩)], [], some "filteredItems"⟩])], by decide⟩
  sets := .empty

theorem compile_relations_related : ∃ plan, compile (fun _ _ => 0) relatedQuery relatedItems = .ok plan ∧
    plan.tablePlans.length = 1 ∧ ∀ t ∈ plan.tablePlans, t.Exact (fun _ _ => 0) relatedQuery relatedItems :=
  ⟨_, rfl, rfl, compile_relations rfl⟩

end Related

end QueryEngine
