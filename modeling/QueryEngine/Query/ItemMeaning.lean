import QueryEngine.Query.FilterMeaning

/-!
# Query/ItemMeaning — an item keeps the rows its filters ask for

What an item's filters compile to is kept together, and one discriminator at most is among them, so the item's predicate
holds of a row where every filter does.  The order of the filters decides neither that nor what is refused: a
filter is refused on its own, or for the number of references to sets made with it.
-/

open Fallible Kleene

namespace QueryEngine

/-! ## An item's filters together -/

/-- Lists related element by element stay so with one element more. -/
theorem forall₂_concat {α β : Type} {R : α → β → Prop} {as : List α} {bs : List β} {a : α} {b : β}
    (h : List.Forall₂ R as bs) (hab : R a b) : List.Forall₂ R (as ++ [a]) (bs ++ [b]) := by
  induction h with
  | nil => exact .cons hab .nil
  | cons hxy _ ih => exact .cons hxy ih

/-- The predicate a filter adds beside the others'. -/
def CompiledFilter.column : CompiledFilter → Option ColumnPredicate
  | .predicate p => some p
  | _ => none

/-- The alternatives a discriminator adds. -/
def CompiledFilter.alternatives : CompiledFilter → Option (Option (List (List ColumnPredicate)))
  | .groups gs => some gs
  | _ => none

/-- What filters compiled to, kept together. -/
structure ItemState.Keeps (s : ItemState) (compiled : List CompiledFilter) : Prop where
  columns : s.columns = compiled.filterMap CompiledFilter.column
  groups : s.groups = (compiled.filterMap CompiledFilter.alternatives).getLast?.join
  unsatisfiable : s.unsatisfiable = true ↔ CompiledFilter.unsatisfiable ∈ compiled

section Items

variable {hash : ℕ → Bytes → ℕ} {table : Table} {scope : SetScope} {batch : RecordBatch} {row : ℕ} {s : ItemState}
  {compiled : List CompiledFilter}

/-- One filter more is kept beside the others. -/
theorem ItemState.Keeps.add (h : s.Keeps compiled) (referred : References) (c : CompiledFilter) :
    (s.add referred c).Keeps (compiled ++ [c]) := by
  obtain ⟨hcolumns, hgroups, hunsatisfiable⟩ := h
  cases c <;> constructor <;>
    simp [ItemState.add, CompiledFilter.column, CompiledFilter.alternatives, List.filterMap_append, hcolumns, hgroups,
      hunsatisfiable]

/-- What an item's filters compiled to, one by one. -/
theorem compileItemPredicates_keeps {item : QueryItem} {referred after : References} {result : CompiledItem}
    (h : compileItemPredicates hash item table scope referred = .ok (result, after)) :
    checkItemLimits item table = .ok () ∧ ∃ (s : ItemState) (compiled : List CompiledFilter), s.Keeps compiled ∧
      List.Forall₂ (fun f c => ∃ before after, compileReference hash f.1 f.2 table scope before = .ok (c, after))
        item.filters compiled ∧
      result = if s.unsatisfiable then .unsatisfiable else .predicate s.rowPredicate := by
  obtain ⟨_, hlimits, h⟩ := bind_eq_ok.mp h
  obtain ⟨s, hs, h⟩ := bind_eq_ok.mp h
  have hstart : ItemState.Keeps ⟨[], none, false, referred⟩ [] := ⟨rfl, rfl, by simp⟩
  have hrun := foldlM_run (P := fun done (s : ItemState) => ∃ compiled, s.Keeps compiled ∧
    List.Forall₂ (fun f c => ∃ before after, compileReference hash f.1 f.2 table scope before = .ok (c, after))
      done compiled) hs ⟨[], hstart, .nil⟩ (by
    rintro done mid f next - ⟨compiled, hkeeps, hdone⟩ hnext
    obtain ⟨⟨c, after⟩, hc, hnext⟩ := bind_eq_ok.mp hnext
    obtain rfl := Except.ok.inj hnext
    exact ⟨compiled ++ [c], hkeeps.add after c, forall₂_concat hdone ⟨_, after, hc⟩⟩)
  obtain ⟨compiled, hkeeps, hdone⟩ := hrun
  exact ⟨hlimits, s, compiled, hkeeps, hdone, (Prod.mk.inj (Except.ok.inj h)).1.symm⟩

/-- An item's predicate holds where its columns do and, where it has alternatives, one of them does. -/
theorem ItemState.rowPredicate_holdsAt (hgroups : ∀ groups ∈ s.groups, groups ≠ []) :
    s.rowPredicate.holdsAt batch row = true ↔ (∀ p ∈ s.columns, p.holdsAt batch row = true) ∧
      (s.groups.all fun gs => gs.any fun group => holdsAll group batch row) = true := by
  unfold rowPredicate
  split
  · next groups hsome =>
    rw [hsome, Option.all_some]
    have hne := hgroups groups hsome
    split
    · next hmany => simp [RowPredicate.holdsAt, holdsAll, hne]
    · next hfew =>
      -- a lone alternative is a conjunction like the rest
      obtain ⟨group, rfl⟩ : ∃ group, groups = [group] := by
        cases groups with
        | nil => exact absurd rfl hne
        | cons group rest =>
          cases rest with
          | nil => exact ⟨group, rfl⟩
          | cons => exact absurd (by simp) hfew
      simp [RowPredicate.holdsAt, holdsAll]
  · next hnone => simp [RowPredicate.holdsAt, holdsAll, hnone]

theorem ItemState.columnPredicates_rowPredicate :
    s.rowPredicate.columnPredicates = s.columns ++ (s.groups.getD []).flatten := by
  unfold rowPredicate
  split
  · next groups hsome =>
    rw [hsome, Option.getD_some]
    split
    · rfl
    · simp [RowPredicate.columnPredicates]
  · next hnone => simp [RowPredicate.columnPredicates, hnone]

/-- An item within its limits carries one discriminator at most. -/
theorem length_alternatives {filters : List (String × Json)}
    (h : List.Forall₂ (fun f c => ∃ before after, compileReference hash f.1 f.2 table scope before = .ok (c, after))
      filters compiled) : (compiled.filterMap CompiledFilter.alternatives).length ≤
        filters.countP fun f => decide (f.1 ∈ discriminatorFamily table) := by
  induction h with
  | nil => simp
  | @cons f c fs cs hc _ ih =>
    obtain ⟨before, after, hc⟩ := hc
    rw [List.countP_cons]
    cases c with
    | groups gs =>
      have hfamily := ((compileReference_holds hc).1 gs rfl).1
      simp only [List.filterMap_cons, CompiledFilter.alternatives, List.length_cons, hfamily, decide_true, if_true]
      omega
    | _ =>
      simp only [List.filterMap_cons, CompiledFilter.alternatives]
      omega

/-- With one discriminator at most, what is kept is all of the alternatives. -/
theorem ItemState.Keeps.mem_groups (h : s.Keeps compiled)
    (hlone : (compiled.filterMap CompiledFilter.alternatives).length ≤ 1) (gs : List (List ColumnPredicate)) :
    gs ∈ s.groups ↔ CompiledFilter.groups (some gs) ∈ compiled := by
  have hmem : some gs ∈ compiled.filterMap CompiledFilter.alternatives ↔ CompiledFilter.groups (some gs) ∈ compiled :=
      by
    rw [List.mem_filterMap]
    constructor
    · rintro ⟨c, hc, halternatives⟩
      cases c <;> simp_all [CompiledFilter.alternatives]
    · exact fun hc => ⟨_, hc, rfl⟩
  rw [← hmem, h.groups]
  match compiled.filterMap CompiledFilter.alternatives, hlone with
  | [], _ => simp
  | [g], _ => simp [eq_comm]
  | _ :: _ :: _, hlone => simp at hlone

/-- **The predicate of what filters compiled to holds where each of them does.** -/
theorem ItemState.Keeps.holdsAt (h : s.Keeps compiled) (hsatisfiable : CompiledFilter.unsatisfiable ∉ compiled)
    (hlone : (compiled.filterMap CompiledFilter.alternatives).length ≤ 1)
    (hgroups : ∀ gs, CompiledFilter.groups (some gs) ∈ compiled → gs ≠ []) :
    s.rowPredicate.holdsAt batch row = true ↔ ∀ c ∈ compiled, c.holdsAt batch row = true := by
  rw [rowPredicate_holdsAt fun gs hgs => hgroups gs ((h.mem_groups hlone gs).mp hgs), h.columns]
  have halternatives : (s.groups.all fun gs => gs.any fun group => holdsAll group batch row) = true ↔
      ∀ gs, CompiledFilter.groups (some gs) ∈ compiled → (gs.any fun group => holdsAll group batch row) = true := by
    rw [Option.all_eq_true]
    exact forall_congr' fun gs => imp_congr_left (h.mem_groups hlone gs)
  rw [halternatives]
  constructor
  · rintro ⟨hcolumns, hgs⟩ c hc
    cases c with
    | every => rfl
    | predicate p => exact hcolumns p (List.mem_filterMap.mpr ⟨_, hc, rfl⟩)
    | groups gs =>
      cases gs with
      | none => rfl
      | some gs => exact hgs gs hc
    | unsatisfiable => exact absurd hc hsatisfiable
  · intro hall
    refine ⟨fun p hp => ?_, fun gs hgs => hall _ hgs⟩
    obtain ⟨c, hc, hp⟩ := List.mem_filterMap.mp hp
    cases c with
    | predicate q =>
      obtain rfl := Option.some.inj hp
      exact hall _ hc
    | _ => cases hp

/-- A filter's column predicates are among the item's. -/
theorem ItemState.Keeps.mem_columnPredicates (h : s.Keeps compiled)
    (hlone : (compiled.filterMap CompiledFilter.alternatives).length ≤ 1) {c : CompiledFilter} (hc : c ∈ compiled) :
    c.columnPredicates ⊆ s.rowPredicate.columnPredicates := by
  intro q hq
  rw [columnPredicates_rowPredicate, List.mem_append, h.columns]
  cases c with
  | predicate p =>
    obtain rfl := List.mem_singleton.mp hq
    exact .inl (List.mem_filterMap.mpr ⟨_, hc, rfl⟩)
  | groups gs =>
    cases gs with
    | none => cases hq
    | some gs =>
      have hkept : s.groups = some gs := (h.mem_groups hlone gs).mpr hc
      rw [hkept]
      exact .inr hq
  | _ => cases hq

/-- The limit on discriminators. -/
theorem countP_of_checkItemLimits {item : QueryItem} (h : checkItemLimits item table = .ok ()) :
    item.filters.countP (fun f => decide (f.1 ∈ discriminatorFamily table)) ≤ 1 := by
  obtain ⟨_, hcount, -⟩ := bind_eq_ok.mp h
  exact of_decide_eq_true (engineEnsure_eq_ok.mp hcount)

end Items

/-! ## The order of the filters -/

section Order

variable {hash : ℕ → Bytes → ℕ} {table : Table} {scope : SetScope}

variable (hash table scope) in
/-- A filter is refused on its own, or for the references it adds to those before it. -/
theorem exists_reference (f : String × Json) : ∃ (accepted : Bool) (names : ℕ), ∀ referred : References,
    (compileReference hash f.1 f.2 table scope referred).toOption.map (fun r => r.2.count) =
      if accepted = true ∧ (names = 0 ∨ referred.count + names ≤ maxSetReferences) then some (referred.count + names)
      else none := by
  cases hnames : setReferences f.1 f.2 with
  | error e =>
    refine ⟨false, 0, fun referred => ?_⟩
    rw [compileReference, hnames]
    rfl
  | ok names =>
    cases hempty : names.isEmpty with
    | true =>
      refine ⟨(compileFilter hash f.1 f.2 table).isOk, 0, fun referred => ?_⟩
      have heq : compileReference hash f.1 f.2 table scope referred =
          (compileFilter hash f.1 f.2 table).bind fun compiled => .ok (compiled, referred) := by
        rw [compileReference, hnames]
        exact if_pos hempty
      rw [heq]
      cases compileFilter hash f.1 f.2 table <;> simp [Except.bind, Except.isOk, Except.toBool, Except.toOption]
    | false =>
      refine ⟨(compileSetFilter f.1 f.2 names table scope).isOk, names.length, fun referred => ?_⟩
      have heq : compileReference hash f.1 f.2 table scope referred = (referred.add f.1 names).bind fun referred =>
          (compileSetFilter f.1 f.2 names table scope).bind fun p => .ok (.predicate p, referred) := by
        rw [compileReference, hnames]
        exact if_neg (by simp [hempty])
      have hlength : names.length ≠ 0 := by simpa [List.isEmpty_eq_false_iff] using hempty
      rw [heq, References.add]
      by_cases hle : referred.count + names.length ≤ maxSetReferences
      · cases compileSetFilter f.1 f.2 names table scope <;>
          simp [hle, engineEnsure, bind, Except.bind, Except.isOk, Except.toBool, Except.toOption]
      · simp [hle, hlength, engineEnsure, bind, Except.bind, Except.toOption]

/-- The references made once a filter is compiled too, unless it is refused. -/
def countReferences (hash : ℕ → Bytes → ℕ) (table : Table) (scope : SetScope) (made : Option ℕ) (f : String × Json) :
    Option ℕ :=
  made.bind fun count => (compileReference hash f.1 f.2 table scope ⟨[], count⟩).toOption.map fun r => r.2.count

variable (hash table scope) in
/-- What a filter counts: nothing when it is refused, else the references it adds within the limit. -/
theorem exists_countReferences (f : String × Json) : ∃ (accepted : Bool) (names : ℕ), ∀ made,
    countReferences hash table scope made f = made.bind fun count =>
      if accepted = true ∧ (names = 0 ∨ count + names ≤ maxSetReferences) then some (count + names) else none := by
  obtain ⟨accepted, names, h⟩ := exists_reference hash table scope f
  exact ⟨accepted, names, fun made => congrArg made.bind (funext fun count => h ⟨[], count⟩)⟩

/-- Two filters count the same in either order. -/
theorem countReferences_comm (made : Option ℕ) (f g : String × Json) :
    countReferences hash table scope (countReferences hash table scope made f) g =
      countReferences hash table scope (countReferences hash table scope made g) f := by
  obtain ⟨acceptedf, namesf, hf⟩ := exists_countReferences hash table scope f
  obtain ⟨acceptedg, namesg, hg⟩ := exists_countReferences hash table scope g
  rw [hf, hg, hf, hg]
  generalize maxSetReferences = most
  cases made with
  | none => rfl
  | some count =>
    simp only [Option.bind_some]
    -- both are counted, or one of them is refused, whichever comes first
    split_ifs <;> simp only [Option.bind_some, Option.bind_none] <;> grind

variable (hash table scope) in
/-- A run over an item's filters counts the references they make. -/
theorem count_foldlM (filters : List (String × Json)) : ∀ s : ItemState,
    Option.map (fun t => t.referred.count) (Except.toOption (filters.foldlM
      (fun (s : ItemState) (f : String × Json) => do
      let (compiled, referred) ← compileReference hash f.1 f.2 table scope s.referred
      Except.ok (s.add referred compiled)) s)) =
      filters.foldl (countReferences hash table scope) (some s.referred.count) := by
  have hrefused : ∀ filters : List (String × Json), filters.foldl (countReferences hash table scope) none = none := by
    intro filters
    induction filters with
    | nil => rfl
    | cons f filters ih => exact ih
  induction filters with
  | nil => exact fun s => rfl
  | cons f filters ih =>
    intro s
    obtain ⟨accepted, names, hf⟩ := exists_reference hash table scope f
    have hcount : countReferences hash table scope (some s.referred.count) f =
        (compileReference hash f.1 f.2 table scope s.referred).toOption.map fun r => r.2.count := by
      rw [countReferences, Option.bind_some, hf, hf]
    rw [List.foldlM_cons, List.foldl_cons, hcount]
    cases hcompiled : compileReference hash f.1 f.2 table scope s.referred with
    | error e =>
      exact (hrefused filters).symm
    | ok r =>
      have hreferred : (s.add r.2 r.1).referred = r.2 := by cases r.1 <;> rfl
      refine Eq.trans ?_ ((ih (s.add r.2 r.1)).trans ?_)
      · rfl
      · rw [hreferred]
        rfl

theorem exists_ok_of_isSome {ε α β : Type} {x : Except ε α} {f : α → β} (h : (x.toOption.map f).isSome = true) :
    ∃ a, x = .ok a := by
  cases x with
  | error e => cases h
  | ok a => exact ⟨a, rfl⟩

/-- **What decides whether an item is refused**: its limits, and the references its filters count. -/
theorem isOk_compileItemPredicates {item : QueryItem} {referred : References} :
    (compileItemPredicates hash item table scope referred).isOk = true ↔ checkItemLimits item table = .ok () ∧
      (item.filters.foldl (countReferences hash table scope) (some referred.count)).isSome = true := by
  have hcount := count_foldlM hash table scope item.filters ⟨[], none, false, referred⟩
  rw [← hcount]
  constructor
  · intro h
    obtain ⟨r, hr⟩ := exists_ok_of_isOk h
    obtain ⟨_, hlimits, hr⟩ := bind_eq_ok.mp hr
    obtain ⟨s, hs, -⟩ := bind_eq_ok.mp hr
    rw [hs]
    exact ⟨hlimits, rfl⟩
  · rintro ⟨hlimits, hsome⟩
    obtain ⟨s, hs⟩ := exists_ok_of_isSome hsome
    have hitem : compileItemPredicates hash item table scope referred =
        .ok (if s.unsatisfiable then .unsatisfiable else .predicate s.rowPredicate, s.referred) :=
      bind_eq_ok.mpr ⟨(), hlimits, bind_eq_ok.mpr ⟨s, hs, rfl⟩⟩
    rw [hitem]
    rfl

theorem checkItemLimits_perm {item item' : QueryItem} (h : item.filters.Perm item'.filters) :
    checkItemLimits item table = .ok () → checkItemLimits item' table = .ok () := by
  intro hlimits
  obtain ⟨_, hcount, hblooms⟩ := bind_eq_ok.mp hlimits
  refine bind_eq_ok.mpr ⟨(), engineEnsure_eq_ok.mpr ?_, forM_eq_ok.mpr fun f hf => forM_eq_ok.mp hblooms f
    (h.mem_iff.mpr hf)⟩
  rw [← h.countP_eq]
  exact engineEnsure_eq_ok.mp hcount

end Order

/-- **An item keeps the rows its filters ask for.**  Whatever the order of its filters, the same items are refused.  One
that compiles to nothing asks for no row; any other holds, of a batch its columns can be read from, of the rows all of
its filters hold of.  A null is none of the values a filter asks for. -/
theorem item_asks_its_filters (hash : ℕ → Bytes → ℕ) (table : Table) (scope : SetScope) (referred : References)
    (item : QueryItem) :
    (∀ filters, item.filters.Perm filters →
      (compileItemPredicates hash { item with filters := filters } table scope referred).isOk =
        (compileItemPredicates hash item table scope referred).isOk) ∧
    (∀ after, compileItemPredicates hash item table scope referred = .ok (.unsatisfiable, after) →
      ∀ (batch : RecordBatch) (row : ℕ), row < batch.numRows →
        ¬∀ f ∈ item.filters, FilterHolds hash table scope.sets batch row f.1 f.2) ∧
    (∀ p after, compileItemPredicates hash item table scope referred = .ok (.predicate p, after) →
      ∀ batch : RecordBatch, (∀ q ∈ p.columnPredicates, q.ReadsFrom batch) → ∃ mask, p.evaluate batch = .ok mask ∧
        ∀ row < batch.numRows, (Mask.kept mask)[row]? = some true ↔
          ∀ f ∈ item.filters, FilterHolds hash table scope.sets batch row f.1 f.2) ∧
    ∀ cell : Cell, cell.isNull = true → (∀ desc v, ¬cell.passes desc scope.sets v) ∧ cell.word = none ∧
      cell.storedBytes = none ∧ cell.text = none := by
  refine ⟨fun filters hperm => ?_, fun after h batch row hrow hall => ?_, fun p after h batch hreads => ?_,
    fun cell hnull => ?_⟩
  · rw [Bool.eq_iff_iff, isOk_compileItemPredicates, isOk_compileItemPredicates]
    refine and_congr ⟨checkItemLimits_perm hperm.symm, checkItemLimits_perm hperm⟩ ?_
    rw [hperm.foldl_eq' fun f _ g _ made => countReferences_comm made f g]
  · obtain ⟨hlimits, s, compiled, hkeeps, hcompiled, hresult⟩ := compileItemPredicates_keeps h
    have hunsatisfiable : s.unsatisfiable = true := by
      by_contra hsat
      rw [if_neg hsat] at hresult
      cases hresult
    obtain ⟨f, hf, before, after, hc⟩ := (exists_of_forall₂ hcompiled).2 _ (hkeeps.unsatisfiable.mp hunsatisfiable)
    exact Bool.false_ne_true (((compileReference_holds hc).2 batch row
      (by simp [CompiledFilter.columnPredicates]) hrow).mpr
      (hall f hf))
  · obtain ⟨hlimits, s, compiled, hkeeps, hcompiled, hresult⟩ := compileItemPredicates_keeps h
    have hsatisfiable : ¬s.unsatisfiable = true := by
      intro hsat
      rw [if_pos hsat] at hresult
      cases hresult
    rw [if_neg hsatisfiable] at hresult
    obtain rfl := CompiledItem.predicate.inj hresult
    have hlone := (length_alternatives hcompiled).trans (countP_of_checkItemLimits hlimits)
    have hgroups : ∀ gs, CompiledFilter.groups (some gs) ∈ compiled → gs ≠ [] := by
      intro gs hgs
      obtain ⟨f, -, before, after, hc⟩ := (exists_of_forall₂ hcompiled).2 _ hgs
      exact ((compileReference_holds hc).1 _ rfl).2 gs rfl
    have hcomparable : s.rowPredicate.Comparable batch := fun q hq col hcol => by
      obtain ⟨col', hcol', hstored⟩ := hreads q hq
      rwa [Option.some.inj (hcol.symm.trans hcol')]
    obtain ⟨mask, hmask⟩ := RowPredicate.exists_evaluate hcomparable
    refine ⟨mask, hmask, fun row hrow => ?_⟩
    have hholds : ∀ (f : String × Json) (c : CompiledFilter), (∃ before after,
        compileReference hash f.1 f.2 table scope before = .ok (c, after)) → c ∈ compiled →
        (c.holdsAt batch row = true ↔ FilterHolds hash table scope.sets batch row f.1 f.2) := by
      rintro f c ⟨before, after, hc⟩ hmem
      exact (compileReference_holds hc).2 batch row (fun q hq => hreads q (hkeeps.mem_columnPredicates hlone hmem hq))
        hrow
    rw [RowPredicate.kept_evaluate hmask, asked, List.getElem?_map, List.getElem?_range hrow, Option.map_some,
      Option.some.injEq,
      hkeeps.holdsAt (mt hkeeps.unsatisfiable.mpr hsatisfiable) hlone hgroups]
    constructor
    · intro hall f hf
      obtain ⟨c, hmem, hc⟩ := (exists_of_forall₂ hcompiled).1 f hf
      exact (hholds f c hc hmem).mp (hall c hmem)
    · intro hall c hmem
      obtain ⟨f, hf, hc⟩ := (exists_of_forall₂ hcompiled).2 c hmem
      exact (hholds f c hc hmem).mpr (hall f hf)
  · rcases cell with ⟨_ | _ | _ | _ | _, _ | v⟩ | ⟨_ | _ | _ | _ | _, _ | elements⟩ <;>
      simp_all [Cell.isNull, Cell.passes, Cell.readsAs, Cell.reads, Cell.isNumber, Cell.holdsFlag, Cell.holdsInSet,
        Cell.word,
        Cell.storedBytes, Cell.text]

/-- Logs that can be asked for by either topic. -/
def topicLogs : Table := logsTable ["topic0", "topic1"] .empty

/-- Logs whose second topic is `x`, and whose first is too. -/
def bothTopics : List (String × Json) := [("topic0", .array [.string textX]), ("topic1", .string textX)]

/-- What asks for both topics. -/
def bothColumns : RowPredicate :=
  ⟨[colInList "topic0" (.scalar (.text .utf8) [⟨textX, true⟩]), colInList "topic1"
    (.scalar (.text .utf8) [⟨textX, true⟩])], []⟩

theorem item_asks_its_filters_logs :
    (compileItemPredicates (fun _ _ => 0) ⟨bothTopics.reverse, [], none⟩ topicLogs ⟨.empty, []⟩ ⟨[], 0⟩).isOk =
      (compileItemPredicates (fun _ _ => 0) ⟨bothTopics, [], none⟩ topicLogs ⟨.empty, []⟩ ⟨[], 0⟩).isOk ∧
    (¬∀ f ∈ [("topic0", Json.array [])], FilterHolds (fun _ _ => 0) topicLogs .empty swappedLog 0 f.1 f.2) ∧
    (∃ mask, bothColumns.evaluate swappedLog = .ok mask ∧ ((Mask.kept mask)[0]? = some true ↔
      ∀ f ∈ bothTopics, FilterHolds (fun _ _ => 0) topicLogs .empty swappedLog 0 f.1 f.2)) ∧
    ¬(Cell.scalar (.text .utf8) none).passes textColumn .empty (.string textX) := by
  have hboth := item_asks_its_filters (fun _ _ => 0) topicLogs ⟨.empty, []⟩ ⟨[], 0⟩ ⟨bothTopics, [], none⟩
  have hnone := item_asks_its_filters (fun _ _ => 0) topicLogs ⟨.empty, []⟩ ⟨[], 0⟩ ⟨[("topic0", .array [])], [], none⟩
  refine ⟨hboth.1 _ (List.reverse_perm _).symm, hnone.2.1 ⟨[], 0⟩ rfl swappedLog 0 (by decide), ?_,
    (hboth.2.2.2 _ rfl).1 textColumn (.string textX)⟩
  obtain ⟨mask, hmask, hrows⟩ := hboth.2.2.1 bothColumns ⟨[], 0⟩ rfl swappedLog (by
    intro q hq
    rcases List.mem_pair.mp (show q ∈ [_, _] from hq) with rfl | rfl
    · exact ⟨_, rfl, rfl⟩
    · exact ⟨_, rfl, rfl⟩)
  exact ⟨mask, hmask, hrows 0 (by decide)⟩

end QueryEngine
