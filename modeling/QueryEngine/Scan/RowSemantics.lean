import QueryEngine.Scan.Predicate

/-!
# Scan/RowSemantics — a predicate's mask, read one row at a time

`ArrayPredicate.holds` says, in two values and of one cell, what a predicate asks.  A mask keeps a
row exactly where its cell satisfies that (`kept_evaluate`), for a plain column and a dictionary
alike, and whether there is a mask at all is decided by the column's type (`decidedByType_evaluate`).  So a
filter may be run on any selection of rows, in any order, without changing what it means.
-/

open Fallible Kleene TwosComplement

namespace QueryEngine

/-! ## What a predicate asks of a cell -/

namespace Cell

/-- Some listed number is the value the cell declares. -/
def holdsInts (ints : IntValues) : Cell → Bool
  | .scalar (.int t) (some v) =>
    decide (declaredValue (t.value v) t.bits ints.isSigned ∈ ints.numbers)
  | _ => false

/-- The cell's text is listed. -/
def holdsText (set : List Text) : Cell → Bool
  | .scalar (.text _) (some v) => decide (v ∈ set)
  | _ => false

/-- The cell's bytes pass a test. -/
def holdsBytes (test : Bytes → Bool) : Cell → Bool
  | .scalar (.bytes _) (some v) => test v.1
  | _ => false

/-- The cell is the flag, or the number a flag is stored as. -/
def holdsFlag (flag : Bool) : Cell → Bool
  | .scalar .boolean (some v) => decide (v = flag)
  | .scalar (.int t) (some v) => decide (t.value v = if flag then 1 else 0)
  | _ => false

/-- The value the cell declares is on the asked side of a number. -/
def holdsOrderedInt (ints : IntValues) (gte : Bool) : Cell → Bool
  | .scalar (.int t) (some v) =>
    ordered gte (declaredValue (t.value v) t.bits ints.isSigned) ints.first
  | _ => false

/-- The cell's text is on the asked side of a text. -/
def holdsOrderedText (threshold : Text) (gte : Bool) : Cell → Bool
  | .scalar (.text _) (some v) => ordered gte v.bytes threshold.bytes
  | _ => false

/-- The text the cell renders to passes one of the sets. -/
def holdsInSet (sets : List FilterSet) (encoding : Option JsonEncoding) : Cell → Bool
  | .scalar (.text _) (some v) => setsContain sets v.bytes
  | .scalar (.bytes _) (some v) =>
    match encoding with
    | some .hexBytes => setsContain sets (unquoted (encodeHexBytes v.1))
    | some .base58 => setsContain sets (unquoted (encodeBase58Bytes v.1))
    | _ => false
  | _ => false

/-- Some element with a value is a listed id. -/
def holdsContainsU32 (values : List (BitVec 32)) : Cell → Bool
  | .list (.int t) (some elements) => elements.any fun e => e.get?.any fun v =>
    decide (0 ≤ t.value v ∧ t.value v < 2 ^ 32) && decide (BitVec.ofInt 32 (t.value v) ∈ values)
  | _ => false

/-- Some element with a value is a listed text. -/
def holdsContainsString (values : List Text) : Cell → Bool
  | .list (.text _) (some elements) =>
    elements.any fun e => e.get?.any fun v => decide (v ∈ values)
  | _ => false

end Cell

/-- What an equality asks of a cell. -/
def ScalarValue.holdsEq : ScalarValue → Cell → Bool
  | .boolean flag, cell => cell.holdsFlag flag
  | .utf8 v, cell => cell.holdsText [v]
  | other, cell => other.asInts.any fun ints => cell.holdsInts ints

/-- What a range asks of a cell. -/
def ScalarValue.holdsOrdered (gte : Bool) : ScalarValue → Cell → Bool
  | .boolean _, _ => false
  | .utf8 v, cell => cell.holdsOrderedText v gte
  | other, cell => other.asInts.any fun ints => cell.holdsOrderedInt ints gte

/-- What a list asks of a cell: membership among its texts, its numbers or its byte strings. -/
def holdsInList (values : Column) : Cell → Bool :=
  match stringSet values, listedInts values, fixedBinarySet values with
  | some set, _, _ => Cell.holdsText set
  | none, some ints, _ => Cell.holdsInts ints
  | none, none, some set => Cell.holdsBytes fun b => decide (b ∈ set)
  | none, none, none => fun _ => false

namespace ArrayPredicate

mutual

/-- **What a predicate asks of one cell**, in two values: a null satisfies nothing. -/
def holds : ArrayPredicate → Cell → Bool
  | .eq value, cell => value.holdsEq cell
  | .inList values, cell => holdsInList values cell
  | .bloom needles, cell => cell.holdsBytes (anyMember needles)
  | .inSet sets encoding, cell => cell.holdsInSet sets encoding
  | .anyOf parts, cell => holdsAny parts cell
  | .rangeGte value, cell => value.holdsOrdered true cell
  | .rangeLte value, cell => value.holdsOrdered false cell
  | .listContainsAnyU32 values, cell => cell.holdsContainsU32 values
  | .listContainsAnyString values, cell => cell.holdsContainsString values
  | .never, _ => false

/-- What some part of a disjunction asks. -/
def holdsAny : List ArrayPredicate → Cell → Bool
  | [], _ => false
  | part :: parts, cell => holds part cell || holdsAny parts cell

end

end ArrayPredicate

/-! ## The kernels, row by row -/

section Kernels

/-- An evaluation agrees with what is asked of the cells of every column it reads. -/
def Agrees (evaluate : Column → MaskResult) (asks : Cell → Bool) : Prop :=
  ∀ array mask, evaluate array = .ok mask → Mask.kept mask = array.cells.map asks

/-- A null satisfies nothing. -/
def NullFree (asks : Cell → Bool) : Prop := ∀ cell : Cell, cell.isNull = true → asks cell = false

/-- **A dictionary is read through its values** — the keys only say which. -/
theorem agrees_throughDictionary {evaluate : Column → MaskResult} {asks : Cell → Bool}
    (hscalar : Agrees evaluate asks) (hnull : NullFree asks) :
    Agrees (throughDictionary evaluate) asks := by
  intro array mask h
  cases array with
  | scalar s rows => exact hscalar _ _ h
  | list large item rows => exact hscalar _ _ h
  | dictionary item values keys =>
    simp only [throughDictionary] at h
    cases he : evaluate (.scalar item values) with
    | error e => rw [he] at h; cases h
    | ok inner =>
      rw [he] at h
      obtain rfl := Except.ok.inj h
      have hk := hscalar _ _ he
      simp only [Column.cells, kept_map, keeps_some]
      refine (List.map_congr_left fun k _ => ?_).trans List.map_map.symm
      have hlook (i : ℕ) : keeps ((inner[i]?).join) =
          asks (.scalar item ((values[i]?).bind Slot.get?)) := by
        have hi := congrArg (fun l => l[i]?) hk
        simp only [Mask.kept, Column.cells, List.getElem?_map, Option.map_map] at hi
        cases hv : values[i]? with
        | none =>
          rw [hv] at hi
          have hn : inner[i]? = none := by simpa using hi
          rw [hn, Option.bind_none, hnull _ rfl]
          rfl
        | some v =>
          rw [hv] at hi
          obtain ⟨a, ha⟩ : ∃ a, inner[i]? = some a := by
            cases hx : inner[i]? with
            | none => rw [hx] at hi; cases hi
            | some a => exact ⟨a, rfl⟩
          rw [ha] at hi ⊢
          simpa using hi
      simp only [Function.comp_apply, Column.lookup]
      cases k.get? with
      | none => rw [Option.bind_none, hnull _ rfl]; rfl
      | some i => exact hlook i

/-- A column the kernel has no mask for is refused. -/
theorem orUnsupported_ok {mask : Option Mask} {expected : String} {array : Column} {m : Mask}
    (h : orUnsupported mask expected array = .ok m) : mask = some m := by
  cases mask with
  | none => cases h
  | some _ => exact congrArg some (Except.ok.inj h)

/-- A mask that answers each slot's value agrees where the answers do. -/
theorem kept_scalar {s : ScalarType} {rows : List (Slot s.Value)} (answer : Option s.Value → Answer)
    {asks : Cell → Bool} (h : ∀ value, keeps (answer value) = asks (.scalar s value)) :
    Mask.kept (rows.map fun r => answer r.get?) = (Column.scalar s rows).cells.map asks := by
  rw [kept_map, Column.cells, List.map_map]
  exact List.map_congr_left fun r _ => h r.get?

/-- The key of a flag stored as a number is looked up by value. -/
theorem storedKey_mem_flag (flag : Bool) (t : IntType) (v : t.Native) :
    storedKey (t.value v) ∈ [if flag then (1 : BitVec 64) else 0] ↔
      t.value v = if flag then 1 else 0 := by
  have hr : InRange t.signed 64 (t.value v) := (t.holds_value v).mono t.bits_le
  rw [List.mem_singleton, eq_comm, eq_storedKey_iff hr, eq_comm]
  cases flag <;> cases t.signed <;> rfl

/-- Membership by key is membership of the declared value. -/
theorem agrees_ints (ints : IntValues) (expected : String) :
    Agrees (fun array =>
      orUnsupported ((ints.storedKeys array.dataType).bind (inListInt array)) expected array)
      (Cell.holdsInts ints) := by
  intro array mask h
  have hm := orUnsupported_ok h
  rcases array with ⟨s, rows⟩ | ⟨_, _, rows⟩ | ⟨_, _, _⟩
  · cases s with
    | int t =>
      obtain rfl := Option.some.inj hm
      refine kept_scalar (s := .int t) (fun value => value.map fun v =>
        decide (storedKey (t.value v) ∈ ints.keysAt t.bits t.signed)) ?_
      rintro (_ | v)
      · rfl
      · exact (keeps_some _).trans (decide_eq_decide.mpr (ints.storedKey_mem_keysAt t v))
    | _ => cases hm
  · cases hm
  · cases hm

theorem agrees_text (set : List Text) (expected : String) :
    Agrees (fun array => orUnsupported (inListText array set) expected array)
      (Cell.holdsText set) := by
  intro array mask h
  have hm := orUnsupported_ok h
  rcases array with ⟨s, rows⟩ | ⟨_, _, rows⟩ | ⟨_, _, _⟩
  · cases s with
    | text k =>
      obtain rfl := Option.some.inj hm
      refine kept_scalar (s := .text k) (fun value => value.map fun v => decide (v ∈ set)) ?_
      rintro (_ | v)
      · rfl
      · exact keeps_some _
    | _ => cases hm
  · cases hm
  · cases hm

theorem agrees_bytes (set : List Bytes) (expected : String) :
    Agrees (fun array => orUnsupported (inListBytes array set) expected array)
      (Cell.holdsBytes fun b => decide (b ∈ set)) := by
  intro array mask h
  have hm := orUnsupported_ok h
  rcases array with ⟨s, rows⟩ | ⟨_, _, rows⟩ | ⟨_, _, _⟩
  · cases s with
    | bytes k =>
      obtain rfl := Option.some.inj hm
      refine kept_scalar (s := .bytes k)
        (fun value => some (value.any fun v => decide (v.1 ∈ set))) ?_
      rintro (_ | v)
      · rfl
      · exact keeps_some _
    | _ => cases hm
  · cases hm
  · cases hm

namespace NeedleMasks

/-- **Masks kept from a row of the same width are the ones its own would be.** -/
theorem anyMember_eq (p : BloomNeedles) {cache : NeedleMasks} (h : cache = new ∨ cache = build p cache.width)
    (filter : Bytes) : (cache.anyMember p filter).1 = QueryEngine.anyMember p filter ∧
      ((cache.anyMember p filter).2 = new ∨
        (cache.anyMember p filter).2 = build p (cache.anyMember p filter).2.width) := by
  unfold NeedleMasks.anyMember QueryEngine.anyMember
  cases hempty : filter.isEmpty with
  | true => exact ⟨rfl, h⟩
  | false =>
    have hcache : (if filter.length = cache.width then cache else build p filter.length) =
        build p filter.length := by
      split
      · next hwidth =>
        -- a filter that is not empty has not the width of no masks
        have hpos : 0 < filter.length := List.length_pos_iff.mpr (by simpa using hempty)
        rcases h with rfl | h
        · exact absurd hwidth (Nat.ne_of_gt hpos)
        · rw [h, hwidth]
      · rfl
    simp only [Bool.false_eq_true, if_false, hcache]
    exact ⟨List.any_map, .inr rfl⟩

/-- **No row's answer depends on the rows before it.** -/
theorem answers_eq_map (p : BloomNeedles) : ∀ (cache : NeedleMasks) (rows : List (Option Bytes)),
    (cache = new ∨ cache = build p cache.width) →
    answers p cache rows = rows.map fun row => row.any (QueryEngine.anyMember p)
  | _, [], _ => rfl
  | cache, none :: rows, h => by
    rw [answers, answers_eq_map p cache rows h]
    rfl
  | cache, some filter :: rows, h => by
    obtain ⟨hfound, hnext⟩ := anyMember_eq p h filter
    rw [answers]
    rw [hfound, answers_eq_map p _ rows hnext]
    rfl

end NeedleMasks

theorem agrees_bloom (needles : BloomNeedles) :
    Agrees (evaluateBloom needles) (Cell.holdsBytes (anyMember needles)) := by
  intro array mask h
  rcases array with ⟨s, rows⟩ | ⟨_, _, rows⟩ | ⟨_, _, _⟩
  · cases s with
    | bytes k =>
      obtain rfl := Except.ok.inj h
      rw [NeedleMasks.answers_eq_map needles _ _ (.inl rfl), kept_map_some, Column.cells, List.map_map,
        List.map_map]
      refine List.map_congr_left fun r _ => ?_
      simp only [Function.comp_apply]
      cases r.get? <;> rfl
    | _ => cases h
  · cases h
  · cases h

theorem agrees_flag (flag : Bool) : Agrees (evaluateEq (.boolean flag)) (Cell.holdsFlag flag) := by
  intro array mask h
  rcases array with ⟨s, rows⟩ | ⟨_, _, rows⟩ | ⟨_, _, _⟩
  · cases s with
    | boolean =>
      obtain rfl := Except.ok.inj h
      refine kept_scalar (s := .boolean) (fun value => value.map fun v => decide (v = flag)) ?_
      rintro (_ | v)
      · rfl
      · exact keeps_some _
    | int t =>
      obtain rfl := Option.some.inj (orUnsupported_ok h)
      refine kept_scalar (s := .int t) (fun value => value.map fun v =>
        decide (storedKey (t.value v) ∈ [if flag then (1 : BitVec 64) else 0])) ?_
      rintro (_ | v)
      · rfl
      · exact (keeps_some _).trans (decide_eq_decide.mpr (storedKey_mem_flag flag t v))
    | _ => cases h
  · cases h
  · cases h

/-- What a threshold decides of a stored value. -/
def Threshold.decides (gte : Bool) (value : ℤ) : Threshold → Bool
  | .below => gte
  | .above => !gte
  | .within threshold => ordered gte value threshold
  | .reinterpreted threshold bits signed => ordered gte (declaredValue value bits signed) threshold

/-- A threshold outside a range is on one side of every value in it. -/
theorem Threshold.decides_range (gte : Bool) (lo hi : ℤ) {value : ℤ} (hlo : lo ≤ value)
    (hhi : value ≤ hi) (threshold : ℤ) :
    (if threshold < lo then Threshold.below
      else if hi < threshold then .above else .within threshold).decides gte value =
      ordered gte value threshold := by
  split
  · cases gte <;> simp [Threshold.decides, ordered] <;> omega
  · split
    · cases gte <;> simp [Threshold.decides, ordered] <;> omega
    · rfl

/-- **A threshold's four cases are one comparison** — of the declared value. -/
theorem Threshold.decides_new (ints : IntValues) (t : IntType) (gte : Bool) (v : t.Native)
    {threshold : Threshold} (h : Threshold.new ints (.scalar (.int t)) = some threshold) :
    threshold.decides gte (t.value v) =
      ordered gte (declaredValue (t.value v) t.bits ints.isSigned) ints.first := by
  simp only [Threshold.new, widthOf_int, Option.map_some, Option.some.injEq] at h
  subst h
  split
  · rfl
  · next hs =>
    have hs : ints.isSigned = t.signed := not_not.mp hs
    have hv : InRange t.signed t.bits (t.value v) := t.holds_value v
    have hbits : (2 : ℤ) ^ t.bits = 2 * 2 ^ (t.bits - 1) := by
      rw [← pow_succ', Nat.sub_add_cancel t.bits_pos]
    rw [declaredValue_eq_read t.width, hs, read_eq_self hv]
    cases hsign : t.signed with
    | false =>
      rw [hsign] at hv
      exact decides_range gte 0 (2 ^ t.bits - 1) hv.1 (Int.le_sub_one_of_lt hv.2) ints.first
    | true =>
      rw [hsign] at hv
      obtain ⟨hlo, hhi⟩ := hv
      exact decides_range gte (-2 ^ (t.bits - 1)) (2 ^ (t.bits - 1) - 1) (by omega) (by omega) ints.first

theorem agrees_compareInt (ints : IntValues) (gte : Bool) (expected : String) :
    Agrees (fun array => orUnsupported (compareInt array ints gte) expected array)
      (Cell.holdsOrderedInt ints gte) := by
  intro array mask h
  have hm := orUnsupported_ok h
  rcases array with ⟨s, rows⟩ | ⟨_, _, rows⟩ | ⟨_, _, _⟩
  · cases s with
    | int t =>
      simp only [compareInt, IntColumn.resolve, Column.dataType, Option.bind_eq_bind,
        Option.bind_some] at hm
      obtain ⟨threshold, ht, hmask⟩ := Option.bind_eq_some_iff.mp hm
      have hanswer : mask = rows.map fun r =>
          r.get?.map fun v => threshold.decides gte (t.value v) := by
        rw [← Option.some.inj hmask]
        cases threshold <;> rfl
      rw [hanswer]
      refine kept_scalar (s := .int t)
        (fun value => value.map fun v => threshold.decides gte (t.value v)) ?_
      rintro (_ | v)
      · rfl
      · exact (keeps_some _).trans (Threshold.decides_new ints t gte v ht)
    | _ => cases hm
  · cases hm
  · cases hm

theorem agrees_compareText (threshold : Text) (gte : Bool) (expected : String) :
    Agrees (fun array => orUnsupported (compareText array threshold gte) expected array)
      (Cell.holdsOrderedText threshold gte) := by
  intro array mask h
  have hm := orUnsupported_ok h
  rcases array with ⟨s, rows⟩ | ⟨_, _, rows⟩ | ⟨_, _, _⟩
  · cases s with
    | text k =>
      obtain rfl := Option.some.inj hm
      refine kept_scalar (s := .text k)
        (fun value => value.map fun v => ordered gte v.bytes threshold.bytes) ?_
      rintro (_ | v)
      · rfl
      · exact keeps_some _
    | _ => cases hm
  · cases hm
  · cases hm

theorem agrees_containsU32 (values : List (BitVec 32)) :
    Agrees (evaluateContainsU32 values) (Cell.holdsContainsU32 values) := by
  intro array mask h
  rcases array with ⟨s, rows⟩ | ⟨large, item, rows⟩ | ⟨_, _, _⟩
  · cases h
  · cases item with
    | int t =>
      obtain rfl := Except.ok.inj h
      rw [kept_map, Column.cells, List.map_map]
      refine List.map_congr_left fun r _ => ?_
      rw [keeps_some, Function.comp_apply]
      cases r.get? <;> rfl
    | _ => cases h
  · cases h

theorem agrees_containsString (values : List Text) :
    Agrees (evaluateContainsString values) (Cell.holdsContainsString values) := by
  intro array mask h
  rcases array with ⟨s, rows⟩ | ⟨large, item, rows⟩ | ⟨_, _, _⟩
  · cases h
  · cases item with
    | text k =>
      obtain rfl := Except.ok.inj h
      rw [kept_map, Column.cells, List.map_map]
      refine List.map_congr_left fun r _ => ?_
      rw [keeps_some, Function.comp_apply]
      cases r.get? <;> rfl
    | _ => cases h
  · cases h

/-- A verdict taken from the row before is the verdict the value would get. -/
theorem verdicts_eq_map (passes : Bytes → Bool) :
    ∀ (previous : Option (Bytes × Bool)) (rows : List (Option Bytes)),
      (∀ last ∈ previous, last.2 = passes last.1) →
      verdicts passes previous rows = rows.map fun row => row.any passes
  | _, [], _ => by rw [verdicts.eq_def]; rfl
  | previous, none :: rows, h => by
    rw [verdicts, verdicts_eq_map passes previous rows h]
    rfl
  | none, some value :: rows, _ => by
    rw [verdicts, verdicts_eq_map passes _ rows (by simp)]
    rfl
  | some (last, verdict), some value :: rows, h => by
    have hlast : verdict = passes last := h _ rfl
    rw [verdicts]
    split
    · next heq =>
      rw [verdicts_eq_map passes _ rows h, hlast, heq]
      rfl
    · rw [verdicts_eq_map passes _ rows (by simp)]
      rfl

/-- **Looking each value up alone gives the same mask.** -/
theorem kept_verdictMask (passes : Bytes → Bool) (rows : List (Option Bytes)) :
    Mask.kept (verdictMask passes rows) = rows.map fun row => row.any passes := by
  rw [verdictMask, verdicts_eq_map passes none rows (by simp), List.zipWith_map_right,
    List.zipWith_self, kept_map]
  refine List.map_congr_left fun row _ => ?_
  cases row <;> simp

theorem agrees_inSet (sets : List FilterSet) (encoding : Option JsonEncoding) :
    Agrees (evaluateInSet sets encoding) (Cell.holdsInSet sets encoding) := by
  intro array mask h
  rcases array with ⟨s, rows⟩ | ⟨_, _, rows⟩ | ⟨_, _, _⟩
  · cases s with
    | text k =>
      obtain rfl := Except.ok.inj h
      rw [kept_verdictMask, Column.cells, List.map_map, List.map_map]
      refine List.map_congr_left fun r _ => ?_
      simp only [Function.comp_apply]
      cases r.get? <;> rfl
    | bytes k =>
      have hrow (render : Bytes → Bytes) (rows : List (Slot (ScalarType.bytes k).Value)) :
          Mask.kept (verdictMask (fun b => setsContain sets (unquoted (render b)))
            (rows.map fun s => s.get?.map Subtype.val)) =
          rows.map fun r => r.get?.any fun v => setsContain sets (unquoted (render v.1)) := by
        rw [kept_verdictMask, List.map_map]
        refine List.map_congr_left fun r _ => ?_
        simp only [Function.comp_apply]
        cases r.get? <;> rfl
      rw [Column.cells, List.map_map]
      rcases encoding with _ | encoding
      · cases h
      · cases encoding <;> cases k <;> cases h <;> rw [hrow] <;>
          exact List.map_congr_left fun r _ => by
            simp only [Function.comp_apply]
            cases r.get? <;> rfl
    | _ => cases h
  · cases h
  · cases h

end Kernels

/-! ## Every predicate -/

section Predicates

/-- A question asked only of values says no to a null. -/
theorem nullFree_of {asks : Cell → Bool} (hscalar : ∀ s, asks (.scalar s none) = false)
    (hlist : ∀ item, asks (.list item none) = false) : NullFree asks
  | .scalar s none, _ => hscalar s
  | .list item none, _ => hlist item

theorem ScalarValue.nullFree_holdsEq (value : ScalarValue) : NullFree value.holdsEq :=
  nullFree_of (fun s => by cases value <;> cases s <;> rfl) (fun _ => by cases value <;> rfl)

theorem ScalarValue.nullFree_holdsOrdered (gte : Bool) (value : ScalarValue) :
    NullFree (value.holdsOrdered gte) :=
  nullFree_of (fun s => by cases value <;> cases s <;> rfl) (fun _ => by cases value <;> rfl)

theorem nullFree_holdsBytes (test : Bytes → Bool) : NullFree (Cell.holdsBytes test) :=
  nullFree_of (fun s => by cases s <;> rfl) (fun _ => rfl)

theorem nullFree_holdsInList (values : Column) : NullFree (holdsInList values) := by
  unfold holdsInList
  split
  · exact nullFree_of (fun s => by cases s <;> rfl) (fun _ => rfl)
  · exact nullFree_of (fun s => by cases s <;> rfl) (fun _ => rfl)
  · exact nullFree_holdsBytes _
  · exact fun _ _ => rfl

theorem nullFree_holdsInSet (sets : List FilterSet) (encoding : Option JsonEncoding) :
    NullFree (Cell.holdsInSet sets encoding) :=
  nullFree_of (fun s => by cases s <;> rfl) (fun _ => rfl)

mutual

/-- **A null satisfies no predicate.** -/
theorem ArrayPredicate.nullFree_holds : ∀ p : ArrayPredicate, NullFree p.holds
  | .eq value => value.nullFree_holdsEq
  | .inList values => nullFree_holdsInList values
  | .bloom needles => nullFree_holdsBytes (anyMember needles)
  | .inSet sets encoding => nullFree_holdsInSet sets encoding
  | .anyOf parts => ArrayPredicate.nullFree_holdsAny parts
  | .rangeGte value => value.nullFree_holdsOrdered true
  | .rangeLte value => value.nullFree_holdsOrdered false
  | .listContainsAnyU32 _ => nullFree_of (fun _ => rfl) (fun item => by cases item <;> rfl)
  | .listContainsAnyString _ => nullFree_of (fun _ => rfl) (fun item => by cases item <;> rfl)
  | .never => fun _ _ => rfl

theorem ArrayPredicate.nullFree_holdsAny : ∀ parts : List ArrayPredicate,
    NullFree (ArrayPredicate.holdsAny parts)
  | [] => fun _ _ => rfl
  | part :: parts => fun cell h => by
    rw [holdsAny, ArrayPredicate.nullFree_holds part cell h,
      ArrayPredicate.nullFree_holdsAny parts cell h]
    rfl

end

theorem agrees_evaluateEq (value : ScalarValue) : Agrees (evaluateEq value) value.holdsEq := by
  cases value with
  | boolean flag => exact agrees_flag flag
  | utf8 v => exact agrees_text [v] "a string"
  | _ => exact agrees_ints _ "an integer"

theorem agrees_compare (value : ScalarValue) (gte : Bool) :
    Agrees (compare value · gte) (value.holdsOrdered gte) := by
  cases value with
  | boolean flag => intro _ _ h; cases h
  | utf8 v => exact agrees_compareText v gte "a text threshold"
  | _ => exact agrees_compareInt _ gte "an integer threshold"

theorem agrees_evaluateInList (values : Column) :
    Agrees (evaluateInList values) (holdsInList values) := by
  unfold evaluateInList holdsInList
  cases stringSet values with
  | some set => exact agrees_text set "a list of strings"
  | none =>
    cases listedInts values with
    | some ints => exact agrees_ints ints "a list of integers"
    | none =>
      cases fixedBinarySet values with
      | some set => exact agrees_bytes set "a list of byte strings"
      | none =>
        intro _ _ h
        cases h

namespace ArrayPredicate

mutual

/-- **A mask keeps exactly the rows whose cell satisfies the predicate.** -/
theorem kept_evaluate : ∀ p : ArrayPredicate, Agrees p.evaluate p.holds
  | .eq value => agrees_throughDictionary (agrees_evaluateEq value) value.nullFree_holdsEq
  | .inList values =>
    agrees_throughDictionary (agrees_evaluateInList values) (nullFree_holdsInList values)
  | .bloom needles => agrees_throughDictionary (agrees_bloom needles) (nullFree_holdsBytes _)
  | .inSet sets encoding =>
    agrees_throughDictionary (agrees_inSet sets encoding) (nullFree_holdsInSet sets encoding)
  | .anyOf [] => fun array mask h => by
    obtain rfl := Except.ok.inj h
    simp [holds, holdsAny]
  | .anyOf (part :: parts) => fun array mask h => by
    obtain ⟨any, hany, rfl⟩ := map_eq_ok.mp h
    obtain ⟨first, hfirst, hany⟩ := bind_eq_ok.mp hany
    obtain ⟨whole, rfl, hwhole⟩ := kept_evaluateParts parts array first any part.holds
      (kept_evaluate part array first hfirst) hany
    exact hwhole
  | .rangeGte value =>
    agrees_throughDictionary (agrees_compare value true) (value.nullFree_holdsOrdered true)
  | .rangeLte value =>
    agrees_throughDictionary (agrees_compare value false) (value.nullFree_holdsOrdered false)
  | .listContainsAnyU32 values => agrees_containsU32 values
  | .listContainsAnyString values => agrees_containsString values
  | .never => fun array mask h => by
    obtain rfl := Except.ok.inj h
    simp [holds]

/-- The disjunction so far, and what each further part adds to it. -/
theorem kept_evaluateParts : ∀ (parts : List ArrayPredicate) (array : Column) (prev : Mask)
    (result : Option Mask) (before : Cell → Bool),
    Mask.kept prev = array.cells.map before →
    evaluateParts parts array (some prev) = .ok result →
    ∃ mask, result = some mask ∧
      Mask.kept mask = array.cells.map fun cell => before cell || holdsAny parts cell
  | [], array, prev, result, before, hbefore, h => by
    obtain rfl := Except.ok.inj h
    exact ⟨prev, rfl, by simpa [holdsAny] using hbefore⟩
  | part :: parts, array, prev, result, before, hbefore, h => by
    obtain ⟨mask, hmask, h⟩ := bind_eq_ok.mp h
    have hpart := kept_evaluate part array mask hmask
    have hor : Mask.kept (Mask.or prev mask) =
        array.cells.map fun cell => before cell || part.holds cell := by
      rw [Mask.kept_or, hbefore, hpart, List.zipWith_map, List.zipWith_self]
    obtain ⟨whole, rfl, hwhole⟩ := kept_evaluateParts parts array _ result _ hor h
    refine ⟨whole, rfl, hwhole.trans (List.map_congr_left fun cell _ => ?_)⟩
    rw [holdsAny, Bool.or_assoc]

end

end ArrayPredicate

end Predicates

/-! ## Which columns have a mask -/

section Types

/-- Whether there is a mask is decided by the column's type. -/
def DecidedByType (evaluate : Column → MaskResult) : Prop :=
  ∀ c, (evaluate c).isOk = (evaluate (.empty c.dataType)).isOk

theorem isOk_orUnsupported (mask : Option Mask) (expected : String) (array : Column) :
    (orUnsupported mask expected array).isOk = mask.isSome := by cases mask <;> rfl

theorem isOk_map {ε α β : Type} (x : Except ε α) (f : α → β) : (x.map f).isOk = x.isOk := by
  cases x <;> rfl

theorem isSome_inListInt (array : Column) (keys : List (BitVec 64)) :
    (inListInt array keys).isSome = (widthOf array.dataType).isSome := by
  rcases array with ⟨_ | _ | _ | _ | _, rows⟩ | _ | _ <;> rfl

theorem isSome_inListText (array : Column) (set : List Text) :
    (inListText array set).isSome = (inListText (.empty array.dataType) set).isSome := by
  rcases array with ⟨_ | _ | _ | _ | _, rows⟩ | _ | _ <;> rfl

theorem isSome_inListBytes (array : Column) (set : List Bytes) :
    (inListBytes array set).isSome = (inListBytes (.empty array.dataType) set).isSome := by
  rcases array with ⟨_ | _ | _ | _ | _, rows⟩ | _ | _ <;> rfl

theorem isOk_ints (ints : IntValues) (expected : String) : DecidedByType fun array =>
    orUnsupported ((ints.storedKeys array.dataType).bind (inListInt array)) expected array := by
  intro c
  simp only [isOk_orUnsupported, Column.dataType_empty]
  cases ints.storedKeys c.dataType with
  | none => rfl
  | some keys =>
    rw [Option.bind_some, Option.bind_some, isSome_inListInt, isSome_inListInt, Column.dataType_empty]

theorem decidedByType_throughDictionary {evaluate : Column → MaskResult} (h : DecidedByType evaluate) :
    DecidedByType (throughDictionary evaluate) := by
  intro c
  cases c with
  | scalar s rows => exact h (.scalar s rows)
  | list large item rows => exact h (.list large item rows)
  | dictionary item values keys =>
    simp only [throughDictionary, Column.dataType, Column.empty, isOk_map]
    exact h (.scalar item values)

theorem decidedByType_evaluateEq (value : ScalarValue) : DecidedByType (evaluateEq value) := by
  cases value with
  | boolean flag =>
    intro c
    rcases c with ⟨_ | _ | _ | _ | _, rows⟩ | _ | _ <;> rfl
  | utf8 v =>
    intro c
    simp only [evaluateEq, isOk_orUnsupported]
    exact isSome_inListText c [v]
  | _ => exact isOk_ints _ "an integer"

theorem decidedByType_evaluateInList (values : Column) : DecidedByType (evaluateInList values) := by
  unfold evaluateInList
  cases stringSet values with
  | some set =>
    intro c
    simp only [isOk_orUnsupported]
    exact isSome_inListText c set
  | none =>
    cases listedInts values with
    | some ints => exact isOk_ints ints "a list of integers"
    | none =>
      cases fixedBinarySet values with
      | some set =>
        intro c
        simp only [isOk_orUnsupported]
        exact isSome_inListBytes c set
      | none => exact fun _ => rfl

theorem decidedByType_evaluateInSet (sets : List FilterSet) (encoding : Option JsonEncoding) :
    DecidedByType (evaluateInSet sets encoding) := by
  intro c
  rcases c with ⟨_ | _ | _ | k | _, rows⟩ | _ | _
  case scalar.bytes =>
    rcases encoding with _ | encoding
    · rfl
    · cases encoding <;> cases k <;> rfl
  all_goals rfl

theorem decidedByType_compare (value : ScalarValue) (gte : Bool) :
    DecidedByType fun array => compare value array gte := by
  intro c
  cases value with
  | boolean flag => rfl
  | _ => rcases c with ⟨_ | _ | _ | _ | _, rows⟩ | _ | _ <;> rfl

theorem decidedByType_bloom (needles : BloomNeedles) : DecidedByType (evaluateBloom needles) := by
  intro c
  rcases c with ⟨_ | _ | _ | _ | _, rows⟩ | _ | _ <;> rfl

namespace ArrayPredicate

mutual

/-- **A predicate has a mask for a column exactly when it has one for an empty column of its type**: the
check before the scan is the one the scan would fail. -/
theorem decidedByType_evaluate : ∀ p : ArrayPredicate, DecidedByType p.evaluate
  | .eq value => decidedByType_throughDictionary (decidedByType_evaluateEq value)
  | .inList values => decidedByType_throughDictionary (decidedByType_evaluateInList values)
  | .bloom needles => decidedByType_throughDictionary (decidedByType_bloom needles)
  | .inSet sets encoding => decidedByType_throughDictionary (decidedByType_evaluateInSet sets encoding)
  | .anyOf parts => fun c => by
    simp only [evaluate, isOk_map]
    exact isOk_evaluateParts parts c none none
  | .rangeGte value => decidedByType_throughDictionary (decidedByType_compare value true)
  | .rangeLte value => decidedByType_throughDictionary (decidedByType_compare value false)
  | .listContainsAnyU32 values => fun c => by
    rcases c with _ | ⟨_, _ | _ | _ | _ | _, rows⟩ | _ <;> rfl
  | .listContainsAnyString values => fun c => by
    rcases c with _ | ⟨_, _ | _ | _ | _ | _, rows⟩ | _ <;> rfl
  | .never => fun _ => rfl

/-- The parts have a mask together when each has one. -/
theorem isOk_evaluateParts : ∀ (parts : List ArrayPredicate) (c : Column) (any any' : Option Mask),
    (evaluateParts parts c any).isOk = (evaluateParts parts (.empty c.dataType) any').isOk
  | [], _, _, _ => rfl
  | part :: parts, c, any, any' => by
    have hpart := decidedByType_evaluate part c
    rw [evaluateParts, evaluateParts]
    cases hc : evaluate part c with
    | error e =>
      cases he : evaluate part (.empty c.dataType) with
      | error e => rfl
      | ok m => exact absurd hpart (by rw [hc, he]; simp [Except.isOk, Except.toBool])
    | ok m =>
      cases he : evaluate part (.empty c.dataType) with
      | error e => exact absurd hpart (by rw [hc, he]; simp [Except.isOk, Except.toBool])
      | ok m' => exact isOk_evaluateParts parts c _ _

end

end ArrayPredicate

end Types

end QueryEngine
