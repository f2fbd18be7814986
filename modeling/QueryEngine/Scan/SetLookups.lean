import QueryEngine.Scan.RowSemantics

/-!
# Scan/SetLookups — a set looked up by runs, and a list's parts together

A set is looked up by the text of a value.  A column of runs takes the verdict of the value before it,
  and a value stored
as bytes is rendered into one buffer that every row reuses; neither shows in the mask.  A list of parts is Kleene's
disjunction of their masks, part after part.
-/

open Kleene Fallible

namespace QueryEngine

/-! ## The lookup with its state -/

section Stateful

variable {σ : Type}

/-- A verdict per row where the lookup keeps a state of its own. -/
def verdictsFrom (passes : σ → Bytes → Bool × σ) : σ → Option (Bytes × Bool) → List (Option Bytes) → List Bool
  | _, _, [] => []
  | state, previous, none :: rows => false :: verdictsFrom passes state previous rows
  | state, none, some value :: rows =>
    let looked := passes state value
    looked.1 :: verdictsFrom passes looked.2 (some (value, looked.1)) rows
  | state, some (last, verdict), some value :: rows =>
    if value = last then verdict :: verdictsFrom passes state (some (last, verdict)) rows
    else
      let looked := passes state value
      looked.1 :: verdictsFrom passes looked.2 (some (value, looked.1)) rows

/-- **A state that no answer depends on leaves the verdicts.** -/
theorem verdictsFrom_eq {passes : σ → Bytes → Bool × σ} {alone : Bytes → Bool}
    (h : ∀ state value, (passes state value).1 = alone value) (state : σ) (previous : Option (Bytes × Bool))
    (rows : List (Option Bytes)) : verdictsFrom passes state previous rows = verdicts alone previous rows := by
  fun_induction verdictsFrom passes state previous rows with
  | case1 => rw [verdicts.eq_def]
  | case2 state previous rows ih => rw [verdicts, ih]
  | case3 state value rows looked ih => rw [verdicts, ih, h]
  | case4 state verdict value rows ih => rw [verdicts, if_pos rfl, ih]
  | case5 state last verdict value rows hne looked ih => rw [verdicts, if_neg hne, ih, h]

end Stateful

/-- What a renderer leaves in a buffer: it writes after what is there. -/
def renderInto (render : Bytes → Bytes) (bytes buf : Bytes) : Bytes := buf ++ render bytes

/-- A value rendered into the cleared buffer, and looked up without the quotes around it. -/
def passesRendered (sets : List FilterSet) (render : Bytes → Bytes) (_text : Bytes) (bytes : Bytes) : Bool × Bytes :=
  let text := renderInto render bytes []
  (setsContain sets (unquoted text), text)

/-- The lookup as the code runs it: each row's text in the buffer of the row before. -/
def evaluateInSetBuffered (sets : List FilterSet) (encoding : Option JsonEncoding) (array : Column) : MaskResult :=
  let masked (rows : List (Option Bytes)) (values : List Bool) : Mask :=
    List.zipWith (fun row verdict => row.map fun _ => verdict) rows values
  match array with
  | .scalar (.text _) slots =>
    let rows := slots.map fun s => s.get?.map Text.bytes
    .ok (masked rows (verdictsFrom (fun _ text => (setsContain sets text, ())) () none rows))
  | .scalar (.bytes k) slots =>
    let rows := slots.map fun s => s.get?.map Subtype.val
    let looked (render : Bytes → Bytes) : MaskResult :=
      match k with
      | .largeBinary => .error (unsupported "a set" array)
      | _ => .ok (masked rows (verdictsFrom (passesRendered sets render) [] none rows))
    match encoding with
    | some .hexBytes => looked encodeHexBytes
    | some .base58 => looked encodeBase58Bytes
    | _ => .error (unsupported "a set" array)
  | _ => .error (unsupported "a set" array)

/-- **The buffer does not show**: it is cleared before each text. -/
theorem evaluateInSetBuffered_eq (sets : List FilterSet) (encoding : Option JsonEncoding) (array : Column) :
    evaluateInSetBuffered sets encoding array = evaluateInSet sets encoding array := by
  have hplain := @verdictsFrom_eq _ (fun (_ : Unit) text => (setsContain sets text, ()))
      (setsContain sets) fun _ _ => rfl
  have hrendered : ∀ render rows, verdictsFrom (passesRendered sets render) [] none rows =
      verdicts (fun b => setsContain sets (unquoted (render b))) none rows :=
    fun render rows => @verdictsFrom_eq _ (passesRendered sets render) (fun b => setsContain sets (unquoted (render b)))
      (fun _ _ => rfl) [] none rows
  cases array with
  | scalar s slots =>
    cases s with
    | text k => simp only [evaluateInSetBuffered, evaluateInSet, hplain, verdictMask]
    | bytes k =>
      rcases encoding with _ | encoding
      · rfl
      · cases k <;> cases encoding <;> simp only [evaluateInSetBuffered, evaluateInSet, hrendered, verdictMask]
    | _ => rfl
  | _ => rfl

/-! ## Each value alone -/

/-- The text a stored value is looked up by, where a set reads its type. -/
def lookupText (encoding : Option JsonEncoding) : (s : ScalarType) → Option (s.Value → Bytes)
  | .text _ => some Text.bytes
  | .bytes .largeBinary => none
  | .bytes _ =>
    match encoding with
    | some .hexBytes => some fun v => unquoted (encodeHexBytes v.1)
    | some .base58 => some fun v => unquoted (encodeBase58Bytes v.1)
    | _ => none
  | _ => none

/-- **Each value looked up alone**: a null of a plain column stays null, and one under a dictionary is no member. -/
def lookedUpAlone (sets : List FilterSet) (encoding : Option JsonEncoding) : Column → MaskResult
  | .scalar s rows =>
    match lookupText encoding s with
    | some text => .ok (rows.map fun r => r.get?.map fun v => setsContain sets (text v))
    | none => .error (unsupported "a set" (.scalar s rows))
  | .dictionary item values keys =>
    match lookupText encoding item with
    | some text => .ok (keys.map fun k => some (k.get?.any fun i => (values[i]?).any fun r =>
        r.get?.any fun v => setsContain sets (text v)))
    | none => .error (unsupported "a set" (.scalar item values))
  | .list large item rows => .error (unsupported "a set" (.list large item rows))

/-- Verdicts by runs are verdicts alone, nulls kept. -/
theorem verdictMask_eq_map (passes : Bytes → Bool) (rows : List (Option Bytes)) :
    verdictMask passes rows = rows.map fun row => row.map passes := by
  rw [verdictMask, verdicts_eq_map passes none rows (by simp), List.zipWith_map_right, List.zipWith_self]
  refine List.map_congr_left fun row _ => ?_
  cases row <;> rfl

/-- **A plain column is looked up value by value.** -/
theorem evaluateInSet_eq (sets : List FilterSet) (encoding : Option JsonEncoding) (s : ScalarType)
    (rows : List (Slot s.Value)) :
    evaluateInSet sets encoding (.scalar s rows) = lookedUpAlone sets encoding (.scalar s rows) := by
  have hmap : ∀ {β : Type} (bytes : s.Value → β) (passes : β → Bool),
      (rows.map fun r => r.get?.map bytes).map (fun row => row.map passes) =
        rows.map fun r => r.get?.map fun v => passes (bytes v) := by
    intro β bytes passes
    rw [List.map_map]
    exact List.map_congr_left fun r _ => Option.map_map ..
  cases s with
  | text k => simp only [evaluateInSet, lookedUpAlone, lookupText, verdictMask_eq_map, hmap]
  | bytes k =>
    cases k with
    | largeBinary => rcases encoding with _ | _ | _ <;> rfl
    | fixedSizeBinary size =>
      rcases encoding with _ | encoding
      · rfl
      · cases encoding <;> simp only [evaluateInSet, lookedUpAlone, lookupText, verdictMask_eq_map, hmap]
    | binary =>
      rcases encoding with _ | encoding
      · rfl
      · cases encoding <;> simp only [evaluateInSet, lookedUpAlone, lookupText, verdictMask_eq_map, hmap]
  | _ => rfl

/-- **A set is looked up value by value**, under a dictionary or not. -/
theorem evaluate_inSet_eq (sets : List FilterSet) (encoding : Option JsonEncoding) (array : Column) :
    (ArrayPredicate.inSet sets encoding).evaluate array = lookedUpAlone sets encoding array := by
  rw [ArrayPredicate.evaluate]
  cases array with
  | scalar s rows => exact evaluateInSet_eq sets encoding s rows
  | list large item rows => rfl
  | dictionary item values keys =>
    rw [throughDictionary, evaluateInSet_eq, lookedUpAlone, lookedUpAlone]
    cases lookupText encoding item with
    | none => rfl
    | some text =>
      simp only [Except.map]
      congr 1
      refine List.map_congr_left fun k _ => ?_
      congr 2
      funext i
      rw [List.getElem?_map]
      cases values[i]? with
      | none => rfl
      | some r => simp

/-! ## A list of parts -/

/-- Kleene's disjunction of any number of answers: a known `true` decides it, and nothing is known where no answer is
`true` and one is unknown. -/
def unionAnswer (answers : List Answer) : Answer :=
  if some true ∈ answers then some true else if none ∈ answers then none else some false

/-- The union of masks over so many rows, row by row. -/
def unionMask (len : ℕ) (masks : List Mask) : Mask :=
  (List.range len).map fun row => unionAnswer (masks.map fun mask => (mask[row]?).join)

@[simp] theorem unionAnswer_singleton (a : Answer) : unionAnswer [a] = a := by
  rcases a with _ | _ | _ <;> rfl

/-- Two answers may be joined first. -/
theorem unionAnswer_either (a b : Answer) (answers : List Answer) :
    unionAnswer (either a b :: answers) = unionAnswer (a :: b :: answers) := by
  rcases a with _ | _ | _ <;> rcases b with _ | _ | _ <;> simp [unionAnswer, either]

/-- **A row is kept when some answer keeps it.** -/
theorem keeps_unionAnswer (answers : List Answer) : keeps (unionAnswer answers) = answers.any keeps := by
  rw [Bool.eq_iff_iff, List.any_eq_true, keeps_eq_true_iff, unionAnswer]
  constructor
  · intro h
    split at h
    · next hmem => exact ⟨_, hmem, rfl⟩
    · split at h <;> exact absurd h (by simp)
  · rintro ⟨a, ha, hkeeps⟩
    rw [keeps_eq_true_iff] at hkeeps
    rw [if_pos (hkeeps ▸ ha)]

/-- The disjunction of two masks, first. -/
theorem unionMask_or {len : ℕ} {m n : Mask} (hm : m.length = len) (hn : n.length = len) (masks : List Mask) :
    unionMask len (Mask.or m n :: masks) = unionMask len (m :: n :: masks) := by
  refine List.map_congr_left fun row hrow => ?_
  have hrow := List.mem_range.mp hrow
  rw [List.map_cons, List.map_cons, List.map_cons, ← unionAnswer_either]
  have hboth : Mask.or m n = List.zipWith either m n := rfl
  rw [hboth, List.getElem?_zipWith, List.getElem?_eq_getElem (by omega), List.getElem?_eq_getElem (by omega)]
  rfl

/-- One mask is its own union. -/
theorem unionMask_singleton (m : Mask) : unionMask m.length [m] = m := by
  refine List.ext_getElem (by simp [unionMask]) fun row _ hrow => ?_
  simp [unionMask, List.getElem?_eq_getElem hrow]

/-- No mask keeps no row. -/
theorem unionMask_nil (len : ℕ) : unionMask len [] = Mask.all len false := by
  simp [unionMask, unionAnswer, Mask.all]

/-- A row of the union is kept when some mask keeps it. -/
theorem keeps_unionMask {len row : ℕ} (hrow : row < len) (masks : List Mask) :
    keeps ((unionMask len masks)[row]?).join = masks.any fun mask => keeps (mask[row]?).join := by
  rw [unionMask, List.getElem?_map, List.getElem?_range hrow, Option.map_some, Option.join_some, keeps_unionAnswer,
    List.any_map]
  rfl

/-- A mask has an answer for each row of its column. -/
theorem length_evaluate {p : ArrayPredicate} {array : Column} {mask : Mask} (h : p.evaluate array = .ok mask) :
    mask.length = array.len := by
  have hkept := congrArg List.length (ArrayPredicate.kept_evaluate p array mask h)
  rwa [Mask.length_kept, List.length_map, Column.length_cells] at hkept

/-- **What parts add to a disjunction is their masks, one after the other.** -/
theorem evaluateParts_some (array : Column) : ∀ (parts : List ArrayPredicate) (prev : Mask), prev.length = array.len →
    ArrayPredicate.evaluateParts parts array (some prev) =
      (parts.mapM (ArrayPredicate.evaluate · array)).map fun masks => some (unionMask array.len (prev :: masks))
  | [], prev, hprev => by
    rw [ArrayPredicate.evaluateParts, List.mapM_nil, ← hprev]
    exact congrArg (fun m => Except.ok (some m)) (unionMask_singleton prev).symm
  | part :: parts, prev, hprev => by
    rw [ArrayPredicate.evaluateParts, List.mapM_cons]
    cases hmask : part.evaluate array with
    | error e => rfl
    | ok mask =>
      have hlen := length_evaluate hmask
      have hor : (Mask.or prev mask).length = array.len := by
        rw [Mask.or, List.length_zipWith, hprev, hlen, Nat.min_self]
      refine (evaluateParts_some array parts _ hor).trans ?_
      simp only [unionMask_or hprev hlen]
      cases parts.mapM (ArrayPredicate.evaluate · array) <;> rfl

/-- **A list of parts is the union of their masks**, or the refusal of the first that refuses. -/
theorem evaluate_anyOf_eq (parts : List ArrayPredicate) (array : Column) :
    (ArrayPredicate.anyOf parts).evaluate array =
      (parts.mapM (ArrayPredicate.evaluate · array)).map (unionMask array.len) := by
  rw [ArrayPredicate.evaluate]
  cases parts with
  | nil =>
    rw [ArrayPredicate.evaluateParts, List.mapM_nil]
    exact congrArg Except.ok (unionMask_nil array.len).symm
  | cons part parts =>
    rw [ArrayPredicate.evaluateParts, List.mapM_cons]
    cases hmask : part.evaluate array with
    | error e => rfl
    | ok mask =>
      have hrest := evaluateParts_some array parts mask (length_evaluate hmask)
      simp only [Option.elim_none]
      refine (congrArg (Except.map fun any => any.getD (Mask.all array.len false)) hrest).trans ?_
      cases parts.mapM (ArrayPredicate.evaluate · array) <;> rfl

/-- **Lookups by runs are lookups alone, and a list of parts is their union.**  For every column a set gives the mask,
or the refusal, that looking up each value alone gives, in the reused buffer as without one; and a list of parts gives
Kleene's union of its parts' masks, which keeps a row exactly when some part keeps it. -/
theorem set_lookups_pointwise (sets : List FilterSet) (encoding : Option JsonEncoding) (parts : List ArrayPredicate)
    (array : Column) :
    (ArrayPredicate.inSet sets encoding).evaluate array = lookedUpAlone sets encoding array ∧
      throughDictionary (evaluateInSetBuffered sets encoding) array = lookedUpAlone sets encoding array ∧
      (ArrayPredicate.anyOf parts).evaluate array =
        (parts.mapM (ArrayPredicate.evaluate · array)).map (unionMask array.len) ∧
      ∀ masks : List Mask, ∀ row < array.len,
        keeps ((unionMask array.len masks)[row]?).join = masks.any fun mask => keeps (mask[row]?).join := by
  refine ⟨evaluate_inSet_eq sets encoding array, ?_, evaluate_anyOf_eq parts array, fun masks row hrow => ?_⟩
  · rw [funext (evaluateInSetBuffered_eq sets encoding), ← evaluate_inSet_eq, ArrayPredicate.evaluate]
  · exact keeps_unionMask hrow masks

end QueryEngine
