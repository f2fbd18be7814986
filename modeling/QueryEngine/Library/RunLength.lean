import QueryEngine.Library.Selection

/-!
# Library/RunLength — selections by their runs

A selection of many rows is mostly long runs, so it is held as them: a *selector* keeps, or skips, a number of rows.
What runs mean is the selection they expand to; the places kept are read off the runs, one run after the other.
-/

namespace Selection

/-- A run of rows, all kept or all skipped. -/
structure Selector where
  rowCount : ℕ
  skip : Bool
  deriving DecidableEq, Repr

/-- The selection that runs stand for. -/
def expand (selectors : List Selector) : List Bool := selectors.flatMap fun s => List.replicate s.rowCount !s.skip

@[simp] theorem expand_nil : expand [] = [] := rfl

@[simp] theorem expand_cons (s : Selector) (selectors : List Selector) :
    expand (s :: selectors) = List.replicate s.rowCount (!s.skip) ++ expand selectors := rfl

/-- A run of each row alone. -/
def singles (keep : List Bool) : List Selector := keep.map fun k => ⟨1, !k⟩

@[simp] theorem expand_singles : ∀ keep : List Bool, expand (singles keep) = keep
  | [] => rfl
  | k :: keep => by
    have hrest := expand_singles keep
    simp only [singles] at hrest
    simp [singles, hrest]

/-- The places kept by runs, from a row on. -/
def positionsFrom : ℕ → List Selector → List ℕ
  | _, [] => []
  | row, s :: selectors => (if s.skip then [] else List.range' row s.rowCount) ++ positionsFrom
    (row + s.rowCount) selectors

/-- **The places read off the runs are those of the selection.** -/
theorem positionsFrom_eq : ∀ (row : ℕ) (selectors : List Selector),
    positionsFrom row selectors = (offsets (expand selectors)).map (row + ·)
  | _, [] => rfl
  | row, s :: selectors => by
    have hrun : (offsets (List.replicate s.rowCount !s.skip)).map (row + ·) =
        if s.skip then [] else List.range' row s.rowCount := by
      unfold offsets
      rw [List.length_replicate]
      cases s.skip with
      | true => simp
      | false =>
        have hall := pick_replicate_true (List.range s.rowCount)
        rw [List.length_range] at hall
        rw [Bool.not_false, hall, List.range_eq_range', List.map_add_range', Nat.add_zero]
        rfl
    rw [positionsFrom, expand_cons, offsets_append, List.map_append, hrun, List.length_replicate, List.map_map,
      positionsFrom_eq (row + s.rowCount) selectors]
    simp only [Function.comp_def, Nat.add_assoc]

/-- The kept places are in order. -/
theorem pairwise_offsets (keep : List Bool) : (offsets keep).Pairwise (· < ·) :=
  List.pairwise_lt_range.sublist (sublist_pick keep _)

/-! ## What a library of runs offers -/

/-- **Runs, as a library composes them.**  The runs it makes are its own choice; the selections they stand for are not.
-/
structure Runs where
  /-- The runs of masks, one mask after the other. -/
  fromFilters : List (List Bool) → List Selector
  /-- What a second selection keeps of the rows that a first kept. -/
  andThen : List Selector → List Selector → List Selector
  expand_fromFilters : ∀ masks, expand (fromFilters masks) = masks.flatten
  expand_andThen : ∀ selectors again, (expand again).length = (expand selectors).count true →
    expand (andThen selectors again) = Selection.andThen (expand selectors) (expand again)

/-- Runs of single rows. -/
def Runs.single : Runs where
  fromFilters masks := singles masks.flatten
  andThen selectors again := singles (Selection.andThen (expand selectors) (expand again))
  expand_fromFilters _ := expand_singles _
  expand_andThen _ _ _ := expand_singles _

/-- Whether any row is kept. -/
def selectsAny (selectors : List Selector) : Bool := (expand selectors).any id

end Selection
