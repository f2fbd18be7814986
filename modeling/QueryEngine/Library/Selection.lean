import Mathlib

/-!
# Library/Selection — rows kept of rows kept

A *selection* says, for each row, whether it is kept.  Selections compose: a second one, over the rows
the first kept, is a selection of all the rows (`andThen`), and keeping by it is keeping twice
(`pick_andThen`).  A test of single rows commutes with every selection (`pick_map`), so tests may run one
after the other, each on what the ones before it left, and in pieces.
-/

namespace Selection

variable {α β γ : Type*}

/-- The elements standing at a kept place, in order. -/
def pick (keep : List Bool) (xs : List α) : List α :=
  (keep.zip xs).filterMap fun p => if p.1 then some p.2 else none

@[simp] theorem pick_nil_left (xs : List α) : pick [] xs = [] := rfl

@[simp] theorem pick_nil_right (keep : List Bool) : pick keep ([] : List α) = [] := by simp [pick]

@[simp] theorem pick_cons_true (keep : List Bool) (x : α) (xs : List α) :
    pick (true :: keep) (x :: xs) = x :: pick keep xs := rfl

@[simp] theorem pick_cons_false (keep : List Bool) (x : α) (xs : List α) :
    pick (false :: keep) (x :: xs) = pick keep xs := rfl

/-- **What is read of each element alone commutes with a selection.** -/
theorem pick_map (f : α → β) : ∀ (keep : List Bool) (xs : List α),
    pick keep (xs.map f) = (pick keep xs).map f
  | [], _ => rfl
  | _ :: _, [] => by simp
  | true :: keep, x :: xs => congrArg (f x :: ·) (pick_map f keep xs)
  | false :: keep, _ :: xs => pick_map f keep xs

/-- So does what is read of two lists side by side. -/
theorem pick_zipWith (f : α → β → γ) : ∀ (keep : List Bool) (xs : List α) (ys : List β),
    pick keep (List.zipWith f xs ys) = List.zipWith f (pick keep xs) (pick keep ys)
  | [], _, _ => rfl
  | _ :: _, [], _ => by simp
  | _ :: _, _ :: _, [] => by simp
  | true :: keep, x :: xs, y :: ys => congrArg (f x y :: ·) (pick_zipWith f keep xs ys)
  | false :: keep, _ :: xs, _ :: ys => pick_zipWith f keep xs ys

theorem pick_append : ∀ {keep keep' : List Bool} {xs ys : List α}, keep.length = xs.length →
    pick (keep ++ keep') (xs ++ ys) = pick keep xs ++ pick keep' ys
  | [], _, [], _, _ => rfl
  | true :: keep, _, x :: xs, _, h => by
    have hlen : keep.length = xs.length := Nat.succ.inj h
    exact congrArg (x :: ·) (pick_append hlen)
  | false :: keep, _, _ :: xs, _, h => by
    have hlen : keep.length = xs.length := Nat.succ.inj h
    change pick (keep ++ _) (xs ++ _) = pick keep xs ++ _
    exact pick_append hlen

@[simp] theorem pick_replicate_true : ∀ xs : List α, pick (List.replicate xs.length true) xs = xs
  | [] => rfl
  | x :: xs => congrArg (x :: ·) (pick_replicate_true xs)

@[simp] theorem pick_replicate_false (n : ℕ) : ∀ xs : List α, pick (List.replicate n false) xs = [] := by
  induction n with
  | zero => exact fun _ => rfl
  | succ n ih =>
    intro xs
    cases xs with
    | nil => simp
    | cons x xs => exact ih xs

/-- Keeping by a test is filtering by it. -/
theorem pick_test (p : α → Bool) : ∀ xs : List α, pick (xs.map p) xs = xs.filter p
  | [] => rfl
  | x :: xs => by
    rw [List.map_cons, List.filter_cons, ← pick_test p xs]
    cases p x <;> rfl

theorem length_pick : ∀ {keep : List Bool} {xs : List α}, keep.length = xs.length →
    (pick keep xs).length = keep.count true
  | [], [], _ => rfl
  | true :: keep, _ :: _, h => by
    rw [pick_cons_true, List.length_cons, length_pick (Nat.succ.inj h), List.count_cons_self]
  | false :: keep, _ :: _, h => by
    rw [pick_cons_false, length_pick (Nat.succ.inj h), List.count_cons_of_ne (by simp)]

/-- How many are kept does not depend on what they are. -/
theorem length_pick_congr : ∀ (keep : List Bool) {xs : List α} {ys : List β}, xs.length = ys.length →
    (pick keep xs).length = (pick keep ys).length
  | [], _, _, _ => rfl
  | _ :: _, [], [], _ => by simp
  | true :: keep, _ :: _, _ :: _, h => congrArg (· + 1) (length_pick_congr keep (Nat.succ.inj h))
  | false :: keep, _ :: xs, _ :: ys, h => by
    have hlen : xs.length = ys.length := Nat.succ.inj h
    exact length_pick_congr keep hlen

theorem sublist_pick : ∀ (keep : List Bool) (xs : List α), (pick keep xs).Sublist xs
  | [], xs => xs.nil_sublist
  | _ :: _, [] => by simp
  | true :: keep, x :: xs => (sublist_pick keep xs).cons_cons x
  | false :: keep, x :: xs => (sublist_pick keep xs).cons x

/-- Keeping in two pieces is keeping. -/
theorem pick_take_drop {keep : List Bool} {xs : List α} (h : keep.length = xs.length) (k : ℕ) :
    pick (keep.take k) (xs.take k) ++ pick (keep.drop k) (xs.drop k) = pick keep xs := by
  rw [← pick_append (by rw [List.length_take, List.length_take, h]), List.take_append_drop,
    List.take_append_drop]

/-- A constant, kept, is as many of it as are kept. -/
theorem pick_const {keep : List Bool} {n : ℕ} (h : keep.length = n) (a : α) :
    pick keep (List.replicate n a) = List.replicate (keep.count true) a := by
  have hcount : (pick keep (List.replicate n a)).length = keep.count true := length_pick (by simpa using h)
  rw [← hcount]
  exact List.eq_replicate_iff.mpr ⟨rfl, fun b hb => List.eq_of_mem_replicate ((sublist_pick keep _).subset hb)⟩

/-! ## The kept places -/

/-- The places a selection keeps. -/
def offsets (keep : List Bool) : List ℕ := pick keep (List.range keep.length)

@[simp] theorem length_offsets (keep : List Bool) : (offsets keep).length = keep.count true :=
  length_pick (by simp)

/-- The places a test keeps. -/
theorem offsets_test (p : ℕ → Bool) (n : ℕ) :
    offsets ((List.range n).map p) = (List.range n).filter p := by
  rw [offsets, List.length_map, List.length_range, pick_test]

/-- The places kept of two pieces. -/
theorem offsets_append (keep keep' : List Bool) :
    offsets (keep ++ keep') = offsets keep ++ (offsets keep').map (keep.length + ·) := by
  rw [offsets, List.length_append, List.range_add, pick_append (by simp), pick_map]
  rfl

/-- **The kept elements, by their places.** -/
theorem pick_offsets {keep : List Bool} {n : ℕ} (h : keep.length = n) (f : ℕ → α) :
    pick keep ((List.range n).map f) = (offsets keep).map f := by
  rw [pick_map, offsets, h]

theorem mem_offsets {keep : List Bool} {i : ℕ} : i ∈ offsets keep ↔ keep[i]? = some true := by
  have h : keep = (List.range keep.length).map fun i => keep.getD i false := by
    refine List.ext_getElem (by simp) fun i h₁ h₂ => ?_
    simp [List.getD_eq_getElem?_getD, h₁]
  have hoff : offsets keep = (List.range keep.length).filter fun i => keep.getD i false := by
    conv_lhs => rw [h]
    exact offsets_test _ _
  rw [hoff, List.mem_filter, List.mem_range, List.getD_eq_getElem?_getD]
  constructor
  · rintro ⟨hlt, hget⟩
    rw [List.getElem?_eq_getElem hlt] at hget ⊢
    exact congrArg some hget
  · intro hget
    obtain ⟨hlt, -⟩ := List.getElem?_eq_some_iff.mp hget
    exact ⟨hlt, by rw [hget]; rfl⟩

/-- A kept element is the one at its place. -/
theorem pick_eq_map {keep : List Bool} {xs : List α} (h : keep.length = xs.length) :
    (pick keep xs).map some = (offsets keep).map (xs[·]?) := by
  rw [offsets, ← pick_map, ← pick_map]
  congr 1
  refine List.ext_getElem (by simp [h]) fun i h₁ h₂ => ?_
  have hi : i < xs.length := by simpa using h₁
  simp [hi]

/-- **What stands at a place of the kept elements.** -/
theorem getElem?_pick {keep : List Bool} {xs : List α} (h : keep.length = xs.length) (i : ℕ) :
    (pick keep xs)[i]? = ((offsets keep)[i]?).bind (xs[·]?) := by
  have hmap := congrArg (·[i]?) (pick_eq_map h)
  simp only [List.getElem?_map] at hmap
  cases hp : (pick keep xs)[i]? with
  | some x =>
    rw [hp, Option.map_some] at hmap
    obtain ⟨j, hj, hx⟩ := Option.map_eq_some_iff.mp hmap.symm
    rw [hj, Option.bind_some, hx]
  | none =>
    rw [hp, Option.map_none] at hmap
    rw [Option.map_eq_none_iff.mp hmap.symm, Option.bind_none]

theorem lt_of_mem_offsets {keep : List Bool} {i j : ℕ} (h : (offsets keep)[i]? = some j) : j < keep.length :=
  (List.getElem?_eq_some_iff.mp (mem_offsets.mp (List.mem_of_getElem? h))).1

/-- **What is computed place by place commutes with a selection.** -/
theorem map_range_pick {n : ℕ} {keep : List Bool} (hlen : keep.length = n) {f g : ℕ → α}
    (h : ∀ i j, (offsets keep)[i]? = some j → g i = f j) :
    (List.range (keep.count true)).map g = pick keep ((List.range n).map f) := by
  refine List.ext_getElem? fun i => ?_
  rw [getElem?_pick (by simpa using hlen), List.getElem?_map]
  rcases Nat.lt_or_ge i (keep.count true) with hlt | hge
  · obtain ⟨j, hj⟩ : ∃ j, (offsets keep)[i]? = some j :=
      ⟨_, List.getElem?_eq_getElem (by simpa using hlt)⟩
    rw [hj, Option.bind_some, List.getElem?_map, List.getElem?_range hlt,
      List.getElem?_range (hlen ▸ lt_of_mem_offsets hj), Option.map_some, Option.map_some, h i j hj]
  · rw [List.getElem?_eq_none (by simpa using hge), List.getElem?_eq_none (by simpa using hge)]
    rfl

/-! ## One selection after another -/

/-- The selection that keeps what a second one keeps of the rows the first kept. -/
def andThen : List Bool → List Bool → List Bool
  | [], _ => []
  | false :: keep, again => false :: andThen keep again
  | true :: keep, [] => false :: andThen keep []
  | true :: keep, b :: again => b :: andThen keep again

@[simp] theorem length_andThen : ∀ keep again : List Bool, (andThen keep again).length = keep.length
  | [], _ => rfl
  | false :: keep, again => congrArg (· + 1) (length_andThen keep again)
  | true :: keep, [] => congrArg (· + 1) (length_andThen keep [])
  | true :: keep, _ :: again => congrArg (· + 1) (length_andThen keep again)

/-- **Keeping by the composite is keeping twice.** -/
theorem pick_andThen : ∀ (keep again : List Bool) (xs : List α),
    pick (andThen keep again) xs = pick again (pick keep xs)
  | [], _, _ => by simp [andThen]
  | _ :: _, _, [] => by simp
  | false :: keep, again, _ :: xs => pick_andThen keep again xs
  | true :: keep, [], _ :: xs => by
    rw [andThen, pick_cons_false, pick_andThen keep [] xs]
    rfl
  | true :: keep, true :: again, x :: xs => congrArg (x :: ·) (pick_andThen keep again xs)
  | true :: keep, false :: again, _ :: xs => pick_andThen keep again xs

/-- **A test of single rows, run on the rows kept so far, keeps those that pass both.** -/
theorem andThen_test (p : α → Bool) : ∀ {keep : List Bool} {xs : List α}, keep.length = xs.length →
    andThen keep ((pick keep xs).map p) = List.zipWith (fun k x => k && p x) keep xs
  | [], [], _ => rfl
  | true :: _, x :: _, h => congrArg (p x :: ·) (andThen_test p (Nat.succ.inj h))
  | false :: _, _ :: _, h => congrArg (false :: ·) (andThen_test p (Nat.succ.inj h))

/-- Nothing kept stays nothing. -/
theorem andThen_of_any_eq_false : ∀ {keep : List Bool} (again : List Bool), keep.any id = false →
    andThen keep again = keep
  | [], _, _ => rfl
  | false :: keep, again, h => by
    have hrest : keep.any id = false := h
    exact congrArg (false :: ·) (andThen_of_any_eq_false again hrest)

/-- **Tests of single rows, one after the other.** -/
theorem andThen_tests (xs : List α) (p q : α → Bool) :
    andThen (xs.map p) (pick (xs.map p) (xs.map q)) = xs.map fun x => p x && q x := by
  rw [pick_map, andThen_test q (List.length_map ..), List.zipWith_map_left, List.zipWith_self]

/-! ## In pieces -/

/-- A list cut into pieces of some lengths. -/
def cut : List ℕ → List α → List (List α)
  | [], _ => []
  | n :: ns, xs => xs.take n :: cut ns (xs.drop n)

theorem flatten_cut : ∀ {ns : List ℕ} {xs : List α}, ns.sum = xs.length → (cut ns xs).flatten = xs
  | [], xs, h => (List.length_eq_zero_iff.mp (by simpa using h.symm)).symm
  | n :: ns, xs, h => by
    rw [List.sum_cons] at h
    rw [cut, List.flatten_cons, flatten_cut (by rw [List.length_drop]; omega), List.take_append_drop]

/-- The selection of one piece of `n` rows: `size` rows from `start` on. -/
def piece (n start size : ℕ) : List Bool :=
  List.replicate start false ++ (List.replicate size true ++ List.replicate (n - start - size) false)

theorem length_piece {n start size : ℕ} (h : start + size ≤ n) : (piece n start size).length = n := by
  simp only [piece, List.length_append, List.length_replicate]
  omega

/-- **A piece is what is taken after what is dropped.** -/
theorem pick_piece {start size : ℕ} {xs : List α} (h : start + size ≤ xs.length) :
    pick (piece xs.length start size) xs = (xs.drop start).take size := by
  have hsize : ((xs.drop start).take size).length = size := by
    rw [List.length_take, List.length_drop]
    omega
  have htrue : pick (List.replicate size true) ((xs.drop start).take size) = (xs.drop start).take size := by
    have hall := pick_replicate_true ((xs.drop start).take size)
    rwa [hsize] at hall
  calc pick (piece xs.length start size) xs
      = pick (piece xs.length start size)
          (xs.take start ++ ((xs.drop start).take size ++ (xs.drop start).drop size)) := by
        rw [List.take_append_drop, List.take_append_drop]
    _ = (xs.drop start).take size := by
        rw [piece, pick_append (by rw [List.length_replicate, List.length_take]; omega),
          pick_append (by rw [List.length_replicate, hsize]), pick_replicate_false, htrue,
          pick_replicate_false, List.nil_append, List.append_nil]

/-- The places of a piece. -/
theorem offsets_piece {n start size : ℕ} (h : start + size ≤ n) :
    offsets (piece n start size) = List.range' start size := by
  have hpick : pick (piece (List.range n).length start size) (List.range n) =
      ((List.range n).drop start).take size := pick_piece (by simpa using h)
  rw [List.length_range] at hpick
  rw [offsets, length_piece h, hpick, List.range_eq_range', List.drop_range', List.take_range'_of_length_ge (by omega)]
  simp

end Selection
