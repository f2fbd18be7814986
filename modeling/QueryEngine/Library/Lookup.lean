import Mathlib

/-!
# Library/Lookup — finding a key among many, without losing one

A sorted list searched by bisection, a list entered by a hash and confirmed by comparison, and names
given to keys on first sight: three ways to answer *is it one of them*, each exact whatever the
order of the keys and however their hashes collide.
-/

namespace Lookup

variable {α κ : Type*}

/-! ## The ends of an ordered list -/

/-- An element of an ordered list is its first or comes after it. -/
theorem rel_head {R : α → α → Prop} {x a : α} {xs : List α} (h : (x :: xs).Pairwise R)
    (ha : a ∈ x :: xs) : a = x ∨ R x a := by
  rcases List.mem_cons.mp ha with rfl | ha
  · exact .inl rfl
  · exact .inr ((List.pairwise_cons.mp h).1 a ha)

/-- An element of an ordered list is its last or comes before it. -/
theorem rel_getLast {R : α → α → Prop} {a : α} {xs : List α} (h : xs.Pairwise R) (hne : xs ≠ [])
    (ha : a ∈ xs) : a = xs.getLast hne ∨ R a (xs.getLast hne) := by
  rw [← List.dropLast_append_getLast hne] at ha h
  rcases List.mem_append.mp ha with ha | ha
  · exact .inr ((List.pairwise_append.mp h).2.2 a ha _ (List.mem_singleton_self _))
  · exact .inl (List.mem_singleton.mp ha)

/-! ## Bisection -/

/-- The number of elements before the first that a test fails on: where a bisection of a partitioned
list ends. -/
def partitionPoint (test : α → Bool) (xs : List α) : ℕ := (xs.takeWhile test).length

/-- Bisection ends at the first element the test fails on. -/
theorem getElem?_partitionPoint (test : α → Bool) (xs : List α) :
    xs[partitionPoint test xs]? = xs.find? fun x => !test x := by
  induction xs with
  | nil => rfl
  | cons x xs ih =>
    rw [partitionPoint, List.takeWhile_cons, List.find?_cons]
    cases test x with
    | true => simpa [partitionPoint] using ih
    | false => simp

/-- The elements from where the bisection ends. -/
theorem drop_partitionPoint (test : α → Bool) (xs : List α) :
    xs.drop (partitionPoint test xs) = xs.dropWhile test := by
  induction xs with
  | nil => rfl
  | cons x xs ih =>
    rw [partitionPoint, List.takeWhile_cons, List.dropWhile_cons]
    cases test x with
    | true => simpa [partitionPoint] using ih
    | false => simp

/-! ## Sorted, each once -/

section Sorted

variable [LinearOrder α]

/-- The elements in order, each once: what sorting and then dropping repeats leaves. -/
def sortDedup (xs : List α) : List α := (xs.insertionSort (· ≤ ·)).destutter (· ≠ ·)

/-- Dropping repeats drops no element. -/
theorem mem_destutter_ne {a : α} : ∀ {xs : List α}, a ∈ xs.destutter (· ≠ ·) ↔ a ∈ xs
  | [] => by simp
  | x :: xs => by
    refine ⟨fun h => (List.destutter_sublist _ _).subset h, fun h => ?_⟩
    rw [List.destutter_cons']
    induction xs generalizing x with
    | nil => simpa using h
    | cons y ys ih =>
      rw [List.destutter'_cons]
      split
      · rcases List.mem_cons.mp h with rfl | h
        · exact List.mem_cons_self
        · exact List.mem_cons_of_mem _ (ih y h)
      · next heq =>
        obtain rfl : x = y := not_not.mp heq
        exact ih x (by simpa using h)

@[simp] theorem mem_sortDedup {a : α} {xs : List α} : a ∈ sortDedup xs ↔ a ∈ xs := by
  rw [sortDedup, mem_destutter_ne, List.mem_insertionSort]

/-- Sorting leaves the elements in strict order. -/
theorem pairwise_sortDedup (xs : List α) : (sortDedup xs).Pairwise (· < ·) := by
  have hle : (sortDedup xs).Pairwise (· ≤ ·) :=
    (List.pairwise_insertionSort (· ≤ ·) xs).sublist (List.destutter_sublist _ _)
  have hne : (sortDedup xs).IsChain (· ≠ ·) := List.isChain_destutter _ _
  rw [← List.isChain_iff_pairwise] at hle ⊢
  refine List.isChain_iff_getElem.mpr fun i hi => lt_of_le_of_ne ?_ ?_
  · exact List.isChain_iff_getElem.mp hle i hi
  · exact List.isChain_iff_getElem.mp hne i hi

theorem sortDedup_eq_nil {xs : List α} : sortDedup xs = [] ↔ xs = [] := by
  simp only [List.eq_nil_iff_forall_not_mem, mem_sortDedup]

/-- Whether a sorted list holds an element, by bisection. -/
def binarySearch (xs : List α) (a : α) : Bool :=
  xs[partitionPoint (fun x => decide (x < a)) xs]? == some a

/-- The first element of a sorted list that reaches a bound reaches another exactly when one of the
elements lies between the two. -/
theorem first_reaching {xs : List α} (h : xs.Pairwise (· ≤ ·)) (lo : α) (test : α → Prop)
    (htest : ∀ ⦃x y⦄, x ≤ y → test y → test x) :
    (∃ x, xs[partitionPoint (fun x => decide (x < lo)) xs]? = some x ∧ test x) ↔
      ∃ x ∈ xs, lo ≤ x ∧ test x := by
  rw [getElem?_partitionPoint]
  constructor
  · rintro ⟨x, hx, ht⟩
    have hlo := List.find?_some hx
    exact ⟨x, List.mem_of_find?_eq_some hx, by simpa using hlo, ht⟩
  · rintro ⟨y, hy, hlo, ht⟩
    cases hfind : xs.find? (fun x => !decide (x < lo)) with
    | none =>
      have hnot := List.find?_eq_none.mp hfind y hy
      simp only [Bool.not_eq_true', decide_eq_false_iff_not, not_not] at hnot
      exact absurd hnot (not_lt.mpr hlo)
    | some x =>
      refine ⟨x, rfl, htest ?_ ht⟩
      -- everything before `x` is below the bound, so `y` is `x` or comes after it
      obtain ⟨_, as, bs, rfl, has⟩ := List.find?_eq_some_iff_append.mp hfind
      rcases List.mem_append.mp hy with hya | hyb
      · have hya' := has y hya
        simp only [Bool.not_not, decide_eq_true_eq] at hya'
        exact absurd hya' (not_lt.mpr hlo)
      · rcases List.mem_cons.mp hyb with rfl | hyb
        · exact le_refl _
        · exact (List.pairwise_cons.mp (List.pairwise_append.mp h).2.1).1 y hyb

/-- **Bisection finds what a sorted list holds**, and nothing else. -/
theorem binarySearch_iff {xs : List α} (h : xs.Pairwise (· < ·)) (a : α) :
    binarySearch xs a = true ↔ a ∈ xs := by
  have hfirst := first_reaching (h.imp le_of_lt) a (· ≤ a) fun _ _ => le_trans
  rw [binarySearch, beq_iff_eq]
  constructor
  · exact fun e => List.mem_of_getElem? e
  · intro ha
    obtain ⟨x, hx, hxa⟩ := hfirst.mpr ⟨a, ha, le_refl a, le_refl a⟩
    obtain ⟨y, hy, hay, hya⟩ := hfirst.mp ⟨x, hx, hxa⟩
    have hlo := hx
    rw [getElem?_partitionPoint] at hlo
    have hax : a ≤ x := by simpa using List.find?_some hlo
    rw [hx, le_antisymm hxa hax]

/-- Lists compare by their first elements, and then by what follows. -/
theorem cons_le_cons_iff {x y : α} {xs ys : List α} :
    x :: xs ≤ y :: ys ↔ x < y ∨ x = y ∧ xs ≤ ys := by
  rw [← not_lt, List.cons_lt_cons_iff, ← not_lt (a := ys)]
  constructor
  · intro h
    rcases lt_trichotomy x y with hlt | heq | hgt
    · exact .inl hlt
    · exact .inr ⟨heq, fun hlt => h (.inr ⟨heq.symm, hlt⟩)⟩
    · exact absurd (.inl hgt) h
  · rintro (hlt | ⟨rfl, hle⟩) (hgt | ⟨heq, hlt'⟩)
    · exact lt_asymm hlt hgt
    · exact hlt.ne heq.symm
    · exact lt_irrefl _ hgt
    · exact hle hlt'

/-- A list comes no later than one it begins. -/
theorem le_of_isPrefix : ∀ {xs ys : List α}, xs <+: ys → xs ≤ ys
  | [], ys, _ => not_lt.mp (List.not_lt_nil ys)
  | x :: xs, [], h => absurd (List.prefix_nil.mp h) (by simp)
  | x :: xs, y :: ys, h => by
    obtain ⟨rfl, hrest⟩ := List.cons_prefix_cons.mp h
    exact cons_le_cons_iff.mpr (.inr ⟨rfl, le_of_isPrefix hrest⟩)

/-- **What a list begins is an interval**: all that comes between the list and one it begins. -/
theorem prefix_of_between : ∀ {xs ys zs : List α}, xs ≤ ys → ys ≤ zs → xs <+: zs → xs <+: ys
  | [], ys, _, _, _, _ => List.nil_prefix
  | x :: xs, [], zs, hxy, _, _ => absurd hxy (not_le.mpr (List.nil_lt_cons x xs))
  | x :: xs, y :: ys, [], _, _, h => absurd (List.prefix_nil.mp h) (by simp)
  | x :: xs, y :: ys, z :: zs, hxy, hyz, h => by
    obtain ⟨rfl, hrest⟩ := List.cons_prefix_cons.mp h
    rcases cons_le_cons_iff.mp hxy with hlt | ⟨rfl, hxs⟩
    · rcases cons_le_cons_iff.mp hyz with hlt' | ⟨rfl, -⟩
      · exact absurd hlt (lt_asymm hlt')
      · exact absurd hlt (lt_irrefl _)
    · rcases cons_le_cons_iff.mp hyz with hlt' | ⟨-, hys⟩
      · exact absurd hlt' (lt_irrefl _)
      · exact List.cons_prefix_cons.mpr ⟨rfl, prefix_of_between hxs hys hrest⟩

/-- Whether a sorted list of lists holds one that a list begins, itself only when inclusive: those
that extend it stand right where it would. -/
def anyExtension (xss : List (List α)) (xs : List α) (inclusive : Bool) : Bool :=
  match xss.drop (partitionPoint (fun ys => decide (ys < xs)) xss) with
  | [] => false
  | ys :: rest =>
    if ys = xs then inclusive || rest.head?.any fun zs => xs.isPrefixOf zs else xs.isPrefixOf ys

/-- What comes no earlier than a list stands from the list's own place on. -/
theorem mem_drop_partitionPoint {xss : List (List α)} {xs ys : List α} (hle : xs ≤ ys) :
    ys ∈ xss.drop (partitionPoint (fun ys => decide (ys < xs)) xss) ↔ ys ∈ xss := by
  rw [drop_partitionPoint]
  refine ⟨fun hys => (List.dropWhile_suffix _).subset hys, fun hys => ?_⟩
  rw [← @List.takeWhile_append_dropWhile _ (fun ys => decide (ys < xs)) xss] at hys
  rcases List.mem_append.mp hys with hys | hys
  · exact absurd (by simpa using List.mem_takeWhile_imp hys) (not_lt.mpr hle)
  · exact hys

/-- Of lists in order that come no earlier than another, the first extends it when any does. -/
theorem any_isPrefixOf_head_iff {xss : List (List α)} {xs : List α} (hsorted : xss.Pairwise (· < ·))
    (hle : ∀ ys ∈ xss, xs ≤ ys) : (xss.head?.any fun ys => xs.isPrefixOf ys) = true ↔ ∃ ys ∈ xss, xs <+: ys := by
  cases xss with
  | nil => simp
  | cons ys rest =>
    rw [List.head?_cons, Option.any_some, List.isPrefixOf_iff_prefix]
    constructor
    · exact fun hbegins => ⟨ys, List.mem_cons_self, hbegins⟩
    · rintro ⟨zs, hzs, hbegins⟩
      have hyz : ys ≤ zs := by
        rcases rel_head hsorted hzs with rfl | hlt
        · exact le_refl _
        · exact le_of_lt hlt
      exact prefix_of_between (hle ys List.mem_cons_self) hyz hbegins

/-- **The extensions of a list are found where it would stand.** -/
theorem anyExtension_iff {xss : List (List α)} (h : xss.Pairwise (· < ·)) (xs : List α)
    (inclusive : Bool) : anyExtension xss xs inclusive = true ↔
      ∃ ys ∈ xss, xs <+: ys ∧ (inclusive = true ∨ ys ≠ xs) := by
  have hext : (∃ ys ∈ xss, xs <+: ys ∧ (inclusive = true ∨ ys ≠ xs)) ↔
      ∃ ys ∈ xss.drop (partitionPoint (fun ys => decide (ys < xs)) xss),
        xs <+: ys ∧ (inclusive = true ∨ ys ≠ xs) :=
    exists_congr fun ys => and_congr_left fun hp => (mem_drop_partitionPoint (le_of_isPrefix hp.1)).symm
  have hsorted := h.sublist (List.drop_sublist (partitionPoint (fun ys => decide (ys < xs)) xss) xss)
  have hfirst : ∀ ys ∈ (xss.drop (partitionPoint (fun ys => decide (ys < xs)) xss)).head?, xs ≤ ys := by
    intro ys hys
    rw [List.head?_drop, getElem?_partitionPoint] at hys
    simpa using List.find?_some hys
  rw [hext]
  unfold anyExtension
  revert hsorted hfirst
  generalize xss.drop (partitionPoint (fun ys => decide (ys < xs)) xss) = extensions
  intro hsorted hfirst
  rcases extensions with _ | ⟨ys, rest⟩
  · simp
  obtain ⟨hafter, hrest⟩ := List.pairwise_cons.mp hsorted
  have hle : xs ≤ ys := hfirst ys rfl
  by_cases heq : ys = xs
  · subst heq
    dsimp only
    rw [if_pos rfl, Bool.or_eq_true, any_isPrefixOf_head_iff hrest fun zs hzs => le_of_lt (hafter zs hzs)]
    constructor
    · rintro (hinc | ⟨zs, hzs, hbegins⟩)
      · exact ⟨ys, List.mem_cons_self, List.prefix_refl _, .inl hinc⟩
      · exact ⟨zs, List.mem_cons_of_mem _ hzs, hbegins, .inr (hafter zs hzs).ne'⟩
    · rintro ⟨zs, hzs, hbegins, hinc | hne⟩
      · exact .inl hinc
      · rcases List.mem_cons.mp hzs with rfl | hzs
        · exact absurd rfl hne
        · exact .inr ⟨zs, hzs, hbegins⟩
  · have hall : ∀ zs ∈ ys :: rest, xs ≤ zs :=
      List.forall_mem_cons.mpr ⟨hle, fun zs hzs => hle.trans (le_of_lt (hafter zs hzs))⟩
    dsimp only
    rw [if_neg heq]
    refine (any_isPrefixOf_head_iff hsorted hall).trans ?_
    constructor
    · rintro ⟨zs, hzs, hbegins⟩
      refine ⟨zs, hzs, hbegins, .inr ?_⟩
      rintro rfl
      rcases rel_head hsorted hzs with rfl | hlt
      · exact heq rfl
      · exact absurd hle (not_le.mpr hlt)
    · rintro ⟨zs, hzs, hbegins, -⟩
      exact ⟨zs, hzs, hbegins⟩

end Sorted

/-! ## By hash -/

section Hashed

variable [LinearOrder κ]

/-- Entries found by a hash of what they hold, and confirmed by comparing it. -/
structure HashIndex (κ α : Type*) [LinearOrder κ] where
  entries : List (κ × α)
  sorted : entries.Pairwise fun x y => x.1 ≤ y.1

namespace HashIndex

/-- The order of entries by hash. -/
def byHash (x y : κ × α) : Prop := x.1 ≤ y.1

instance : DecidableRel (byHash (κ := κ) (α := α)) := fun x y =>
  inferInstanceAs (Decidable (x.1 ≤ y.1))

instance : Std.Total (byHash (κ := κ) (α := α)) := ⟨fun x y => le_total x.1 y.1⟩

instance : IsTrans (κ × α) byHash := ⟨fun _ _ _ => le_trans⟩

/-- The entries, put in the order of their hashes. -/
def build (entries : List (κ × α)) : HashIndex κ α where
  entries := entries.insertionSort byHash
  sorted := List.pairwise_insertionSort byHash entries

@[simp] theorem mem_build {entries : List (κ × α)} {entry : κ × α} :
    entry ∈ (build entries).entries ↔ entry ∈ entries :=
  List.mem_insertionSort _

/-- Whether an entry with this hash holds exactly this: the run of entries with the hash, from the
first one. -/
def contains [DecidableEq α] (index : HashIndex κ α) (hash : κ) (a : α) : Bool :=
  match index.entries.findIdx? fun entry => decide (entry.1 = hash) with
  | none => false
  | some first =>
    ((index.entries.drop first).takeWhile fun entry => decide (entry.1 = hash)).any
      fun entry => decide (entry.2 = a)

/-- The run of a sorted list's entries with a hash holds every one of them. -/
theorem mem_run {entries : List (κ × α)} (h : entries.Pairwise fun x y => x.1 ≤ y.1) {hash : κ}
    (hhead : ∀ x ∈ entries.head?, x.1 = hash) {entry : κ × α} (hmem : entry ∈ entries)
    (hhash : entry.1 = hash) :
    entry ∈ entries.takeWhile fun entry => decide (entry.1 = hash) := by
  induction entries with
  | nil => simp at hmem
  | cons x xs ih =>
    have hx : x.1 = hash := hhead x rfl
    rw [List.takeWhile_cons, if_pos (by simpa using hx)]
    rcases List.mem_cons.mp hmem with rfl | hmem
    · exact List.mem_cons_self
    · refine List.mem_cons_of_mem _ (ih (List.pairwise_cons.mp h).2 ?_ hmem)
      -- an entry between two of one hash has it too
      intro y hy
      obtain ⟨ys, rfl⟩ : ∃ ys, xs = y :: ys := by
        cases xs with
        | nil => simp at hy
        | cons z zs =>
          obtain rfl : z = y := by simpa using hy
          exact ⟨zs, rfl⟩
      have hlow : x.1 ≤ y.1 := (List.pairwise_cons.mp h).1 y List.mem_cons_self
      have hhigh : y.1 ≤ entry.1 := by
        rcases List.mem_cons.mp hmem with rfl | hmem
        · exact le_refl _
        · exact (List.pairwise_cons.mp (List.pairwise_cons.mp h).2).1 entry hmem
      exact le_antisymm (hhash ▸ hhigh) (hx ▸ hlow)

/-- **An index holds what was put in under the hash**, whatever else shares the hash. -/
theorem contains_iff [DecidableEq α] (index : HashIndex κ α) (hash : κ) (a : α) :
    index.contains hash a = true ↔ (hash, a) ∈ index.entries := by
  unfold contains
  cases hfirst : index.entries.findIdx? fun entry => decide (entry.1 = hash) with
  | none =>
    have hnone := List.findIdx?_eq_none_iff.mp hfirst
    constructor
    · intro h
      exact absurd h (by simp)
    · intro h
      exact absurd (hnone _ h) (by simp)
  | some first =>
    obtain ⟨hlt, hhash, hbefore⟩ := List.findIdx?_eq_some_iff_getElem.mp hfirst
    simp only [List.any_eq_true, decide_eq_true_eq]
    constructor
    · rintro ⟨entry, hentry, rfl⟩
      have hh : entry.1 = hash := by simpa using List.mem_takeWhile_imp hentry
      have hm := List.mem_of_mem_drop ((List.takeWhile_prefix _).subset hentry)
      rwa [← hh]
    · intro hmem
      refine ⟨(hash, a), ?_, rfl⟩
      have hsorted := index.sorted.sublist (List.drop_sublist first _)
      refine mem_run hsorted ?_ ?_ rfl
      · intro x hx
        rw [List.head?_drop, List.getElem?_eq_getElem hlt] at hx
        obtain rfl : index.entries[first] = x := by simpa using hx
        simpa using hhash
      · obtain ⟨i, hi, hget⟩ := List.mem_iff_getElem.mp hmem
        have hle : first ≤ i := by
          by_contra hcon
          have hno := hbefore i (by omega)
          rw [hget] at hno
          exact hno (by simp)
        rw [List.mem_iff_getElem]
        exact ⟨i - first, by rw [List.length_drop]; omega, by
          rw [List.getElem_drop, ← hget]
          congr 1
          omega⟩

end HashIndex

end Hashed

/-! ## Hashes of prefixes -/

section Prefixes

variable {ε : Type*} (step : κ → ε → κ) (start : κ)

/-- The hash of each prefix of a path, the empty one first. -/
def PrefixHashes (path : List ε) (hashes : List κ) : Prop :=
  hashes.length = path.length + 1 ∧
    ∀ d ≤ path.length, hashes[d]? = some ((path.take d).foldl step start)

variable {step start}

theorem prefixHashes_nil : PrefixHashes step start [] [start] := by
  refine ⟨rfl, fun d hd => ?_⟩
  obtain rfl : d = 0 := Nat.le_zero.mp hd
  rfl

/-- The hashes of a path's own prefix are the first of its hashes. -/
theorem PrefixHashes.take {path : List ε} {hashes : List κ} (h : PrefixHashes step start path hashes)
    {n : ℕ} (hn : n ≤ path.length) :
    PrefixHashes step start (path.take n) (hashes.take (n + 1)) := by
  refine ⟨by rw [List.length_take, List.length_take, h.1]; omega, fun d hd => ?_⟩
  rw [List.length_take] at hd
  rw [List.getElem?_take_of_lt (by omega), h.2 d (by omega), List.take_take, min_eq_left (by omega)]

/-- One more element, and one more hash. -/
theorem PrefixHashes.concat {path : List ε} {hashes : List κ}
    (h : PrefixHashes step start path hashes) (fallback : κ) (e : ε) :
    PrefixHashes step start (path ++ [e]) (hashes ++ [step (hashes.getLastD fallback) e]) := by
  have hlast : hashes.getLastD fallback = path.foldl step start := by
    rw [List.getLastD_eq_getLast?, List.getLast?_eq_getElem?, h.1, Nat.add_sub_cancel,
      h.2 _ (le_refl _), List.take_length, Option.getD_some]
  refine ⟨by simp [h.1], fun d hd => ?_⟩
  rw [List.length_append, List.length_singleton] at hd
  rcases Nat.lt_or_ge d (path.length + 1) with hlt | hge
  · rw [List.getElem?_append_left (by rw [h.1]; omega), h.2 d (by omega),
      List.take_append_of_le_length (by omega)]
  · obtain rfl : d = path.length + 1 := by omega
    rw [List.getElem?_append_right (by rw [h.1]), h.1, Nat.sub_self, List.getElem?_cons_zero, hlast,
      List.take_of_length_le (by simp), List.foldl_append]
    rfl

/-- More elements, and their hashes. -/
theorem PrefixHashes.append (fallback : κ) : ∀ {path : List ε} {hashes : List κ},
    PrefixHashes step start path hashes → ∀ more : List ε, PrefixHashes step start (path ++ more)
      (more.foldl (fun hs e => hs ++ [step (hs.getLastD fallback) e]) hashes)
  | path, hashes, h, [] => by simpa using h
  | path, hashes, h, e :: more => by
    have hrest := PrefixHashes.append fallback (h.concat fallback e) more
    rwa [List.append_assoc, List.singleton_append] at hrest

/-- The elements two paths share from the start, counted. -/
def sharedLength [DecidableEq ε] (xs ys : List ε) : ℕ :=
  ((xs.zip ys).takeWhile fun p => decide (p.1 = p.2)).length

theorem sharedLength_le [DecidableEq ε] : ∀ xs ys : List ε,
    sharedLength xs ys ≤ xs.length ∧ sharedLength xs ys ≤ ys.length
  | [], ys => by simp [sharedLength]
  | x :: xs, [] => by simp [sharedLength]
  | x :: xs, y :: ys => by
    have ih := sharedLength_le xs ys
    unfold sharedLength at ih ⊢
    rw [List.zip_cons_cons, List.takeWhile_cons]
    split <;> simp [ih]

/-- **Paths agree as far as they share.** -/
theorem take_sharedLength [DecidableEq ε] : ∀ xs ys : List ε,
    xs.take (sharedLength xs ys) = ys.take (sharedLength xs ys)
  | [], ys => by simp [sharedLength]
  | x :: xs, [] => by simp [sharedLength]
  | x :: xs, y :: ys => by
    have ih := take_sharedLength xs ys
    unfold sharedLength at ih ⊢
    rw [List.zip_cons_cons, List.takeWhile_cons]
    by_cases h : x = y
    · simp [h, ih]
    · simp [h]

end Prefixes

/-! ## Names on first sight -/

section Names

variable [DecidableEq κ]

/-- The name of a key among those seen: its place in the order of first sight. -/
def name (seen : List κ) (key : κ) : Option ℕ :=
  seen.findIdx? fun k => decide (k = key)

/-- The keys seen once a key is, and its name. -/
def intern (seen : List κ) (key : κ) : List κ × ℕ :=
  match name seen key with
  | some id => (seen, id)
  | none => (seen ++ [key], seen.length)

theorem name_eq_some_iff {seen : List κ} (h : seen.Nodup) {key : κ} {id : ℕ} :
    name seen key = some id ↔ seen[id]? = some key := by
  rw [name, List.findIdx?_eq_some_iff_getElem]
  constructor
  · rintro ⟨hlt, hkey, _⟩
    rw [List.getElem?_eq_getElem hlt]
    simpa using hkey
  · intro hget
    obtain ⟨hlt, hkey⟩ := List.getElem?_eq_some_iff.mp hget
    refine ⟨hlt, by simpa using hkey, fun j hj => ?_⟩
    have hne : seen[j] ≠ seen[id] := fun e =>
      absurd ((h.getElem_inj_iff).mp e) (by omega)
    simpa [hkey] using hne

theorem name_eq_none_iff {seen : List κ} {key : κ} : name seen key = none ↔ key ∉ seen := by
  rw [name, List.findIdx?_eq_none_iff]
  constructor
  · intro h hmem
    simpa using h key hmem
  · intro h k hk
    simpa using fun e : k = key => h (e ▸ hk)

/-- **A key seen is named**, keys seen before keep their names, and no two keys share one. -/
theorem intern_spec {seen : List κ} (h : seen.Nodup) (key : κ) :
    (intern seen key).1.Nodup ∧ seen <+: (intern seen key).1 ∧
      name (intern seen key).1 key = some (intern seen key).2 := by
  unfold intern
  cases hname : name seen key with
  | some id => exact ⟨h, List.prefix_refl _, hname⟩
  | none =>
    have hnot := name_eq_none_iff.mp hname
    have hnodup : (seen ++ [key]).Nodup :=
      List.nodup_append.mpr ⟨h, List.nodup_singleton _, fun a ha b hb => by
        rintro rfl
        exact hnot (by simpa [List.mem_singleton.mp hb] using ha)⟩
    exact ⟨hnodup, List.prefix_append _ _, (name_eq_some_iff hnodup).mpr (by simp)⟩

end Names

end Lookup
