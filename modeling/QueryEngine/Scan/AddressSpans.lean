import QueryEngine.Library.CountingSort
import QueryEngine.Scan.Addresses

/-!
# Scan/AddressSpans — the index as it is built, over spans of one buffer

The index keeps the elements of every source path in one buffer, and a path as a start and a length of
32 bits into it.  One counting pass orders the paths by group, each group's few are sorted, and those kept
are ranges of one list.  Where there are fewer than `2 ^ 32` source rows and elements no count wraps and no
slice misses: the build is the index of the rows (`buildRows_eq`).  Past that a path that lies across the
end of 32 bits is none of the buffer's, and the slice that reads it panics (`buildRows_wrapped`).
-/

open Lookup CountingSort Fallible

namespace QueryEngine

/-- The elements of a list between two places, or nothing where the slice panics. -/
def sliced {α : Type} (xs : List α) (start stop : ℕ) : Option (List α) :=
  if start ≤ stop ∧ stop ≤ xs.length then some ((xs.drop start).take (stop - start)) else none

theorem sliced_append {α : Type} {xs own ys : List α} :
    sliced (xs ++ own ++ ys) xs.length (xs.length + own.length) = some own := by
  have hroom : xs.length ≤ xs.length + own.length ∧ xs.length + own.length ≤ (xs ++ own ++ ys).length := by
    simp only [List.length_append]
    omega
  rw [sliced, if_pos hroom, List.append_assoc, List.drop_left, Nat.add_sub_cancel_left, List.take_left' rfl]

/-- What a slice holds, it holds when more follows. -/
theorem sliced_mono {α : Type} {xs own : List α} {start stop : ℕ} (h : sliced xs start stop = some own)
    (ys : List α) : sliced (xs ++ ys) start stop = some own := by
  unfold sliced at h ⊢
  split at h
  · next hroom =>
    have hlonger : start ≤ stop ∧ stop ≤ (xs ++ ys).length := by
      rw [List.length_append]
      omega
    rw [if_pos hlonger, List.drop_append_of_le_length (by omega), List.take_append_of_le_length (by
      rw [List.length_drop]
      omega), h]
  · exact absurd h (by simp)

namespace SourceAddresses

/-! ## The build -/

/-- The source rows so far: the groups' keys, a group, start and length for each row, and the elements of
every path. -/
structure Entries (κ : Type) where
  groups : List κ
  entries : List (ℕ × ℕ × ℕ)
  elements : Bytes

/-- One source row more. -/
def Entries.push {κ : Type} [DecidableEq κ] (state : Entries κ) (row : κ × Bytes) : Entries κ :=
  let named := intern state.groups row.1
  let start := u32 (state.elements.length / 8)
  let elements := state.elements ++ row.2
  -- the length is a difference of two such counts, and wraps as they do
  ⟨named.1, state.entries ++ [(u32 named.2, start, u32 (u32 (elements.length / 8) + 2 ^ 32 - start))], elements⟩

/-- The path of a start and a length, or nothing where the slice panics. -/
def path (elements : Bytes) (span : ℕ × ℕ) : Option Bytes :=
  sliced elements (span.1 * 8) (u32 (span.1 + span.2) * 8)

section Order

variable {α : Type} [LinearOrder α]

/-- The elements in order. -/
def sorted (xs : List α) : List α := xs.insertionSort (· ≤ ·)

/-- The elements, each once where equals are side by side. -/
def onceEach (xs : List α) : List α := xs.destutter (· ≠ ·)

theorem onceEach_sorted (xs : List α) : onceEach (sorted xs) = sortDedup xs := rfl

theorem length_onceEach_le (xs : List α) : (onceEach xs).length ≤ xs.length :=
  (List.destutter_sublist _ xs).length_le

end Order

variable {α : Type} [LinearOrder α]

/-- A group's run of the ordered paths, sorted. -/
def groupRun (elements : Bytes) (starts : List ℕ) (ordered : List (ℕ × ℕ)) (group : ℕ) : Option (List Bytes) := do
  let start ← starts[group]?
  let stop ← starts[group + 1]?
  let own ← sliced ordered start stop
  (own.mapM (path elements)).map sorted

/-- A path kept behind the others, unless it is its group's last again. -/
def keepOnce (first : ℕ) (paths : List α) (path : α) : List α :=
  if first < u32 paths.length ∧ paths.getLast? = some path then paths else paths ++ [path]

/-- A group's paths kept behind those of the groups before, and the range they are in. -/
def pushGroup (state : List α × List (ℕ × ℕ)) (own : List α) : List α × List (ℕ × ℕ) :=
  let first := u32 state.1.length
  let paths := own.foldl (keepOnce first) state.1
  (paths, state.2 ++ [(first, u32 paths.length)])

/-- The index of the rows entered, or nothing where a slice of it panics. -/
def Entries.index {kind : GroupKind} (state : Entries kind.Key) : Option SourceAddresses := do
  let groups := state.groups.length
  let counted ← state.entries.foldlM (count u32 fun entry => some entry.1) (List.replicate (groups + 1) 0)
  let starts ← (List.range' 1 groups).foldlM (accumulate u32) counted
  let placed ← state.entries.foldlM (place u32 (fun entry => some entry.1) Prod.snd)
    (starts, List.replicate state.entries.length (0, 0))
  let runs ← (List.range groups).mapM (groupRun state.elements starts placed.2)
  let kept := runs.foldl pushGroup ([], [])
  -- a range is sliced where its group is looked up
  let paths ← kept.2.mapM fun range => sliced kept.1 range.1 range.2
  let deep := decide (hashedDepth * kept.1.length < (kept.1.map fun path => path.length / 8).sum)
  some ⟨kind, state.groups, paths, if deep then some (exactIndex paths) else none⟩

/-- The index of some grouped paths. -/
def buildRows (kind : GroupKind) (rows : List (kind.Key × Bytes)) : Option SourceAddresses :=
  (rows.foldl Entries.push (⟨[], [], []⟩ : Entries kind.Key)).index

/-- The addresses of some source rows, nothing where a count or a span would be out of bounds. -/
def build (batches : List RecordBatch) (groupKeyColumns : List String) (addressColumn : String) :
    Option SourceAddresses :=
  let kind := groupKind batches groupKeyColumns
  buildRows kind (sourceRows kind batches groupKeyColumns addressColumn)

/-! ## The rows entered -/

/-- Whether the counts of some grouped paths fit 32 bits: those of the rows, and of their elements. -/
structure FitsCounts {κ : Type} (rows : List (κ × Bytes)) : Prop where
  rows_lt : rows.length < 2 ^ 32
  elements_lt : (rows.map fun row => row.2.length / 8).sum < 2 ^ 32

/-- A span of the buffer reads the path put there. -/
theorem path_append {xs own ys : Bytes} {start len : ℕ} (hstart : xs.length = start * 8)
    (hlen : own.length = len * 8) (hfits : start + len < 2 ^ 32) : path (xs ++ own ++ ys) (start, len) = some own := by
  have hstop : (start + len) * 8 = xs.length + own.length := by omega
  rw [path, u32_of_lt hfits, ← hstart, hstop, sliced_append]

/-- Rows entered as spans: under the ids they are entered under, and read back as their paths. -/
structure Spanned {κ : Type} [DecidableEq κ] (rows : List (κ × Bytes)) (state : Entries κ) : Prop where
  groups : state.groups = (rows.foldl enter ([], [])).1
  elements : state.elements.length = (rows.map fun row => row.2.length / 8).sum * 8
  paths : List.Forall₂ (fun entry own => entry.1 = own.1 ∧ path state.elements entry.2 = some own.2)
    state.entries (rows.foldl enter ([], [])).2

section Entered

variable {κ : Type} [DecidableEq κ]

/-- **A row entered as a span reads back as its path**, and those before it as theirs. -/
theorem Spanned.push {rows : List (κ × Bytes)} {state : Entries κ} (h : Spanned rows state) {row : κ × Bytes}
    (hwhole : 8 ∣ row.2.length) (hfits : FitsCounts (rows ++ [row])) : Spanned (rows ++ [row]) (state.push row) := by
  obtain ⟨len, hlen⟩ := hwhole
  have helements := hfits.elements_lt
  have hrows := hfits.rows_lt
  rw [List.map_append, List.sum_append, List.map_singleton, List.sum_singleton] at helements
  rw [List.length_append, List.length_singleton] at hrows
  set start := (rows.map fun row => row.2.length / 8).sum with hstart
  have hid : (intern state.groups row.1).2 < 2 ^ 32 := by
    have hle := length_enter_le rows
    have hlt : (intern state.groups row.1).2 < (intern state.groups row.1).1.length := by
      obtain ⟨-, -, hname⟩ := intern_spec (h.groups ▸ (entered rows).nodup) row.1
      obtain ⟨hlt, -⟩ := List.findIdx?_eq_some_iff_getElem.mp hname
      exact hlt
    have hone : (intern state.groups row.1).1.length ≤ state.groups.length + 1 := by
      unfold intern
      split
      · exact Nat.le_succ _
      · simp
    rw [h.groups] at hone
    rw [h.groups] at hlt ⊢
    omega
  have hspan : (u32 (state.elements.length / 8),
      u32 (u32 ((state.elements ++ row.2).length / 8) + 2 ^ 32 - u32 (state.elements.length / 8))) = (start, len) := by
    rw [List.length_append, h.elements, hlen, u32_of_lt (by omega), @u32_of_lt ((start * 8 + 8 * len) / 8) (by omega)]
    refine Prod.ext (by dsimp only; omega) ?_
    rw [u32]
    omega
  have hown : path (state.elements ++ row.2) (start, len) = some row.2 := by
    have hread := @path_append _ _ [] _ _ h.elements (show row.2.length = len * 8 by omega)
      (by omega : start + len < 2 ^ 32)
    rwa [List.append_nil] at hread
  rw [Entries.push]
  rw [hspan, u32_of_lt hid]
  have henter : (rows ++ [row]).foldl enter ([], []) = enter (rows.foldl enter ([], [])) row := by
    rw [List.foldl_append, List.foldl_cons, List.foldl_nil]
  refine ⟨?_, ?_, ?_⟩
  · rw [henter]
    change (intern state.groups row.1).1 = (intern _ row.1).1
    rw [h.groups]
  · dsimp only
    rw [List.length_append, h.elements, List.map_append, List.sum_append, List.map_singleton, List.sum_singleton]
    omega
  · rw [henter]
    change List.Forall₂ _ _ (_ ++ [((intern _ row.1).2, row.2)])
    refine List.rel_append (h.paths.imp fun entry own hread => ⟨hread.1, sliced_mono hread.2 row.2⟩)
      (.cons ⟨?_, hown⟩ .nil)
    rw [h.groups]

theorem spanned {rows : List (κ × Bytes)} (hwhole : ∀ row ∈ rows, 8 ∣ row.2.length) (hfits : FitsCounts rows) :
    Spanned rows (rows.foldl Entries.push ⟨[], [], []⟩) := by
  induction rows using List.reverseRecOn with
  | nil => exact ⟨rfl, rfl, .nil⟩
  | append_singleton rows row ih =>
    have hfewer : FitsCounts rows := by
      refine ⟨?_, ?_⟩
      · have h := hfits.rows_lt
        rw [List.length_append] at h
        omega
      · have h := hfits.elements_lt
        rw [List.map_append, List.sum_append] at h
        omega
    rw [List.foldl_append]
    exact (ih (fun r hr => hwhole r (List.mem_append_left _ hr)) hfewer).push (hwhole row (by simp)) hfits

end Entered

/-! ## The runs of the groups -/

section Runs

variable {elements : Bytes} {entries : List (ℕ × ℕ × ℕ)} {own : List (ℕ × Bytes)}

/-- A bucket's spans read back as its paths. -/
theorem mapM_path_ofBucket
    (h : List.Forall₂ (fun entry own => entry.1 = own.1 ∧ path elements entry.2 = some own.2) entries own)
    (group : ℕ) : ((ofBucket (fun entry => some entry.1) entries group).map Prod.snd).mapM (path elements) =
      some ((own.filter fun entry => entry.1 == group).map Prod.snd) := by
  rw [mapM_eq_some]
  induction h with
  | nil => exact .nil
  | @cons entry own entries rest hread _ ih =>
    rw [ofBucket, List.filter_cons, List.filter_cons]
    by_cases hgroup : entry.1 = group
    · rw [if_pos (by simpa using hgroup), if_pos (by rw [← hread.1]; simpa using hgroup)]
      exact .cons hread.2 ih
    · rw [if_neg (by simpa using hgroup), if_neg (by rw [← hread.1]; simpa using hgroup)]
      exact ih

/-- **A group's run is its paths, sorted.** -/
theorem groupRun_eq
    (h : List.Forall₂ (fun entry own => entry.1 = own.1 ∧ path elements entry.2 = some own.2) entries own)
    {n group : ℕ} (hgroup : group < n) :
    groupRun elements ((List.range (n + 1)).map (startOf (fun entry => some entry.1) entries))
      ((List.range n).flatMap fun b => (ofBucket (fun entry => some entry.1) entries b).map Prod.snd) group =
        some (sorted ((own.filter fun entry => entry.1 == group).map Prod.snd)) := by
  have hstart (i : ℕ) (hi : i < n + 1) : ((List.range (n + 1)).map (startOf (fun entry => some entry.1) entries))[i]? =
      some (startOf (fun entry => some entry.1) entries i) := by
    rw [List.getElem?_map, List.getElem?_range hi, Option.map_some]
  have hbucket : sliced ((List.range n).flatMap fun b => (ofBucket (fun entry => some entry.1) entries b).map Prod.snd)
      (startOf (fun entry => some entry.1) entries group) (startOf (fun entry => some entry.1) entries (group + 1)) =
        some ((ofBucket (fun entry => some entry.1) entries group).map Prod.snd) := by
    rw [sliced, if_pos, run_group hgroup]
    rw [length_runs]
    exact ⟨startOf_mono _ _ (Nat.le_succ _), startOf_mono _ _ hgroup⟩
  unfold groupRun
  rw [hstart group (by omega), hstart (group + 1) (by omega)]
  simp only [Option.bind_eq_bind, Option.bind_some, hbucket, mapM_path_ofBucket h, Option.map_some]

end Runs

/-! ## The paths kept -/

/-- **A group's paths are each kept once.** -/
theorem foldl_keepOnce {first : ℕ} : ∀ (own : List α) {paths : List α} {last : α}, first = u32 first →
    first ≤ paths.length → paths.length + 1 + own.length < 2 ^ 32 →
    own.foldl (keepOnce first) (paths ++ [last]) = paths ++ own.destutter' (· ≠ ·) last
  | [], _, _, _, _, _ => rfl
  | path :: own, paths, last, hfirst, hle, hfits => by
    rw [List.length_cons] at hfits
    have hlength : u32 (paths ++ [last]).length = paths.length + 1 := by
      rw [List.length_append, List.length_singleton]
      exact u32_of_lt (by omega)
    rw [List.foldl_cons, keepOnce, hlength, List.getLast?_concat, List.destutter'_cons]
    by_cases hsame : last = path
    · rw [if_pos ⟨by omega, congrArg some hsame⟩, if_neg (not_not.mpr hsame)]
      exact foldl_keepOnce own hfirst hle (by omega)
    · rw [if_neg fun h => hsame (Option.some.inj h.2), if_pos hsame,
        foldl_keepOnce own hfirst (by rw [List.length_append]; omega) (by
          rw [List.length_append, List.length_singleton]
          omega), List.append_assoc, List.singleton_append]

theorem foldl_keepOnce_own {paths : List α} (own : List α) (hfits : paths.length + own.length < 2 ^ 32) :
    own.foldl (keepOnce (u32 paths.length)) paths = paths ++ onceEach own := by
  have hfirst : u32 paths.length = paths.length := u32_of_lt (by omega)
  cases own with
  | nil => exact (List.append_nil _).symm
  | cons path own =>
    rw [List.length_cons] at hfits
    have hnone : ¬(u32 paths.length < u32 paths.length ∧ paths.getLast? = some path) := fun h => absurd h.1
        (lt_irrefl _)
    rw [List.foldl_cons, keepOnce, if_neg hnone, hfirst, onceEach, List.destutter_cons']
    exact foldl_keepOnce own hfirst.symm (le_refl _) (by omega)

/-- **What is kept is every group's paths in order, each once, and each range is its group's.** -/
theorem foldl_pushGroup {runs : List (List α)} (hfits : (runs.map List.length).sum < 2 ^ 32) :
    (runs.foldl pushGroup ([], [])).1 = (runs.map onceEach).flatten ∧
    (runs.foldl pushGroup ([], [])).2.mapM (fun range => sliced (runs.foldl pushGroup ([], [])).1 range.1 range.2) =
      some (runs.map onceEach) := by
  induction runs using List.reverseRecOn with
  | nil => exact ⟨rfl, rfl⟩
  | append_singleton runs own ih =>
    rw [List.map_append, List.sum_append, List.map_singleton, List.sum_singleton] at hfits
    obtain ⟨hpaths, hranges⟩ := ih (by omega)
    rw [List.foldl_append, List.foldl_cons, List.foldl_nil]
    set state := runs.foldl pushGroup ([], []) with hstate
    have hshort : state.1.length ≤ (runs.map List.length).sum := by
      rw [hpaths, List.length_flatten, List.map_map]
      refine List.sum_le_sum fun own _ => ?_
      exact length_onceEach_le own
    have hpush : (pushGroup state own).1 = state.1 ++ onceEach own :=
      foldl_keepOnce_own own (by omega)
    have hown : (onceEach own).length ≤ own.length := length_onceEach_le own
    have hrange : (pushGroup state own).2 =
        state.2 ++ [(state.1.length, state.1.length + (onceEach own).length)] := by
      change state.2 ++ [(u32 state.1.length, u32 (pushGroup state own).1.length)] = _
      rw [hpush, List.length_append, u32_of_lt (by omega), u32_of_lt (by omega)]
    refine ⟨?_, ?_⟩
    · rw [hpush, hpaths, List.map_append, List.flatten_append, List.map_singleton, List.flatten_singleton]
    · rw [hrange, hpush, List.map_append, List.map_singleton, mapM_eq_some]
      refine List.rel_append ((mapM_eq_some.mp hranges).imp fun range paths h => sliced_mono h _) (.cons ?_ .nil)
      have hslice := @sliced_append _ state.1 (onceEach own) []
      rwa [List.append_nil] at hslice

/-! ## The index built -/

/-- Every entry's group has an id below the groups' number. -/
theorem entered_lt {κ : Type} [DecidableEq κ] (rows : List (κ × Bytes)) :
    ∀ entry ∈ (rows.foldl enter ([], [])).2, entry.1 < (rows.foldl enter ([], [])).1.length := by
  rintro ⟨id, path⟩ hentry
  obtain ⟨key, hkey, -⟩ := ((entered rows).mem_iff id path).mp hentry
  exact (List.getElem?_eq_some_iff.mp hkey).1

/-- **The rows entered make the index of their groups' paths.** -/
theorem Spanned.index {kind : GroupKind} {rows : List (kind.Key × Bytes)} {state : Entries kind.Key}
    (h : Spanned rows state) (hfits : FitsCounts rows) : state.index = some (ofRows kind rows) := by
  set own := (rows.foldl enter ([], [])).2 with hown
  set n := (rows.foldl enter ([], [])).1.length with hn
  have hlength : own.length = rows.length := by
    rw [hown]
    clear * -
    induction rows using List.reverseRecOn with
    | nil => rfl
    | append_singleton rows row ih =>
      rw [List.foldl_append, List.foldl_cons, List.foldl_nil, List.length_append, List.length_singleton, ← ih]
      change (_ ++ [_] : List (ℕ × Bytes)).length = _
      rw [List.length_append, List.length_singleton]
  have hentries : state.entries.length = rows.length := h.paths.length_eq.trans hlength
  have hwrap (m : ℕ) (hm : m ≤ state.entries.length) : u32 m = m := u32_of_lt (by
    have hrows := hfits.rows_lt
    omega)
  have hids (entry : ℕ × ℕ × ℕ) (hentry : entry ∈ state.entries) : entry.1 < n := by
    have hsame : state.entries.map Prod.fst = own.map Prod.fst := by
      rw [← List.forall₂_eq_eq_eq, List.forall₂_map_left_iff, List.forall₂_map_right_iff]
      exact h.paths.imp fun entry mine hread => hread.1
    have hmem := List.mem_map_of_mem (f := Prod.fst) hentry
    rw [hsame] at hmem
    obtain ⟨mine, hmine, heq⟩ := List.mem_map.mp hmem
    rw [← heq]
    exact entered_lt rows mine hmine
  have hbucket (entry : ℕ × ℕ × ℕ) (hentry : entry ∈ state.entries) :
      ∀ b, (fun entry : ℕ × ℕ × ℕ => some entry.1) entry = some b → b < n := by
    rintro b hb
    rw [← Option.some.inj hb]
    exact hids entry hentry
  have htotal : startOf (fun entry : ℕ × ℕ × ℕ => some entry.1) state.entries n = state.entries.length :=
    startOf_eq_length fun entry hentry => ⟨entry.1, hids entry hentry, rfl⟩
  obtain ⟨hstarts, hplaced⟩ := @loops_eq _ _ u32 (fun entry : ℕ × ℕ × ℕ => some entry.1) Prod.snd state.entries n
    (0, 0) hwrap hbucket
  rw [htotal] at hplaced
  obtain ⟨counted, hcounted, haccumulated⟩ := Option.bind_eq_some_iff.mp hstarts
  obtain ⟨placed, hplaced, hordered⟩ := Option.map_eq_some_iff.mp hplaced
  set runs := (List.range n).map fun group =>
    sorted ((own.filter fun entry => entry.1 == group).map Prod.snd) with hruns
  have hrun : (List.range n).mapM (groupRun state.elements
      ((List.range (n + 1)).map (startOf (fun entry => some entry.1) state.entries)) placed.2) = some runs := by
    rw [mapM_eq_some, hruns, List.forall₂_map_right_iff, List.forall₂_same]
    intro group hgroup
    rw [hordered]
    exact groupRun_eq h.paths (List.mem_range.mp hgroup)
  have hsizes : (runs.map List.length).sum < 2 ^ 32 := by
    have hsum : (runs.map List.length).sum = startOf (fun entry : ℕ × Bytes => some entry.1) own n := by
      rw [← List.length_flatten, hruns, ← List.flatMap_def, length_flatMap_range, startOf]
      refine Finset.sum_congr rfl fun group _ => ?_
      rw [sorted, List.length_insertionSort, List.length_map, ofBucket]
      simp [beq_eq_decide]
    have hle := startOf_le (fun entry : ℕ × Bytes => some entry.1) own n
    have hrows := hfits.rows_lt
    omega
  obtain ⟨hkept, hpaths⟩ := foldl_pushGroup hsizes
  have hdedup : runs.map onceEach = (ofRows kind rows).paths := by
    rw [hruns, List.map_map]
    exact List.map_congr_left fun group _ => onceEach_sorted _
  rw [hdedup] at hkept hpaths
  unfold Entries.index
  rw [h.groups]
  dsimp only
  rw [← hn]
  simp only [Option.bind_eq_bind, hcounted, haccumulated, hplaced, hrun, Option.bind_some, hpaths]
  rw [hkept]
  rfl

/-- **Where the counts fit, the build is the index of the rows.** -/
theorem buildRows_eq {kind : GroupKind} {rows : List (kind.Key × Bytes)}
    (hwhole : ∀ row ∈ rows, ∃ keys, row.2 = pathBytes keys) (hfits : FitsCounts rows) :
    buildRows kind rows = some (ofRows kind rows) := by
  refine (spanned (fun row hrow => ?_) hfits).index hfits
  obtain ⟨keys, hkeys⟩ := hwhole row hrow
  exact ⟨keys.length, by rw [hkeys, length_pathBytes]⟩

/-! ## Lookups in the index built -/

section Build

variable {kind : GroupKind} {batches : List RecordBatch} {groupKeyColumns : List String} {addressColumn : String}

/-- **The size the index is built for**: fewer than `2 ^ 32` source rows with a group and an address, and fewer
than `2 ^ 32` elements in their addresses. -/
def Fits (batches : List RecordBatch) (groupKeyColumns : List String) (addressColumn : String) : Prop :=
  FitsCounts (sourceRows (groupKind batches groupKeyColumns) batches groupKeyColumns addressColumn)

/-- **Batches that fit are indexed by their rows.** -/
theorem build_eq (hfits : Fits batches groupKeyColumns addressColumn) :
    build batches groupKeyColumns addressColumn = some (ofBatches batches groupKeyColumns addressColumn) :=
  buildRows_eq (whole_sourceRows _) hfits

/-- Where the counts fit, every group has an id of its own. -/
theorem groupId_ofRows {rows : List (kind.Key × Bytes)} (hfits : FitsCounts rows) :
    (ofRows kind rows).groupId = name (ofRows kind rows).groups := by
  have hle : (ofRows kind rows).groups.length ≤ rows.length := length_enter_le rows
  have hrows := hfits.rows_lt
  exact groupId_eq (by omega)

theorem groupId_ofBatches (hfits : Fits batches groupKeyColumns addressColumn) :
    (ofBatches batches groupKeyColumns addressColumn).groupId =
      name (ofBatches batches groupKeyColumns addressColumn).groups :=
  groupId_ofRows hfits

/-- **One row fits**: a batch holds fewer elements than a count does. -/
theorem fits_one {batch : RecordBatch} (hone : batch.numRows = 1) : Fits [batch] groupKeyColumns addressColumn := by
  have hlength : (sourceRows (groupKind [batch] groupKeyColumns) [batch] groupKeyColumns addressColumn).length ≤ 1 := by
    rw [sourceRows, List.flatMap_singleton]
    split
    · exact Nat.zero_le 1
    · refine le_trans (List.length_filterMap_le _ _) ?_
      rw [List.length_range, hone]
  have hshort : ∀ row ∈ sourceRows (groupKind [batch] groupKeyColumns) [batch] groupKeyColumns addressColumn,
      row.2.length / 8 < 2 ^ 32 := by
    rintro ⟨key, path⟩ hrow
    obtain ⟨own, -, i, -, -, hpath⟩ := mem_sourceRows.mp hrow
    obtain ⟨keys, haddress, rfl⟩ := Option.map_eq_some_iff.mp hpath
    have hlt := RecordBatch.length_addressAt_lt haddress
    rw [length_pathBytes]
    omega
  rw [Fits]
  generalize sourceRows (groupKind [batch] groupKeyColumns) [batch] groupKeyColumns addressColumn = rows at *
  refine ⟨by omega, ?_⟩
  rcases rows with _ | ⟨row, _ | ⟨second, rest⟩⟩
  · exact Nat.two_pow_pos 32
  · rw [List.map_singleton, List.sum_singleton]
    exact hshort row (List.mem_singleton_self row)
  · exact absurd hlength (by simp)

end Build

/-- **Source addresses relate exactly as comparing with every source does**: the index of fewer than `2 ^ 32`
rows and elements is built, and a lookup of a group's key and a path answers, in either form of the index, what
looking through the rows of that key would. -/
theorem lookups_compare_every_source (kind : GroupKind) (rows : List (kind.Key × List (BitVec 64)))
    (hfits : FitsCounts (pathRows rows)) :
    buildRows kind (pathRows rows) = some (ofRows kind (pathRows rows)) ∧
    (∃ hashed, (ofRows kind (pathRows rows)).inForm hashed = ofRows kind (pathRows rows)) ∧
    ∀ (hashed : Bool) (key : kind.Key) (target : List (BitVec 64)),
      ((((ofRows kind (pathRows rows)).groupId key).any fun group =>
        ((ofRows kind (pathRows rows)).inForm hashed).holds group (pathBytes target)) = true ↔
          (key, target) ∈ rows) ∧
      ∀ (mode : HierarchicalMode) (inclusive : Bool),
        (((ofRows kind (pathRows rows)).groupId key).any fun group =>
          ((ofRows kind (pathRows rows)).inForm hashed).relates group (pathBytes target) mode inclusive) = true ↔
            ∃ source, (key, source) ∈ rows ∧ Related mode inclusive source target := by
  have hrows : ∀ row ∈ pathRows rows, ∃ keys, row.2 = pathBytes keys := by
    intro row hrow
    obtain ⟨r, -, rfl⟩ := List.mem_map.mp hrow
    exact ⟨r.2, rfl⟩
  refine ⟨buildRows_eq hrows hfits, exists_inForm kind _, fun hashed key target => ?_⟩
  have hindexed := (indexed_ofRows hrows).inForm hashed
  rw [groupId_ofRows hfits]
  cases hname : name (ofRows kind (pathRows rows)).groups key with
  | none =>
    -- a group without an id has no source
    have hno (source : List (BitVec 64)) : (key, source) ∉ rows := fun hmem => by
      obtain ⟨group, hgroup⟩ := exists_name (pathRows rows) (mem_pathRows.mpr hmem)
      rw [hname] at hgroup
      exact absurd hgroup (by simp)
    simp [hno]
  | some group =>
    have hpaths (path : List (BitVec 64)) : pathBytes path ∈
        ((ofRows kind (pathRows rows)).inForm hashed).paths.getD group [] ↔ (key, path) ∈ rows :=
      (mem_paths _ hname _).trans mem_pathRows
    refine ⟨(hindexed.holds_iff group _).trans (hpaths target), fun mode inclusive => ?_⟩
    simp only [Option.any_some, hindexed.relates_iff, hpaths]

/-- A chain of two addresses, and a target below it. -/
theorem lookups_compare_every_source_chain :
    let rows : List (BitVec 128 × List (BitVec 64)) := [(7, [0]), (7, [0, 2]), (8, [1])]
    buildRows .pair (pathRows rows) = some (ofRows .pair (pathRows rows)) ∧
    (∃ hashed, (ofRows .pair (pathRows rows)).inForm hashed = ofRows .pair (pathRows rows)) ∧
    ∀ (hashed : Bool) (key : BitVec 128) (target : List (BitVec 64)),
      ((((ofRows .pair (pathRows rows)).groupId key).any fun group =>
        ((ofRows .pair (pathRows rows)).inForm hashed).holds group (pathBytes target)) = true ↔
          (key, target) ∈ rows) ∧
      ∀ (mode : HierarchicalMode) (inclusive : Bool),
        (((ofRows .pair (pathRows rows)).groupId key).any fun group =>
          ((ofRows .pair (pathRows rows)).inForm hashed).relates group (pathBytes target) mode inclusive) = true ↔
            ∃ source, (key, source) ∈ rows ∧ Related mode inclusive source target :=
  lookups_compare_every_source .pair [(7, [0]), (7, [0, 2]), (8, [1])] ⟨by decide, by decide⟩

/-- **A path across the end of 32 bits is not indexed**: its span ends at `2 ^ 32`, which the 32 bits of an end
do not hold, so that comparing it with another of its group panics.  Each of the three is one a batch can hold. -/
theorem buildRows_wrapped {a b c : List (BitVec 64)} (ha : a.length = 2 ^ 31 - 1) (hb : b.length = 2 ^ 31 - 1)
    (hc : c.length = 2) :
    buildRows .pair [((0 : BitVec 128), pathBytes a), (0, pathBytes b), (0, pathBytes c)] = none := by
  set elements := pathBytes a ++ pathBytes b ++ pathBytes c with helements
  have hstate : [((0 : BitVec 128), pathBytes a), (0, pathBytes b), (0, pathBytes c)].foldl Entries.push ⟨[], [], []⟩ =
      ⟨[0], [(0, 0, 2147483647), (0, 2147483647, 2147483647), (0, 4294967294, 2)], elements⟩ := by
    simp [Entries.push, intern, name, length_pathBytes, ha, hb, hc, u32, elements]
  have hlate : path elements (4294967294, 2) = none := by
    rw [path, sliced, if_neg (by simp [u32])]
  have hruns : (List.range 1).mapM (groupRun elements [0, 3]
      [(0, 2147483647), (2147483647, 2147483647), (4294967294, 2)]) = none := by
    have hsplit : sliced [((0 : ℕ), (2147483647 : ℕ)), (2147483647, 2147483647), (4294967294, 2)] 0 3 =
        some [(0, 2147483647), (2147483647, 2147483647), (4294967294, 2)] := rfl
    have hread : ([(0, 2147483647), (2147483647, 2147483647), (4294967294, 2)] : List (ℕ × ℕ)).mapM (path elements) =
        none := by
      rw [List.mapM_cons, List.mapM_cons, List.mapM_cons, hlate]
      cases path elements (0, 2147483647) <;> cases path elements (2147483647, 2147483647) <;> rfl
    have hown : groupRun elements [0, 3] [(0, 2147483647), (2147483647, 2147483647), (4294967294, 2)] 0 =
        (sliced [((0 : ℕ), (2147483647 : ℕ)), (2147483647, 2147483647), (4294967294, 2)] 0 3).bind fun own =>
          (own.mapM (path elements)).map sorted := rfl
    rw [List.range_one, List.mapM_cons, hown, hsplit, Option.bind_some, hread]
    rfl
  have hcounted : [(0, 0, 2147483647), (0, 2147483647, 2147483647), (0, 4294967294, 2)].foldlM
      (count u32 fun entry : ℕ × ℕ × ℕ => some entry.1) (List.replicate 2 0) = some [0, 3] := rfl
  have hstarts : (List.range' 1 1).foldlM (accumulate u32) [0, 3] = some [0, 3] := rfl
  have hplaced : [(0, 0, 2147483647), (0, 2147483647, 2147483647), (0, 4294967294, 2)].foldlM
      (place u32 (fun entry : ℕ × ℕ × ℕ => some entry.1) Prod.snd) ([0, 3], List.replicate 3 (0, 0)) =
        some ([3, 3], [(0, 2147483647), (2147483647, 2147483647), (4294967294, 2)]) := rfl
  rw [buildRows, hstate]
  unfold Entries.index
  simp only [List.length_cons, List.length_nil, Nat.zero_add, Nat.reduceAdd, Option.bind_eq_bind, hcounted, hstarts,
    hplaced, hruns, Option.bind_some, Option.bind_none]

/-- Three source rows of one group, of `2 ^ 32` elements in all, have no index, though each is its own relative. -/
theorem source_across_the_end_is_not_indexed :
    let rows : List (BitVec 128 × List (BitVec 64)) :=
      [(0, List.replicate (2 ^ 31 - 1) 0), (0, List.replicate (2 ^ 31 - 1) 1), (0, [2, 2])]
    buildRows .pair (pathRows rows) = none ∧ (0, [2, 2]) ∈ rows ∧ Related .children true [2, 2] [2, 2] :=
  ⟨buildRows_wrapped List.length_replicate List.length_replicate rfl,
    List.mem_cons_of_mem _ (List.mem_cons_of_mem _ (List.mem_singleton_self _)), List.prefix_refl _, .inl rfl⟩

end SourceAddresses

end QueryEngine
