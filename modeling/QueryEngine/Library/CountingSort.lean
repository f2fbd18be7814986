import Mathlib

/-!
# Library/CountingSort — items grouped by bucket in one buffer

Items are counted into the slot after their bucket's, the counts are summed in place, and each item is put
where its bucket's run goes on.  Counters are of some width, past which they wrap.  Every index is checked;
where no count of the items wraps none is out of bounds, and each bucket's run is the bucket's items in the
order they came (`run_group`).
-/

namespace CountingSort

variable {α β : Type*} (wrap : ℕ → ℕ) (bucket : α → Option ℕ) (item : α → β)

/-! ## The loops -/

/-- One more at a place. -/
def increment (counts : List ℕ) (i : ℕ) : Option (List ℕ) :=
  if i < counts.length then some (counts.modify i fun c => wrap (c + 1)) else none

/-- An item counted into the slot after its bucket's. -/
def count (starts : List ℕ) (x : α) : Option (List ℕ) :=
  match bucket x with
  | some b => increment wrap starts (b + 1)
  | none => some starts

/-- A count added to those before it. -/
def accumulate (starts : List ℕ) (i : ℕ) : Option (List ℕ) :=
  starts[i]?.bind fun here => starts[i - 1]?.map fun before => starts.set i (wrap (here + before))

/-- An item put where its bucket's run goes on. -/
def place (state : List ℕ × List β) (x : α) : Option (List ℕ × List β) :=
  match bucket x with
  | none => some state
  | some b =>
    state.1[b]?.bind fun slot =>
      if slot < state.2.length then (increment wrap state.1 b).map fun next => (next, state.2.set slot (item x))
      else none

/-- Where each of `n` buckets' runs starts, and the runs in one buffer. -/
def group (n : ℕ) (filler : β) (xs : List α) : Option (List ℕ × List β) :=
  (xs.foldlM (count wrap bucket) (List.replicate (n + 1) 0)).bind fun counted =>
    ((List.range' 1 n).foldlM (accumulate wrap) counted).bind fun starts =>
      starts[n]?.bind fun total =>
        (xs.foldlM (place wrap bucket item) (starts, List.replicate total filler)).map fun placed =>
          (starts, placed.2)

theorem foldlM_concat {σ : Type*} (f : σ → α → Option σ) (s : σ) (xs : List α) (x : α) :
    (xs ++ [x]).foldlM f s = (xs.foldlM f s).bind fun t => f t x := by
  simp [List.foldlM_append]

/-! ## Lists by their places -/

section Places

variable {wrap} {n b : ℕ} {f g : ℕ → ℕ}

theorem increment_map_range (hb : b < n) (hself : g b = wrap (f b + 1)) (hother : ∀ i, i ≠ b → g i = f i) :
    increment wrap ((List.range n).map f) b = some ((List.range n).map g) := by
  rw [increment, if_pos (by simpa using hb), Option.some.injEq]
  ext i : 1
  rw [List.getElem?_modify, List.getElem?_map, List.getElem?_map]
  rcases Nat.lt_or_ge i n with hi | hi
  · rw [List.getElem?_range hi]
    by_cases hib : b = i
    · subst hib
      simp [hself]
    · simp [hib, hother i (Ne.symm hib)]
  · simp [List.getElem?_eq_none (l := List.range n) (by simpa using hi)]

theorem set_map_range {v : ℕ} (hself : g b = v) (hother : ∀ i, i ≠ b → g i = f i) :
    ((List.range n).map f).set b v = (List.range n).map g := by
  ext i : 1
  rw [List.getElem?_set, List.getElem?_map, List.getElem?_map, List.length_map, List.length_range]
  by_cases hib : b = i
  · subst hib
    rw [if_pos rfl]
    split
    · next hlt => rw [List.getElem?_range hlt, Option.map_some, hself]
    · next hge => rw [List.getElem?_eq_none (by simpa using hge), Option.map_none]
  · rw [if_neg hib]
    cases hi : (List.range n)[i]? with
    | none => rfl
    | some j =>
      have hj : j = i := by
        obtain ⟨hlt, hj⟩ := List.getElem?_eq_some_iff.mp hi
        rw [← hj, List.getElem_range]
      rw [Option.map_some, Option.map_some, hj, hother i (Ne.symm hib)]

end Places

/-! ## Counts and starts -/

/-- The items of a bucket, in order. -/
def ofBucket (xs : List α) (b : ℕ) : List α := xs.filter fun x => decide (bucket x = some b)

/-- Where a bucket's run starts: after those of the buckets before it. -/
def startOf (xs : List α) (b : ℕ) : ℕ := ∑ i ∈ Finset.range b, (ofBucket bucket xs i).length

variable {wrap bucket item} {xs : List α} {n : ℕ}

theorem startOf_succ (xs : List α) (b : ℕ) :
    startOf bucket xs (b + 1) = startOf bucket xs b + (ofBucket bucket xs b).length :=
  Finset.sum_range_succ ..

variable (bucket) in
theorem startOf_mono (xs : List α) {a b : ℕ} (h : a ≤ b) : startOf bucket xs a ≤ startOf bucket xs b :=
  Finset.sum_le_sum_of_subset (Finset.range_subset_range.mpr h)

theorem ofBucket_concat (done : List α) (x : α) (b : ℕ) :
    ofBucket bucket (done ++ [x]) b =
      if bucket x = some b then ofBucket bucket done b ++ [x] else ofBucket bucket done b := by
  rw [ofBucket, List.filter_append]
  by_cases h : bucket x = some b
  · simp [ofBucket, h]
  · simp [ofBucket, h]

variable (bucket) in
/-- The runs hold no more than the items. -/
theorem startOf_le (xs : List α) (b : ℕ) : startOf bucket xs b ≤ xs.length := by
  induction xs with
  | nil => simp [startOf, ofBucket]
  | cons x xs ih =>
    have hone : ∑ i ∈ Finset.range b, (if bucket x = some i then 1 else 0) ≤ 1 := by
      cases bucket x with
      | none => simp
      | some c =>
        simp only [Option.some.injEq, Finset.sum_ite_eq]
        split <;> simp
    have hsplit : startOf bucket (x :: xs) b =
        ∑ i ∈ Finset.range b, (if bucket x = some i then 1 else 0) + startOf bucket xs b := by
      rw [startOf, startOf, ← Finset.sum_add_distrib]
      refine Finset.sum_congr rfl fun i _ => ?_
      rw [ofBucket, ofBucket, List.filter_cons]
      by_cases hx : bucket x = some i <;> simp [hx, Nat.add_comm]
    rw [hsplit, List.length_cons, Nat.add_comm]
    exact Nat.add_le_add ih hone

/-- Items that all have a bucket fill the runs. -/
theorem startOf_eq_length (hb : ∀ x ∈ xs, ∃ b < n, bucket x = some b) : startOf bucket xs n = xs.length := by
  induction xs with
  | nil => simp [startOf, ofBucket]
  | cons x xs ih =>
    obtain ⟨c, hc, hx⟩ := hb x List.mem_cons_self
    have hsplit : startOf bucket (x :: xs) n =
        ∑ i ∈ Finset.range n, (if c = i then 1 else 0) + startOf bucket xs n := by
      rw [startOf, startOf, ← Finset.sum_add_distrib]
      refine Finset.sum_congr rfl fun i _ => ?_
      rw [ofBucket, ofBucket, List.filter_cons]
      by_cases hi : c = i <;> simp [hx, hi, Nat.add_comm]
    rw [hsplit, ih fun y hy => hb y (List.mem_cons_of_mem _ hy), Finset.sum_ite_eq,
      if_pos (Finset.mem_range.mpr hc), List.length_cons, Nat.add_comm]

variable (bucket) in
theorem length_ofBucket_le_length (xs : List α) (b : ℕ) : (ofBucket bucket xs b).length ≤ xs.length :=
  List.length_filter_le _ _

/-- **The first loop counts each bucket into the slot after it.** -/
theorem foldlM_count (hwrap : ∀ m ≤ xs.length, wrap m = m) (hb : ∀ x ∈ xs, ∀ b, bucket x = some b → b < n) :
    xs.foldlM (count wrap bucket) (List.replicate (n + 1) 0) = some ((List.range (n + 1)).map fun
      | 0 => 0
      | b + 1 => (ofBucket bucket xs b).length) := by
  induction xs using List.reverseRecOn with
  | nil =>
    refine congrArg some (List.ext_getElem (by simp) fun i h₁ h₂ => ?_)
    rw [List.getElem_replicate, List.getElem_map, List.getElem_range]
    cases i <;> rfl
  | append_singleton xs x ih =>
    rw [foldlM_concat, ih (fun m hm => hwrap m (hm.trans (by simp))) fun y hy => hb y (List.mem_append_left _ hy),
      Option.bind_some, count]
    cases hx : bucket x with
    | none =>
      refine congrArg some (List.map_congr_left fun i _ => ?_)
      cases i with
      | zero => rfl
      | succ b => simp [ofBucket_concat, hx]
    | some b =>
      refine increment_map_range (Nat.succ_lt_succ (hb x (by simp) b hx)) ?_ fun i hi => ?_
      · have hle := length_ofBucket_le_length bucket xs b
        have hown := hwrap ((ofBucket bucket xs b).length + 1) (by rw [List.length_append]; exact Nat.succ_le_succ hle)
        simp [ofBucket_concat, hx, hown]
      · cases i with
        | zero => rfl
        | succ j =>
          have hne : b ≠ j := fun e => hi (by rw [e])
          simp [ofBucket_concat, hx, hne]

variable (bucket) in
/-- **The second loop sums the counts where they are.** -/
theorem foldlM_accumulate (xs : List α) (hwrap : ∀ m ≤ xs.length, wrap m = m) (n : ℕ) : ∀ k ≤ n,
    (List.range' 1 k).foldlM (accumulate wrap) ((List.range (n + 1)).map fun
      | 0 => 0
      | b + 1 => (ofBucket bucket xs b).length) = some ((List.range (n + 1)).map fun i =>
        if i ≤ k then startOf bucket xs i else (ofBucket bucket xs (i - 1)).length)
  | 0, _ => by
    refine congrArg some (List.map_congr_left fun i _ => ?_)
    cases i with
    | zero => rfl
    | succ b => rfl
  | k + 1, hk => by
    have hplace {i : ℕ} (hi : i < n + 1) (f : ℕ → ℕ) : ((List.range (n + 1)).map f)[i]? = some (f i) := by
      rw [List.getElem?_map, List.getElem?_range hi, Option.map_some]
    rw [List.range'_1_concat, foldlM_concat, foldlM_accumulate xs hwrap n k (by omega), Option.bind_some,
      accumulate, Nat.add_comm 1 k, hplace (by omega), Option.bind_some, Nat.add_sub_cancel,
      hplace (by omega), Option.map_some, if_neg (by omega), if_pos (le_refl k)]
    refine congrArg some (set_map_range ?_ fun i hi => ?_)
    · have hle := startOf_le bucket xs (k + 1)
      rw [startOf_succ] at hle
      rw [if_pos (le_refl _), startOf_succ, Nat.add_comm, hwrap _ (by rw [Nat.add_comm]; exact hle)]
    · rcases Nat.lt_or_ge k i with hlt | hge
      · rw [if_neg (by omega), if_neg (by omega)]
      · rw [if_pos (by omega), if_pos (by omega)]

/-! ## The runs -/

/-- What the third loop has done of some items: each bucket's run goes on after those of them it has. -/
structure Placed (bucket : α → Option ℕ) (item : α → β) (xs : List α) (n : ℕ) (done : List α)
    (state : List ℕ × List β) : Prop where
  next : state.1 = (List.range (n + 1)).map fun b => startOf bucket xs b + (ofBucket bucket done b).length
  length : state.2.length = startOf bucket xs n
  runs : ∀ b < n, ∀ (j : ℕ) (x : α), (ofBucket bucket done b)[j]? = some x →
    state.2[startOf bucket xs b + j]? = some (item x)

/-- A prefix holds no more of a bucket than the whole, and less where an item of it is still to come. -/
theorem length_ofBucket_lt {done rest : List α} {x : α} {b : ℕ} (hxs : xs = done ++ x :: rest)
    (hx : bucket x = some b) : (ofBucket bucket done b).length < (ofBucket bucket xs b).length := by
  rw [hxs, ofBucket, ofBucket, List.filter_append, List.filter_cons_of_pos (by simpa using hx),
    List.length_append, List.length_cons]
  omega

variable (bucket) in
theorem length_ofBucket_le {done rest : List α} (b : ℕ) (hxs : xs = done ++ rest) :
    (ofBucket bucket done b).length ≤ (ofBucket bucket xs b).length := by
  rw [hxs, ofBucket, ofBucket, List.filter_append, List.length_append]
  exact Nat.le_add_right _ _

variable (bucket xs) in
/-- A bucket's run ends before a later one's starts. -/
theorem startOf_add_length_le {b b' : ℕ} (h : b < b') :
    startOf bucket xs b + (ofBucket bucket xs b).length ≤ startOf bucket xs b' := by
  have hstart := startOf_mono bucket xs (Nat.succ_le_of_lt h)
  rwa [Nat.succ_eq_add_one, startOf_succ] at hstart

/-- An item of no bucket moves nothing. -/
theorem Placed.skip {done : List α} {x : α} {state : List ℕ × List β} (hx : bucket x = none)
    (h : Placed bucket item xs n done state) : Placed bucket item xs n (done ++ [x]) state := by
  refine ⟨h.next.trans (List.map_congr_left fun b _ => ?_), h.length, fun b hbn j y hy => ?_⟩
  · simp [ofBucket_concat, hx]
  · refine h.runs b hbn j y ?_
    simpa [ofBucket_concat, hx] using hy

/-- **An item put after its bucket's run** is the run's next, and no other's. -/
theorem Placed.runs_set {done rest : List α} {x : α} {b : ℕ} {state : List ℕ × List β} (hxs : xs = done ++ x :: rest)
    (hx : bucket x = some b) (h : Placed bucket item xs n done state)
    (hroom : startOf bucket xs b + (ofBucket bucket done b).length < state.2.length) :
    ∀ b' < n, ∀ (j : ℕ) (y : α), (ofBucket bucket (done ++ [x]) b')[j]? = some y →
      (state.2.set (startOf bucket xs b + (ofBucket bucket done b).length) (item x))[startOf bucket xs b' + j]? =
        some (item y) := by
  intro b' hb' j y hy
  rw [ofBucket_concat] at hy
  split at hy
  · next hxb =>
    obtain rfl : b = b' := Option.some.inj (hx.symm.trans hxb)
    rcases Nat.lt_or_ge j (ofBucket bucket done b).length with hj | hj
    · rw [List.getElem?_set_ne (by omega)]
      exact h.runs b hb' j y (by rwa [List.getElem?_append_left hj] at hy)
    · rw [List.getElem?_append_right hj, List.getElem?_singleton] at hy
      split at hy
      · next hj0 =>
        obtain rfl := Option.some.inj hy
        obtain rfl : j = (ofBucket bucket done b).length := by omega
        rw [List.getElem?_set_self hroom]
      · exact absurd hy (by simp)
  · next hxb =>
    -- the other bucket's run is all before this one's, or all after it
    have hne : b ≠ b' := fun e => hxb (e ▸ hx)
    have hj : j < (ofBucket bucket done b').length := (List.getElem?_eq_some_iff.mp hy).1
    have hlt := length_ofBucket_lt hxs hx
    have hle := length_ofBucket_le bucket b' hxs
    have hends : startOf bucket xs b' + j ≠ startOf bucket xs b + (ofBucket bucket done b).length := by
      rcases Nat.lt_or_gt_of_ne hne with hbb | hbb
      · have hstart := startOf_add_length_le bucket xs hbb
        omega
      · have hstart := startOf_add_length_le bucket xs hbb
        omega
    rw [List.getElem?_set_ne hends.symm]
    exact h.runs b' hb' j y hy

/-- **One item more is put in a slot of its own.** -/
theorem Placed.step {done rest : List α} {x : α} {state : List ℕ × List β} (hwrap : ∀ m ≤ xs.length, wrap m = m)
    (hxs : xs = done ++ x :: rest) (hb : ∀ b, bucket x = some b → b < n) (h : Placed bucket item xs n done state) :
    ∃ state', place wrap bucket item state x = some state' ∧ Placed bucket item xs n (done ++ [x]) state' := by
  cases hx : bucket x with
  | none => exact ⟨state, by rw [place, hx], h.skip hx⟩
  | some b =>
    have hbn := hb b hx
    have hlt := length_ofBucket_lt hxs hx
    have hend := startOf_add_length_le bucket xs hbn
    have hslot : state.1[b]? = some (startOf bucket xs b + (ofBucket bucket done b).length) := by
      rw [h.next, List.getElem?_map, List.getElem?_range (by omega), Option.map_some]
    have hnext : increment wrap state.1 b = some ((List.range (n + 1)).map fun i =>
        startOf bucket xs i + (ofBucket bucket (done ++ [x]) i).length) := by
      rw [h.next]
      refine increment_map_range (by omega) ?_ fun i hi => ?_
      · have hle := startOf_le bucket xs n
        rw [ofBucket_concat, if_pos hx, List.length_append, List.length_singleton, Nat.add_assoc, hwrap _ (by omega)]
      · rw [ofBucket_concat, if_neg fun e => hi (Option.some.inj (hx.symm.trans e)).symm]
    have hroom : startOf bucket xs b + (ofBucket bucket done b).length < state.2.length := by
      rw [h.length]
      omega
    refine ⟨_, by rw [place, hx]; simp only [hslot, Option.bind_some, if_pos hroom, hnext, Option.map_some]; rfl,
      rfl, ?_, h.runs_set hxs hx hroom⟩
    rw [List.length_set, h.length]

/-- **The third loop puts every item in a slot of its own.** -/
theorem Placed.run {rest : List α} (hwrap : ∀ m ≤ xs.length, wrap m = m) :
    ∀ {done : List α} {state : List ℕ × List β}, xs = done ++ rest →
    (∀ x ∈ rest, ∀ b, bucket x = some b → b < n) → Placed bucket item xs n done state →
    ∃ state', rest.foldlM (place wrap bucket item) state = some state' ∧ Placed bucket item xs n xs state' := by
  induction rest with
  | nil =>
    intro done state hxs _ h
    rw [List.append_nil] at hxs
    exact ⟨state, rfl, hxs ▸ h⟩
  | cons x rest ih =>
    intro done state hxs hb h
    obtain ⟨next, hnext, hplaced⟩ := h.step hwrap hxs (hb x List.mem_cons_self)
    obtain ⟨state', hrest, hall⟩ := ih (by rw [hxs, List.append_assoc, List.singleton_append])
      (fun y hy => hb y (List.mem_cons_of_mem _ hy)) hplaced
    exact ⟨state', by rw [List.foldlM_cons, hnext]; exact hrest, hall⟩

/-- The runs end to end are the buffer. -/
theorem take_startOf {rows : List β} (hlength : rows.length = startOf bucket xs n)
    (hruns : ∀ b < n, ∀ (j : ℕ) (x : α), (ofBucket bucket xs b)[j]? = some x →
      rows[startOf bucket xs b + j]? = some (item x)) : ∀ k ≤ n,
    rows.take (startOf bucket xs k) = (List.range k).flatMap fun b => (ofBucket bucket xs b).map item
  | 0, _ => by simp [startOf]
  | k + 1, hk => by
    have hend := startOf_mono bucket xs hk
    rw [startOf_succ] at hend
    rw [startOf_succ, List.take_add, take_startOf hlength hruns k (by omega), List.range_succ,
      List.flatMap_append, List.flatMap_singleton]
    congr 1
    refine List.ext_getElem ?_ fun j h₁ h₂ => ?_
    · rw [List.length_take, List.length_drop, List.length_map]
      omega
    · rw [List.length_map] at h₂
      have hj := hruns k (by omega) j _ (List.getElem?_eq_getElem h₂)
      rw [List.getElem_take, List.getElem_drop, List.getElem_map]
      exact (List.getElem?_eq_some_iff.mp hj).2

/-- **The loops miss no check**: the starts of the runs, and a buffer of the buckets' items, each bucket's in the
order they came. -/
theorem loops_eq (filler : β) (hwrap : ∀ m ≤ xs.length, wrap m = m)
    (hb : ∀ x ∈ xs, ∀ b, bucket x = some b → b < n) :
    (xs.foldlM (count wrap bucket) (List.replicate (n + 1) 0)).bind
      (fun counted => (List.range' 1 n).foldlM (accumulate wrap) counted) =
        some ((List.range (n + 1)).map (startOf bucket xs)) ∧
    (xs.foldlM (place wrap bucket item) ((List.range (n + 1)).map (startOf bucket xs),
      List.replicate (startOf bucket xs n) filler)).map Prod.snd =
        some ((List.range n).flatMap fun b => (ofBucket bucket xs b).map item) := by
  have hstarts := foldlM_accumulate bucket xs hwrap n n (le_refl n)
  rw [List.map_congr_left (g := startOf bucket xs) fun i hi =>
    if_pos (Nat.lt_succ_iff.mp (List.mem_range.mp hi))] at hstarts
  have hstart : Placed bucket item xs n []
      ((List.range (n + 1)).map (startOf bucket xs), List.replicate (startOf bucket xs n) filler) :=
    ⟨rfl, List.length_replicate, fun b _ j x hx => by simp [ofBucket] at hx⟩
  obtain ⟨state, hstate, hplaced⟩ := hstart.run hwrap (List.nil_append xs).symm hb
  have hbuffer := take_startOf hplaced.length hplaced.runs n (le_refl n)
  rw [← hplaced.length, List.take_length] at hbuffer
  refine ⟨by rw [foldlM_count hwrap hb, Option.bind_some, hstarts], ?_⟩
  rw [← hbuffer]
  exact congrArg (Option.map _) hstate

/-- **Grouping misses no check**, and its buffer is the buckets' items, each bucket's in the order they
came. -/
theorem group_eq (filler : β) (hwrap : ∀ m ≤ xs.length, wrap m = m)
    (hb : ∀ x ∈ xs, ∀ b, bucket x = some b → b < n) :
    group wrap bucket item n filler xs = some ((List.range (n + 1)).map (startOf bucket xs),
      (List.range n).flatMap fun b => (ofBucket bucket xs b).map item) := by
  obtain ⟨hstarts, hbuffer⟩ := @loops_eq _ _ wrap bucket item xs n filler hwrap hb
  obtain ⟨counted, hcounted, haccumulated⟩ := Option.bind_eq_some_iff.mp hstarts
  obtain ⟨placed, hplaced, hrows⟩ := Option.map_eq_some_iff.mp hbuffer
  have htotal : ((List.range (n + 1)).map (startOf bucket xs))[n]? = some (startOf bucket xs n) := by
    rw [List.getElem?_map, List.getElem?_range (by omega), Option.map_some]
  rw [group, hcounted, Option.bind_some, haccumulated, Option.bind_some, htotal, Option.bind_some, hplaced,
    Option.map_some, hrows]

theorem length_flatMap_range (f : ℕ → List β) (b : ℕ) :
    ((List.range b).flatMap f).length = ∑ i ∈ Finset.range b, (f i).length := by
  induction b with
  | zero => rfl
  | succ b ih =>
    rw [List.range_succ, List.flatMap_append, List.length_append, ih, List.flatMap_singleton,
      Finset.sum_range_succ]

/-- **A run of a buffer of runs** is where the runs before it end. -/
theorem run_flatMap_range (f : ℕ → List β) {b n : ℕ} (h : b < n) :
    (((List.range n).flatMap f).drop (∑ i ∈ Finset.range b, (f i).length)).take (f b).length = f b := by
  obtain ⟨k, rfl⟩ : ∃ k, n = b + (k + 1) := ⟨n - b - 1, by omega⟩
  have hsplit : List.range (b + (k + 1)) = List.range b ++ b :: (List.range k).map fun i => b + (i + 1) := by
    rw [List.range_add, List.range_succ_eq_map, List.map_cons, List.map_map]
    rfl
  rw [hsplit, List.flatMap_append, List.flatMap_cons, List.drop_left' (length_flatMap_range f b),
    List.take_left' rfl]

theorem length_runs (b : ℕ) :
    ((List.range b).flatMap fun b => (ofBucket bucket xs b).map item).length = startOf bucket xs b := by
  rw [length_flatMap_range, startOf]
  simp only [List.length_map]

/-- **A bucket's run is the bucket's items.** -/
theorem run_group {b : ℕ} (h : b < n) :
    (((List.range n).flatMap fun b => (ofBucket bucket xs b).map item).drop (startOf bucket xs b)).take
      (startOf bucket xs (b + 1) - startOf bucket xs b) = (ofBucket bucket xs b).map item := by
  have hrun := run_flatMap_range (fun b => (ofBucket bucket xs b).map item) h
  simp only [List.length_map] at hrun
  rw [startOf_succ, Nat.add_sub_cancel_left]
  exact hrun

end CountingSort
