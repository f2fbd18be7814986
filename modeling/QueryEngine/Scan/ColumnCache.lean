import QueryEngine.Scan.Pairs
import QueryEngine.Library.Transitions

/-!
# Scan/ColumnCache — decoded columns, kept up to a byte budget

Requests share slots and one count of bytes.  A request that finds its slot empty reserves the most
its column may take, loads it, and settles what the column took in place of what was reserved; the
slot's lock is its own until then, and the count is changed by compare-and-exchange, so any other
request may step between any two of its steps.  `Counted` is what every order of them keeps.
-/

open Transitions

namespace QueryEngine

/-- The largest count of bytes. -/
def u64Max : ℕ := 2 ^ 64 - 1

namespace ColumnCache

/-! ## The count -/

/-- Count `bytes` against the budget, if they fit in what is left of it. -/
def reserve (budget bytes used : ℕ) : Option ℕ :=
  (checkedAdd used bytes).filter fun total => decide (total ≤ budget)

/-- Count `actual` bytes in place of the `reserved` ones, if the budget takes them; else release the
reservation. -/
def settle (budget reserved actual used : ℕ) : Bool × ℕ :=
  let rest := used - reserved
  let total := saturatingAdd rest actual
  let taken := decide (total ≤ budget)
  (taken, if taken then total else rest)

/-! ## Requests -/

/-- Where a request is.  `seen` is the count it last read. -/
inductive Phase (κ : Type)
  | idle
  /-- The slot's lock is held, and the slot holds nothing. -/
  | locked (slot : κ)
  | reserving (slot : κ) (most seen : ℕ)
  | loading (slot : κ) (most : ℕ)
  /-- The load returned: what its value takes, or nothing when it failed. -/
  | settling (slot : κ) (most : ℕ) (size : Option ℕ) (seen : ℕ)
  /-- The value is counted, and not in its slot yet. -/
  | storing (slot : κ) (size : ℕ)
  deriving DecidableEq

namespace Phase

variable {κ : Type}

/-- The slot whose lock a request holds. -/
def slot : Phase κ → Option κ
  | idle => none
  | locked slot | reserving slot _ _ | loading slot _ | settling slot _ _ _ | storing slot _ => some slot

/-- The bytes a request has in the count. -/
def counted : Phase κ → ℕ
  | idle | locked _ | reserving _ _ _ => 0
  | loading _ most | settling _ most _ _ => most
  | storing _ size => size

end Phase

end ColumnCache

/-- The cache, and where its requests are. -/
structure ColumnCache (ρ κ : Type) where
  used : ℕ
  /-- What the slots hold: the size of each value. -/
  held : List (κ × ℕ)
  phase : ρ → ColumnCache.Phase κ

namespace ColumnCache

/-- A request's next step. -/
inductive Act (ρ κ : Type)
  /-- Lock a slot, and answer when it holds a value. -/
  | ask (i : ρ) (slot : κ)
  /-- The footer does not bound the column: answer that the budget cannot take it. -/
  | decline (i : ρ)
  | read (i : ρ) (most : ℕ)
  | reserve (i : ρ)
  | load (i : ρ) (size : Option ℕ)
  | settle (i : ρ)
  | store (i : ρ)

variable {ρ κ : Type}

/-- The cache with a request moved. -/
def moved [DecidableEq ρ] (s : ColumnCache ρ κ) (i : ρ) (p : Phase κ) : ColumnCache ρ κ :=
  { s with phase := Function.update s.phase i p }

/-- A cache nothing was asked of. -/
def empty : ColumnCache ρ κ := ⟨0, [], fun _ => .idle⟩

section Step

variable [DecidableEq ρ] [DecidableEq κ] [Fintype ρ]

/-- What a request's step makes of the cache; nothing when the request cannot take it, or waits. -/
def step (budget : ℕ) (s : ColumnCache ρ κ) : Act ρ κ → Option (ColumnCache ρ κ)
  | .ask i slot =>
    match s.phase i with
    | .idle =>
      if ∃ j, (s.phase j).slot = some slot then none
      else if slot ∈ s.held.map Prod.fst then some s
      else some (s.moved i (.locked slot))
    | _ => none
  | .decline i =>
    match s.phase i with
    | .locked _ => some (s.moved i .idle)
    | _ => none
  | .read i most =>
    match s.phase i with
    | .locked slot => some (s.moved i (.reserving slot most s.used))
    | _ => none
  | .reserve i =>
    match s.phase i with
    | .reserving slot most seen =>
      match reserve budget most seen with
      | none => some (s.moved i .idle)
      | some total =>
        if s.used = seen then some { s.moved i (.loading slot most) with used := total }
        else some (s.moved i (.reserving slot most s.used))
    | _ => none
  | .load i size =>
    match s.phase i with
    | .loading slot most => some (s.moved i (.settling slot most size s.used))
    | _ => none
  | .settle i =>
    match s.phase i with
    | .settling slot most size seen =>
      if s.used = seen then
        let next := settle budget most (size.getD 0) seen
        match size with
        | some size =>
          some { s.moved i (if next.1 then .storing slot size else .idle) with used := next.2 }
        | none => some { s.moved i .idle with used := next.2 }
      else some (s.moved i (.settling slot most size s.used))
    | _ => none
  | .store i =>
    match s.phase i with
    | .storing slot size => some { s.moved i .idle with held := s.held ++ [(slot, size)] }
    | _ => none

end Step

/-! ## What every interleaving keeps -/

/-- The bytes held. -/
def heldBytes (s : ColumnCache ρ κ) : ℕ := (s.held.map Prod.snd).sum

/-- The bytes of requests in flight. -/
def outstanding [Fintype ρ] (s : ColumnCache ρ κ) : ℕ := ∑ i, (s.phase i).counted

/-- **What the count is of**, and that no slot is in it twice: neither held twice, nor held while a
request loads it, nor loaded by two. -/
structure Counted [Fintype ρ] (budget : ℕ) (s : ColumnCache ρ κ) : Prop where
  used_eq : s.used = s.heldBytes + s.outstanding
  le_budget : s.used ≤ budget
  nodup : (s.held.map Prod.fst).Nodup
  locked : ∀ i j slot, (s.phase i).slot = some slot → (s.phase j).slot = some slot → i = j
  empty : ∀ i slot, (s.phase i).slot = some slot → slot ∉ s.held.map Prod.fst
  seen : ∀ i slot most size seen, s.phase i = .settling slot most size seen → most ≤ seen

/-- A settle whose total the count can hold, or that no budget of the count's full range is asked to
take. -/
def Exact (budget : ℕ) (s : ColumnCache ρ κ) (act : Act ρ κ) : Prop :=
  ∀ i slot most size seen, act = .settle i → s.phase i = .settling slot most size seen →
    budget < u64Max ∨ seen - most + size.getD 0 ≤ u64Max

theorem reserve_eq_some {budget bytes used total : ℕ} (h : reserve budget bytes used = some total) :
    total = used + bytes ∧ total ≤ budget := by
  obtain ⟨h, hle⟩ := Option.filter_eq_some_iff.mp h
  exact ⟨checkedAdd_eq_some h, of_decide_eq_true hle⟩

/-- A settle that counts exactly takes what fits. -/
theorem settle_eq {budget reserved actual used : ℕ}
    (h : budget < u64Max ∨ used - reserved + actual ≤ u64Max) :
    settle budget reserved actual used =
      (decide (used - reserved + actual ≤ budget),
        if used - reserved + actual ≤ budget then used - reserved + actual else used - reserved) := by
  unfold settle saturatingAdd
  unfold u64Max at h
  by_cases hfits : used - reserved + actual ≤ 2 ^ 64 - 1
  · simp only [min_eq_left hfits, decide_eq_true_eq]
  · have hbudget : budget < 2 ^ 64 - 1 := h.resolve_right hfits
    simp only [min_eq_right (Nat.le_of_not_le hfits), Nat.not_le.mpr hbudget,
      Nat.not_le.mpr (hbudget.trans (Nat.lt_of_not_le hfits)), decide_false, Bool.false_eq_true,
      if_false]

section Moves

variable {budget : ℕ} {s : ColumnCache ρ κ} {i : ρ} {p : Phase κ}

@[simp] theorem phase_moved_self [DecidableEq ρ] : (s.moved i p).phase i = p := Function.update_self ..

theorem phase_moved_of_ne [DecidableEq ρ] {j : ρ} (h : j ≠ i) : (s.moved i p).phase j = s.phase j :=
  Function.update_of_ne h ..

/-- A request's bytes are among those in flight. -/
theorem counted_le_outstanding [Fintype ρ] : (s.phase i).counted ≤ s.outstanding :=
  Finset.single_le_sum (f := fun j => (s.phase j).counted) (fun _ _ => Nat.zero_le _)
    (Finset.mem_univ i)

variable [DecidableEq ρ] [Fintype ρ]

/-- Only the moved request's bytes change. -/
theorem outstanding_moved : (s.moved i p).outstanding + (s.phase i).counted =
    s.outstanding + p.counted := by
  unfold outstanding
  rw [← Finset.add_sum_erase _ _ (Finset.mem_univ i),
    ← Finset.add_sum_erase (a := i) _ (fun j => (s.phase j).counted) (Finset.mem_univ i),
    phase_moved_self]
  have hrest : ∑ j ∈ Finset.univ.erase i, ((s.moved i p).phase j).counted =
      ∑ j ∈ Finset.univ.erase i, (s.phase j).counted :=
    Finset.sum_congr rfl fun j hj => by rw [phase_moved_of_ne (Finset.ne_of_mem_erase hj)]
  rw [hrest]
  ring

/-- **A request that keeps its slot or leaves it keeps the count**, as long as what it counts and
what the count is change alike. -/
theorem Counted.moved (h : Counted budget s) {used : ℕ}
    (hslot : ∀ slot, p.slot = some slot → (s.phase i).slot = some slot)
    (hused : used + (s.phase i).counted = s.used + p.counted) (hle : used ≤ budget)
    (hseen : ∀ slot most size seen, p = .settling slot most size seen → most ≤ seen) :
    Counted budget { s.moved i p with used := used } := by
  have hkept (j : ρ) (slot : κ) (hj : ((s.moved i p).phase j).slot = some slot) :
      (s.phase j).slot = some slot := by
    by_cases hji : j = i
    · subst hji
      rw [phase_moved_self] at hj
      exact hslot slot hj
    · rwa [phase_moved_of_ne hji] at hj
  refine ⟨?_, hle, h.nodup, fun j k slot hj hk => h.locked j k slot (hkept j slot hj) (hkept k slot hk),
    fun j slot hj => h.empty j slot (hkept j slot hj), fun j slot most size seen hj => ?_⟩
  · have hout := outstanding_moved (s := s) (i := i) (p := p)
    have hown := counted_le_outstanding (s := s) (i := i)
    have heq := h.used_eq
    change used = s.heldBytes + (s.moved i p).outstanding
    omega
  · change (s.moved i p).phase j = _ at hj
    by_cases hji : j = i
    · subst hji
      rw [phase_moved_self] at hj
      exact hseen slot most size seen hj
    · rw [phase_moved_of_ne hji] at hj
      exact h.seen j slot most size seen hj

/-- A request takes the lock of a slot that holds nothing. -/
theorem Counted.asked (h : Counted budget s) {slot : κ} (hphase : s.phase i = .idle)
    (hfree : ∀ j, (s.phase j).slot ≠ some slot) (hempty : slot ∉ s.held.map Prod.fst) :
    Counted budget (s.moved i (.locked slot)) := by
  have hslot (j : ρ) (k : κ) (hj : ((s.moved i (.locked slot)).phase j).slot = some k) :
      (j = i ∧ k = slot) ∨ (j ≠ i ∧ (s.phase j).slot = some k) := by
    by_cases hji : j = i
    · subst hji
      rw [phase_moved_self] at hj
      exact .inl ⟨rfl, (Option.some.inj hj).symm⟩
    · rw [phase_moved_of_ne hji] at hj
      exact .inr ⟨hji, hj⟩
  refine ⟨?_, h.le_budget, h.nodup, fun j k slot' hj hk => ?_, fun j slot' hj => ?_,
    fun j slot' most size seen hj => ?_⟩
  · have hout := outstanding_moved (s := s) (i := i) (p := .locked slot)
    rw [hphase] at hout
    rw [show (s.moved i (.locked slot)).outstanding = s.outstanding from hout]
    exact h.used_eq
  · rcases hslot j slot' hj with ⟨rfl, rfl⟩ | ⟨-, hj⟩
    · rcases hslot k slot' hk with ⟨rfl, -⟩ | ⟨-, hk⟩
      · rfl
      · exact absurd hk (hfree k)
    · rcases hslot k slot' hk with ⟨-, rfl⟩ | ⟨-, hk⟩
      · exact absurd ‹(s.phase j).slot = _› (hfree j)
      · exact h.locked j k slot' ‹(s.phase j).slot = _› hk
  · rcases hslot j slot' hj with ⟨-, rfl⟩ | ⟨-, hj⟩
    · exact hempty
    · exact h.empty j slot' hj
  · by_cases hji : j = i
    · subst hji
      rw [phase_moved_self] at hj
      exact absurd hj (by simp)
    · rw [phase_moved_of_ne hji] at hj
      exact h.seen j slot' most size seen hj

/-- A counted value goes into its slot, which held nothing. -/
theorem Counted.stored (h : Counted budget s) {slot : κ} {size : ℕ}
    (hphase : s.phase i = .storing slot size) :
    Counted budget { s.moved i .idle with held := s.held ++ [(slot, size)] } := by
  have hslot : (s.phase i).slot = some slot := by rw [hphase]; rfl
  have hkept (j : ρ) (k : κ) (hj : ((s.moved i .idle).phase j).slot = some k) :
      j ≠ i ∧ (s.phase j).slot = some k := by
    by_cases hji : j = i
    · subst hji
      rw [phase_moved_self] at hj
      exact absurd hj (by simp [Phase.slot])
    · rw [phase_moved_of_ne hji] at hj
      exact ⟨hji, hj⟩
  refine ⟨?_, h.le_budget, ?_, fun j k slot' hj hk => ?_, fun j slot' hj => ?_,
    fun j slot' most size' seen hj => ?_⟩
  · have hout := outstanding_moved (s := s) (i := i) (p := .idle)
    rw [hphase] at hout
    change (s.moved i .idle).outstanding + size = s.outstanding + 0 at hout
    have heq := h.used_eq
    change s.used = ((s.held ++ [(slot, size)]).map Prod.snd).sum + (s.moved i .idle).outstanding
    rw [List.map_append, List.sum_append]
    change s.used = s.heldBytes + (size + 0) + _
    omega
  · rw [List.map_append]
    exact List.nodup_append.mpr ⟨h.nodup, List.nodup_singleton _, fun a ha b hb e =>
      h.empty i slot hslot (by
        rw [e, List.mem_singleton.mp hb] at ha
        exact ha)⟩
  · exact h.locked j k slot' (hkept j slot' hj).2 (hkept k slot' hk).2
  · obtain ⟨hji, hown⟩ := hkept j slot' hj
    rw [List.map_append, List.mem_append, List.map_singleton, List.mem_singleton]
    rintro (hheld | rfl)
    · exact h.empty j slot' hown hheld
    · exact hji (h.locked j i slot' hown hslot)
  · have hj : (s.moved i .idle).phase j = _ := hj
    by_cases hji : j = i
    · subst hji
      rw [phase_moved_self] at hj
      exact absurd hj (by simp)
    · rw [phase_moved_of_ne hji] at hj
      exact h.seen j slot' most size' seen hj

omit [DecidableEq ρ] in
/-- A request counts no more than is used. -/
theorem Counted.counted_le_used (h : Counted budget s) (i : ρ) : (s.phase i).counted ≤ s.used :=
  counted_le_outstanding.trans (h.used_eq ▸ Nat.le_add_left _ _)

/-- A step that counts nothing, and takes no slot. -/
theorem Counted.unchanged (h : Counted budget s) {i : ρ} {p : Phase κ}
    (hslot : ∀ slot, p.slot = some slot → (s.phase i).slot = some slot) (hcount : p.counted = (s.phase i).counted)
    (hseen : ∀ slot most size seen, p = .settling slot most size seen → most ≤ seen) :
    Counted budget (s.moved i p) :=
  h.moved hslot (by rw [hcount]) h.le_budget hseen

/-- **A reservation** is counted when the count is still the one read, and read again when it is not. -/
theorem Counted.reserve [DecidableEq κ] (h : Counted budget s) {i : ρ} {s' : ColumnCache ρ κ}
    (hstep : step budget s (.reserve i) = some s') : Counted budget s' := by
  simp only [step] at hstep
  split at hstep
  · next slot most seen hphase =>
    split at hstep
    · obtain rfl := Option.some.inj hstep
      exact h.unchanged (by simp [Phase.slot]) (by rw [hphase]; rfl) (by simp)
    · next total htotal =>
      obtain ⟨rfl, hle⟩ := reserve_eq_some htotal
      split at hstep
      · next hseen =>
        obtain rfl := Option.some.inj hstep
        exact h.moved (by simp [hphase, Phase.slot]) (by rw [hphase, hseen]; rfl) hle (by simp)
      · obtain rfl := Option.some.inj hstep
        exact h.unchanged (by simp [hphase, Phase.slot]) (by rw [hphase]; rfl) (by simp)
  · exact absurd hstep (by simp)

/-- **A settlement** counts what the column took in place of what was reserved, or reads the count again. -/
theorem Counted.settle [DecidableEq κ] (h : Counted budget s) {i : ρ} {s' : ColumnCache ρ κ}
    (hexact : Exact budget s (.settle i)) (hstep : step budget s (.settle i) = some s') : Counted budget s' := by
  simp only [step] at hstep
  split at hstep
  · next slot most size seen hphase =>
    have hmost := h.seen i slot most size seen hphase
    have hsettle := settle_eq (hexact i slot most size seen rfl hphase)
    split at hstep
    · next hseen =>
      rw [hsettle] at hstep
      cases size with
      | none =>
        obtain rfl := Option.some.inj hstep
        have hfits : seen - most + 0 ≤ budget := by
          have := h.le_budget
          omega
        refine h.moved (by simp [Phase.slot]) ?_ ?_ (by simp)
        · rw [hphase, Option.getD_none, if_pos hfits]
          change seen - most + 0 + most = s.used + 0
          omega
        · rw [Option.getD_none, if_pos hfits]
          exact hfits
      | some size =>
        obtain rfl := Option.some.inj hstep
        rw [Option.getD_some]
        by_cases hfits : seen - most + size ≤ budget
        · simp only [hfits, decide_true, if_true]
          refine h.moved (by simp [hphase, Phase.slot]) ?_ hfits (by simp)
          rw [hphase]
          change seen - most + size + most = s.used + size
          omega
        · simp only [hfits, decide_false, Bool.false_eq_true, if_false]
          refine h.moved (by simp [Phase.slot]) ?_ (le_trans (by omega) h.le_budget) (by simp)
          rw [hphase]
          change seen - most + most = s.used + 0
          omega
    · obtain rfl := Option.some.inj hstep
      refine h.unchanged (by simp [hphase, Phase.slot]) (by rw [hphase]; rfl) ?_
      rintro _ _ _ _ ⟨⟩
      have hown := h.counted_le_used i
      rwa [hphase] at hown
  · exact absurd hstep (by simp)

/-- **Every step keeps the count**, as long as it settles exactly. -/
theorem Counted.preserved [DecidableEq κ] (h : Counted budget s) {act : Act ρ κ} {s' : ColumnCache ρ κ}
    (hexact : Exact budget s act) (hstep : step budget s act = some s') : Counted budget s' := by
  cases act with
  | reserve i => exact h.reserve hstep
  | settle i => exact h.settle hexact hstep
  | ask i slot =>
    simp only [step] at hstep
    split at hstep
    · next hphase =>
      split at hstep
      · exact absurd hstep (by simp)
      · next hfree =>
        split at hstep
        · exact Option.some.inj hstep ▸ h
        · next hempty =>
          obtain rfl := Option.some.inj hstep
          exact h.asked hphase (fun j hj => hfree ⟨j, hj⟩) hempty
    · exact absurd hstep (by simp)
  | decline i =>
    simp only [step] at hstep
    split at hstep
    · next slot hphase =>
      obtain rfl := Option.some.inj hstep
      exact h.unchanged (by simp [Phase.slot]) (by rw [hphase]; rfl) (by simp)
    · exact absurd hstep (by simp)
  | read i most =>
    simp only [step] at hstep
    split at hstep
    · next slot hphase =>
      obtain rfl := Option.some.inj hstep
      exact h.unchanged (by simp [hphase, Phase.slot]) (by rw [hphase]; rfl) (by simp)
    · exact absurd hstep (by simp)
  | load i size =>
    simp only [step] at hstep
    split at hstep
    · next slot most hphase =>
      obtain rfl := Option.some.inj hstep
      refine h.unchanged (by simp [hphase, Phase.slot]) (by rw [hphase]; rfl) ?_
      rintro _ _ _ _ ⟨⟩
      have hown := h.counted_le_used i
      rwa [hphase] at hown
    · exact absurd hstep (by simp)
  | store i =>
    simp only [step] at hstep
    split at hstep
    · next slot size hphase =>
      obtain rfl := Option.some.inj hstep
      exact h.stored hphase
    · exact absurd hstep (by simp)

end Moves

/-! ## The budget -/

/-- **The count is the bytes held and those of the requests in flight, within the budget**, whatever
the order of the requests' steps: no slot is counted twice, no settle releases more than is counted,
and a failed load leaves the others' count and every slot as they were. -/
theorem column_cache_budget {ρ κ : Type} [Fintype ρ] [DecidableEq ρ] [DecidableEq κ] (budget : ℕ)
    (hbudget : budget ≤ u64Max) (acts : List (Act ρ κ)) (s : ColumnCache ρ κ)
    (hexact : Along (step budget) (Exact budget) empty acts)
    (hrun : run (step budget) empty acts = some s) :
    s.used = s.heldBytes + s.outstanding ∧ s.used ≤ budget ∧
      ((∀ i, (s.phase i).counted = 0) → s.used = s.heldBytes) ∧
      (s.held.map Prod.fst).Nodup ∧
      (∀ i j slot, (s.phase i).slot = some slot → (s.phase j).slot = some slot → i = j) ∧
      (∀ i slot, (s.phase i).slot = some slot → slot ∉ s.held.map Prod.fst) ∧
      (∀ i slot most size seen, s.phase i = .settling slot most size seen →
        most ≤ seen ∧ most ≤ s.used) ∧
      (∀ i slot most seen s', s.phase i = .settling slot most none seen → s.used = seen →
        step budget s (.settle i) = some s' →
          s' = { s with used := s.used - most, phase := Function.update s.phase i .idle } ∧
          s'.used = s.heldBytes + ∑ j ∈ Finset.univ.erase i, (s.phase j).counted) := by
  have hempty : Counted budget (empty : ColumnCache ρ κ) := by
    refine ⟨?_, Nat.zero_le _, List.nodup_nil, fun i j slot hi => absurd hi (by simp [empty, Phase.slot]),
      fun i slot hi => absurd hi (by simp [empty, Phase.slot]),
      fun i slot most size seen hi => absurd hi (by simp [empty])⟩
    simp [empty, heldBytes, outstanding, Phase.counted]
  have h : Counted budget s :=
    run_preserves_along (fun _ _ _ h hok hstep => h.preserved hok hstep) hempty hexact hrun
  have hmost (i : ρ) (slot : κ) (most : ℕ) (size : Option ℕ) (seen : ℕ)
      (hi : s.phase i = .settling slot most size seen) : most ≤ s.used := by
    have hown := counted_le_outstanding (s := s) (i := i)
    rw [hi] at hown
    exact hown.trans (h.used_eq ▸ Nat.le_add_left _ _)
  refine ⟨h.used_eq, h.le_budget, fun hnone => ?_, h.nodup, h.locked, h.empty,
    fun i slot most size seen hi => ⟨h.seen i slot most size seen hi, hmost i slot most size seen hi⟩,
    fun i slot most seen s' hi hseen hstep => ?_⟩
  · rw [h.used_eq, outstanding, Finset.sum_eq_zero fun i _ => hnone i]
    rfl
  · have hfits : saturatingAdd (seen - most) 0 = seen - most ∧ seen - most ≤ budget := by
      have hle : seen - most ≤ budget := (Nat.sub_le _ _).trans (hseen ▸ h.le_budget)
      exact ⟨by rw [saturatingAdd, Nat.add_zero]; exact min_eq_left (hle.trans hbudget), hle⟩
    simp only [step, hi, hseen, if_true, Option.getD_none, settle, hfits.1, hfits.2, decide_true] at hstep
    obtain rfl := Option.some.inj hstep
    refine ⟨by rw [hseen]; rfl, ?_⟩
    change seen - most = _
    have hsum := Finset.add_sum_erase _ (fun j => (s.phase j).counted) (Finset.mem_univ i)
    have heq := h.used_eq
    rw [outstanding, ← hsum, hi] at heq
    change s.used = s.heldBytes + (most + _) at heq
    omega

/-- A cache with ten bytes reserved for a load that failed. -/
def failing : ColumnCache Bool Bool :=
  { (((empty.moved false (.locked false)).moved false (.reserving false 10 0)).moved false
      (.loading false 10)).moved false (.settling false 10 none 10) with used := 10 }

/-- Ten bytes of sixteen are reserved for a load, and the load fails. -/
theorem column_cache_budget_failing :
    failing.used = failing.heldBytes + failing.outstanding ∧ failing.used ≤ 16 ∧
      ((∀ i, (failing.phase i).counted = 0) → failing.used = failing.heldBytes) ∧
      (failing.held.map Prod.fst).Nodup ∧
      (∀ i j slot, (failing.phase i).slot = some slot → (failing.phase j).slot = some slot → i = j) ∧
      (∀ i slot, (failing.phase i).slot = some slot → slot ∉ failing.held.map Prod.fst) ∧
      (∀ i slot most size seen, failing.phase i = .settling slot most size seen →
        most ≤ seen ∧ most ≤ failing.used) ∧
      (∀ i slot most seen s', failing.phase i = .settling slot most none seen → failing.used = seen →
        step 16 failing (.settle i) = some s' →
          s' = { failing with
            used := failing.used - most, phase := Function.update failing.phase i .idle } ∧
          s'.used = failing.heldBytes +
            ∑ j ∈ Finset.univ.erase i, (failing.phase j).counted) :=
  column_cache_budget 16 (by decide)
    [.ask false false, .read false 10, .reserve false, .load false none] failing
    (along_of_forall (fun _ _ _ _ _ _ _ _ _ => .inl (by decide)) _ _) rfl

/-- **A budget of the count's full range is not kept**: two values of 2⁶³ bytes are held, and the count
stops at 2⁶⁴ − 1. -/
theorem full_budget_saturates :
    (run (step u64Max) (empty : ColumnCache Bool Bool)
        [.ask false false, .read false 8, .reserve false, .load false (some (2 ^ 63)), .settle false,
          .store false, .ask true true, .read true 8, .reserve true, .load true (some (2 ^ 63)),
          .settle true, .store true]).map (fun s => (s.used, s.heldBytes, s.outstanding)) =
      some (2 ^ 64 - 1, 2 ^ 64, 0) := by
  decide

end ColumnCache

end QueryEngine
