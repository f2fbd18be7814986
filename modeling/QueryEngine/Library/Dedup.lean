import Mathlib

/-!
# Library/Dedup — keeping one of each

Two ways to drop what repeats.  `firsts` walks a list and keeps what a set of the elements kept so far does not
hold, which leaves one of each key; `destutter` walks a sorted list and drops what repeats the element before it,
which leaves what nothing of a lower rank repeats.  Where a pass reads its elements by an order of its own, that is one
of each key unless an element shadows one of another key (`existsUnique_least_iff`).
-/

namespace Dedup

section Seen

variable {α β : Type*}

/-- The elements that a set of the elements already kept, `seen`, does not hold. -/
def firsts (same : α → α → Bool) : List α → List α → List α
  | _, [] => []
  | seen, a :: as =>
    if seen.any fun s => same s a then firsts same seen as else a :: firsts same (a :: seen) as

theorem firsts_sublist (same : α → α → Bool) : ∀ seen as : List α, (firsts same seen as).Sublist as
  | _, [] => .slnil
  | seen, a :: as => by
    rw [firsts]
    split
    · exact (firsts_sublist same seen as).cons a
    · exact (firsts_sublist same (a :: seen) as).cons_cons a

/-- **One element of each key is kept**, unless one was kept before. -/
theorem firsts_spec {same : α → α → Bool} {key : α → β} :
    ∀ {seen as : List α} (_ : ∀ s ∈ seen ++ as, ∀ a ∈ as, same s a = true ↔ key s = key a),
      ((firsts same seen as).map key).Nodup ∧ (∀ s ∈ seen, ∀ b ∈ firsts same seen as, key s ≠ key b) ∧
        ∀ a ∈ as, key a ∈ (seen ++ firsts same seen as).map key
  | seen, [], _ => ⟨List.nodup_nil, fun _ _ => nofun, nofun⟩
  | seen, a :: as, hsame => by
    have hseen : (seen.any fun s => same s a) = true ↔ ∃ s ∈ seen, key s = key a := by
      rw [List.any_eq_true]
      exact exists_congr fun s => and_congr_right fun hs =>
        hsame s (List.mem_append_left _ hs) a List.mem_cons_self
    rw [firsts]
    split
    · next h =>
      obtain ⟨s, hs, hsa⟩ := hseen.mp h
      obtain ⟨hnodup, hnew, hcover⟩ := @firsts_spec same key seen as fun s hs b hb =>
        hsame s (by simp only [List.mem_append, List.mem_cons] at hs ⊢; tauto) b (List.mem_cons_of_mem _ hb)
      refine ⟨hnodup, hnew, List.forall_mem_cons.mpr ⟨?_, hcover⟩⟩
      exact hsa ▸ List.mem_map_of_mem (List.mem_append_left _ hs)
    · next h =>
      obtain ⟨hnodup, hnew, hcover⟩ := @firsts_spec same key (a :: seen) as fun s hs b hb =>
        hsame s (by simp only [List.mem_append, List.mem_cons] at hs ⊢; tauto) b (List.mem_cons_of_mem _ hb)
      refine ⟨?_, fun s hs => List.forall_mem_cons.mpr ⟨fun e => h (hseen.mpr ⟨s, hs, e⟩),
        hnew s (List.mem_cons_of_mem _ hs)⟩, List.forall_mem_cons.mpr ⟨?_, fun b hb => ?_⟩⟩
      · refine List.nodup_cons.mpr ⟨fun hmem => ?_, hnodup⟩
        obtain ⟨b, hb, hba⟩ := List.mem_map.mp hmem
        exact hnew a List.mem_cons_self b hb hba.symm
      · exact List.mem_map_of_mem (by simp)
      · have hb := hcover b hb
        simp only [List.map_append, List.map_cons, List.mem_append, List.mem_cons] at hb ⊢
        tauto

end Seen

section Merge

variable {α κ : Type*} [LinearOrder κ] {key : α → κ} {rank : α → ℕ}

/-- One element may stand before another: by key, and by rank among those of a key. -/
def Ranked (key : α → κ) (rank : α → ℕ) (a b : α) : Prop :=
  key a < key b ∨ key a = key b ∧ rank a ≤ rank b

/-- An element that does not repeat the one kept before it: another key, or of the same rank. -/
def Fresh (key : α → κ) (rank : α → ℕ) (a b : α) : Prop := ¬(rank b ≠ rank a ∧ key b = key a)

instance : DecidableRel (Fresh key rank) := fun a b => by unfold Fresh; infer_instance

theorem Ranked.le {a b : α} (h : Ranked key rank a b) : key a ≤ key b := by
  rcases h with h | ⟨h, -⟩
  · exact h.le
  · exact h.le

theorem Ranked.rank_le {a b : α} (h : Ranked key rank a b) (e : key a = key b) : rank a ≤ rank b := by
  rcases h with h | ⟨-, h⟩
  · exact absurd e h.ne
  · exact h

theorem mem_destutter'_fresh : ∀ {as : List α} {a : α} (_ : (a :: as).Pairwise (Ranked key rank))
    {b : α}, b ∈ as.destutter' (Fresh key rank) a ↔
      b ∈ a :: as ∧ ∀ c ∈ a :: as, key c = key b → rank b ≤ rank c
  | [], a, _, b => by
    simp only [List.destutter'_nil, List.mem_singleton, forall_eq]
    exact ⟨fun h => ⟨h, fun _ => h ▸ le_rfl⟩, And.left⟩
  | c :: as, a, h, b => by
    obtain ⟨hac, has⟩ := List.pairwise_cons.mp h
    obtain ⟨hca, htail⟩ := List.pairwise_cons.mp has
    have hfirst (d : α) (hd : d ∈ a :: c :: as) (e : key d = key a) : rank a ≤ rank d := by
      rcases List.mem_cons.mp hd with rfl | hd
      · exact le_rfl
      · exact (hac d hd).rank_le e.symm
    by_cases hfresh : Fresh key rank a c
    · rw [List.destutter'_cons_pos as hfresh, List.mem_cons, mem_destutter'_fresh has]
      constructor
      · rintro (rfl | ⟨hb, hmin⟩)
        · exact ⟨List.mem_cons_self, hfirst⟩
        · refine ⟨List.mem_cons_of_mem _ hb, fun d hd e => ?_⟩
          rcases List.mem_cons.mp hd with rfl | hd
          · -- the head shares the key of what follows only at the next element's rank
            have hdc : key c = key d := by
              refine le_antisymm ?_ (hac c List.mem_cons_self).le
              rw [e]
              rcases List.mem_cons.mp hb with rfl | hb
              · exact le_rfl
              · exact (hca b hb).le
            have hrank : rank c = rank d := by
              by_contra hne
              exact hfresh ⟨hne, hdc⟩
            rw [← hrank]
            exact hmin c List.mem_cons_self (hdc.trans e)
          · exact hmin d hd e
      · rintro ⟨hb, hmin⟩
        rcases List.mem_cons.mp hb with rfl | hb
        · exact .inl rfl
        · exact .inr ⟨hb, fun d hd => hmin d (List.mem_cons_of_mem _ hd)⟩
    · obtain ⟨hne, hkey⟩ := not_not.mp hfresh
      have hlt : rank a < rank c :=
        lt_of_le_of_ne (hfirst c (by simp) hkey) (Ne.symm hne)
      have hskip : (a :: as).Pairwise (Ranked key rank) :=
        List.pairwise_cons.mpr ⟨fun d hd => hac d (List.mem_cons_of_mem _ hd), htail⟩
      rw [List.destutter'_cons_neg as hfresh, mem_destutter'_fresh hskip]
      constructor
      · rintro ⟨hb, hmin⟩
        refine ⟨by simp only [List.mem_cons] at hb ⊢; tauto, fun d hd e => ?_⟩
        simp only [List.mem_cons] at hd
        rcases hd with rfl | rfl | hd
        · exact hmin d List.mem_cons_self e
        · exact (hmin a List.mem_cons_self (hkey.symm.trans e)).trans hlt.le
        · exact hmin d (List.mem_cons_of_mem _ hd) e
      · rintro ⟨hb, hmin⟩
        have hbc : b ≠ c := fun e => absurd (hmin a List.mem_cons_self (e ▸ hkey.symm)) (by
          rw [e]
          exact not_le.mpr hlt)
        refine ⟨by simp only [List.mem_cons] at hb ⊢; tauto, fun d hd e => ?_⟩
        exact hmin d (by simp only [List.mem_cons] at hd ⊢; tauto) e

/-- **A pass over a sorted list keeps, of each key, the elements of its least rank.** -/
theorem mem_destutter_fresh {as : List α} (h : as.Pairwise (Ranked key rank)) {b : α} :
    b ∈ as.destutter (Fresh key rank) ↔ b ∈ as ∧ ∀ c ∈ as, key c = key b → rank b ≤ rank c := by
  cases as with
  | nil => simp
  | cons a as => exact mem_destutter'_fresh h

end Merge

section Comparing

variable {α β : Type*} [LinearOrder α] [LinearOrder β]

/-- A comparison allows the order it is of. -/
theorem isLE_cmp {a b : α} : (cmp a b).isLE = true ↔ a ≤ b := by
  rcases lt_trichotomy a b with h | rfl | h
  · simp [h.cmp_eq_lt, h.le]
  · simp
  · simp [h.cmp_eq_gt, h]

/-- **Comparing by one thing and then by another** compares the pair. -/
theorem then_cmp (a b : α) (x y : β) :
    (cmp a b).then (cmp x y) = cmp (toLex (a, x)) (toLex (b, y)) := by
  have hlt : toLex (a, x) < toLex (b, y) ↔ a < b ∨ a = b ∧ x < y := Prod.Lex.toLex_lt_toLex
  have hgt : toLex (b, y) < toLex (a, x) ↔ b < a ∨ b = a ∧ y < x := Prod.Lex.toLex_lt_toLex
  rcases lt_trichotomy a b with h | rfl | h
  · rw [h.cmp_eq_lt, (hlt.mpr (.inl h)).cmp_eq_lt]
    rfl
  · rw [cmp_self_eq_eq, Ordering.eq_then]
    rcases lt_trichotomy x y with h | rfl | h
    · rw [h.cmp_eq_lt, (hlt.mpr (.inr ⟨rfl, h⟩)).cmp_eq_lt]
    · rw [cmp_self_eq_eq, cmp_self_eq_eq]
    · rw [h.cmp_eq_gt, (hgt.mpr (.inr ⟨rfl, h⟩)).cmp_eq_gt]
  · rw [h.cmp_eq_gt, (hgt.mpr (.inl h)).cmp_eq_gt]
    rfl

/-- A comparison by a linear order. -/
def order (a b : α) : Ordering := cmp a b

theorem order_eq_eq_iff {a b : α} : order a b = .eq ↔ a = b := cmp_eq_eq_iff a b

/-- However it is decided, the comparison is that of the order. -/
theorem order_eq_cmp {a b : α} [h : DecidableLT α] : order a b = @cmp α _ h a b := by
  unfold order
  congr

/-- The first of a list of comparisons that tells two things apart. -/
def firstApart (orders : List Ordering) : Ordering := (orders.find? (· ≠ .eq)).getD .eq

/-- Lists compare element by element. -/
theorem cmp_cons (a b : α) (as bs : List α) :
    cmp (a :: as) (b :: bs) = (cmp a b).then (cmp as bs) := by
  simp only [cmp, cmpUsing, List.cons_lt_cons_iff]
  rcases lt_trichotomy a b with h | rfl | h
  · simp [h]
  · simp
  · simp [h, h.ne', h.not_gt]

theorem firstApart_cons (o : Ordering) (orders : List Ordering) :
    firstApart (o :: orders) = o.then (firstApart orders) := by
  cases o <;> rfl

end Comparing

section Sorting

variable {α : Type*}

/-- Two orders that agree on a list's elements sort it alike. -/
theorem insertionSort_congr {r s : α → α → Prop} [DecidableRel r] [DecidableRel s] :
    ∀ {as : List α} (_ : ∀ a ∈ as, ∀ b ∈ as, r a b ↔ s a b),
      as.insertionSort r = as.insertionSort s
  | [], _ => rfl
  | a :: as, h => by
    rw [List.insertionSort_cons, List.insertionSort_cons,
      insertionSort_congr fun b hb c hc => h b (List.mem_cons_of_mem _ hb) c (List.mem_cons_of_mem _ hc)]
    refine insert_congr fun b hb => h a List.mem_cons_self b (List.mem_cons_of_mem _ ?_)
    exact (List.perm_insertionSort s as).mem_iff.mp hb
where
  insert_congr {a : α} : ∀ {bs : List α} (_ : ∀ b ∈ bs, r a b ↔ s a b),
      bs.orderedInsert r a = bs.orderedInsert s a
    | [], _ => rfl
    | b :: bs, h => by
      rw [List.orderedInsert, List.orderedInsert,
        insert_congr fun c hc => h c (List.mem_cons_of_mem _ hc)]
      simp only [h b List.mem_cons_self]

/-- Two relations that agree on a list's elements drop the same repeats. -/
theorem destutter_congr {r s : α → α → Prop} [DecidableRel r] [DecidableRel s] {as : List α}
    (h : ∀ a ∈ as, ∀ b ∈ as, r a b ↔ s a b) : as.destutter r = as.destutter s := by
  cases as with
  | nil => rfl
  | cons a as => exact destutter'_congr h
where
  destutter'_congr : ∀ {as : List α} {a : α} (_ : ∀ b ∈ a :: as, ∀ c ∈ a :: as, r b c ↔ s b c),
      as.destutter' r a = as.destutter' s a
    | [], _, _ => rfl
    | b :: as, a, h => by
      have hab := h a List.mem_cons_self b (by simp)
      have hskip : as.destutter' r a = as.destutter' s a := destutter'_congr fun c hc d hd =>
        h c (by simp only [List.mem_cons] at hc ⊢; tauto) d (by simp only [List.mem_cons] at hd ⊢; tauto)
      rw [List.destutter', List.destutter', destutter'_congr fun c hc d hd =>
        h c (List.mem_cons_of_mem _ hc) d (List.mem_cons_of_mem _ hd), hskip]
      simp only [hab]

end Sorting

section Once

variable {α β : Type*}

/-- **Each value is taken exactly once** exactly when each is taken by exactly one element. -/
theorem once_iff {f : α → β} {as bs : List α} (has : as.Nodup) (hsub : as ⊆ bs) :
    ((as.map f).Nodup ∧ ∀ b ∈ bs, f b ∈ as.map f) ↔ ∀ b ∈ bs, ∃! a, a ∈ as ∧ f a = f b := by
  constructor
  · rintro ⟨hnodup, hcover⟩ b hb
    obtain ⟨a, ha, hab⟩ := List.mem_map.mp (hcover b hb)
    refine ⟨a, ⟨ha, hab⟩, fun c hc => ?_⟩
    exact List.inj_on_of_nodup_map hnodup hc.1 ha (hc.2.trans hab.symm)
  · intro h
    refine ⟨has.map_on fun x hx y hy e => ?_, fun b hb => ?_⟩
    · obtain ⟨a, -, hunique⟩ := h x (hsub hx)
      rw [hunique x ⟨hx, rfl⟩, hunique y ⟨hy, e.symm⟩]
    · obtain ⟨a, ⟨ha, hab⟩, -⟩ := h b hb
      exact List.mem_map.mpr ⟨a, ha, hab⟩

/-- What several lists hold, each element with the place of its list, is held once. -/
theorem nodup_zipIdx_flatMap {f : α → List β} {as : List α} (h : ∀ a ∈ as, (f a).Nodup) :
    (as.zipIdx.flatMap fun p => (f p.1).map fun b => (p.2, b)).Nodup := by
  rw [List.nodup_flatMap]
  refine ⟨fun p hp => (h p.1 (List.mem_of_getElem? (List.mem_zipIdx_iff_getElem?.mp hp))).map fun a b e =>
    (Prod.mk.inj e).2, ?_⟩
  have hplaces : (as.zipIdx.map Prod.snd).Nodup := by
    rw [List.zipIdx_map_snd]
    exact List.nodup_range'
  refine (List.pairwise_map.mp hplaces).imp fun {p q} hne => ?_
  intro r hp hq
  obtain ⟨_, -, rfl⟩ := List.mem_map.mp hp
  obtain ⟨_, -, hr⟩ := List.mem_map.mp hq
  exact hne (Prod.mk.inj hr).1.symm

end Once

section Readings

variable {α κ σ : Type*} {as : List α} {rank : α → ℕ} {key : α → κ} {order : α → σ}

/-- An element that reads like one of a lower rank, whose key is another. -/
def Shadowed (as : List α) (rank : α → ℕ) (key : α → κ) (order : α → σ) (a : α) : Prop :=
  ∃ b ∈ as, rank b < rank a ∧ order b = order a ∧ key b ≠ key a

/-- Nothing shadows an element that is the least of its reading. -/
theorem not_shadowed_of_least {a : α} (h : ∀ b ∈ as, order b = order a → rank a ≤ rank b) :
    ¬Shadowed as rank key order a := by
  rintro ⟨b, hb, hlt, hread, -⟩
  exact absurd (h b hb hread) (not_le.mpr hlt)

/-- **The least of a reading has the key of what it is read like**, where that is not shadowed. -/
theorem exists_least {a : α} (ha : a ∈ as) (hclear : ¬Shadowed as rank key order a) :
    ∃ b ∈ as, key b = key a ∧ order b = order a ∧ ∀ c ∈ as, order c = order b → rank b ≤ rank c := by
  by_cases hleast : ∀ c ∈ as, order c = order a → rank a ≤ rank c
  · exact ⟨a, ha, rfl, rfl, hleast⟩
  · push Not at hleast
    obtain ⟨c, hc, hread, hlt⟩ := hleast
    obtain ⟨b, ⟨hb, hbread⟩, hmin⟩ := Set.exists_min_image {d | d ∈ as ∧ order d = order a} rank
      ((List.finite_toSet as).subset fun _ h => h.1) ⟨c, hc, hread⟩
    have hba : rank b < rank a := (hmin c ⟨hc, hread⟩).trans_lt hlt
    refine ⟨b, hb, ?_, hbread, fun d hd e => hmin d ⟨hd, e.trans hbread⟩⟩
    by_contra hkey
    exact hclear ⟨b, hb, hba, hbread, hkey⟩

/-- **Of each key one element is the least of its reading** exactly when some element of each key is not shadowed, and
those that are not read alike. -/
theorem existsUnique_least_iff
    (honce : ∀ a ∈ as, ∀ b ∈ as, key a = key b → rank a = rank b → a = b) :
    (∀ a ∈ as, ∃! b, (b ∈ as ∧ ∀ c ∈ as, order c = order b → rank b ≤ rank c) ∧ key b = key a) ↔
      (∀ a ∈ as, ∃ b ∈ as, key b = key a ∧ ¬Shadowed as rank key order b) ∧
      ∀ a ∈ as, ∀ b ∈ as, key a = key b → ¬Shadowed as rank key order a → ¬Shadowed as rank key order b →
        order a = order b := by
  constructor
  · refine fun h => ⟨fun a ha => ?_, fun a ha b hb hkey hclear hclear' => ?_⟩
    · obtain ⟨b, ⟨⟨hb, hleast⟩, hkey⟩, -⟩ := h a ha
      exact ⟨b, hb, hkey, not_shadowed_of_least hleast⟩
    · obtain ⟨c, hc, hca, hread, hleast⟩ := exists_least ha hclear
      obtain ⟨d, hd, hdb, hread', hleast'⟩ := exists_least hb hclear'
      have hsame : c = d := (h a ha).unique ⟨⟨hc, hleast⟩, hca⟩ ⟨⟨hd, hleast'⟩, hdb.trans hkey.symm⟩
      rw [← hread, hsame, hread']
  · rintro ⟨hsome, halike⟩ a ha
    obtain ⟨b, hb, hba, hclear⟩ := hsome a ha
    obtain ⟨c, hc, hcb, -, hleast⟩ := exists_least hb hclear
    refine ⟨c, ⟨⟨hc, hleast⟩, hcb.trans hba⟩, ?_⟩
    rintro d ⟨⟨hd, hleast'⟩, hda⟩
    have hkey : key d = key c := hda.trans (hcb.trans hba).symm
    have hread : order d = order c :=
      halike d hd c hc hkey (not_shadowed_of_least hleast') (not_shadowed_of_least hleast)
    exact honce d hd c hc hkey (le_antisymm (hleast' c hc hread.symm) (hleast d hd hread))

end Readings

end Dedup
