import QueryEngine.Library.Segments
import QueryEngine.Scan.Pairs

/-!
# Scan/PairSets — a set of pairs is built and asked in bounds

`Scan/Pairs` reads the bitmaps of a set with total arithmetic.  Here every difference, sum and index of
building and asking one is checked, and answers nothing where the program would stop: none is ever missed,
so the checked set is the set (`PairSet.newChecked_eq`, `PairSet.containsChecked_new`).
-/

open Lookup Bitmap Segments

namespace QueryEngine

namespace DensePairs

/-! ## The checked steps -/

/-- How many bits a group takes: its last second component less its first, and one. -/
def widthChecked (group : List Pair) : Option (Option ℕ) :=
  group.getLast?.bind fun greatest =>
    group.head?.bind fun least =>
      (subChecked greatest.2.toNat least.2.toNat).map fun gap => checkedAdd gap 1

/-- The bits of one group more, once those before it are counted. -/
def countChecked (total : Option ℕ) (group : List Pair) : Option (Option ℕ) :=
  match total with
  | none => some none
  | some total => (widthChecked group).map fun w => w.bind (checkedAdd total)

/-- One group's slot written at its first component's place. -/
def placeChecked (first : BitVec 64) (placed : List DenseSlot × ℕ) (group : List Pair) :
    Option (List DenseSlot × ℕ) :=
  (widthChecked group).bind fun w? =>
    w?.bind fun w =>
      (subChecked (key group).toNat first.toNat).bind fun place =>
        if place < placed.1.length then
          (addChecked 64 placed.2 w).map fun next => (placed.1.set place ⟨placed.2, low group, w⟩, next)
        else none

/-- One pair's bit set. -/
def markChecked (first : BitVec 64) (slots : List DenseSlot) (words : List (BitVec 64)) (pair : Pair) :
    Option (List (BitVec 64)) :=
  (subChecked pair.1.toNat first.toNat).bind fun place =>
    slots[place]?.bind fun slot =>
      (subChecked pair.2.toNat slot.low.toNat).bind fun offset =>
        (addChecked 64 slot.start offset).bind fun bit =>
          if bit / 64 < words.length then some (setBit words bit) else none

/-- The set of some sorted and unique pairs, every step of it checked. -/
def buildChecked (pairs : List Pair) : Option (Option DensePairs) :=
  match pairs.head?, pairs.getLast? with
  | some (first, _), some (last, _) =>
    (subChecked last.toNat first.toNat).bind fun reach =>
      if maxSlots ≤ reach then some none
      else
        (addChecked 64 reach 1).bind fun span =>
          (groupsOf pairs).foldlM countChecked (some 0) |>.bind fun
            | none => some none
            | some total =>
              let slotBytes := saturatingMul span slotSize
              let denseBytes := saturatingAdd slotBytes (saturatingMul ((total + 63) / 64) 8)
              if saturatingMul pairs.length keySize < denseBytes then some none
              else
                ((groupsOf pairs).foldlM (placeChecked first) (List.replicate span ⟨0, 0, 0⟩, 0)).bind
                  fun placed =>
                    (pairs.foldlM (markChecked first placed.1) (zeros total)).map fun bits =>
                      some ⟨first, placed.1, bits, pairs.length⟩
  | _, _ => some (some ⟨0, [], [], 0⟩)

/-- Whether a pair is in the set, every step checked. -/
def containsChecked (dense : DensePairs) (a b : BitVec 64) : Option Bool :=
  match dense.slots[(a - dense.first).toNat]? with
  | none => some false
  | some slot =>
    let offset := (b - slot.low).toNat
    if slot.width ≤ offset then some false
    else
      (addChecked 64 slot.start offset).bind fun bit =>
        dense.bits[bit / 64]?.map fun word : BitVec 64 => (word >>> (bit % 64)) &&& 1#64 == 1#64

/-- The heap bytes a dense set holds. -/
def bytes (dense : DensePairs) : ℕ := dense.slots.length * slotSize + dense.bits.length * 8

/-! ## No step is missed -/

section Steps

variable {p : Pair} {pairs : List Pair} {g : List Pair}

/-- **A group's width never goes below zero.** -/
theorem widthChecked_eq (h : Sorted pairs) (hg : g ∈ groupsOf pairs) :
    widthChecked g = some (width g) := by
  obtain ⟨head, rest, rfl⟩ := List.exists_cons_of_ne_nil (List.ne_nil_of_mem_splitBy hg)
  have hgap := (mem_group h hg List.mem_cons_self).2.2
  rw [List.getLastD_eq_getLast?, List.getLast?_eq_some_getLast (by simp), Option.getD_some] at hgap
  rw [widthChecked, width, low, List.getLastD_eq_getLast?, List.getLast?_eq_some_getLast (by simp),
    List.head?_cons, Option.bind_some, Option.bind_some, subChecked_of_le hgap]
  rfl

/-- Counting the groups' bits goes on as the unchecked count does. -/
theorem foldlM_countChecked (h : Sorted pairs) : ∀ {groups : List (List Pair)} (start : ℕ),
    (∀ g ∈ groups, g ∈ groupsOf pairs) → groups.foldlM countChecked (some start) =
      some (groups.foldlM (fun total group => (width group).bind (checkedAdd total)) start)
  | [], _, _ => rfl
  | g :: groups, start, hmem => by
    have hstop : ∀ gs : List (List Pair), gs.foldlM countChecked none = some none := fun gs => by
      induction gs with
      | nil => rfl
      | cons _ _ ih => exact ih
    rw [List.foldlM_cons, List.foldlM_cons, countChecked, widthChecked_eq h (hmem g List.mem_cons_self)]
    change List.foldlM countChecked ((width g).bind (checkedAdd start)) groups = _
    cases (width g).bind (checkedAdd start) with
    | none => exact hstop groups
    | some next => exact foldlM_countChecked h next fun g' hg' => hmem g' (List.mem_cons_of_mem _ hg')

/-- **The bits counted are countable.** -/
theorem total_lt : ∀ {groups : List (List Pair)} {start total : ℕ}, start < 2 ^ 64 →
    groups.foldlM (fun total group => (width group).bind (checkedAdd total)) start = some total →
      total < 2 ^ 64
  | [], _, _, hstart, h => Option.some.inj h ▸ hstart
  | g :: groups, start, total, _, h => by
    rw [List.foldlM_cons] at h
    obtain ⟨next, hnext, hrest⟩ := Option.bind_eq_some_iff.mp h
    obtain ⟨w, -, hadd⟩ := Option.bind_eq_some_iff.mp hnext
    refine total_lt ?_ hrest
    unfold checkedAdd at hadd
    split at hadd
    · next hlt => exact Option.some.inj hadd ▸ hlt
    · exact absurd hadd (by simp)

/-- **Every group's slot is among the slots, and its bits among those counted.** -/
theorem foldlM_placeChecked (h : Sorted pairs) (first : BitVec 64) : ∀ (groups : List (List Pair))
    (slots : List DenseSlot) (start : ℕ), (∀ g ∈ groups, g ∈ groupsOf pairs ∧ (width g).isSome ∧
      first.toNat ≤ (key g).toNat ∧ (key g).toNat - first.toNat < slots.length) →
    start + (groups.map extent).sum < 2 ^ 64 →
      groups.foldlM (placeChecked first) (slots, start) = some (groups.foldl (place first) (slots, start))
  | [], _, _, _, _ => rfl
  | g :: groups, slots, start, hgroups, hbits => by
    obtain ⟨hg, hwidth, hfirst, hslot⟩ := hgroups g List.mem_cons_self
    rw [List.map_cons, List.sum_cons] at hbits
    obtain ⟨w, hw⟩ := Option.isSome_iff_exists.mp hwidth
    have hextent : extent g = w := by rw [extent, hw, Option.getD_some]
    have hplace : placeChecked first (slots, start) g = some (place first (slots, start) g) := by
      rw [placeChecked, widthChecked_eq h hg, Option.bind_some, hw, Option.bind_some,
        subChecked_of_le hfirst, Option.bind_some, if_pos hslot, addChecked_of_lt (by omega), place, hw]
      rfl
    rw [List.foldlM_cons, hplace, List.foldl_cons]
    refine foldlM_placeChecked h first groups _ _ (fun g' hg' => ?_) ?_
    · rw [List.length_set]
      exact hgroups g' (List.mem_cons_of_mem _ hg')
    · change start + extent g + _ < _
      omega

/-- **Every pair's bit is among the words.** -/
theorem foldlM_markChecked {first : BitVec 64} {slots : List DenseSlot} : ∀ {pairs : List Pair}
    {words : List (BitVec 64)}, (∀ q ∈ pairs, ∃ slot, first.toNat ≤ q.1.toNat ∧
      slots[q.1.toNat - first.toNat]? = some slot ∧ slot.low.toNat ≤ q.2.toNat ∧
      bitOf first slots q < 2 ^ 64 ∧ bitOf first slots q / 64 < words.length) →
    pairs.foldlM (markChecked first slots) words =
      some ((pairs.map (bitOf first slots)).foldl setBit words)
  | [], _, _ => rfl
  | q :: pairs, words, h => by
    obtain ⟨slot, hfirst, hslot, hlow, hbit, hword⟩ := h q List.mem_cons_self
    have hbitOf : bitOf first slots q = slot.start + (q.2.toNat - slot.low.toNat) := by
      rw [bitOf, hslot]
    have hmark : markChecked first slots words q = some (setBit words (bitOf first slots q)) := by
      rw [hbitOf] at hbit hword
      rw [markChecked, subChecked_of_le hfirst, Option.bind_some, hslot, Option.bind_some,
        subChecked_of_le hlow, Option.bind_some, addChecked_of_lt hbit, Option.bind_some, if_pos hword,
        hbitOf]
    rw [List.foldlM_cons, hmark]
    refine foldlM_markChecked fun q' hq' => ?_
    rw [length_setBit]
    exact h q' (List.mem_cons_of_mem _ hq')

end Steps

/-! ## Built and asked in bounds -/

section Built

variable {p : Pair} {pairs : List Pair}

@[simp] theorem length_foldl_place (first : BitVec 64) (groups : List (List Pair))
    (placed : List DenseSlot × ℕ) : (groups.foldl (place first) placed).1.length = placed.1.length := by
  induction groups generalizing placed with
  | nil => rfl
  | cons g groups ih => rw [List.foldl_cons, ih, place, List.length_set]

@[simp] theorem length_foldl_setBit (places : List ℕ) (words : List (BitVec 64)) :
    (places.foldl setBit words).length = words.length := by
  induction places generalizing words with
  | nil => rfl
  | cons i places ih => rw [List.foldl_cons, ih, length_setBit]

/-- **Building a set misses no check.** -/
theorem buildChecked_eq (h : Sorted pairs) : buildChecked pairs = some (build pairs) := by
  cases pairs with
  | nil => rfl
  | cons p pairs =>
    have hlast := List.getLast?_eq_some_getLast (l := p :: pairs) (by simp)
    have hle : p.1.toNat ≤ ((p :: pairs).getLast (by simp)).1.toNat := by
      rcases rel_head h (List.getLast_mem (by simp)) with heq | hlt | ⟨heq, -⟩
      · rw [heq]
      · exact le_of_lt (BitVec.lt_def.mp hlt)
      · rw [heq]
    unfold buildChecked build
    rw [List.head?_cons, hlast]
    dsimp only
    rw [subChecked_of_le hle, Option.bind_some]
    split
    · rfl
    next hreach =>
    have hspan : ((p :: pairs).getLast (by simp)).1.toNat - p.1.toNat + 1 < 2 ^ 64 := by
      rw [maxSlots] at hreach
      omega
    rw [addChecked_of_lt hspan, Option.bind_some, foldlM_countChecked h 0 fun g hg => hg, Option.bind_some]
    cases htotal : (groupsOf (p :: pairs)).foldlM
        (fun total group => (width group).bind (checkedAdd total)) 0 with
    | none => rfl
    | some total =>
      have hbits := total_lt (by decide) htotal
      obtain ⟨hwidths, hsum⟩ := foldlM_total _ htotal
      rw [Nat.zero_add] at hsum
      have hlaid := laid_place h
      dsimp only [Option.bind_some]
      split
      · rfl
      rw [foldlM_placeChecked h p.1 _ _ _ (fun g hg => ?_) (by omega), Option.bind_some,
        foldlM_markChecked fun q hq => ?_]
      · rfl
      · obtain ⟨slot, hfirst, hslot, hlow⟩ := exists_slot h hlaid hq
        have hlt := bitOf_lt h hlaid hwidths hq
        refine ⟨slot, hfirst, hslot, hlow, lt_trans hlt (hsum ▸ hbits), ?_⟩
        rw [zeros, List.length_replicate]
        omega
      · have hin := key_in_span h hg
        refine ⟨hg, hwidths g hg, hin.1, ?_⟩
        rw [List.length_replicate]
        omega

/-- The bits of a set are countable. -/
theorem sum_extent_lt {dense : DensePairs} (hbuild : build (p :: pairs) = some dense) :
    ((groupsOf (p :: pairs)).map extent).sum < 2 ^ 64 := by
  unfold build at hbuild
  rw [List.head?_cons, List.getLast?_eq_some_getLast (by simp)] at hbuild
  dsimp only at hbuild
  split at hbuild
  · exact absurd hbuild (by simp)
  obtain ⟨total, htotal, -⟩ := Option.bind_eq_some_iff.mp hbuild
  have hlt := total_lt (by decide) htotal
  rwa [(foldlM_total _ htotal).2, Nat.zero_add] at hlt

/-- **Asking a set misses no check**: a slot's bits are all among the words. -/
theorem containsChecked_build (h : Sorted pairs) {dense : DensePairs} (hbuild : build pairs = some dense)
    (a b : BitVec 64) : containsChecked dense a b = some (contains dense a b) := by
  unfold containsChecked contains
  cases hslot : dense.slots[(a - dense.first).toNat]? with
  | none => rfl
  | some slot =>
    dsimp only
    split
    · rfl
    next hwidth =>
    cases pairs with
    | nil =>
      obtain rfl := Option.some.inj hbuild
      exact absurd hslot (by simp)
    | cons p pairs =>
      obtain ⟨hlaid, -, -, hbits⟩ := build_eq_some h hbuild
      obtain ⟨g, hg, hkey⟩ := hlaid.elsewhere _ slot hslot (by omega)
      obtain ⟨i, hi, rfl⟩ := List.mem_iff_getElem.mp hg
      have hat := hlaid.at_key i hi
      rw [hkey, hslot] at hat
      obtain rfl := Option.some.inj hat
      have hle := @sum_take_add_le ((groupsOf (p :: pairs)).map extent) i
        ((groupsOf (p :: pairs)).map extent).length (by simpa using hi) (by simpa using hi)
      rw [List.take_length, List.getElem_map] at hle
      have hlength : dense.bits.length = (((groupsOf (p :: pairs)).map extent).sum + 63) / 64 := by
        rw [hbits, ofPlaces, length_foldl_setBit, zeros, List.length_replicate]
      have htotal := sum_extent_lt hbuild
      dsimp only at hwidth ⊢
      rw [addChecked_of_lt (by omega), Option.bind_some, testBit,
        List.getElem?_eq_getElem (by rw [hlength]; omega)]
      rfl

/-- **A dense set is no larger than its pairs' keys.** -/
theorem bytes_build_le {dense : DensePairs} (hbuild : build pairs = some dense) :
    dense.bytes ≤ pairs.length * keySize := by
  unfold build at hbuild
  split at hbuild
  · dsimp only at hbuild
    split at hbuild
    · exact absurd hbuild (by simp)
    next hreach =>
    obtain ⟨total, htotal, hbuild⟩ := Option.bind_eq_some_iff.mp hbuild
    have hlt := total_lt (by decide) htotal
    split at hbuild
    · exact absurd hbuild (by simp)
    next hsize =>
    obtain rfl := Option.some.inj hbuild
    rw [maxSlots] at hreach
    rw [bytes, length_foldl_place, List.length_replicate, ofPlaces, length_foldl_setBit, zeros,
      List.length_replicate]
    -- neither the slots' bytes nor the bitmaps' come near the largest count
    simp only [saturatingMul, saturatingAdd, slotSize, keySize] at hsize ⊢
    omega
  · obtain rfl := Option.some.inj hbuild
    exact Nat.zero_le _

end Built

end DensePairs

/-! ## Checked sets -/

namespace PairSet

/-- The sorted and unique pairs of a set. -/
def unique (pairs : List Pair) : List Pair := (sortDedup (pairs.map toLex)).map ofLex

/-- The set of some pairs, every step of it checked. -/
def newChecked (pairs : List Pair) : Option PairSet :=
  (DensePairs.buildChecked (unique pairs)).map fun
    | some bitmaps => .dense bitmaps
    | none => .hashed ((unique pairs).map fun p => pack16 p.1 p.2)

/-- Whether a pair is in a set, every step checked. -/
def containsChecked : PairSet → BitVec 64 → BitVec 64 → Option Bool
  | dense pairs, a, b => pairs.containsChecked a b
  | hashed keys, a, b => some (decide (pack16 a b ∈ keys))

variable {pairs : List Pair}

theorem newChecked_eq (pairs : List Pair) : newChecked pairs = some (new pairs) := by
  rw [newChecked, unique, DensePairs.buildChecked_eq (sorted_pairs pairs), Option.map_some]
  rfl

/-- A set of bitmaps is one the pairs were found dense enough for. -/
theorem new_eq_dense {bitmaps : DensePairs} (h : new pairs = dense bitmaps) :
    DensePairs.build (unique pairs) = some bitmaps := by
  unfold new at h
  dsimp only at h
  split at h
  · next built hbuild =>
    obtain rfl := PairSet.dense.inj h
    exact hbuild
  · exact absurd h (by simp)

theorem new_eq_hashed {keys : List (BitVec 128)} (h : new pairs = hashed keys) :
    keys = (unique pairs).map fun p => pack16 p.1 p.2 := by
  unfold new at h
  dsimp only at h
  split at h
  · exact absurd h (by simp)
  · exact (PairSet.hashed.inj h).symm

/-- The checked question is the question. -/
theorem containsChecked_new (pairs : List Pair) (a b : BitVec 64) :
    (new pairs).containsChecked a b = some ((new pairs).contains a b) := by
  unfold new
  dsimp only
  split
  · next dense h => exact DensePairs.containsChecked_build (sorted_pairs pairs) h a b
  · rfl

/-- A set's pairs are those given, each counted once. -/
theorem length_unique (pairs : List Pair) : (unique pairs).length = pairs.dedup.length := by
  refine List.Perm.length_eq ((List.perm_ext_iff_of_nodup ?_ pairs.nodup_dedup).mpr fun p => ?_)
  · refine (sorted_pairs pairs).imp fun h heq => ?_
    rw [heq] at h
    exact h.elim (lt_irrefl _) fun h => lt_irrefl _ h.2
  · rw [List.mem_dedup]
    exact mem_pairs

/-- **A set is empty when it was made of nothing.** -/
theorem isEmpty_new (pairs : List Pair) : (new pairs).isEmpty = true ↔ pairs = [] := by
  have hunique : unique pairs = [] ↔ pairs = [] := by
    rw [unique, List.map_eq_nil_iff, sortDedup_eq_nil, List.map_eq_nil_iff]
  rw [← hunique]
  cases hset : new pairs with
  | dense bitmaps =>
    rw [isEmpty, beq_iff_eq, DensePairs.len_build (new_eq_dense hset), List.length_eq_zero_iff]
  | hashed keys =>
    rw [isEmpty, List.isEmpty_iff, new_eq_hashed hset, List.map_eq_nil_iff]

/-- **A set of pairs is exact.**  Building one and asking it overflow nowhere and index nothing out of bounds;
it holds the pairs given and no others, as bitmaps or as packed keys; and it is bitmaps only where their
bytes are at most those of the pairs' keys. -/
theorem pairSet_exact (pairs : List Pair) : ∃ set, newChecked pairs = some set ∧
    (∀ a b, set.containsChecked a b = some (decide ((a, b) ∈ pairs))) ∧
    (∀ a b, (hashed ((unique pairs).map fun p => pack16 p.1 p.2)).containsChecked a b =
      some (decide ((a, b) ∈ pairs))) ∧
    ∀ bitmaps, set = dense bitmaps → bitmaps.bytes ≤ pairs.dedup.length * DensePairs.keySize := by
  have hdecide {found : Bool} {a b : BitVec 64} (h : found = true ↔ (a, b) ∈ pairs) :
      some found = some (decide ((a, b) ∈ pairs)) := by
    rw [Option.some.injEq, Bool.eq_iff_iff, h, decide_eq_true_eq]
  refine ⟨new pairs, newChecked_eq pairs, fun a b => ?_, fun a b => ?_, fun bitmaps hset => ?_⟩
  · rw [containsChecked_new]
    exact hdecide (contains_new pairs a b)
  · exact hdecide ((contains_hashed (unique pairs) a b).trans mem_pairs)
  · rw [← length_unique]
    exact DensePairs.bytes_build_le (new_eq_dense hset)

end PairSet

end QueryEngine
