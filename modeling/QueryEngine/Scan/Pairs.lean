import QueryEngine.Arrays
import QueryEngine.Library.Bitmap
import QueryEngine.Library.Lookup

/-!
# Scan/Pairs — sets of two-integer join keys

A block number and an item's index in the block is the key of nearly every relation.  A set of such
pairs is held as bitmaps, one for each first component, when these are no larger than the pairs
themselves, and as packed keys otherwise; `PairSet.contains_new` says that it does not matter which.
-/

open Lookup Bitmap

namespace QueryEngine

/-- Two join keys packed into one. -/
def pack16 (a b : BitVec 64) : BitVec 128 := a.setWidth 128 <<< 64 ||| b.setWidth 128

theorem toNat_pack16 (a b : BitVec 64) : (pack16 a b).toNat = a.toNat * 2 ^ 64 + b.toNat := by
  have ha := a.isLt
  have hb := b.isLt
  rw [pack16, BitVec.toNat_or, BitVec.toNat_shiftLeft, BitVec.toNat_setWidth, BitVec.toNat_setWidth,
    Nat.mod_eq_of_lt (by omega : a.toNat < 2 ^ 128), Nat.mod_eq_of_lt (by omega : b.toNat < 2 ^ 128),
    Nat.shiftLeft_eq, Nat.mod_eq_of_lt (by omega), Nat.mul_comm, Nat.two_pow_add_eq_or_of_lt hb]

/-- **Packing loses nothing.** -/
theorem pack16_inj {a b c d : BitVec 64} : pack16 a b = pack16 c d ↔ a = c ∧ b = d := by
  constructor
  · intro h
    have hn := congrArg BitVec.toNat h
    rw [toNat_pack16, toNat_pack16] at hn
    have hb := b.isLt
    have hd := d.isLt
    exact ⟨BitVec.eq_of_toNat_eq (by omega), BitVec.eq_of_toNat_eq (by omega)⟩
  · rintro ⟨rfl, rfl⟩
    rfl

/-- The sum of two 64-bit counts, unless it overflows. -/
def checkedAdd (a b : ℕ) : Option ℕ := if a + b < 2 ^ 64 then some (a + b) else none

/-- The sum of two 64-bit counts, or the largest one. -/
def saturatingAdd (a b : ℕ) : ℕ := min (a + b) (2 ^ 64 - 1)

/-- The product of two 64-bit counts, or the largest one. -/
def saturatingMul (a b : ℕ) : ℕ := min (a * b) (2 ^ 64 - 1)

theorem checkedAdd_eq_some {a b c : ℕ} (h : checkedAdd a b = some c) : c = a + b := by
  unfold checkedAdd at h
  split at h
  · exact (Option.some.inj h).symm
  · exact absurd h (by simp)

/-! ## Dense sets -/

/-- Where a first component's bitmap starts, the second component its first bit stands for, and how
many bits it has. -/
structure DenseSlot where
  start : ℕ
  low : BitVec 64
  width : ℕ
  deriving DecidableEq, Repr

/-- A bitmap of second components for each first component, by its offset from the least. -/
structure DensePairs where
  first : BitVec 64
  slots : List DenseSlot
  bits : List (BitVec 64)
  len : ℕ

/-- A pair of join keys. -/
abbrev Pair := BitVec 64 × BitVec 64

namespace DensePairs

/-- First components one set may span. -/
def maxSlots : ℕ := 2 ^ 16

/-- The bytes of one slot. -/
def slotSize : ℕ := 24

/-- The bytes of one pair's key, the least a hash set holds per pair. -/
def keySize : ℕ := 16

/-- The first component of a group. -/
def key (group : List Pair) : BitVec 64 := (group.headD (0, 0)).1

/-- The least second component of a group. -/
def low (group : List Pair) : BitVec 64 := (group.headD (0, 0)).2

/-- How many bits a group takes. -/
def width (group : List Pair) : Option ℕ :=
  checkedAdd ((group.getLastD (0, 0)).2.toNat - (low group).toNat) 1

/-- One group's slot written, and where the next group's bits start. -/
def place (first : BitVec 64) (placed : List DenseSlot × ℕ) (group : List Pair) :
    List DenseSlot × ℕ :=
  let w := (width group).getD 0
  (placed.1.set ((key group).toNat - first.toNat) ⟨placed.2, low group, w⟩, placed.2 + w)

/-- The bit that stands for a pair. -/
def bitOf (first : BitVec 64) (slots : List DenseSlot) (pair : Pair) : ℕ :=
  match slots[pair.1.toNat - first.toNat]? with
  | some slot => slot.start + (pair.2.toNat - slot.low.toNat)
  | none => 0

/-- The set of some sorted and unique pairs; nothing when they are too sparse for bitmaps. -/
def build (pairs : List Pair) : Option DensePairs :=
  match pairs.head?, pairs.getLast? with
  | some (first, _), some (last, _) =>
    let reach := last.toNat - first.toNat
    if maxSlots ≤ reach then none
    else
      let span := reach + 1
      let groups := pairs.splitBy fun x y => x.1 == y.1
      (groups.foldlM (fun total group => (width group).bind (checkedAdd total)) 0).bind fun total =>
        let slotBytes := saturatingMul span slotSize
        let denseBytes := saturatingAdd slotBytes (saturatingMul ((total + 63) / 64) 8)
        if saturatingMul pairs.length keySize < denseBytes then none
        else
          let slots := (groups.foldl (place first) (List.replicate span ⟨0, 0, 0⟩, 0)).1
          some ⟨first, slots, ofPlaces total (pairs.map (bitOf first slots)), pairs.length⟩
  | _, _ => some ⟨0, [], [], 0⟩

/-- Whether a pair is in the set. -/
def contains (dense : DensePairs) (a b : BitVec 64) : Bool :=
  match dense.slots[(a - dense.first).toNat]? with
  | none => false
  | some slot =>
    let offset := (b - slot.low).toNat
    if slot.width ≤ offset then false else testBit dense.bits (slot.start + offset)

/-- Pairs in order, each once. -/
def Sorted (pairs : List Pair) : Prop :=
  pairs.Pairwise fun x y => x.1 < y.1 ∨ x.1 = y.1 ∧ x.2 < y.2

/-- The bits a group takes are those from its least second component to its greatest. -/
theorem mem_group {pairs : List Pair} (h : Sorted pairs) {group : List Pair}
    (hg : group ∈ pairs.splitBy fun x y => x.1 == y.1) {p : Pair} (hp : p ∈ group) :
    p.1 = key group ∧ (low group).toNat ≤ p.2.toNat ∧
      p.2.toNat ≤ (group.getLastD (0, 0)).2.toNat := by
  have hsub : group.Sublist pairs := by
    conv_rhs => rw [← List.flatten_splitBy (fun x y : Pair => x.1 == y.1) pairs]
    exact List.sublist_flatten_of_mem hg
  have hsorted : Sorted group := h.sublist hsub
  have htrans : IsTrans Pair fun x y => (x.1 == y.1) = true :=
    ⟨fun x y z hxy hyz => by
      rw [beq_iff_eq] at *
      exact hxy.trans hyz⟩
  have hsame := List.isChain_iff_pairwise.mp (List.isChain_of_mem_splitBy hg)
  obtain ⟨head, rest, rfl⟩ := List.exists_cons_of_ne_nil (List.ne_nil_of_mem hp)
  have hkey : ∀ q ∈ head :: rest, q.1 = head.1 := by
    intro q hq
    rcases List.mem_cons.mp hq with rfl | hq
    · rfl
    · exact (beq_iff_eq.mp ((List.pairwise_cons.mp hsame).1 q hq)).symm
  have hlow : head.2.toNat ≤ p.2.toNat := by
    rcases rel_head hsorted hp with rfl | hlt | ⟨-, hlt⟩
    · exact le_refl _
    · exact absurd (hkey p hp) hlt.ne'
    · exact le_of_lt (BitVec.lt_def.mp hlt)
  have hhigh : p.2.toNat ≤ ((head :: rest).getLast (by simp)).2.toNat := by
    rcases rel_getLast hsorted (by simp) hp with heq | hlt | ⟨-, hlt⟩
    · rw [← heq]
    · exact absurd ((hkey p hp).trans (hkey _ (List.getLast_mem (by simp))).symm) hlt.ne
    · exact le_of_lt (BitVec.lt_def.mp hlt)
  refine ⟨hkey p hp, hlow, ?_⟩
  rwa [List.getLastD_eq_getLast?, List.getLast?_eq_some_getLast (by simp), Option.getD_some]

/-- Groups come in order of their first component, each component once. -/
theorem pairwise_key {pairs : List Pair} (h : Sorted pairs) :
    (pairs.splitBy fun x y => x.1 == y.1).Pairwise fun g g' => (key g).toNat < (key g').toNat := by
  have hmem {g : List Pair} (hg : g ∈ pairs.splitBy fun x y => x.1 == y.1) {p : Pair} (hp : p ∈ g) :=
    (mem_group h hg hp).1
  have hchain := List.isChain_getLast_head_splitBy (fun x y : Pair => x.1 == y.1) pairs
  have hcross : ((pairs.splitBy fun x y => x.1 == y.1).Pairwise
      fun g g' => ∀ x ∈ g, ∀ y ∈ g', x.1 < y.1 ∨ x.1 = y.1 ∧ x.2 < y.2) := by
    rw [Sorted, ← List.flatten_splitBy (fun x y : Pair => x.1 == y.1) pairs] at h
    exact (List.pairwise_flatten.mp h).2
  have htrans : IsTrans (List Pair) fun g g' => (key g).toNat < (key g').toNat :=
    ⟨fun _ _ _ => lt_trans⟩
  rw [← List.isChain_iff_pairwise]
  refine List.isChain_iff_getElem.mpr fun i hi => ?_
  obtain ⟨ha, hb, hne⟩ := List.isChain_iff_getElem.mp hchain i hi
  have hle := List.pairwise_iff_getElem.mp hcross i (i + 1) (by omega) hi (by omega) _
    (List.getLast_mem ha) _ (List.head_mem hb)
  rw [hmem (List.getElem_mem _) (List.getLast_mem ha), hmem (List.getElem_mem _) (List.head_mem hb)]
    at hle hne
  rcases hle with hlt | ⟨heq, -⟩
  · exact BitVec.lt_def.mp hlt
  · rw [heq] at hne
    simp at hne

/-- The bits a group takes, once known to be countable. -/
def extent (group : List Pair) : ℕ := (width group).getD 0

/-- **Slots are laid end to end**: each group's bits start where those of the groups before it end,
and a component without a group keeps the slot it had. -/
theorem foldl_place (first : BitVec 64) : ∀ (groups : List (List Pair)) (slots : List DenseSlot)
    (start : ℕ), groups.Pairwise (fun g g' => (key g).toNat < (key g').toNat) →
    (∀ g ∈ groups, first.toNat ≤ (key g).toNat ∧ (key g).toNat - first.toNat < slots.length) →
    (∀ (i : ℕ) (hi : i < groups.length),
      (groups.foldl (place first) (slots, start)).1[(key groups[i]).toNat - first.toNat]? =
        some ⟨start + ((groups.map extent).take i).sum, low groups[i], extent groups[i]⟩) ∧
      ∀ k, (∀ g ∈ groups, (key g).toNat - first.toNat ≠ k) →
        (groups.foldl (place first) (slots, start)).1[k]? = slots[k]?
  | [], slots, start, _, _ => ⟨fun i hi => absurd hi (by simp), fun _ _ => rfl⟩
  | g :: groups, slots, start, hkeys, hspan => by
    obtain ⟨hafter, hkeys⟩ := List.pairwise_cons.mp hkeys
    obtain ⟨hfirst, hlt⟩ := hspan g List.mem_cons_self
    rw [List.foldl_cons]
    obtain ⟨hplaced, hkept⟩ := foldl_place first groups
      (slots.set ((key g).toNat - first.toNat) ⟨start, low g, extent g⟩) (start + extent g) hkeys
      fun g' hg' => by
        rw [List.length_set]
        exact hspan g' (List.mem_cons_of_mem _ hg')
    refine ⟨fun i hi => ?_, fun k hk => ?_⟩
    · cases i with
      | zero =>
        refine (hkept _ fun g' hg' => ?_).trans ?_
        · have hlt' := hafter g' hg'
          rw [List.getElem_cons_zero]
          omega
        · rw [List.getElem_cons_zero, List.getElem?_set_self hlt]
          simp
      | succ i =>
        refine (hplaced i (by simpa using hi)).trans ?_
        simp [Nat.add_assoc]
    · refine (hkept k fun g' hg' => hk g' (List.mem_cons_of_mem _ hg')).trans ?_
      rw [List.getElem?_set_ne (hk g List.mem_cons_self)]

/-- The bits counted are those of every group. -/
theorem foldlM_total : ∀ (groups : List (List Pair)) {start total : ℕ},
    groups.foldlM (fun total group => (width group).bind (checkedAdd total)) start = some total →
      (∀ g ∈ groups, (width g).isSome) ∧ total = start + (groups.map extent).sum
  | [], start, total, h => by
    obtain rfl := Option.some.inj h
    exact ⟨fun g hg => absurd hg (by simp), by simp⟩
  | g :: groups, start, total, h => by
    rw [List.foldlM_cons] at h
    obtain ⟨next, hnext, hrest⟩ := Option.bind_eq_some_iff.mp h
    obtain ⟨w, hw, hadd⟩ := Option.bind_eq_some_iff.mp hnext
    obtain ⟨hwidths, hsum⟩ := foldlM_total groups hrest
    have hbits : extent g = w := by rw [extent, hw, Option.getD_some]
    refine ⟨fun g' hg' => ?_, ?_⟩
    · rcases List.mem_cons.mp hg' with rfl | hg'
      · rw [hw]
        rfl
      · exact hwidths g' hg'
    · rw [hsum, checkedAdd_eq_some hadd, List.map_cons, List.sum_cons, hbits]
      omega

section Laid

variable {p : Pair} {pairs : List Pair}

/-- The groups of some pairs, and the slots their first components get. -/
abbrev groupsOf (pairs : List Pair) : List (List Pair) := pairs.splitBy fun x y => x.1 == y.1

/-- A pair's group is one of the groups, and its second component one of the group's. -/
theorem exists_group (h : Sorted pairs) {q : Pair} (hq : q ∈ pairs) :
    ∃ (i : ℕ) (hi : i < (groupsOf pairs).length),
      q ∈ (groupsOf pairs)[i] ∧ q.1 = key (groupsOf pairs)[i] := by
  rw [← List.flatten_splitBy (fun x y : Pair => x.1 == y.1) pairs] at hq
  obtain ⟨g, hg, hqg⟩ := List.mem_flatten.mp hq
  obtain ⟨i, hi, rfl⟩ := List.mem_iff_getElem.mp hg
  exact ⟨i, hi, hqg, (mem_group h hg hqg).1⟩

/-- A group's bits hold its pairs. -/
theorem lt_extent (h : Sorted pairs) {g : List Pair} (hg : g ∈ groupsOf pairs)
    (hwidth : (width g).isSome) {q : Pair} (hq : q ∈ g) :
    (low g).toNat ≤ q.2.toNat ∧ q.2.toNat - (low g).toNat < extent g := by
  obtain ⟨-, hlow, hhigh⟩ := mem_group h hg hq
  obtain ⟨w, hw⟩ := Option.isSome_iff_exists.mp hwidth
  have hsum : w = _ := checkedAdd_eq_some hw
  rw [extent, hw, Option.getD_some]
  omega

/-- Every group starts within the span of the slots. -/
theorem key_in_span (h : Sorted (p :: pairs)) {g : List Pair} (hg : g ∈ groupsOf (p :: pairs)) :
    p.1.toNat ≤ (key g).toNat ∧
      (key g).toNat ≤ ((p :: pairs).getLast (by simp)).1.toNat := by
  obtain ⟨q, hq⟩ := List.exists_mem_of_ne_nil g (List.ne_nil_of_mem_splitBy hg)
  have hmem : q ∈ p :: pairs := by
    rw [← List.flatten_splitBy (fun x y : Pair => x.1 == y.1) (p :: pairs)]
    exact List.mem_flatten.mpr ⟨g, hg, hq⟩
  rw [← (mem_group h hg hq).1]
  constructor
  · rcases rel_head h hmem with rfl | hlt | ⟨heq, -⟩
    · exact le_refl _
    · exact le_of_lt (BitVec.lt_def.mp hlt)
    · rw [heq]
  · rcases rel_getLast h (by simp) hmem with heq | hlt | ⟨heq, -⟩
    · rw [← heq]
    · exact le_of_lt (BitVec.lt_def.mp hlt)
    · rw [heq]

/-- Slots in which each group's bits follow those of the groups before it, and which are empty at
every other component. -/
structure Laid (first : BitVec 64) (groups : List (List Pair)) (slots : List DenseSlot) : Prop where
  first_le : ∀ g ∈ groups, first.toNat ≤ (key g).toNat
  at_key : ∀ (i : ℕ) (hi : i < groups.length), slots[(key groups[i]).toNat - first.toNat]? =
    some ⟨((groups.map extent).take i).sum, low groups[i], extent groups[i]⟩
  elsewhere : ∀ (k : ℕ) (slot : DenseSlot), slots[k]? = some slot → 0 < slot.width →
    ∃ g ∈ groups, (key g).toNat - first.toNat = k

/-- **The slots of sorted pairs are laid out.** -/
theorem laid_place (hsorted : Sorted (p :: pairs)) :
    Laid p.1 (groupsOf (p :: pairs)) ((groupsOf (p :: pairs)).foldl (place p.1)
      (List.replicate (((p :: pairs).getLast (by simp)).1.toNat - p.1.toNat + 1) ⟨0, 0, 0⟩, 0)).1 := by
  obtain ⟨hplaced, hkept⟩ := foldl_place p.1 (groupsOf (p :: pairs))
    (List.replicate (((p :: pairs).getLast (by simp)).1.toNat - p.1.toNat + 1) ⟨0, 0, 0⟩) 0
    (pairwise_key hsorted) fun g hg => by
      have hspan := key_in_span hsorted hg
      rw [List.length_replicate]
      omega
  refine ⟨fun g hg => (key_in_span hsorted hg).1, fun i hi => ?_, fun k slot hk hpos => ?_⟩
  · refine (hplaced i hi).trans ?_
    rw [Nat.zero_add]
  · by_contra hno
    have hold := hkept k fun g hg heq => hno ⟨g, hg, heq⟩
    rw [hk] at hold
    obtain rfl := (List.mem_replicate.mp (List.mem_of_getElem? hold.symm)).2
    exact absurd hpos (lt_irrefl 0)

/-- **What a set built of some pairs is made of.** -/
theorem build_eq_some (hsorted : Sorted (p :: pairs)) {dense : DensePairs}
    (h : build (p :: pairs) = some dense) :
    Laid p.1 (groupsOf (p :: pairs)) dense.slots ∧
      (∀ g ∈ groupsOf (p :: pairs), (width g).isSome) ∧ dense.first = p.1 ∧
      dense.bits = ofPlaces ((groupsOf (p :: pairs)).map extent).sum
        ((p :: pairs).map (bitOf p.1 dense.slots)) := by
  unfold build at h
  rw [List.head?_cons, List.getLast?_eq_some_getLast (by simp)] at h
  dsimp only at h
  split at h
  · exact absurd h (by simp)
  obtain ⟨total, htotal, h⟩ := Option.bind_eq_some_iff.mp h
  obtain ⟨hwidths, hsum⟩ := foldlM_total _ htotal
  rw [Nat.zero_add] at hsum
  split at h
  · exact absurd h (by simp)
  obtain rfl := Option.some.inj h
  exact ⟨laid_place hsorted, hwidths, rfl, by rw [hsum]⟩

/-- The distance of a word from one no greater. -/
theorem toNat_sub_of_le {a b : BitVec 64} (h : a.toNat ≤ b.toNat) :
    (b - a).toNat = b.toNat - a.toNat := by
  have hb := b.isLt
  rw [BitVec.toNat_sub]
  omega

/-- A pair's bit is the one its group's slot finds it by. -/
theorem bitOf_eq {first : BitVec 64} {slots : List DenseSlot}
    (hlaid : Laid first (groupsOf pairs) slots) {q : Pair} {i : ℕ} (hi : i < (groupsOf pairs).length)
    (hkey : q.1 = key (groupsOf pairs)[i]) :
    bitOf first slots q = (((groupsOf pairs).map extent).take i).sum +
      (q.2.toNat - (low (groupsOf pairs)[i]).toNat) := by
  rw [bitOf, hkey, hlaid.at_key i hi]

/-- A pair's bit is among the bits of its group, and these among all. -/
theorem bitOf_lt (h : Sorted pairs) {first : BitVec 64} {slots : List DenseSlot}
    (hlaid : Laid first (groupsOf pairs) slots) (hwidths : ∀ g ∈ groupsOf pairs, (width g).isSome)
    {q : Pair} (hq : q ∈ pairs) : bitOf first slots q < ((groupsOf pairs).map extent).sum := by
  obtain ⟨i, hi, hqi, hkey⟩ := exists_group h hq
  have hle := @sum_take_add_le ((groupsOf pairs).map extent) i
    ((groupsOf pairs).map extent).length (by simpa using hi) (by simpa using hi)
  rw [List.take_length, List.getElem_map] at hle
  have hlt := (lt_extent h (List.getElem_mem hi) (hwidths _ (List.getElem_mem hi)) hqi).2
  rw [bitOf_eq hlaid hi hkey]
  omega

/-- A pair's slot is one of the slots, and starts at or below its second component. -/
theorem exists_slot (h : Sorted pairs) {first : BitVec 64} {slots : List DenseSlot}
    (hlaid : Laid first (groupsOf pairs) slots) {q : Pair} (hq : q ∈ pairs) :
    ∃ slot, first.toNat ≤ q.1.toNat ∧ slots[q.1.toNat - first.toNat]? = some slot ∧
      slot.low.toNat ≤ q.2.toNat := by
  obtain ⟨i, hi, hqi, hkey⟩ := exists_group h hq
  have hfirst := hlaid.first_le _ (List.getElem_mem hi)
  have hslot := hlaid.at_key i hi
  rw [← hkey] at hfirst hslot
  exact ⟨_, hfirst, hslot, (mem_group h (List.getElem_mem hi) hqi).2.1⟩

end Laid

/-- **A dense set holds its pairs**, and nothing else. -/
theorem contains_build {pairs : List Pair} (hsorted : Sorted pairs) {dense : DensePairs}
    (h : build pairs = some dense) (a b : BitVec 64) :
    dense.contains a b = true ↔ (a, b) ∈ pairs := by
  cases pairs with
  | nil =>
    obtain rfl := Option.some.inj h
    simp [contains]
  | cons p pairs =>
    obtain ⟨hlaid, hwidths, hfirst, hbits⟩ := build_eq_some hsorted h
    have hextent {i : ℕ} (hi : i < (groupsOf (p :: pairs)).length) {q : Pair}
        (hq : q ∈ (groupsOf (p :: pairs))[i]) :=
      lt_extent hsorted (List.getElem_mem hi) (hwidths _ (List.getElem_mem hi)) hq
    have hplaces : ∀ n ∈ (p :: pairs).map (bitOf p.1 dense.slots),
        n < ((groupsOf (p :: pairs)).map extent).sum := by
      intro n hn
      obtain ⟨q, hq, rfl⟩ := List.mem_map.mp hn
      exact bitOf_lt hsorted hlaid hwidths hq
    unfold contains
    rw [hfirst, hbits]
    constructor
    · intro hfound
      split at hfound
      · exact absurd hfound (by simp)
      next slot hslot =>
      dsimp only at hfound
      split at hfound
      · exact absurd hfound (by simp)
      next hwide =>
      obtain ⟨g, hg, hk⟩ := hlaid.elsewhere _ slot hslot (by omega)
      obtain ⟨i, hi, rfl⟩ := List.mem_iff_getElem.mp hg
      rw [← hk, hlaid.at_key i hi] at hslot
      obtain rfl := Option.some.inj hslot
      obtain ⟨q, hq, hbit⟩ := List.mem_map.mp ((testBit_ofPlaces hplaces _).mp hfound)
      obtain ⟨j, hj, hqj, hkey⟩ := exists_group hsorted hq
      obtain ⟨hlow, hlt⟩ := hextent hj hqj
      rw [bitOf_eq hlaid hj hkey] at hbit
      -- the bit is the pair's own, since no two groups share one
      obtain ⟨rfl, hoff⟩ := @place_injective ((groupsOf (p :: pairs)).map extent) _ _ _ _
        (by simpa using hj) (by simpa using hi) (by simpa using hlt) (by simpa using hwide) hbit
      have hle := hlaid.first_le _ hg
      have ha : a.toNat = (key (groupsOf (p :: pairs))[j]).toNat := by
        have hsub := BitVec.toNat_sub a p.1
        have h1 := a.isLt
        have h2 := p.1.isLt
        have h3 := (key (groupsOf (p :: pairs))[j]).isLt
        omega
      have hb : b.toNat = q.2.toNat := by
        have hsub := BitVec.toNat_sub b (low (groupsOf (p :: pairs))[j])
        dsimp only at hoff
        have h1 := b.isLt
        have h2 := q.2.isLt
        have h3 := (low (groupsOf (p :: pairs))[j]).isLt
        omega
      rw [show (a, b) = q from Prod.ext ((BitVec.eq_of_toNat_eq ha).trans hkey.symm)
        (BitVec.eq_of_toNat_eq hb)]
      exact hq
    · intro hmem
      obtain ⟨i, hi, hqi, hkey⟩ := exists_group hsorted hmem
      obtain ⟨hlow, hlt⟩ := hextent hi hqi
      have hle := hlaid.first_le _ (List.getElem_mem hi)
      rw [← hkey] at hle
      have hat := hlaid.at_key i hi
      rw [← hkey, ← toNat_sub_of_le hle] at hat
      rw [hat]
      dsimp only
      rw [toNat_sub_of_le hlow, if_neg (by omega)]
      refine (testBit_ofPlaces hplaces _).mpr (List.mem_map.mpr ⟨(a, b), hmem, ?_⟩)
      rw [bitOf_eq hlaid hi hkey]

/-- A dense set counts its pairs. -/
theorem len_build {pairs : List Pair} {dense : DensePairs} (h : build pairs = some dense) :
    dense.len = pairs.length := by
  unfold build at h
  split at h
  · dsimp only at h
    split at h
    · exact absurd h (by simp)
    obtain ⟨total, -, h⟩ := Option.bind_eq_some_iff.mp h
    split at h
    · exact absurd h (by simp)
    obtain rfl := Option.some.inj h
    rfl
  · next hnone =>
    obtain rfl := Option.some.inj h
    cases pairs with
    | nil => rfl
    | cons p pairs =>
      exact absurd (List.getLast?_eq_some_getLast (by simp)) (hnone _ _ _ _ rfl)

end DensePairs

/-! ## Sets -/

/-- A set of pairs, dense over one block range or hashed. -/
inductive PairSet
  | dense (pairs : DensePairs)
  | hashed (keys : List (BitVec 128))

namespace PairSet

/-- The set of some pairs, in any order and repeated or not. -/
def new (pairs : List Pair) : PairSet :=
  let pairs : List Pair := (sortDedup (pairs.map toLex)).map ofLex
  match DensePairs.build pairs with
  | some bitmaps => .dense bitmaps
  | none => .hashed (pairs.map fun p => pack16 p.1 p.2)

/-- Whether no pair is held. -/
def isEmpty : PairSet → Bool
  | dense pairs => pairs.len == 0
  | hashed keys => keys.isEmpty

/-- Whether a pair is held. -/
def contains : PairSet → BitVec 64 → BitVec 64 → Bool
  | dense pairs, a, b => pairs.contains a b
  | hashed keys, a, b => decide (pack16 a b ∈ keys)

theorem sorted_pairs (pairs : List Pair) :
    DensePairs.Sorted ((sortDedup (pairs.map toLex)).map ofLex) := by
  rw [DensePairs.Sorted, List.pairwise_map]
  exact (pairwise_sortDedup _).imp fun h => Prod.Lex.lt_iff.mp h

theorem mem_pairs {pairs : List Pair} {p : Pair} :
    p ∈ (sortDedup (pairs.map toLex)).map ofLex ↔ p ∈ pairs := by
  rw [List.mem_map]
  constructor
  · rintro ⟨q, hq, rfl⟩
    obtain ⟨r, hr, rfl⟩ := List.mem_map.mp (mem_sortDedup.mp hq)
    exact hr
  · exact fun hp => ⟨toLex p, mem_sortDedup.mpr (List.mem_map_of_mem hp), rfl⟩

/-- Packed keys hold the pairs packed. -/
theorem contains_hashed (pairs : List Pair) (a b : BitVec 64) :
    (hashed (pairs.map fun p => pack16 p.1 p.2)).contains a b = true ↔ (a, b) ∈ pairs := by
  rw [contains, decide_eq_true_eq, List.mem_map]
  constructor
  · rintro ⟨⟨c, d⟩, hmem, hpack⟩
    obtain ⟨rfl, rfl⟩ := pack16_inj.mp hpack
    exact hmem
  · exact fun hmem => ⟨(a, b), hmem, rfl⟩

/-- **A set holds the pairs it was made of**, and nothing else, however it holds them. -/
theorem contains_new (pairs : List Pair) (a b : BitVec 64) :
    (new pairs).contains a b = true ↔ (a, b) ∈ pairs := by
  unfold new
  rw [← mem_pairs]
  dsimp only
  split
  · next bitmaps h => exact DensePairs.contains_build (sorted_pairs pairs) h a b
  · exact contains_hashed _ a b

end PairSet

end QueryEngine
