import QueryEngine.Query.Filters

/-!
# Query/ListValues — what the values of a filter's list say

A value is read as its column is declared: a text, a number, the bytes or the number that a text writes
in hex.  A list compiles to exactly what its values say (`compileInList_readsAs`),
  whatever its column's type; values that
cannot be read there say nothing.
-/

open Numerals Fallible

namespace QueryEngine

/-! ## What a list's value says -/

/-- **A cell is what a text says**, read as the column is declared: the text itself, folded, or the number or bytes
that it writes in hex; for a column of lists, an element is. -/
def Cell.reads (desc : ColumnDescription) (w : Text) : Cell → Prop
  | .scalar (.text _) (some v) => desc.dataType = .string ∧ v = foldForColumn w desc
  | .scalar (.int s) (some v) => ∃ t b, desc.dataType.intType = some t ∧ t.signed = false ∧
      parseHex w.bytes = some b ∧ b.length = t.bits / 8 ∧ declaredValue (s.value v) s.bits false = ofBeBytes b
  | .scalar (.bytes _) (some v) => desc.dataType = .fixedBinary v.1.length ∧ parseHex w.bytes = some v.1
  | .list (.text _) (some elements) => desc.dataType = .listString ∧ ∃ e ∈ elements, e.get? = some
    (foldForColumn w desc)
  | _ => False

/-- **A cell is a number**, read as the column is declared; for a column of lists, an element is. -/
def Cell.isNumber (desc : ColumnDescription) (n : ℤ) : Cell → Prop
  | .scalar (.int s) (some v) => ∃ t, desc.dataType.intType = some t ∧ t.Holds n ∧
      declaredValue (s.value v) s.bits t.signed = n
  | .list (.int s) (some elements) => desc.dataType = .listUInt32 ∧ 0 ≤ n ∧ n < 2 ^ 32 ∧
      ∃ e ∈ elements, ∃ v, e.get? = some v ∧ s.value v = n
  | _ => False

/-- A cell is what a value of a list says. -/
def Cell.readsAs (desc : ColumnDescription) (cell : Cell) (value : Json) : Prop :=
  (∃ w, value = .string w ∧ cell.reads desc w) ∨ ∃ n, value.asInteger = some n ∧ cell.isNumber desc n

section Values

variable {column : String} {desc : ColumnDescription} {values : List Json}

@[simp] theorem Cell.readsAs_string {cell : Cell} {w : Text} : cell.readsAs desc (.string w) ↔ cell.reads desc w := by
  simp [Cell.readsAs, Json.asInteger]

theorem Cell.exists_readsAs_texts {cell : Cell} (vs : List Text) :
    (∃ v ∈ vs.map Json.string, cell.readsAs desc v) ↔ ∃ w ∈ vs, cell.reads desc w := by
  simp

theorem eq_string_of_asText {v : Json} {w : Text} (h : v.asText = some w) : v = .string w := by
  cases v <;> simp_all [Json.asText]

/-- A list whose texts were read is one of texts. -/
theorem textValues_eq_ok {vals : List Text} (h : textValues column values desc = .ok vals) :
    ∃ vs : List Text, values = vs.map .string ∧ vals = vs.map fun w => foldForColumn w desc := by
  rw [textValues, mapM_eq_ok] at h
  induction h with
  | nil => exact ⟨[], rfl, rfl⟩
  | cons hv _ ih =>
    obtain ⟨vs, rfl, rfl⟩ := ih
    split at hv
    · next w hw =>
      obtain rfl := Except.ok.inj hv
      exact ⟨w :: vs, by rw [eq_string_of_asText hw, List.map_cons], rfl⟩
    · cases hv

/-- A list's byte strings and numbers. -/
theorem mem_splitBinaryInList : ∀ {values : List Json} {hex : List Bytes} {numbers : List ℤ},
    splitBinaryInList column values = .ok (hex, numbers) →
    (∀ b, b ∈ hex ↔ ∃ w, Json.string w ∈ values ∧ parseHex w.bytes = some b) ∧
      ∀ n, n ∈ numbers ↔ ∃ v ∈ values, v.asInteger = some n
  | [], _, _, h => by
    obtain ⟨rfl, rfl⟩ := Prod.mk.inj (Except.ok.inj h)
    simp
  | v :: values, hex, numbers, h => by
    rw [splitBinaryInList] at h
    split at h
    · next w hw =>
      obtain ⟨⟨hex', numbers'⟩, htail, h⟩ := bind_eq_ok.mp h
      obtain ⟨rfl, rfl⟩ := Prod.mk.inj (Except.ok.inj h)
      obtain ⟨hhex, hnumbers⟩ := mem_splitBinaryInList htail
      obtain rfl := eq_string_of_asText hw
      refine ⟨fun b => ?_, fun n => ?_⟩
      · rw [List.mem_append, hhex]
        simp only [Option.mem_toList, List.mem_cons, Json.string.injEq]
        constructor
        · rintro (hb | ⟨w', hw', hb⟩)
          · exact ⟨w, .inl rfl, hb⟩
          · exact ⟨w', .inr hw', hb⟩
        · rintro ⟨w', rfl | hw', hb⟩
          · exact .inl hb
          · exact .inr ⟨w', hw', hb⟩
      · rw [hnumbers]
        simp [Json.asInteger]
    · next m hw hm =>
      obtain ⟨⟨hex', numbers'⟩, htail, h⟩ := bind_eq_ok.mp h
      obtain ⟨rfl, rfl⟩ := Prod.mk.inj (Except.ok.inj h)
      obtain ⟨hhex, hnumbers⟩ := mem_splitBinaryInList htail
      refine ⟨fun b => ?_, fun n => ?_⟩
      · rw [hhex]
        refine exists_congr fun w => and_congr_left fun _ => ?_
        rw [List.mem_cons, or_iff_right]
        rintro rfl
        cases hw
      · simp [hnumbers, hm, eq_comm]
    · cases h

/-- A list without numbers is one of texts. -/
theorem eq_texts_of_splitBinaryInList : ∀ {values : List Json} {hex : List Bytes},
    splitBinaryInList column values = .ok (hex, []) →
    ∃ vs : List Text, values = vs.map .string ∧ hex = vs.filterMap fun w => parseHex w.bytes
  | [], _, h => by
    obtain ⟨rfl, -⟩ := Prod.mk.inj (Except.ok.inj h)
    exact ⟨[], rfl, rfl⟩
  | v :: values, hex, h => by
    rw [splitBinaryInList] at h
    split at h
    · next w hw =>
      obtain ⟨⟨hex', numbers'⟩, htail, h⟩ := bind_eq_ok.mp h
      obtain ⟨rfl, rfl⟩ := Prod.mk.inj (Except.ok.inj h)
      obtain ⟨vs, rfl, rfl⟩ := eq_texts_of_splitBinaryInList htail
      obtain rfl := eq_string_of_asText hw
      refine ⟨w :: vs, rfl, ?_⟩
      cases hb : parseHex w.bytes <;> simp [hb]
    · obtain ⟨⟨hex', numbers'⟩, -, h⟩ := bind_eq_ok.mp h
      exact absurd (Prod.mk.inj (Except.ok.inj h)).2 (by simp)
    · cases h

theorem inListOf_eq_some {values : Column} {p : ColumnPredicate} (h : inListOf column values = some p) :
    p = colInList column values := by
  unfold inListOf at h
  split at h
  · exact absurd h (by simp)
  · exact (Option.some.inj h).symm

/-- Membership in texts, over a column of text. -/
theorem holds_stringList (htype : desc.dataType = .string) (vs : List Text) (cell : Cell) :
    holdsInList (.scalar (.text .utf8) ((vs.map fun w => foldForColumn w desc).map Slot.some)) cell = true ↔
      ∃ w ∈ vs, cell.reads desc w := by
  rcases cell with ⟨_ | _ | _ | _ | _, _ | v⟩ | ⟨_ | _ | _ | _ | _, _ | elements⟩ <;>
    simp only [holdsInList, stringSet, Cell.holdsText, Cell.reads, htype, ColumnType.intType, reduceCtorEq, false_and,
      and_false, exists_false, Bool.false_eq_true]
  simp only [List.map_map, true_and, decide_eq_true_eq, List.mem_map, Function.comp_apply]
  exact exists_congr fun w => and_congr_right fun _ => eq_comm

/-- Membership in texts of hex, over a column of byte strings of one length. -/
theorem holds_binaryList {size : ℕ} (htype : desc.dataType = .fixedBinary size) (vs : List Text) (cell : Cell) :
    holdsInList (fixedBinaryColumn size (vs.filterMap fun w => parseHex w.bytes)) cell = true ↔
      ∃ w ∈ vs, cell.reads desc w := by
  rcases cell with ⟨_ | _ | _ | _ | _, _ | v⟩ | ⟨_ | _ | _ | _ | _, _ | elements⟩ <;>
    simp only [fixedBinaryColumn, holdsInList, stringSet, listedInts, fixedBinarySet, Cell.holdsBytes, Cell.reads,
      htype,
      ColumnType.intType, reduceCtorEq, false_and, and_false, exists_false, Bool.false_eq_true]
  simp only [decide_eq_true_eq, List.mem_map, List.mem_filterMap, ColumnType.fixedBinary.injEq]
  constructor
  · rintro ⟨slot, ⟨b, ⟨w, hw, hhex⟩, hslot⟩, hv⟩
    split at hslot
    · next hlen =>
      obtain rfl := Option.some.inj hslot
      dsimp only at hv
      rw [← hv]
      exact ⟨w, hw, hlen.symm, hhex⟩
    · exact absurd hslot (by simp)
  · rintro ⟨w, hw, hlen, hhex⟩
    have hadmits : (BytesType.fixedSizeBinary size).Admits v.1 := hlen.symm
    exact ⟨⟨⟨v.1, hadmits⟩, true⟩, ⟨v.1, ⟨w, hw, hhex⟩, by rw [dif_pos hadmits]⟩, rfl⟩

/-- An element among texts, over a column of lists of text. -/
theorem holds_containsList (htype : desc.dataType = .listString) (vs : List Text) (cell : Cell) :
    cell.holdsContainsString (vs.map fun w => foldForColumn w desc) = true ↔ ∃ w ∈ vs, cell.reads desc w := by
  rcases cell with ⟨_ | _ | _ | _ | _, _ | v⟩ | ⟨_ | _ | _ | _ | _, _ | elements⟩ <;>
    simp only [Cell.holdsContainsString, Cell.reads, htype, ColumnType.intType, reduceCtorEq, false_and, and_false,
      exists_false, Bool.false_eq_true]
  simp only [true_and, List.any_eq_true, Option.any_eq_true, decide_eq_true_eq, List.mem_map]
  constructor
  · rintro ⟨e, he, v, hv, w, hw, rfl⟩
    exact ⟨w, hw, e, he, hv⟩
  · rintro ⟨w, hw, e, he, hv⟩
    exact ⟨e, he, _, hv, w, hw, rfl⟩

/-- What a compiled list asks of a cell; a list that compiled to nothing passes none. -/
def listHolds (p : Option ColumnPredicate) (cell : Cell) : Bool := p.any fun p => p.predicate.holds cell

theorem holdsInList_of_len {list : Column} (h : list.len = 0) (cell : Cell) : holdsInList list cell = false := by
  cases list with
  | scalar s rows =>
    obtain rfl := List.length_eq_zero_iff.mp h
    rcases cell with ⟨_ | _ | _ | _ | _, _ | v⟩ | _ <;> rcases s with _ | _ | ⟨_ | _ | _⟩ | ⟨_ | _ | _⟩ | _ <;>
      simp [holdsInList, stringSet, listedInts, fixedBinarySet, Cell.holdsText, Cell.holdsInts, Cell.holdsBytes,
        IntValues.numbers_ofSlots]
  | list => rfl
  | dictionary => rfl

theorem listHolds_inListOf (list : Column) (cell : Cell) :
    listHolds (inListOf column list) cell = holdsInList list cell := by
  unfold inListOf
  split
  · next h => rw [holdsInList_of_len h cell]; rfl
  · rw [listHolds, Option.any_some, colInList, ArrayPredicate.holds]

theorem column_inListOf (list : Column) : ∀ p ∈ inListOf column list, p.column = column := fun p hp => by
  rw [inListOf_eq_some hp]
  rfl

/-- A byte string of an unsigned type's width is a number the type holds. -/
theorem holds_ofBeBytes {t : IntType} (hsigned : t.signed = false) {b : Bytes} (hb : b.length = t.bits / 8) :
    t.Holds (ofBeBytes b) := by
  have hbits : 256 ^ (t.bits / 8) = 2 ^ t.bits := by
    rcases t.bits_cases with h | h | h | h <;> rw [h] <;> norm_num
  have hlt := ofBeBytes_lt b
  rw [hb, hbits] at hlt
  rw [IntType.Holds, hsigned]
  exact ⟨by positivity, by exact_mod_cast hlt⟩

/-- The numbers an unsigned list holds, of a cell. -/
theorem holds_unsignedList {t : IntType} (ht : desc.dataType.intType = some t) (hsigned : t.signed = false)
    {hex : List Bytes} {numbers : List ℤ} (hsplit : splitBinaryInList column values = .ok (hex, numbers))
      (cell : Cell) :
    holdsInList (.scalar (.int t) ((((hex.filter fun b => b.length = t.bits / 8).map fun b => (ofBeBytes b : ℤ)) ++
      numbers.filter fun n => t.Holds n).map fun n => ⟨t.ofInt n, true⟩)) cell = true ↔
      ∃ v ∈ values, cell.readsAs desc v := by
  obtain ⟨hhex, hnumbers⟩ := mem_splitBinaryInList hsplit
  have hwide (b : Bytes) (hb : b.length = t.bits / 8) : t.Holds (ofBeBytes b) := holds_ofBeBytes hsigned hb
  rcases cell with ⟨_ | _ | _ | _ | _, _ | v⟩ | ⟨_ | _ | _ | _ | _, _ | elements⟩ <;>
    simp only [holdsInList, stringSet, listedInts, Cell.holdsInts, Cell.readsAs, Cell.reads, Cell.isNumber, and_false,
      exists_false, or_false, Bool.false_eq_true]
  case scalar.int.some =>
    rw [decide_eq_true_eq, IntValues.isSigned_ofSlots, IntValues.numbers_ofSlots, hsigned, List.map_map]
    simp only [List.mem_map, List.mem_append, List.mem_filter, hhex, hnumbers, Function.comp_apply, decide_eq_true_eq]
    constructor
    · rintro ⟨n, ⟨b, ⟨⟨w, hw, hb⟩, hlen⟩, rfl⟩ | ⟨⟨j, hj, hn⟩, hholds⟩, hv⟩
      · rw [IntType.value_ofInt (hwide b hlen)] at hv
        exact ⟨.string w, hw, .inl ⟨w, rfl, t, b, ht, hsigned, hb, hlen, hv.symm⟩⟩
      · rw [IntType.value_ofInt hholds] at hv
        exact ⟨j, hj, .inr ⟨n, hn, t, ht, hholds, by rw [hsigned]; exact hv.symm⟩⟩
    · rintro ⟨j, hj, ⟨w, rfl, t', b, ht', -, hb, hlen, hv⟩ | ⟨n, hn, t', ht', hholds, hv⟩⟩
      · obtain rfl := Option.some.inj (ht.symm.trans ht')
        exact ⟨_, .inl ⟨b, ⟨⟨w, hj, hb⟩, hlen⟩, rfl⟩, by rw [IntType.value_ofInt (hwide b hlen), hv]⟩
      · obtain rfl := Option.some.inj (ht.symm.trans ht')
        rw [hsigned] at hv
        exact ⟨n, .inr ⟨⟨j, hj, hn⟩, hholds⟩, by rw [IntType.value_ofInt hholds, hv]⟩
  all_goals
    refine iff_of_false not_false ?_
    rintro ⟨v', -, h⟩
    grind [ColumnType.intType]

/-- The numbers a signed list holds, of a cell. -/
theorem holds_signedList {t : IntType} (ht : desc.dataType.intType = some t) (hsigned : t.signed = true)
    {hex : List Bytes} {numbers : List ℤ} (hsplit : splitBinaryInList column values = .ok (hex, numbers))
      (cell : Cell) :
    holdsInList (.scalar (.int .int64) ((numbers.filter fun n => t.Holds n).map fun n =>
      ⟨IntType.int64.ofInt n, true⟩)) cell
      = true ↔ ∃ v ∈ values, cell.readsAs desc v := by
  obtain ⟨-, hnumbers⟩ := mem_splitBinaryInList hsplit
  have hwide : ∀ n : ℤ, t.Holds n → IntType.int64.value (IntType.int64.ofInt n) = n := fun n hn =>
    IntType.value_ofInt (by
      rw [IntType.Holds, hsigned] at hn
      exact hn.mono t.bits_le)
  rcases cell with ⟨_ | _ | _ | _ | _, _ | v⟩ | ⟨_ | _ | _ | _ | _, _ | elements⟩ <;>
    simp only [holdsInList, stringSet, listedInts, Cell.holdsInts, Cell.readsAs, Cell.reads, Cell.isNumber, and_false,
      exists_false, or_false, Bool.false_eq_true]
  case scalar.int.some =>
    rw [decide_eq_true_eq, IntValues.isSigned_ofSlots, IntValues.numbers_ofSlots, List.map_map]
    simp only [List.mem_map, List.mem_filter, hnumbers, Function.comp_apply, decide_eq_true_eq]
    constructor
    · rintro ⟨n, ⟨⟨j, hj, hn⟩, hholds⟩, hv⟩
      rw [hwide n hholds] at hv
      exact ⟨j, hj, .inr ⟨n, hn, t, ht, hholds, by rw [hsigned]; exact hv.symm⟩⟩
    · rintro ⟨j, hj, ⟨w, rfl, t', b, ht', hs', -⟩ | ⟨n, hn, t', ht', hholds, hv⟩⟩
      · obtain rfl := Option.some.inj (ht.symm.trans ht')
        exact absurd (hs'.symm.trans hsigned) (by simp)
      · obtain rfl := Option.some.inj (ht.symm.trans ht')
        rw [hsigned] at hv
        exact ⟨n, ⟨⟨j, hj, hn⟩, hholds⟩, by rw [hwide n hholds]; exact hv.symm⟩
  all_goals
    refine iff_of_false not_false ?_
    rintro ⟨v', -, h⟩
    grind [ColumnType.intType]

/-- The ids a list of lists holds, of a cell. -/
theorem holds_idList (htype : desc.dataType = .listUInt32) {numbers : List (BitVec 64)}
    (h : List.Forall₂ (fun v n => Json.asU64 v = some n) values numbers) (cell : Cell) :
    cell.holdsContainsU32 ((numbers.filter fun n => n.toNat < 2 ^ 32).map fun n => n.setWidth 32) = true ↔
      ∃ v ∈ values, cell.readsAs desc v := by
  have hmem : ∀ n : ℤ, 0 ≤ n → n < 2 ^ 32 →
      ((BitVec.ofInt 32 n ∈ (numbers.filter fun n => n.toNat < 2 ^ 32).map fun n => n.setWidth 32) ↔
        ∃ v ∈ values, v.asInteger = some n) := by
    intro n hpos hlt
    induction h with
    | nil => simp
    | @cons v m vs ms hv _ ih =>
      cases v <;> simp only [Json.asU64, reduceCtorEq] at hv
      next k =>
      split at hv
      · next hk =>
        obtain rfl := Option.some.inj hv
        have hnat : (BitVec.ofInt 64 k).toNat = k.toNat := by
          rw [BitVec.toNat_ofInt]
          omega
        have hhead : (Json.int k).asInteger = some k := by
          rw [Json.asInteger, if_pos ⟨by omega, hk.2⟩]
        rw [List.filter_cons, hnat]
        simp only [List.mem_cons, exists_eq_or_imp, hhead, Option.some.injEq, ← ih]
        split
        · next hsmall =>
          rw [List.map_cons, List.mem_cons]
          refine or_congr ?_ Iff.rfl
          have hsmall : k.toNat < 2 ^ 32 := by simpa using hsmall
          rw [← BitVec.toNat_inj, BitVec.toNat_setWidth, hnat, BitVec.toNat_ofInt]
          omega
        · next hsmall =>
          have hsmall : ¬ k.toNat < 2 ^ 32 := by simpa using hsmall
          rw [iff_or_self]
          rintro rfl
          omega
      · cases hv
  rcases cell with ⟨_ | _ | _ | _ | _, _ | v⟩ | ⟨_ | _ | _ | _ | _, _ | elements⟩ <;>
    simp only [Cell.holdsContainsU32, Cell.readsAs, Cell.reads, Cell.isNumber, htype, ColumnType.intType, and_false,
      exists_false, or_false, false_or, Bool.false_eq_true, false_and, reduceCtorEq]
  simp only [List.any_eq_true, Option.any_eq_true, Bool.and_eq_true, decide_eq_true_eq, true_and]
  constructor
  · rintro ⟨e, he, v, hv, ⟨hpos, hlt⟩, hlisted⟩
    obtain ⟨j, hj, hn⟩ := (hmem _ hpos hlt).mp hlisted
    exact ⟨j, hj, _, hn, hpos, hlt, e, he, v, hv, rfl⟩
  · rintro ⟨j, hj, n, hn, hpos, hlt, e, he, v, hv, rfl⟩
    exact ⟨e, he, v, hv, ⟨hpos, hlt⟩, (hmem _ hpos hlt).mpr ⟨j, hj, hn⟩⟩

theorem compileUnsignedInList_readsAs {t : IntType} (ht : desc.dataType.intType = some t) (hsigned : t.signed = false)
    {r : Option ColumnPredicate} (h : compileUnsignedInList column values t = .ok r) :
    (∀ p ∈ r, p.column = column) ∧ ∀ cell, listHolds r cell = true ↔ ∃ v ∈ values, cell.readsAs desc v := by
  obtain ⟨⟨hex, numbers⟩, hsplit, h⟩ := bind_eq_ok.mp h
  obtain rfl := Except.ok.inj h
  exact ⟨column_inListOf _, fun cell => by rw [listHolds_inListOf, holds_unsignedList ht hsigned hsplit]⟩

theorem compileSignedInList_readsAs {t : IntType} {declared : String} (ht : desc.dataType.intType = some t)
    (hsigned : t.signed = true) {r : Option ColumnPredicate} (h : compileSignedInList column values t declared =
      .ok r) :
    (∀ p ∈ r, p.column = column) ∧ ∀ cell, listHolds r cell = true ↔ ∃ v ∈ values, cell.readsAs desc v := by
  obtain ⟨_, -, h⟩ := bind_eq_ok.mp h
  obtain ⟨⟨hex, numbers⟩, hsplit, h⟩ := bind_eq_ok.mp h
  obtain rfl := Except.ok.inj h
  exact ⟨column_inListOf _, fun cell => by rw [listHolds_inListOf, holds_signedList ht hsigned hsplit]⟩

/-- **A list compiles to what its values say.** -/
theorem compileInList_readsAs {r : Option ColumnPredicate} (h : compileInList column values desc = .ok r) :
    (∀ p ∈ r, p.column = column) ∧ ∀ cell, listHolds r cell = true ↔ ∃ v ∈ values, cell.readsAs desc v := by
  unfold compileInList at h
  split at h
  case h_1 htype =>
    obtain ⟨vals, hvals, h⟩ := bind_eq_ok.mp h
    obtain ⟨vs, rfl, rfl⟩ := textValues_eq_ok hvals
    obtain rfl := Except.ok.inj h
    refine ⟨column_inListOf _, fun cell => ?_⟩
    rw [listHolds_inListOf, Cell.exists_readsAs_texts]
    exact holds_stringList htype vs cell
  case h_2 htype => exact compileUnsignedInList_readsAs (by rw [htype]; rfl) rfl h
  case h_3 htype => exact compileUnsignedInList_readsAs (by rw [htype]; rfl) rfl h
  case h_4 htype => exact compileUnsignedInList_readsAs (by rw [htype]; rfl) rfl h
  case h_5 htype => exact compileUnsignedInList_readsAs (by rw [htype]; rfl) rfl h
  case h_6 htype => exact compileSignedInList_readsAs (by rw [htype]; rfl) rfl h
  case h_7 htype => exact compileSignedInList_readsAs (by rw [htype]; rfl) rfl h
  case h_8 htype => exact compileSignedInList_readsAs (by rw [htype]; rfl) rfl h
  case h_9 size htype =>
    obtain ⟨⟨hex, numbers⟩, hsplit, h⟩ := bind_eq_ok.mp h
    obtain ⟨_, hempty, h⟩ := bind_eq_ok.mp h
    have hnumbers : numbers = [] := by
      cases numbers with
      | nil => rfl
      | cons => cases hempty
    subst hnumbers
    obtain ⟨vs, rfl, rfl⟩ := eq_texts_of_splitBinaryInList hsplit
    obtain rfl := Except.ok.inj h
    refine ⟨column_inListOf _, fun cell => ?_⟩
    rw [listHolds_inListOf, Cell.exists_readsAs_texts]
    exact holds_binaryList htype vs cell
  case h_10 htype =>
    obtain ⟨numbers, hnumbers, h⟩ := bind_eq_ok.mp h
    have hread : List.Forall₂ (fun v n => Json.asU64 v = some n) values numbers :=
      (mapM_eq_ok.mp hnumbers).imp fun v n hv => by
        split at hv
        · next m hm => rw [hm, Except.ok.inj hv]
        · cases hv
    obtain rfl := Except.ok.inj h
    refine ⟨fun p hp => ?_, fun cell => ?_⟩
    · split at hp
      · cases hp
      · rw [← Option.some.inj hp]
    · rw [← holds_idList htype hread]
      split
      · next hempty =>
        rw [List.isEmpty_iff.mp hempty]
        rcases cell with _ | ⟨_ | _ | _ | _ | _, _ | elements⟩ <;> simp [listHolds, Cell.holdsContainsU32]
      · rw [listHolds, Option.any_some, ArrayPredicate.holds]
  case h_11 htype =>
    obtain ⟨vals, hvals, h⟩ := bind_eq_ok.mp h
    obtain ⟨vs, rfl, rfl⟩ := textValues_eq_ok hvals
    obtain rfl := Except.ok.inj h
    refine ⟨fun p hp => ?_, fun cell => ?_⟩
    · split at hp
      · cases hp
      · rw [← Option.some.inj hp]
    · rw [Cell.exists_readsAs_texts, ← holds_containsList htype]
      split
      · next hempty =>
        rw [List.isEmpty_iff.mp hempty]
        rcases cell with _ | ⟨_ | _ | _ | _ | _, _ | elements⟩ <;> simp [listHolds, Cell.holdsContainsString]
      · rw [listHolds, Option.any_some, ArrayPredicate.holds]
  case h_12 => cases h

/-- A list of texts compiles to membership: the predicate holds of what one of the texts says. -/
theorem compileInList_texts {vs : List Text} {p : ColumnPredicate}
    (h : compileInList column (vs.map .string) desc = .ok (some p)) :
    p.column = column ∧ ∀ cell, p.predicate.holds cell = true ↔ ∃ w ∈ vs, cell.reads desc w := by
  obtain ⟨hcolumn, hreadsAs⟩ := compileInList_readsAs h
  refine ⟨hcolumn p rfl, fun cell => ?_⟩
  rw [← Cell.exists_readsAs_texts, ← hreadsAs, listHolds, Option.any_some]

end Values

end QueryEngine
