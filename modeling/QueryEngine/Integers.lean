import QueryEngine.Errors

/-!
# Integers — one reading of an integer column, whatever width it is stored at

A declared integer column is stored at a width and a sign of the writer's choosing.  Three readings
meet it: `value` (as stored), `blockNumber` (the bits, unsigned) and `declaredValue` (the bits, at
the sign the catalog declares).  A filter compares `storedKey`s, and the whole module rests on one
fact: the keys of a filter's values at a stored type are exactly the keys of the stored values that
*declare* one of them — `mem_storedKeys_iff`.
-/

open TwosComplement Kleene

namespace QueryEngine

/-- The physical width in bits and the signedness of an integer type. -/
def widthOf : DataType → Option (ℕ × Bool)
  | .scalar (.int t) => some (t.bits, t.signed)
  | _ => none

/-- Whether a declared integer column may be stored at this physical type. -/
def isInteger (dataType : DataType) : Bool := (widthOf dataType).isSome

@[simp] theorem widthOf_int (t : IntType) :
    widthOf (.scalar (.int t)) = some (t.bits, t.signed) := rfl

/-! ## Keys: eight bytes for an integer -/

/-- The key of a stored integer: its value sign-extended to 64 bits. -/
def storedKey (value : ℤ) : BitVec 64 := BitVec.ofInt 64 value

/-- Whether a value is an unsigned number of so many bits. -/
def fitsUnsigned (value : BitVec 64) (bits : ℕ) : Bool :=
  bits == 64 || value >>> bits == 0

/-- Whether a value, read as signed, is a number of so many bits. -/
def fitsSigned (value : BitVec 64) (bits : ℕ) : Bool :=
  if bits = 64 then true
  else
    let half : ℤ := 2 ^ (bits - 1)
    decide (-half ≤ value.toInt ∧ value.toInt < half)

/-- The low bits of a word as a signed number of that width. -/
def signExtend (bitsValue : BitVec 64) (bits : ℕ) : BitVec 64 :=
  let shift := 64 - bits
  (bitsValue <<< shift).sshiftRight shift

/-- The low bits of a word as an unsigned number of that width. -/
def zeroExtend (bitsValue : BitVec 64) (bits : ℕ) : BitVec 64 :=
  if bits = 64 then bitsValue else bitsValue &&& ((1 <<< bits) - 1)

/-- The value the catalog declares a stored integer to be: its bits, at the width they were stored,
read at the declared signedness. -/
def declaredValue (stored : ℤ) (bits : ℕ) (declaredSigned : Bool) : ℤ :=
  let key := storedKey stored
  if declaredSigned then (signExtend key bits).toInt else (zeroExtend key bits).toNat

section Extend

variable {bits : ℕ}

/-- The widths integers are stored at. -/
def Width (bits : ℕ) : Prop := bits = 8 ∨ bits = 16 ∨ bits = 32 ∨ bits = 64

theorem IntType.width (t : IntType) : Width t.bits := t.bits_cases

theorem Width.le (h : Width bits) : bits ≤ 64 := by
  rcases h with rfl | rfl | rfl | rfl <;> decide

/-- **Sign extension is the signed reading of the low bits.** -/
theorem toInt_signExtend (h : Width bits) (v : BitVec 64) :
    (signExtend v bits).toInt = read true bits v.toNat := by
  have hv := v.isLt
  rw [signExtend, BitVec.toInt_sshiftRight, BitVec.toInt_shiftLeft, read_true,
    Int.shiftRight_eq_div_pow, Nat.shiftLeft_eq]
  rcases h with rfl | rfl | rfl | rfl
  all_goals
    simp only [Int.bmod_def, Nat.cast_mul, Nat.cast_ofNat, Nat.reduceSub, Nat.reducePow]
    split <;> split <;> omega

/-- **Zero extension is the unsigned reading of the low bits.** -/
theorem toNat_zeroExtend (h : Width bits) (v : BitVec 64) :
    ((zeroExtend v bits).toNat : ℤ) = read false bits v.toNat := by
  have hv := v.isLt
  rw [zeroExtend, read_false]
  rcases h with rfl | rfl | rfl | rfl
  all_goals
    simp only [Nat.reduceEqDiff, if_false, if_true, BitVec.toNat_and]
  · have hm : ((1 <<< 8 : BitVec 64) - 1).toNat = 2 ^ 8 - 1 := rfl
    rw [hm, Nat.and_two_pow_sub_one_eq_mod]; rfl
  · have hm : ((1 <<< 16 : BitVec 64) - 1).toNat = 2 ^ 16 - 1 := rfl
    rw [hm, Nat.and_two_pow_sub_one_eq_mod]; rfl
  · have hm : ((1 <<< 32 : BitVec 64) - 1).toNat = 2 ^ 32 - 1 := rfl
    rw [hm, Nat.and_two_pow_sub_one_eq_mod]; rfl
  · omega

/-- The low bits of a key are the low bits of the value. -/
theorem storedKey_toNat_emod (h : Width bits) (x : ℤ) :
    ((storedKey x).toNat : ℤ) % 2 ^ bits = x % 2 ^ bits := by
  have hd : (2 : ℤ) ^ bits ∣ 2 ^ 64 := pow_dvd_pow 2 h.le
  rw [storedKey, toNat_ofInt_eq_read, read_false, Int.emod_emod_of_dvd _ hd]

/-- **The declared value is a reading of the stored one** — at the stored width, with the declared
sign. -/
theorem declaredValue_eq_read (h : Width bits) (x : ℤ) (declaredSigned : Bool) :
    declaredValue x bits declaredSigned = read declaredSigned bits x := by
  have hk := storedKey_toNat_emod h x
  cases declaredSigned with
  | false =>
    rw [← read_congr false hk, ← toNat_zeroExtend h]
    rfl
  | true =>
    rw [← read_congr true hk, ← toInt_signExtend h]
    rfl

/-- A value of 64 bits fits a width, unsigned, exactly when the width's range holds it. -/
theorem fitsUnsigned_iff (h : Width bits) (v : BitVec 64) :
    fitsUnsigned v bits = true ↔ InRange false bits v.toNat := by
  have hv := v.isLt
  rw [fitsUnsigned, inRange_false]
  have hs : (v >>> bits == 0) = true ↔ v.toNat / 2 ^ bits = 0 := by
    rw [beq_iff_eq, ← BitVec.toNat_inj, BitVec.toNat_ushiftRight, Nat.shiftRight_eq_div_pow]
    rfl
  rw [Bool.or_eq_true, hs, beq_iff_eq, Nat.div_eq_zero_iff]
  rcases h with rfl | rfl | rfl | rfl
  all_goals try simp
  omega

/-- A value of 64 bits fits a width, signed, exactly when the width's range holds it. -/
theorem fitsSigned_iff (h : Width bits) (v : BitVec 64) :
    fitsSigned v bits = true ↔ InRange true bits v.toInt := by
  have hlo := BitVec.le_toInt v
  have hhi := BitVec.toInt_lt (x := v)
  rw [fitsSigned, inRange_true]
  rcases h with rfl | rfl | rfl | rfl <;> (simp at hlo hhi ⊢; omega)

end Extend

/-- The value a key narrowed to a stored width stands for. -/
def keyValue (key : BitVec 64) (signed : Bool) : ℤ :=
  if signed then key.toInt else key.toNat

/-- A key stands for the reading of its 64 bits. -/
theorem keyValue_eq_read (key : BitVec 64) (signed : Bool) :
    keyValue key signed = read signed 64 key.toNat := by
  cases signed with
  | false =>
    have h : InRange false 64 (key.toNat : ℤ) := ⟨by positivity, by exact_mod_cast key.isLt⟩
    rw [read_eq_self h]
    rfl
  | true =>
    rw [read_true]
    exact BitVec.toInt_eq_toNat_bmod key

/-- Two keys that stand for one value are one key. -/
theorem keyValue_injective (signed : Bool) : Function.Injective fun k => keyValue k signed := by
  intro k l h
  cases signed with
  | false => exact BitVec.eq_of_toNat_eq (Int.ofNat_inj.mp h)
  | true => exact BitVec.eq_of_toInt_eq h

/-- The key of a value stands for it. -/
theorem keyValue_storedKey {signed : Bool} {x : ℤ} (h : InRange signed 64 x) :
    keyValue (storedKey x) signed = x := by
  rw [keyValue_eq_read, storedKey, toNat_ofInt_eq_read, read_read, read_eq_self h]

/-- A key is a stored value's exactly when it stands for the value. -/
theorem eq_storedKey_iff {signed : Bool} {x : ℤ} (h : InRange signed 64 x) (key : BitVec 64) :
    key = storedKey x ↔ keyValue key signed = x := by
  constructor
  · rintro rfl
    exact keyValue_storedKey h
  · intro hk
    exact keyValue_injective signed (hk.trans (keyValue_storedKey h).symm)

/-! ## The values a filter carries -/

/-- The integer values a filter carries, at the signedness the catalog declares. -/
inductive IntValues
  | unsigned (values : List (BitVec 64))
  | signed (values : List (BitVec 64))
  deriving DecidableEq, Repr

namespace IntValues

/-- Whether the values are signed. -/
def isSigned : IntValues → Bool
  | unsigned _ => false
  | signed _ => true

/-- The values themselves, as numbers. -/
def numbers : IntValues → List ℤ
  | unsigned values => values.map fun v => v.toNat
  | signed values => values.map fun v => v.toInt

/-- The keys of the values that fit a stored width, in order.  A value that does not fit matches no
stored value, so it has no key. -/
def keysAt (ints : IntValues) (bits : ℕ) (signed : Bool) : List (BitVec 64) :=
  match ints with
  | .unsigned values =>
    (values.filter fun v => fitsUnsigned v bits).map fun v =>
      if signed then signExtend v bits else v
  | .signed values =>
    (values.filter fun v => fitsSigned v bits).map fun v =>
      if signed then v else zeroExtend v bits

/-- The keys, in `storedKey` terms, at a stored type; nothing when it is not an integer. -/
def storedKeys (ints : IntValues) (stored : DataType) : Option (List (BitVec 64)) :=
  (widthOf stored).map fun width => ints.keysAt width.1 width.2

/-- The values of an integer array, widened at the array's signedness.  Nulls are read as whatever
their slots hold. -/
def ofSlots (t : IntType) (slots : List (Slot t.Native)) : IntValues :=
  if t.signed then signed (slots.map fun s => BitVec.ofInt 64 (t.value s.value))
  else unsigned (slots.map fun s => BitVec.ofInt 64 (t.value s.value))

@[simp] theorem isSigned_ofSlots (t : IntType) (slots : List (Slot t.Native)) :
    (ofSlots t slots).isSigned = t.signed := by
  unfold ofSlots
  cases t.signed <;> rfl

/-- Widening keeps every value. -/
theorem numbers_ofSlots (t : IntType) (slots : List (Slot t.Native)) :
    (ofSlots t slots).numbers = slots.map fun s => t.value s.value := by
  have hread (b : t.Native) : keyValue (storedKey (t.value b)) t.signed = t.value b :=
    keyValue_storedKey ((t.holds_value b).mono t.bits_le)
  unfold ofSlots
  cases hs : t.signed with
  | false =>
    rw [hs] at hread
    simp only [Bool.false_eq_true, if_false, numbers, List.map_map]
    exact List.map_congr_left fun s _ => hread s.value
  | true =>
    rw [hs] at hread
    simp only [if_true, numbers, List.map_map]
    exact List.map_congr_left fun s _ => hread s.value

/-- **What the keys at a stored width stand for** — the stored reading of each listed number the
width can hold under the declared one. -/
theorem mem_keysAt {bits : ℕ} (h : Width bits) (signed : Bool) (ints : IntValues)
    (key : BitVec 64) :
    key ∈ ints.keysAt bits signed ↔
      ∃ n ∈ ints.numbers, InRange ints.isSigned bits n ∧ keyValue key signed = read signed bits n := by
  have key_eq (k l : BitVec 64) (s : Bool) : k = l ↔ keyValue l s = keyValue k s :=
    ⟨fun e => by rw [e], fun e => keyValue_injective s e.symm⟩
  cases ints with
  | unsigned values =>
    have hext (v : BitVec 64) (hv : InRange false bits v.toNat) :
        keyValue (if signed then signExtend v bits else v) signed = read signed bits v.toNat := by
      cases signed with
      | false => exact (read_eq_self hv).symm
      | true => exact toInt_signExtend h v
    simp only [keysAt, numbers, isSigned, List.mem_map, List.mem_filter, fitsUnsigned_iff h]
    constructor
    · rintro ⟨v, ⟨hv, hfit⟩, hk⟩
      exact ⟨v.toNat, ⟨v, hv, rfl⟩, hfit, by rw [← hk, hext v hfit]⟩
    · rintro ⟨_, ⟨v, hv, rfl⟩, hfit, hk⟩
      exact ⟨v, ⟨hv, hfit⟩, (key_eq _ _ signed).mpr (by rw [hk, hext v hfit])⟩
  | signed values =>
    have hext (v : BitVec 64) (hv : InRange true bits v.toInt) :
        keyValue (if signed then v else zeroExtend v bits) signed = read signed bits v.toInt := by
      cases signed with
      | false =>
        have hz := toNat_zeroExtend h v
        have hi : v.toInt = read true 64 v.toNat := keyValue_eq_read v true
        rw [hi, read_read_of_le false true h.le, ← hz]
        rfl
      | true => exact (read_eq_self hv).symm
    simp only [keysAt, numbers, isSigned, List.mem_map, List.mem_filter, fitsSigned_iff h]
    constructor
    · rintro ⟨v, ⟨hv, hfit⟩, hk⟩
      exact ⟨v.toInt, ⟨v, hv, rfl⟩, hfit, by rw [← hk, hext v hfit]⟩
    · rintro ⟨_, ⟨v, hv, rfl⟩, hfit, hk⟩
      exact ⟨v, ⟨hv, hfit⟩, (key_eq _ _ signed).mpr (by rw [hk, hext v hfit])⟩

/-- **A stored value's key is listed exactly when the value it declares is** — a filter narrows its
values to the stored width and loses none the column can hold. -/
theorem storedKey_mem_keysAt (ints : IntValues) (t : IntType) (b : t.Native) :
    storedKey (t.value b) ∈ ints.keysAt t.bits t.signed ↔
      declaredValue (t.value b) t.bits ints.isSigned ∈ ints.numbers := by
  have hb := t.holds_value b
  rw [mem_keysAt t.width, declaredValue_eq_read t.width, keyValue_storedKey (hb.mono t.bits_le)]
  constructor
  · rintro ⟨n, hn, hfit, hv⟩
    rw [hv, read_read, read_eq_self hfit]
    exact hn
  · intro hn
    refine ⟨_, hn, read_inRange _ _ _, ?_⟩
    rw [read_read, read_eq_self hb]

end IntValues

/-! ## Integer columns -/

/-- An integer column, resolved once: its type and its slots. -/
structure IntColumn where
  type : IntType
  slots : List (Slot type.Native)

namespace IntColumn

/-- The reader for a column's physical width, or nothing when the column is not an integer. -/
def resolve : Column → Option IntColumn
  | .scalar (.int t) rows => some ⟨t, rows⟩
  | _ => none

/-- The value at each row, exactly, nulls included as whatever their slots hold. -/
def values (c : IntColumn) : List ℤ := c.slots.map fun s => c.type.value s.value

/-- The value at each row as a block number: reinterpreted as unsigned. -/
def blockNumbers (c : IntColumn) : List ℕ := c.slots.map fun s => s.value.toNat

/-- The value at each row as eight bytes of composite join key: widened rather than reinterpreted. -/
def joinKeys (c : IntColumn) : List (BitVec 64) :=
  c.slots.map fun s => storedKey (c.type.value s.value)

/-- How many of its rows are null. -/
def nullCount (c : IntColumn) : ℕ := c.slots.countP fun s => !s.valid

end IntColumn

/-- Rows of unsigned `values` at least `lo` and at most `hi`.  A bound the width cannot hold is not
truncated into it: a `lo` above it matches nothing, and a `hi` above it constrains nothing. -/
def within {bits : ℕ} (values : List (Slot (BitVec bits))) (lo hi : Option ℕ) : Mask :=
  let compare (test : ℕ → Bool) : Mask := values.map fun s => s.get?.map fun v => test v.toNat
  let low := lo.filter fun bound => decide (0 < bound)
  let high := hi.filter fun bound => decide (bound < 2 ^ bits)
  match low, high with
  | some low, high =>
    if 2 ^ bits ≤ low then Mask.all values.length false
    else
      match high with
      | some high => Mask.and (compare fun v => decide (low ≤ v)) (compare fun v => decide (v ≤ high))
      | none => compare fun v => decide (low ≤ v)
  | none, some high => compare fun v => decide (v ≤ high)
  | none, none => compare fun _ => true

/-- Whether each row's block number is at least `lo` and at most `hi`; a null row's answer is
null. -/
def IntColumn.blockNumbersWithin (c : IntColumn) (lo hi : Option ℕ) : Mask :=
  within c.slots lo hi

/-- The block number a row-group statistic states, widened by the rule a value of the same column
is: cut to the column's own width, which parquet's statistic is wider than. -/
def blockNumberAt (dataType : DataType) (stat : BitVec 64) : Option ℕ :=
  match dataType with
  | .scalar (.int t) => some (stat.setWidth t.bits).toNat
  | _ => none

/-- **The range mask keeps a row exactly when its block number is in the range.** -/
theorem kept_within {bits : ℕ} (values : List (Slot (BitVec bits))) (lo hi : Option ℕ) :
    Mask.kept (within values lo hi) = values.map fun s => s.get?.any fun v =>
      lo.all (fun b => decide (b ≤ v.toNat)) && hi.all (fun b => decide (v.toNat ≤ b)) := by
  have hlow (v : BitVec bits) : lo.all (fun b => decide (b ≤ v.toNat)) =
      (lo.filter fun b => decide (0 < b)).all fun b => decide (b ≤ v.toNat) := by
    rcases lo with _ | _ | b <;> simp [Option.filter]
  have hhigh (v : BitVec bits) : hi.all (fun b => decide (v.toNat ≤ b)) =
      (hi.filter fun b => decide (b < 2 ^ bits)).all fun b => decide (v.toNat ≤ b) := by
    rcases hi with _ | b
    · rfl
    · by_cases hb : b < 2 ^ bits
      · simp [Option.filter, hb]
      · have hv := v.isLt
        simp [Option.filter, hb]
        omega
  simp only [hlow, hhigh, within]
  generalize lo.filter (fun b => decide (0 < b)) = low
  generalize hi.filter (fun b => decide (b < 2 ^ bits)) = high
  rcases low with _ | low
  · cases high <;> simp
  · by_cases hwide : 2 ^ bits ≤ low
    · -- the width holds nothing as large as the bound
      simp only [hwide, if_true, Mask.kept_all]
      rw [← List.map_const']
      refine List.map_congr_left fun s _ => ?_
      cases s.get? with
      | none => rfl
      | some v =>
        have hv := v.isLt
        simp
        omega
    · simp only [hwide, if_false]
      cases high with
      | none => simp
      | some high =>
        simp only [and_map, kept_map]
        refine List.map_congr_left fun s _ => ?_
        cases s.get? <;> simp

end QueryEngine
