import Mathlib

/-!
# Library/Numerals — numbers as bytes and as text, and back

A number is written three ways: as a fixed count of bytes in either order, as a numeral in a base,
and as a byte string's hex text.  Each has a reading that undoes it, which is what makes an equality
of texts an equality of numbers.
-/

namespace Numerals

/-! ## Words of bytes -/

/-- The low `k` bytes of a number, least significant first. -/
def leBytes : ℕ → ℕ → List UInt8
  | 0, _ => []
  | k + 1, n => UInt8.ofNat n :: leBytes k (n / 256)

/-- The same bytes, most significant first. -/
def beBytes (k n : ℕ) : List UInt8 := (leBytes k n).reverse

/-- The number some bytes are, least significant first. -/
def ofLeBytes : List UInt8 → ℕ
  | [] => 0
  | b :: bs => b.toNat + 256 * ofLeBytes bs

/-- The number some bytes are, most significant first. -/
def ofBeBytes (bs : List UInt8) : ℕ := ofLeBytes bs.reverse

@[simp] theorem length_leBytes : ∀ k n : ℕ, (leBytes k n).length = k
  | 0, _ => rfl
  | k + 1, n => by rw [leBytes, List.length_cons, length_leBytes k]

@[simp] theorem length_beBytes (k n : ℕ) : (beBytes k n).length = k := by simp [beBytes]

/-- So many bytes are a number of so many bytes. -/
theorem ofLeBytes_lt : ∀ bs : List UInt8, ofLeBytes bs < 256 ^ bs.length
  | [] => by simp [ofLeBytes]
  | b :: bs => by
    have hb := b.toNat_lt
    have hbs := ofLeBytes_lt bs
    rw [ofLeBytes, List.length_cons, pow_succ]
    omega

theorem ofBeBytes_lt (bs : List UInt8) : ofBeBytes bs < 256 ^ bs.length := by
  simpa [ofBeBytes] using ofLeBytes_lt bs.reverse

/-- Bytes read back are the number, as far as they reach. -/
theorem ofLeBytes_leBytes : ∀ k n : ℕ, ofLeBytes (leBytes k n) = n % 256 ^ k
  | 0, n => by simp [leBytes, ofLeBytes, Nat.mod_one]
  | k + 1, n => by
    have hb : (UInt8.ofNat n).toNat = n % 256 := UInt8.toNat_ofNat'
    rw [leBytes, ofLeBytes, ofLeBytes_leBytes k, hb, pow_succ']
    exact (Nat.mod_mul ..).symm

/-- **A number that fits its bytes is read back from them.** -/
theorem ofBeBytes_beBytes {k n : ℕ} (h : n < 256 ^ k) : ofBeBytes (beBytes k n) = n := by
  rw [ofBeBytes, beBytes, List.reverse_reverse, ofLeBytes_leBytes, Nat.mod_eq_of_lt h]

/-- **Numbers that fit their bytes are told apart by them.** -/
theorem leBytes_inj {k m n : ℕ} (hm : m < 256 ^ k) (hn : n < 256 ^ k) :
    leBytes k m = leBytes k n ↔ m = n := by
  constructor
  · intro h
    have h' := congrArg ofLeBytes h
    rwa [ofLeBytes_leBytes, ofLeBytes_leBytes, Nat.mod_eq_of_lt hm, Nat.mod_eq_of_lt hn] at h'
  · rintro rfl
    rfl

/-! ## Numerals -/

/-- The digits of a number, least significant first, at most `fuel` of them. -/
def digitsUpTo (base : ℕ) : ℕ → ℕ → List ℕ
  | 0, _ => []
  | fuel + 1, n => if n = 0 then [] else n % base :: digitsUpTo base fuel (n / base)

/-- The digits of a number, least significant first: as many as it has bits are enough. -/
def digits (base n : ℕ) : List ℕ := digitsUpTo base (n.log2 + 1) n

theorem digitsUpTo_eq {base : ℕ} (h : 2 ≤ base) :
    ∀ fuel n : ℕ, n < 2 ^ fuel → digitsUpTo base fuel n = Nat.digits base n
  | 0, n, hn => by
    obtain rfl : n = 0 := by omega
    simp [digitsUpTo]
  | fuel + 1, n, hn => by
    rw [digitsUpTo]
    split
    · next h0 => simp [h0]
    · next h0 =>
      have hlt : n / base < 2 ^ fuel := by
        calc n / base ≤ n / 2 := Nat.div_le_div_left h (by decide)
          _ < 2 ^ fuel := by rw [pow_succ] at hn; omega
      rw [digitsUpTo_eq h fuel _ hlt, ← Nat.digits_def' h (by omega)]

/-- **These are the digits of the number.** -/
theorem digits_eq {base : ℕ} (h : 2 ≤ base) (n : ℕ) : digits base n = Nat.digits base n :=
  digitsUpTo_eq h _ n Nat.lt_log2_self

/-- The character of a digit, lower-case above nine. -/
def digitChar (d : ℕ) : UInt8 := if d < 10 then UInt8.ofNat (48 + d) else UInt8.ofNat (87 + d)

/-- The digit a character is. -/
def charDigit (c : UInt8) : Option ℕ :=
  if 48 ≤ c.toNat ∧ c.toNat ≤ 57 then some (c.toNat - 48)
  else if 97 ≤ c.toNat ∧ c.toNat ≤ 102 then some (c.toNat - 87)
  else none

theorem charDigit_digitChar {d : ℕ} (h : d < 16) : charDigit (digitChar d) = some d := by
  interval_cases d <;> rfl

/-- A number's numeral in a base up to sixteen. -/
def numeral (base n : ℕ) : List UInt8 :=
  if n = 0 then [digitChar 0] else (digits base n).reverse.map digitChar

/-- The number a text is the numeral of, if it is one. -/
def numeralValue (base : ℕ) (text : List UInt8) : Option ℕ :=
  if text = [] then none else (text.mapM charDigit).map fun ds => Nat.ofDigits base ds.reverse

/-- Characters of digits read back as the digits. -/
theorem mapM_charDigit : ∀ ds : List ℕ, (∀ d ∈ ds, d < 16) →
    (ds.map digitChar).mapM charDigit = some ds
  | [], _ => rfl
  | d :: ds, h => by
    have hd := charDigit_digitChar (h d (List.mem_cons_self ..))
    have ih := mapM_charDigit ds fun e he => h e (List.mem_cons_of_mem _ he)
    simp [List.mapM_cons, hd, ih]

/-- **A numeral denotes its number.** -/
theorem numeralValue_numeral {base : ℕ} (h : 2 ≤ base) (hb : base ≤ 16) (n : ℕ) :
    numeralValue base (numeral base n) = some n := by
  unfold numeral numeralValue
  split
  · next h0 =>
    subst h0
    simp [charDigit_digitChar]
  · next h0 =>
    rw [digits_eq h]
    have hne : Nat.digits base n ≠ [] := Nat.digits_ne_nil_iff_ne_zero.mpr h0
    have hlt : ∀ d ∈ (Nat.digits base n).reverse, d < 16 := fun d hd =>
      (Nat.digits_lt_base h (List.mem_reverse.mp hd)).trans_le hb
    rw [if_neg (by simpa using hne), mapM_charDigit _ hlt, Option.map_some, List.reverse_reverse,
      Nat.ofDigits_digits]

/-- An integer's decimal numeral, a minus sign before it when it is negative. -/
def decimal (v : ℤ) : List UInt8 :=
  if v < 0 then 45 :: numeral 10 v.natAbs else numeral 10 v.natAbs

/-- The integer a text is the decimal numeral of, if it is one. -/
def decimalValue : List UInt8 → Option ℤ
  | [] => none
  | c :: text =>
    if c = 45 then (numeralValue 10 text).map fun n : ℕ => -(n : ℤ)
    else (numeralValue 10 (c :: text)).map fun n : ℕ => (n : ℤ)

/-- A numeral is written in digits of its base. -/
theorem mem_numeral {base : ℕ} (h : 2 ≤ base) {n : ℕ} {c : UInt8} (hc : c ∈ numeral base n) :
    ∃ d < base, c = digitChar d := by
  unfold numeral at hc
  split at hc
  · exact ⟨0, by omega, List.mem_singleton.mp hc⟩
  · rw [digits_eq h] at hc
    obtain ⟨d, hd, rfl⟩ := List.mem_map.mp hc
    exact ⟨d, Nat.digits_lt_base h (List.mem_reverse.mp hd), rfl⟩

theorem numeral_ne_nil {base : ℕ} (h : 2 ≤ base) (n : ℕ) : numeral base n ≠ [] := by
  unfold numeral
  split
  · exact List.cons_ne_nil _ _
  · next h0 =>
    rw [digits_eq h]
    simpa using Nat.digits_ne_nil_iff_ne_zero.mpr h0

/-- A decimal numeral is written in digits and a minus sign. -/
theorem mem_decimal {v : ℤ} {c : UInt8} (hc : c ∈ decimal v) : c = 45 ∨ ∃ d < 10, c = digitChar d := by
  unfold decimal at hc
  split at hc
  · rcases List.mem_cons.mp hc with rfl | hc
    · exact .inl rfl
    · exact .inr (mem_numeral (by decide) hc)
  · exact .inr (mem_numeral (by decide) hc)

/-- **A decimal numeral denotes its integer.** -/
theorem decimalValue_decimal (v : ℤ) : decimalValue (decimal v) = some v := by
  have hv := numeralValue_numeral (by decide : 2 ≤ 10) (by decide) v.natAbs
  unfold decimal
  split
  · next hneg =>
    rw [decimalValue, if_pos rfl, hv, Option.map_some, Option.some_inj]
    omega
  · next hpos =>
    obtain ⟨c, rest, hr⟩ := List.exists_cons_of_ne_nil (numeral_ne_nil (by decide : 2 ≤ 10) v.natAbs)
    have hc : c ≠ 45 := by
      obtain ⟨d, hd, rfl⟩ := mem_numeral (by decide : 2 ≤ 10) (hr ▸ List.mem_cons_self ..)
      interval_cases d <;> decide
    rw [hr] at hv ⊢
    rw [decimalValue, if_neg hc, hv, Option.map_some, Option.some_inj]
    omega

/-! ## Hex text of bytes -/

/-- The two hex digits of a byte. -/
def hexByte (b : UInt8) : List UInt8 := [digitChar (b.toNat / 16), digitChar (b.toNat % 16)]

/-- A byte string's hex text, lower-case. -/
def hex (bs : List UInt8) : List UInt8 := bs.flatMap hexByte

/-- Hex text reads as the digits of the bytes. -/
theorem mapM_hex : ∀ bs : List UInt8,
    (hex bs).mapM charDigit = some (bs.flatMap fun b => [b.toNat / 16, b.toNat % 16])
  | [] => rfl
  | b :: bs => by
    have hb := b.toNat_lt
    have hhi := charDigit_digitChar (d := b.toNat / 16) (by omega)
    have hlo := charDigit_digitChar (d := b.toNat % 16) (by omega)
    have ih := mapM_hex bs
    simp only [hex] at ih
    simp [hex, hexByte, List.mapM_cons, hhi, hlo, ih]

/-- The digits of bytes, most significant first, are the bytes' number. -/
theorem ofDigits_hex (bs : List UInt8) :
    Nat.ofDigits 16 (bs.flatMap fun b => [b.toNat / 16, b.toNat % 16]).reverse = ofBeBytes bs := by
  unfold ofBeBytes
  induction bs using List.reverseRecOn with
  | nil => rfl
  | append_singleton bs b ih =>
    rw [List.flatMap_append, List.reverse_append, List.reverse_append, Nat.ofDigits_append, ih]
    simp [Nat.ofDigits_cons, ofLeBytes]
    omega

/-- **Hex text denotes the number its bytes are.** -/
theorem numeralValue_hex {bs : List UInt8} (h : bs ≠ []) :
    numeralValue 16 (hex bs) = some (ofBeBytes bs) := by
  have hne : hex bs ≠ [] := by
    cases bs with
    | nil => exact absurd rfl h
    | cons b bs => simp [hex, hexByte]
  rw [numeralValue, if_neg hne, mapM_hex, Option.map_some, ofDigits_hex]

end Numerals
