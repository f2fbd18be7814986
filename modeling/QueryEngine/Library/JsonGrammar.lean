import QueryEngine.Library.Numerals

/-!
# Library/JsonGrammar — which byte strings are JSON

The grammar of JSON texts, over bytes: a value is a literal, a number, a string, or an array or an object of values,
with space around it or not.
-/

namespace JsonGrammar

open Numerals

/-! ## Strings -/

/-- A byte that stands for itself in a string. -/
def IsPlain (b : UInt8) : Prop := 0x20 ≤ b ∧ b ≠ 34 ∧ b ≠ 92

instance (b : UInt8) : Decidable (IsPlain b) := inferInstanceAs (Decidable (_ ∧ _))

/-- A byte that a backslash escapes. -/
def IsEscaped (b : UInt8) : Prop := b ∈ [34, 92, 47, 98, 102, 110, 114, 116]

instance (b : UInt8) : Decidable (IsEscaped b) := inferInstanceAs (Decidable (_ ∈ _))

/-- A hexadecimal digit. -/
def IsHexDigit (b : UInt8) : Prop := 48 ≤ b ∧ b ≤ 57 ∨ 65 ≤ b ∧ b ≤ 70 ∨ 97 ≤ b ∧ b ≤ 102

instance (b : UInt8) : Decidable (IsHexDigit b) := inferInstanceAs (Decidable (_ ∨ _))

/-- What may stand between a string's quotes. -/
inductive IsChars : List UInt8 → Prop
  | nil : IsChars []
  | plain {b : UInt8} {rest : List UInt8} : IsPlain b → IsChars rest → IsChars (b :: rest)
  | escape {b : UInt8} {rest : List UInt8} : IsEscaped b → IsChars rest → IsChars (92 :: b :: rest)
  | unicode {a b c d : UInt8} {rest : List UInt8} : IsHexDigit a → IsHexDigit b → IsHexDigit c → IsHexDigit d →
      IsChars rest → IsChars (92 :: 117 :: a :: b :: c :: d :: rest)

/-- A string, quotes and all. -/
def IsString (text : List UInt8) : Prop := ∃ chars, IsChars chars ∧ text = 34 :: chars ++ [34]

theorem IsChars.append {xs ys : List UInt8} (hx : IsChars xs) (hy : IsChars ys) : IsChars (xs ++ ys) := by
  induction hx with
  | nil => exact hy
  | plain hb _ ih => exact .plain hb ih
  | escape hb _ ih => exact .escape hb ih
  | unicode ha hb hc hd _ ih => exact .unicode ha hb hc hd ih

theorem isChars_of_plain : ∀ {xs : List UInt8}, (∀ b ∈ xs, IsPlain b) → IsChars xs
  | [], _ => .nil
  | b :: _, h => .plain (h b List.mem_cons_self) (isChars_of_plain fun c hc => h c (List.mem_cons_of_mem _ hc))

theorem isChars_flatMap {α : Type} {f : α → List UInt8} (h : ∀ a, IsChars (f a)) : ∀ xs : List α, IsChars (xs.flatMap f)
  | [] => .nil
  | x :: xs => (h x).append (isChars_flatMap h xs)

/-! ## Numbers -/

/-- A decimal digit. -/
def IsDigit (b : UInt8) : Prop := 48 ≤ b ∧ b ≤ 57

/-- The integer part of a number: no digit before it is a zero. -/
def IsIntegerPart (ds : List UInt8) : Prop := ds = [48] ∨ ∃ d rest, ds = d :: rest ∧ 49 ≤ d ∧ d ≤ 57 ∧ ∀ b ∈ rest,
    IsDigit b

/-- A fraction, or none. -/
def IsFraction (text : List UInt8) : Prop := text = [] ∨ ∃ ds, text = 46 :: ds ∧ ds ≠ [] ∧ ∀ b ∈ ds, IsDigit b

/-- An exponent, or none. -/
def IsExponent (text : List UInt8) : Prop := text = [] ∨ ∃ e sign ds, text = e :: sign ++ ds ∧ (e = 101 ∨ e = 69) ∧
  (sign = [] ∨ sign = [43] ∨ sign = [45]) ∧ ds ≠ [] ∧ ∀ b ∈ ds, IsDigit b

/-- A number. -/
def IsNumber (text : List UInt8) : Prop := ∃ sign ds fraction exponent, text = sign ++ ds ++ fraction ++ exponent ∧
  (sign = [] ∨ sign = [45]) ∧ IsIntegerPart ds ∧ IsFraction fraction ∧ IsExponent exponent

/-! ## Values -/

/-- Space, as JSON has it. -/
def IsSpace (text : List UInt8) : Prop := ∀ b ∈ text, b ∈ [(32 : UInt8), 9, 10, 13]

/-- A key of an object: a string, with space around it or not. -/
def IsKey (text : List UInt8) : Prop := ∃ before key after, IsSpace before ∧ IsString key ∧ IsSpace after ∧
  text = before ++ key ++ after

/-- A member of an object, as it is written. -/
def memberText (m : List UInt8 × List UInt8) : List UInt8 := m.1 ++ [58] ++ m.2

/-- **A JSON text.** -/
inductive IsValue : List UInt8 → Prop
  | null : IsValue [110, 117, 108, 108]
  | true : IsValue [116, 114, 117, 101]
  | false : IsValue [102, 97, 108, 115, 101]
  | number {text : List UInt8} : IsNumber text → IsValue text
  | string {text : List UInt8} : IsString text → IsValue text
  | array {elements : List (List UInt8)} : (∀ e ∈ elements, IsValue e) → IsValue
    ([91] ++ List.intercalate [44] elements ++ [93])
  | object {members : List (List UInt8 × List UInt8)} : (∀ m ∈ members, IsKey m.1) → (∀ m ∈ members, IsValue m.2) →
      IsValue ([123] ++ List.intercalate [44] (members.map memberText) ++ [125])
  | emptyArray {space : List UInt8} : IsSpace space → IsValue ([91] ++ space ++ [93])
  | emptyObject {space : List UInt8} : IsSpace space → IsValue ([123] ++ space ++ [125])
  | spaced {before text after : List UInt8} : IsSpace before → IsValue text → IsSpace after → IsValue
    (before ++ text ++ after)

theorem IsString.isKey {text : List UInt8} (h : IsString text) : IsKey text :=
  ⟨[], text, [], nofun, h, nofun, by simp⟩

theorem IsString.of_plain {chars : List UInt8} (h : ∀ b ∈ chars, IsPlain b) : IsString (34 :: chars ++ [34]) :=
  ⟨chars, isChars_of_plain h, rfl⟩

/-! ## Numerals are numbers -/

theorem isDigit_digitChar {d : ℕ} (h : d < 10) : IsDigit (digitChar d) := by
  unfold IsDigit
  interval_cases d <;> decide

/-- A numeral starts with no zero but its own. -/
theorem isIntegerPart_numeral (n : ℕ) : IsIntegerPart (numeral 10 n) := by
  unfold numeral
  split
  · exact .inl rfl
  · next h0 =>
    rw [digits_eq (by decide)]
    have hne : Nat.digits 10 n ≠ [] := Nat.digits_ne_nil_iff_ne_zero.mpr h0
    have hlast := Nat.getLast_digit_ne_zero 10 h0
    have hlt : ∀ d ∈ Nat.digits 10 n, d < 10 := fun d hd => Nat.digits_lt_base (by decide) hd
    obtain ⟨ds, d, hds⟩ : ∃ ds d, Nat.digits 10 n = ds ++ [d] := ⟨_, _, (List.dropLast_append_getLast hne).symm⟩
    simp only [hds, List.getLast_append_singleton] at hlast hlt ⊢
    have hd : d < 10 := hlt d (by simp)
    refine .inr ⟨digitChar d, ds.reverse.map digitChar, by simp, ?_, ?_, ?_⟩
    · interval_cases d <;> first | exact absurd rfl hlast | decide
    · interval_cases d <;> decide
    · intro b hb
      obtain ⟨e, he, rfl⟩ := List.mem_map.mp hb
      exact isDigit_digitChar (hlt e (by simpa using .inl (List.mem_reverse.mp he)))

/-- **A decimal numeral is a number.** -/
theorem isNumber_decimal (v : ℤ) : IsNumber (decimal v) := by
  unfold decimal
  split
  · exact ⟨[45], numeral 10 v.natAbs, [], [], by simp, .inr rfl, isIntegerPart_numeral _, .inl rfl, .inl rfl⟩
  · exact ⟨[], numeral 10 v.natAbs, [], [], by simp, .inl rfl, isIntegerPart_numeral _, .inl rfl, .inl rfl⟩

/-- The bytes of a decimal numeral stand for themselves. -/
theorem isPlain_decimal {v : ℤ} {b : UInt8} (hb : b ∈ decimal v) : IsPlain b := by
  rcases mem_decimal hb with rfl | ⟨d, hd, rfl⟩
  · decide
  · interval_cases d <;> decide

/-! ## Members -/

/-- A member of an object. -/
def IsMember (text : List UInt8) : Prop := ∃ key value, IsKey key ∧ IsValue value ∧ text = key ++ [58] ++ value

/-- **Members with commas between them are an object.** -/
theorem IsValue.of_members {members : List (List UInt8)} (h : ∀ m ∈ members, IsMember m) :
    IsValue ([123] ++ List.intercalate [44] members ++ [125]) := by
  choose! key value hkey hvalue htext using h
  have hmembers : members = (members.map fun m => (key m, value m)).map memberText := by
    rw [List.map_map]
    exact (List.map_id members).symm.trans (List.map_congr_left fun m hm => htext m hm)
  rw [hmembers]
  refine .object (fun m hm => ?_) fun m hm => ?_
  all_goals
    obtain ⟨text, hmem, rfl⟩ := List.mem_map.mp hm
  · exact hkey text hmem
  · exact hvalue text hmem

end JsonGrammar
