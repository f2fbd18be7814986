import QueryEngine.Library.JsonGrammar

/-!
# Library/JsonStrings — what a JSON string says

A JSON string stands for the text its characters say: a plain byte says itself, an escape the byte it names.  Of the
`\u` escapes those of an ASCII character are read.
-/

namespace JsonGrammar

open Numerals

/-- The byte a single-letter escape names. -/
def escapeValue (e : UInt8) : Option UInt8 :=
  if e = 34 ∨ e = 92 ∨ e = 47 then some e
  else if e = 98 then some 8
  else if e = 102 then some 12
  else if e = 110 then some 10
  else if e = 114 then some 13
  else if e = 116 then some 9
  else none

/-- The ASCII character four hex digits name. -/
def asciiValue (a b c d : UInt8) : Option UInt8 :=
  match charDigit a, charDigit b, charDigit c, charDigit d with
  | some 0, some 0, some hi, some lo => if hi < 8 then some (UInt8.ofNat (16 * hi + lo)) else none
  | _, _, _, _ => none

/-- What characters between quotes say, where they may stand there. -/
def unescape : List UInt8 → Option (List UInt8)
  | [] => some []
  | [b] => if IsPlain b then some [b] else none
  | b :: e :: rest =>
    if b = 92 then
      if e = 117 then
        match rest with
        | x :: y :: z :: w :: rest => (asciiValue x y z w).bind fun v => (unescape rest).map (v :: ·)
        | _ => none
      else (escapeValue e).bind fun v => (unescape rest).map (v :: ·)
    else if IsPlain b then (unescape (e :: rest)).map (b :: ·) else none

/-- **The content of a JSON string**: what stands between its quotes says. -/
def stringContent : List UInt8 → Option (List UInt8)
  | [] => none
  | q :: rest => if q = 34 ∧ rest.getLast? = some 34 then unescape rest.dropLast else none

theorem unescape_plain {b : UInt8} (h : IsPlain b) (rest : List UInt8) :
    unescape (b :: rest) = (unescape rest).map (b :: ·) := by
  cases rest with
  | nil => simp [unescape, h]
  | cons e rest =>
    rw [unescape.eq_def]
    simp only [if_neg h.2.2, if_pos h]

theorem unescape_escape {e v : UInt8} (h : escapeValue e = some v) (rest : List UInt8) :
    unescape (92 :: e :: rest) = (unescape rest).map (v :: ·) := by
  have he : e ≠ 117 := by
    rintro rfl
    exact Option.some_ne_none v (h.symm.trans (by decide))
  rw [unescape.eq_def]
  simp only [if_neg he, h, ↓reduceIte, Option.bind_some]

theorem unescape_ascii {x y z w v : UInt8} (h : asciiValue x y z w = some v) (rest : List UInt8) :
    unescape (92 :: 117 :: x :: y :: z :: w :: rest) = (unescape rest).map (v :: ·) := by
  rw [unescape.eq_def]
  simp only [h, ↓reduceIte, Option.bind_some]

/-- A character's two hex digits name it. -/
theorem asciiValue_hexByte {b : UInt8} (h : b < 128) :
    asciiValue 48 48 (digitChar (b.toNat / 16)) (digitChar (b.toNat % 16)) = some b := by
  have hb : b.toNat < 128 := UInt8.lt_iff_toNat_lt.mp h
  have hzero : charDigit 48 = some 0 := rfl
  rw [asciiValue, hzero, charDigit_digitChar (by omega), charDigit_digitChar (by omega)]
  simp only
  rw [if_pos (by omega), Nat.div_add_mod, UInt8.ofNat_toNat]

/-- Plain bytes say themselves. -/
theorem unescape_of_plain : ∀ {xs : List UInt8}, (∀ b ∈ xs, IsPlain b) → unescape xs = some xs
  | [], _ => rfl
  | b :: xs, h => by
    rw [unescape_plain (h b List.mem_cons_self), unescape_of_plain fun c hc => h c (List.mem_cons_of_mem _ hc),
      Option.map_some]

/-- **Bytes escaped one by one say the bytes.** -/
theorem unescape_flatMap {escape : UInt8 → List UInt8}
    (h : ∀ b rest, unescape (escape b ++ rest) = (unescape rest).map (b :: ·)) : ∀ xs : List UInt8,
    unescape (xs.flatMap escape) = some xs
  | [] => rfl
  | b :: xs => by rw [List.flatMap_cons, h, unescape_flatMap h xs, Option.map_some]

/-- Between quotes stands what says the content. -/
theorem stringContent_quoted (chars : List UInt8) : stringContent (34 :: chars ++ [34]) = unescape chars := by
  simp [stringContent]

end JsonGrammar
