import QueryEngine.Library.Lookup
import QueryEngine.Output.Encoder

/-!
# Output/Base58 — a byte string and its base-58 text

The encoder pushes one byte at a time into a buffer of digits, least significant first, with a carry that runs
along it.  The buffer always holds the digits of the number read so far (`foldl_base58Push`), so a text is its
leading ones and then a numeral, which reads back as the bytes (`base58_exact`).
-/

open Numerals

namespace QueryEngine

/-! ## The digit buffer -/

/-- **Pushing a byte multiplies by 256 and adds it**, on the digits of a number. -/
theorem base58Push_digits (n carry : ℕ) :
    base58Push carry (Nat.digits 58 n) = Nat.digits 58 (n * 256 + carry) := by
  induction n using Nat.strong_induction_on generalizing carry with
  | _ n ih =>
    rcases Nat.eq_zero_or_pos n with rfl | hpos
    · rw [Nat.digits_zero, base58Push, digits_eq (by decide), Nat.zero_mul, Nat.zero_add]
    · have hdigit : (carry + n % 58 * 256) % 58 = (n * 256 + carry) % 58 := by omega
      have hrest : n / 58 * 256 + (carry + n % 58 * 256) / 58 = (n * 256 + carry) / 58 := by omega
      rw [Nat.digits_def' (by decide) hpos, base58Push, ih _ (Nat.div_lt_self hpos (by decide)),
        Nat.digits_def' (by decide) (by omega : 0 < n * 256 + carry), hdigit, hrest]

/-- What one more byte adds to the number read. -/
theorem ofBeBytes_concat (bytes : Bytes) (byte : UInt8) :
    ofBeBytes (bytes ++ [byte]) = ofBeBytes bytes * 256 + byte.toNat := by
  rw [ofBeBytes, ofBeBytes, List.reverse_append, List.reverse_singleton, List.singleton_append, ofLeBytes]
  omega

/-- **The buffer holds the digits of the number read so far.** -/
theorem foldl_base58Push (bytes : Bytes) :
    bytes.foldl (fun ds byte => base58Push byte.toNat ds) [] = Nat.digits 58 (ofBeBytes bytes) := by
  induction bytes using List.reverseRecOn with
  | nil => rw [List.foldl_nil, ofBeBytes, List.reverse_nil, ofLeBytes, Nat.digits_zero]
  | append_singleton bytes byte ih =>
    rw [List.foldl_concat, ih, base58Push_digits, ofBeBytes_concat]

/-- **The carry stays a byte**, so it never nears what 32 bits hold. -/
theorem carry_lt {carry digit : ℕ} (hcarry : carry < 256) (hdigit : digit < 58) :
    carry + digit * 256 < 2 ^ 32 ∧ (carry + digit * 256) / 58 < 256 := by omega

/-! ## Reading a text back -/

/-- The digit a character of the alphabet stands for. -/
def base58Digit (c : UInt8) : Option ℕ := base58Alphabet.idxOf? c

/-- The bytes a base-58 text stands for: a zero byte for each leading `1`, then the number the rest is. -/
def decodeBase58 (text : Bytes) : Option Bytes :=
  let ones := (text.takeWhile (· == 49)).length
  ((text.drop ones).mapM base58Digit).map fun ds =>
    List.replicate ones 0 ++ (digits 256 (Nat.ofDigits 58 ds.reverse)).reverse.map UInt8.ofNat

/-- A character of the alphabet stands for its own place. -/
theorem base58Digit_getD {d : ℕ} (h : d < 58) : base58Digit (base58Alphabet.getD d 0) = some d := by
  revert d
  decide

/-- Only the digit zero is written as a `1`. -/
theorem getD_base58Alphabet_eq_one {d : ℕ} (h : d < 58) : base58Alphabet.getD d 0 = 49 ↔ d = 0 := by
  revert d
  decide

/-- A number of bytes without a leading zero has those bytes for digits. -/
theorem digits_ofBeBytes {bytes : Bytes} (h : ∀ b ∈ bytes.head?, b ≠ 0) :
    (digits 256 (ofBeBytes bytes)).reverse.map UInt8.ofNat = bytes := by
  have hvalue (bs : Bytes) : ofLeBytes bs = Nat.ofDigits 256 (bs.map UInt8.toNat) := by
    induction bs with
    | nil => rfl
    | cons b bs ih => rw [ofLeBytes, ih, List.map_cons, Nat.ofDigits_cons]
  have hlast : ∀ hne : bytes.reverse.map UInt8.toNat ≠ [], (bytes.reverse.map UInt8.toNat).getLast hne ≠ 0 := by
    intro hne hzero
    rw [List.getLast_map, List.getLast_reverse] at hzero
    exact h _ (List.head?_eq_some_head _) (UInt8.toNat_inj.mp hzero)
  rw [digits_eq (by decide), ofBeBytes, hvalue, Nat.digits_ofDigits 256 (by decide) _
    (fun d hd => by obtain ⟨b, -, rfl⟩ := List.mem_map.mp hd; exact b.toNat_lt) hlast,
    ← List.map_reverse, List.reverse_reverse, List.map_map]
  refine (List.map_congr_left fun b _ => ?_).trans (List.map_id _)
  exact UInt8.ofNat_toNat

/-! ## Exact and invertible -/

/-- What stands between the quotes: a `1` for each leading zero byte, then the digits of the number the rest
of the bytes denotes. -/
def base58Text (bytes : Bytes) : Bytes :=
  let zeros := (bytes.takeWhile (· == 0)).length
  List.replicate zeros 49 ++
    (Nat.digits 58 (ofBeBytes (bytes.drop zeros))).reverse.map fun d => base58Alphabet.getD d 0

theorem encodeBase58Bytes_eq (bytes : Bytes) : encodeBase58Bytes bytes = quoted (base58Text bytes) := by
  rw [encodeBase58Bytes, foldl_base58Push]
  rfl

/-- What follows a list's leading elements of one value is another value. -/
theorem head?_drop_leading (a : UInt8) (xs : Bytes) :
    ∀ x ∈ (xs.drop (xs.takeWhile (· == a)).length).head?, x ≠ a := by
  intro x hx
  rw [← Lookup.partitionPoint, Lookup.drop_partitionPoint] at hx
  have hnot := List.head?_dropWhile_not (· == a) xs
  rw [Option.mem_def.mp hx] at hnot
  simpa using hnot

/-- The leading elements of one value are so many of it. -/
theorem take_leading (a : UInt8) (xs : Bytes) :
    xs.take (xs.takeWhile (· == a)).length = List.replicate (xs.takeWhile (· == a)).length a := by
  rw [← List.prefix_iff_eq_take.mp (List.takeWhile_prefix _)]
  exact List.eq_replicate_iff.mpr ⟨rfl, fun x hx => by simpa using List.mem_takeWhile_imp hx⟩

/-- A text of leading elements of one value and others after them is taken apart there. -/
theorem takeWhile_replicate_append {a : UInt8} {n : ℕ} {rest : Bytes} (h : ∀ x ∈ rest.head?, x ≠ a) :
    (List.replicate n a ++ rest).takeWhile (· == a) = List.replicate n a := by
  rw [List.takeWhile_append_of_pos fun x hx => by simpa using List.eq_of_mem_replicate hx]
  cases rest with
  | nil => rw [List.takeWhile_nil, List.append_nil]
  | cons x rest =>
    rw [List.takeWhile_cons_of_neg (by simpa using h x rfl), List.append_nil]

/-- The leading digit of a numeral is not zero. -/
theorem head?_reverse_digits (n : ℕ) : ∀ d ∈ (Nat.digits 58 n).reverse.head?, d ≠ 0 := by
  intro d hd
  rw [List.head?_reverse] at hd
  have hne : Nat.digits 58 n ≠ [] := fun h => by rw [h] at hd; exact absurd hd (by simp)
  rw [List.getLast?_eq_some_getLast hne] at hd
  obtain rfl := Option.some.inj hd
  exact Nat.getLast_digit_ne_zero 58 (Nat.digits_ne_nil_iff_ne_zero.mp hne)

/-- Digits written in the alphabet read back as the digits. -/
theorem mapM_base58Digit {ds : List ℕ} (h : ∀ d ∈ ds, d < 58) :
    (ds.map fun d => base58Alphabet.getD d 0).mapM base58Digit = some ds := by
  induction ds with
  | nil => rfl
  | cons d ds ih =>
    rw [List.map_cons, List.mapM_cons, base58Digit_getD (h d List.mem_cons_self),
      ih fun d' hd' => h d' (List.mem_cons_of_mem _ hd')]
    rfl

/-- **A text reads back as its bytes.** -/
theorem decodeBase58_base58Text (bytes : Bytes) : decodeBase58 (base58Text bytes) = some bytes := by
  set zeros := (bytes.takeWhile (· == 0)).length with hzeros
  set n := ofBeBytes (bytes.drop zeros) with hn
  have hlt : ∀ d ∈ (Nat.digits 58 n).reverse, d < 58 := fun d hd =>
    Nat.digits_lt_base (by decide) (List.mem_reverse.mp hd)
  have hhead : ∀ c ∈ ((Nat.digits 58 n).reverse.map fun d => base58Alphabet.getD d 0).head?, c ≠ 49 := by
    intro c hc
    rw [List.head?_map] at hc
    obtain ⟨d, hd, rfl⟩ := Option.map_eq_some_iff.mp hc
    exact fun h => head?_reverse_digits n d hd
      ((getD_base58Alphabet_eq_one (hlt d (List.mem_of_head? hd))).mp h)
  have hones : ((base58Text bytes).takeWhile (· == 49)).length = zeros := by
    rw [base58Text, takeWhile_replicate_append hhead, List.length_replicate]
  rw [decodeBase58, hones, base58Text, List.drop_left' List.length_replicate, mapM_base58Digit hlt, Option.map_some,
    List.reverse_reverse, Nat.ofDigits_digits, digits_ofBeBytes (head?_drop_leading 0 bytes),
    ← take_leading, List.take_append_drop]

/-- **Base58 is exact and invertible.**  Between the quotes stand the leading zero bytes as `1`s and then the
digits of the number the other bytes denote, the first of them not zero; and the text decodes to the bytes, so
no two byte strings share one. -/
theorem base58_exact (bytes : Bytes) :
    (∃ (zeros : ℕ) (ds : List ℕ), encodeBase58Bytes bytes =
        quoted (List.replicate zeros 49 ++ ds.map fun d => base58Alphabet.getD d 0) ∧
      bytes.take zeros = List.replicate zeros 0 ∧ (∀ b ∈ (bytes.drop zeros).head?, b ≠ 0) ∧
      (∀ d ∈ ds, d < 58) ∧ (∀ d ∈ ds.head?, d ≠ 0) ∧
      Nat.ofDigits 58 ds.reverse = ofBeBytes (bytes.drop zeros)) ∧
    (∃ text, encodeBase58Bytes bytes = quoted text ∧ decodeBase58 text = some bytes) ∧
    ∀ others, encodeBase58Bytes others = encodeBase58Bytes bytes ↔ others = bytes := by
  refine ⟨⟨_, _, encodeBase58Bytes_eq bytes, take_leading 0 bytes, head?_drop_leading 0 bytes, fun d hd => ?_,
    head?_reverse_digits _, ?_⟩, ⟨_, encodeBase58Bytes_eq bytes, decodeBase58_base58Text bytes⟩,
    fun others => ⟨fun h => ?_, fun h => by rw [h]⟩⟩
  · exact Nat.digits_lt_base (by decide) (List.mem_reverse.mp hd)
  · rw [List.reverse_reverse, Nat.ofDigits_digits]
  · rw [encodeBase58Bytes_eq, encodeBase58Bytes_eq] at h
    have htext : base58Text others = base58Text bytes :=
      List.append_cancel_right (List.cons_injective h)
    have hdecoded := decodeBase58_base58Text others
    rw [htext, decodeBase58_base58Text] at hdecoded
    exact (Option.some.inj hdecoded).symm

end QueryEngine
