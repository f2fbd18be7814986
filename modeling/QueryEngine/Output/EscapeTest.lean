import QueryEngine.Query.SetText

/-!
# Output/EscapeTest — the escape test, eight bytes at a time

A word is read from eight bytes in the machine's order, and one subtraction looks at all of them.  A lane borrows only
from one that is itself below the bound, so the word as a whole answers for its bytes in either order, and what the
encoder writes of a text is a JSON string of it.
-/

open Numerals ByteLanes JsonGrammar

namespace QueryEngine

/-! ## Byte orders -/

/-- The order a machine keeps the bytes of a word in. -/
inductive ByteOrder
  | little | big
  deriving DecidableEq, Repr

/-- The word that eight bytes are. -/
def ByteOrder.word : ByteOrder → Bytes → BitVec 64
  | little, bytes => BitVec.ofNat 64 (ofLeBytes bytes)
  | big, bytes => BitVec.ofNat 64 (ofBeBytes bytes)

/-- The same byte eight times is one word in both orders. -/
theorem word_ones (order : ByteOrder) : order.word (List.replicate 8 1) = escapeOnes ∧
    order.word (List.replicate 8 0x80) = escapeHigh := by
  cases order <;> decide

/-- A word read backwards is a word of the other order. -/
theorem word_eq_little (order : ByteOrder) (bytes : Bytes) :
    order.word bytes = ByteOrder.little.word (if order = .big then bytes.reverse else bytes) := by
  cases order <;> rfl

/-! ## The test as either machine runs it -/

/-- Whether some lane of the word is zero. -/
def zeroByte (w : BitVec 64) : Bool := (w - escapeOnes) &&& ~~~w &&& escapeHigh != 0

/-- Whether some lane of the word is below a space. -/
def belowSpace (w : BitVec 64) : Bool := (w - escapeOnes * 0x20#64) &&& ~~~w &&& escapeHigh != 0

/-- Whether the word holds a byte JSON escapes. -/
def wordNeedsEscape (w : BitVec 64) : Bool :=
  belowSpace w || zeroByte (w ^^^ (escapeOnes * 34#64)) || zeroByte (w ^^^ (escapeOnes * 92#64))

/-- Whether JSON escapes any of the bytes, on a machine of a byte order. -/
def needsEscapeIn (order : ByteOrder) : Bytes → Bool
  | b₀ :: b₁ :: b₂ :: b₃ :: b₄ :: b₅ :: b₆ :: b₇ :: rest =>
    wordNeedsEscape (order.word [b₀, b₁, b₂, b₃, b₄, b₅, b₆, b₇]) || needsEscapeIn order rest
  | rest => rest.any fun b => b < 0x20 || b == 34 || b == 92

/-- A JSON-escaped string with quotes, on a machine of a byte order. -/
def encodeJsonStringIn (order : ByteOrder) (s : Bytes) : Bytes :=
  if needsEscapeIn order s then quoted (s.flatMap escapeByte) else quoted s

/-- A byte JSON escapes: a control character, a quote or a backslash. -/
def Escapes (b : UInt8) : Prop := b < 0x20 ∨ b = 34 ∨ b = 92

instance (b : UInt8) : Decidable (Escapes b) := inferInstanceAs (Decidable (_ ∨ _))

/-- The little-endian test is the one every encoder uses. -/
theorem needsEscapeIn_little (s : Bytes) : needsEscapeIn .little s = needsEscape s := by
  fun_induction needsEscape s with
  | case1 b₀ b₁ b₂ b₃ b₄ b₅ b₆ b₇ rest word zeroByte belowSpace ih =>
    rw [needsEscapeIn, ih]
    rfl
  | case2 rest hrest =>
    rw [needsEscapeIn]
    exact hrest

/-! ## One word -/

/-- The top bits of the lanes, and no other. -/
theorem escapeHigh_bit : ∀ i < 64, escapeHigh.getLsbD i = decide (i % 8 = 7) := by decide

section Words

variable {bytes : Bytes} (hlen : bytes.length = 8)

include hlen

/-- **The lanes' top bits say whether a byte is below a bound.** -/
theorem lanes_below_iff {n : ℕ} (hn : n ≤ 128) {bound : BitVec 64} (hbound : bound.toNat = lanes n 8) :
    ((ByteOrder.little.word bytes - bound) &&& ~~~ByteOrder.little.word bytes &&& escapeHigh) = 0 ↔
      ∀ b ∈ bytes, n ≤ b.toNat := by
  refine ⟨fun h => le_of_word hlen hn hbound h, fun h => BitVec.eq_of_getLsbD_eq fun i hi => ?_⟩
  have hlt := ofLeBytes_lt_word hlen
  simp only [BitVec.getLsbD_and, BitVec.getLsbD_not, escapeHigh_bit i hi, hi, decide_true, Bool.true_and]
  have hzero : (0 : BitVec 64).getLsbD i = false := BitVec.getLsbD_zero
  rw [hzero, Bool.eq_false_iff]
  intro hbits
  simp only [Bool.and_eq_true, decide_eq_true_eq, Bool.not_eq_true'] at hbits
  obtain ⟨⟨hsub, hclear⟩, htop⟩ := hbits
  -- a top bit set by the subtraction is one the byte had
  have hlane : i = 8 * (i / 8) + 7 := by omega
  have hkeep := testBit_of_le hn bytes h (i / 8) (by omega)
  rw [ByteOrder.word, BitVec.getLsbD, BitVec.toNat_sub, hbound, BitVec.toNat_ofNat, Nat.mod_eq_of_lt hlt] at hsub
  rw [ByteOrder.word, BitVec.getLsbD, BitVec.toNat_ofNat, Nat.mod_eq_of_lt hlt] at hclear
  rw [← hlane, hlen] at hkeep
  rw [hkeep hsub] at hclear
  exact absurd hclear nofun

/-- An exclusive or with a byte in every lane is the word of the bytes' exclusive ors. -/
theorem word_xor (c : UInt8) {mask : BitVec 64} (hmask : mask.toNat = lanes c.toNat 8) :
    ByteOrder.little.word bytes ^^^ mask = ByteOrder.little.word (bytes.map (· ^^^ c)) := xor_word hlen c hmask

theorem belowSpace_little : belowSpace (ByteOrder.little.word bytes) = true ↔ ∃ b ∈ bytes, b < 0x20 := by
  have hiff := @lanes_below_iff _ hlen 32 (by decide) (escapeOnes * 0x20#64) (by decide)
  rw [belowSpace, bne_iff_ne, ne_eq, hiff]
  simp only [not_forall, exists_prop, not_le]
  rfl

theorem zeroByte_little (c : UInt8) {mask : BitVec 64} (hmask : mask.toNat = lanes c.toNat 8) :
    zeroByte (ByteOrder.little.word bytes ^^^ mask) = true ↔ ∃ b ∈ bytes, b = c := by
  have hiff := @lanes_below_iff (bytes.map (· ^^^ c)) (by rw [List.length_map, hlen]) 1 (by decide) escapeOnes
      (by decide)
  rw [word_xor hlen c hmask, zeroByte, bne_iff_ne, ne_eq, hiff]
  simp only [List.forall_mem_map, not_forall, exists_prop, not_le, Nat.lt_one_iff, ← UInt8.toNat_zero, UInt8.toNat_inj]
  simp only [UInt8.xor_eq_zero_iff]

/-- **A word holds a byte to escape exactly when one of its bytes is one**, in either order. -/
theorem wordNeedsEscape_iff (order : ByteOrder) :
    wordNeedsEscape (order.word bytes) = true ↔ ∃ b ∈ bytes, Escapes b := by
  have hlittle : ∀ {bytes : Bytes}, bytes.length = 8 →
      (wordNeedsEscape (ByteOrder.little.word bytes) = true ↔ ∃ b ∈ bytes, Escapes b) := by
    intro bytes hlen
    rw [wordNeedsEscape, Bool.or_eq_true, Bool.or_eq_true, belowSpace_little hlen, zeroByte_little hlen 34 (by decide),
      zeroByte_little hlen 92 (by decide)]
    simp only [Escapes, and_or_left, exists_or, or_assoc]
  cases order with
  | little => exact hlittle hlen
  | big =>
    rw [word_eq_little, if_pos rfl, hlittle (by rw [List.length_reverse, hlen])]
    simp only [List.mem_reverse]

end Words

/-! ## Any text -/

/-- **The escape test is exact**: words first, then the bytes that are left. -/
theorem needsEscapeIn_iff (order : ByteOrder) (s : Bytes) : needsEscapeIn order s = true ↔ ∃ b ∈ s, Escapes b := by
  fun_induction needsEscapeIn order s with
  | case1 b₀ b₁ b₂ b₃ b₄ b₅ b₆ b₇ rest ih =>
    have hsplit : b₀ :: b₁ :: b₂ :: b₃ :: b₄ :: b₅ :: b₆ :: b₇ :: rest = [b₀, b₁, b₂, b₃, b₄, b₅, b₆, b₇] ++ rest := rfl
    rw [Bool.or_eq_true, ih, wordNeedsEscape_iff rfl, hsplit]
    simp only [List.mem_append, or_and_right, exists_or]
  | case2 rest hrest =>
    simp only [List.any_eq_true, Bool.or_eq_true, decide_eq_true_eq, beq_iff_eq, or_assoc]
    rfl

/-- Both machines write one text. -/
theorem encodeJsonStringIn_eq (order : ByteOrder) (s : Bytes) : encodeJsonStringIn order s = encodeJsonString s := by
  have horder : needsEscapeIn order s = needsEscapeIn .little s := by
    rw [Bool.eq_iff_iff, needsEscapeIn_iff, needsEscapeIn_iff]
  rw [encodeJsonStringIn, encodeJsonString, horder, needsEscapeIn_little]

/-- **The escape test is exact, and an encoded text is a JSON string of it.**  In either byte order, eight bytes at a
time and then the rest, the test finds a byte below a space, a quote or a backslash when there is one and only then;
what is written for a text is a JSON string that decodes to it. -/
theorem escape_test_exact (order : ByteOrder) (s : Bytes) :
    (needsEscapeIn order s = true ↔ ∃ b ∈ s, b < 0x20 ∨ b = 34 ∨ b = 92) ∧
      (needsEscape s = true ↔ ∃ b ∈ s, b < 0x20 ∨ b = 34 ∨ b = 92) ∧
      IsString (encodeJsonStringIn order s) ∧ stringContent (encodeJsonStringIn order s) = some s := by
  refine ⟨needsEscapeIn_iff order s, ?_, ?_, ?_⟩
  · rw [← needsEscapeIn_little]
    exact needsEscapeIn_iff .little s
  · rw [encodeJsonStringIn_eq]
    exact isString_encodeJsonString s
  · rw [encodeJsonStringIn_eq]
    exact stringContent_encodeJsonString s

end QueryEngine
