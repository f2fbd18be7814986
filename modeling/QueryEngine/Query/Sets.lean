import QueryEngine.Library.Numerals
import QueryEngine.Library.Segments
import QueryEngine.Scan.Predicate

/-!
# Query/Sets — filters on value sets too long to send as a list

A client builds a binary fuse filter over its values and sends its bytes; the engine only looks values up.
The header is checked once, and what it is checked for keeps every lookup inside the fingerprints
(`fuse8_lookups_in_bounds`): the three places read lie in three segments in a row.  Arithmetic that would
overflow and a read past the end answer nothing here, where the program would stop.
-/

open Numerals Segments

namespace QueryEngine

/-- A binary fuse filter with one-byte fingerprints. -/
structure Fuse8 where
  seed : BitVec 64
  segmentLength : ℕ
  segmentMask : ℕ
  segmentCountLength : ℕ
  fingerprints : Bytes
  /-- The hash of the wire bytes, so diagnostics can tell two sets apart. -/
  digest : BitVec 64
  deriving DecidableEq

namespace Fuse8

/-- The header: a 64-bit seed, then three 32-bit words. -/
def headerBytes : ℕ := 20

/-- The bound on the length of a segment. -/
def maxSegmentLength : ℕ := 2 ^ 18

/-- A 32-bit word of a header. -/
def word (header : Bytes) (place : ℕ) : ℕ := ofLeBytes ((header.drop place).take 4)

/-- Whether a header's fields keep every lookup inside the fingerprints.  Each is asked only where those
before it hold. -/
def sound (length mask countLength fingerprints : ℕ) : Option Bool :=
  if ¬length.isPowerOfTwo then some false
  else if maxSegmentLength < length then some false
  else do
    let below ← subChecked length 1
    if mask ≠ below then return false
    if countLength = 0 then return false
    let rest ← remChecked countLength length
    if rest ≠ 0 then return false
    let twice ← mulChecked 64 2 length
    let needed ← addChecked 64 countLength twice
    return decide (needed ≤ fingerprints)

/-- Why a header is refused. -/
def unsoundHeader (length mask countLength fingerprints : ℕ) : String :=
  "the header says L = " ++ toString length ++ ", M = " ++ toString mask ++ ", N = " ++ toString countLength ++
    " over " ++ toString fingerprints ++ " fingerprints; a sound one has L a power of two up to 2^18, M = L - 1, " ++
    "N a positive multiple of L, and at least N + 2L fingerprints"

section Hashed

variable (xxh3 : Bytes → BitVec 64)

/-- **The structure the bytes hold**, or why its lookup could read past them. -/
def fromBytes (bytes : Bytes) : Option (Except String Fuse8) :=
  if bytes.length < headerBytes then
    some (.error (toString bytes.length ++ " bytes, shorter than its 20-byte header"))
  else do
    let header := bytes.take headerBytes
    let fingerprints := bytes.drop headerBytes
    let seed := BitVec.ofNat 64 (ofLeBytes (header.take 8))
    let (length, mask, countLength) := (word header 8, word header 12, word header 16)
    if ← sound length mask countLength fingerprints.length then
      return .ok ⟨seed, length, mask, countLength, fingerprints, xxh3 bytes⟩
    else return .error (unsoundHeader length mask countLength fingerprints.length)

/-- A hash's last mixing. -/
def mix (x : BitVec 64) : BitVec 64 :=
  let x := x ^^^ (x >>> 33)
  let x := x * 0xff51afd7ed558ccd#64
  let x := x ^^^ (x >>> 33)
  let x := x * 0xc4ceb9fe1a85ec53#64
  x ^^^ (x >>> 33)

/-- The three places a hash is looked up at. -/
def probes (set : Fuse8) (hash : BitVec 64) : Option (ℕ × ℕ × ℕ) := do
  let scaled ← mulChecked 128 hash.toNat set.segmentCountLength
  let i0 := scaled / 2 ^ 64 % 2 ^ 64
  let next ← addChecked 64 i0 set.segmentLength
  let i1 := next ^^^ ((hash >>> 18).toNat &&& set.segmentMask)
  let twice ← mulChecked 64 2 set.segmentLength
  let last ← addChecked 64 i0 twice
  let i2 := last ^^^ (hash.toNat &&& set.segmentMask)
  return (i0, i1, i2)

/-- The hash a value is looked up by. -/
def hashOf (set : Fuse8) (value : Bytes) : BitVec 64 := mix (xxh3 value + set.seed)

/-- **Whether a value passes the lookup.** -/
def contains (set : Fuse8) (value : Bytes) : Option Bool := do
  let hash := set.hashOf xxh3 value
  let fingerprint := UInt8.ofBitVec ((hash ^^^ (hash >>> 32)).setWidth 8)
  let (i0, i1, i2) ← set.probes hash
  let f0 ← set.fingerprints[i0]?
  let f1 ← set.fingerprints[i1]?
  let f2 ← set.fingerprints[i2]?
  return (fingerprint ^^^ f0 ^^^ f1 ^^^ f2) == 0

end Hashed

/-! ## Soundness -/

/-- What the header of an accepted structure says of it. -/
structure Sound (set : Fuse8) : Prop where
  length : ∃ k ≤ 18, set.segmentLength = 2 ^ k
  mask : set.segmentMask = set.segmentLength - 1
  count_pos : 0 < set.segmentCountLength
  count_lt : set.segmentCountLength < 2 ^ 32
  count_dvd : set.segmentLength ∣ set.segmentCountLength
  fits : set.segmentCountLength + 2 * set.segmentLength ≤ set.fingerprints.length

theorem word_lt {header : Bytes} (place : ℕ) : word header place < 2 ^ 32 := by
  have hlt := ofLeBytes_lt ((header.drop place).take 4)
  have hlen : ((header.drop place).take 4).length ≤ 4 := List.length_take_le _ _
  calc word header place < 256 ^ ((header.drop place).take 4).length := hlt
    _ ≤ 256 ^ 4 := Nat.pow_le_pow_right (by decide) hlen
    _ = 2 ^ 32 := by norm_num

/-- A segment's length is short, and checked before it divides. -/
theorem exists_pow_of_isPowerOfTwo {length : ℕ} (h : length.isPowerOfTwo) (hle : length ≤ maxSegmentLength) :
    ∃ k ≤ 18, length = 2 ^ k := by
  obtain ⟨k, rfl⟩ := h
  exact ⟨k, (Nat.pow_le_pow_iff_right (by decide)).mp hle, rfl⟩

/-- **Checking a header does not overflow**, and says yes to sound ones alone. -/
theorem sound_spec {length mask countLength : ℕ} (hcount : countLength < 2 ^ 32) (fingerprints : ℕ) :
    ∃ answer, sound length mask countLength fingerprints = some answer ∧
      (answer = true → (∃ k ≤ 18, length = 2 ^ k) ∧ mask = length - 1 ∧ 0 < countLength ∧
        length ∣ countLength ∧ countLength + 2 * length ≤ fingerprints) := by
  unfold sound
  split
  · exact ⟨false, rfl, by simp⟩
  next hpow =>
  split
  · exact ⟨false, rfl, by simp⟩
  next hle =>
  have hlength := exists_pow_of_isPowerOfTwo (not_not.mp hpow) (not_lt.mp hle)
  have hpos : 0 < length := Nat.pos_of_isPowerOfTwo (not_not.mp hpow)
  have hshort : length ≤ 2 ^ 18 := not_lt.mp hle
  rw [subChecked_of_le hpos, remChecked_of_pos hpos, mulChecked_of_lt (by omega), Option.bind_eq_bind,
    Option.bind_some]
  by_cases hmask : mask = length - 1
  · by_cases hzero : countLength = 0
    · exact ⟨false, by simp [hmask, hzero], by simp⟩
    · by_cases hrest : countLength % length = 0
      · refine ⟨decide (countLength + 2 * length ≤ fingerprints), ?_, fun h => ?_⟩
        · simp [hmask, hzero, hrest, addChecked_of_lt (show countLength + 2 * length < 2 ^ 64 by omega)]
        · exact ⟨hlength, hmask, Nat.pos_of_ne_zero hzero, Nat.dvd_of_mod_eq_zero hrest, of_decide_eq_true h⟩
      · exact ⟨false, by simp [hmask, hzero, hrest], by simp⟩
  · exact ⟨false, by simp [hmask], by simp⟩

/-- **Bytes are accepted or refused, never overflowed by**, and an accepted structure is sound. -/
theorem fromBytes_spec (xxh3 : Bytes → BitVec 64) (bytes : Bytes) :
    ∃ result, fromBytes xxh3 bytes = some result ∧ ∀ set, result = .ok set → set.Sound := by
  unfold fromBytes
  split
  · exact ⟨_, rfl, fun set h => absurd h (by simp)⟩
  · obtain ⟨answer, hanswer, hsound⟩ := @sound_spec (word (bytes.take headerBytes) 8)
      (word (bytes.take headerBytes) 12) _ (word_lt 16) (bytes.drop headerBytes).length
    dsimp only
    rw [hanswer, Option.bind_eq_bind, Option.bind_some]
    cases answer with
    | false => exact ⟨_, rfl, fun set h => absurd h (by simp)⟩
    | true =>
      refine ⟨_, rfl, fun set h => ?_⟩
      obtain rfl := Except.ok.inj h
      obtain ⟨hlength, hmask, hpos, hdvd, hfits⟩ := hsound rfl
      exact ⟨hlength, hmask, hpos, word_lt 16, hdvd, hfits⟩

/-! ## Lookups -/

/-- **The three places of a lookup**, without overflow: in three segments in a row, the first of them one of
the counted segments. -/
theorem Sound.probes {set : Fuse8} (h : set.Sound) (hash : BitVec 64) :
    ∃ i0 i1 i2, set.probes hash = some (i0, i1, i2) ∧ i0 < set.segmentCountLength ∧
      i1 / set.segmentLength = i0 / set.segmentLength + 1 ∧
      i2 / set.segmentLength = i0 / set.segmentLength + 2 := by
  obtain ⟨k, hk, hlength⟩ := h.length
  have hpos : 0 < set.segmentLength := by rw [hlength]; positivity
  have hshort : set.segmentLength ≤ 2 ^ 18 := hlength ▸ Nat.pow_le_pow_right (by decide) hk
  have hflip (x : ℕ) : x &&& set.segmentMask < 2 ^ k := by
    rw [h.mask, hlength]
    exact and_mask_lt x
  have hcount := h.count_lt
  have hi0 : hash.toNat * set.segmentCountLength / 2 ^ 64 < set.segmentCountLength :=
    mulHigh_lt hash.isLt h.count_pos
  have hscaled : hash.toNat * set.segmentCountLength < 2 ^ 128 := by
    have hlt := Nat.mul_lt_mul'' hash.isLt hcount
    exact hlt.trans (by norm_num)
  set i0 := hash.toNat * set.segmentCountLength / 2 ^ 64 with hdef
  have hwide : i0 % 2 ^ 64 = i0 := Nat.mod_eq_of_lt (by omega)
  refine ⟨i0, (i0 + set.segmentLength) ^^^ ((hash >>> 18).toNat &&& set.segmentMask),
    (i0 + 2 * set.segmentLength) ^^^ (hash.toNat &&& set.segmentMask), ?_, hi0, ?_, ?_⟩
  · unfold Fuse8.probes
    rw [mulChecked_of_lt hscaled, Option.bind_eq_bind, Option.bind_some]
    dsimp only
    rw [← hdef, hwide, addChecked_of_lt (by omega), mulChecked_of_lt (by omega)]
    simp only [Option.bind_some]
    rw [addChecked_of_lt (by omega)]
    rfl
  · rw [hlength, xor_div_segment (hflip _), Nat.add_div_right _ (by positivity)]
  · rw [hlength, xor_div_segment (hflip _), Nat.add_mul_div_right _ _ (by positivity)]

/-- The three places are inside the fingerprints. -/
theorem Sound.lt_fingerprints {set : Fuse8} (h : set.Sound) {i0 i : ℕ} (hi0 : i0 < set.segmentCountLength)
    {ahead : ℕ} (hahead : ahead ≤ 2) (hi : i / set.segmentLength = i0 / set.segmentLength + ahead) :
    i < set.fingerprints.length := by
  obtain ⟨segments, hsegments⟩ := h.count_dvd
  obtain ⟨k, -, hlength⟩ := h.length
  have hpos : 0 < set.segmentLength := by rw [hlength]; positivity
  have hfirst : i0 / set.segmentLength < segments := by
    rw [Nat.div_lt_iff_lt_mul hpos, Nat.mul_comm, ← hsegments]
    exact hi0
  have hlt : i < (segments + 2) * set.segmentLength := lt_of_div_lt hpos (by omega)
  calc i < (segments + 2) * set.segmentLength := hlt
    _ = set.segmentCountLength + 2 * set.segmentLength := by rw [hsegments]; ring
    _ ≤ set.fingerprints.length := h.fits

/-- **A lookup stays in bounds.**  Reading a structure overflows on no bytes; and of one that is accepted,
no value's lookup overflows, its three places are inside the fingerprints, and they lie in three segments in
a row. -/
theorem fuse8_lookups_in_bounds (xxh3 : Bytes → BitVec 64) (bytes : Bytes) :
    ∃ result, fromBytes xxh3 bytes = some result ∧ ∀ set, result = .ok set → ∀ value : Bytes,
      ∃ i0 i1 i2, set.probes (set.hashOf xxh3 value) = some (i0, i1, i2) ∧
        i0 < set.fingerprints.length ∧ i1 < set.fingerprints.length ∧ i2 < set.fingerprints.length ∧
        i1 / set.segmentLength = i0 / set.segmentLength + 1 ∧
        i2 / set.segmentLength = i0 / set.segmentLength + 2 ∧
        ∃ answer, set.contains xxh3 value = some answer := by
  obtain ⟨result, hresult, hsound⟩ := fromBytes_spec xxh3 bytes
  refine ⟨result, hresult, fun set hset value => ?_⟩
  have h := hsound set hset
  obtain ⟨i0, i1, i2, hprobes, hi0, hnext, hlast⟩ := h.probes (set.hashOf xxh3 value)
  have h0 : i0 < set.fingerprints.length := h.lt_fingerprints hi0 (Nat.zero_le 2) rfl
  have h1 : i1 < set.fingerprints.length := h.lt_fingerprints hi0 (by decide) hnext
  have h2 : i2 < set.fingerprints.length := h.lt_fingerprints hi0 (le_refl 2) hlast
  refine ⟨i0, i1, i2, hprobes, h0, h1, h2, hnext, hlast, ?_⟩
  unfold contains
  dsimp only
  rw [hprobes]
  simp only [Option.bind_eq_bind, Option.bind_some, List.getElem?_eq_getElem h0, List.getElem?_eq_getElem h1,
    List.getElem?_eq_getElem h2]
  exact ⟨_, rfl⟩

/-- A structure of one segment of one fingerprint, over three of them, is accepted and looked up. -/
theorem fuse8_lookups_in_bounds_three : ∃ set,
    fromBytes (fun _ => 0) (List.replicate 8 0 ++ [1, 0, 0, 0, 0, 0, 0, 0, 1, 0, 0, 0] ++ [0, 0, 0]) =
      some (.ok set) ∧ ∃ answer, set.contains (fun _ => 0) [] = some answer := by
  obtain ⟨result, hresult, hlookups⟩ := fuse8_lookups_in_bounds (fun _ => 0)
    (List.replicate 8 0 ++ [1, 0, 0, 0, 0, 0, 0, 0, 1, 0, 0, 0] ++ [0, 0, 0])
  refine ⟨⟨0, 1, 0, 1, [0, 0, 0], 0⟩, by decide, ?_⟩
  have hset : result = .ok ⟨0, 1, 0, 1, [0, 0, 0], 0⟩ := Option.some.inj (hresult.symm.trans (by decide))
  obtain ⟨_, _, _, -, -, -, -, -, -, hanswer⟩ := hlookups _ hset []
  exact hanswer

end Fuse8

end QueryEngine
