import QueryEngine.Library.Numerals

/-!
# Library/Framing — named payloads end to end

A frame is a name and a payload, each behind its length in four bytes.  Frames whose parts a length field
counts read back one by one (`read_frame`); a part that is longer is cut at what its field says
(`read_frame_longName`, `read_frame_longPayload`).
-/

open Numerals

namespace Framing

variable {ν : Type} (decode : List UInt8 → Option ν)

/-- A length in four bytes, least significant first: only its low 32 bits. -/
def lengthField (n : ℕ) : List UInt8 := leBytes 4 n

/-- A name and a payload behind their lengths. -/
def frame (name payload : List UInt8) : List UInt8 :=
  lengthField name.length ++ name ++ lengthField payload.length ++ payload

/-- The next bytes, unless there are too few. -/
def slice (n : ℕ) (bytes : List UInt8) : Option (List UInt8 × List UInt8) :=
  if n ≤ bytes.length then some (bytes.take n, bytes.drop n) else none

/-- The next part: its length, then as many bytes. -/
def part (bytes : List UInt8) : Option (List UInt8 × List UInt8) :=
  (slice 4 bytes).bind fun field => slice (ofLeBytes field.1) field.2

/-- Frames until fewer bytes than a length are left, at most `fuel` of them. -/
def readUpTo : ℕ → List UInt8 → Option (List (ν × List UInt8))
  | 0, _ => none
  | fuel + 1, bytes =>
    if bytes.length < 4 then some []
    else
      (part bytes).bind fun name =>
        (decode name.1).bind fun v =>
          (part name.2).bind fun payload => (readUpTo fuel payload.2).map ((v, payload.1) :: ·)

/-- The frames of a stream. -/
def read (bytes : List UInt8) : Option (List (ν × List UInt8)) := readUpTo decode (bytes.length + 1) bytes

variable {decode} {name payload rest : List UInt8} {v : ν}

theorem slice_append {n : ℕ} (h : name.length = n) : slice n (name ++ rest) = some (name, rest) := by
  rw [slice, if_pos (by rw [List.length_append]; omega), List.take_left' h, List.drop_left' h]

theorem slice_eq_some {n : ℕ} {bytes : List UInt8} {got : List UInt8 × List UInt8}
    (h : slice n bytes = some got) : got.1.length = n ∧ got.2.length + n = bytes.length := by
  unfold slice at h
  split at h
  · next hle =>
    obtain rfl := Option.some.inj h
    exact ⟨List.length_take_of_le hle, by rw [List.length_drop]; omega⟩
  · exact absurd h (by simp)

/-- **A length field says its length as far as 32 bits do.** -/
theorem ofLeBytes_lengthField (n : ℕ) : ofLeBytes (lengthField n) = n % 2 ^ 32 := ofLeBytes_leBytes 4 n

/-- A part is the bytes its field counts. -/
theorem part_field (n : ℕ) (bytes : List UInt8) : part (lengthField n ++ bytes) = slice (n % 2 ^ 32) bytes := by
  have hfield : slice 4 (lengthField n ++ bytes) = some (lengthField n, bytes) :=
    slice_append (length_leBytes 4 n)
  rw [part, hfield, Option.bind_some, ofLeBytes_lengthField]

theorem part_short (h : name.length < 2 ^ 32) :
    part (lengthField name.length ++ (name ++ rest)) = some (name, rest) := by
  rw [part_field, Nat.mod_eq_of_lt h, slice_append rfl]

theorem length_part {bytes : List UInt8} {got : List UInt8 × List UInt8} (h : part bytes = some got) :
    got.2.length + 4 ≤ bytes.length := by
  obtain ⟨field, hfield, hgot⟩ := Option.bind_eq_some_iff.mp h
  have h₁ := (slice_eq_some hfield).2
  have h₂ := (slice_eq_some hgot).2
  omega

/-- **More fuel than bytes changes nothing.** -/
theorem readUpTo_eq : ∀ {fuel fuel' : ℕ} {bytes : List UInt8}, bytes.length < fuel → bytes.length < fuel' →
    readUpTo decode fuel bytes = readUpTo decode fuel' bytes
  | 0, _, _, h, _ => absurd h (Nat.not_lt_zero _)
  | _, 0, _, _, h => absurd h (Nat.not_lt_zero _)
  | fuel + 1, fuel' + 1, bytes, h, h' => by
    rw [readUpTo, readUpTo]
    split
    · rfl
    refine Option.bind_congr fun name hname => Option.bind_congr fun v _ =>
      Option.bind_congr fun payload hpayload => ?_
    have h₁ := length_part hname
    have h₂ := length_part hpayload
    exact congrArg (Option.map _) (readUpTo_eq (by omega) (by omega))

/-- A stream of four bytes or more starts with a name and a payload. -/
theorem read_eq {bytes : List UInt8} (h : 4 ≤ bytes.length) : read decode bytes =
    (part bytes).bind fun name => (decode name.1).bind fun v =>
      (part name.2).bind fun payload => (read decode payload.2).map ((v, payload.1) :: ·) := by
  rw [read, readUpTo, if_neg (by omega)]
  refine Option.bind_congr fun name hname => Option.bind_congr fun v _ =>
    Option.bind_congr fun payload hpayload => ?_
  have h₁ := length_part hname
  have h₂ := length_part hpayload
  exact congrArg (Option.map _) (readUpTo_eq (by omega) (Nat.lt_succ_self _))

@[simp] theorem read_nil : read decode [] = some [] := rfl

theorem frame_append (name payload rest : List UInt8) : frame name payload ++ rest =
    lengthField name.length ++ (name ++ (lengthField payload.length ++ (payload ++ rest))) := by
  simp only [frame, List.append_assoc]

theorem length_frame_append (name payload rest : List UInt8) : 4 ≤ (frame name payload ++ rest).length := by
  rw [frame_append, List.length_append, lengthField, length_leBytes]
  exact Nat.le_add_right _ _

/-- A frame with a name its field counts is that name, and then what the payload's field counts. -/
theorem read_shortName (hname : name.length < 2 ^ 32) (hdecode : decode name = some v) :
    read decode (frame name payload ++ rest) =
      (slice (payload.length % 2 ^ 32) (payload ++ rest)).bind fun got =>
        (read decode got.2).map ((v, got.1) :: ·) := by
  rw [read_eq (length_frame_append name payload rest), frame_append, part_short hname, Option.bind_some,
    hdecode, Option.bind_some, part_field]

/-- **A frame whose parts the fields count reads back**, and what follows it after it. -/
theorem read_frame (hname : name.length < 2 ^ 32) (hpayload : payload.length < 2 ^ 32)
    (hdecode : decode name = some v) :
    read decode (frame name payload ++ rest) = (read decode rest).map ((v, payload) :: ·) := by
  rw [read_shortName hname hdecode, Nat.mod_eq_of_lt hpayload, slice_append rfl, Option.bind_some]

/-- **A longer payload is cut.** -/
theorem read_frame_longPayload (hname : name.length < 2 ^ 32) (hdecode : decode name = some v)
    (hpayload : 2 ^ 32 ≤ payload.length) {frames : List (ν × List UInt8)}
    (h : read decode (frame name payload ++ rest) = some frames) :
    ∃ others, frames = (v, payload.take (payload.length % 2 ^ 32)) :: others := by
  have hcut : payload.length % 2 ^ 32 < payload.length :=
    lt_of_lt_of_le (Nat.mod_lt _ (by decide)) hpayload
  rw [read_shortName hname hdecode, slice, if_pos (by rw [List.length_append]; omega), Option.bind_some,
    List.take_append_of_le_length hcut.le] at h
  obtain ⟨others, -, rfl⟩ := Option.map_eq_some_iff.mp h
  exact ⟨others, rfl⟩

/-- **A longer name is cut.** -/
theorem read_frame_longName {frames : List (ν × List UInt8)}
    (h : read decode (frame name payload ++ rest) = some frames) :
    ∃ got v payload others, frames = (v, payload) :: others ∧ decode got = some v ∧
      got.length = name.length % 2 ^ 32 := by
  rw [read_eq (length_frame_append name payload rest), frame_append, part_field] at h
  obtain ⟨got, hgot, h⟩ := Option.bind_eq_some_iff.mp h
  obtain ⟨v, hv, h⟩ := Option.bind_eq_some_iff.mp h
  obtain ⟨payload, -, h⟩ := Option.bind_eq_some_iff.mp h
  obtain ⟨others, -, rfl⟩ := Option.map_eq_some_iff.mp h
  exact ⟨got.1, v, payload.1, others, rfl, hv, (slice_eq_some hgot).1⟩

end Framing
