import QueryEngine.Library.Framing
import QueryEngine.Scan.Chunk
import QueryEngine.Errors
import QueryEngine.Output.RowWriter

/-!
# Output/ArrowFrames — tables as framed Arrow streams

A table's batches are an Arrow IPC stream in a frame of its own, behind the table's name; a table without rows
has no frame.  Arrow's writer and reader are parameters.  The frames read back as the tables that hold rows
exactly where the 32 bits of each length field count its name and its stream (`selfDescribing_iff`).
-/

open Framing Fallible

namespace QueryEngine

/-! ## Names -/

/-- The name some bytes are, when they are UTF-8. -/
def ofUtf8 (bytes : Bytes) : Option String := String.fromUTF8? ⟨bytes.toArray⟩

@[simp] theorem ofUtf8_utf8 (name : String) : ofUtf8 (utf8 name) = some name := by
  unfold ofUtf8 utf8 String.fromUTF8?
  rw [Array.toArray_toList, String.toUTF8_eq_toByteArray, dif_pos name.isValidUTF8]
  rfl

theorem utf8_of_ofUtf8 {bytes : Bytes} {name : String} (h : ofUtf8 bytes = some name) :
    utf8 name = bytes := by
  unfold ofUtf8 String.fromUTF8? at h
  split at h
  · obtain rfl := Option.some.inj h
    rfl
  · exact absurd h (by simp)

/-! ## The writer -/

/-- Arrow's IPC stream writer, by whether it compresses, and its reader. -/
structure ArrowIpc where
  write : Bool → List (String × DataType) → List RecordBatch → Result Bytes
  read : Bytes → Option (List RecordBatch)

/-- The batches with rows. -/
def filled (batches : List RecordBatch) : List RecordBatch := batches.filter fun b => decide (0 < b.numRows)

/-- A table's stream, in the schema of its first batch. -/
def arrowPayload (ipc : ArrowIpc) (compress : Bool) (batches : List RecordBatch) : Result Bytes :=
  ipc.write compress (((batches.head?).map RecordBatch.schema).getD []) (filled batches)

/-- One table written, unless it has no rows. -/
def writeGroup (ipc : ArrowIpc) (compress : Bool) (writer : Bytes) (group : String × List RecordBatch) :
    Result Bytes :=
  match group.2 with
  | [] => .ok writer
  | first :: rest =>
    if (first :: rest).all fun b => b.numRows == 0 then .ok writer
    else (arrowPayload ipc compress group.2).map fun payload => writer ++ frame (utf8 group.1) payload

/-- Tables as framed streams. -/
def writeArrowFrames (ipc : ArrowIpc) (groups : List (String × List RecordBatch)) (compress : Bool) :
    Result Bytes := groups.foldlM (writeGroup ipc compress) []

/-- The frames of a stream, each a table's name and its Arrow stream. -/
def readArrowFrames (stream : Bytes) : Option (List (String × Bytes)) := read ofUtf8 stream

/-! ## What is written -/

/-- Whether a table holds a row. -/
def holdsRow (group : String × List RecordBatch) : Bool := group.2.any fun b => decide (0 < b.numRows)

/-- The tables that are written. -/
def written (groups : List (String × List RecordBatch)) : List (String × List RecordBatch) :=
  groups.filter holdsRow

theorem writeGroup_eq (ipc : ArrowIpc) (compress : Bool) (writer : Bytes)
    (group : String × List RecordBatch) : writeGroup ipc compress writer group =
      if holdsRow group then
        (arrowPayload ipc compress group.2).map fun payload => writer ++ frame (utf8 group.1) payload
      else .ok writer := by
  obtain ⟨name, batches⟩ := group
  cases batches with
  | nil => rfl
  | cons first rest =>
    have hempty : (first :: rest).all (fun b => b.numRows == 0) = !holdsRow (name, first :: rest) := by
      rw [Bool.eq_iff_iff]
      simp [holdsRow]
    rw [writeGroup]
    dsimp only
    rw [hempty]
    cases holdsRow (name, first :: rest) <;> rfl

/-- **The stream is a frame for each table that holds a row**, in order. -/
theorem writeArrowFrames_eq_ok {ipc : ArrowIpc} {compress : Bool} {groups : List (String × List RecordBatch)}
    {writer stream : Bytes} : groups.foldlM (writeGroup ipc compress) writer = .ok stream ↔ ∃ payloads,
      List.Forall₂ (fun group payload => arrowPayload ipc compress group.2 = .ok payload) (written groups)
        payloads ∧ stream = writer ++
          (((written groups).zip payloads).map fun p => frame (utf8 p.1.1) p.2).flatten := by
  induction groups generalizing writer with
  | nil =>
    constructor
    · intro h
      obtain rfl := Except.ok.inj h
      exact ⟨[], .nil, by simp [written]⟩
    · rintro ⟨payloads, -, rfl⟩
      simp [written]
      rfl
  | cons group groups ih =>
    rw [List.foldlM_cons]
    refine bind_eq_ok.trans ?_
    simp only [writeGroup_eq]
    cases hrow : holdsRow group with
    | false =>
      have hskip : written (group :: groups) = written groups := by
        rw [written, List.filter_cons_of_neg (by simp [hrow])]
        rfl
      simp only [Bool.false_eq_true, if_false, Except.ok.injEq, exists_eq_left', ih, hskip]
    | true =>
      have htake : written (group :: groups) = group :: written groups := by
        rw [written, List.filter_cons_of_pos hrow]
        rfl
      simp only [if_true, map_eq_ok, ih, htake]
      constructor
      · rintro ⟨_, ⟨payload, hpayload, rfl⟩, payloads, hall, rfl⟩
        exact ⟨payload :: payloads, .cons hpayload hall, by simp [List.append_assoc]⟩
      · rintro ⟨_, _ | ⟨hpayload, hall⟩, rfl⟩
        exact ⟨_, ⟨_, hpayload, rfl⟩, _, hall, by simp [List.append_assoc]⟩

/-! ## Frames read back -/

/-- What is relied on of Arrow's writer and reader, on a table's batches: the reader reads a written stream as
the batches written, and a stream cut before its end marker's eight bytes as fewer, if at all. -/
structure ArrowIpc.Inverse (ipc : ArrowIpc) (compress : Bool) (batches : List RecordBatch) : Prop where
  reads : ∀ bytes, arrowPayload ipc compress batches = .ok bytes → ipc.read bytes = some (filled batches)
  cut : ∀ bytes n got, arrowPayload ipc compress batches = .ok bytes → n + 8 < bytes.length →
    ipc.read (bytes.take n) = some got → got.length < (filled batches).length

/-- A stream that says what it holds: a frame for each table that holds a row, in order, under its name and
with its non-empty batches; and none exactly when no table holds a row. -/
structure SelfDescribing (ipc : ArrowIpc) (groups : List (String × List RecordBatch)) (stream : Bytes) :
    Prop where
  frames : ∃ frames, readArrowFrames stream = some frames ∧
    List.Forall₂ (fun group frame => frame.1 = group.1 ∧
      ∃ got, ipc.read frame.2 = some got ∧ filled got = filled group.2) (written groups) frames
  empty : readArrowFrames stream = some [] ↔ ∀ group ∈ groups, ∀ batch ∈ group.2, batch.numRows = 0

/-- Whether the length fields count a table's name and its stream. -/
def LengthsFit (ipc : ArrowIpc) (compress : Bool) (group : String × List RecordBatch) : Prop :=
  (utf8 group.1).length < 2 ^ 32 ∧
    ∀ payload, arrowPayload ipc compress group.2 = .ok payload → payload.length < 2 ^ 32

section Read

variable {ipc : ArrowIpc} {compress : Bool} {groups : List (String × List RecordBatch)}

/-- A name cut short is another name. -/
theorem not_longName {name : String} {payload rest : Bytes} (hname : ¬(utf8 name).length < 2 ^ 32)
    {frames : List (String × Bytes)}
    (h : readArrowFrames (frame (utf8 name) payload ++ rest) = some frames) :
    ∀ f ∈ frames.head?, f.1 ≠ name := by
  obtain ⟨got, v, cut, others, rfl, hdecode, hlength⟩ := read_frame_longName h
  rintro f hf rfl
  obtain rfl := Option.some.inj hf
  rw [utf8_of_ofUtf8 hdecode] at hname hlength
  have hlt := Nat.mod_lt got.length (by decide : 0 < 2 ^ 32)
  omega

/-- A stream cut short does not read as the batches written. -/
theorem not_longPayload {group : String × List RecordBatch} {payload rest : Bytes}
    (hname : (utf8 group.1).length < 2 ^ 32) (hinverse : ipc.Inverse compress group.2)
    (hpayload : arrowPayload ipc compress group.2 = .ok payload) (hlong : ¬payload.length < 2 ^ 32)
    {frames : List (String × Bytes)}
    (h : readArrowFrames (frame (utf8 group.1) payload ++ rest) = some frames) :
    ∀ f ∈ frames.head?, ∀ got, ipc.read f.2 = some got → filled got ≠ filled group.2 := by
  obtain ⟨others, rfl⟩ := read_frame_longPayload hname (ofUtf8_utf8 group.1) (Nat.le_of_not_lt hlong) h
  rintro f hf got hgot heq
  obtain rfl := Option.some.inj hf
  have hlt := Nat.mod_lt payload.length (by decide : 0 < 2 ^ 32)
  have hcut := hinverse.cut payload _ got hpayload (by omega) hgot
  have hfew : (filled got).length ≤ got.length := List.length_filter_le ..
  rw [heq] at hfew
  omega

/-- **Frames read back exactly where each table's length fields count its parts.** -/
theorem frames_iff {payloads : List Bytes}
    (hall : List.Forall₂ (fun group payload => arrowPayload ipc compress group.2 = .ok payload) groups payloads)
    (hinverse : ∀ group ∈ groups, ipc.Inverse compress group.2) :
    (∃ frames, readArrowFrames
        ((groups.zip payloads).map fun p => frame (utf8 p.1.1) p.2).flatten = some frames ∧
      List.Forall₂ (fun group frame => frame.1 = group.1 ∧
        ∃ got, ipc.read frame.2 = some got ∧ filled got = filled group.2) groups frames) ↔
      ∀ group ∈ groups, LengthsFit ipc compress group := by
  induction hall with
  | nil => exact ⟨fun _ => nofun, fun _ => ⟨[], rfl, .nil⟩⟩
  | @cons group payload groups payloads hpayload hrest ih =>
    have ih := ih fun g hg => hinverse g (List.mem_cons_of_mem _ hg)
    rw [List.zip_cons_cons, List.map_cons, List.flatten_cons, List.forall_mem_cons]
    have hfits : LengthsFit ipc compress group ↔
        (utf8 group.1).length < 2 ^ 32 ∧ payload.length < 2 ^ 32 := by
      rw [LengthsFit, hpayload]
      simp
    by_cases hname : (utf8 group.1).length < 2 ^ 32
    · by_cases hlength : payload.length < 2 ^ 32
      · have hread (rest : Bytes) : read ofUtf8 (frame (utf8 group.1) payload ++ rest) =
            (read ofUtf8 rest).map ((group.1, payload) :: ·) :=
          read_frame hname hlength (ofUtf8_utf8 group.1)
        have hbatches : ∃ got, ipc.read payload = some got ∧ filled got = filled group.2 :=
          ⟨filled group.2, (hinverse group List.mem_cons_self).reads payload hpayload, by
            rw [filled, filled, List.filter_filter]; simp⟩
        rw [readArrowFrames, hread, and_iff_right (hfits.mpr ⟨hname, hlength⟩), ← ih]
        constructor
        · rintro ⟨_, hframes, hgroups⟩
          obtain ⟨others, hothers, rfl⟩ := Option.map_eq_some_iff.mp hframes
          exact ⟨others, hothers, (List.forall₂_cons.mp hgroups).2⟩
        · rintro ⟨others, hothers, hgroups⟩
          refine ⟨(group.1, payload) :: others, ?_, .cons ⟨rfl, hbatches⟩ hgroups⟩
          rw [readArrowFrames] at hothers
          rw [hothers, Option.map_some]
      · refine iff_of_false ?_ fun h => hlength (hfits.mp h.1).2
        rintro ⟨_, hframes, _ | ⟨⟨-, got, hgot, hsame⟩, -⟩⟩
        exact not_longPayload hname (hinverse group List.mem_cons_self) hpayload hlength hframes _ rfl got hgot
          hsame
    · refine iff_of_false ?_ fun h => hname (hfits.mp h.1).1
      rintro ⟨_, hframes, _ | ⟨⟨hsame, -⟩, -⟩⟩
      exact not_longName hname hframes _ rfl hsame

theorem written_eq_nil : written groups = [] ↔ ∀ group ∈ groups, ∀ batch ∈ group.2, batch.numRows = 0 := by
  simp [written, holdsRow, List.filter_eq_nil_iff]

/-- **A stream says what it holds exactly where its length fields do**: each table that holds a row has a name
and an Arrow stream of fewer than `2 ^ 32` bytes. -/
theorem selfDescribing_iff {stream : Bytes} (h : writeArrowFrames ipc groups compress = .ok stream)
    (hinverse : ∀ group ∈ written groups, ipc.Inverse compress group.2) :
    SelfDescribing ipc groups stream ↔ ∀ group ∈ written groups, LengthsFit ipc compress group := by
  obtain ⟨payloads, hall, rfl⟩ := writeArrowFrames_eq_ok.mp h
  rw [List.nil_append, ← frames_iff hall hinverse]
  refine ⟨fun hself => hself.frames, fun hframes => ⟨hframes, ?_⟩⟩
  obtain ⟨frames, hread, hgroups⟩ := hframes
  rw [hread, Option.some.injEq, ← written_eq_nil, ← List.length_eq_zero_iff, ← List.length_eq_zero_iff,
    hgroups.length_eq]

end Read

/-! ## Tables of one row -/

/-- A batch of one row. -/
def loneRow : RecordBatch where
  numRows := 1
  columns := [("number", .scalar (.int .uint8) [Slot.some 5#8])]
  lengths := by decide
  offsets := by simp [Column.OffsetsFit]

/-- A batch without rows. -/
def noRow : RecordBatch where
  numRows := 0
  columns := [("number", .scalar (.int .uint8) [])]
  lengths := by decide
  offsets := by simp [Column.OffsetsFit]

/-- An Arrow whose stream for a table of that row is of a length. -/
def longIpc (length : ℕ) : ArrowIpc where
  write _ _ _ := .ok (List.replicate length 0)
  read bytes := if bytes.length = length then some [loneRow] else none

theorem inverse_longIpc (length : ℕ) (compress : Bool) {batches : List RecordBatch}
    (hfilled : filled batches = [loneRow]) :
    (longIpc length).Inverse compress batches where
  reads bytes h := by
    obtain rfl := Except.ok.inj h
    rw [hfilled]
    exact if_pos List.length_replicate
  cut bytes n got h hn hgot := by
    obtain rfl := Except.ok.inj h
    rw [List.length_replicate] at hn
    have hlength : ((List.replicate length (0 : UInt8)).take n).length ≠ length := by
      rw [List.length_take, List.length_replicate]
      omega
    exact absurd ((if_neg hlength).symm.trans hgot) (by simp)

/-- Two tables of a row, one of them with a batch that has none, read back beside a table without batches. -/
theorem selfDescribing_iff_twoTables :
    let groups := [("logs", [noRow, loneRow]), ("traces", []), ("blocks", [loneRow])]
    ∃ stream, writeArrowFrames (longIpc 64) groups false = .ok stream ∧ SelfDescribing (longIpc 64) groups stream := by
  intro groups
  have hwritten : ∀ group ∈ written groups, (utf8 group.1).length < 2 ^ 32 ∧ filled group.2 = [loneRow] := by
    intro group hgroup
    have hmem : group ∈ [("logs", [noRow, loneRow]), ("blocks", [loneRow])] := hgroup
    simp only [List.mem_cons, List.not_mem_nil, or_false] at hmem
    rcases hmem with rfl | rfl
    · exact ⟨by decide, rfl⟩
    · exact ⟨by decide, rfl⟩
  refine ⟨_, rfl, (selfDescribing_iff rfl fun group hgroup => inverse_longIpc 64 false (hwritten group hgroup).2).mpr
    fun group hgroup => ⟨(hwritten group hgroup).1, fun payload hpayload => ?_⟩⟩
  obtain rfl := Except.ok.inj hpayload
  rw [List.length_replicate]
  norm_num

theorem exists_longStream {length : ℕ} (h : 2 ^ 32 ≤ length) : ∃ stream,
    writeArrowFrames (longIpc length) [("logs", [loneRow])] false = .ok stream ∧
      ¬SelfDescribing (longIpc length) [("logs", [loneRow])] stream := by
  have hpayload : arrowPayload (longIpc length) false [loneRow] = .ok (List.replicate length 0) := rfl
  have hname : (utf8 "logs").length < 2 ^ 32 := by decide
  have hlong : ¬(List.replicate length (0 : UInt8)).length < 2 ^ 32 := by
    rw [List.length_replicate]
    exact Nat.not_lt.mpr h
  refine ⟨_, writeArrowFrames_eq_ok.mpr ⟨_, .cons hpayload .nil, rfl⟩, fun hself => ?_⟩
  obtain ⟨_, hframes, hgroups⟩ := hself.frames
  obtain _ | ⟨⟨-, got, hgot, hsame⟩, -⟩ := hgroups
  exact not_longPayload hname (inverse_longIpc _ false rfl) hpayload hlong hframes _ rfl got hgot hsame

/-- A table whose stream is `2 ^ 32` bytes does not read back. -/
theorem not_selfDescribing_longIpc : (longIpc (2 ^ 32)).Inverse false [loneRow] ∧ ∃ stream,
    writeArrowFrames (longIpc (2 ^ 32)) [("logs", [loneRow])] false = .ok stream ∧
      ¬SelfDescribing (longIpc (2 ^ 32)) [("logs", [loneRow])] stream :=
  ⟨inverse_longIpc _ false rfl, exists_longStream (le_refl _)⟩

end QueryEngine
