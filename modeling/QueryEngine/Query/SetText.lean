import QueryEngine.Query.Filters
import QueryEngine.Scan.IntegerFilters
import QueryEngine.Output.Page
import QueryEngine.Library.JsonStrings

/-!
# Query/SetText — a set looks up what the response renders

A set holds the texts a response renders.  The filter renders a stored value again, by a dispatch of its own, and looks
up what it wrote without the quotes; the response's field and a roll dispatch for themselves.  All of them write a JSON
string of one content, and a canary is looked up under the content it would have.
-/

open Fallible JsonGrammar

namespace QueryEngine

/-! ## Content of what the renderers write -/

/-- **An encoded text says the text.** -/
theorem stringContent_encodeJsonString (s : Bytes) : stringContent (encodeJsonString s) = some s := by
  have hescape : ∀ b rest, unescape (escapeByte b ++ rest) = (unescape rest).map (b :: ·) := by
    intro b rest
    have hb := b.toNat_lt
    unfold escapeByte
    split_ifs with hquote hslash h8 h9 h10 h12 h13 hspace
    all_goals try (subst b; exact unescape_escape (by decide) rest)
    · exact unescape_ascii (asciiValue_hexByte (hspace.trans (by decide))) rest
    · exact unescape_plain ⟨UInt8.not_lt.mp hspace, hquote, hslash⟩ rest
  unfold encodeJsonString quoted quote
  split
  · rw [stringContent_quoted, unescape_flatMap hescape]
  · next hplain =>
    rw [stringContent_quoted, unescape_of_plain (isPlain_of_needsEscape s (by simpa using hplain))]

/-- Text that needs no escape is its own content. -/
theorem stringContent_of_plain {text : Bytes} (h : ∃ chars, text = quoted chars ∧ ∀ b ∈ chars, IsPlain b) :
    stringContent text = some (unquoted text) := by
  obtain ⟨chars, rfl, hplain⟩ := h
  unfold quoted quote unquoted
  rw [stringContent_quoted, unescape_of_plain hplain]
  simp

/-! ## Content of a stored value -/

/-- The text a set is looked up by for a stored value, where the filter reads the type. -/
def lookedUp (encoding : Option JsonEncoding) : (s : ScalarType) → s.Value → Option Bytes
  | .text _, v => some v.bytes
  | .bytes .largeBinary, _ => none
  | .bytes _, v =>
    match encoding with
    | some .hexBytes => some (unquoted (encodeHexBytes v.1))
    | some .base58 => some (unquoted (encodeBase58Bytes v.1))
    | _ => none
  | _, _ => none

/-- A column the filter reads has such a text for each of its values. -/
theorem exists_lookedUp {sets : List FilterSet} {encoding : Option JsonEncoding} {s : ScalarType}
    {rows : List (Slot s.Value)}
    (hread : ∃ mask, (ArrayPredicate.inSet sets encoding).evaluate (.scalar s rows) = .ok mask) (v : s.Value) :
    ∃ text, lookedUp encoding s v = some text := by
  obtain ⟨mask, hmask⟩ := hread
  cases s with
  | text k => exact ⟨_, rfl⟩
  | bytes k =>
    rcases encoding with _ | encoding
    · cases hmask
    · cases encoding <;> cases k <;> first | exact ⟨_, rfl⟩ | cases hmask
  | _ => cases hmask

/-- **A row passes as that text does**, whatever the sets. -/
theorem keepsRow_inSet {encoding : Option JsonEncoding} {s : ScalarType} {rows : List (Slot s.Value)} {row : ℕ}
    {v : s.Value}
    {text : Bytes} (htext : lookedUp encoding s v = some text) (hrow : rows[row]? = some (Slot.some v))
    (sets : List FilterSet) : keepsRow (.inSet sets encoding) (.scalar s rows) row = setsContain sets text := by
  have hcell : (Column.scalar s rows).cells[row]? = some (.scalar s (some v)) := by simp [Column.cells, hrow]
  cases s with
  | text k =>
    obtain rfl := Option.some.inj htext
    exact keepsRow_eq_holds ⟨_, rfl⟩ hcell
  | bytes k =>
    rcases encoding with _ | encoding
    · cases k <;> cases htext
    · cases encoding <;> cases k <;> cases htext <;> exact keepsRow_eq_holds ⟨_, rfl⟩ hcell
  | _ => cases htext

/-- An encoding a set's column may have. -/
def IsTextEncoding (encoding : Option JsonEncoding) : Prop :=
  encoding = none ∨ encoding = some .hexBytes ∨ encoding = some .base58

theorem isTextEncoding_of_rendersText {desc : ColumnDescription} (h : rendersText desc = true) :
    IsTextEncoding desc.encoding := by
  unfold rendersText at h
  split at h
  all_goals simp_all [IsTextEncoding]

/-- **The response writes a string of that content**, at each of its values. -/
theorem encoder_writes {encoding : Option JsonEncoding} {declared : Option ColumnType} {s : ScalarType}
    {encoder : EncoderFn} (hencoding : IsTextEncoding encoding)
    (h : resolveEncoderFn (.scalar s) encoding declared = .ok encoder) {v : s.Value} {text : Bytes}
    (htext : lookedUp encoding s v = some text) :
    ∃ written, stringContent written = some text ∧
      ∀ (rows : List (Slot s.Value)) (row : ℕ), rows[row]? = some (Slot.some v) →
        encoder (.scalar s rows) row = some written := by
  cases s with
  | text k =>
    obtain rfl := Option.some.inj htext
    refine ⟨_, stringContent_encodeJsonString v.bytes, fun rows row hrow => ?_⟩
    cases k with
    | utf8 =>
      obtain rfl : encodeUtf8Value = encoder := by
        rcases hencoding with rfl | rfl | rfl <;> exact Except.ok.inj h
      simp [encodeUtf8Value, hrow, Slot.some]
    | _ => rcases hencoding with rfl | rfl | rfl <;> cases h
  | bytes k =>
    rcases hencoding with rfl | rfl | rfl
    · cases k <;> cases htext
    · refine ⟨encodeHexBytes v.1, ?_, fun rows row hrow => ?_⟩
      · rw [stringContent_of_plain (exists_plain_encodeHexBytes v.1)]
        cases k <;> first | exact htext | cases htext
      · cases k <;> cases htext
        all_goals
          obtain rfl := Except.ok.inj h
          simp [encodeFixedBinaryValue, encodeBinaryValue, encodeBytes, hrow, Slot.some]
    · refine ⟨encodeBase58Bytes v.1, ?_, fun rows row hrow => ?_⟩
      · rw [stringContent_of_plain (exists_plain_encodeBase58Bytes v.1)]
        cases k <;> first | exact htext | cases htext
      · cases k <;> cases htext
        all_goals
          obtain rfl := Except.ok.inj h
          simp [encodeBase58FixedBinary, encodeBase58Binary, encodeBytes, hrow, Slot.some]
  | _ => cases htext

/-! ## References to sets -/

/-- Two ways into one continuation. -/
theorem ite_bind_eq_ok {ε α β : Type} {c : Prop} [Decidable c] {x y : Except ε α} {f : α → Except ε β} {b : β}
    (h : (if c then x >>= f else y >>= f) = .ok b) : ∃ a, (if c then x else y) = .ok a ∧ f a = .ok b := by
  split at h
  · next hc => exact (bind_eq_ok.mp h).imp fun _ ha => by rwa [if_pos hc]
  · next hc => exact (bind_eq_ok.mp h).imp fun _ ha => by rwa [if_neg hc]

/-- What was looked up was there. -/
theorem eq_some_of_elim_ok {ε α : Type} {found : Option α} {e : ε} {a : α}
    (h : found.elim (.error e) Except.ok = .ok a) : found = some a := by
  cases found with
  | none => cases h
  | some b => rw [Except.ok.inj h]

/-- An accepted canary passes its set, as the column compares it. -/
theorem contains_of_checkCanary {canary : Text} {set : FilterSet} {name key : String} {desc : ColumnDescription}
    (h : checkCanary canary set name key desc = .ok ()) : set.contains (foldForColumn canary desc).bytes = true := by
  unfold checkCanary at h
  obtain ⟨_, -, h⟩ := bind_eq_ok.mp h
  exact engineEnsure_eq_ok.mp h

/-- **What an accepted reference compiles to.** -/
theorem compileSetFilter_spec {key : String} {value : Json} {names : List String} {table : Table} {scope : SetScope}
    {p : ColumnPredicate} (h : compileSetFilter key value names table scope = .ok p) :
    ∃ desc listed sets, listColumn key table = .ok p.column ∧ table.columns.get? p.column = some desc ∧
      rendersText desc = true ∧
      (if ((listOf value).filter fun element => !element.isObject).isEmpty then .ok none
        else compileInList p.column ((listOf value).filter fun element => !element.isObject) desc) = .ok listed ∧
      List.Forall₂ (fun name set => scope.sets.get? name = some set) names sets ∧
      (∀ q ∈ names.zip sets, ∀ canary ∈ q.2.canaries, checkCanary canary q.2 q.1 key desc = .ok ()) ∧
      p.predicate = listed.elim (.inSet sets desc.encoding) fun listed =>
        .anyOf [listed.predicate, .inSet sets desc.encoding] := by
  unfold compileSetFilter at h
  obtain ⟨column, hcolumn, h⟩ := bind_eq_ok.mp h
  obtain ⟨desc, hdesc, h⟩ := bind_eq_ok.mp h
  obtain ⟨_, hrenders, h⟩ := bind_eq_ok.mp h
  dsimp only at h
  obtain ⟨listed, hlisted, h⟩ := ite_bind_eq_ok h
  obtain ⟨sets, hsets, h⟩ := bind_eq_ok.mp h
  split at h
  · cases h
  obtain ⟨_, hcanaries, h⟩ := bind_eq_ok.mp h
  obtain rfl := Except.ok.inj h
  refine ⟨desc, listed, sets, hcolumn, eq_some_of_elim_ok hdesc, engineEnsure_eq_ok.mp hrenders, hlisted, ?_, ?_, ?_⟩
  · exact (mapM_eq_ok.mp hsets).imp fun _ _ => eq_some_of_elim_ok
  · exact fun q hq => forM_eq_ok.mp (forM_eq_ok.mp hcanaries q hq)
  · cases listed <;> rfl

/-- **A set looks up what the response renders.**  On a column that takes a reference, stored as a type both the filter
and the column's encoder read, a row passes exactly as the content of the string written for it does, in the column's
own field and in a roll; and a canary that was accepted is looked up as a value rendered as it. -/
theorem set_looks_up_rendered {key : String} {value : Json} {names : List String} {table : Table} {scope : SetScope}
    {p : ColumnPredicate} (h : compileSetFilter key value names table scope = .ok p) :
    ∃ desc sets, table.columns.get? p.column = some desc ∧
      (p.predicate = .inSet sets desc.encoding ∨ ∃ listed, p.predicate = .anyOf [listed, .inSet sets desc.encoding]) ∧
      (∀ q ∈ names.zip sets, ∀ canary ∈ q.2.canaries, checkCanary canary q.2 q.1 key desc = .ok ()) ∧
      ∀ (column : Column) (encoder : EncoderFn),
        (∃ mask, (ArrayPredicate.inSet sets desc.encoding).evaluate column = .ok mask) →
        resolveEncoderFn column.dataType desc.encoding (some desc.dataType) = .ok encoder →
        ∃ s rows, column = .scalar s rows ∧
          (∀ ryu members, resolveEncoder ryu (.scalar s) desc.encoding (some desc.dataType) members =
            .ok (.plain (onScalar encoder))) ∧
          (∀ ryu isLast, resolveRollColumn ryu table isLast p.column (.scalar s) = .ok (.value (onScalar encoder))) ∧
          ∀ row v, rows[row]? = some (Slot.some v) → ∃ written content, encoder column row = some written ∧
            onScalar encoder (.scalar s v) = some written ∧ stringContent written = some content ∧
            (∀ others, keepsRow (.inSet others desc.encoding) column row = setsContain others content) ∧
            ∀ canary set name key', checkCanary canary set name key' desc = .ok () →
              content = (foldForColumn canary desc).bytes →
              set.contains content = true ∧ keepsRow (.inSet [set] desc.encoding) column row = true := by
  obtain ⟨desc, listed, sets, -, hdesc, hrenders, -, -, hcanaries, hpredicate⟩ := compileSetFilter_spec h
  have hpredicate : p.predicate = .inSet sets desc.encoding ∨
      ∃ listed, p.predicate = .anyOf [listed, .inSet sets desc.encoding] := by
    cases listed with
    | none => exact .inl hpredicate
    | some listed => exact .inr ⟨listed.predicate, hpredicate⟩
  have hencoding := isTextEncoding_of_rendersText hrenders
  refine ⟨desc, sets, hdesc, hpredicate, hcanaries, fun column encoder hread hresolve => ?_⟩
  cases column with
  | list =>
    obtain ⟨mask, hmask⟩ := hread
    cases hmask
  | dictionary => rcases hencoding with he | he | he <;> rw [he] at hresolve <;> cases hresolve
  | scalar s rows =>
    have hplain : ∀ ryu, resolvePlain ryu (.scalar s) desc.encoding (some desc.dataType) = .ok (onScalar encoder) := by
      intro ryu
      rw [Column.dataType] at hresolve
      rw [resolvePlain, hresolve]
    refine ⟨s, rows, rfl, fun ryu members => ?_, fun ryu isLast => ?_, fun row v hrow => ?_⟩
    · rw [resolveEncoder, hplain ryu]
      rfl
      all_goals simp
    · have hroll := hplain ryu
      unfold resolveRollColumn Table.encodingOf Table.declaredType
      rw [hdesc, Option.bind_some, Option.map_some, hroll]
      rfl
    · obtain ⟨content, hcontent⟩ := exists_lookedUp hread v
      obtain ⟨written, hwritten, hwrites⟩ := encoder_writes hencoding hresolve hcontent
      have hkeeps := keepsRow_inSet hcontent hrow
      refine ⟨written, content, hwrites rows row hrow, hwrites [Slot.some v] 0 rfl, hwritten, hkeeps, ?_⟩
      rintro canary set name key' hcanary rfl
      have hcontains := contains_of_checkCanary hcanary
      exact ⟨hcontains, by simpa [hkeeps [set], setsContain] using hcontains⟩

/-- A table of one text column, which its field renders. -/
def namesTable : Table where
  blockNumberColumn := "block_number"
  addressColumn := none
  itemOrderKeys := []
  requestSurface := none
  output := ⟨none, ["name"], .empty, none, .empty⟩
  parentHashColumn := none
  columns := ⟨[("name", ⟨.string, none, false, false⟩)], by decide⟩

theorem length_x : ([120] : Bytes).length < 2 ^ 32 := by decide

/-- A set of the text `x`. -/
def setOfX : FilterSet := ⟨fun text => text == [120], [⟨[120], length_x⟩]⟩

/-- The set, and the field selected. -/
def scopeOfX : SetScope := ⟨⟨[("s", setOfX)], by decide⟩, ["name"]⟩

/-- A column of the text. -/
def columnOfX : Column := .scalar (.text .utf8) [Slot.some ⟨[120], length_x⟩]

/-- A row of the text passes the set, as the content of what is written for it does. -/
theorem set_looks_up_rendered_name : ∃ p written content,
    compileSetFilter "name" (.array []) ["s"] namesTable scopeOfX = .ok p ∧ p.predicate = .inSet [setOfX] none ∧
      encodeUtf8Value columnOfX 0 = some written ∧ stringContent written = some content ∧
        keepsRow p.predicate columnOfX 0 = setsContain [setOfX] content ∧ keepsRow p.predicate columnOfX 0 = true := by
  obtain ⟨desc, sets, hdesc, -, -, hlooked⟩ :=
    @set_looks_up_rendered "name" (.array []) ["s"] namesTable scopeOfX _ rfl
  obtain rfl := Option.some.inj hdesc
  obtain ⟨s, rows, hcolumn, -, -, hrows⟩ := hlooked columnOfX encodeUtf8Value ⟨_, rfl⟩ rfl
  obtain ⟨rfl, hslots⟩ := Column.scalar.inj hcolumn
  obtain rfl := eq_of_heq hslots
  obtain ⟨written, content, hwritten, -, hcontent, hkeeps, -⟩ := hrows 0 _ rfl
  exact ⟨_, written, content, rfl, rfl, hwritten, hcontent, hkeeps [setOfX], rfl⟩

end QueryEngine
