import QueryEngine.Join.Hierarchical

/-!
# Join/BlockAgreement — when a relation's lookups agree with block numbers

A row's block number is its stored bits read unsigned; as the leading component of a key the same
column is widened by its own sign.  Four lookups compare the components — the key filter, the
address filter's groups, the semi-join and the hierarchical join's groups — and all four disagree
with the block numbers on the same pairs of rows: `Clash`.
-/

open Numerals Fallible TwosComplement Lookup

namespace QueryEngine

/-! ## Two readings of one stored number -/

/-- Two stored numbers that are one key and two blocks, or one block and two keys. -/
def Clash (t u : IntType) (x y : ℤ) : Prop :=
  (x < 0 ∧ 0 ≤ y ∧ t.bits < 64 ∧ (y = x + 2 ^ t.bits ∨ y = x + 2 ^ 64)) ∨
  (y < 0 ∧ 0 ≤ x ∧ u.bits < 64 ∧ (x = y + 2 ^ u.bits ∨ x = y + 2 ^ 64)) ∨
  (x < 0 ∧ x = y ∧ t.bits ≠ u.bits)

instance (t u : IntType) (x y : ℤ) : Decidable (Clash t u x y) := by
  unfold Clash; infer_instance

/-- What a stored number's bits are, unsigned. -/
theorem IntType.toNat_eq (t : IntType) (b : t.Native) :
    (b.toNat : ℤ) = if 0 ≤ t.value b then t.value b else t.value b + 2 ^ t.bits := by
  split
  · next h => exact (t.value_of_nonneg h).symm
  · next h =>
    have hb : InRange false t.bits (b.toNat : ℤ) := ⟨by positivity, by exact_mod_cast b.isLt⟩
    have hread := t.value_eq_read b
    cases hs : t.signed with
    | false =>
      rw [hread, hs, read_eq_self hb] at h
      exact absurd hb.1 h
    | true =>
      rw [hs, read_true_of_unsigned hb] at hread
      split at hread
      · exact absurd (hread ▸ hb.1) h
      · linarith

/-- A stored number is no further from zero than its width lets it. -/
theorem IntType.value_bounds (t : IntType) (b : t.Native) :
    -2 ^ t.bits ≤ 2 * t.value b ∧ t.value b < 2 ^ t.bits := by
  have h := t.holds_value b
  have hpos := pow_pos_int t.bits
  unfold Holds at h
  cases hs : t.signed with
  | false =>
    rw [hs] at h
    exact ⟨by linarith [h.1], h.2⟩
  | true =>
    rw [hs] at h
    exact ⟨h.1, by linarith [h.2]⟩

/-- **Two stored numbers are one key exactly when they are one block, unless they clash.** -/
theorem key_eq_iff_block_eq (t u : IntType) (a : t.Native) (b : u.Native) :
    ((storedKey (t.value a) = storedKey (u.value b)) ↔ a.toNat = b.toNat) ↔
      ¬Clash t u (t.value a) (u.value b) := by
  have ha := t.toNat_eq a
  have hb := u.toNat_eq b
  have hka := t.value_bounds a
  have hkb := u.value_bounds b
  have hblock : a.toNat = b.toNat ↔ (a.toNat : ℤ) = (b.toNat : ℤ) := by omega
  rw [storedKey, storedKey, ofInt_eq_ofInt_iff, hblock, ha, hb, Clash]
  generalize t.value a = x at hka ⊢
  generalize u.value b = y at hkb ⊢
  rcases t.bits_cases with ht | ht | ht | ht <;> rcases u.bits_cases with hu | hu | hu | hu
  all_goals
    rw [ht] at hka ⊢
    rw [hu] at hkb ⊢
    norm_num at hka hkb ⊢
    split <;> split <;> omega

/-! ## A row's key, led by its block -/

/-- A row with a key: the block number stored there, and the components after it. -/
structure RecordBatch.RowKey (batch : RecordBatch) (blockColumn : String) (names : List String)
    (kinds : List KeyKind) (row : ℕ) (t : IntType) (block : t.Native) (rest : List KeyValue) :
    Prop where
  stored : ∃ slots, batch.columnByName blockColumn = some (.scalar (.int t) slots) ∧
    (slots[row]?).bind Slot.get? = some block
  keyed : batch.KeyedAt kinds names
  rest : batch.keyTuple names row = some rest

namespace RecordBatch.RowKey

variable {batch : RecordBatch} {blockColumn : String} {names : List String} {kinds : List KeyKind}
  {row : ℕ} {t : IntType} {block : t.Native} {rest : List KeyValue}
  (h : batch.RowKey blockColumn names kinds row t block rest)
include h

theorem keyedAt : batch.KeyedAt (.int :: kinds) (blockColumn :: names) := by
  obtain ⟨slots, hcol, -⟩ := h.stored
  exact .cons (by rw [hcol]; rfl) h.keyed

theorem keyTuple : batch.keyTuple (blockColumn :: names) row =
    some (.int (storedKey (t.value block)) :: rest) := by
  obtain ⟨slots, hcol, hslot⟩ := h.stored
  have hvalue : (Column.scalar (.int t) slots).keyValue row =
      some (.int (storedKey (t.value block))) := by
    rw [Column.keyValue, hslot]
    rfl
  refine Fallible.mapM_eq_some.mpr (.cons (by rw [hcol]; exact hvalue) ?_)
  exact Fallible.mapM_eq_some.mp h.rest

theorem blockAt : batch.blockAt blockColumn row = some block.toNat := by
  obtain ⟨slots, hcol, hslot⟩ := h.stored
  obtain ⟨s, hs, hget⟩ := Option.bind_eq_some_iff.mp hslot
  have hvalue : s.value = block := by
    unfold Slot.get? at hget
    split at hget
    · exact Option.some.inj hget
    · exact absurd hget (by simp)
  rw [RecordBatch.blockAt, hcol]
  change (slots.map fun s => s.value.toNat)[row]? = _
  rw [List.getElem?_map, hs, ← hvalue]
  rfl

end RecordBatch.RowKey

/-- A row's group, as an address filter looks it up. -/
def groupNamed (sources : SourceAddresses) (target : RecordBatch) (groupKeyColumns : List String)
    (row : ℕ) : Option ℕ :=
  (sources.kind.key target groupKeyColumns row).bind sources.groupId

/-- Integer keys are what groups are keyed by. -/
theorem keyedAt_replicate {kinds : List KeyKind} {batch : RecordBatch} {names : List String}
    (hkinds : ∀ kind ∈ kinds, kind = .int) (h : batch.KeyedAt (.int :: kinds) names) :
    batch.KeyedAt (List.replicate names.length .int) names := by
  rw [← h.length_eq, ← List.eq_replicate_of_mem (l := .int :: kinds) fun kind hkind => ?_]
  · exact h
  · rcases List.mem_cons.mp hkind with rfl | hkind
    · rfl
    · exact hkinds kind hkind

section Lookups

open SourceAddresses

variable {kinds : List KeyKind} {source target : RecordBatch} {sourceBlock targetBlock : String}
  {leftRest rightRest : List String} {row : ℕ} {t u : IntType} {a : t.Native} {b : u.Native}
  {rest : List KeyValue}
  (hs : source.RowKey sourceBlock leftRest kinds 0 t a rest)
  (ht : target.RowKey targetBlock rightRest kinds row u b rest)
include hs ht

/-- Two rows whose keys agree after the block have one key exactly when they have one block, unless
the blocks clash. -/
theorem joined_iff {joined : Prop}
    (h : joined ↔ source.keyTuple (sourceBlock :: leftRest) 0 =
      target.keyTuple (targetBlock :: rightRest) row) :
    ((joined ↔ source.blockAt sourceBlock 0 = target.blockAt targetBlock row) ↔
      ¬Clash t u (t.value a) (u.value b)) := by
  rw [h, hs.keyTuple, ht.keyTuple, hs.blockAt, ht.blockAt, ← key_eq_iff_block_eq]
  simp

/-- One source row joins the rows that have its key. -/
theorem semiJoined_one (hone : source.numRows = 1) :
    semiJoined [source] (sourceBlock :: leftRest) target (targetBlock :: rightRest) row = true ↔
      source.keyTuple (sourceBlock :: leftRest) 0 =
        target.keyTuple (targetBlock :: rightRest) row := by
  rw [semiJoined_iff, ht.keyTuple]
  constructor
  · rintro ⟨tuple, htuple, batch, hbatch, i, hi, hown⟩
    obtain rfl := List.mem_singleton.mp hbatch
    obtain rfl : i = 0 := by omega
    rw [hown, ← htuple]
  · exact fun heq => ⟨_, rfl, source, List.mem_singleton_self _, 0, by omega, heq⟩

/-- The address filter finds a row's group exactly when it is the source row's. -/
theorem groupNamed_one (hone : source.numRows = 1) (hkinds : ∀ kind ∈ kinds, kind = .int)
    {addressColumn : String} (haddress : (source.addressAt addressColumn 0).isSome) :
    ∃ sources, SourceAddresses.build [source] (sourceBlock :: leftRest) addressColumn = some sources ∧
      ((groupNamed sources target (targetBlock :: rightRest) row).isSome ↔
        source.keyTuple (sourceBlock :: leftRest) 0 =
          target.keyTuple (targetBlock :: rightRest) row) := by
  have hfits := @fits_one (sourceBlock :: leftRest) addressColumn _ hone
  refine ⟨_, build_eq hfits, ?_⟩
  set sources := ofBatches [source] (sourceBlock :: leftRest) addressColumn with hsources
  have hsource := hs.keyedAt.keyTuple hs.keyTuple
  have htarget := ht.keyedAt.keyTuple ht.keyTuple
  obtain ⟨key, hkey⟩ : ∃ key, sources.kind.pack (.int (storedKey (u.value b)) :: rest) = some key := by
    refine exists_pack_groupKind ?_
    rw [← hs.keyedAt.length_eq, ← List.eq_replicate_of_mem (l := .int :: kinds) fun kind hkind => ?_]
    · exact htarget
    · rcases List.mem_cons.mp hkind with rfl | hkind
      · rfl
      · exact hkinds kind hkind
  have hnamed : groupNamed sources target (targetBlock :: rightRest) row = name sources.groups key := by
    rw [groupNamed, GroupKind.key_eq, ht.keyTuple, Option.bind_some, hkey, Option.bind_some]
    exact congrFun (groupId_ofBatches hfits) key
  rw [hnamed, Option.isSome_iff_ne_none, Ne, name_eq_none_iff, not_not, hs.keyTuple, ht.keyTuple,
    Option.some_inj]
  constructor
  · intro hmem
    obtain ⟨⟨own, path⟩, hrow, rfl⟩ := exists_row _ hmem
    obtain ⟨batch, hbatch, i, hi, hpack, -⟩ := mem_sourceRows.mp hrow
    obtain rfl := List.mem_singleton.mp hbatch
    obtain rfl : i = 0 := by omega
    rw [hs.keyTuple] at hpack
    exact GroupKind.pack_injective hsource htarget hpack hkey
  · intro heq
    obtain ⟨path, hpath⟩ := Option.isSome_iff_exists.mp haddress
    have hrow : (key, pathBytes path) ∈ sourceRows _ [source] (sourceBlock :: leftRest)
        addressColumn := by
      refine mem_sourceRows.mpr ⟨source, List.mem_singleton_self _, 0, by omega, ?_, by rw [hpath]; rfl⟩
      rw [hs.keyTuple, heq]
      exact hkey
    obtain ⟨group, hgroup⟩ : ∃ group, name sources.groups key = some group := exists_name _ hrow
    by_contra hmem
    exact absurd (hgroup.symm.trans (name_eq_none_iff.mpr hmem)) (by simp)

/-- The hierarchical join groups a row with the source row exactly when their keys are one. -/
theorem makeGroupKey_one (hkinds : ∀ kind ∈ kinds, kind = .int) :
    ∃ left right, resolveIndices source (sourceBlock :: leftRest) = .ok left ∧
      resolveIndices target (targetBlock :: rightRest) = .ok right ∧
      (makeGroupKey left 0 = makeGroupKey right row ↔
        source.keyTuple (sourceBlock :: leftRest) 0 =
          target.keyTuple (targetBlock :: rightRest) row) := by
  obtain ⟨left, hleft, hleftKey⟩ := makeGroupKey_eq (keyedAt_replicate hkinds hs.keyedAt)
  obtain ⟨right, hright, hrightKey⟩ := makeGroupKey_eq (keyedAt_replicate hkinds ht.keyedAt)
  refine ⟨left, right, hleft, hright, ?_⟩
  rw [hleftKey, hrightKey, hs.keyTuple, ht.keyTuple]
  simp only [Option.map_some, Except.ok.injEq, Option.some.injEq]
  exact keyBytes_injective hs.keyedAt ht.keyedAt hs.keyTuple ht.keyTuple

end Lookups

/-! ## Joins and block numbers -/

/-- **A lookup joins two rows whose keys agree after the block exactly when they are of one block,
unless the stored blocks clash** — and all four lookups clash on the same ones. -/
theorem lookups_agree_with_blocks_iff (kinds : List KeyKind) (source target : RecordBatch)
    (sourceBlock targetBlock addressColumn : String) (leftRest rightRest : List String) (row : ℕ)
    (t u : IntType) (a : t.Native) (b : u.Native) (rest : List KeyValue)
    (hone : source.numRows = 1) (hrow : row < target.numRows)
    (hs : source.RowKey sourceBlock leftRest kinds 0 t a rest)
    (ht : target.RowKey targetBlock rightRest kinds row u b rest) :
    (∃ filter mask, KeyFilter.build [source] (sourceBlock :: leftRest) (targetBlock :: rightRest) sourceBlock
          targetBlock = some filter ∧
        filter.mask target (fun _ => true) = .ok mask ∧
        ((mask[row]? = some true ↔ source.blockAt sourceBlock 0 = target.blockAt targetBlock row) ↔
          ¬Clash t u (t.value a) (u.value b))) ∧
      (∃ mask, semiJoinMasks [source] (sourceBlock :: leftRest) [target] (targetBlock :: rightRest) =
          .ok [mask] ∧
        ((mask[row]? = some true ↔ source.blockAt sourceBlock 0 = target.blockAt targetBlock row) ↔
          ¬Clash t u (t.value a) (u.value b))) ∧
      ((∀ kind ∈ kinds, kind = .int) → (source.addressAt addressColumn 0).isSome →
        ∃ sources, SourceAddresses.build [source] (sourceBlock :: leftRest) addressColumn = some sources ∧
          (((groupNamed sources target (targetBlock :: rightRest) row).isSome ↔
              source.blockAt sourceBlock 0 = target.blockAt targetBlock row) ↔
            ¬Clash t u (t.value a) (u.value b))) ∧
      ((∀ kind ∈ kinds, kind = .int) →
        ∃ left right, resolveIndices source (sourceBlock :: leftRest) = .ok left ∧
          resolveIndices target (targetBlock :: rightRest) = .ok right ∧
          ((makeGroupKey left 0 = makeGroupKey right row ↔
              source.blockAt sourceBlock 0 = target.blockAt targetBlock row) ↔
            ¬Clash t u (t.value a) (u.value b))) := by
  have hsources : ∀ batch ∈ [source], batch.KeyedAt (.int :: kinds) (sourceBlock :: leftRest) :=
    fun batch hbatch => List.mem_singleton.mp hbatch ▸ hs.keyedAt
  have hpaired : (sourceBlock :: leftRest).length = (targetBlock :: rightRest).length :=
    hs.keyedAt.length_eq.symm.trans ht.keyedAt.length_eq
  have hkept : ((List.range target.numRows).map (semiJoined [source] (sourceBlock :: leftRest) target
      (targetBlock :: rightRest)))[row]? = some true ↔
        source.keyTuple (sourceBlock :: leftRest) 0 =
          target.keyTuple (targetBlock :: rightRest) row := by
    rw [List.getElem?_map, List.getElem?_range hrow, Option.map_some, Option.some_inj]
    exact semiJoined_one hs ht hone
  have hfits : KeySet.Fits [source] (sourceBlock :: leftRest) := fun _ => SourceAddresses.fits_one hone
  have hmask := KeySet.mask_ofBatches hsources ht.keyedAt hfits sourceBlock fun _ => true
  simp only [Bool.true_and] at hmask
  refine ⟨⟨_, _, KeyFilter.build_eq hfits hpaired, hmask, joined_iff hs ht hkept⟩,
    ⟨_, semiJoinMasks_eq hsources fun batch hbatch => List.mem_singleton.mp hbatch ▸ ht.keyedAt,
      joined_iff hs ht hkept⟩,
    fun hkinds haddress => ?_,
    fun hkinds => ?_⟩
  · obtain ⟨sources, hbuild, hnamed⟩ := groupNamed_one hs ht hone hkinds haddress
    exact ⟨sources, hbuild, joined_iff hs ht hnamed⟩
  · obtain ⟨left, right, hleft, hright, hkeys⟩ := makeGroupKey_one hs ht hkinds
    exact ⟨left, right, hleft, hright, joined_iff hs ht hkeys⟩

/-- A row of one block, stored at a type, with the root's address. -/
def oneBlock (t : IntType) (block : t.Native) : RecordBatch where
  numRows := 1
  columns := [("number", .scalar (.int t) [.some block]),
    ("path", .list false (.int .uint32) [.some []])]
  lengths c hc := by
    rcases List.mem_pair.mp hc with rfl | rfl <;> rfl
  offsets c hc := by
    rcases List.mem_pair.mp hc with rfl | rfl
    · trivial
    · exact show 0 + 0 < 2 ^ 31 by decide

theorem rowKey_oneBlock (t : IntType) (block : t.Native) :
    (oneBlock t block).RowKey "number" [] [] 0 t block [] :=
  ⟨⟨_, rfl, rfl⟩, .nil, rfl⟩

/-- Block 5 in 32 bits is block 5 in 64. -/
theorem lookups_agree_with_blocks_iff_five :
    (∃ filter mask, KeyFilter.build [oneBlock .uint64 5] ["number"] ["number"] "number" "number" = some filter ∧
        filter.mask (oneBlock .uint32 5) (fun _ => true) = .ok mask ∧
        ((mask[0]? = some true ↔
            (oneBlock .uint64 5).blockAt "number" 0 = (oneBlock .uint32 5).blockAt "number" 0) ↔
          ¬Clash .uint64 .uint32 (IntType.value .uint64 5) (IntType.value .uint32 5))) ∧
      (∃ mask, semiJoinMasks [oneBlock .uint64 5] ["number"] [oneBlock .uint32 5] ["number"] =
          .ok [mask] ∧
        ((mask[0]? = some true ↔
            (oneBlock .uint64 5).blockAt "number" 0 = (oneBlock .uint32 5).blockAt "number" 0) ↔
          ¬Clash .uint64 .uint32 (IntType.value .uint64 5) (IntType.value .uint32 5))) ∧
      ((∀ kind ∈ ([] : List KeyKind), kind = .int) →
        ((oneBlock .uint64 5).addressAt "path" 0).isSome →
        ∃ sources, SourceAddresses.build [oneBlock .uint64 5] ["number"] "path" = some sources ∧
          (((groupNamed sources (oneBlock .uint32 5) ["number"] 0).isSome ↔
              (oneBlock .uint64 5).blockAt "number" 0 = (oneBlock .uint32 5).blockAt "number" 0) ↔
            ¬Clash .uint64 .uint32 (IntType.value .uint64 5) (IntType.value .uint32 5))) ∧
      ((∀ kind ∈ ([] : List KeyKind), kind = .int) →
        ∃ left right, resolveIndices (oneBlock .uint64 5) ["number"] = .ok left ∧
          resolveIndices (oneBlock .uint32 5) ["number"] = .ok right ∧
          ((makeGroupKey left 0 = makeGroupKey right 0 ↔
              (oneBlock .uint64 5).blockAt "number" 0 = (oneBlock .uint32 5).blockAt "number" 0) ↔
            ¬Clash .uint64 .uint32 (IntType.value .uint64 5) (IntType.value .uint32 5))) :=
  lookups_agree_with_blocks_iff [] (oneBlock .uint64 5) (oneBlock .uint32 5) "number" "number" "path"
    [] [] 0 .uint64 .uint32 5 5 [] rfl (by decide) (rowKey_oneBlock .uint64 5) (rowKey_oneBlock .uint32 5)

/-- **A wrapped block is missed, or crossed.**  Stored at `Int32`, −5 is the block `UInt32` stores as
2³² − 5 and no lookup joins the two; the block `Int64` stores as −5 is another, and every lookup
joins those. -/
theorem wrapped_block_joins_apart :
    ((oneBlock .int32 (-5)).blockAt "number" 0 = (oneBlock .uint32 (-5)).blockAt "number" 0 ∧
      semiJoinMasks [oneBlock .int32 (-5)] ["number"] [oneBlock .uint32 (-5)] ["number"] =
        .ok [[false]] ∧
      (KeyFilter.build [oneBlock .int32 (-5)] ["number"] ["number"] "number" "number").map
        (fun filter => (filter.mask (oneBlock .uint32 (-5)) fun _ => true).toOption) = some (some [false])) ∧
    ((oneBlock .int32 (-5)).blockAt "number" 0 ≠ (oneBlock .int64 (-5)).blockAt "number" 0 ∧
      semiJoinMasks [oneBlock .int32 (-5)] ["number"] [oneBlock .int64 (-5)] ["number"] =
        .ok [[true]] ∧
      (KeyFilter.build [oneBlock .int32 (-5)] ["number"] ["number"] "number" "number").map
        (fun filter => (filter.mask (oneBlock .int64 (-5)) fun _ => true).toOption) = some (some [true])) := by
  decide

end QueryEngine
