import Fossil.RunGraph

/-! Pages and indexes have one encoding each.

The round trips of the codec go from a list to its bytes and back. Here is the
other direction: whatever a decoder accepts is what the encoder writes for the
list it returns, so an accepted object has no slack and no second spelling. -/

namespace Fossil

section

variable {env : Primitives} {shard : Fin 16}

/-! What the readers consume. -/

theorem readRef_eq_ok {bytes rest : Bytes} {reference : ObjectRef}
    (read : readRef bytes = .ok (reference, rest)) : bytes = putRef reference ++ rest := by
  obtain ⟨⟨raw, tail⟩, split, rest⟩ := bind_eq_ok.mp read
  obtain ⟨width, rfl⟩ := splitBytes_eq_ok.mp split
  obtain ⟨digest, front, done⟩ := bind_eq_ok.mp rest
  cases done
  have digestBytes : digest.bytes = raw.take 32 := by
    unfold Fixed.ofBytes at front
    split at front
    · cases front
      rfl
    · exact absurd front (bail_ne_ok _ _)
  have lengthWidth : (raw.drop 32).length = 4 := by simp [width, refBytes]
  rw [putRef, digestBytes, be32_ofBe32 _ lengthWidth, List.take_append_drop]

/-- The length field in front of a string is determined by the string. -/
theorem ofNat_length_of_eq {bytes : Bytes} {field : UInt32} (same : bytes.length = field.toNat) :
    UInt32.ofNat bytes.length = field ∧ bytes.length < 2 ^ 32 := by
  rw [same]
  exact ⟨UInt32.ofNat_toNat, field.toNat_lt⟩

theorem parseRecords_bytes {expected : Option (Fin 16)} {count : Nat} {prior : Option Version}
    {bytes rest : Bytes} {records : List Record}
    (parsed : parseRecords env expected count prior bytes = .ok (records, rest)) :
    bytes = records.flatMap recordBytes ++ rest ∧ records.length = count ∧
      ∀ record ∈ records, record.key.length < 2 ^ 32 ∧ record.value.length < 2 ^ 32 := by
  induction count generalizing prior bytes records with
  | zero =>
      cases parsed
      simp
  | succ count ih =>
      obtain ⟨⟨keyLen, _⟩, readKeyLen, parsed⟩ := bind_eq_ok.mp parsed
      obtain ⟨⟨key, _⟩, readKey, parsed⟩ := bind_eq_ok.mp parsed
      obtain ⟨⟨block, _⟩, readBlock, parsed⟩ := bind_eq_ok.mp parsed
      obtain ⟨⟨valueLen, _⟩, readValueLen, parsed⟩ := bind_eq_ok.mp parsed
      obtain ⟨⟨value, _⟩, readValue, parsed⟩ := bind_eq_ok.mp parsed
      obtain ⟨_, parsed⟩ := guard_eq_ok.mp parsed
      obtain ⟨_, parsed⟩ := guard_eq_ok.mp parsed
      obtain ⟨⟨more, _⟩, later, done⟩ := bind_eq_ok.mp parsed
      cases done
      obtain ⟨tail, length, bounds⟩ := ih later
      obtain ⟨keyWidth, keySplit⟩ := splitBytes_eq_ok.mp readKey
      obtain ⟨valueWidth, valueSplit⟩ := splitBytes_eq_ok.mp readValue
      obtain ⟨keyField, keyBound⟩ := ofNat_length_of_eq keyWidth
      obtain ⟨valueField, valueBound⟩ := ofNat_length_of_eq valueWidth
      refine ⟨?_, by simp [length], ?_⟩
      · rw [readU32_eq_ok readKeyLen, keySplit, readU64_eq_ok readBlock,
          readU32_eq_ok readValueLen, valueSplit, tail]
        simp only [List.flatMap_cons, recordBytes, keyField, valueField, List.append_assoc]
      · exact List.forall_mem_cons.mpr ⟨⟨keyBound, valueBound⟩, bounds⟩

/-- A fence a decoder of the given index kind accepts. -/
structure Fence.Valid (env : Primitives) (shard : Fin 16) (limit : Nat) (fence : Fence) : Prop
    extends fence.Fits env shard limit where
  digest : fence.data.digest ≠ Fixed.zero

theorem parseFences_bytes {magic : Bytes} {count : Nat} {prior : Option Version}
    {bytes rest : Bytes} {fences : List Fence}
    (parsed : parseFences env shard magic count prior bytes = .ok (fences, rest)) :
    bytes = fences.flatMap fenceBytes ++ rest ∧ fences.length = count ∧
      StrictlySorted Fence.version fences ∧
      (∀ last ∈ prior, ∀ fence ∈ fences, last < fence.version) ∧
      ∀ fence ∈ fences, fence.Valid env shard (indexLimit magic) ∧ fence.key.length < 2 ^ 32 := by
  induction count generalizing prior bytes fences with
  | zero =>
      cases parsed
      simp [StrictlySorted]
  | succ count ih =>
      obtain ⟨⟨keyLen, _⟩, readKeyLen, parsed⟩ := bind_eq_ok.mp parsed
      obtain ⟨⟨key, _⟩, readKey, parsed⟩ := bind_eq_ok.mp parsed
      obtain ⟨⟨block, _⟩, readBlock, parsed⟩ := bind_eq_ok.mp parsed
      obtain ⟨⟨data, _⟩, readData, parsed⟩ := bind_eq_ok.mp parsed
      obtain ⟨valid, parsed⟩ := guard_eq_ok.mp parsed
      obtain ⟨ordered, parsed⟩ := guard_eq_ok.mp parsed
      obtain ⟨⟨more, _⟩, later, done⟩ := bind_eq_ok.mp parsed
      cases done
      obtain ⟨tail, length, sorted, above, fits⟩ := ih later
      obtain ⟨keyWidth, keySplit⟩ := splitBytes_eq_ok.mp readKey
      obtain ⟨keyField, keyBound⟩ := ofNat_length_of_eq keyWidth
      have first : ∀ last ∈ prior, last < version key block := not_above_iff.mp ordered
      have accepted : Fence.Valid env shard (indexLimit magic) ⟨key, block, data⟩ := by
        simp only [not_or, not_not, gt_iff_lt, not_lt] at valid
        obtain ⟨nonempty, routed, _, positive, bounded, digest⟩ := valid
        have length : data.length.toNat ≠ 0 := fun zero => positive (UInt32.toNat_inj.mp zero)
        exact ⟨⟨nonempty, routed, ⟨Nat.pos_of_ne_zero length, bounded⟩⟩, digest⟩
      refine ⟨?_, by simp [length], .cons (above _ rfl) sorted, ?_, ?_⟩
      · rw [readU32_eq_ok readKeyLen, keySplit, readU64_eq_ok readBlock, readRef_eq_ok readData, tail]
        simp only [List.flatMap_cons, fenceBytes, keyField, List.append_assoc]
      · intro last known fence member
        obtain rfl | inside := List.mem_cons.mp member
        · exact first last known
        · exact (first last known).trans (above _ rfl fence inside)
      · exact List.forall_mem_cons.mpr ⟨⟨accepted, keyBound⟩, fits⟩

/-- The common header of pages and indexes: magic, format version and count. -/
theorem header_eq {bytes magic : Bytes} (long : 9 ≤ bytes.length) (front : bytes.take 4 = magic)
    (byte : bytes.getD 4 0 = formatVersion) :
    bytes = magic ++ [formatVersion] ++ be32 (ofBe32 ((bytes.drop 5).take 4)) ++ bytes.drop 9 := by
  have width : ((bytes.drop 5).take 4).length = 4 := by simp; omega
  have middle : [formatVersion] = (bytes.drop 4).take 1 := by
    have inside : 4 < bytes.length := by omega
    have fourth : bytes[4] = formatVersion := by simpa [List.getD, inside] using byte
    rw [List.drop_eq_getElem_cons inside, fourth]
    rfl
  have fourth : bytes.drop 4 = (bytes.drop 4).take 1 ++ bytes.drop 5 := by
    simpa using (List.take_append_drop 1 (bytes.drop 4)).symm
  have fifth : bytes.drop 5 = (bytes.drop 5).take 4 ++ bytes.drop 9 := by
    simpa using (List.take_append_drop 4 (bytes.drop 5)).symm
  calc bytes = bytes.take 4 ++ bytes.drop 4 := (List.take_append_drop 4 bytes).symm
    _ = magic ++ ([formatVersion] ++ ((bytes.drop 5).take 4 ++ bytes.drop 9)) := by
      rw [front, fourth, ← middle, ← fifth]
    _ = _ := by
      rw [be32_ofBe32 _ width]
      simp only [List.append_assoc]

/-! Indexes. -/

/-- A list of fences that an index of the given kind may hold. -/
structure FencesValid (env : Primitives) (shard : Fin 16) (magic : Bytes) (fences : List Fence) :
    Prop where
  nonempty : fences ≠ []
  sorted : StrictlySorted Fence.version fences
  valid : ∀ fence ∈ fences, fence.Valid env shard (indexLimit magic)

theorem encodeFences_of_keys {fences : List Fence} (keys : ∀ fence ∈ fences, fence.key.length < 2 ^ 32) :
    encodeFences fences = .ok (fences.flatMap fenceBytes) := by
  induction fences with
  | nil => rfl
  | cons fence fences ih =>
      have tail := ih (fun other member => keys other (List.mem_cons_of_mem _ member))
      have key := tryU32_eq_ok.mpr ⟨keys fence (by simp), rfl⟩
      rw [encodeFences, key, tail]
      rfl

theorem encodeIndex_of_size {fences : List Fence} (magic : Bytes)
    (size : indexSize fences ≤ maxIndexBytes) :
    encodeIndex fences magic = .ok (magic ++ [formatVersion] ++ be32 (UInt32.ofNat fences.length) ++
      fences.flatMap fenceBytes) := by
  have keys : ∀ fence ∈ fences, fence.key.length < 2 ^ 32 := by
    intro fence member
    have inside : (fenceBytes fence).length ≤ (fences.flatMap fenceBytes).length :=
      (List.sublist_flatten_of_mem (List.mem_map_of_mem member)).length_le
    have total := indexSize_eq fences
    simp only [fenceBytes, List.length_append, be32_length, be64_length] at inside
    simp only [maxIndexBytes] at size
    omega
  rw [encodeIndex, if_neg (Nat.not_lt.mpr size), encodeFences_of_keys keys]
  rfl

/-- An accepted index is the encoding of the fences read from it. -/
theorem encodeIndex_decodeIndex {reference : ObjectRef} {bytes magic : Bytes} {fences : List Fence}
    (decoded : decodeIndex env reference bytes shard magic = .ok fences) :
    FencesValid env shard magic fences ∧ verifyObject env reference bytes = .ok () ∧
      encodeIndex fences magic = .ok bytes := by
  obtain ⟨small, decoded⟩ := guard_eq_ok.mp decoded
  obtain ⟨_, verified, decoded⟩ := bind_eq_ok.mp decoded
  obtain ⟨header, decoded⟩ := guard_eq_ok.mp decoded
  obtain ⟨_, decoded⟩ := guard_eq_ok.mp decoded
  obtain ⟨⟨found, rest⟩, parsed, decoded⟩ := bind_eq_ok.mp decoded
  obtain ⟨whole, done⟩ := guard_eq_ok.mp decoded
  cases done
  simp only [not_or, not_not, not_lt, gt_iff_lt] at header whole small
  obtain ⟨_, long, front, byte⟩ := header
  obtain ⟨rfl, nonempty⟩ := whole
  obtain ⟨body, count, sorted, _, valid⟩ := parseFences_bytes parsed
  have shape : bytes = magic ++ [formatVersion] ++ be32 (UInt32.ofNat fences.length) ++
      fences.flatMap fenceBytes := by
    rw [count, UInt32.ofNat_toNat]
    rw [List.append_nil] at body
    rw [← body]
    exact header_eq long front byte
  have width : magic.length = 4 := by
    rw [← front]
    simp
    omega
  have size : indexSize fences ≤ maxIndexBytes := by
    rw [indexSize_eq]
    rw [shape] at small
    simp only [List.length_append, width, be32_length, List.length_singleton] at small
    omega
  refine ⟨⟨nonempty, sorted, fun fence member => (valid fence member).1⟩, verified, ?_⟩
  rw [encodeIndex_of_size magic size, ← shape]

theorem decodeIndex_of_encodeIndex {reference : ObjectRef} {bytes magic : Bytes} {fences : List Fence}
    (width : magic.length = 4) (valid : FencesValid env shard magic fences)
    (verified : verifyObject env reference bytes = .ok ())
    (encoded : encodeIndex fences magic = .ok bytes) :
    decodeIndex env reference bytes shard magic = .ok fences := by
  obtain ⟨small, shape⟩ := encodeIndex_eq_ok encoded
  have length : bytes.length < 2 ^ 32 := by
    rw [indexSize_eq] at small
    simp only [maxIndexBytes] at small
    simp only [shape, List.length_append, width, be32_length, List.length_singleton]
    omega
  have made := makeObject_eq_ok.mpr ⟨length, @rfl _ (EncodedObject.mk ⟨env.sha256 bytes, _⟩ bytes)⟩
  have same : reference = ⟨env.sha256 bytes, UInt32.ofNat bytes.length⟩ := by
    unfold verifyObject at verified
    obtain ⟨agrees, _⟩ := guard_eq_ok.mp verified
    simp only [not_or, not_not] at agrees
    obtain ⟨sized, digest⟩ := agrees
    cases reference
    simp only at sized digest
    rw [digest, ← (ofNat_length_of_eq sized.symm).1]
  rw [same]
  have opens := decodeIndex_encodeIndex width encoded made valid.nonempty valid.sorted
    (fun fence member => (valid.valid fence member).toFits)
  obtain done | ⟨⟨fence, member, zero⟩, _⟩ := opens
  · exact done
  · exact absurd zero (valid.valid fence member).digest

/-! Data payloads. -/

/-- The payload that `build` and `flush_page` lay out for one page: the header
with its count filled in and then each encoded record. -/
def encodePayload (records : List Record) : Result Bytes := do
  let bodies ← records.mapM encodeRecord
  .ok (dataPageStart.take 5 ++ be32 (UInt32.ofNat records.length) ++ bodies.flatten)

/-- A list of records that one page may hold. -/
structure RecordsValid (env : Primitives) (expected : Option (Fin 16)) (records : List Record) :
    Prop where
  nonempty : records ≠ []
  count : records.length < 2 ^ 32
  sorted : StrictlySorted Record.version records
  keys : ∀ record ∈ records, record.key ≠ []
  routed : ∀ record ∈ records, ∀ shard ∈ expected, partition env record.key = shard

theorem encodeRecord_eq_ok_iff {record : Record} {bytes : Bytes} :
    encodeRecord record = .ok bytes ↔
      (record.key.length < 2 ^ 32 ∧ record.value.length < 2 ^ 32) ∧ bytes = recordBytes record := by
  simp only [encodeRecord, bind_eq_ok, context_eq_ok, tryU32_eq_ok, Except.ok.injEq]
  constructor
  · rintro ⟨_, ⟨key, _⟩, _, ⟨value, _⟩, same⟩
    exact ⟨⟨key, value⟩, same.symm⟩
  · rintro ⟨⟨key, value⟩, same⟩
    exact ⟨_, ⟨key, rfl⟩, _, ⟨value, rfl⟩, same.symm⟩

theorem mapM_encodeRecord {records : List Record} {bodies : List Bytes} :
    records.mapM encodeRecord = .ok bodies ↔
      (∀ record ∈ records, record.key.length < 2 ^ 32 ∧ record.value.length < 2 ^ 32) ∧
        bodies = records.map recordBytes := by
  induction records generalizing bodies with
  | nil => simp [pure, Except.pure, eq_comm]
  | cons record records ih =>
      simp only [List.mapM_cons, bind_eq_ok, encodeRecord_eq_ok_iff, ih, pure, Except.pure,
        Except.ok.injEq, List.forall_mem_cons, List.map_cons]
      constructor
      · intro ⟨_, ⟨bound, rfl⟩, _, ⟨bounds, rfl⟩, same⟩
        exact ⟨⟨bound, bounds⟩, same.symm⟩
      · intro ⟨⟨bound, bounds⟩, same⟩
        exact ⟨_, ⟨bound, rfl⟩, _, ⟨bounds, rfl⟩, same.symm⟩

theorem encodePayload_eq_ok {records : List Record} {bytes : Bytes} :
    encodePayload records = .ok bytes ↔
      (∀ record ∈ records, record.key.length < 2 ^ 32 ∧ record.value.length < 2 ^ 32) ∧
        bytes = pageBytes records := by
  simp only [encodePayload, bind_eq_ok, mapM_encodeRecord, Except.ok.injEq]
  constructor
  · intro ⟨_, ⟨bounds, rfl⟩, same⟩
    exact ⟨bounds, same.symm⟩
  · intro ⟨bounds, same⟩
    exact ⟨_, ⟨bounds, rfl⟩, same.symm⟩

/-- The builder finishes a page with the payload of the records put on it. -/
theorem PartitionBuild.Denotes.encodePayload {part : PartitionBuild} {progress : Progress env}
    (denotes : part.Denotes progress) (fits : ∀ record ∈ progress.current, record.Fits) :
    Fossil.encodePayload progress.current = .ok part.finished :=
  encodePayload_eq_ok.mpr ⟨fun record member =>
    ⟨(fits record member).encodable.keyLength, (fits record member).encodable.valueLength⟩,
    denotes.finished⟩

theorem parseDataPayload_encodePayload {expected : Option (Fin 16)} {records : List Record}
    {bytes : Bytes} (valid : RecordsValid env expected records)
    (encoded : encodePayload records = .ok bytes) :
    parseDataPayload env bytes expected = .ok records := by
  obtain ⟨bounds, rfl⟩ := encodePayload_eq_ok.mp encoded
  exact parseDataPayload_encodable valid.nonempty valid.count valid.sorted
    (fun record member => ⟨valid.keys record member, (bounds record member).1, (bounds record member).2⟩)
    valid.routed

/-- An accepted payload is the encoding of the records read from it. -/
theorem encodePayload_parseDataPayload {expected : Option (Fin 16)} {bytes : Bytes}
    {records : List Record} (decoded : parseDataPayload env bytes expected = .ok records) :
    RecordsValid env expected records ∧ encodePayload records = .ok bytes := by
  obtain ⟨header, decoded⟩ := guard_eq_ok.mp decoded
  obtain ⟨_, decoded⟩ := guard_eq_ok.mp decoded
  obtain ⟨⟨found, rest⟩, parsed, decoded⟩ := bind_eq_ok.mp decoded
  obtain ⟨whole, done⟩ := guard_eq_ok.mp decoded
  cases done
  simp only [not_or, not_not, not_lt] at header whole
  obtain ⟨long, front, byte⟩ := header
  obtain ⟨rfl, nonempty⟩ := whole
  obtain ⟨body, count, bounds⟩ := parseRecords_bytes parsed
  obtain ⟨sorted, _, routed⟩ := parseRecords_sound parsed
  have shape : bytes = pageBytes records := by
    rw [pageBytes, count, UInt32.ofNat_toNat]
    rw [List.append_nil] at body
    rw [← body]
    exact header_eq long front byte
  have counted : records.length < 2 ^ 32 := by
    rw [count]
    exact UInt32.toNat_lt _
  exact ⟨⟨nonempty, counted, sorted, fun record member => (routed record member).1,
    fun record member => (routed record member).2⟩, encodePayload_eq_ok.mpr ⟨bounds, shape⟩⟩

/-- Decoding and encoding are inverse bijections between the valid lists and the
accepted bytes, for leaf indexes, internal indexes and data payloads. -/
theorem encodings_canonical (env : Primitives) (shard : Fin 16) :
    (∀ magic ∈ [indexMagic, internalMagic],
      (∀ fences, FencesValid env shard magic fences → indexSize fences ≤ maxIndexBytes →
        ∃ bytes, encodeIndex fences magic = .ok bytes) ∧
      ∀ reference bytes fences, decodeIndex env reference bytes shard magic = .ok fences ↔
        FencesValid env shard magic fences ∧ verifyObject env reference bytes = .ok () ∧
          encodeIndex fences magic = .ok bytes) ∧
    ∀ expected bytes records, parseDataPayload env bytes expected = .ok records ↔
      RecordsValid env expected records ∧ encodePayload records = .ok bytes := by
  refine ⟨?_, ?_⟩
  · intro magic known
    have width : magic.length = 4 := by
      simp only [List.mem_cons, List.not_mem_nil, or_false] at known
      obtain rfl | rfl := known <;> rfl
    refine ⟨fun fences _ size => ⟨_, encodeIndex_of_size magic size⟩, ?_⟩
    intro reference bytes fences
    exact ⟨encodeIndex_decodeIndex, fun ⟨valid, verified, encoded⟩ =>
      decodeIndex_of_encodeIndex width valid verified encoded⟩
  · intro expected bytes records
    exact ⟨encodePayload_parseDataPayload, fun ⟨valid, encoded⟩ =>
      parseDataPayload_encodePayload valid encoded⟩

end

end Fossil
