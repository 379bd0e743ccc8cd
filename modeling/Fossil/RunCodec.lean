import Fossil.RunBuilder

/-! Round trips of the run formats.

A page or an index that the builder writes decodes to the list it was written
from. Decoding checks order and routing as it goes, so both are hypotheses. -/

namespace Fossil

/-- Decompression inverts compression of anything within the page bound. -/
def Primitives.Lossless (env : Primitives) : Prop :=
  ∀ page compressed, env.zstdCompress page = .ok compressed → page.length ≤ maxPageBytes →
    env.zstdDecompress compressed maxPageBytes = .ok page

/-- The decoded bytes of a page with the given records. -/
def pageBytes (records : List Record) : Bytes :=
  dataMagic ++ [formatVersion] ++ be32 (UInt32.ofNat records.length) ++ records.flatMap recordBytes

/-- A record the builder lets through. -/
structure Record.Fits (record : Record) : Prop where
  key : record.key ≠ []
  size : record.key.length + record.value.length + (16 + 9) ≤ maxPageBytes

/-- A record with its lengths in the range of their fields. -/
structure Record.Encodable (record : Record) : Prop where
  key : record.key ≠ []
  keyLength : record.key.length < 2 ^ 32
  valueLength : record.value.length < 2 ^ 32

theorem Record.Fits.encodable {record : Record} (fits : record.Fits) : record.Encodable := by
  have size := fits.size
  simp only [maxPageBytes] at size
  exact ⟨fits.key, by omega, by omega⟩

theorem recordBytes_length (record : Record) :
    (recordBytes record).length = 16 + record.key.length + record.value.length := by
  simp only [recordBytes, List.length_append, be32_length, be64_length]
  omega

section

variable {env : Primitives}

theorem makeObject_eq_ok {bytes : Bytes} {object : EncodedObject} :
    makeObject env bytes = .ok object ↔
      bytes.length < 2 ^ 32 ∧ object = ⟨⟨env.sha256 bytes, UInt32.ofNat bytes.length⟩, bytes⟩ := by
  unfold makeObject
  rw [bind_eq_ok]
  constructor
  · intro ⟨length, sized, made⟩
    rcases tryU32_eq_ok.mp ((context_eq_ok _ _ _).mp sized) with ⟨bound, rfl⟩
    cases made
    exact ⟨bound, rfl⟩
  · intro ⟨bound, same⟩
    exact ⟨_, (context_eq_ok _ _ _).mpr (tryU32_eq_ok.mpr ⟨bound, rfl⟩), by rw [same]⟩

theorem verifyObject_makeObject {bytes : Bytes} {object : EncodedObject}
    (made : makeObject env bytes = .ok object) :
    object.bytes = bytes ∧ object.reference.length.toNat = bytes.length ∧
      verifyObject env object.reference object.bytes = .ok () := by
  rcases makeObject_eq_ok.mp made with ⟨bound, rfl⟩
  have length := toNat_ofNat_of_lt bound
  refine ⟨rfl, length, ?_⟩
  simp only [verifyObject, length]
  simp

theorem encodeRecord_eq_ok {record : Record} {bytes : Bytes} :
    encodeRecord record = .ok bytes ↔
      record.key.length < 2 ^ 32 ∧ record.value.length < 2 ^ 32 ∧ bytes = recordBytes record := by
  unfold encodeRecord
  rw [bind_eq_ok]
  constructor
  · intro ⟨_, key, rest⟩
    rcases bind_eq_ok.mp rest with ⟨_, value, made⟩
    cases made
    exact ⟨(tryU32_eq_ok.mp ((context_eq_ok _ _ _).mp key)).1,
      (tryU32_eq_ok.mp ((context_eq_ok _ _ _).mp value)).1, rfl⟩
  · intro ⟨key, value, same⟩
    refine ⟨_, (context_eq_ok _ _ _).mpr (tryU32_eq_ok.mpr ⟨key, rfl⟩), ?_⟩
    apply bind_eq_ok.mpr
    exact ⟨_, (context_eq_ok _ _ _).mpr (tryU32_eq_ok.mpr ⟨value, rfl⟩), by rw [same]⟩

/-- Adding a key lower bound to the versions a list may start at. -/
def Above (prior : Option Version) (version : Version) : Prop := ∀ last ∈ prior, last < version

theorem not_above_iff {prior : Option Version} {version : Version} :
    ¬ (∃ last ∈ prior, version ≤ last) ↔ Above prior version := by
  simp only [Above, not_exists, not_and, not_le]

/-- Encoded records parse back, whatever follows them. -/
theorem parseRecords_flatMap {expected : Option (Fin 16)} {records : List Record}
    {prior : Option Version} (rest : Bytes) (sorted : StrictlySorted Record.version records)
    (fits : ∀ record ∈ records, record.Encodable)
    (routed : ∀ record ∈ records, ∀ shard ∈ expected, partition env record.key = shard)
    (above : ∀ record ∈ records.head?, Above prior record.version) :
    parseRecords env expected records.length prior (records.flatMap recordBytes ++ rest) =
      .ok (records, rest) := by
  induction records generalizing prior with
  | nil => rfl
  | cons record records ih =>
      rcases List.pairwise_cons.mp sorted with ⟨first, sortedRest⟩
      have fit := fits record (by simp)
      have valid : ¬ (record.key = [] ∨ ∃ shard ∈ expected, partition env record.key ≠ shard) := by
        intro wrong
        rcases wrong with empty | ⟨shard, member, misrouted⟩
        · exact fit.key empty
        · exact misrouted (routed record (by simp) shard member)
      have ordered : ¬ ∃ last ∈ prior, version record.key record.block ≤ last :=
        not_above_iff.mpr (above record rfl)
      have tail := @ih (some (version record.key record.block)) sortedRest
        (fun other member => fits other (List.mem_cons_of_mem _ member))
        (fun other member => routed other (List.mem_cons_of_mem _ member))
        (by
          intro other isHead last isLast
          rw [← Option.some.inj isLast]
          exact first other (List.mem_of_mem_head? isHead))
      simp only [List.flatMap_cons, recordBytes, List.append_assoc, List.length_cons, parseRecords]
      rw [readU32_append, ok_bind, toNat_ofNat_of_lt fit.keyLength, splitBytes_append, ok_bind,
        readU64_append, ok_bind, readU32_append, ok_bind, toNat_ofNat_of_lt fit.valueLength,
        splitBytes_append, ok_bind]
      dsimp only
      rw [if_neg valid, if_neg ordered, tail, ok_bind]

theorem flatMap_recordBytes_length (records : List Record)
    (keys : ∀ record ∈ records, record.key ≠ []) :
    17 * records.length ≤ (records.flatMap recordBytes).length := by
  induction records with
  | nil => simp
  | cons record records ih =>
      have rest := ih (fun other member => keys other (List.mem_cons_of_mem _ member))
      have key := List.length_pos_iff.mpr (keys record (by simp))
      rw [List.flatMap_cons, List.length_append, recordBytes_length, List.length_cons]
      omega

theorem pageBytes_length (records : List Record) :
    (pageBytes records).length = 9 + (records.flatMap recordBytes).length := by
  simp only [pageBytes, List.length_append, be32_length, dataMagic, List.length_cons,
    List.length_nil]

/-- A payload parses back to its records. -/
theorem parseDataPayload_encodable {expected : Option (Fin 16)} {records : List Record}
    (nonempty : records ≠ []) (bound : records.length < 2 ^ 32)
    (sorted : StrictlySorted Record.version records)
    (fits : ∀ record ∈ records, record.Encodable)
    (routed : ∀ record ∈ records, ∀ shard ∈ expected, partition env record.key = shard) :
    parseDataPayload env (pageBytes records) expected = .ok records := by
  have length := pageBytes_length records
  have count := flatMap_recordBytes_length records (fun record member => (fits record member).key)
  have header : ¬ ((pageBytes records).length < 9 ∨ (pageBytes records).take 4 ≠ dataMagic ∨
      (pageBytes records).getD 4 0 ≠ formatVersion) := by
    intro wrong
    rcases wrong with short | magic | versionByte
    · omega
    · exact magic rfl
    · exact versionByte rfl
  have field : ((pageBytes records).drop 5).take 4 = be32 (UInt32.ofNat records.length) := by
    have body : (pageBytes records).drop 5 =
        be32 (UInt32.ofNat records.length) ++ records.flatMap recordBytes := by
      rw [pageBytes, List.append_assoc]
      exact List.drop_left' rfl
    rw [body]
    exact List.take_left' (be32_length _)
  have body : (pageBytes records).drop 9 = records.flatMap recordBytes ++ [] := by
    rw [pageBytes, List.append_nil]
    exact List.drop_left' rfl
  have above : ∀ record ∈ records.head?, Above none record.version := by simp [Above]
  have parsed := parseRecords_flatMap [] sorted fits routed above
  unfold parseDataPayload
  rw [if_neg header, field, ofBe32_be32, toNat_ofNat_of_lt bound, if_neg (by omega), body, parsed]
  simp [nonempty]

/-- A page parses back to its records. -/
theorem parseDataPayload_pageBytes {expected : Option (Fin 16)} {records : List Record}
    (nonempty : records ≠ []) (small : (pageBytes records).length ≤ maxPageBytes)
    (sorted : StrictlySorted Record.version records)
    (fits : ∀ record ∈ records, record.Fits)
    (routed : ∀ record ∈ records, ∀ shard ∈ expected, partition env record.key = shard) :
    parseDataPayload env (pageBytes records) expected = .ok records := by
  have length := pageBytes_length records
  have count := flatMap_recordBytes_length records (fun record member => (fits record member).key)
  simp only [maxPageBytes] at small
  exact parseDataPayload_encodable nonempty (by omega) sorted
    (fun record member => (fits record member).encodable) routed

theorem encodePage_eq_ok {page : Bytes} {object : EncodedObject}
    (encoded : encodePage env page = .ok object) :
    ∃ compressed, env.zstdCompress page = .ok compressed ∧ page.length ≤ maxPageBytes ∧
      13 + compressed.length ≤ maxPageBytes ∧
      makeObject env (compressedMagic ++ [formatVersion] ++ be32 (UInt32.ofNat page.length) ++
        be32 (UInt32.ofNat compressed.length) ++ compressed) = .ok object := by
  rcases bind_eq_ok.mp encoded with ⟨compressed, done, rest⟩
  rcases guard_eq_ok.mp rest with ⟨small, made⟩
  refine ⟨compressed, done, ?_, ?_, made⟩
  · exact Nat.le_of_not_gt (fun large => small (.inl large))
  · have bound := Nat.le_of_not_gt (fun large => small (.inr large))
    simpa only [compressedMagic, List.length_append, List.length_cons, List.length_nil,
      be32_length] using bound

/-- What a reader needs to know of an object before it fetches it. -/
structure ObjectRef.Within (reference : ObjectRef) (limit : Nat) : Prop where
  positive : 0 < reference.length.toNat
  bounded : reference.length.toNat ≤ limit

theorem encodePage_within {page : Bytes} {object : EncodedObject}
    (encoded : encodePage env page = .ok object) : object.reference.Within maxPageBytes := by
  rcases encodePage_eq_ok encoded with ⟨compressed, _, _, bound, made⟩
  rcases verifyObject_makeObject made with ⟨_, length, _⟩
  have size : (compressedMagic ++ [formatVersion] ++ be32 (UInt32.ofNat page.length) ++
      be32 (UInt32.ofNat compressed.length) ++ compressed).length = 13 + compressed.length := by
    simp only [compressedMagic, List.length_append, List.length_cons, List.length_nil, be32_length]
  rw [size] at length
  exact ⟨by omega, by omega⟩

theorem decodeCompressed_encodePage (lossless : env.Lossless) {page : Bytes}
    {object : EncodedObject} (encoded : encodePage env page = .ok object) :
    decodeCompressed env object.reference object.bytes maxPageBytes = .ok page := by
  rcases encodePage_eq_ok encoded with ⟨compressed, done, pageSize, bound, made⟩
  rcases verifyObject_makeObject made with ⟨bytes, _, verified⟩
  have restored := lossless page compressed done pageSize
  have pageFits : page.length < 2 ^ 32 := by unfold maxPageBytes at pageSize; omega
  have dataFits : compressed.length < 2 ^ 32 := by unfold maxPageBytes at bound; omega
  have fields : object.bytes = compressedMagic ++ ([formatVersion] ++
      (be32 (UInt32.ofNat page.length) ++ (be32 (UInt32.ofNat compressed.length) ++ compressed))) := by
    rw [bytes]
    simp only [List.append_assoc]
  have size : object.bytes.length = 13 + compressed.length := by
    rw [bytes]
    simp only [compressedMagic, List.length_append, List.length_cons, List.length_nil, be32_length]
  have magic : object.bytes.take 4 = compressedMagic := by
    rw [fields]
    exact List.take_left' rfl
  have versionByte : object.bytes.getD 4 0 = formatVersion := by
    rw [fields]
    rfl
  have after : object.bytes.drop 5 = be32 (UInt32.ofNat page.length) ++
      (be32 (UInt32.ofNat compressed.length) ++ compressed) := by
    rw [fields, ← List.append_assoc]
    exact List.drop_left' rfl
  have later : object.bytes.drop 9 = be32 (UInt32.ofNat compressed.length) ++ compressed := by
    rw [show 9 = 5 + 4 from rfl, ← List.drop_drop, after]
    exact List.drop_left' (be32_length _)
  have data : object.bytes.drop 13 = compressed := by
    rw [show 13 = 9 + 4 from rfl, ← List.drop_drop, later]
    exact List.drop_left' (be32_length _)
  unfold decodeCompressed
  rw [if_neg (by omega), verified, ok_bind, magic, versionByte, after, later, data,
    List.take_left' (be32_length _), List.take_left' (be32_length _), ofBe32_be32, ofBe32_be32,
    toNat_ofNat_of_lt pageFits, toNat_ofNat_of_lt dataFits, size]
  dsimp only
  rw [if_neg (by simp; omega), if_neg (by omega), restored, ok_bind, if_neg (by simp)]

/-- A written page decodes to its records. -/
theorem decodeDataPage_encodePage (lossless : env.Lossless) {shard : Fin 16} {records : List Record}
    {object : EncodedObject} (encoded : encodePage env (pageBytes records) = .ok object)
    (nonempty : records ≠ []) (sorted : StrictlySorted Record.version records)
    (fits : ∀ record ∈ records, record.Fits)
    (routed : ∀ record ∈ records, partition env record.key = shard) :
    decodeDataPage env object.reference object.bytes shard = .ok records := by
  rcases encodePage_eq_ok encoded with ⟨_, _, small, _⟩
  unfold decodeDataPage
  rw [decodeCompressed_encodePage lossless encoded, ok_bind]
  apply parseDataPayload_pageBytes nonempty small sorted fits
  intro record member other same
  rw [← Option.some.inj same]
  exact routed record member

/-! Indexes. -/

theorem putRef_length (reference : ObjectRef) : (putRef reference).length = refBytes := by
  simp [putRef, reference.digest.width, refBytes]

@[simp] theorem readRef_append (reference : ObjectRef) (rest : Bytes) :
    readRef (putRef reference ++ rest) = .ok (reference, rest) := by
  have digest : (putRef reference).take 32 = reference.digest.bytes :=
    List.take_left' reference.digest.width
  have length : (putRef reference).drop 32 = be32 reference.length :=
    List.drop_left' reference.digest.width
  unfold readRef
  rw [splitBytes_of_length _ _ _ _ (putRef_length reference)]
  simp only [ok_bind, digest, length, Fixed.ofBytes_bytes, ofBe32_be32]

theorem indexSize_append (entries : List Fence) (fence : Fence) :
    indexSize (entries ++ [fence]) = indexSize entries + (4 + fence.key.length + 8 + refBytes) := by
  simp [indexSize, List.foldl_append]

theorem indexSize_eq (entries : List Fence) :
    indexSize entries = 9 + (entries.flatMap fenceBytes).length := by
  induction entries using List.reverseRecOn with
  | nil => rfl
  | append_singleton entries fence ih =>
      rw [indexSize_append, ih, List.flatMap_append, List.length_append]
      simp only [List.flatMap_cons, List.flatMap_nil, List.append_nil, fenceBytes,
        List.length_append, be32_length, be64_length, putRef_length]
      omega

theorem encodeFences_eq_ok {entries : List Fence} {bytes : Bytes}
    (encoded : encodeFences entries = .ok bytes) :
    bytes = entries.flatMap fenceBytes ∧ ∀ fence ∈ entries, fence.key.length < 2 ^ 32 := by
  induction entries generalizing bytes with
  | nil =>
      cases encoded
      simp
  | cons fence rest ih =>
      rcases bind_eq_ok.mp encoded with ⟨_, key, tail⟩
      rcases bind_eq_ok.mp tail with ⟨restBytes, restEncoded, made⟩
      cases made
      rcases ih restEncoded with ⟨rfl, sizes⟩
      refine ⟨rfl, ?_⟩
      intro other member
      rcases List.mem_cons.mp member with rfl | later
      · exact (tryU32_eq_ok.mp ((context_eq_ok _ _ _).mp key)).1
      · exact sizes other later

theorem encodeIndex_eq_ok {entries : List Fence} {magic bytes : Bytes}
    (encoded : encodeIndex entries magic = .ok bytes) :
    indexSize entries ≤ maxIndexBytes ∧
      bytes = magic ++ [formatVersion] ++ be32 (UInt32.ofNat entries.length) ++
        entries.flatMap fenceBytes := by
  rcases guard_eq_ok.mp encoded with ⟨small, rest⟩
  rcases bind_eq_ok.mp rest with ⟨body, fences, made⟩
  cases made
  rw [(encodeFences_eq_ok fences).1]
  exact ⟨Nat.le_of_not_gt small, rfl⟩

/-- The value, or an error because some stored digest is all zero. -/
def Opens {α : Type} (zero : Prop) (value : α) (result : Result α) : Prop :=
  result = .ok value ∨ zero ∧ ∃ error, result = .error error

theorem Opens.mono {α : Type} {zero zero' : Prop} {value : α} {result : Result α}
    (opens : Opens zero value result) (implies : zero → zero') : Opens zero' value result := by
  rcases opens with done | ⟨holds, failed⟩
  · exact .inl done
  · exact .inr ⟨implies holds, failed⟩

theorem Opens.bind {α β : Type} {zero : Prop} {value : α} {final : β} {result : Result α}
    {next : α → Result β} (opens : Opens zero value result) (rest : Opens zero final (next value)) :
    Opens zero final (result >>= next) := by
  rcases opens with rfl | ⟨holds, error, rfl⟩
  · exact rest
  · exact .inr ⟨holds, error, rfl⟩

/-- A fence a reader of the given index kind accepts, unless its digest is zero. -/
structure Fence.Fits (env : Primitives) (shard : Fin 16) (limit : Nat) (fence : Fence) : Prop where
  key : fence.key ≠ []
  routed : partition env fence.key = shard
  data : fence.data.Within limit

/-- The bound a decoder puts on references in an index. -/
def indexLimit (magic : Bytes) : Nat := if magic = internalMagic then maxIndexBytes else maxPageBytes

theorem ObjectRef.Within.ne_default {reference : ObjectRef} {limit : Nat}
    (within : reference.Within limit) : reference ≠ .default := by
  intro default
  have positive := within.positive
  rw [default] at positive
  exact absurd positive (by decide)

theorem ObjectRef.Within.length_ne_zero {reference : ObjectRef} {limit : Nat}
    (within : reference.Within limit) : reference.length ≠ 0 := by
  intro zero
  have positive := within.positive
  rw [zero] at positive
  exact absurd positive (by decide)

theorem Fence.Fits.accepted {shard : Fin 16} {magic : Bytes} {fence : Fence}
    (fits : fence.Fits env shard (indexLimit magic)) :
    (fence.key = [] ∨ partition env fence.key ≠ shard ∨ fence.data = .default ∨
      fence.data.length = 0 ∨
      fence.data.length.toNat > (if magic = internalMagic then maxIndexBytes else maxPageBytes) ∨
      fence.data.digest = Fixed.zero) ↔ fence.data.digest = Fixed.zero := by
  constructor
  · intro wrong
    rcases wrong with empty | misrouted | default | zero | large | digest
    · exact absurd empty fits.key
    · exact absurd fits.routed misrouted
    · exact absurd default fits.data.ne_default
    · exact absurd zero fits.data.length_ne_zero
    · have bounded := fits.data.bounded
      unfold indexLimit at bounded
      omega
    · exact digest
  · intro digest
    exact .inr (.inr (.inr (.inr (.inr digest))))

theorem parseFences_flatMap {shard : Fin 16} {magic : Bytes} {entries : List Fence}
    {prior : Option Version} (rest : Bytes) (sorted : StrictlySorted Fence.version entries)
    (fits : ∀ fence ∈ entries, fence.Fits env shard (indexLimit magic))
    (keys : ∀ fence ∈ entries, fence.key.length < 2 ^ 32)
    (above : ∀ fence ∈ entries.head?, Above prior fence.version) :
    Opens (∃ fence ∈ entries, fence.data.digest = Fixed.zero) (entries, rest)
      (parseFences env shard magic entries.length prior (entries.flatMap fenceBytes ++ rest)) := by
  induction entries generalizing prior with
  | nil => exact .inl rfl
  | cons fence entries ih =>
      rcases List.pairwise_cons.mp sorted with ⟨first, sortedRest⟩
      have accepted := (fits fence (by simp)).accepted
      have ordered : ¬ ∃ last ∈ prior, version fence.key fence.block ≤ last :=
        not_above_iff.mpr (above fence rfl)
      have tail := @ih (some (version fence.key fence.block)) sortedRest
        (fun other member => fits other (List.mem_cons_of_mem _ member))
        (fun other member => keys other (List.mem_cons_of_mem _ member))
        (by
          intro other isHead last isLast
          rw [← Option.some.inj isLast]
          exact first other (List.mem_of_mem_head? isHead))
      simp only [List.flatMap_cons, fenceBytes, List.append_assoc, List.length_cons, parseFences]
      rw [readU32_append, ok_bind, toNat_ofNat_of_lt (keys fence (by simp)), splitBytes_append, ok_bind,
        readU64_append, ok_bind, readRef_append, ok_bind]
      dsimp only
      by_cases zero : fence.data.digest = Fixed.zero
      · rw [if_pos (accepted.mpr zero)]
        exact .inr ⟨⟨fence, by simp, zero⟩, _, rfl⟩
      · rw [if_neg (fun wrong => zero (accepted.mp wrong)), if_neg ordered]
        refine Opens.bind (tail.mono ?_) (.inl rfl)
        intro ⟨other, member, isZero⟩
        exact ⟨other, List.mem_cons_of_mem _ member, isZero⟩

theorem flatMap_fenceBytes_length (entries : List Fence) (keys : ∀ fence ∈ entries, fence.key ≠ []) :
    49 * entries.length ≤ (entries.flatMap fenceBytes).length := by
  induction entries with
  | nil => simp
  | cons fence entries ih =>
      have rest := ih (fun other member => keys other (List.mem_cons_of_mem _ member))
      have key := List.length_pos_iff.mpr (keys fence (by simp))
      simp only [List.flatMap_cons, List.length_append, fenceBytes, be32_length, be64_length,
        putRef_length, refBytes, List.length_cons]
      omega

/-- A written index decodes to its entries. -/
theorem decodeIndex_encodeIndex {shard : Fin 16} {magic bytes : Bytes} {entries : List Fence}
    {object : EncodedObject} (width : magic.length = 4)
    (encoded : encodeIndex entries magic = .ok bytes) (made : makeObject env bytes = .ok object)
    (nonempty : entries ≠ []) (sorted : StrictlySorted Fence.version entries)
    (fits : ∀ fence ∈ entries, fence.Fits env shard (indexLimit magic)) :
    Opens (∃ fence ∈ entries, fence.data.digest = Fixed.zero) entries
      (decodeIndex env object.reference object.bytes shard magic) := by
  rcases guard_eq_ok.mp encoded with ⟨_, rest⟩
  rcases bind_eq_ok.mp rest with ⟨_, fences, _⟩
  rcases encodeIndex_eq_ok encoded with ⟨small, shape⟩
  rcases verifyObject_makeObject made with ⟨same, _, verified⟩
  have keys := (encodeFences_eq_ok fences).2
  have count := flatMap_fenceBytes_length entries (fun fence member => (fits fence member).key)
  have total := indexSize_eq entries
  have size : object.bytes.length = 9 + (entries.flatMap fenceBytes).length := by
    rw [same, shape]
    simp only [List.length_append, width, List.length_cons, List.length_nil, be32_length]
  have bound : entries.length < 2 ^ 32 := by unfold maxIndexBytes at small; omega
  have front : object.bytes.take 4 = magic := by
    rw [same, shape, List.append_assoc, List.append_assoc]
    exact List.take_left' width
  have versionByte : object.bytes.getD 4 0 = formatVersion := by
    rw [same, shape, List.append_assoc, List.append_assoc, List.getD_eq_getElem?_getD,
      List.getElem?_append_right (by omega), width]
    rfl
  have after : object.bytes.drop 5 =
      be32 (UInt32.ofNat entries.length) ++ entries.flatMap fenceBytes := by
    rw [same, shape, List.append_assoc]
    exact List.drop_left' (by simp [width])
  have body : object.bytes.drop 9 = entries.flatMap fenceBytes ++ [] := by
    rw [show 9 = 5 + 4 from rfl, ← List.drop_drop, after, List.append_nil]
    exact List.drop_left' (be32_length _)
  have above : ∀ fence ∈ entries.head?, Above none fence.version := by simp [Above]
  have parsed := parseFences_flatMap [] sorted fits keys above
  unfold decodeIndex
  rw [if_neg (by omega), verified, front, versionByte, after, body,
    List.take_left' (be32_length _), ofBe32_be32, toNat_ofNat_of_lt bound, ok_bind,
    if_neg (by simp; omega), if_neg (by unfold refBytes; omega)]
  apply parsed.bind
  exact .inl (if_neg (by simp [nonempty]))

theorem encodeIndex_within {magic bytes : Bytes} {entries : List Fence} {object : EncodedObject}
    (width : magic.length = 4) (encoded : encodeIndex entries magic = .ok bytes)
    (made : makeObject env bytes = .ok object) : object.reference.Within maxIndexBytes := by
  rcases encodeIndex_eq_ok encoded with ⟨small, shape⟩
  rcases verifyObject_makeObject made with ⟨_, length, _⟩
  have total := indexSize_eq entries
  have size : bytes.length = 9 + (entries.flatMap fenceBytes).length := by
    rw [shape]
    simp only [List.length_append, width, List.length_cons, List.length_nil, be32_length]
  exact ⟨by omega, by omega⟩

/-! The root. -/

/-- A slot of the root: empty, or a reference of bounded length. -/
def ObjectRef.Slot (reference : ObjectRef) : Prop :=
  reference = .default ∨ reference.Within maxIndexBytes

theorem readRefs_flatMap (references : List ObjectRef) (rest : Bytes)
    (slots : ∀ reference ∈ references, reference.Slot) :
    Opens (∃ reference ∈ references, reference ≠ .default ∧ reference.digest = Fixed.zero) references
      (readRefs references.length (references.flatMap putRef ++ rest)) := by
  induction references with
  | nil => exact .inl rfl
  | cons reference references ih =>
      have tail := ih (fun other member => slots other (List.mem_cons_of_mem _ member))
      simp only [List.flatMap_cons, List.append_assoc, List.length_cons, readRefs]
      rw [readRef_append, ok_bind]
      dsimp only
      by_cases refused : reference ≠ .default ∧ (reference.length = 0 ∨
          reference.digest = Fixed.zero ∨ reference.length.toNat > maxIndexBytes)
      · rw [if_pos refused]
        refine .inr ⟨⟨reference, by simp, refused.1, ?_⟩, _, rfl⟩
        rcases slots reference (by simp) with default | within
        · exact absurd default refused.1
        · rcases refused.2 with zero | digest | large
          · exact absurd zero within.length_ne_zero
          · exact digest
          · exact absurd within.bounded (Nat.not_le_of_gt large)
      · rw [if_neg refused]
        refine Opens.bind (tail.mono ?_) (.inl rfl)
        intro ⟨other, member, isZero⟩
        exact ⟨other, List.mem_cons_of_mem _ member, isZero⟩

theorem flatMap_putRef_length (references : List ObjectRef) :
    (references.flatMap putRef).length = references.length * refBytes := by
  induction references with
  | nil => simp
  | cons reference references ih =>
      rw [List.flatMap_cons, List.length_append, ih, putRef_length, List.length_cons,
        Nat.succ_mul, Nat.add_comm]

theorem encodeRoot_length {references : List ObjectRef} (count : references.length = partitions) :
    (encodeRoot references).length = rootBytes := by
  simp only [encodeRoot, rootMagic, List.length_append, List.length_cons, List.length_nil,
    flatMap_putRef_length, count, rootBytes]

/-- A written root decodes to its references. -/
theorem decode_encodeRoot {references : List ObjectRef} {object : EncodedObject}
    (count : references.length = partitions) (slots : ∀ reference ∈ references, reference.Slot)
    (made : makeObject env (encodeRoot references) = .ok object) :
    Opens (∃ reference ∈ references, reference ≠ .default ∧ reference.digest = Fixed.zero) ⟨references⟩
      (RunReader.decode env object.reference object.bytes) := by
  rcases verifyObject_makeObject made with ⟨same, _, verified⟩
  have size : object.bytes.length = rootBytes := by
    rw [same]
    exact encodeRoot_length count
  have magic : object.bytes.take 4 = rootMagic := by
    rw [same]
    rfl
  have versionByte : object.bytes.getD 4 0 = formatVersion := by
    rw [same]
    rfl
  have body : object.bytes.drop 5 = references.flatMap putRef ++ [] := by
    rw [same, encodeRoot, List.append_nil]
    exact List.drop_left' rfl
  have read := readRefs_flatMap references [] slots
  rw [count] at read
  unfold RunReader.decode
  rw [size, verified, magic, versionByte, body, if_neg (by simp), ok_bind, if_neg (by simp)]
  exact read.bind (.inl rfl)

end

end Fossil
