import Fossil.Hash
import Fossil.Search

/-! The byte formats of an immutable sorted run.

A run has sixteen partitions chosen by the first nibble of the key's SHA-256.
Records are packed into compressed data pages, pages are listed by exact fences
in leaf indexes, and several leaves of one partition by an internal index. -/

namespace Fossil

def rootMagic : Bytes := [0x46, 0x54, 0x52, 0x54]
def indexMagic : Bytes := [0x46, 0x54, 0x49, 0x58]
def dataMagic : Bytes := [0x46, 0x54, 0x44, 0x50]
def internalMagic : Bytes := [0x46, 0x54, 0x49, 0x52]
def compressedMagic : Bytes := [0x46, 0x54, 0x52, 0x5a]
def formatVersion : UInt8 := 1
def partitions : Nat := 16
def maxPageBytes : Nat := 1024 * 1024
def maxIndexBytes : Nat := 512 * 1024
def refBytes : Nat := 36
def rootBytes : Nat := 4 + 1 + partitions * refBytes

/-- SHA-256 of exact encoded bytes and exact length. -/
structure ObjectRef where
  digest : Hash32
  length : UInt32
  deriving DecidableEq

/-- The all-zero reference that marks an empty partition. -/
def ObjectRef.default : ObjectRef := ⟨Fixed.zero, 0⟩

structure EncodedObject where
  reference : ObjectRef
  bytes : Bytes
  deriving DecidableEq

def EncodedObject.objectKey (object : EncodedObject) : Key := .object object.reference.digest

/-- Exact versions in the order of a run: by key bytes, then by block. -/
abbrev Version := Bytes ×ₗ UInt64

def version (key : Bytes) (block : UInt64) : Version := toLex (key, block)

theorem version_le_iff {key key' : Bytes} {block block' : UInt64} :
    version key block ≤ version key' block' ↔ key < key' ∨ key = key' ∧ block ≤ block' :=
  Prod.Lex.toLex_le_toLex

theorem version_inj {key key' : Bytes} {block block' : UInt64} :
    version key block = version key' block' ↔ key = key' ∧ block = block' := by
  simp [version]

/-- One exact state version. Empty values are explicit. -/
structure Record where
  key : Bytes
  block : UInt64
  value : Bytes
  deriving DecidableEq

def Record.version (record : Record) : Version := Fossil.version record.key record.block

structure Fence where
  key : Bytes
  block : UInt64
  data : ObjectRef
  deriving DecidableEq

def Fence.version (fence : Fence) : Version := Fossil.version fence.key fence.block

def tryU32 (n : Nat) : Result UInt32 :=
  if n < 2 ^ 32 then .ok (UInt32.ofNat n)
  else bail "out of range integral type conversion attempted"

theorem tryU32_eq_ok {n : Nat} {value : UInt32} :
    tryU32 n = .ok value ↔ n < 2 ^ 32 ∧ value = UInt32.ofNat n := by
  unfold tryU32
  split
  · next small =>
      constructor
      · rintro ⟨⟩
        exact ⟨small, rfl⟩
      · rintro ⟨_, rfl⟩
        rfl
  · next large => exact ⟨fun wrong => absurd wrong (bail_ne_ok _ _), fun holds => absurd holds.1 large⟩

theorem toNat_ofNat_of_lt {n : Nat} (bound : n < 2 ^ 32) : (UInt32.ofNat n).toNat = n :=
  UInt32.toNat_ofNat_of_lt' (by simpa using bound)

section

variable (env : Primitives)

/-- The partition of a key: the high nibble of its digest. -/
def partition (key : Bytes) : Fin 16 :=
  ⟨((env.sha256 key).bytes.getD 0 0).toNat / 16, by
    have bound := ((env.sha256 key).bytes.getD 0 0).toNat_lt
    omega⟩

def makeObject (bytes : Bytes) : Result EncodedObject := do
  let length ← context "run object exceeds u32 reference length" (tryU32 bytes.length)
  .ok ⟨⟨env.sha256 bytes, length⟩, bytes⟩

def verifyObject (reference : ObjectRef) (bytes : Bytes) : Result Unit :=
  if reference.length.toNat ≠ bytes.length ∨ reference.digest ≠ env.sha256 bytes then
    bail "run object reference length or SHA-256 mismatch"
  else .ok ()

def validateIndexRef (reference : ObjectRef) : Result Unit :=
  if reference.length = 0 ∨ reference.length.toNat > maxIndexBytes ∨
      reference.digest = Fixed.zero then
    bail "run fence reference exceeds the 512 KiB pre-fetch bound"
  else .ok ()

/-! Records and data pages. -/

def recordBytes (record : Record) : Bytes :=
  be32 (UInt32.ofNat record.key.length) ++ record.key ++ be64 record.block ++
    be32 (UInt32.ofNat record.value.length) ++ record.value

def encodeRecord (record : Record) : Result Bytes := do
  let _ ← context "run key too long" (tryU32 record.key.length)
  let _ ← context "run value too long" (tryU32 record.value.length)
  .ok (recordBytes record)

def dataPageStart : Bytes := dataMagic ++ [formatVersion] ++ be32 0

def parseRecords (expected : Option (Fin 16)) :
    Nat → Option Version → Bytes → Result (List Record × Bytes)
  | 0, _, bytes => .ok ([], bytes)
  | count + 1, prior, bytes => do
      let (keyLen, bytes) ← readU32 bytes
      let (key, bytes) ← splitBytes "truncated run key" keyLen.toNat bytes
      let (block, bytes) ← readU64 bytes
      let (valueLen, bytes) ← readU32 bytes
      let (value, bytes) ← splitBytes "truncated run value" valueLen.toNat bytes
      if key = [] ∨ (∃ shard ∈ expected, partition env key ≠ shard) then
        bail "run page contains invalid or misrouted full key"
      else if (∃ last ∈ prior, version key block ≤ last) then
        bail "run data page records are not strictly sorted"
      else do
        let (records, bytes) ← parseRecords expected count (some (version key block)) bytes
        .ok (⟨key, block, value⟩ :: records, bytes)

def parseDataPayload (bytes : Bytes) (expected : Option (Fin 16)) : Result (List Record) :=
  if bytes.length < 9 ∨ bytes.take 4 ≠ dataMagic ∨ bytes.getD 4 0 ≠ formatVersion then
    bail "invalid run data page header"
  else
    let count := (ofBe32 ((bytes.drop 5).take 4)).toNat
    if count > (bytes.length - 9) / 17 then
      bail "run data page record count exceeds encoded payload bound"
    else do
      let (records, rest) ← parseRecords env expected count none (bytes.drop 9)
      if rest ≠ [] ∨ records = [] then bail "run data page length or record count mismatch"
      else .ok records

def decodeCompressed (reference : ObjectRef) (bytes : Bytes) (maximum : Nat) : Result Bytes :=
  if bytes.length > maximum then bail "compressed run page exceeds encoded bound"
  else do
    verifyObject env reference bytes
    if bytes.length > maximum ∨ bytes.length < 13 ∨ bytes.take 4 ≠ compressedMagic ∨
        bytes.getD 4 0 ≠ formatVersion then
      bail "invalid or oversized compressed run page"
    else
      let decodedLen := (ofBe32 ((bytes.drop 5).take 4)).toNat
      let compressedLen := (ofBe32 ((bytes.drop 9).take 4)).toNat
      if decodedLen > maximum ∨ compressedLen ≠ bytes.length - 13 then
        bail "compressed run page length exceeds bound or mismatches header"
      else do
        let decoded ← env.zstdDecompress (bytes.drop 13) maximum
        if decoded.length ≠ decodedLen then
          bail "compressed run page decoded length mismatch"
        else .ok decoded

def decodeDataPage (reference : ObjectRef) (bytes : Bytes) (shard : Fin 16) :
    Result (List Record) := do
  let decoded ← decodeCompressed env reference bytes maxPageBytes
  parseDataPayload env decoded (some shard)

/-! Fence indexes. -/

def putRef (reference : ObjectRef) : Bytes := reference.digest.bytes ++ be32 reference.length

def readRef (bytes : Bytes) : Result (ObjectRef × Bytes) := do
  let (raw, rest) ← splitBytes "truncated run object ref" refBytes bytes
  let digest ← Fixed.ofBytes "truncated run object ref" (raw.take 32)
  .ok (⟨digest, ofBe32 (raw.drop 32)⟩, rest)

def fenceBytes (fence : Fence) : Bytes :=
  be32 (UInt32.ofNat fence.key.length) ++ fence.key ++ be64 fence.block ++ putRef fence.data

def indexSize (entries : List Fence) : Nat :=
  entries.foldl (fun size fence => size + (4 + fence.key.length + 8 + refBytes)) 9

def encodeFences : List Fence → Result Bytes
  | [] => .ok []
  | fence :: rest => do
      let _ ← context "run key exceeds u32 length" (tryU32 fence.key.length)
      let tail ← encodeFences rest
      .ok (fenceBytes fence ++ tail)

def encodeIndex (entries : List Fence) (magic : Bytes) : Result Bytes :=
  if indexSize entries > maxIndexBytes then bail "run fence index exceeds 512 KiB bound"
  else do
    let body ← encodeFences entries
    .ok (magic ++ [formatVersion] ++ be32 (UInt32.ofNat entries.length) ++ body)

def parseFences (shard : Fin 16) (magic : Bytes) :
    Nat → Option Version → Bytes → Result (List Fence × Bytes)
  | 0, _, bytes => .ok ([], bytes)
  | count + 1, prior, bytes => do
      let (keyLen, bytes) ← readU32 bytes
      let (key, bytes) ← splitBytes "truncated run fence key" keyLen.toNat bytes
      let (block, bytes) ← readU64 bytes
      let (data, bytes) ← readRef bytes
      if key = [] ∨ partition env key ≠ shard ∨ data = .default ∨ data.length = 0 ∨
          data.length.toNat > (if magic = internalMagic then maxIndexBytes else maxPageBytes) ∨
          data.digest = Fixed.zero then
        bail "invalid run fence"
      else if (∃ last ∈ prior, version key block ≤ last) then
        bail "run fences are not strictly sorted"
      else do
        let (fences, bytes) ← parseFences shard magic count (some (version key block)) bytes
        .ok (⟨key, block, data⟩ :: fences, bytes)

def decodeIndex (reference : ObjectRef) (bytes : Bytes) (shard : Fin 16) (magic : Bytes) :
    Result (List Fence) :=
  if bytes.length > maxIndexBytes then bail "run fence index exceeds 512 KiB pre-decode bound"
  else do
    verifyObject env reference bytes
    if bytes.length > maxIndexBytes ∨ bytes.length < 9 ∨ bytes.take 4 ≠ magic ∨
        bytes.getD 4 0 ≠ formatVersion then
      bail "invalid or oversized run fence index"
    else
      let count := (ofBe32 ((bytes.drop 5).take 4)).toNat
      if count > (bytes.length - 9) / (4 + 1 + 8 + refBytes) then
        bail "run fence count exceeds encoded index bound"
      else do
        let (fences, rest) ← parseFences env shard magic count none (bytes.drop 9)
        if rest ≠ [] ∨ fences = [] then bail "run fence index length or count mismatch"
        else .ok fences

/-! The run root. -/

def readRefs : Nat → Bytes → Result (List ObjectRef)
  | 0, _ => .ok []
  | count + 1, bytes => do
      let (reference, rest) ← readRef bytes
      if reference ≠ .default ∧ (reference.length = 0 ∨ reference.digest = Fixed.zero ∨
          reference.length.toNat > maxIndexBytes) then
        bail "invalid run fence reference in root"
      else do
        let references ← readRefs count rest
        .ok (reference :: references)

/-- Decoded run directory: one index reference for each partition. -/
structure RunReader where
  indexes : List ObjectRef
  deriving DecidableEq

def RunReader.decode (reference : ObjectRef) (bytes : Bytes) : Result RunReader :=
  if bytes.length ≠ rootBytes then bail "invalid run root length"
  else do
    verifyObject env reference bytes
    if bytes.length ≠ rootBytes ∨ bytes.take 4 ≠ rootMagic ∨ bytes.getD 4 0 ≠ formatVersion then
      bail "invalid run root"
    else do
      let indexes ← readRefs partitions (bytes.drop 5)
      .ok ⟨indexes⟩

/-- The index reference of a partition. -/
def RunReader.index (reader : RunReader) (shard : Fin 16) : ObjectRef :=
  reader.indexes.getD shard.val .default

end

end Fossil
