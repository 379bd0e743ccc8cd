import Fossil.Packing

/-! The input that a build accepts.

Pages are filled up to 1 MiB of content, and the bound on the object counts its
header and whatever compression adds. Content that does not compress can
therefore be admissible and still not be built. -/

namespace Fossil

section

variable {env : Primitives}

/-! The pages that are handed out. -/

/-- A data page that is at most 1 MiB long, both encoded and decoded. -/
def EncodedObject.PageBounded (env : Primitives) (object : EncodedObject) : Prop :=
  compressedMagic <+: object.bytes → object.bytes.length ≤ maxPageBytes ∧
    ∃ decoded, decodeCompressed env object.reference object.bytes maxPageBytes = .ok decoded ∧
      decoded.length ≤ maxPageBytes

theorem not_compressed_of_magic {magic bytes rest : Bytes} (width : magic.length = 4)
    (other : magic ≠ compressedMagic) (shape : bytes = magic ++ rest) :
    ¬ compressedMagic <+: bytes := by
  intro front
  have taken := List.prefix_iff_eq_take.mp front
  rw [shape, List.take_left' (by rw [width]; rfl)] at taken
  exact other taken.symm

theorem emitting_bounded (lossless : env.Lossless) :
    Emitting env (EncodedObject.PageBounded env) where
  page := by
    intro page object encoded _
    have within := encodePage_within encoded
    obtain ⟨_, _, small, _, made⟩ := encodePage_eq_ok encoded
    obtain ⟨same, length, _⟩ := verifyObject_makeObject made
    refine ⟨?_, page, decodeCompressed_encodePage lossless encoded, small⟩
    rw [same, ← length]
    exact within.bounded
  index := by
    intro magic known entries bytes object encoded made front
    obtain ⟨_, shape⟩ := encodeIndex_eq_ok encoded
    rw [(verifyObject_makeObject made).1] at front
    have split : bytes = magic ++ ([formatVersion] ++ (be32 (UInt32.ofNat entries.length) ++
        entries.flatMap fenceBytes)) := by simpa using shape
    refine absurd front (not_compressed_of_magic ?_ ?_ split)
    all_goals
      simp only [List.mem_cons, List.not_mem_nil, or_false] at known
      obtain rfl | rfl := known <;> decide
  root := by
    intro references object made front
    rw [(verifyObject_makeObject made).1] at front
    exact absurd front (@not_compressed_of_magic rootMagic _ _ rfl (by decide)
      (by rw [encodeRoot, List.append_assoc]))

/-- What is asked of a build: it finishes, and its pages are within their bounds. -/
def BuildsWithin (env : Primitives) (records : List Record) : Prop :=
  ∃ objects root, (RunBuilder.build env records).collect = (objects, .ok root) ∧
    ∀ object ∈ objects, object.PageBounded env

/-- Admissible input is built, with pages within their bounds, exactly when every
page of the cut is at most 1 MiB with its header once it is compressed. -/
theorem buildsWithin_iff (env : Primitives) (records : List Record) (lossless : env.Lossless)
    (compresses : env.Compresses) (admissible : Admissible env records) :
    BuildsWithin env records ↔ PagesEncode env records := by
  rw [← build_ok_iff compresses admissible]
  constructor
  · intro ⟨objects, root, granted, _⟩
    exact ⟨objects, root, granted⟩
  · intro ⟨objects, root, granted⟩
    have asked := (@build_asks env _ (emitting_bounded lossless) records).collect
    rw [granted] at asked
    exact ⟨objects, root, granted, asked⟩

end

/-! Content that does not compress. -/

/-- The header of a raw block: its size and whether it is the last one. -/
def rawHeader (size : Nat) (last : Bool) : Bytes :=
  let field := size * 8 + if last then 1 else 0
  [UInt8.ofNat field, UInt8.ofNat (field / 256), UInt8.ofNat (field / 65536)]

def blockBytes : Nat := 128 * 1024

/-- Raw blocks of at most 128 KiB. The first number bounds the blocks to come. -/
def rawBlocks : Nat → Bytes → Bytes
  | 0, _ => []
  | count + 1, page =>
      if page.length ≤ blockBytes then rawHeader page.length true ++ page
      else rawHeader blockBytes false ++ page.take blockBytes ++ rawBlocks count (page.drop blockBytes)

/-- The frame header of a stream of unknown length with a 1 MiB window. -/
def frameHeader : Bytes := [0x28, 0xb5, 0x2f, 0xfd, 0x00, 0x50]

/-- A frame of raw blocks, which is what comes out for content that does not compress. -/
def storedFrame (page : Bytes) : Bytes := frameHeader ++ rawBlocks (page.length + 1) page

/-- The content of raw blocks. -/
def readBlocks : Nat → Bytes → Result Bytes
  | count + 1, first :: second :: third :: rest =>
      let field := first.toNat + 256 * second.toNat + 65536 * third.toNat
      let size := field / 8
      if field % 8 / 2 ≠ 0 ∨ rest.length < size then bail "not a raw block"
      else if field % 2 = 1 then .ok (rest.take size)
      else do
        let more ← readBlocks count (rest.drop size)
        .ok (rest.take size ++ more)
  | _, _ => bail "truncated block"

/-- A compressor that stores everything, with the digests of the given table. -/
def storedPrimitives (digests : List (Bytes × Nat)) : Primitives where
  sha256 := digestOf digests
  zstdCompress page := .ok (storedFrame page)
  zstdDecompress bytes limit := do
    let decoded ← readBlocks bytes.length (bytes.drop frameHeader.length)
    .ok (decoded.take (limit + 1))

section

theorem readBlocks_raw {count size : Nat} {last : Bool} {rest : Bytes} (bound : size ≤ blockBytes)
    (long : size ≤ rest.length) :
    readBlocks (count + 1) (rawHeader size last ++ rest) =
      if last then .ok (rest.take size)
      else readBlocks count (rest.drop size) >>= fun more => .ok (rest.take size ++ more) := by
  simp only [blockBytes] at bound
  have tail : (if last then 1 else 0) ≤ 1 := by cases last <;> simp
  have field : (UInt8.ofNat (size * 8 + if last then 1 else 0)).toNat +
      256 * (UInt8.ofNat ((size * 8 + if last then 1 else 0) / 256)).toNat +
      65536 * (UInt8.ofNat ((size * 8 + if last then 1 else 0) / 65536)).toNat =
      size * 8 + if last then 1 else 0 := by
    simp only [UInt8.toNat_ofNat']
    omega
  have width : (size * 8 + if last then 1 else 0) / 8 = size := by omega
  have raw : (size * 8 + if last then 1 else 0) % 8 / 2 = 0 := by omega
  simp only [rawHeader, List.cons_append, List.nil_append, readBlocks, field, width, raw]
  rw [if_neg (by omega)]
  cases last with
  | false => rw [if_neg (by simp; omega)]; rfl
  | true => rw [if_pos (by simp; omega)]; rfl

theorem readBlocks_rawBlocks {count fuel : Nat} {page : Bytes} (enough : page.length < count)
    (fuelled : count ≤ fuel) : readBlocks fuel (rawBlocks count page) = .ok page := by
  induction count generalizing fuel page with
  | zero => omega
  | succ count ih =>
      obtain ⟨fuel, rfl⟩ : ∃ less, fuel = less + 1 := ⟨fuel - 1, by omega⟩
      unfold rawBlocks
      split
      · rw [readBlocks_raw ‹_› (Nat.le_refl _), if_pos rfl, List.take_length]
      · rename_i large
        have head : (page.take blockBytes).length = blockBytes := by simp; omega
        rw [List.append_assoc, readBlocks_raw (Nat.le_refl _) (by simp; omega), if_neg (by simp),
          List.drop_left' head, List.take_left' head,
          ih (by simp only [List.length_drop, blockBytes] at large ⊢; omega) (by omega), ok_bind,
          List.take_append_drop]

theorem rawBlocks_length {count : Nat} {page : Bytes} (enough : page.length < count) :
    page.length ≤ (rawBlocks count page).length ∧
      (rawBlocks count page).length ≤ page.length + 3 * (page.length / blockBytes + 1) := by
  induction count generalizing page with
  | zero => omega
  | succ count ih =>
      unfold rawBlocks
      split
      · simp only [List.length_append, rawHeader, List.length_cons, List.length_nil, blockBytes]
        omega
      · rename_i large
        obtain ⟨low, high⟩ := @ih (page.drop blockBytes) (by
          simp only [List.length_drop, blockBytes] at large ⊢
          omega)
        simp only [List.length_append, List.length_take, List.length_drop, rawHeader, List.length_cons,
          List.length_nil, blockBytes] at low high large ⊢
        omega

theorem storedFrame_length (page : Bytes) :
    page.length + 6 ≤ (storedFrame page).length ∧
      (storedFrame page).length ≤ page.length + 6 + 3 * (page.length / blockBytes + 1) := by
  obtain ⟨low, high⟩ := @rawBlocks_length (page.length + 1) page (by omega)
  simp only [storedFrame, List.length_append, frameHeader, List.length_cons, List.length_nil]
  omega

variable (digests : List (Bytes × Nat))

theorem storedPrimitives_compresses : (storedPrimitives digests).Compresses := fun _ => ⟨_, rfl⟩

theorem storedPrimitives_lossless : (storedPrimitives digests).Lossless := by
  intro page compressed done small
  cases done
  have length := (storedFrame_length page).1
  have body : (storedFrame page).drop frameHeader.length = rawBlocks (page.length + 1) page := by
    simp [storedFrame]
  simp only [storedPrimitives]
  rw [body, readBlocks_rawBlocks (by omega) (by omega), ok_bind, List.take_of_length_le (by omega)]

theorem pagesOf_single {record : Record} (fits : record.Fits) : pagesOf [record] = [[record]] := by
  have kept : PageCut.start.room record = .start := if_neg (Nat.not_lt.mpr fits.alone)
  simp only [pagesOf, pageCut, List.foldl_cons, List.foldl_nil, PageCut.push, kept]
  rfl

/-- One record is admissible when it fits a page and its key a leaf. -/
theorem admissible_single {env : Primitives} {record : Record} (fits : record.Fits)
    (key : record.key.length + 57 ≤ maxIndexBytes) : Admissible env [record] := by
  refine ⟨List.pairwise_singleton _ _, by simpa using fits, ?_⟩
  intro shard
  by_cases inside : partition env record.key = shard
  · have shape : shardOf env shard [record] = [record] := by simp [shardOf, inside]
    rw [shape, pagesOf_single fits]
    have size : entriesSize [record.version] = record.key.length + 57 := by
      simp [entriesSize, Record.version, version, refBytes]
      omega
    constructor
    · simpa [firstVersions, size] using key
    · simpa [firstVersions, leafCut, LeafCut.push, size] using key
  · have shape : shardOf env shard [record] = [] := by simp [shardOf, inside]
    rw [shape]
    exact ⟨by simp [pagesOf, pageCut, PageCut.start, PageCut.close, firstVersions], by decide⟩

/-- A page that is nearly full and does not compress is not written. -/
theorem not_built_of_value {value : Bytes} (length : value.length = 2 ^ 20 - 31) :
    Admissible (storedPrimitives digests) [⟨[1], 0, value⟩] ∧
      ¬ BuildsWithin (storedPrimitives digests) [⟨[1], 0, value⟩] := by
  have fits : Record.Fits ⟨[1], 0, value⟩ := by
    refine ⟨by simp, ?_⟩
    simp only [length, maxPageBytes, List.length_singleton]
    omega
  have admissible : Admissible (storedPrimitives digests) [⟨[1], 0, value⟩] :=
    admissible_single fits (by simp only [List.length_singleton]; decide)
  refine ⟨admissible, ?_⟩
  rintro ⟨objects, root, granted, _⟩
  have encodes := (build_ok_iff (storedPrimitives_compresses digests) admissible).mp
    ⟨objects, root, granted⟩
  have bound := encodes (partition (storedPrimitives digests) [1]) [⟨[1], 0, value⟩]
    (by simp [shardOf, pagesOf_single fits]) _ rfl
  have grown := (storedFrame_length (pageBytes [⟨[1], 0, value⟩])).1
  rw [pageBytes_length] at grown
  simp only [List.flatMap_cons, List.flatMap_nil, List.append_nil, recordBytes_length, length,
    List.length_singleton, maxPageBytes] at grown bound
  omega

end

/-- Bytes of a linear congruential generator. -/
def noise : Nat → Nat → Bytes
  | 0, _ => []
  | count + 1, seed =>
      let next := (seed * 1664525 + 1013904223) % 2 ^ 32
      UInt8.ofNat (next / 2 ^ 24) :: noise count next

theorem noise_length (count seed : Nat) : (noise count seed).length = count := by
  induction count generalizing seed with
  | zero => rfl
  | succ count ih => simp [noise, ih]

def keyDigest : List (Bytes × Nat) :=
  [([1], 0x4bf5122f344554c53bde2ebb8cd2b7e3d1600ad631c385a5d7cce23c7785459a)]

/-- A record of noise, five bytes short of a full page: compression only adds a
frame header and three bytes for each block, and the build fails. -/
theorem build_refuses_noise :
    (storedPrimitives keyDigest).Lossless ∧ (storedPrimitives keyDigest).Compresses ∧
      (∀ page, (storedFrame page).length ≤ page.length + 6 + 3 * (page.length / blockBytes + 1)) ∧
      Admissible (storedPrimitives keyDigest) [⟨[1], 0, noise (2 ^ 20 - 31) 1⟩] ∧
      ¬ BuildsWithin (storedPrimitives keyDigest) [⟨[1], 0, noise (2 ^ 20 - 31) 1⟩] :=
  ⟨storedPrimitives_lossless _, storedPrimitives_compresses _, fun page => (storedFrame_length page).2,
    not_built_of_value _ (noise_length _ _)⟩

/-- The digests of a run of one small record, whose page is stored as it is. -/
def shortDigests : List (Bytes × Nat) :=
  keyDigest ++ [
    (compressedMagic ++ [formatVersion] ++ be32 28 ++ be32 37 ++
      storedFrame (pageBytes [⟨[1], 0x0123456789abcdef, [2, 3]⟩]),
      0x1e6ea9c8f586e8464980dc477d4617beda00e34b31883deef744647c6ebc6e7a),
    (indexMagic ++ [formatVersion] ++ be32 1 ++ fenceBytes ⟨[1], 0x0123456789abcdef,
      ⟨.ofNat 0x1e6ea9c8f586e8464980dc477d4617beda00e34b31883deef744647c6ebc6e7a, 50⟩⟩,
      0xb272bff83938e8063259a7c40eff092eff40eb47c5643c0d9c0d12d9c926f5ae),
    (encodeRoot ((List.range 16).map (fun shard => if shard = 4 then
        ⟨.ofNat 0xb272bff83938e8063259a7c40eff092eff40eb47c5643c0d9c0d12d9c926f5ae, 58⟩ else .default)),
      0x2a9ca8a9d85a23290b63adad1ac62ef51fd0472960baab23dbe935ac7d54d00a)]

theorem buildsWithin_short :
    BuildsWithin (storedPrimitives shortDigests) [⟨[1], 0x0123456789abcdef, [2, 3]⟩] := by
  have fits : Record.Fits ⟨[1], 0x0123456789abcdef, [2, 3]⟩ := ⟨by simp, by decide⟩
  rw [buildsWithin_iff _ _ (storedPrimitives_lossless _) (storedPrimitives_compresses _)
    (admissible_single fits (by decide))]
  intro shard page member compressed done
  have only : page = [⟨[1], 0x0123456789abcdef, [2, 3]⟩] := by
    by_cases inside : partition (storedPrimitives shortDigests) [1] = shard
    · simpa [shardOf, inside, pagesOf_single fits] using member
    · simp [shardOf, inside, pagesOf, pageCut, PageCut.start, PageCut.close] at member
  subst only
  cases done
  decide

end Fossil
