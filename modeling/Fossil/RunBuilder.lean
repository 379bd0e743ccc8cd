import Fossil.RunFormat
import Fossil.Program

/-! The streaming run builder.

Each partition holds one open data page, the fences of its open leaf and one
entry for each closed leaf. Objects are handed to the caller in dependency
order: a page before the leaf that lists it, leaves before the internal index,
the root last. The caller may refuse an object, which ends the build. -/

namespace Fossil

/-- Builder programs hand finished objects to the caller. -/
abbrev Emit := Prog EncodedObject (fun _ => Result Unit) Error

def emit (what : String) (object : EncodedObject) : Emit Unit := Prog.request object (context what)

/-- The open page with its record count, the open leaf and the closed leaves of a partition. -/
structure PartitionBuild where
  page : Bytes
  count : Nat
  leaf : List Fence
  parents : List Fence

def PartitionBuild.empty : PartitionBuild := ⟨dataPageStart, 0, [], []⟩

structure BuilderState where
  parts : Fin 16 → PartitionBuild
  previous : Option Version

def BuilderState.start : BuilderState := ⟨fun _ => .empty, none⟩

section

variable (env : Primitives)

/-- Close the open leaf: one index object, one more parent entry. -/
def emitLeaf (part : PartitionBuild) : Emit PartitionBuild :=
  match part.leaf with
  | [] => .ret part
  | first :: _ => do
      let bytes ← encodeIndex part.leaf indexMagic
      let object ← makeObject env bytes
      let entry : Fence := ⟨first.key, first.block, object.reference⟩
      if ∃ prior ∈ part.parents.getLast?, entry.version ≤ prior.version then
        .fail ["run fence leaves are not strictly ordered"]
      else if indexSize (part.parents ++ [entry]) > maxIndexBytes then
        .fail ["run internal fence root exceeds 512 KiB bound"]
      else do
        emit "emit run fence leaf" object
        .ret { part with parents := part.parents ++ [entry], leaf := [] }

/-- Add a fence to the open leaf, closing the leaf first when it would overflow. -/
def appendLeafFence (part : PartitionBuild) (fence : Fence) : Emit PartitionBuild :=
  if indexSize (part.leaf ++ [fence]) ≤ maxIndexBytes then
    .ret { part with leaf := part.leaf ++ [fence] }
  else if part.leaf = [] then .fail ["single run fence exceeds 512 KiB leaf bound"]
  else do
    let closed ← emitLeaf env part
    if indexSize (closed.leaf ++ [fence]) > maxIndexBytes then
      .fail ["single run fence exceeds 512 KiB leaf bound"]
    else .ret { closed with leaf := closed.leaf ++ [fence] }

/-- The encoded form of a finished page. -/
def encodePage (page : Bytes) : Result EncodedObject := do
  let compressed ← env.zstdCompress page
  let bytes := compressedMagic ++ [formatVersion] ++ be32 (UInt32.ofNat page.length) ++
    be32 (UInt32.ofNat compressed.length) ++ compressed
  if page.length > maxPageBytes ∨ bytes.length > maxPageBytes then
    bail "run data page exceeds 1 MiB encoded or decoded bound"
  else makeObject env bytes

def decodeFirstRecord (page : Bytes) : Result Record := do
  let records ← parseDataPayload env page none
  match records with
  | [] => bail "run data page unexpectedly empty"
  | first :: _ => .ok first

/-- The page bytes with the record count filled in. -/
def PartitionBuild.finished (part : PartitionBuild) : Bytes :=
  part.page.take 5 ++ be32 (UInt32.ofNat part.count) ++ part.page.drop 9

def flushPage (part : PartitionBuild) : Emit PartitionBuild :=
  if part.count = 0 then .ret part
  else do
    let first ← decodeFirstRecord env part.finished
    let object ← encodePage env part.finished
    emit "emit run data page" object
    let next ← appendLeafFence env part ⟨first.key, first.block, object.reference⟩
    .ret { next with page := dataPageStart, count := 0 }

/-- Room for one more record: a page that would overflow is flushed first. -/
def makeRoom (part : PartitionBuild) (encoded : Bytes) : Emit PartitionBuild :=
  if part.page.length + encoded.length > maxPageBytes then
    if part.count = 0 then .fail ["single run record exceeds 1 MiB data-page bound"]
    else do
      let flushed ← flushPage env part
      if flushed.page.length + encoded.length > maxPageBytes then
        .fail ["single run record exceeds 1 MiB data-page bound"]
      else .ret flushed
  else .ret part

/-- One round of the builder's loop over its records. -/
def BuilderState.push (state : BuilderState) (record : Record) : Emit BuilderState :=
  if record.key = [] then .fail ["run record key must not be empty"]
  else if ∃ last ∈ state.previous, record.version ≤ last then
    .fail ["run records must be strictly sorted by (key, block)"]
  else if record.key.length + record.value.length + (16 + 9) > maxPageBytes then
    .fail ["single run record exceeds 1 MiB data-page bound"]
  else do
    let shard := partition env record.key
    let encoded ← encodeRecord record
    let room ← makeRoom env (state.parts shard) encoded
    let part := { room with page := room.page ++ encoded, count := room.count + 1 }
    .ret ⟨Function.update state.parts shard part, some record.version⟩

def BuilderState.pushAll (state : BuilderState) : List Record → Emit BuilderState
  | [] => .ret state
  | record :: rest => do
      let next ← state.push env record
      next.pushAll rest

/-- Flush the open page and close the open leaf of each partition in turn. -/
def closePartitions (parts : Fin 16 → PartitionBuild) : List (Fin 16) → Emit (List PartitionBuild)
  | [] => .ret []
  | shard :: rest => do
      let flushed ← flushPage env (parts shard)
      let closed ← emitLeaf env flushed
      let others ← closePartitions parts rest
      .ret (closed :: others)

/-- The reference a root stores for a partition, with the internal index if it needs one. -/
def partitionRef (parents : List Fence) : Emit ObjectRef :=
  match parents with
  | [] => .ret .default
  | [only] => .ret only.data
  | _ => do
      let bytes ← encodeIndex parents internalMagic
      let object ← makeObject env bytes
      emit "emit run internal fence root" object
      .ret object.reference

def partitionRefs : List PartitionBuild → Emit (List ObjectRef)
  | [] => .ret []
  | part :: rest => do
      let reference ← partitionRef env part.parents
      let references ← partitionRefs rest
      .ret (reference :: references)

def encodeRoot (references : List ObjectRef) : Bytes :=
  rootMagic ++ [formatVersion] ++ references.flatMap putRef

/-- What the builder does once its input ends; the root is the last object. -/
def BuilderState.finish (state : BuilderState) : Emit ObjectRef := do
  let closed ← closePartitions env state.parts (List.finRange 16)
  let references ← partitionRefs env closed
  let root ← makeObject env (encodeRoot references)
  emit "emit run root" root
  .ret root.reference

/-- Encode sorted records as a run. -/
def RunBuilder.build (records : List Record) : Emit ObjectRef := do
  let state ← BuilderState.start.pushAll env records
  state.finish env

end

end Fossil
