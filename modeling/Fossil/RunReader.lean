import Fossil.RunFormat
import Fossil.Merging
import Fossil.Program

/-! Point lookups, object walks and streaming scans of a run.

The code is generic in how a referenced object is fetched, so it is a program
whose only operation asks for the bytes behind a reference. -/

namespace Fossil

/-- Codec programs ask for referenced objects; the reply may be an error. -/
abbrev Codec := Prog ObjectRef (fun _ => Result Bytes) Error

def fetchAs (message : String) (reference : ObjectRef) : Codec Bytes :=
  Prog.request reference (context message)

/-- The item before the partition point of an upper-bound search. -/
def floorEntry {α : Type} (key : α → Version) (target : Version) (items : List α) : Option α :=
  let position := partitionPoint (fun item => decide (key item ≤ target)) items
  if position = 0 then none else items[position - 1]?

theorem floorEntry_eq {α : Type} (key : α → Version) (target : Version) (items : List α) :
    floorEntry key target items = predecessor key target items :=
  getElem?_partitionPoint items

section

variable (env : Primitives)

def invalidDataRef (reference : ObjectRef) : Bool :=
  reference.length = 0 ∨ reference.length.toNat > maxPageBytes ∨ reference.digest = Fixed.zero

/-- The part of a lookup below the fence leaf. -/
def lookupLeaf (shard : Fin 16) (key : Bytes) (block : UInt64) (leafRef : ObjectRef)
    (leafBytes : Bytes) (expectedStart : Option Version) : Codec (Option Bytes) := do
  let fences ← decodeIndex env leafRef leafBytes shard indexMagic
  if ∃ start ∈ expectedStart, fences.head?.map Fence.version ≠ some start then
    .fail ["run fence leaf does not match its parent entry"]
  else
    match floorEntry Fence.version (version key block) fences with
    | none => .ret none
    | some fence =>
        if invalidDataRef fence.data then
          .fail ["run data reference exceeds the 1 MiB pre-fetch bound"]
        else do
          let pageBytes ← fetchAs "fetch run data page" fence.data
          let records ← decodeDataPage env fence.data pageBytes shard
          if records.head?.map Record.version ≠ some fence.version then
            .fail ["run data page does not match its exact fence"]
          else
            match floorEntry Record.version (version key block) records with
            | none => .ret none
            | some candidate =>
                .ret (if candidate.key = key then some candidate.value else none)

/-- The newest value of `key` at or before `block`. -/
def RunReader.lookup (reader : RunReader) (key : Bytes) (block : UInt64) :
    Codec (Option Bytes) :=
  if key = [] then .ret none
  else
    let shard := partition env key
    let rootRef := reader.index shard
    if rootRef = .default then .ret none
    else do
      validateIndexRef rootRef
      let root ← fetchAs "fetch run fence root" rootRef
      if internalMagic <+: root then do
        let parents ← decodeIndex env rootRef root shard internalMagic
        match floorEntry Fence.version (version key block) parents with
        | none => .ret none
        | some entry => do
            validateIndexRef entry.data
            let leaf ← fetchAs "fetch run fence leaf" entry.data
            lookupLeaf env shard key block entry.data leaf (some entry.version)
      else lookupLeaf env shard key block rootRef root none

/-! Walking every object of a run. -/

def walkLeaves (shard : Fin 16) : List Fence → Codec (List ObjectRef × List Fence)
  | [] => .ret ([], [])
  | parent :: rest => do
      validateIndexRef parent.data
      let leaf ← fetchAs "fetch run fence leaf" parent.data
      let fences ← decodeIndex env parent.data leaf shard indexMagic
      let (refs, more) ← walkLeaves shard rest
      .ret (parent.data :: refs, fences ++ more)

/-- Index objects of one partition, then its data pages in scan order. -/
def walkPartition (shard : Fin 16) (root : ObjectRef) :
    Codec (List ObjectRef × List ObjectRef) :=
  if root = .default then .ret ([], [])
  else do
    validateIndexRef root
    let bytes ← fetchAs "fetch run fence root" root
    if internalMagic <+: bytes then do
      let parents ← decodeIndex env root bytes shard internalMagic
      let (refs, leaves) ← walkLeaves env shard parents
      .ret (root :: refs, leaves.map Fence.data)
    else do
      let leaves ← decodeIndex env root bytes shard indexMagic
      .ret ([root], leaves.map Fence.data)

def walkPartitions (reader : RunReader) :
    List (Fin 16) → Codec (List ObjectRef × List (List ObjectRef))
  | [] => .ret ([], [])
  | shard :: rest => do
      let (refs, pages) ← walkPartition env shard (reader.index shard)
      let (moreRefs, morePages) ← walkPartitions reader rest
      .ret (refs ++ moreRefs, pages :: morePages)

def RunReader.walk (reader : RunReader) : Codec (List ObjectRef × List (List ObjectRef)) :=
  walkPartitions env reader (List.finRange 16)

/-- Every object of the run besides its root. -/
def RunReader.objectRefs (reader : RunReader) : Codec (List ObjectRef) := do
  let (refs, pages) ← reader.walk env
  .ret (refs ++ pages.flatten)

def RunReader.dataPages (reader : RunReader) : Codec (List (List ObjectRef)) := do
  let (_, pages) ← reader.walk env
  .ret pages

/-! Scanning a run in global order. -/

structure PartitionCursor where
  root : ObjectRef
  initialized : Bool
  parents : List Fence
  parentPos : Nat
  leaf : List Fence
  fencePos : Nat
  page : List Record
  previous : Option Version
  previousFence : Option Version

def PartitionCursor.new (root : ObjectRef) : PartitionCursor :=
  ⟨root, false, [], 0, [], 0, [], none, none⟩

/-- The first call reads the partition's fence root. -/
def PartitionCursor.openRoot (cursor : PartitionCursor) (shard : Fin 16) :
    Codec PartitionCursor :=
  if cursor.initialized then .ret cursor
  else if cursor.root = .default then .ret { cursor with initialized := true }
  else do
    validateIndexRef cursor.root
    let bytes ← fetchAs "fetch run fence root" cursor.root
    if internalMagic <+: bytes then do
      let parents ← decodeIndex env cursor.root bytes shard internalMagic
      .ret { cursor with initialized := true, parents := parents }
    else do
      let leaf ← decodeIndex env cursor.root bytes shard indexMagic
      .ret { cursor with initialized := true, leaf := leaf }

/-- Move to the next leaf once all fences of this one are used. -/
def PartitionCursor.advanceLeaf (cursor : PartitionCursor) (shard : Fin 16) :
    Codec PartitionCursor :=
  if cursor.fencePos ≠ cursor.leaf.length then .ret cursor
  else
    let cleared := { cursor with leaf := [], fencePos := 0 }
    match cleared.parents[cleared.parentPos]? with
    | none => .ret cleared
    | some parent => do
        validateIndexRef parent.data
        let bytes ← fetchAs "fetch run fence leaf" parent.data
        let leaf ← decodeIndex env parent.data bytes shard indexMagic
        if leaf.head?.map Fence.version ≠ some parent.version then
          .fail ["run fence leaf does not match its parent entry"]
        else .ret { cleared with leaf := leaf, parentPos := cleared.parentPos + 1 }

/-- Load the page behind the next fence. -/
def PartitionCursor.loadPage (cursor : PartitionCursor) (shard : Fin 16) (fence : Fence) :
    Codec PartitionCursor :=
  if ∃ last ∈ cursor.previousFence, fence.version ≤ last then
    .fail ["run fence pages are not strictly ordered"]
  else
    let moved := { cursor with previousFence := some fence.version, fencePos := cursor.fencePos + 1 }
    if invalidDataRef fence.data then
      .fail ["run data reference exceeds the 1 MiB pre-fetch bound"]
    else do
      let bytes ← fetchAs "fetch run data page" fence.data
      let records ← decodeDataPage env fence.data bytes shard
      if records.head?.map Record.version ≠ some fence.version then
        .fail ["run data page does not match its exact fence"]
      else if ∃ last ∈ cursor.previous, fence.version ≤ last then
        .fail ["run data pages are not strictly ordered"]
      else .ret { moved with page := records }

/-- Make the next record available, unless the partition is exhausted. A decoded
page is never empty, so the source's loop returns on its second round and one
round is the whole of it. -/
def PartitionCursor.ready (cursor : PartitionCursor) (shard : Fin 16) :
    Codec PartitionCursor := do
  let started ← cursor.openRoot env shard
  if started.page ≠ [] then .ret started
  else do
    let placed ← started.advanceLeaf env shard
    match placed.leaf[placed.fencePos]? with
    | none => .ret placed
    | some fence => placed.loadPage env shard fence

structure RunScanner where
  cursors : List (Fin 16 × PartitionCursor)
  failed : Bool

def RunReader.scanner (reader : RunReader) : RunScanner :=
  ⟨(List.finRange 16).map (fun shard => (shard, PartitionCursor.new (reader.index shard))), false⟩

def readyAll : List (Fin 16 × PartitionCursor) → Codec (List (Fin 16 × PartitionCursor))
  | [] => .ret []
  | (shard, cursor) :: rest => do
      let filled ← cursor.ready env shard
      let others ← readyAll rest
      .ret ((shard, filled) :: others)

def PartitionCursor.pop (cursor : PartitionCursor) (record : Record) : PartitionCursor :=
  { cursor with page := cursor.page.tail, previous := some record.version }

/-- The next record in global order, or `none` once the run is exhausted. After
a failed read the scanner stays failed; its cursors are not read again. -/
def RunScanner.next (scanner : RunScanner) :
    Codec (Result (Option Record) × RunScanner) :=
  if scanner.failed then
    .ret (bail "run scanner is invalid after a failed read", scanner)
  else do
    let filled ← Prog.attempt (readyAll env scanner.cursors)
    match filled with
    | .error error => .ret (.error error, { scanner with failed := true })
    | .ok cursors =>
        match leastFront Record.version (cursors.map (fun cursor => cursor.2.page.head?)) with
        | none => .ret (.ok none, { scanner with cursors := cursors })
        | some (index, record) =>
            .ret (.ok (some record), { scanner with
              cursors := cursors.modify index (fun cursor => (cursor.1, cursor.2.pop record)) })

end

end Fossil
