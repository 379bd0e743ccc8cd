import Fossil.PackageRecords
import Fossil.RunLookup

/-! The event log.

What an archive is for, without pages, runs and heads: its packages are a log of
events, and a query asks for the newest event of a key at or before a block. -/

namespace Fossil

/-- The newest event at or before a block. -/
def Latest {α : Type} (block : α → UInt64) (events : List α) (bound : UInt64) : Option α → Prop
  | none => ∀ event ∈ events, bound < block event
  | some found => found ∈ events ∧ block found ≤ bound ∧
      ∀ event ∈ events, block event ≤ bound → block event ≤ block found

def accountEvents (packages : List Package) (address : Address) : List AccountEvent :=
  (packages.flatMap (fun package => package.segment.accounts)).filter (fun event => event.address = address)

def storageEvents (packages : List Package) (address : Address) (incarnation : UInt64) (slot : Hash32) :
    List StorageEvent :=
  (packages.flatMap (fun package => package.segment.storage)).filter (fun event =>
    event.address = address ∧ event.incarnation = incarnation ∧ event.slot = slot)

def codeBlobs (packages : List Package) (hash : Hash32) : List CodeBlob :=
  (packages.flatMap (fun package => package.segment.code)).filter (fun blob => blob.codeHash = hash)

/-- The account event in force at a block. -/
def AccountAt (packages : List Package) (address : Address) (block : UInt64)
    (found : Option AccountEvent) : Prop :=
  Latest AccountEvent.block (accountEvents packages address) block found

/-- The value of a slot at a block: zero unless the account exists, and then that of the
newest write of its incarnation. -/
def StorageAt (packages : List Package) (address : Address) (slot : Hash32) (block : UInt64)
    (value : Hash32) : Prop :=
  ∃ account, AccountAt packages address block account ∧
    ((∀ event ∈ account, event.existing = false) ∧ value = Fixed.zero ∨
      ∃ event ∈ account, event.existing = true ∧ ∃ write,
        Latest StorageEvent.block (storageEvents packages address event.incarnation slot) block write ∧
        value = (write.map StorageEvent.value).getD Fixed.zero)

def missingCode : Error := ["missing account code blob"]

/-- The code at a block: empty unless the account exists and has some, and then the blob
of its code hash that was seen by then. -/
def CodeAt (env : Externals) (packages : List Package) (address : Address) (block : UInt64)
    (outcome : Result Bytes) : Prop :=
  ∃ account, AccountAt packages address block account ∧
    ((∀ event ∈ account, event.existing = true → event.codeHash = env.keccak256 []) ∧ outcome = .ok [] ∨
      ∃ event ∈ account, event.existing = true ∧ event.codeHash ≠ env.keccak256 [] ∧ ∃ blob,
        Latest CodeBlob.firstSeenBlock (codeBlobs packages event.codeHash) block blob ∧
        outcome = blob.elim (.error missingCode) (fun blob => .ok blob.bytes))

theorem Latest.unique {α : Type} {block : α → UInt64} {events : List α} {bound : UInt64}
    {left right : Option α} (one : Latest block events bound left) (two : Latest block events bound right)
    (distinct : ∀ first ∈ events, ∀ second ∈ events, block first = block second → first = second) :
    left = right := by
  cases left with
  | none =>
      cases right with
      | none => rfl
      | some found => exact absurd (one found two.1) (not_lt_of_ge two.2.1)
  | some found =>
      cases right with
      | none => exact absurd (two found one.1) (not_lt_of_ge one.2.1)
      | some other =>
          have same : block found = block other :=
            le_antisymm (two.2.2 found one.1 one.2.1) (one.2.2 other two.1 two.2.1)
          rw [distinct found one.1 other two.1 same]

/-- A search among records finds the newest of the events they were made from. -/
theorem Newest.latest {α : Type} {record : α → Record} {events : List α} {records : List Record}
    {key : Bytes} {bound : UInt64} {value : Option Bytes} (newest : Newest records key bound value)
    (members : ∀ found, found ∈ records ∧ found.key = key ↔ ∃ event ∈ events, record event = found) :
    ∃ found, Latest (fun event => (record event).block) events bound found ∧
      value = found.map (fun event => (record event).value) := by
  have recorded : ∀ event ∈ events, record event ∈ records ∧ (record event).key = key :=
    fun event member => (members _).mpr ⟨event, member, rfl⟩
  cases value with
  | none =>
      refine ⟨none, ?_, rfl⟩
      intro event member
      exact newest _ (recorded event member).1 (recorded event member).2
  | some value =>
      obtain ⟨found, inside, same, low, rfl, greatest⟩ := newest
      obtain ⟨event, member, rfl⟩ := (members found).mp ⟨inside, same⟩
      refine ⟨some event, ⟨member, low, ?_⟩, rfl⟩
      intro other isOther otherLow
      exact greatest _ (recorded other isOther).1 (recorded other isOther).2 otherLow

/-! The records of a log. -/

def logRecords (packages : List Package) : List Record :=
  packages.flatMap (fun package => eventRecords package.segment)

section

variable {packages : List Package} {record : Record}

theorem mem_logRecords : record ∈ logRecords packages ↔ ∃ package ∈ packages,
    (∃ event ∈ package.segment.accounts, accountRecord event = record) ∨
    (∃ event ∈ package.segment.storage, storageRecord event = record) ∨
    ∃ blob ∈ package.segment.code, codeRecord blob = record := by
  simp [logRecords, eventRecords]

theorem mem_accountEvents {address : Address} {event : AccountEvent} :
    event ∈ accountEvents packages address ↔
      (∃ package ∈ packages, event ∈ package.segment.accounts) ∧ event.address = address := by
  simp [accountEvents]

theorem mem_storageEvents {address : Address} {incarnation : UInt64} {slot : Hash32} {event : StorageEvent} :
    event ∈ storageEvents packages address incarnation slot ↔
      (∃ package ∈ packages, event ∈ package.segment.storage) ∧
        event.address = address ∧ event.incarnation = incarnation ∧ event.slot = slot := by
  simp [storageEvents]

theorem mem_codeBlobs {hash : Hash32} {blob : CodeBlob} :
    blob ∈ codeBlobs packages hash ↔
      (∃ package ∈ packages, blob ∈ package.segment.code) ∧ blob.codeHash = hash := by
  simp [codeBlobs]

theorem accountRecords_iff {address : Address} :
    record ∈ logRecords packages ∧ record.key = accountKey address ↔
      ∃ event ∈ accountEvents packages address, accountRecord event = record := by
  constructor
  · rintro ⟨member, same⟩
    obtain ⟨package, inside, ⟨event, held, rfl⟩ | ⟨event, held, rfl⟩ | ⟨blob, held, rfl⟩⟩ :=
      mem_logRecords.mp member
    · exact ⟨event, mem_accountEvents.mpr ⟨⟨package, inside, held⟩, accountKey_injective same⟩, rfl⟩
    · exact absurd same.symm (accountKey_ne_storageKey _ _ _ _)
    · exact absurd same.symm (accountKey_ne_codeKey _ _)
  · rintro ⟨event, member, rfl⟩
    obtain ⟨⟨package, inside, held⟩, rfl⟩ := mem_accountEvents.mp member
    exact ⟨mem_logRecords.mpr ⟨package, inside, .inl ⟨event, held, rfl⟩⟩, rfl⟩

theorem storageRecords_iff {address : Address} {incarnation : UInt64} {slot : Hash32} :
    record ∈ logRecords packages ∧ record.key = storageKey address incarnation slot ↔
      ∃ event ∈ storageEvents packages address incarnation slot, storageRecord event = record := by
  constructor
  · rintro ⟨member, same⟩
    obtain ⟨package, inside, ⟨event, held, rfl⟩ | ⟨event, held, rfl⟩ | ⟨blob, held, rfl⟩⟩ :=
      mem_logRecords.mp member
    · exact absurd same (accountKey_ne_storageKey _ _ _ _)
    · exact ⟨event, mem_storageEvents.mpr ⟨⟨package, inside, held⟩, storageKey_inj.mp same⟩, rfl⟩
    · exact absurd same.symm (storageKey_ne_codeKey _ _ _ _)
  · rintro ⟨event, member, rfl⟩
    obtain ⟨⟨package, inside, held⟩, rfl, rfl, rfl⟩ := mem_storageEvents.mp member
    exact ⟨mem_logRecords.mpr ⟨package, inside, .inr (.inl ⟨event, held, rfl⟩)⟩, rfl⟩

theorem codeRecords_iff {hash : Hash32} :
    record ∈ logRecords packages ∧ record.key = codeKey hash ↔
      ∃ blob ∈ codeBlobs packages hash, codeRecord blob = record := by
  constructor
  · rintro ⟨member, same⟩
    obtain ⟨package, inside, ⟨event, held, rfl⟩ | ⟨event, held, rfl⟩ | ⟨blob, held, rfl⟩⟩ :=
      mem_logRecords.mp member
    · exact absurd same (accountKey_ne_codeKey _ _)
    · exact absurd same (storageKey_ne_codeKey _ _ _ _)
    · exact ⟨blob, mem_codeBlobs.mpr ⟨⟨package, inside, held⟩, codeKey_injective same⟩, rfl⟩
  · rintro ⟨blob, member, rfl⟩
    obtain ⟨⟨package, inside, held⟩, rfl⟩ := mem_codeBlobs.mp member
    exact ⟨mem_logRecords.mpr ⟨package, inside, .inr (.inr ⟨blob, held, rfl⟩)⟩, rfl⟩

end

end Fossil
