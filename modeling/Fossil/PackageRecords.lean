import Fossil.Grammar
import Fossil.Manifest

/-! The records of an accepted package.

The parser checks order and uniqueness within a block, for each kind of event on
its own. A run needs one order over the keys of all kinds and all blocks. Block
numbers rise along a package and the key layouts do not meet, so the checks of
the parser are enough. -/

namespace Fossil

/-! Events and their records. -/

def PackageEvent.record : PackageEvent → Record
  | .account event => accountRecord event
  | .storage event => storageRecord event
  | .code blob => codeRecord blob

def PackageEvent.block : PackageEvent → UInt64
  | .account event => event.block
  | .storage event => event.block
  | .code blob => blob.firstSeenBlock

def Segment.events (segment : Segment) : List PackageEvent :=
  segment.accounts.map .account ++ segment.storage.map .storage ++ segment.code.map .code

theorem eventRecords_eq (segment : Segment) :
    eventRecords segment = segment.events.map PackageEvent.record := by
  simp [eventRecords, Segment.events, PackageEvent.record, Function.comp_def]

/-- The event that a record was made from, read off its key and value. -/
def Record.event (record : Record) : Result PackageEvent :=
  match record.key with
  | 1 :: address => do
      let address ← Fixed.ofBytes "account key" address
      let state ← AccountState.decode record.value
      .ok (.account ⟨record.block, address, state.existing, state.incarnation, state.nonce,
        state.balance, state.codeHash⟩)
  | 2 :: rest => do
      let (address, rest) ← splitBytes "storage key" 20 rest
      let address ← Fixed.ofBytes "storage key" address
      let (incarnation, slot) ← readU64 rest
      let slot ← Fixed.ofBytes "storage key" slot
      let value ← Fixed.ofBytes "storage value" record.value
      .ok (.storage ⟨record.block, address, incarnation, slot, value⟩)
  | 3 :: hash => do
      let hash ← Fixed.ofBytes "code key" hash
      .ok (.code ⟨record.block, hash, record.value⟩)
  | _ => bail "record of no kind"

/-- What the parser makes sure of for one event. -/
def PackageEvent.Sound (env : Externals) : PackageEvent → Prop
  | .account event =>
      event.existing = false → event.nonce = 0 ∧ event.balance = Fixed.zero ∧ event.codeHash = Fixed.zero
  | .storage _ => True
  | .code blob => env.keccak256 blob.bytes = blob.codeHash

section

variable {env : Externals} {event : PackageEvent} {records : List LineRecord} {header : PackageHeader}
  {groups : List BlockGroup} {first last : BlockMeta}

theorem decode_accountValue {event : AccountEvent} (sound : (PackageEvent.account event).Sound env) :
    AccountState.decode (accountValue event) =
      .ok ⟨event.existing, event.incarnation, event.nonce, event.balance, event.codeHash⟩ :=
  AccountState.decode_encode _ sound

/-- Nothing of an event is lost in its record. -/
theorem event_record (sound : event.Sound env) : event.record.event = .ok event := by
  cases event with
  | account event =>
      simp [PackageEvent.record, Record.event, accountRecord, accountKey, decode_accountValue sound]
  | storage event =>
      simp only [PackageEvent.record, Record.event, storageRecord, storageKey, List.append_assoc]
      rw [splitBytes_of_length _ _ _ _ event.address.width]
      simp
  | code blob => simp [PackageEvent.record, Record.event, codeRecord, codeKey]

theorem SpellsEvent.sound {number : UInt64} {record : LineRecord}
    (spells : SpellsEvent env number record event) : event.block = number ∧ event.Sound env := by
  cases spells with
  | account _ same _ fields =>
      refine ⟨same, ?_⟩
      intro gone
      rw [SpellsState, gone] at fields
      simp only [Bool.false_eq_true, if_false] at fields
      exact fields.2
  | storage _ same _ => exact ⟨same, trivial⟩
  | code same _ digest => exact ⟨same, digest⟩

/-! The blocks of a package. -/

theorem Spelled.increasing (spelled : Spelled env records header groups first last) :
    (groups.map BlockGroup.block).Pairwise (fun left right => left.number < right.number) := by
  have transitive : IsTrans BlockMeta (fun left right => left.number < right.number) :=
    ⟨fun _ _ _ => lt_trans⟩
  rw [← List.isChain_iff_pairwise]
  refine spelled.chain.imp ?_
  intro left right child
  exact UInt64.lt_iff_toNat_lt.mpr (by have := child.1; omega)

theorem Spelled.within (spelled : Spelled env records header groups first last) {group : BlockGroup}
    (member : group ∈ groups) :
    first.number ≤ group.block.number ∧ group.block.number ≤ last.number := by
  have increasing := spelled.increasing
  have inside : group.block ∈ groups.map BlockGroup.block := List.mem_map_of_mem member
  constructor
  · obtain ⟨rest, same⟩ := List.head?_eq_some_iff.mp spelled.head
    rw [same] at increasing inside
    obtain isFirst | later := List.mem_cons.mp inside
    · rw [isFirst]
    · exact (List.rel_of_pairwise_cons increasing later).le
  · obtain ⟨front, same⟩ := List.getLast?_eq_some_iff.mp spelled.tail
    rw [same] at increasing inside
    obtain early | isLast := List.mem_append.mp inside
    · exact ((List.pairwise_append.mp increasing).2.2 _ early _ (by simp)).le
    · rw [List.mem_singleton.mp isLast]

theorem forall₂_exists_left {α β : Type} {related : α → β → Prop} {left : List α} {right : List β}
    (all : List.Forall₂ related left right) {value : β} (member : value ∈ right) :
    ∃ other ∈ left, related other value := by
  induction all with
  | nil => cases member
  | cons one _ ih =>
      obtain rfl | later := List.mem_cons.mp member
      · exact ⟨_, by simp, one⟩
      · obtain ⟨other, inside, found⟩ := ih later
        exact ⟨other, List.mem_cons_of_mem _ inside, found⟩

theorem Spelled.group (spelled : Spelled env records header groups first last) {group : BlockGroup}
    (member : group ∈ groups) : ∃ lines : GroupLines, lines.Spells env group := by
  obtain ⟨_, _, _, _, _, all, _⟩ := spelled.lines
  obtain ⟨lines, _, spells⟩ := forall₂_exists_left all member
  exact ⟨lines, spells⟩

theorem Spelled.event_sound (spelled : Spelled env records header groups first last)
    {group : BlockGroup} (member : group ∈ groups) (inside : event ∈ group.events) :
    event.block = group.block.number ∧ event.Sound env := by
  obtain ⟨_, spells⟩ := spelled.group member
  obtain ⟨_, _, spelt⟩ := forall₂_exists_left spells.events inside
  exact spelt.sound

theorem mem_accounts {group : BlockGroup} {event : AccountEvent} :
    event ∈ group.accounts ↔ .account event ∈ group.events := by
  simp only [BlockGroup.accounts, List.mem_filterMap]
  constructor
  · rintro ⟨found, member, same⟩
    cases found <;> simp [PackageEvent.account?] at same
    exact same ▸ member
  · intro member
    exact ⟨_, member, rfl⟩

theorem mem_storage {group : BlockGroup} {event : StorageEvent} :
    event ∈ group.storage ↔ .storage event ∈ group.events := by
  simp only [BlockGroup.storage, List.mem_filterMap]
  constructor
  · rintro ⟨found, member, same⟩
    cases found <;> simp [PackageEvent.storage?] at same
    exact same ▸ member
  · intro member
    exact ⟨_, member, rfl⟩

theorem mem_code {group : BlockGroup} {blob : CodeBlob} :
    blob ∈ group.code ↔ .code blob ∈ group.events := by
  simp only [BlockGroup.code, List.mem_filterMap]
  constructor
  · rintro ⟨found, member, same⟩
    cases found <;> simp [PackageEvent.code?] at same
    exact same ▸ member
  · intro member
    exact ⟨_, member, rfl⟩

theorem mem_events_packageOf {inputSha256 : Hash32} :
    event ∈ (packageOf header inputSha256 first last groups).segment.events ↔
      ∃ group ∈ groups, event ∈ group.events := by
  simp only [Segment.events, packageOf, List.mem_append, List.mem_map, List.mem_flatMap, mem_accounts,
    mem_storage, mem_code]
  constructor
  · rintro ((⟨_, found, rfl⟩ | ⟨_, found, rfl⟩) | ⟨_, found, rfl⟩) <;> exact found
  · intro found
    cases event with
    | account event => exact .inl (.inl ⟨event, found, rfl⟩)
    | storage event => exact .inl (.inr ⟨event, found, rfl⟩)
    | code blob => exact .inr ⟨blob, found, rfl⟩

/-- Versions differ between groups because blocks do, so it is enough that they
differ within each group. -/
theorem nodup_versions {α : Type} {events : BlockGroup → List α} {record : α → Record}
    (increasing : (groups.map BlockGroup.block).Pairwise (fun left right => left.number < right.number))
    (blocks : ∀ group ∈ groups, ∀ event ∈ events group, (record event).block = group.block.number)
    (each : ∀ group ∈ groups, ((events group).map (fun event => (record event).version)).Nodup) :
    ((groups.flatMap events).map (fun event => (record event).version)).Nodup := by
  rw [List.map_flatMap, List.nodup_flatMap]
  refine ⟨each, ?_⟩
  rw [List.pairwise_map] at increasing
  refine increasing.imp_of_mem ?_
  intro left right inLeft inRight less version one two
  obtain ⟨early, isEarly, rfl⟩ := List.mem_map.mp one
  obtain ⟨late, isLate, same⟩ := List.mem_map.mp two
  have block := (version_inj.mp same).2
  rw [blocks right inRight late isLate, blocks left inLeft early isEarly] at block
  exact absurd block less.ne'

/-- No two events of an accepted package have the same key and block. -/
theorem Spelled.nodup (spelled : Spelled env records header groups first last) (inputSha256 : Hash32) :
    ((eventRecords (packageOf header inputSha256 first last groups).segment).map
      Record.version).Nodup := by
  have increasing := spelled.increasing
  have accounts : ((groups.flatMap BlockGroup.accounts).map
      (fun event => (accountRecord event).version)).Nodup := by
    refine nodup_versions increasing ?_ ?_
    · intro group member event inside
      exact (spelled.event_sound member (mem_accounts.mp inside)).1
    · intro group member
      obtain ⟨_, spells⟩ := spelled.group member
      refine List.pairwise_map.mpr ((List.pairwise_map.mp spells.accounts).imp ?_)
      intro left right less same
      exact less.ne (accountKey_injective (version_inj.mp same).1)
  have storage : ((groups.flatMap BlockGroup.storage).map
      (fun event => (storageRecord event).version)).Nodup := by
    refine nodup_versions increasing ?_ ?_
    · intro group member event inside
      exact (spelled.event_sound member (mem_storage.mp inside)).1
    · intro group member
      obtain ⟨_, spells⟩ := spelled.group member
      refine List.pairwise_map.mpr ((List.pairwise_map.mp spells.storage).imp ?_)
      intro left right less same
      obtain ⟨address, incarnation, slot⟩ := storageKey_inj.mp (version_inj.mp same).1
      exact less.ne (by rw [StorageEvent.order, StorageEvent.order, address, incarnation, slot])
  have code : ((groups.flatMap BlockGroup.code).map (fun blob => (codeRecord blob).version)).Nodup := by
    refine List.pairwise_map.mpr ((List.pairwise_map.mp spelled.codes).imp ?_)
    intro left right differ same
    exact differ (codeKey_injective (version_inj.mp same).1)
  simp only [eventRecords, packageOf, List.map_append, List.map_map, Function.comp_def]
  refine List.nodup_append.mpr ⟨List.nodup_append.mpr ⟨accounts, storage, ?_⟩, code, ?_⟩
  · intro one isAccount two isStorage same
    obtain ⟨account, _, rfl⟩ := List.mem_map.mp isAccount
    obtain ⟨write, _, rfl⟩ := List.mem_map.mp isStorage
    exact accountKey_ne_storageKey _ _ _ _ (version_inj.mp same).1
  · intro one isOther two isCode same
    obtain ⟨blob, _, rfl⟩ := List.mem_map.mp isCode
    obtain isAccount | isStorage := List.mem_append.mp isOther
    · obtain ⟨account, _, rfl⟩ := List.mem_map.mp isAccount
      exact accountKey_ne_codeKey _ _ (version_inj.mp same).1
    · obtain ⟨write, _, rfl⟩ := List.mem_map.mp isStorage
      exact storageKey_ne_codeKey _ _ _ _ (version_inj.mp same).1

/-! Staging succeeds. -/

/-- The bytes that staging counts for records. -/
def stagedBytes (records : List Record) : Nat :=
  (records.map (fun record => record.key.length + record.value.length + 32)).sum

/-- The loops over accounts, storage and code all add records one by one. -/
def stageRecords (first last : UInt64) (staged : Staged) (records : List Record) : Result Staged :=
  records.foldlM (fun staged record => staged.add first last record.key record.block record.value) staged

theorem stageAccounts_eq {first last : UInt64} (staged : Staged) (events : List AccountEvent) :
    stageAccounts first last staged events =
      stageRecords first last staged (events.map accountRecord) := by
  induction events generalizing staged with
  | nil => rfl
  | cons event events ih =>
      simp only [stageAccounts, ih]
      rfl

theorem stageStorage_eq {first last : UInt64} (staged : Staged) (events : List StorageEvent) :
    stageStorage first last staged events =
      stageRecords first last staged (events.map storageRecord) := by
  induction events generalizing staged with
  | nil => rfl
  | cons event events ih =>
      simp only [stageStorage, ih]
      rfl

theorem stageCode_eq {first last : UInt64} (staged : Staged) {blobs : List CodeBlob}
    (valid : ∀ blob ∈ blobs, blob.bytes.length ≤ maxCode ∧ env.keccak256 blob.bytes = blob.codeHash) :
    stageCode env first last staged blobs = stageRecords first last staged (blobs.map codeRecord) := by
  induction blobs generalizing staged with
  | nil => rfl
  | cons blob blobs ih =>
      obtain ⟨⟨small, digest⟩, rest⟩ := List.forall_mem_cons.mp valid
      have passes : ¬ (blob.bytes.length > maxCode ∨ env.keccak256 blob.bytes ≠ blob.codeHash) := by
        simp [small, digest]
      simp only [stageCode, if_neg passes, ih _ rest]
      rfl

theorem stageRecords_ok {first last : UInt64} {staged : Staged} {added : List Record}
    (inside : ∀ record ∈ added, first ≤ record.block ∧ record.block ≤ last)
    (size : staged.inputBytes + stagedBytes added ≤ maxStaged) :
    stageRecords first last staged added =
      .ok ⟨staged.records ++ added, staged.inputBytes + stagedBytes added⟩ := by
  induction added generalizing staged with
  | nil => simp [stageRecords, stagedBytes, pure, Except.pure]
  | cons record added ih =>
      obtain ⟨within, rest⟩ := List.forall_mem_cons.mp inside
      have total : stagedBytes (record :: added) =
          record.key.length + record.value.length + 32 + stagedBytes added := by
        simp [stagedBytes]
      have step : staged.add first last record.key record.block record.value =
          .ok ⟨staged.records ++ [record],
            staged.inputBytes + (record.key.length + record.value.length + 32)⟩ := by
        simp only [Staged.add, within, and_self, not_true_eq_false, if_false]
        rw [if_neg (by omega)]
      simp only [stageRecords, List.foldlM_cons, step, ok_bind]
      refine (ih rest (by dsimp only; omega)).trans ?_
      simp only [total, List.append_assoc, List.singleton_append, Nat.add_assoc]

/-! The records of a package. -/

theorem readPackage_spelled {input : Bytes} {package : Package}
    (read : readPackage env input = .ok package) :
    ∃ records header groups first last, Spelled env records header groups first last ∧
      package = packageOf header (env.sha256 input) first last groups := by
  obtain ⟨decoded, _, parsed⟩ := bind_eq_ok.mp read
  obtain ⟨text, _, parsed⟩ := bind_eq_ok.mp parsed
  obtain ⟨records, _, assembled⟩ := bind_eq_ok.mp parsed
  obtain ⟨header, groups, first, last, spelled, same⟩ := assemblePackage_eq_ok_iff.mp assembled
  exact ⟨records, header, groups, first, last, spelled, same⟩

theorem Spelled.inside (spelled : Spelled env records header groups first last) (inputSha256 : Hash32) :
    ∀ record ∈ eventRecords (packageOf header inputSha256 first last groups).segment,
      first.number ≤ record.block ∧ record.block ≤ last.number := by
  intro record member
  rw [eventRecords_eq] at member
  obtain ⟨event, isEvent, rfl⟩ := List.mem_map.mp member
  obtain ⟨group, isGroup, inside⟩ := mem_events_packageOf.mp isEvent
  have block : event.record.block = event.block := by cases event <;> rfl
  rw [block, (spelled.event_sound isGroup inside).1]
  exact spelled.within isGroup

/-- Staging accepts the events of an accepted package that is small enough. -/
theorem Spelled.packageRecords (spelled : Spelled env records header groups first last)
    (inputSha256 : Hash32)
    (codes : ∀ blob ∈ groups.flatMap BlockGroup.code, blob.bytes.length ≤ maxCode)
    (size : stagedBytes (eventRecords (packageOf header inputSha256 first last groups).segment) ≤
      maxStaged) :
    Fossil.packageRecords env (packageOf header inputSha256 first last groups) =
      .ok (sortRecords (eventRecords (packageOf header inputSha256 first last groups).segment)) := by
  have inside := spelled.inside inputSha256
  have valid : ∀ blob ∈ groups.flatMap BlockGroup.code,
      blob.bytes.length ≤ maxCode ∧ env.keccak256 blob.bytes = blob.codeHash := by
    intro blob member
    obtain ⟨group, isGroup, inGroup⟩ := List.mem_flatMap.mp member
    exact ⟨codes blob member, (spelled.event_sound isGroup (mem_code.mp inGroup)).2⟩
  simp only [eventRecords, packageOf, List.forall_mem_append] at inside
  obtain ⟨⟨accounts, storage⟩, code⟩ := inside
  simp only [eventRecords, packageOf, stagedBytes, List.map_append, List.sum_append] at size
  simp only [Fossil.packageRecords, packageOf, spelled.head, spelled.tail, stageAccounts_eq,
    stageStorage_eq, stageCode_eq _ valid]
  rw [stageRecords_ok accounts (by simp only [stagedBytes]; omega), ok_bind,
    stageRecords_ok storage (by simp only [stagedBytes]; omega), ok_bind,
    stageRecords_ok code (by simp only [stagedBytes]; omega), ok_bind]
  rfl

/-- The builder's own order check never fails on sorted records. -/
theorem pushAll_ordered {env : Primitives} {before after : List Record} {record : Record}
    {objects : List EncodedObject} {state : BuilderState}
    (sorted : StrictlySorted Record.version (before ++ record :: after))
    (pushed : (BuilderState.start.pushAll env before).collect = (objects, .ok state)) :
    ∀ last ∈ state.previous, last < record.version := by
  have holds := BuilderState.holds_start.pushAll pushed
  rw [List.nil_append] at holds
  intro last known
  rw [holds.previous] at known
  obtain ⟨earlier, isLast, rfl⟩ := Option.map_eq_some_iff.mp known
  exact (List.pairwise_append.mp sorted).2.2 _ (List.mem_of_getLast? isLast) _ (by simp)

/-- An accepted package whose code and total size are within bounds has a
strictly sorted list of records, one for each event, from which the events can
be read back, and which the builder never refuses for its order. -/
theorem package_buildable {input : Bytes} {package : Package}
    (read : readPackage env input = .ok package)
    (codes : ∀ blob ∈ package.segment.code, blob.bytes.length ≤ maxCode)
    (size : stagedBytes (eventRecords package.segment) ≤ maxStaged) :
    ∃ records, packageRecords env package = .ok records ∧
      StrictlySorted Record.version records ∧
      records.Perm (package.segment.events.map PackageEvent.record) ∧
      (∀ event ∈ package.segment.events, event.record.event = .ok event) ∧
      (∀ event ∈ package.segment.accounts, AccountState.decode (accountValue event) =
        .ok ⟨event.existing, event.incarnation, event.nonce, event.balance, event.codeHash⟩) ∧
      (∀ record ∈ records, package.segment.startBlock ≤ record.block ∧
        record.block ≤ package.segment.endBlock) ∧
      ∀ before record after objects state, records = before ++ record :: after →
        (BuilderState.start.pushAll env.toPrimitives before).collect = (objects, .ok state) →
        ∀ last ∈ state.previous, last < record.version := by
  obtain ⟨_, header, groups, first, last, spelled, rfl⟩ := readPackage_spelled read
  have sorted := sortRecords_strictlySorted (spelled.nodup (env.sha256 input))
  have same := sortRecords_perm
    (eventRecords (packageOf header (env.sha256 input) first last groups).segment)
  have sound : ∀ event ∈ (packageOf header (env.sha256 input) first last groups).segment.events,
      event.Sound env := by
    intro event member
    obtain ⟨group, isGroup, inside⟩ := mem_events_packageOf.mp member
    exact (spelled.event_sound isGroup inside).2
  refine ⟨_, spelled.packageRecords (env.sha256 input) codes size, sorted, ?_, ?_, ?_, ?_, ?_⟩
  · rw [← eventRecords_eq]
    exact same
  · exact fun event member => event_record (sound event member)
  · intro event member
    have isEvent : PackageEvent.account event ∈
        (packageOf header (env.sha256 input) first last groups).segment.events := by
      simp [Segment.events, member]
    exact decode_accountValue (sound _ isEvent)
  · intro record member
    exact spelled.inside _ record (same.mem_iff.mp member)
  · intro before record after objects state split pushed
    exact pushAll_ordered (split ▸ sorted) pushed

end

/-- An anchor with one account and one storage slot. -/
def smallAnchor : List LineRecord :=
  [.header exportSchema ['0', 'x', '1'] (.ofNat 0xaa) anchorText (some ['0', 'x', '0'])
      (some (.ofNat 0xaa)) none none,
    .block ['0', 'x', '0'] (.ofNat 0xaa) .zero (.ofNat 0xbb) ['0', 'x', '0'],
    .account ['0', 'x', '0'] (.ofNat 0x11) true ['0', 'x', '0'] (some ['0', 'x', '1'])
      (some ['0', 'x', '2'])
      (some (.ofNat 0xc5d2460186f7233c927e7db2dcc703c0e500b653ca82273b7bfad8045d85a470)),
    .storage ['0', 'x', '0'] (.ofNat 0x11) ['0', 'x', '0'] (.ofNat 0x22) (.ofNat 0x33),
    .blockEnd ['0', 'x', '0'] ['0', 'x', '2'],
    .trailer ['0', 'x', '0'] (.ofNat 0xaa) ['0', 'x', '1']]

def smallEnv : Externals :=
  .ofRecords
    { sha256 := digestOf [(writeLines smallAnchor,
        0x0c00a656d38f8a55e5a7d6d1ad8f885fcc9d19461ad7f725da0ba8cef44c8865)]
      zstdCompress := fun _ => bail "not in the table"
      zstdDecompress := fun _ _ => bail "not in the table" }
    [([], 0xc5d2460186f7233c927e7db2dcc703c0e500b653ca82273b7bfad8045d85a470)] smallAnchor []

def smallPackage : Package :=
  ⟨.anchor, none, none, .ofNat 0x0c00a656d38f8a55e5a7d6d1ad8f885fcc9d19461ad7f725da0ba8cef44c8865,
    ⟨1, .ofNat 0xaa, 0, 0, [⟨0, .ofNat 0xaa, .zero, .ofNat 0xbb, 0⟩],
      [⟨0, .ofNat 0x11, true, 0, 1, .ofNat 2,
        .ofNat 0xc5d2460186f7233c927e7db2dcc703c0e500b653ca82273b7bfad8045d85a470⟩],
      [⟨0, .ofNat 0x11, 0, .ofNat 0x22, .ofNat 0x33⟩], []⟩⟩

theorem readPackage_small : readPackage smallEnv (writeLines smallAnchor) = .ok smallPackage := by
  decide +kernel

theorem package_buildable_small :
    readPackage smallEnv (writeLines smallAnchor) = .ok smallPackage ∧
      ∃ records, packageRecords smallEnv smallPackage = .ok records ∧
        StrictlySorted Record.version records ∧
        records.Perm (smallPackage.segment.events.map PackageEvent.record) := by
  have small : stagedBytes (eventRecords smallPackage.segment) ≤ maxStaged := by decide +kernel
  obtain ⟨records, done, sorted, same, _⟩ :=
    package_buildable readPackage_small (by simp [smallPackage]) small
  exact ⟨readPackage_small, records, done, sorted, same⟩

end Fossil
