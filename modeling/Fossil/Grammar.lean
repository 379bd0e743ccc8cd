import Fossil.Package

/-! The grammar of a package, apart from the machine that recognises it.

A package spells a header, groups of a block with its events, and a trailer.
The parser accepts a list of records exactly when it is such a spelling, and
returns what is spelled. -/

namespace Fossil

/-! What a package says. -/

/-- One event of a block. -/
inductive PackageEvent where
  | account (event : AccountEvent)
  | storage (event : StorageEvent)
  | code (blob : CodeBlob)
  deriving DecidableEq

def PackageEvent.account? : PackageEvent → Option AccountEvent
  | .account event => some event
  | _ => none

def PackageEvent.storage? : PackageEvent → Option StorageEvent
  | .storage event => some event
  | _ => none

def PackageEvent.code? : PackageEvent → Option CodeBlob
  | .code blob => some blob
  | _ => none

/-- The order of storage events in a block. -/
def StorageEvent.order (event : StorageEvent) : Address ×ₗ UInt64 ×ₗ Hash32 :=
  toLex (event.address, toLex (event.incarnation, event.slot))

/-- A block and its events. -/
structure BlockGroup where
  block : BlockMeta
  events : List PackageEvent
  deriving DecidableEq

def BlockGroup.accounts (group : BlockGroup) : List AccountEvent :=
  group.events.filterMap PackageEvent.account?

def BlockGroup.storage (group : BlockGroup) : List StorageEvent :=
  group.events.filterMap PackageEvent.storage?

def BlockGroup.code (group : BlockGroup) : List CodeBlob :=
  group.events.filterMap PackageEvent.code?

/-! How it is spelled. -/

/-- The state of an account: all of it when it is live, nothing for a tombstone. -/
def SpellsState (nonce balance : Option Text) (codeHash : Option Hash32) (event : AccountEvent) :
    Prop :=
  if event.existing then
    (∃ text, nonce = some text ∧ parseQuantity text = .ok event.nonce) ∧
      (∃ text, balance = some text ∧ parseU256 text = .ok event.balance) ∧
      codeHash = some event.codeHash
  else
    (nonce = none ∧ balance = none ∧ codeHash = none) ∧
      event.nonce = 0 ∧ event.balance = Fixed.zero ∧ event.codeHash = Fixed.zero

/-- A record that spells an event of the block with the given number. -/
inductive SpellsEvent (env : Externals) (number : UInt64) : LineRecord → PackageEvent → Prop
  | account {block incarnation : Text} {nonce balance : Option Text} {codeHash : Option Hash32}
      {event : AccountEvent} :
      parseQuantity block = .ok number → event.block = number →
      parseQuantity incarnation = .ok event.incarnation → SpellsState nonce balance codeHash event →
      SpellsEvent env number
        (.account block event.address event.existing incarnation nonce balance codeHash)
        (.account event)
  | storage {block incarnation : Text} {event : StorageEvent} :
      parseQuantity block = .ok number → event.block = number →
      parseQuantity incarnation = .ok event.incarnation →
      SpellsEvent env number (.storage block event.address incarnation event.slot event.value)
        (.storage event)
  | code {text : Text} {blob : CodeBlob} :
      blob.firstSeenBlock = number → parseData text = .ok blob.bytes →
      env.keccak256 blob.bytes = blob.codeHash →
      SpellsEvent env number (.code blob.codeHash text) (.code blob)

/-- The records of one group. -/
structure GroupLines where
  opening : LineRecord
  events : List LineRecord
  closing : LineRecord

def GroupLines.records (lines : GroupLines) : List LineRecord :=
  lines.opening :: (lines.events ++ [lines.closing])

def SpellsBlock (record : LineRecord) (block : BlockMeta) : Prop :=
  ∃ number timestamp,
    record = .block number block.hash block.parentHash block.stateRoot timestamp ∧
      parseQuantity number = .ok block.number ∧ parseQuantity timestamp = .ok block.timestamp

/-- The end of a block: its number and how many events it has, as a `u64`. -/
def SpellsEnd (record : LineRecord) (group : BlockGroup) : Prop :=
  ∃ number count, record = .blockEnd number count ∧ parseQuantity number = .ok group.block.number ∧
    parseQuantity count = .ok (UInt64.ofNat group.events.length)

structure GroupLines.Spells (env : Externals) (lines : GroupLines) (group : BlockGroup) : Prop where
  opening : SpellsBlock lines.opening group.block
  events : List.Forall₂ (SpellsEvent env group.block.number) lines.events group.events
  accounts : (group.accounts.map AccountEvent.address).Pairwise (· < ·)
  storage : (group.storage.map StorageEvent.order).Pairwise (· < ·)
  closing : SpellsEnd lines.closing group

def Mode.text : Mode → Text
  | .anchor => anchorText
  | .delta => deltaText

def SpellsHeader (record : LineRecord) (header : PackageHeader) : Prop :=
  ∃ chainId anchorNumber precedingNumber,
    record = .header exportSchema chainId header.genesisHash header.mode.text anchorNumber
      header.anchorHash precedingNumber header.precedingHash ∧
    parseQuantity chainId = .ok header.chainId ∧
    anchorNumber.map parseQuantity = header.anchorNumber.map .ok ∧
    precedingNumber.map parseQuantity = header.precedingNumber.map .ok

def SpellsTrailer (record : LineRecord) (last : BlockMeta) (blocks : Nat) : Prop :=
  ∃ number count, record = .trailer number last.hash count ∧ parseQuantity number = .ok last.number ∧
    parseQuantity count = .ok (UInt64.ofNat blocks)

/-- The second block is the child of the first. -/
def BlockMeta.Child (first second : BlockMeta) : Prop :=
  first.number.toNat + 1 = second.number.toNat ∧ second.parentHash = first.hash

/-- The header agrees with the first block. -/
structure PackageHeader.Precedes (header : PackageHeader) (first : BlockMeta) : Prop where
  anchor : header.mode = .anchor →
    header.anchorNumber = some first.number ∧ header.anchorHash = some first.hash
  delta : header.mode = .delta →
    (∃ number, header.precedingNumber = some number ∧ number.toNat + 1 = first.number.toNat) ∧
      header.precedingHash = some first.parentHash
  genesis : first.number = 0 → first.hash = header.genesisHash

/-- The package that a header and groups describe. -/
def packageOf (header : PackageHeader) (inputSha256 : Hash32) (first last : BlockMeta)
    (groups : List BlockGroup) : Package :=
  ⟨header.mode, header.precedingNumber, header.precedingHash, inputSha256,
    ⟨header.chainId, header.genesisHash, first.number, last.number, groups.map BlockGroup.block,
      groups.flatMap BlockGroup.accounts, groups.flatMap BlockGroup.storage,
      groups.flatMap BlockGroup.code⟩⟩

/-- The records spell the package. -/
structure Spelled (env : Externals) (records : List LineRecord) (header : PackageHeader)
    (groups : List BlockGroup) (first last : BlockMeta) : Prop where
  lines : ∃ opening lines closing,
    records = opening :: (lines.flatMap GroupLines.records ++ [closing]) ∧
      SpellsHeader opening header ∧ List.Forall₂ (GroupLines.Spells env) lines groups ∧
      SpellsTrailer closing last groups.length
  head : (groups.map BlockGroup.block).head? = some first
  tail : (groups.map BlockGroup.block).getLast? = some last
  precedes : header.Precedes first
  chain : (groups.map BlockGroup.block).IsChain BlockMeta.Child
  codes : ((groups.flatMap BlockGroup.code).map CodeBlob.codeHash).Nodup

/-! The machine on one event. -/

section

variable {env : Externals} {header : PackageHeader} {state next final : ParseState}
  {block : BlockMeta} {record : LineRecord} {event : PackageEvent} {events : List PackageEvent}
  {records rest : List LineRecord}

def ParseState.addEvent (state : ParseState) : PackageEvent → ParseState
  | .account event => { state with
      accounts := state.accounts ++ [event]
      lastAccount := some event.address
      accountKeys := event.address :: state.accountKeys
      eventCount := state.eventCount + 1 }
  | .storage event => { state with
      storage := state.storage ++ [event]
      lastStorage := some event.order
      storageKeys := (event.address, event.incarnation, event.slot) :: state.storageKeys
      eventCount := state.eventCount + 1 }
  | .code blob => { state with
      code := state.code ++ [blob]
      codeHashes := blob.codeHash :: state.codeHashes
      eventCount := state.eventCount + 1 }

/-- The order and uniqueness checks of one event. -/
def ParseState.Admits (state : ParseState) : PackageEvent → Prop
  | .account event => (∀ last ∈ state.lastAccount, last < event.address) ∧
      event.address ∉ state.accountKeys
  | .storage event => (∀ last ∈ state.lastStorage, last < event.order) ∧
      (event.address, event.incarnation, event.slot) ∉ state.storageKeys
  | .code blob => blob.codeHash ∉ state.codeHashes

theorem checkedCurrent_eq_ok {text : Text} {number : UInt64} (opened : state.current = some block) :
    checkedCurrent state.current text = .ok number ↔
      parseQuantity text = .ok number ∧ number = block.number := by
  simp only [checkedCurrent, bind_eq_ok, guard_eq_ok, not_not, opened, Option.map_some,
    Option.some.injEq, Except.ok.injEq]
  constructor
  · intro ⟨value, parsed, same, done⟩
    exact ⟨done ▸ parsed, done ▸ same.symm⟩
  · intro ⟨parsed, same⟩
    exact ⟨number, parsed, same.symm, rfl⟩

theorem accountFields_eq_ok {event : AccountEvent} {nonce balance : Option Text}
    {codeHash : Option Hash32} :
    accountFields event.existing nonce balance codeHash =
      .ok (event.nonce, event.balance, event.codeHash) ↔ SpellsState nonce balance codeHash event := by
  unfold accountFields SpellsState
  cases event.existing with
  | false =>
      simp only [Bool.false_eq_true, if_false, guard_eq_ok, Except.ok.injEq, Prod.mk.injEq, not_or,
        not_not]
      tauto
  | true =>
      simp only [if_true]
      cases nonce with
      | none => simp
      | some nonce =>
          cases balance with
          | none => simp [bind_eq_ok]
          | some balance =>
              cases codeHash with
              | none => simp [bind_eq_ok]
              | some codeHash => simp [bind_eq_ok]

theorem step_account {number incarnation : Text} {address : Address} {existing : Bool}
    {nonce balance : Option Text} {codeHash : Option Hash32} (opened : state.current = some block)
    (stepped : state.step env header
      (.account number address existing incarnation nonce balance codeHash) = .ok next) :
    ∃ event, SpellsEvent env block.number
        (.account number address existing incarnation nonce balance codeHash) event ∧
      state.Admits event ∧ next = state.addEvent event := by
  obtain ⟨_, current, stepped⟩ := bind_eq_ok.mp stepped
  obtain ⟨parsed, rfl⟩ := (checkedCurrent_eq_ok opened).mp current
  obtain ⟨sorted, stepped⟩ := guard_eq_ok.mp stepped
  obtain ⟨fresh, stepped⟩ := guard_eq_ok.mp stepped
  obtain ⟨⟨nonce', balance', codeHash'⟩, fields, stepped⟩ := bind_eq_ok.mp stepped
  obtain ⟨incarnation', counted, done⟩ := bind_eq_ok.mp stepped
  cases done
  let event : AccountEvent := ⟨block.number, address, existing, incarnation', nonce', balance', codeHash'⟩
  simp only [not_exists, not_and, not_le] at sorted
  exact ⟨.account event, @SpellsEvent.account _ _ _ _ _ _ _ event parsed rfl counted
    (accountFields_eq_ok.mp fields), ⟨sorted, fresh⟩, rfl⟩

theorem step_storage {number incarnation : Text} {address : Address} {slot value : Hash32}
    (opened : state.current = some block)
    (stepped : state.step env header (.storage number address incarnation slot value) = .ok next) :
    ∃ event, SpellsEvent env block.number (.storage number address incarnation slot value) event ∧
      state.Admits event ∧ next = state.addEvent event := by
  obtain ⟨_, current, stepped⟩ := bind_eq_ok.mp stepped
  obtain ⟨parsed, rfl⟩ := (checkedCurrent_eq_ok opened).mp current
  obtain ⟨incarnation', counted, stepped⟩ := bind_eq_ok.mp stepped
  obtain ⟨sorted, stepped⟩ := guard_eq_ok.mp stepped
  obtain ⟨fresh, done⟩ := guard_eq_ok.mp stepped
  cases done
  let event : StorageEvent := ⟨block.number, address, incarnation', slot, value⟩
  simp only [not_exists, not_and, not_le] at sorted
  exact ⟨.storage event, @SpellsEvent.storage _ _ _ _ event parsed rfl counted, ⟨sorted, fresh⟩, rfl⟩

theorem step_code {codeHash : Hash32} {text : Text} (opened : state.current = some block)
    (stepped : state.step env header (.code codeHash text) = .ok next) :
    ∃ event, SpellsEvent env block.number (.code codeHash text) event ∧
      state.Admits event ∧ next = state.addEvent event := by
  simp only [ParseState.step, opened] at stepped
  obtain ⟨bytes, parsed, stepped⟩ := bind_eq_ok.mp stepped
  obtain ⟨digest, stepped⟩ := guard_eq_ok.mp stepped
  obtain ⟨fresh, done⟩ := guard_eq_ok.mp stepped
  cases done
  let blob : CodeBlob := ⟨block.number, codeHash, bytes⟩
  exact ⟨.code blob, @SpellsEvent.code _ _ _ blob rfl parsed (not_not.mp digest), fresh,
    by simp only [ParseState.addEvent, opened, blob]⟩

/-- A spelled event that passes the checks is added. -/
theorem step_event (opened : state.current = some block)
    (spells : SpellsEvent env block.number record event) (admits : state.Admits event) :
    state.step env header record = .ok (state.addEvent event) := by
  cases spells with
  | @account text incarnation nonce balance codeHash event parsed same counted fields =>
      have current := (checkedCurrent_eq_ok opened).mpr ⟨parsed, rfl⟩
      have sorted : ¬ ∃ last ∈ state.lastAccount, event.address ≤ last := by
        simpa only [not_exists, not_and, not_le] using admits.1
      simp only [ParseState.step, current, ok_bind, if_neg sorted, if_neg admits.2,
        accountFields_eq_ok.mpr fields, counted, ← same]
      rfl
  | @storage text incarnation event parsed same counted =>
      have current := (checkedCurrent_eq_ok opened).mpr ⟨parsed, rfl⟩
      have sorted : ¬ ∃ last ∈ state.lastStorage,
          toLex (event.address, toLex (event.incarnation, event.slot)) ≤ last :=
        fun ⟨last, known, low⟩ => not_lt_of_ge low (admits.1 last known)
      simp only [ParseState.step, current, ok_bind, if_neg sorted, if_neg admits.2, counted, ← same]
      rfl
  | @code text blob same parsed digest =>
      have fresh : blob.codeHash ∉ state.codeHashes := admits
      simp only [ParseState.step, opened, parsed, ok_bind, digest, ne_eq, not_true_eq_false, if_false,
        if_neg fresh, ← same, ParseState.addEvent]

/-! The machine on the events of a block. -/

def ParseState.addEvents (state : ParseState) (events : List PackageEvent) : ParseState :=
  events.foldl ParseState.addEvent state

/-- The checks of the events of a block, one after the other. -/
def ParseState.AdmitsAll (state : ParseState) : List PackageEvent → Prop
  | [] => True
  | event :: events => state.Admits event ∧ (state.addEvent event).AdmitsAll events

/-- What events add to a state. -/
structure ParseState.Extended (state : ParseState) (events : List PackageEvent) (next : ParseState) :
    Prop where
  blocks : next.blocks = state.blocks
  current : next.current = state.current
  trailer : next.trailer = state.trailer
  accounts : next.accounts = state.accounts ++ events.filterMap PackageEvent.account?
  storage : next.storage = state.storage ++ events.filterMap PackageEvent.storage?
  code : next.code = state.code ++ events.filterMap PackageEvent.code?
  eventCount : next.eventCount = state.eventCount + UInt64.ofNat events.length
  codeHashes : ∀ hash, hash ∈ next.codeHashes ↔ hash ∈ state.codeHashes ∨
    hash ∈ (events.filterMap PackageEvent.code?).map CodeBlob.codeHash

theorem ParseState.Extended.trans {mid : ParseState} {more : List PackageEvent}
    (left : state.Extended events mid) (right : mid.Extended more next) :
    state.Extended (events ++ more) next where
  blocks := right.blocks.trans left.blocks
  current := right.current.trans left.current
  trailer := right.trailer.trans left.trailer
  accounts := by simp [right.accounts, left.accounts]
  storage := by simp [right.storage, left.storage]
  code := by simp [right.code, left.code]
  eventCount := by simp [right.eventCount, left.eventCount, UInt64.add_assoc]
  codeHashes := by
    intro hash
    simp only [right.codeHashes, left.codeHashes, List.filterMap_append, List.map_append,
      List.mem_append, or_assoc]

theorem addEvent_extended (state : ParseState) (event : PackageEvent) :
    state.Extended [event] (state.addEvent event) := by
  cases event <;> constructor <;>
    simp [ParseState.addEvent, PackageEvent.account?, PackageEvent.storage?, PackageEvent.code?,
      or_comm]

theorem addEvents_extended (state : ParseState) (events : List PackageEvent) :
    state.Extended events (state.addEvents events) := by
  induction events generalizing state with
  | nil => constructor <;> simp [ParseState.addEvents]
  | cons event events ih => exact (addEvent_extended state event).trans (ih (state.addEvent event))

/-- The recorded keys of a block are not above the latest of their kind. -/
structure ParseState.Ordered (state : ParseState) : Prop where
  accounts : ∀ key ∈ state.accountKeys, ∃ last ∈ state.lastAccount, key ≤ last
  storage : ∀ key ∈ state.storageKeys, ∃ last ∈ state.lastStorage,
    toLex (key.1, toLex (key.2.1, key.2.2)) ≤ last

theorem ParseState.Ordered.addEvent (ordered : state.Ordered) (admits : state.Admits event) :
    (state.addEvent event).Ordered := by
  cases event with
  | account event =>
      refine ⟨?_, ordered.storage⟩
      intro key member
      refine ⟨event.address, rfl, ?_⟩
      obtain rfl | inside := List.mem_cons.mp member
      · exact le_refl _
      · obtain ⟨last, known, low⟩ := ordered.accounts key inside
        exact low.trans (admits.1 last known).le
  | storage event =>
      refine ⟨ordered.accounts, ?_⟩
      intro key member
      refine ⟨event.order, rfl, ?_⟩
      obtain rfl | inside := List.mem_cons.mp member
      · exact le_refl _
      · obtain ⟨last, known, low⟩ := ordered.storage key inside
        exact low.trans (admits.1 last known).le
  | code blob => exact ⟨ordered.accounts, ordered.storage⟩

/-- Keys that rise, all above the latest one before them. -/
def RisesFrom {α : Type} [LT α] (last : Option α) (keys : List α) : Prop :=
  (∀ key ∈ keys, ∀ low ∈ last, low < key) ∧ keys.Pairwise (· < ·)

theorem risesFrom_cons {α : Type} [Preorder α] {last : Option α} {key : α} {keys : List α} :
    RisesFrom last (key :: keys) ↔ (∀ low ∈ last, low < key) ∧ RisesFrom (some key) keys := by
  unfold RisesFrom
  simp only [List.forall_mem_cons, List.pairwise_cons, Option.mem_def, Option.some.injEq,
    forall_eq']
  constructor
  · intro ⟨⟨first, _⟩, above, sorted⟩
    exact ⟨first, above, sorted⟩
  · intro ⟨first, above, sorted⟩
    exact ⟨⟨first, fun other member low known => (first low known).trans (above other member)⟩,
      above, sorted⟩

/-- In a block with ordered keys the checks say that accounts and storage rise
and that code hashes are new. -/
theorem admitsAll_iff (ordered : state.Ordered) :
    state.AdmitsAll events ↔
      RisesFrom state.lastAccount ((events.filterMap PackageEvent.account?).map AccountEvent.address) ∧
      RisesFrom state.lastStorage ((events.filterMap PackageEvent.storage?).map StorageEvent.order) ∧
      ((events.filterMap PackageEvent.code?).map CodeBlob.codeHash).Nodup ∧
      ∀ hash ∈ (events.filterMap PackageEvent.code?).map CodeBlob.codeHash,
        hash ∉ state.codeHashes := by
  induction events generalizing state with
  | nil => simp [ParseState.AdmitsAll, RisesFrom]
  | cons event events ih =>
      have next := fun (admits : state.Admits event) => ih (ordered.addEvent admits)
      cases event with
      | account event =>
          have fresh : (∀ low ∈ state.lastAccount, low < event.address) →
              event.address ∉ state.accountKeys := by
            intro above member
            obtain ⟨last, known, low⟩ := ordered.accounts _ member
            exact not_lt_of_ge low (above last known)
          simp only [ParseState.AdmitsAll, PackageEvent.account?, PackageEvent.storage?,
            PackageEvent.code?, List.filterMap_cons, List.map_cons, risesFrom_cons]
          constructor
          · intro ⟨admits, rest⟩
            obtain ⟨accounts, others⟩ := (next admits).mp rest
            exact ⟨⟨admits.1, accounts⟩, others⟩
          · intro ⟨⟨above, accounts⟩, others⟩
            have admits : state.Admits (.account event) := ⟨above, fresh above⟩
            exact ⟨admits, (next admits).mpr ⟨accounts, others⟩⟩
      | storage event =>
          have fresh : (∀ low ∈ state.lastStorage, low < event.order) →
              (event.address, event.incarnation, event.slot) ∉ state.storageKeys := by
            intro above member
            obtain ⟨last, known, low⟩ := ordered.storage _ member
            exact not_lt_of_ge low (above last known)
          simp only [ParseState.AdmitsAll, PackageEvent.account?, PackageEvent.storage?,
            PackageEvent.code?, List.filterMap_cons, List.map_cons, risesFrom_cons]
          constructor
          · intro ⟨admits, rest⟩
            obtain ⟨accounts, storage, others⟩ := (next admits).mp rest
            exact ⟨accounts, ⟨admits.1, storage⟩, others⟩
          · intro ⟨accounts, ⟨above, storage⟩, others⟩
            have admits : state.Admits (.storage event) := ⟨above, fresh above⟩
            exact ⟨admits, (next admits).mpr ⟨accounts, storage, others⟩⟩
      | code blob =>
          simp only [ParseState.AdmitsAll, PackageEvent.account?, PackageEvent.storage?,
            PackageEvent.code?, List.filterMap_cons, List.map_cons, List.nodup_cons,
            List.forall_mem_cons]
          constructor
          · intro ⟨admits, rest⟩
            obtain ⟨accounts, storage, unique, disjoint⟩ := (next admits).mp rest
            refine ⟨accounts, storage, ⟨?_, unique⟩, admits, ?_⟩
            · exact fun member => disjoint _ member (by simp [ParseState.addEvent])
            · exact fun hash member known => disjoint hash member (by simp [ParseState.addEvent, known])
          · intro ⟨accounts, storage, ⟨new, unique⟩, admits, disjoint⟩
            refine ⟨admits, (next admits).mpr ⟨accounts, storage, unique, ?_⟩⟩
            intro hash member known
            obtain rfl | old := List.mem_cons.mp known
            · exact new member
            · exact disjoint hash member old

theorem steps_cons (untrailed : state.trailer = none) :
    state.steps env header (record :: rest) =
      (state.step env header record >>= fun next => next.steps env header rest) := by
  rw [ParseState.steps, if_neg (by simp [untrailed])]

theorem steps_events {lines : List LineRecord} (opened : state.current = some block)
    (untrailed : state.trailer = none)
    (spelled : List.Forall₂ (SpellsEvent env block.number) lines events)
    (admits : state.AdmitsAll events) :
    state.steps env header (lines ++ rest) = (state.addEvents events).steps env header rest := by
  induction spelled generalizing state with
  | nil => rfl
  | @cons line event lines events spells _ ih =>
      have extended := addEvent_extended state event
      rw [List.cons_append, steps_cons untrailed, step_event opened spells admits.1, ok_bind]
      exact ih (extended.current.trans opened) (extended.trailer.trans untrailed) admits.2

/-! The machine on a group. -/

def ParseState.openBlock (state : ParseState) (block : BlockMeta) : ParseState :=
  { state with
    current := some block
    eventCount := 0
    lastAccount := none
    lastStorage := none
    accountKeys := []
    storageKeys := [] }

def ParseState.closeBlock (state : ParseState) (block : BlockMeta) : ParseState :=
  { state with blocks := state.blocks ++ [block], current := none }

def ParseState.addGroup (state : ParseState) (group : BlockGroup) : ParseState :=
  ((state.openBlock group.block).addEvents group.events).closeBlock group.block

theorem openBlock_current (state : ParseState) (block : BlockMeta) :
    (state.openBlock block).current = some block := rfl

theorem openBlock_trailer (state : ParseState) (block : BlockMeta) :
    (state.openBlock block).trailer = state.trailer := rfl

theorem openBlock_ordered (state : ParseState) (block : BlockMeta) :
    (state.openBlock block).Ordered := by
  constructor <;> simp [ParseState.openBlock]

theorem step_block :
    state.step env header record = .ok next ∧ (∃ n h p r t, record = .block n h p r t) ↔
      state.current = none ∧ ∃ block, SpellsBlock record block ∧
        checkSuccession header state block.number block.parentHash = .ok () ∧
        next = state.openBlock block := by
  constructor
  · intro ⟨stepped, number, hash, parentHash, stateRoot, timestamp, same⟩
    subst same
    obtain ⟨closed, stepped⟩ := guard_eq_ok.mp stepped
    obtain ⟨number', parsed, stepped⟩ := bind_eq_ok.mp stepped
    obtain ⟨_, checked, stepped⟩ := bind_eq_ok.mp stepped
    obtain ⟨timestamp', timed, done⟩ := bind_eq_ok.mp stepped
    cases done
    exact ⟨not_not.mp closed, ⟨number', hash, parentHash, stateRoot, timestamp'⟩,
      ⟨number, timestamp, rfl, parsed, timed⟩, checked, rfl⟩
  · intro ⟨closed, block, ⟨number, timestamp, same, parsed, timed⟩, checked, done⟩
    subst same done
    refine ⟨?_, _, _, _, _, _, rfl⟩
    simp only [ParseState.step, closed, ne_eq, not_true_eq_false, if_false, parsed, ok_bind, checked,
      timed]
    rfl

theorem step_end (opened : state.current = some block) :
    state.step env header record = .ok next ∧ (∃ n c, record = .blockEnd n c) ↔
      (∃ number count, record = .blockEnd number count ∧ parseQuantity number = .ok block.number ∧
        parseQuantity count = .ok state.eventCount) ∧ next = state.closeBlock block := by
  constructor
  · intro ⟨stepped, number, count, same⟩
    subst same
    obtain ⟨number', current, stepped⟩ := bind_eq_ok.mp stepped
    obtain ⟨parsed, rfl⟩ := (checkedCurrent_eq_ok opened).mp current
    obtain ⟨count', counted, stepped⟩ := bind_eq_ok.mp stepped
    obtain ⟨matched, stepped⟩ := guard_eq_ok.mp stepped
    simp only [opened, Except.ok.injEq] at stepped
    exact ⟨⟨number, count, rfl, parsed, not_not.mp matched ▸ counted⟩, stepped.symm⟩
  · intro ⟨⟨number, count, same, parsed, counted⟩, done⟩
    subst same done
    have current := (checkedCurrent_eq_ok opened).mpr ⟨parsed, rfl⟩
    refine ⟨?_, _, _, rfl⟩
    simp only [ParseState.step, current, ok_bind, counted, ne_eq, not_true_eq_false, if_false]
    simp only [opened, ParseState.closeBlock]

/-- Inside a block the machine reads events up to the end of the block. -/
theorem steps_inside (opened : state.current = some block) (untrailed : state.trailer = none)
    (ran : state.steps env header records = .ok final) (trailed : final.trailer ≠ none) :
    ∃ lines events closing rest, records = lines ++ closing :: rest ∧
      List.Forall₂ (SpellsEvent env block.number) lines events ∧ state.AdmitsAll events ∧
      (∃ number count, closing = .blockEnd number count ∧ parseQuantity number = .ok block.number ∧
        parseQuantity count = .ok (state.addEvents events).eventCount) ∧
      ((state.addEvents events).closeBlock block).steps env header rest = .ok final := by
  induction records generalizing state with
  | nil =>
      cases ran
      exact absurd untrailed trailed
  | cons record records ih =>
      rw [steps_cons untrailed] at ran
      obtain ⟨next, stepped, onward⟩ := bind_eq_ok.mp ran
      -- An event is taken off the front, and the rest of the block is as before.
      have taken : (∃ event, SpellsEvent env block.number record event ∧ state.Admits event ∧
          next = state.addEvent event) → ∃ lines events closing rest,
            record :: records = lines ++ closing :: rest ∧
            List.Forall₂ (SpellsEvent env block.number) lines events ∧ state.AdmitsAll events ∧
            (∃ number count, closing = .blockEnd number count ∧
              parseQuantity number = .ok block.number ∧
              parseQuantity count = .ok (state.addEvents events).eventCount) ∧
            ((state.addEvents events).closeBlock block).steps env header rest = .ok final := by
        intro ⟨event, spells, admits, same⟩
        have extended := addEvent_extended state event
        rw [same] at onward
        obtain ⟨lines, events, closing, rest, split, spelled, admitted, ended, after⟩ :=
          ih (extended.current.trans opened) (extended.trailer.trans untrailed) onward
        exact ⟨record :: lines, event :: events, closing, rest, by rw [split, List.cons_append],
          .cons spells spelled, ⟨admits, admitted⟩, ended, after⟩
      cases record with
      | header => exact absurd stepped (bail_ne_ok _ _)
      | block => exact absurd opened (by simp [not_not.mp (guard_eq_ok.mp stepped).1])
      | account => exact taken (step_account opened stepped)
      | storage => exact taken (step_storage opened stepped)
      | code => exact taken (step_code opened stepped)
      | trailer => exact absurd opened (by simp [not_not.mp (guard_eq_ok.mp stepped).1])
      | blockEnd number count =>
          obtain ⟨ended, same⟩ := (step_end opened).mp ⟨stepped, number, count, rfl⟩
          rw [same] at onward
          exact ⟨[], [], .blockEnd number count, records, rfl, .nil, trivial, ended, onward⟩

/-- What a group needs of the groups before it. -/
structure ParseState.AdmitsGroup (header : PackageHeader) (state : ParseState) (group : BlockGroup) :
    Prop where
  succession : checkSuccession header state group.block.number group.block.parentHash = .ok ()
  unique : (group.code.map CodeBlob.codeHash).Nodup
  fresh : ∀ hash ∈ group.code.map CodeBlob.codeHash, hash ∉ state.codeHashes

theorem openBlock_admitsAll {group : BlockGroup} :
    (state.openBlock group.block).AdmitsAll group.events ↔
      ((group.accounts.map AccountEvent.address).Pairwise (· < ·)) ∧
      ((group.storage.map StorageEvent.order).Pairwise (· < ·)) ∧
      (group.code.map CodeBlob.codeHash).Nodup ∧
      ∀ hash ∈ group.code.map CodeBlob.codeHash, hash ∉ state.codeHashes := by
  rw [admitsAll_iff (openBlock_ordered state group.block)]
  simp [RisesFrom, ParseState.openBlock, BlockGroup.accounts, BlockGroup.storage, BlockGroup.code]

theorem openBlock_eventCount (state : ParseState) (group : BlockGroup) :
    ((state.openBlock group.block).addEvents group.events).eventCount =
      UInt64.ofNat group.events.length := by
  rw [(addEvents_extended _ _).eventCount]
  simp [ParseState.openBlock]

theorem steps_group {lines : GroupLines} {group : BlockGroup} (closed : state.current = none)
    (untrailed : state.trailer = none) (spells : lines.Spells env group)
    (admits : state.AdmitsGroup header group) :
    state.steps env header (lines.records ++ rest) = (state.addGroup group).steps env header rest := by
  have opening := (@step_block env header _ _ _).mpr
    ⟨closed, group.block, spells.opening, admits.succession, rfl⟩
  have extended := addEvents_extended (state.openBlock group.block) group.events
  have inside : (state.openBlock group.block).AdmitsAll group.events :=
    openBlock_admitsAll.mpr ⟨spells.accounts, spells.storage, admits.unique, admits.fresh⟩
  obtain ⟨number, count, closing, parsed, counted⟩ := spells.closing
  rw [← openBlock_eventCount state group] at counted
  have ended := (@step_end env header _ _ _ _ extended.current).mpr
    ⟨⟨number, count, closing, parsed, counted⟩, rfl⟩
  rw [GroupLines.records, List.cons_append, steps_cons untrailed, opening.1, ok_bind, List.append_assoc,
    steps_events (openBlock_current _ _) ((openBlock_trailer _ _).trans untrailed) spells.events inside,
    List.singleton_append, steps_cons (extended.trailer.trans untrailed), ended.1, ok_bind]
  rfl

theorem step_trailer {number count : Text} {hash : Hash32} {endNumber blockCount : UInt64}
    (closed : state.current = none) (numbered : parseQuantity number = .ok endNumber)
    (counted : parseQuantity count = .ok blockCount) :
    state.step env header (.trailer number hash count) =
      .ok { state with trailer := some (endNumber, hash, blockCount) } := by
  simp only [ParseState.step, closed, ne_eq, not_true_eq_false, if_false, numbered, counted, ok_bind]

/-- Between blocks the machine reads a group, or the trailer and nothing more. -/
theorem steps_between (closed : state.current = none) (untrailed : state.trailer = none)
    (ran : state.steps env header records = .ok final) (trailed : final.trailer ≠ none) :
    (∃ number hash count endNumber blockCount, records = [.trailer number hash count] ∧
      parseQuantity number = .ok endNumber ∧ parseQuantity count = .ok blockCount ∧
      final = { state with trailer := some (endNumber, hash, blockCount) }) ∨
    ∃ (lines : GroupLines) (group : BlockGroup) (rest : List LineRecord),
      records = lines.records ++ rest ∧ lines.Spells env group ∧
      state.AdmitsGroup header group ∧ (state.addGroup group).steps env header rest = .ok final := by
  cases records with
  | nil =>
      cases ran
      exact absurd untrailed trailed
  | cons record records =>
      rw [steps_cons untrailed] at ran
      obtain ⟨next, stepped, onward⟩ := bind_eq_ok.mp ran
      cases record with
      | header => exact absurd stepped (bail_ne_ok _ _)
      | account number =>
          obtain ⟨_, current, _⟩ := bind_eq_ok.mp stepped
          obtain ⟨_, _, wrong⟩ := bind_eq_ok.mp current
          simp [closed] at wrong
      | storage number =>
          obtain ⟨_, current, _⟩ := bind_eq_ok.mp stepped
          obtain ⟨_, _, wrong⟩ := bind_eq_ok.mp current
          simp [closed] at wrong
      | code => simp [ParseState.step, closed] at stepped
      | blockEnd number =>
          obtain ⟨_, current, _⟩ := bind_eq_ok.mp stepped
          obtain ⟨_, _, wrong⟩ := bind_eq_ok.mp current
          simp [closed] at wrong
      | trailer number hash count =>
          obtain ⟨_, stepped⟩ := guard_eq_ok.mp stepped
          obtain ⟨endNumber, parsed, stepped⟩ := bind_eq_ok.mp stepped
          obtain ⟨blockCount, counted, done⟩ := bind_eq_ok.mp stepped
          cases done
          cases records with
          | nil =>
              cases onward
              exact .inl ⟨number, hash, count, endNumber, blockCount, rfl, parsed, counted, rfl⟩
          | cons => simp [ParseState.steps] at onward
      | block number hash parentHash stateRoot timestamp =>
          obtain ⟨_, block, spells, succession, same⟩ :=
            step_block.mp ⟨stepped, number, hash, parentHash, stateRoot, timestamp, rfl⟩
          subst same
          obtain ⟨lines, events, closing, rest, split, spelled, admitted, ended, after⟩ :=
            steps_inside (openBlock_current _ _) ((openBlock_trailer _ _).trans untrailed) onward trailed
          let group : BlockGroup := ⟨block, events⟩
          obtain ⟨accounts, storage, unique, fresh⟩ :=
            (openBlock_admitsAll : (state.openBlock group.block).AdmitsAll group.events ↔ _).mp admitted
          rw [openBlock_eventCount state group] at ended
          refine .inr ⟨⟨_, lines, closing⟩, group, rest, ?_, ⟨spells, spelled, accounts, storage, ended⟩,
            ⟨succession, unique, fresh⟩, after⟩
          simp [GroupLines.records, split]

/-! The machine on all groups. -/

variable {groups : List BlockGroup} {lines : List GroupLines}

def ParseState.addGroups (state : ParseState) (groups : List BlockGroup) : ParseState :=
  groups.foldl ParseState.addGroup state

def ParseState.AdmitsGroups (header : PackageHeader) : ParseState → List BlockGroup → Prop
  | _, [] => True
  | state, group :: groups =>
      state.AdmitsGroup header group ∧ (state.addGroup group).AdmitsGroups header groups

/-- What groups add to a state between blocks. -/
structure ParseState.Grown (state : ParseState) (groups : List BlockGroup) (next : ParseState) :
    Prop where
  closed : state.current = none → next.current = none
  trailer : next.trailer = state.trailer
  blocks : next.blocks = state.blocks ++ groups.map BlockGroup.block
  accounts : next.accounts = state.accounts ++ groups.flatMap BlockGroup.accounts
  storage : next.storage = state.storage ++ groups.flatMap BlockGroup.storage
  code : next.code = state.code ++ groups.flatMap BlockGroup.code
  codeHashes : ∀ hash, hash ∈ next.codeHashes ↔ hash ∈ state.codeHashes ∨
    hash ∈ (groups.flatMap BlockGroup.code).map CodeBlob.codeHash

theorem ParseState.Grown.trans {mid : ParseState} {more : List BlockGroup}
    (left : state.Grown groups mid) (right : mid.Grown more next) :
    state.Grown (groups ++ more) next where
  closed := right.closed ∘ left.closed
  trailer := right.trailer.trans left.trailer
  blocks := by simp [right.blocks, left.blocks]
  accounts := by simp [right.accounts, left.accounts]
  storage := by simp [right.storage, left.storage]
  code := by simp [right.code, left.code]
  codeHashes := by
    intro hash
    simp only [right.codeHashes, left.codeHashes, List.flatMap_append, List.map_append,
      List.mem_append, or_assoc]

theorem addGroup_grown (state : ParseState) (group : BlockGroup) :
    state.Grown [group] (state.addGroup group) := by
  have extended := addEvents_extended (state.openBlock group.block) group.events
  exact
    { closed := fun _ => rfl
      trailer := extended.trailer
      blocks := congrArg (· ++ [group.block]) extended.blocks
      accounts := extended.accounts.trans (by simp [ParseState.openBlock, BlockGroup.accounts])
      storage := extended.storage.trans (by simp [ParseState.openBlock, BlockGroup.storage])
      code := extended.code.trans (by simp [ParseState.openBlock, BlockGroup.code])
      codeHashes := fun hash => (extended.codeHashes hash).trans
        (by simp [ParseState.openBlock, BlockGroup.code]) }

theorem addGroups_grown (state : ParseState) (groups : List BlockGroup) :
    state.Grown groups (state.addGroups groups) := by
  induction groups generalizing state with
  | nil => constructor <;> simp [ParseState.addGroups]
  | cons group groups ih => exact (addGroup_grown state group).trans (ih (state.addGroup group))

theorem steps_groups (closed : state.current = none) (untrailed : state.trailer = none)
    (spelled : List.Forall₂ (GroupLines.Spells env) lines groups)
    (admits : state.AdmitsGroups header groups) :
    state.steps env header (lines.flatMap GroupLines.records ++ rest) =
      (state.addGroups groups).steps env header rest := by
  induction spelled generalizing state with
  | nil => rfl
  | @cons first group lines groups spells _ ih =>
      have grown := addGroup_grown state group
      rw [List.flatMap_cons, List.append_assoc, steps_group closed untrailed spells admits.1]
      exact ih (grown.closed closed) (grown.trailer.trans untrailed) admits.2

/-- Between blocks the machine reads groups up to the trailer. -/
theorem steps_all (closed : state.current = none) (untrailed : state.trailer = none)
    (ran : state.steps env header records = .ok final) (trailed : final.trailer ≠ none) :
    ∃ lines groups number hash count endNumber blockCount,
      records = lines.flatMap GroupLines.records ++ [.trailer number hash count] ∧
      List.Forall₂ (GroupLines.Spells env) lines groups ∧ state.AdmitsGroups header groups ∧
      parseQuantity number = .ok endNumber ∧ parseQuantity count = .ok blockCount ∧
      final = { state.addGroups groups with trailer := some (endNumber, hash, blockCount) } := by
  -- A group has at least two records, so what is left gets shorter.
  induction length : records.length using Nat.strong_induction_on generalizing state records with
  | _ size ih =>
      obtain ⟨number, hash, count, endNumber, blockCount, same, parsed, counted, done⟩ |
        ⟨first, group, rest, same, spells, admits, onward⟩ := steps_between closed untrailed ran trailed
      · exact ⟨[], [], number, hash, count, endNumber, blockCount, same, .nil, trivial, parsed,
          counted, done⟩
      · have grown := addGroup_grown state group
        have shorter : rest.length < size := by
          rw [← length, same]
          simp [GroupLines.records]
          omega
        obtain ⟨lines, groups, number, hash, count, endNumber, blockCount, split, spelled, admitted,
            parsed, counted, done⟩ :=
          ih rest.length shorter (grown.closed closed) (grown.trailer.trans untrailed) onward rfl
        exact ⟨first :: lines, group :: groups, number, hash, count, endNumber, blockCount,
          by rw [same, split, List.flatMap_cons, List.append_assoc], .cons spells spelled,
          ⟨admits, admitted⟩, parsed, counted, done⟩

/-! The checks over all groups. -/

theorem checkSuccession_eq_ok :
    checkSuccession header state block.number block.parentHash = .ok () ↔
      (∀ previous ∈ state.blocks.getLast?, previous.Child block) ∧
      (state.blocks = [] → header.mode = .delta →
        block.parentHash = header.precedingHash.getD Fixed.zero) := by
  unfold checkSuccession
  cases found : state.blocks.getLast? with
  | none =>
      have empty := List.getLast?_eq_none_iff.mp found
      simp only [guard_eq_ok, empty]
      simp
  | some previous =>
      have nonempty : state.blocks ≠ [] := by
        intro empty
        simp [empty] at found
      simp only [guard_eq_ok, not_not, checkedSucc_eq_some, nonempty, IsEmpty.forall_iff, and_true,
        Option.mem_def, Option.some.injEq, forall_eq', BlockMeta.Child]

theorem isChain_toList_append {α : Type} {related : α → α → Prop} {last : Option α} {value : α}
    {rest : List α} :
    (last.toList ++ value :: rest).IsChain related ↔
      (∀ previous ∈ last, related previous value) ∧ (value :: rest).IsChain related := by
  cases last <;> simp

theorem admitsGroups_iff :
    state.AdmitsGroups header groups ↔
      (state.blocks.getLast?.toList ++ groups.map BlockGroup.block).IsChain BlockMeta.Child ∧
      (state.blocks = [] → header.mode = .delta →
        ∀ first ∈ (groups.map BlockGroup.block).head?,
          first.parentHash = header.precedingHash.getD Fixed.zero) ∧
      ((groups.flatMap BlockGroup.code).map CodeBlob.codeHash).Nodup ∧
      ∀ hash ∈ (groups.flatMap BlockGroup.code).map CodeBlob.codeHash, hash ∉ state.codeHashes := by
  induction groups generalizing state with
  | nil =>
      simp only [ParseState.AdmitsGroups, List.map_nil, List.append_nil, List.flatMap_nil,
        List.head?_nil, List.nodup_nil, List.not_mem_nil, true_iff]
      refine ⟨?_, by simp, trivial, by simp⟩
      cases state.blocks.getLast? <;> simp
  | cons group groups ih =>
      have grown := addGroup_grown state group
      have last : (state.addGroup group).blocks.getLast? = some group.block := by simp [grown.blocks]
      have nonempty : (state.addGroup group).blocks ≠ [] := by simp [grown.blocks]
      have rest := @ih (state.addGroup group)
      rw [last] at rest
      simp only [nonempty, grown.codeHashes, IsEmpty.forall_iff, true_and, not_or, Option.toList_some,
        List.flatMap_singleton, List.singleton_append] at rest
      simp only [ParseState.AdmitsGroups, rest, List.map_cons, isChain_toList_append,
        List.flatMap_cons, List.map_append, List.nodup_append, List.head?_cons, Option.mem_def,
        Option.some.injEq, forall_eq', List.mem_append]
      constructor
      · intro ⟨⟨succession, unique, fresh⟩, chain, more, apart⟩
        obtain ⟨child, parent⟩ := checkSuccession_eq_ok.mp succession
        refine ⟨⟨child, chain⟩, parent, ⟨unique, more, ?_⟩, ?_⟩
        · intro hash inside other later same
          exact (apart other later).2 (same ▸ inside)
        · intro hash member
          obtain inside | later := member
          · exact fresh hash inside
          · exact (apart hash later).1
      · intro ⟨⟨child, chain⟩, parent, ⟨unique, more, disjoint⟩, fresh⟩
        refine ⟨⟨checkSuccession_eq_ok.mpr ⟨child, parent⟩, unique, ?_⟩, chain, more, ?_⟩
        · exact fun hash inside => fresh hash (.inl inside)
        · exact fun hash later => ⟨fresh hash (.inr later), fun inside => disjoint hash inside hash later rfl⟩

/-! The header and the whole package. -/

theorem parseMode_eq_ok {text : Text} {mode : Mode} : parseMode text = .ok mode ↔ text = mode.text := by
  have distinct : anchorText ≠ deltaText := by decide
  unfold parseMode
  split
  · rename_i isAnchor
    cases mode <;> simp [Mode.text, isAnchor, distinct]
  · rename_i notAnchor
    split
    · rename_i isDelta
      cases mode <;> simp [Mode.text, isDelta, distinct.symm]
    · rename_i notDelta
      cases mode <;> simp [Mode.text, notAnchor, notDelta]

theorem parseOptional_eq_ok {text : Option Text} {value : Option UInt64} :
    parseOptional text = .ok value ↔ text.map parseQuantity = value.map .ok := by
  cases text <;> cases value <;> simp [parseOptional, bind_eq_ok]

theorem parseHeader_eq_ok : parseHeader record = .ok header ↔ SpellsHeader record header := by
  constructor
  · intro parsed
    cases record with
    | header schema chainId genesisHash mode anchorNumber anchorHash precedingNumber precedingHash =>
        obtain ⟨known, parsed⟩ := guard_eq_ok.mp parsed
        obtain ⟨mode', modeParsed, parsed⟩ := bind_eq_ok.mp parsed
        obtain ⟨chainId', chainParsed, parsed⟩ := bind_eq_ok.mp parsed
        obtain ⟨anchor', anchorParsed, parsed⟩ := bind_eq_ok.mp parsed
        obtain ⟨preceding', precedingParsed, done⟩ := bind_eq_ok.mp parsed
        cases done
        rw [not_not.mp known, parseMode_eq_ok.mp modeParsed]
        exact ⟨chainId, anchorNumber, precedingNumber, rfl, chainParsed,
          parseOptional_eq_ok.mp anchorParsed, parseOptional_eq_ok.mp precedingParsed⟩
    | _ => exact absurd parsed (bail_ne_ok _ _)
  · intro ⟨chainId, anchorNumber, precedingNumber, same, chain, anchor, preceding⟩
    subst same
    simp only [parseHeader, ne_eq, not_true_eq_false, if_false, parseMode_eq_ok.mpr rfl, ok_bind, chain,
      parseOptional_eq_ok.mpr anchor, parseOptional_eq_ok.mpr preceding]

theorem PackageHeader.check_eq_ok :
    header.check = .ok () ↔
      (header.mode = .anchor → header.anchorNumber ≠ none ∧ header.anchorHash ≠ none) ∧
      (header.mode = .delta → header.precedingNumber ≠ none ∧ header.precedingHash ≠ none) := by
  simp only [PackageHeader.check, guard_eq_ok, not_and, not_or, and_true]

theorem finishPackage_eq_ok {inputSha256 : Hash32} {package : Package} :
    finishPackage header inputSha256 state = .ok package ↔
      ∃ first last, state.blocks.head? = some first ∧ state.blocks.getLast? = some last ∧
        state.trailer = some (last.number, last.hash, UInt64.ofNat state.blocks.length) ∧
        (header.mode = .anchor →
          header.anchorNumber = some first.number ∧ header.anchorHash = some first.hash) ∧
        (first.number = 0 → first.hash = header.genesisHash) ∧
        (header.mode = .delta → header.precedingNumber.bind checkedSucc = some first.number) ∧
        package = ⟨header.mode, header.precedingNumber, header.precedingHash, inputSha256,
          ⟨header.chainId, header.genesisHash, first.number, last.number, state.blocks,
            state.accounts, state.storage, state.code⟩⟩ := by
  unfold finishPackage
  cases trailer : state.trailer with
  | none => simp
  | some fields =>
      obtain ⟨endNumber, endHash, blockCount⟩ := fields
      cases head : state.blocks.head? with
      | none => simp
      | some first =>
          cases tail : state.blocks.getLast? with
          | none => simp
          | some last =>
              simp only [guard_eq_ok, not_or, not_not, not_and, Except.ok.injEq, Option.some.injEq,
                Prod.mk.injEq]
              constructor
              · intro ⟨⟨number, hash, count⟩, anchor, genesis, delta, done⟩
                exact ⟨first, last, rfl, rfl, ⟨number, hash, count⟩, anchor, genesis, delta, done.symm⟩
              · rintro ⟨_, _, rfl, rfl, trailed, anchor, genesis, delta, done⟩
                exact ⟨trailed, anchor, genesis, delta, done.symm⟩

/-- The checks of the header together say that it precedes the first block. -/
theorem precedes_iff {first : BlockMeta} :
    header.Precedes first ↔ header.check = .ok () ∧
      (header.mode = .anchor →
        header.anchorNumber = some first.number ∧ header.anchorHash = some first.hash) ∧
      (first.number = 0 → first.hash = header.genesisHash) ∧
      (header.mode = .delta → header.precedingNumber.bind checkedSucc = some first.number) ∧
      (header.mode = .delta → first.parentHash = header.precedingHash.getD Fixed.zero) := by
  rw [PackageHeader.check_eq_ok]
  constructor
  · intro ⟨anchor, delta, genesis⟩
    refine ⟨⟨?_, ?_⟩, anchor, genesis, ?_, ?_⟩
    · intro isAnchor
      simp [anchor isAnchor]
    all_goals
      intro isDelta
      obtain ⟨⟨number, known, next⟩, parent⟩ := delta isDelta
    · simp [known, parent]
    · simpa [known] using checkedSucc_eq_some.mpr next
    · simp [parent]
  · intro ⟨⟨_, fields⟩, anchor, genesis, number, parent⟩
    refine ⟨anchor, ?_, genesis⟩
    intro isDelta
    obtain ⟨before, known, next⟩ := Option.bind_eq_some_iff.mp (number isDelta)
    obtain ⟨hash, found⟩ := Option.ne_none_iff_exists'.mp (fields isDelta).2
    refine ⟨⟨before, known, checkedSucc_eq_some.mp next⟩, ?_⟩
    rw [parent isDelta, found, Option.getD_some]

/-- The package of a finished state is that of its groups. -/
theorem packageOf_addGroups {inputSha256 : Hash32} {first last : BlockMeta} :
    packageOf header inputSha256 first last groups =
      ⟨header.mode, header.precedingNumber, header.precedingHash, inputSha256,
        ⟨header.chainId, header.genesisHash, first.number, last.number,
          (ParseState.start.addGroups groups).blocks, (ParseState.start.addGroups groups).accounts,
          (ParseState.start.addGroups groups).storage, (ParseState.start.addGroups groups).code⟩⟩ := by
  have grown := addGroups_grown .start groups
  rw [grown.blocks, grown.accounts, grown.storage, grown.code]
  simp [packageOf, ParseState.start]

/-- The parser accepts a list of records exactly when it spells a package, and
returns the package it spells. -/
theorem assemblePackage_eq_ok_iff {inputSha256 : Hash32} {package : Package} :
    assemblePackage env records inputSha256 = .ok package ↔
      ∃ header groups first last, Spelled env records header groups first last ∧
        package = packageOf header inputSha256 first last groups := by
  constructor
  · intro assembled
    obtain ⟨_, assembled⟩ := guard_eq_ok.mp assembled
    cases records with
    | nil => exact absurd assembled (bail_ne_ok _ _)
    | cons opening records =>
        obtain ⟨header, parsed, assembled⟩ := bind_eq_ok.mp assembled
        obtain ⟨_, checked, assembled⟩ := bind_eq_ok.mp assembled
        obtain ⟨final, ran, finished⟩ := bind_eq_ok.mp assembled
        obtain ⟨first, last, head, tail, trailed, anchor, genesis, delta, done⟩ :=
          finishPackage_eq_ok.mp finished
        obtain ⟨lines, groups, number, hash, count, endNumber, blockCount, split, spelled, admitted,
            numbered, counted, same⟩ := steps_all rfl rfl ran (by simp [trailed])
        obtain ⟨chain, parent, unique, _⟩ := admitsGroups_iff.mp admitted
        have blocks : final.blocks = groups.map BlockGroup.block := by
          rw [same]
          exact (addGroups_grown .start groups).blocks
        rw [blocks] at head tail trailed
        rw [same, Option.some.injEq, Prod.mk.injEq, Prod.mk.injEq, List.length_map] at trailed
        obtain ⟨rfl, rfl, rfl⟩ := trailed
        have precedes := precedes_iff.mpr ⟨checked, anchor, genesis, delta,
          fun isDelta => parent rfl isDelta first head⟩
        refine ⟨header, groups, first, last, ⟨⟨opening, lines, _, by rw [split],
          parseHeader_eq_ok.mp parsed, spelled, number, count, rfl, numbered, counted⟩,
          head, tail, precedes, chain, unique⟩, ?_⟩
        rw [done, same, packageOf_addGroups]
  · intro ⟨header, groups, first, last, spelled, done⟩
    obtain ⟨opening, lines, closing, split, heading, groupLines, number, count, trailer, numbered,
      counted⟩ := spelled.lines
    obtain ⟨checked, anchor, genesis, delta, parent⟩ := precedes_iff.mp spelled.precedes
    have grown := addGroups_grown .start groups
    have blocks : (ParseState.start.addGroups groups).blocks = groups.map BlockGroup.block := grown.blocks
    have admitted : ParseState.start.AdmitsGroups header groups := by
      refine admitsGroups_iff.mpr ⟨spelled.chain, ?_, spelled.codes, by simp [ParseState.start]⟩
      intro _ isDelta other isFirst
      rw [Option.some.inj (isFirst.symm.trans spelled.head)]
      exact parent isDelta
    have long : ¬ records.length < 3 := by
      obtain _ | ⟨spells, _⟩ := groupLines
      · exact absurd spelled.head (by simp)
      · simp [split, GroupLines.records]
        omega
    unfold assemblePackage
    rw [if_neg long, split]
    dsimp only
    rw [parseHeader_eq_ok.mpr heading, ok_bind, checked, ok_bind,
      steps_groups rfl rfl groupLines admitted, trailer, steps_cons grown.trailer,
      step_trailer (grown.closed rfl) numbered counted, ok_bind, ParseState.steps, ok_bind, done,
      packageOf_addGroups]
    refine finishPackage_eq_ok.mpr ⟨first, last, ?_, ?_, ?_, anchor, genesis, delta, rfl⟩
    · rw [← spelled.head]
      exact congrArg List.head? blocks
    · rw [← spelled.tail]
      exact congrArg List.getLast? blocks
    · dsimp only
      rw [blocks, List.length_map]

/-- A decoded input is accepted exactly when its lines are records that spell a
package, and what is returned is the package they spell. -/
theorem parsePackage_accepts_iff {decoded : Bytes} {inputSha256 : Hash32} {package : Package} :
    parsePackage env decoded inputSha256 = .ok package ↔
      ∃ text records header groups first last, env.utf8 decoded = .ok text ∧
        decodeLines env (splitLines text []) 0 = .ok records ∧
        Spelled env records header groups first last ∧
        package = packageOf header inputSha256 first last groups := by
  simp only [parsePackage, bind_eq_ok, context_eq_ok, assemblePackage_eq_ok_iff]
  constructor
  · rintro ⟨text, valid, records, lines, header, groups, first, last, spelled⟩
    exact ⟨text, records, header, groups, first, last, valid, lines, spelled⟩
  · rintro ⟨text, records, header, groups, first, last, valid, lines, spelled⟩
    exact ⟨text, valid, records, lines, header, groups, first, last, spelled⟩

end

end Fossil
