import Fossil.Lines
import Fossil.ReadBack
import Fossil.Rpc

/-! The block-zero anchor of a genesis allocation.

`genesis_anchor` turns the JSON of a chain's genesis into a package and reads the
package once before it returns it. -/

namespace Fossil

/-! The fields. -/

def configField : Text := ['c', 'o', 'n', 'f', 'i', 'g']
def chainIdField : Text := ['c', 'h', 'a', 'i', 'n', 'I', 'd']
def allocField : Text := ['a', 'l', 'l', 'o', 'c']
def numberField : Text := ['n', 'u', 'm', 'b', 'e', 'r']
def hashField : Text := ['h', 'a', 's', 'h']
def parentHashField : Text := ['p', 'a', 'r', 'e', 'n', 't', 'H', 'a', 's', 'h']
def stateRootField : Text := ['s', 't', 'a', 't', 'e', 'R', 'o', 'o', 't']
def timestampField : Text := ['t', 'i', 'm', 'e', 's', 't', 'a', 'm', 'p']
def nonceField : Text := ['n', 'o', 'n', 'c', 'e']
def balanceField : Text := ['b', 'a', 'l', 'a', 'n', 'c', 'e']
def storageField : Text := ['s', 't', 'o', 'r', 'a', 'g', 'e']

def zeroText : Text := ['0', 'x', '0']
def noCode : Text := ['0', 'x']

def parseHash (value : Json) : Result Hash32 := do
  let text ← orContext "expected 32-byte hex hash" value.asStr
  parseFixed 32 text

/-! The loop over the allocation. -/

/-- `BTreeMap::insert` on a map listed in key order: the value the key had, and the map. -/
def mapInsert {κ ν : Type} [LinearOrder κ] (key : κ) (value : ν) :
    List (κ × ν) → Option ν × List (κ × ν)
  | [] => (none, [(key, value)])
  | (other, old) :: rest =>
      if key < other then (none, (key, value) :: (other, old) :: rest)
      else if key = other then (some old, (key, value) :: rest)
      else
        let (found, rest) := mapInsert key value rest
        (found, (other, old) :: rest)

/-- What the loop collects: accounts with their quantities as text, storage that is
not zero, and bytecode by its hash. -/
structure Allocation where
  accounts : List (Address × Text × Text × Hash32)
  storage : List (Address × Hash32 × Hash32)
  codes : List (Hash32 × Text)

/-- A field of an entry that is taken as text, with a default. -/
def textOr (entry : Json) (field default : Text) : Text :=
  ((entry.get field).bind Json.asStr).getD default

def genesisSlots (address : Address) :
    List (Text × Json) → List (Address × Hash32 × Hash32) → Result (List (Address × Hash32 × Hash32))
  | [], storage => .ok storage
  | (rawSlot, rawValue) :: rest, storage => do
      let slot ← parseFixed 32 rawSlot
      let value ← parseHash rawValue
      genesisSlots address rest
        (if value ≠ Fixed.zero then storage ++ [(address, slot, value)] else storage)

section

variable (env : Externals)

def genesisCode (codes : List (Hash32 × Text)) (code : Text) : Result (Hash32 × List (Hash32 × Text)) := do
  let bytes ← parseData code
  if bytes = [] then .ok (env.keccak256 [], codes)
  else
    let digest := env.keccak256 bytes
    let (old, codes) := mapInsert digest code codes
    if ∃ text ∈ old, text ≠ code then bail "distinct genesis bytecode shares a code hash"
    else .ok (digest, codes)

def genesisEntry (state : Allocation) (entry : Text × Json) : Result Allocation := do
  let address ← parseFixed 20 ('0' :: 'x' :: entry.1)
  let nonce ← parseQuantity (textOr entry.2 nonceField zeroText)
  let balance ← parseU256 (textOr entry.2 balanceField zeroText)
  let (codeHash, codes) ← genesisCode env state.codes (textOr entry.2 codeField noCode)
  let accounts := state.accounts ++ [(address, quantity nonce, quantityU256 balance, codeHash)]
  match entry.2.get storageField with
  | none => .ok ⟨accounts, state.storage, codes⟩
  | some slots => do
      let slots ← orContext "genesis account storage is not an object" slots.asObject
      let storage ← genesisSlots address slots state.storage
      .ok ⟨accounts, storage, codes⟩

end

/-! The package. -/

/-- Block zero: its hash, parent hash, state root and timestamp. -/
def genesisBlock (block : Json) : Result (Hash32 × Hash32 × Hash32 × UInt64) := do
  if (block.index numberField).asStr ≠ some zeroText then bail "anchor block must be block zero"
  else do
    let hash ← parseHash (block.index hashField)
    let parent ← parseHash (block.index parentHashField)
    if parent ≠ Fixed.zero then bail "genesis block must have a zero parent hash"
    else do
      let root ← parseHash (block.index stateRootField)
      let timestamp ← orContext "genesis block missing timestamp" (block.index timestampField).asStr
      let timestamp ← parseQuantity timestamp
      .ok (hash, parent, root, timestamp)

def accountLine (row : Address × Text × Text × Hash32) : LineRecord :=
  .account zeroText row.1 true zeroText (some row.2.1) (some row.2.2.1) (some row.2.2.2)

def storageLine (row : Address × Hash32 × Hash32) : LineRecord :=
  .storage zeroText row.1 zeroText row.2.1 row.2.2

def codeLine (row : Hash32 × Text) : LineRecord := .code row.1 row.2

def Allocation.sortedAccounts (state : Allocation) : List (Address × Text × Text × Hash32) :=
  state.accounts.insertionSort (fun left right => left.1 ≤ right.1)

def Allocation.sortedStorage (state : Allocation) : List (Address × Hash32 × Hash32) :=
  state.storage.insertionSort (fun left right => toLex (left.1, left.2.1) ≤ toLex (right.1, right.2.1))

def Allocation.events (state : Allocation) : List LineRecord :=
  state.sortedAccounts.map accountLine ++ state.sortedStorage.map storageLine ++ state.codes.map codeLine

def genesisLines (chainId : UInt64) (hash parent root : Hash32) (timestamp : UInt64) (state : Allocation) :
    List LineRecord :=
  [.header exportSchema (quantity chainId) hash anchorText (some zeroText) (some hash) none none,
    .block zeroText hash parent root (quantity timestamp)] ++
  state.events ++
  [.blockEnd zeroText (quantity (UInt64.ofNat
      (state.accounts.length + state.storage.length + state.codes.length))),
    .trailer zeroText hash ['0', 'x', '1']]

section

variable (env : Externals)

/-- The block itself, or the response that carries it. -/
def blockZero (response : Json) : Json := (response.get resultField).getD response

/-- The records of the package, and how many accounts the allocation has. -/
def genesisRecords (genesis response : Json) : Result (List LineRecord × Nat) := do
  let chainId ← orContext "genesis config.chainId is missing"
    ((genesis.index configField).index chainIdField).asU64
  let (hash, parent, root, timestamp) ← genesisBlock (blockZero response)
  let alloc ← orContext "genesis allocation is missing" (genesis.index allocField).asObject
  if alloc.isEmpty then bail "genesis allocation must not be empty"
  else do
    let state ← alloc.foldlM (genesisEntry env) ⟨[], [], []⟩
    .ok (genesisLines chainId hash parent root timestamp state, alloc.length)

/-- `fromSlice` is `serde_json::from_slice`. -/
def genesisAnchor (fromSlice : Bytes → Result Json) (genesisBytes blockBytes : Bytes) : Result Bytes := do
  let genesis ← context "parse genesis allocation" (fromSlice genesisBytes)
  let response ← context "parse block zero" (fromSlice blockBytes)
  let (records, accounts) ← genesisRecords env genesis response
  let output := writeLines records
  let parsed ← readPackage env output
  if parsed.mode ≠ .anchor ∨ parsed.segment.accounts.length ≠ accounts then
    bail "generated genesis package did not retain every account"
  else .ok output

end

/-! What an entry gives. -/

/-- The value of a field of an entry: what its text parses to, or the default when the
entry has no such field. -/
def Given {α : Type} (parse : Text → Result α) (default : α) (entry : Json) (field : Text) (value : α) :
    Prop :=
  match entry.get field with
  | none => value = default
  | some given => ∃ text, given = .string text ∧ parse text = .ok value

/-- The event of an entry. -/
structure AccountOf (env : Externals) (entry : Text × Json) (event : AccountEvent) : Prop where
  block : event.block = 0
  address : parseFixed 20 ('0' :: 'x' :: entry.1) = .ok event.address
  existing : event.existing = true
  incarnation : event.incarnation = 0
  nonce : Given parseQuantity 0 entry.2 nonceField event.nonce
  balance : Given parseU256 Fixed.zero entry.2 balanceField event.balance
  code : ∃ bytes, Given parseData [] entry.2 codeField bytes ∧ event.codeHash = env.keccak256 bytes

/-- A slot of an entry that is not zero. -/
structure SlotOf (entry : Text × Json) (event : StorageEvent) : Prop where
  block : event.block = 0
  address : parseFixed 20 ('0' :: 'x' :: entry.1) = .ok event.address
  incarnation : event.incarnation = 0
  slot : ∃ slots raw text, entry.2.get storageField = some (.object slots) ∧ (raw, .string text) ∈ slots ∧
    parseFixed 32 raw = .ok event.slot ∧ parseFixed 32 text = .ok event.value
  nonzero : event.value ≠ Fixed.zero

/-- The bytecode of an entry, when it has any. -/
def BlobOf (env : Externals) (entry : Text × Json) (blob : CodeBlob) : Prop :=
  Given parseData [] entry.2 codeField blob.bytes ∧ blob.bytes ≠ [] ∧ blob.firstSeenBlock = 0 ∧
    blob.codeHash = env.keccak256 blob.bytes

/-- The package is the anchor of the allocation. -/
structure AnchorOf (env : Externals) (alloc : List (Text × Json)) (hash : Hash32) (package : Package) :
    Prop where
  mode : package.mode = .anchor
  first : package.segment.startBlock = 0
  last : package.segment.endBlock = 0
  genesis : package.segment.genesisHash = hash
  blocks : package.segment.blocks.map (fun block => (block.number, block.hash)) = [(0, hash)]
  accounts : ∃ entries, entries.Perm alloc ∧
    List.Forall₂ (AccountOf env) entries package.segment.accounts
  storage : ∀ event, event ∈ package.segment.storage ↔ ∃ entry ∈ alloc, SlotOf entry event
  distinctStorage : package.segment.storage.Nodup
  code : ∀ blob, blob ∈ package.segment.code ↔ ∃ entry ∈ alloc, BlobOf env entry blob
  distinctCode : package.segment.code.Nodup
  lifecycle : validateLifecycle env package = .ok ()

/-- The fields that are read as text are text wherever they stand. -/
def Textual (alloc : List (Text × Json)) : Prop :=
  ∀ entry ∈ alloc, ∀ field ∈ [nonceField, balanceField, codeField], ∀ given,
    entry.2.get field = some given → ∃ text, given = .string text

/-! One entry. -/

section

variable {env : Externals} {entry : Text × Json} {alloc : List (Text × Json)} {state next : Allocation}

/-- What a field is read as, which is not what it gives when it is there but is not text. -/
def Taken {α : Type} (parse : Text → Result α) (default : α) (entry : Json) (field : Text) (value : α) :
    Prop :=
  match (entry.get field).bind Json.asStr with
  | none => value = default
  | some text => parse text = .ok value

theorem taken_of_parse {α : Type} {parse : Text → Result α} {default : α} {given : Json} {field text : Text}
    {value : α} (absent : parse text = .ok default) (parsed : parse (textOr given field text) = .ok value) :
    Taken parse default given field value := by
  unfold textOr at parsed
  unfold Taken
  cases found : (given.get field).bind Json.asStr with
  | none =>
      rw [found, Option.getD_none, absent] at parsed
      exact (Except.ok.inj parsed).symm
  | some text =>
      rw [found] at parsed
      exact parsed

theorem given_iff_taken {α : Type} {parse : Text → Result α} {default : α} {given : Json} {field : Text}
    {value : α} (taken : Taken parse default given field value) :
    Given parse default given field value ↔
      ∀ found, given.get field = some found → ∃ text, found = .string text := by
  unfold Given
  unfold Taken at taken
  cases present : given.get field with
  | none =>
      rw [present] at taken
      simpa using taken
  | some found =>
      rw [present] at taken
      constructor
      · intro ⟨text, isText, _⟩ other same
        exact ⟨text, (Option.some.inj same) ▸ isText⟩
      · intro textual
        obtain ⟨text, rfl⟩ := textual found rfl
        exact ⟨text, rfl, taken⟩

/-- A code that is not empty is text: the default is empty. -/
theorem given_of_taken_code {given : Json} {bytes : Bytes} (taken : Taken parseData [] given codeField bytes)
    (nonempty : bytes ≠ []) : Given parseData [] given codeField bytes := by
  unfold Taken at taken
  unfold Given
  cases present : given.get codeField with
  | none =>
      rw [present] at taken
      exact absurd taken nonempty
  | some found =>
      rw [present] at taken
      cases found <;> first
        | exact ⟨_, rfl, taken⟩
        | exact absurd taken nonempty

theorem taken_of_given {α : Type} {parse : Text → Result α} {default : α} {given : Json} {field : Text}
    {value : α} (holds : Given parse default given field value) : Taken parse default given field value := by
  unfold Given at holds
  unfold Taken
  cases present : given.get field with
  | none =>
      rw [present] at holds
      exact holds
  | some found =>
      rw [present] at holds
      obtain ⟨text, rfl, parsed⟩ := holds
      exact parsed

theorem taken_unique {α : Type} {parse : Text → Result α} {default : α} {given : Json} {field : Text}
    {first second : α} (one : Taken parse default given field first)
    (two : Taken parse default given field second) : first = second := by
  unfold Taken at one two
  cases found : (given.get field).bind Json.asStr with
  | none =>
      rw [found] at one two
      exact one.trans two.symm
  | some text =>
      rw [found] at one two
      exact Except.ok.inj (one.symm.trans two)

/-- An insertion that does not replace a different value adds its pair. -/
theorem mem_mapInsert {κ ν : Type} [LinearOrder κ] {key : κ} {value : ν} {map after : List (κ × ν)}
    {old : Option ν} (inserted : mapInsert key value map = (old, after)) (kept : ∀ found ∈ old, found = value)
    (pair : κ × ν) : pair ∈ after ↔ pair = (key, value) ∨ pair ∈ map := by
  induction map generalizing old after with
  | nil =>
      obtain ⟨rfl, rfl⟩ := Prod.mk.inj inserted
      simp
  | cons head rest ih =>
      obtain ⟨other, found⟩ := head
      unfold mapInsert at inserted
      by_cases less : key < other
      · rw [if_pos less] at inserted
        obtain ⟨rfl, rfl⟩ := Prod.mk.inj inserted
        exact List.mem_cons
      · rw [if_neg less] at inserted
        by_cases same : key = other
        · rw [if_pos same] at inserted
          obtain ⟨rfl, rfl⟩ := Prod.mk.inj inserted
          obtain rfl := kept found rfl
          subst same
          simp
        · rw [if_neg same] at inserted
          cases more : mapInsert key value rest with
          | mk old' after' =>
              rw [more] at inserted
              obtain ⟨rfl, rfl⟩ := Prod.mk.inj inserted
              rw [List.mem_cons, ih more kept, List.mem_cons]
              tauto

theorem genesisCode_eq_ok {codes after : List (Hash32 × Text)} {code : Text} {digest : Hash32}
    (done : genesisCode env codes code = .ok (digest, after)) :
    ∃ bytes, parseData code = .ok bytes ∧ digest = env.keccak256 bytes ∧
      ∀ pair, pair ∈ after ↔ pair ∈ codes ∨ bytes ≠ [] ∧ pair = (digest, code) := by
  obtain ⟨bytes, parsed, done⟩ := bind_eq_ok.mp done
  refine ⟨bytes, parsed, ?_⟩
  by_cases empty : bytes = []
  · rw [if_pos empty] at done
    cases done
    simp [empty]
  · rw [if_neg empty] at done
    cases inserted : mapInsert (env.keccak256 bytes) code codes with
    | mk old added =>
        simp only [inserted] at done
        obtain ⟨kept, done⟩ := guard_eq_ok.mp done
        cases done
        simp only [ne_eq, not_exists, not_and, not_not] at kept
        refine ⟨rfl, ?_⟩
        intro pair
        rw [mem_mapInsert inserted kept, or_comm]
        simp [empty]

theorem parseHash_eq_ok {value : Json} {hash : Hash32} :
    parseHash value = .ok hash ↔ ∃ text, value = .string text ∧ parseFixed 32 text = .ok hash := by
  unfold parseHash
  simp only [bind_eq_ok, orContext_eq_ok]
  cases value <;> simp [Json.asStr]

theorem genesisSlots_eq_ok {address : Address} {slots : List (Text × Json)}
    {before after : List (Address × Hash32 × Hash32)}
    (done : genesisSlots address slots before = .ok after) :
    ∃ added, after = before ++ added ∧ ∀ row, row ∈ added ↔ row.1 = address ∧ row.2.2 ≠ Fixed.zero ∧
      ∃ raw text, (raw, Json.string text) ∈ slots ∧ parseFixed 32 raw = .ok row.2.1 ∧
        parseFixed 32 text = .ok row.2.2 := by
  induction slots generalizing before with
  | nil =>
      cases done
      exact ⟨[], by simp⟩
  | cons head rest ih =>
      obtain ⟨rawSlot, rawValue⟩ := head
      obtain ⟨slot, isSlot, values⟩ := bind_eq_ok.mp done
      obtain ⟨value, isHash, others⟩ := bind_eq_ok.mp values
      obtain ⟨text, isText, isValue⟩ := parseHash_eq_ok.mp isHash
      subst isText
      obtain ⟨added, isAfter, members⟩ := ih others
      subst isAfter
      have one : ∀ row : Address × Hash32 × Hash32,
          (row.1 = address ∧ row.2.2 ≠ Fixed.zero ∧ parseFixed 32 rawSlot = .ok row.2.1 ∧
            parseFixed 32 text = .ok row.2.2) ↔
          row ∈ (if value ≠ Fixed.zero then [(address, slot, value)] else []) := by
        intro row
        obtain ⟨owner, key, stored⟩ := row
        rw [isSlot, isValue]
        simp only [Except.ok.injEq]
        split
        · simp only [List.mem_singleton, Prod.mk.injEq]
          constructor
          · intro ⟨same, _, isKey, isStored⟩
            exact ⟨same, isKey.symm, isStored.symm⟩
          · intro ⟨same, isKey, isStored⟩
            subst same isKey isStored
            exact ⟨rfl, ‹_›, rfl, rfl⟩
        · simp only [List.not_mem_nil, iff_false]
          intro ⟨_, nonzero, _, isStored⟩
          exact ‹¬ value ≠ Fixed.zero› (isStored ▸ nonzero)
      refine ⟨(if value ≠ Fixed.zero then [(address, slot, value)] else []) ++ added, ?_, ?_⟩
      · split <;> simp
      · intro row
        rw [List.mem_append, ← one, members]
        simp only [List.mem_cons, Prod.mk.injEq, Json.string.injEq]
        constructor
        · rintro (⟨owner, nonzero, isKey, isStored⟩ | ⟨owner, nonzero, raw, text', member, isKey, isStored⟩)
          · exact ⟨owner, nonzero, rawSlot, text, .inl ⟨rfl, rfl⟩, isKey, isStored⟩
          · exact ⟨owner, nonzero, raw, text', .inr member, isKey, isStored⟩
        · rintro ⟨owner, nonzero, raw, text', ⟨rfl, rfl⟩ | member, isKey, isStored⟩
          · exact .inl ⟨owner, nonzero, isKey, isStored⟩
          · exact .inr ⟨owner, nonzero, raw, text', member, isKey, isStored⟩

/-- The row that the loop keeps of an account. -/
def AccountEvent.row (event : AccountEvent) : Address × Text × Text × Hash32 :=
  (event.address, quantity event.nonce, quantityU256 event.balance, event.codeHash)

def slotEvent (row : Address × Hash32 × Hash32) : StorageEvent := ⟨0, row.1, 0, row.2.1, row.2.2⟩

def CodeBlob.row (blob : CodeBlob) : Hash32 × Text := (blob.codeHash, '0' :: 'x' :: hexEncode blob.bytes)

/-- The event that the loop reads an entry as. -/
structure ReadAs (env : Externals) (entry : Text × Json) (event : AccountEvent) : Prop where
  block : event.block = 0
  address : parseFixed 20 ('0' :: 'x' :: entry.1) = .ok event.address
  existing : event.existing = true
  incarnation : event.incarnation = 0
  nonce : Taken parseQuantity 0 entry.2 nonceField event.nonce
  balance : Taken parseU256 Fixed.zero entry.2 balanceField event.balance
  code : ∃ bytes, Taken parseData [] entry.2 codeField bytes ∧ event.codeHash = env.keccak256 bytes

/-- What the loop adds for some entries. -/
structure Collects (env : Externals) (entries : List (Text × Json)) (before after : Allocation) : Prop where
  accounts : ∃ events, after.accounts = before.accounts ++ events.map AccountEvent.row ∧
    List.Forall₂ (ReadAs env) entries events
  storage : ∃ rows, after.storage = before.storage ++ rows ∧
    ∀ row, row ∈ rows ↔ ∃ entry ∈ entries, SlotOf entry (slotEvent row)
  codes : ∀ pair, pair ∈ after.codes ↔ pair ∈ before.codes ∨
    ∃ entry ∈ entries, ∃ blob, BlobOf env entry blob ∧ pair = blob.row

theorem Collects.refl (env : Externals) (state : Allocation) : Collects env [] state state :=
  ⟨⟨[], by simp⟩, ⟨[], by simp⟩, by simp⟩

theorem Collects.trans {entries more : List (Text × Json)} {before middle after : Allocation}
    (first : Collects env entries before middle) (second : Collects env more middle after) :
    Collects env (entries ++ more) before after := by
  obtain ⟨events, added, read⟩ := first.accounts
  obtain ⟨events', added', read'⟩ := second.accounts
  obtain ⟨rows, stored, members⟩ := first.storage
  obtain ⟨rows', stored', members'⟩ := second.storage
  refine ⟨⟨events ++ events', ?_, List.rel_append read read'⟩, ⟨rows ++ rows', ?_, ?_⟩, ?_⟩
  · rw [added', added, List.map_append, List.append_assoc]
  · rw [stored', stored, List.append_assoc]
  · intro row
    rw [List.mem_append, members, members']
    simp only [List.mem_append, or_and_right, exists_or]
  · intro pair
    rw [second.codes, first.codes]
    simp only [List.mem_append, or_and_right, exists_or, or_assoc]

theorem slots_of_entry {address : Address} {slots : List (Text × Json)} {row : Address × Hash32 × Hash32}
    (owner : parseFixed 20 ('0' :: 'x' :: entry.1) = .ok address)
    (given : entry.2.get storageField = some (.object slots)) :
    SlotOf entry (slotEvent row) ↔ row.1 = address ∧ row.2.2 ≠ Fixed.zero ∧
      ∃ raw text, (raw, Json.string text) ∈ slots ∧ parseFixed 32 raw = .ok row.2.1 ∧
        parseFixed 32 text = .ok row.2.2 := by
  constructor
  · intro holds
    obtain ⟨slots', raw, text, given', found⟩ := holds.slot
    obtain ⟨rfl⟩ := given.symm.trans given'
    exact ⟨(Except.ok.inj (owner.symm.trans holds.address)).symm, holds.nonzero, raw, text, found⟩
  · rintro ⟨rfl, nonzero, raw, text, found⟩
    exact ⟨rfl, owner, rfl, ⟨slots, raw, text, given, found⟩, nonzero⟩

theorem codes_of_entry {pair : Hash32 × Text} {bytes : Bytes}
    (taken : Taken parseData [] entry.2 codeField bytes) :
    (∃ blob, BlobOf env entry blob ∧ pair = blob.row) ↔
      bytes ≠ [] ∧ pair = (env.keccak256 bytes, '0' :: 'x' :: hexEncode bytes) := by
  constructor
  · rintro ⟨blob, ⟨given, nonempty, _, digest⟩, rfl⟩
    obtain rfl := taken_unique (taken_of_given given) taken
    exact ⟨nonempty, by rw [CodeBlob.row, digest]⟩
  · rintro ⟨nonempty, rfl⟩
    exact ⟨⟨0, env.keccak256 bytes, bytes⟩, ⟨given_of_taken_code taken nonempty, nonempty, rfl, rfl⟩, rfl⟩

theorem genesisEntry_collects (done : genesisEntry env state entry = .ok next) :
    Collects env [entry] state next := by
  obtain ⟨address, owner, rest⟩ := bind_eq_ok.mp done
  obtain ⟨nonce, isNonce, rest⟩ := bind_eq_ok.mp rest
  obtain ⟨balance, isBalance, rest⟩ := bind_eq_ok.mp rest
  obtain ⟨⟨codeHash, codes⟩, isCode, rest⟩ := bind_eq_ok.mp rest
  obtain ⟨bytes, parsed, digest, members⟩ := genesisCode_eq_ok isCode
  have taken : Taken parseData [] entry.2 codeField bytes := taken_of_parse rfl parsed
  let event : AccountEvent := ⟨0, address, true, 0, nonce, balance, codeHash⟩
  have read : ReadAs env entry event :=
    ⟨rfl, owner, rfl, rfl, taken_of_parse rfl isNonce, taken_of_parse (by decide) isBalance,
      bytes, taken, digest⟩
  have added : ∀ pair, pair ∈ codes ↔ pair ∈ state.codes ∨
      ∃ entry' ∈ [entry], ∃ blob, BlobOf env entry' blob ∧ pair = blob.row := by
    intro pair
    simp only [List.mem_singleton, exists_eq_left, codes_of_entry taken, members, digest,
      parseData_eq_ok.mp parsed]
  dsimp only at rest
  cases given : entry.2.get storageField with
  | none =>
      rw [given] at rest
      cases rest
      refine ⟨⟨[event], rfl, .cons read .nil⟩, ⟨[], by simp, ?_⟩, added⟩
      intro row
      simp only [List.not_mem_nil, List.mem_singleton, exists_eq_left, false_iff]
      intro holds
      obtain ⟨_, _, _, present, _⟩ := holds.slot
      rw [given] at present
      cases present
  | some found =>
      rw [given] at rest
      obtain ⟨slots, isObject, rest⟩ := bind_eq_ok.mp rest
      obtain ⟨storage, stored, rest⟩ := bind_eq_ok.mp rest
      cases rest
      have object : found = .object slots := by
        have shape := orContext_eq_ok.mp isObject
        cases found <;> simp_all [Json.asObject]
      rw [object] at given
      obtain ⟨rows, isStorage, inside⟩ := genesisSlots_eq_ok stored
      refine ⟨⟨[event], rfl, .cons read .nil⟩, ⟨rows, isStorage, ?_⟩, added⟩
      intro row
      rw [inside]
      simp only [List.mem_singleton, exists_eq_left, slots_of_entry owner given]

/-- The loop over the whole allocation. -/
theorem genesisEntries_collects (done : alloc.foldlM (genesisEntry env) state = .ok next) :
    Collects env alloc state next := by
  induction alloc generalizing state with
  | nil =>
      cases done
      exact Collects.refl env _
  | cons entry rest ih =>
      obtain ⟨middle, one, others⟩ := bind_eq_ok.mp done
      exact (genesisEntry_collects one).trans (ih others)

/-! The package. -/

variable {chainId timestamp : UInt64} {hash parent root : Hash32} {records : List LineRecord}
  {header : PackageHeader} {groups : List BlockGroup} {first last : BlockMeta} {package : Package}

theorem Allocation.events_isEvent (state : Allocation) : ∀ record ∈ state.events, record.isEvent := by
  intro record member
  simp only [Allocation.events, List.mem_append, List.mem_map] at member
  obtain (⟨_, _, rfl⟩ | ⟨_, _, rfl⟩) | ⟨_, _, rfl⟩ := member <;> rfl

/-- The account event that a row is read back as. -/
def rowEvent (row : Address × Text × Text × Hash32) : AccountEvent :=
  ⟨0, row.1, true, 0, parsedOr 0 (parseQuantity row.2.1), parsedOr Fixed.zero (parseU256 row.2.2.1), row.2.2.2⟩

/-- The code blob that a row is read back as. -/
def rowBlob (row : Hash32 × Text) : CodeBlob := ⟨0, row.1, parsedOr [] (parseData row.2)⟩

theorem rowEvent_row {event : AccountEvent} (read : ReadAs env entry event) :
    rowEvent event.row = event := by
  obtain ⟨block, _, existing, incarnation, _⟩ := read
  cases event
  have balance := fun value : Hash32 => (parseU256_iff (quantityU256 value) value).mpr rfl
  simp_all [rowEvent, AccountEvent.row, parseQuantity_quantity]

theorem rowBlob_row {blob : CodeBlob} (holds : BlobOf env entry blob) : rowBlob blob.row = blob := by
  obtain ⟨_, _, first, _⟩ := holds
  cases blob
  have code : ∀ bytes : Bytes, parseData ('0' :: 'x' :: hexEncode bytes) = .ok bytes :=
    fun bytes => parseData_eq_ok.mpr rfl
  simp_all [rowBlob, CodeBlob.row]

theorem accountLine_reading (row : Address × Text × Text × Hash32) :
    (accountLine row).reading 0 = .account (rowEvent row) := rfl

theorem storageLine_reading (row : Address × Hash32 × Hash32) :
    (storageLine row).reading 0 = .storage (slotEvent row) := rfl

theorem codeLine_reading (row : Hash32 × Text) : (codeLine row).reading 0 = .code (rowBlob row) := rfl

/-- The package that the records of an allocation spell. -/
theorem genesisLines_package {inputSha256 : Hash32}
    (assembled : assemblePackage env (genesisLines chainId hash parent root timestamp state) inputSha256 =
      .ok package) :
    package = ⟨.anchor, none, none, inputSha256, ⟨chainId, hash, 0, 0,
        [⟨0, hash, parent, root, timestamp⟩], state.sortedAccounts.map rowEvent,
        state.sortedStorage.map slotEvent, state.codes.map rowBlob⟩⟩ ∧
      (package.segment.storage.map StorageEvent.order).Pairwise (· < ·) ∧
      (package.segment.code.map CodeBlob.codeHash).Nodup := by
  obtain ⟨header, groups, first, last, spelled, rfl⟩ := assemblePackage_eq_ok_iff.mp assembled
  have flat : genesisLines chainId hash parent root timestamp state =
      _ :: _ :: (state.events ++ [_, _]) := rfl
  rw [flat] at spelled
  obtain ⟨group, rfl, isHeader, spells⟩ := spelled.single state.events_isEvent rfl
  have block : group.block = ⟨0, hash, parent, root, timestamp⟩ :=
    spells.opening.reading rfl (parseQuantity_quantity timestamp)
  have events := spells_readings spells.events
  simp only [block, Allocation.events, List.map_append, List.map_map, Function.comp_def,
    accountLine_reading, storageLine_reading, codeLine_reading] at events
  have accounts : group.accounts = state.sortedAccounts.map rowEvent := by
    simp [BlockGroup.accounts, events, List.filterMap_append, List.filterMap_map, Function.comp_def,
      PackageEvent.account?]
  have storage : group.storage = state.sortedStorage.map slotEvent := by
    simp [BlockGroup.storage, events, List.filterMap_append, List.filterMap_map, Function.comp_def,
      PackageEvent.storage?]
  have code : group.code = state.codes.map rowBlob := by
    simp [BlockGroup.code, events, List.filterMap_append, List.filterMap_map, Function.comp_def,
      PackageEvent.code?]
  have isFirst : first = group.block := by simpa using spelled.head.symm
  have isLast : last = group.block := by simpa using spelled.tail.symm
  obtain ⟨chain, anchorNumber, precedingNumber, same, isChain, _, isPreceding⟩ := isHeader
  injection same with _ sameChain isGenesis isMode _ _ noNumber noHash
  have mode : header.mode = .anchor := Mode.text_injective isMode.symm
  have number : header.chainId = chainId := by
    rw [← sameChain, parseQuantity_quantity] at isChain
    exact (Except.ok.inj isChain).symm
  have preceding : header.precedingNumber = none := by
    rw [← noNumber] at isPreceding
    simpa using isPreceding.symm
  refine ⟨?_, ?_, ?_⟩
  · simp [packageOf, mode, number, preceding, ← noHash, ← isGenesis, isFirst, isLast, block, accounts,
      storage, code]
  · simpa [packageOf] using spells.storage
  · simpa [packageOf] using spelled.codes

/-! The lines. -/

theorem Collects.plain (collects : Collects env alloc ⟨[], [], []⟩ state) :
    ∀ record ∈ genesisLines chainId hash parent root timestamp state, record.Plain := by
  obtain ⟨events, accounts, _⟩ := collects.accounts
  have zero : Printable zeroText := by decide
  intro record member
  simp only [genesisLines, Allocation.events, List.mem_append, List.mem_cons, List.not_mem_nil, or_false,
    List.mem_map] at member
  obtain ((rfl | rfl) | ((⟨row, inside, rfl⟩ | ⟨row, _, rfl⟩) | ⟨row, inside, rfl⟩)) | (rfl | rfl) := member
  · have schema : Printable exportSchema := by decide
    have mode : Printable anchorText := by decide
    simp [LineRecord.Plain, LineRecord.texts, zero, schema, mode]
  · simp [LineRecord.Plain, LineRecord.texts, zero]
  · have known := (List.perm_insertionSort _ _).mem_iff.mp inside
    rw [accounts, List.nil_append] at known
    obtain ⟨event, _, rfl⟩ := List.mem_map.mp known
    simp [LineRecord.Plain, LineRecord.texts, accountLine, AccountEvent.row, zero]
  · simp [LineRecord.Plain, LineRecord.texts, storageLine, zero]
  · obtain absent | ⟨_, _, blob, _, rfl⟩ := (collects.codes row).mp inside
    · cases absent
    · simp [LineRecord.Plain, LineRecord.texts, codeLine, CodeBlob.row]
  · simp [LineRecord.Plain, LineRecord.texts, zero]
  · have one : Printable ['0', 'x', '1'] := by decide
    simp [LineRecord.Plain, LineRecord.texts, zero, one]

theorem writeLines_eq (records : List LineRecord) :
    writeLines records = asciiBytes (joinLines (records.map LineRecord.json)) := by
  rw [writeLines, asciiBytes, joinLines, List.flatMap_map]

/-! What the package holds. -/

/-- The package that the reader makes of what the loop collected. -/
structure Allocation.Read (state : Allocation) (hash : Hash32) (package : Package) : Prop where
  mode : package.mode = .anchor
  first : package.segment.startBlock = 0
  last : package.segment.endBlock = 0
  genesis : package.segment.genesisHash = hash
  blocks : package.segment.blocks.map (fun block => (block.number, block.hash)) = [(0, hash)]
  accounts : package.segment.accounts = state.sortedAccounts.map rowEvent
  storage : package.segment.storage = state.sortedStorage.map slotEvent
  code : package.segment.code = state.codes.map rowBlob
  distinctStorage : package.segment.storage.Nodup
  distinctCode : package.segment.code.Nodup

theorem genesisLines_read {inputSha256 : Hash32}
    (assembled : assemblePackage env (genesisLines chainId hash parent root timestamp state) inputSha256 =
      .ok package) : state.Read hash package := by
  obtain ⟨same, rising, distinct⟩ := genesisLines_package assembled
  have storage : package.segment.storage.Nodup := by
    refine (List.pairwise_map.mp rising).imp ?_
    intro left right less equal
    exact absurd less (equal ▸ lt_irrefl _)
  have code := List.Nodup.of_map _ distinct
  rw [same] at storage code ⊢
  exact ⟨rfl, rfl, rfl, rfl, rfl, rfl, rfl, rfl, storage, code⟩

section

variable (collects : Collects env alloc ⟨[], [], []⟩ state) (read : state.Read hash package)

include collects read

/-- The accounts are the events the loop read, in another order. -/
theorem Allocation.Read.accounts_perm :
    ∃ events, List.Forall₂ (ReadAs env) alloc events ∧ package.segment.accounts.Perm events := by
  obtain ⟨events, accounts, taken⟩ := collects.accounts
  rw [List.nil_append] at accounts
  refine ⟨events, taken, ?_⟩
  have back : events.map (rowEvent ∘ AccountEvent.row) = events := by
    refine (List.map_congr_left ?_).trans (List.map_id events)
    intro event member
    obtain ⟨_, _, made⟩ := forall₂_exists_left taken member
    exact rowEvent_row made
  rw [read.accounts, ← back, ← List.map_map, ← accounts]
  exact (List.perm_insertionSort _ _).map rowEvent

theorem Allocation.Read.mem_storage (event : StorageEvent) :
    event ∈ package.segment.storage ↔ ∃ entry ∈ alloc, SlotOf entry event := by
  obtain ⟨rows, stored, members⟩ := collects.storage
  rw [List.nil_append] at stored
  rw [read.storage, List.mem_map]
  constructor
  · rintro ⟨row, inside, rfl⟩
    have known := (List.perm_insertionSort _ _).mem_iff.mp inside
    exact (members row).mp (stored ▸ known)
  · rintro ⟨entry, inside, holds⟩
    have shape : slotEvent (event.address, event.slot, event.value) = event := by
      obtain ⟨block, _, incarnation, _⟩ := holds
      cases event
      simp_all [slotEvent]
    refine ⟨(event.address, event.slot, event.value), ?_, shape⟩
    refine (List.perm_insertionSort _ _).mem_iff.mpr (stored ▸ (members _).mpr ⟨entry, inside, ?_⟩)
    rw [shape]
    exact holds

theorem Allocation.Read.mem_code (blob : CodeBlob) :
    blob ∈ package.segment.code ↔ ∃ entry ∈ alloc, BlobOf env entry blob := by
  rw [read.code, List.mem_map]
  constructor
  · rintro ⟨row, inside, rfl⟩
    obtain absent | ⟨entry, member, found, holds, rfl⟩ := (collects.codes row).mp inside
    · cases absent
    · exact ⟨entry, member, (rowBlob_row holds).symm ▸ holds⟩
  · intro ⟨entry, member, holds⟩
    exact ⟨blob.row, (collects.codes _).mpr (.inr ⟨entry, member, blob, holds, rfl⟩), rowBlob_row holds⟩

theorem Allocation.Read.lifecycle : validateLifecycle env package = .ok () := by
  obtain ⟨events, taken, perm⟩ := read.accounts_perm collects
  have entries : ∀ event ∈ package.segment.accounts, ∃ entry ∈ alloc, ReadAs env entry event := by
    intro event member
    exact forall₂_exists_left taken (perm.mem_iff.mp member)
  have storage : ∀ event ∈ package.segment.storage,
      storageMatches package.mode package.segment.accounts event = true := by
    intro event member
    obtain ⟨entry, inside, slot⟩ := (read.mem_storage collects event).mp member
    obtain ⟨account, present, owner⟩ := forall₂_exists_left taken.flip inside
    have latest := accountInForce_latest package.segment.accounts event.address event.block
    unfold storageMatches
    cases found : accountInForce package.segment.accounts event.address event.block with
    | none =>
        rw [found] at latest
        have same : account.address = event.address :=
          Except.ok.inj (owner.address.symm.trans slot.address)
        have high := latest account (by simp [perm.mem_iff.mpr present, same])
        rw [slot.block, owner.block] at high
        exact absurd high (lt_irrefl _)
    | some account =>
        rw [found] at latest
        obtain ⟨_, _, made⟩ := entries account (List.mem_filter.mp latest.1).1
        simp [made.existing, made.incarnation, slot.incarnation]
  have codes : ¬ package.segment.accounts.any (fun account =>
      account.existing && account.codeHash != env.keccak256 [] &&
        !(package.segment.code.map CodeBlob.codeHash).contains account.codeHash) := by
    simp only [List.any_eq_true, not_exists, not_and, Bool.and_eq_true, bne_iff_ne, Bool.not_eq_true',
      List.contains_eq_mem, decide_eq_false_iff_not, not_not, and_imp]
    intro account member _ coded
    obtain ⟨entry, inside, made⟩ := entries account member
    obtain ⟨bytes, isCode, digest⟩ := made.code
    have nonempty : bytes ≠ [] := by
      rintro rfl
      exact coded digest
    have blob : BlobOf env entry ⟨0, account.codeHash, bytes⟩ :=
      ⟨given_of_taken_code isCode nonempty, nonempty, rfl, digest⟩
    exact List.mem_map.mpr ⟨_, (read.mem_code collects _).mpr ⟨entry, inside, blob⟩, rfl⟩
  unfold validateLifecycle
  rw [if_neg (not_not.mpr (List.all_eq_true.mpr storage)), if_neg (fun both => codes both.2)]

end

/-- The anchor is that of the allocation when the fields read as text are text. -/
theorem Allocation.Read.anchorOf (collects : Collects env alloc ⟨[], [], []⟩ state)
    (read : state.Read hash package) (textual : Textual alloc) : AnchorOf env alloc hash package := by
  obtain ⟨events, taken, perm⟩ := read.accounts_perm collects
  have given : List.Forall₂ (AccountOf env) alloc events := by
    refine List.forall₂_iff_get.mpr ⟨taken.length_eq, ?_⟩
    intro i inside bound
    have made := (List.forall₂_iff_get.mp taken).2 i inside bound
    have texts := textual _ (List.get_mem alloc ⟨i, inside⟩)
    obtain ⟨bytes, isCode, digest⟩ := made.code
    exact ⟨made.block, made.address, made.existing, made.incarnation,
      (given_iff_taken made.nonce).mpr (texts nonceField (by simp)),
      (given_iff_taken made.balance).mpr (texts balanceField (by simp)),
      bytes, (given_iff_taken isCode).mpr (texts codeField (by simp)), digest⟩
  obtain ⟨entries, found, same⟩ := List.perm_comp_forall₂ perm given.flip
  exact ⟨read.mode, read.first, read.last, read.genesis, read.blocks, ⟨entries, same, found.flip⟩,
    read.mem_storage collects, read.distinctStorage, read.mem_code collects, read.distinctCode,
    read.lifecycle collects⟩

/-- Events that are those of the entries only take what the entries give. -/
theorem AnchorOf.textual (anchor : AnchorOf env alloc hash package) : Textual alloc := by
  obtain ⟨entries, perm, given⟩ := anchor.accounts
  intro entry member field known found present
  obtain ⟨event, _, made⟩ := forall₂_exists_left given.flip (perm.mem_iff.mpr member)
  have text : ∀ {α : Type} {parse : Text → Result α} {default value : α},
      Given parse default entry.2 field value → ∃ text, found = .string text := by
    intro α parse default value holds
    rw [Given, present] at holds
    obtain ⟨text, isText, _⟩ := holds
    exact ⟨text, isText⟩
  simp only [List.mem_cons, List.not_mem_nil, or_false] at known
  obtain rfl | rfl | rfl := known
  · exact text made.nonce
  · exact text made.balance
  · obtain ⟨_, isCode, _⟩ := made.code
    exact text isCode

end

/-- The bytes are a package that is the anchor of the allocation at the given block. -/
def GenesisFaithful (env : Externals) (genesis response : Json) (bytes : Bytes) : Prop :=
  ∃ alloc hash package, genesis.index allocField = .object alloc ∧
    parseHash ((blockZero response).index hashField) = .ok hash ∧
    readPackage env bytes = .ok package ∧ AnchorOf env alloc hash package

/-- No field that is read as text stands in the allocation as anything else. -/
def GenesisTextual (genesis : Json) : Prop :=
  ∀ alloc, genesis.index allocField = .object alloc → Textual alloc

theorem genesisBlock_hash {block : Json} {hash parent root : Hash32} {timestamp : UInt64}
    (found : genesisBlock block = .ok (hash, parent, root, timestamp)) :
    parseHash (block.index hashField) = .ok hash := by
  obtain ⟨_, found⟩ := guard_eq_ok.mp found
  obtain ⟨hash', isHash, found⟩ := bind_eq_ok.mp found
  obtain ⟨_, _, found⟩ := bind_eq_ok.mp found
  obtain ⟨_, found⟩ := guard_eq_ok.mp found
  obtain ⟨_, _, found⟩ := bind_eq_ok.mp found
  obtain ⟨_, _, found⟩ := bind_eq_ok.mp found
  obtain ⟨_, _, found⟩ := bind_eq_ok.mp found
  cases found
  exact isHash

/-- A genesis anchor that is made is faithful exactly when every nonce, balance and code
of the allocation is given as text: one given otherwise is replaced by its default. -/
theorem genesisAnchor_faithful {env : Externals} {fromSlice : Bytes → Result Json}
    {genesisBytes blockBytes bytes : Bytes} {genesis response : Json}
    (isGenesis : fromSlice genesisBytes = .ok genesis) (isBlock : fromSlice blockBytes = .ok response)
    (reads : ∀ records count, genesisRecords env genesis response = .ok (records, count) →
      ReadsBack env (records.map LineRecord.json) records)
    (made : genesisAnchor env fromSlice genesisBytes blockBytes = .ok bytes) :
    GenesisFaithful env genesis response bytes ↔ GenesisTextual genesis := by
  simp only [genesisAnchor, isGenesis, isBlock, context_ok, ok_bind] at made
  obtain ⟨⟨records, count⟩, written, made⟩ := bind_eq_ok.mp made
  obtain ⟨package, parsed, made⟩ := bind_eq_ok.mp made
  obtain ⟨_, done⟩ := guard_eq_ok.mp made
  cases done
  have back := reads records count written
  obtain ⟨chainId, _, rest⟩ := bind_eq_ok.mp written
  obtain ⟨⟨hash, parent, root, timestamp⟩, isBlockZero, rest⟩ := bind_eq_ok.mp rest
  obtain ⟨alloc, isAlloc, rest⟩ := bind_eq_ok.mp rest
  obtain ⟨_, rest⟩ := guard_eq_ok.mp rest
  obtain ⟨state, collected, done⟩ := bind_eq_ok.mp rest
  cases done
  have object : genesis.index allocField = .object alloc := by
    have shape := orContext_eq_ok.mp isAlloc
    cases found : genesis.index allocField <;> simp_all [Json.asObject]
  have collects := genesisEntries_collects collected
  have framed : ∀ line ∈ (genesisLines chainId hash parent root timestamp state).map LineRecord.json,
      Framed line := by
    intro line member
    obtain ⟨record, inside, rfl⟩ := List.mem_map.mp member
    exact (collects.plain record inside).framed
  have assembled := (readPackage_written framed (by simp [genesisLines]) back).symm.trans
    (writeLines_eq _ ▸ parsed)
  have read := genesisLines_read assembled
  constructor
  · intro ⟨alloc', _, _, same, _, _, anchor⟩ other isOther
    obtain ⟨rfl⟩ := same.symm.trans isOther
    exact anchor.textual
  · intro textual
    exact ⟨alloc, hash, package, object, genesisBlock_hash isBlockZero, parsed,
      read.anchorOf collects (textual alloc object)⟩

/-! One account, given with text and with a number. -/

def loneAddress : Text := hexEncode (Fixed.ofNat 0x11 : Address).bytes

def loneBlock : Json :=
  .object [(resultField, .object [
    (hashField, .string (data32 (.ofNat 0xaa))),
    (numberField, .string zeroText),
    (parentHashField, .string (data32 .zero)),
    (stateRootField, .string (data32 (.ofNat 0xbb))),
    (timestampField, .string ['0', 'x', '2'])])]

def loneBlockText : Text :=
  jsonObject [(resultField, jsonObject [
    (hashField, jsonHash (.ofNat 0xaa)),
    (numberField, jsonText zeroText),
    (parentHashField, jsonHash .zero),
    (stateRootField, jsonHash (.ofNat 0xbb)),
    (timestampField, jsonText ['0', 'x', '2'])])]

/-- An account with code, a slot and the given nonce. -/
def loneEntry (nonce : Json) : Json :=
  .object [
    (balanceField, .string ['0', 'x', '5']),
    (codeField, .string ['0', 'x', '6', '0', '0', '0']),
    (nonceField, nonce),
    (storageField, .object [
      (data32 (.ofNat 0x22), .string (data32 (.ofNat 0x01))),
      (data32 (.ofNat 0x33), .string (data32 .zero))])]

def loneGenesis (nonce : Json) : Json :=
  .object [
    (allocField, .object [(loneAddress, loneEntry nonce)]),
    (configField, .object [(chainIdField, .number ['8', '4', '5', '3'])])]

def loneGenesisText (nonce : Text) : Text :=
  jsonObject [
    (allocField, jsonObject [(loneAddress, jsonObject [
      (balanceField, jsonText ['0', 'x', '5']),
      (codeField, jsonText ['0', 'x', '6', '0', '0', '0']),
      (nonceField, nonce),
      (storageField, jsonObject [
        (data32 (.ofNat 0x22), jsonHash (.ofNat 0x01)),
        (data32 (.ofNat 0x33), jsonHash .zero)])])]),
    (configField, jsonObject [(chainIdField, ['8', '4', '5', '3'])])]

def loneFromSlice (bytes : Bytes) : Result Json :=
  if bytes = asciiBytes loneBlockText then .ok loneBlock
  else if bytes = asciiBytes (loneGenesisText (jsonText ['0', 'x', '7'])) then
    .ok (loneGenesis (.string ['0', 'x', '7']))
  else if bytes = asciiBytes (loneGenesisText ['7']) then .ok (loneGenesis (.number ['7']))
  else bail "not in the table"

def loneLines (nonce : Text) : List LineRecord := [
  .header exportSchema ['0', 'x', '2', '1', '0', '5'] (.ofNat 0xaa) anchorText (some zeroText)
    (some (.ofNat 0xaa)) none none,
  .block zeroText (.ofNat 0xaa) .zero (.ofNat 0xbb) ['0', 'x', '2'],
  .account zeroText (.ofNat 0x11) true zeroText (some nonce) (some ['0', 'x', '5'])
    (some (.ofNat 0x07ad118d6cc8642c86c03827f276d8b791a65e5c99a3845faf186be720a1455d)),
  .storage zeroText (.ofNat 0x11) zeroText (.ofNat 0x22) (.ofNat 0x01),
  .code (.ofNat 0x07ad118d6cc8642c86c03827f276d8b791a65e5c99a3845faf186be720a1455d)
    ['0', 'x', '6', '0', '0', '0'],
  .blockEnd zeroText ['0', 'x', '3'],
  .trailer zeroText (.ofNat 0xaa) ['0', 'x', '1']]

def loneEnv : Externals :=
  .ofRecords
    { sha256 := digestOf [
        (writeLines (loneLines ['0', 'x', '7']), 0x2b80fd67a9e389a93b7ce7aef5b7165bb1f7a079fd59b236120136e7408158d3),
        (writeLines (loneLines zeroText), 0xdd2c43036bd8b7fac0283fc0e1c7671120ea086a1f35400b29f36970982bc8c7)]
      zstdCompress := fun _ => bail "not in the table"
      zstdDecompress := fun _ _ => bail "not in the table" }
    [([], 0xc5d2460186f7233c927e7db2dcc703c0e500b653ca82273b7bfad8045d85a470),
      ([0x60, 0x00], 0x07ad118d6cc8642c86c03827f276d8b791a65e5c99a3845faf186be720a1455d)]
    (loneLines ['0', 'x', '7'] ++ loneLines zeroText) []

theorem loneFromSlice_block : loneFromSlice (asciiBytes loneBlockText) = .ok loneBlock := if_pos rfl

theorem loneFromSlice_genesis :
    loneFromSlice (asciiBytes (loneGenesisText (jsonText ['0', 'x', '7']))) =
      .ok (loneGenesis (.string ['0', 'x', '7'])) := by
  have other : asciiBytes (loneGenesisText (jsonText ['0', 'x', '7'])) ≠ asciiBytes loneBlockText := by
    decide +kernel
  rw [loneFromSlice, if_neg other, if_pos rfl]

theorem loneGenesis_textual (nonce : Json) :
    GenesisTextual (loneGenesis nonce) ↔ ∃ text, nonce = .string text := by
  have alloc : (loneGenesis nonce).index allocField = .object [(loneAddress, loneEntry nonce)] := rfl
  constructor
  · intro textual
    exact textual _ alloc (loneAddress, loneEntry nonce) (by simp) nonceField (by simp) nonce rfl
  · intro ⟨text, isText⟩ other given entry member field known found present
    obtain ⟨rfl⟩ := alloc.symm.trans given
    obtain rfl := List.mem_singleton.mp member
    simp only [List.mem_cons, List.not_mem_nil, or_false] at known
    obtain rfl | rfl | rfl := known
    · exact ⟨text, (Option.some.inj present) ▸ isText⟩
    · exact ⟨_, (Option.some.inj present).symm⟩
    · exact ⟨_, (Option.some.inj present).symm⟩

theorem genesisAnchor_faithful_lone :
    genesisAnchor loneEnv loneFromSlice (asciiBytes (loneGenesisText (jsonText ['0', 'x', '7'])))
        (asciiBytes loneBlockText) = .ok (writeLines (loneLines ['0', 'x', '7'])) ∧
      GenesisFaithful loneEnv (loneGenesis (.string ['0', 'x', '7'])) loneBlock
        (writeLines (loneLines ['0', 'x', '7'])) := by
  have written : genesisRecords loneEnv (loneGenesis (.string ['0', 'x', '7'])) loneBlock =
      .ok (loneLines ['0', 'x', '7'], 1) := by decide +kernel
  have made : genesisAnchor loneEnv loneFromSlice
      (asciiBytes (loneGenesisText (jsonText ['0', 'x', '7']))) (asciiBytes loneBlockText) =
      .ok (writeLines (loneLines ['0', 'x', '7'])) := by decide +kernel
  have back : ReadsBack loneEnv ((loneLines ['0', 'x', '7']).map LineRecord.json) (loneLines ['0', 'x', '7']) :=
    ⟨by decide +kernel, by decide +kernel⟩
  have reads : ∀ records count,
      genesisRecords loneEnv (loneGenesis (.string ['0', 'x', '7'])) loneBlock = .ok (records, count) →
        ReadsBack loneEnv (records.map LineRecord.json) records := by
    intro records count other
    rw [written] at other
    cases other
    exact back
  have faithful := genesisAnchor_faithful loneFromSlice_genesis loneFromSlice_block reads made
  exact ⟨made, faithful.mpr ((loneGenesis_textual _).mpr ⟨_, rfl⟩)⟩

/-- A nonce given as a number becomes zero. -/
theorem genesisAnchor_number :
    genesisAnchor loneEnv loneFromSlice (asciiBytes (loneGenesisText ['7'])) (asciiBytes loneBlockText) =
        .ok (writeLines (loneLines zeroText)) ∧
      ¬ GenesisFaithful loneEnv (loneGenesis (.number ['7'])) loneBlock (writeLines (loneLines zeroText)) := by
  refine ⟨by decide +kernel, ?_⟩
  intro ⟨alloc, _, _, given, _, _, anchor⟩
  have textual : GenesisTextual (loneGenesis (.number ['7'])) := by
    intro other isOther
    obtain ⟨rfl⟩ := given.symm.trans isOther
    exact anchor.textual
  obtain ⟨_, isText⟩ := (loneGenesis_textual _).mp textual
  cases isText

end Fossil
