import Fossil.Export

/-! What the archive reads in an export.

Each block is followed from its records to the events the archive reads, and the loop
over the blocks to the groups of a package. -/

namespace Fossil

/-! Lines. -/

/-- The texts of a record. -/
def ExportRecord.texts : ExportRecord → List Text
  | .header precedingNumber precedingHash => [precedingNumber, precedingHash]
  | .block number hash parentHash stateRoot timestamp => [number, hash, parentHash, stateRoot, timestamp]
  | .account number address _ incarnation state => [number, address, incarnation] ++
      (match state with
      | none => []
      | some (nonce, balance, codeHash) => [nonce, balance, codeHash])
  | .storage number address incarnation slot value => [number, address, incarnation, slot, value]
  | .code codeHash bytes => [codeHash, bytes]
  | .blockEnd number eventCount => [number, eventCount]
  | .trailer endNumber endHash blockCount => [endNumber, endHash, blockCount]

def ExportRecord.Plain (record : ExportRecord) : Prop := ∀ text ∈ record.texts, Printable text

theorem ExportRecord.Plain.framed {record : ExportRecord} (plain : record.Plain) : Framed record.dumps := by
  refine jsonObject_framed ?_
  have schema : Printable exportSchema := by decide
  have chain : Printable baseChainId := by decide
  have mode : Printable deltaText := by decide
  have storage : Printable storageKeyName := by decide
  have number : Printable numberKey := by decide
  have hash : Printable hashKey := by decide
  have parentHash : Printable parentHashKey := by decide
  have stateRoot : Printable stateRootKey := by decide
  have timestamp : Printable timestampKey := by decide
  have block : Printable blockKey := by decide
  have existing : Printable existsKey := by decide
  have nonce : Printable nonceKey := by decide
  have balance : Printable balanceKey := by decide
  have codeHash : Printable codeHashKey := by decide
  cases record with
  | account number address existing incarnation state =>
      cases state <;>
        simp_all [ExportRecord.Plain, ExportRecord.texts, ExportRecord.fields, jsonText_printable,
          jsonBool_printable]
  | _ =>
      simp_all [ExportRecord.Plain, ExportRecord.texts, ExportRecord.fields, jsonText_printable,
        jsonHash_printable]

/-- Digests and addresses match their patterns, the other texts are printable. -/
def ExportRecord.Shaped : ExportRecord → Prop
  | .header precedingNumber precedingHash => Printable precedingNumber ∧ hashPattern precedingHash = true
  | .block number hash parentHash stateRoot timestamp => Printable number ∧ hashPattern hash = true ∧
      hashPattern parentHash = true ∧ hashPattern stateRoot = true ∧ Printable timestamp
  | .account number address _ incarnation state => Printable number ∧ addressPattern address = true ∧
      Printable incarnation ∧ ∀ nonce balance codeHash, state = some (nonce, balance, codeHash) →
        Printable nonce ∧ Printable balance ∧ hashPattern codeHash = true
  | .storage number address incarnation slot value => Printable number ∧ addressPattern address = true ∧
      Printable incarnation ∧ hashPattern slot = true ∧ hashPattern value = true
  | .code codeHash bytes => hashPattern codeHash = true ∧ Printable bytes
  | .blockEnd number eventCount => Printable number ∧ Printable eventCount
  | .trailer endNumber endHash blockCount =>
      Printable endNumber ∧ hashPattern endHash = true ∧ Printable blockCount

theorem pattern_printable {text : Text} {n : Nat} (matched : fixedPattern (2 * n) text = true) :
    Printable text := by
  obtain ⟨value, parsed⟩ := fixedPattern_iff.mp matched
  rw [parseFixed_eq_ok.mp parsed]
  simp

theorem addressPattern_parsed {text : Text} (matched : addressPattern text = true) :
    ∃ address, parseFixed 20 text = .ok address := fixedPattern_iff.mp matched

theorem hashPattern_parsed {text : Text} (matched : hashPattern text = true) :
    ∃ hash, parseFixed 32 text = .ok hash := fixedPattern_iff.mp matched

theorem addressPattern_printable {text : Text} (matched : addressPattern text = true) : Printable text :=
  @pattern_printable text 20 matched

theorem hashPattern_printable {text : Text} (matched : hashPattern text = true) : Printable text :=
  @pattern_printable text 32 matched

theorem hexNumber_printable (number : Nat) : Printable (hexNumber number) := by
  simp only [hexNumber, printable_cons]
  exact ⟨by decide, by decide, (toDigits_spec number).1.printable⟩

theorem quantityPattern_printable {text : Text} (matched : quantityPattern text = true) : Printable text := by
  rw [quantityPattern_hexNumber matched]
  exact hexNumber_printable _

theorem ExportRecord.Shaped.plain {line : ExportRecord} (shaped : line.Shaped) : line.Plain := by
  cases line with
  | account number address existing incarnation state =>
      obtain ⟨isNumber, isAddress, isIncarnation, isState⟩ := shaped
      have owner := addressPattern_printable isAddress
      cases state with
      | none => simp [ExportRecord.Plain, ExportRecord.texts, isNumber, owner, isIncarnation]
      | some state =>
          obtain ⟨nonce, balance, code⟩ := isState _ _ _ rfl
          simp [ExportRecord.Plain, ExportRecord.texts, isNumber, owner, isIncarnation, nonce, balance,
            hashPattern_printable code]
  | _ =>
      simp_all [ExportRecord.Shaped, ExportRecord.Plain, ExportRecord.texts, hashPattern_printable,
        addressPattern_printable]

theorem ExportRecord.Shaped.record {line : ExportRecord} (shaped : line.Shaped) :
    ∃ record, line.record = .ok record := by
  cases line with
  | header precedingNumber precedingHash =>
      obtain ⟨_, isHash⟩ := hashPattern_parsed shaped.2
      exact ⟨_, by simp only [ExportRecord.record, isHash, ok_bind]; rfl⟩
  | block number hash parentHash stateRoot timestamp =>
      obtain ⟨_, one, two, three, _⟩ := shaped
      obtain ⟨_, isHash⟩ := hashPattern_parsed one
      obtain ⟨_, isParent⟩ := hashPattern_parsed two
      obtain ⟨_, isRoot⟩ := hashPattern_parsed three
      exact ⟨_, by simp only [ExportRecord.record, isHash, isParent, isRoot, ok_bind]; rfl⟩
  | account number address existing incarnation state =>
      obtain ⟨_, isAddress, _, isState⟩ := shaped
      obtain ⟨_, isOwner⟩ := addressPattern_parsed isAddress
      cases state with
      | none => exact ⟨_, by simp only [ExportRecord.record, isOwner, ok_bind]; rfl⟩
      | some state =>
          obtain ⟨_, _, code⟩ := isState _ _ _ rfl
          obtain ⟨_, isCode⟩ := hashPattern_parsed code
          exact ⟨_, by simp only [ExportRecord.record, isOwner, isCode, ok_bind]; rfl⟩
  | storage number address incarnation slot value =>
      obtain ⟨_, isAddress, _, isSlot, isValue⟩ := shaped
      obtain ⟨_, owner⟩ := addressPattern_parsed isAddress
      obtain ⟨_, key⟩ := hashPattern_parsed isSlot
      obtain ⟨_, stored⟩ := hashPattern_parsed isValue
      exact ⟨_, by simp only [ExportRecord.record, owner, key, stored, ok_bind]; rfl⟩
  | code codeHash bytes =>
      obtain ⟨_, isHash⟩ := hashPattern_parsed shaped.1
      exact ⟨_, by simp only [ExportRecord.record, isHash, ok_bind]; rfl⟩
  | blockEnd number eventCount => exact ⟨_, rfl⟩
  | trailer endNumber endHash blockCount =>
      obtain ⟨_, isHash⟩ := hashPattern_parsed shaped.2.1
      exact ⟨_, by simp only [ExportRecord.record, isHash, ok_bind]; rfl⟩

/-- A line that the archive reads as an event of the block with the given number. -/
def Wrote (env : Externals) (number : UInt64) (line : ExportRecord) (event : PackageEvent) : Prop :=
  ∃ record, line.record = .ok record ∧ SpellsEvent env number record event

/-! The shape of what is written. -/

section

variable {name : Text} {db later : Journal}

theorem exportAccounts_shaped {items : List (Text × AccountEntry)} {records : List ExportRecord}
    (printable : Printable name) (wellFormed : ∀ row ∈ items, addressPattern row.1 = true ∧ row.2.WellFormed)
    (done : exportAccounts name db items = .ok (records, later)) : ∀ line ∈ records, line.Shaped := by
  induction items generalizing db records with
  | nil =>
      cases done
      simp
  | cons row items ih =>
      obtain ⟨address, entry⟩ := row
      obtain ⟨⟨incarnation, mid⟩, called, rest⟩ := bind_eq_ok.mp done
      obtain ⟨⟨others, final⟩, more, last⟩ := bind_eq_ok.mp rest
      cases last
      obtain ⟨⟨matched, formed⟩, wellFormedRest⟩ := List.forall_mem_cons.mp wellFormed
      refine List.forall_mem_cons.mpr ⟨⟨printable, matched, hexNumber_printable _, ?_⟩,
        ih wellFormedRest more⟩
      intro nonce balance codeHash state
      unfold AccountEntry.WellFormed at formed
      dsimp only at formed
      split at formed
      · obtain ⟨_, _, _, same, isNonce, isBalance, isCode⟩ := formed
        obtain ⟨rfl, rfl, rfl⟩ := by simpa using state.symm.trans same
        exact ⟨quantityPattern_printable isNonce, quantityPattern_printable isBalance, isCode⟩
      · rw [formed] at state
        cases state

theorem exportStorage_shaped {items : List (Text × List (Text × Text))} {records : List ExportRecord}
    (printable : Printable name)
    (wellFormed : ∀ row ∈ items, addressPattern row.1 = true ∧
      ∀ slot ∈ row.2, hashPattern slot.1 = true ∧ hashPattern slot.2 = true)
    (done : exportStorage name db items = .ok records) : ∀ line ∈ records, line.Shaped := by
  induction items generalizing records with
  | nil =>
      cases done
      simp
  | cons row items ih =>
      obtain ⟨incarnation, found, rest⟩ := bind_eq_ok.mp done
      obtain ⟨others, more, last⟩ := bind_eq_ok.mp rest
      cases last
      obtain ⟨⟨matched, each⟩, wellFormedRest⟩ := List.forall_mem_cons.mp wellFormed
      refine List.forall_mem_append.mpr ⟨?_, ih wellFormedRest more⟩
      intro line member
      obtain ⟨slot, inside, rfl⟩ := List.mem_map.mp member
      exact ⟨printable, matched, hexNumber_printable _, each slot (mem_sortedItems.mp inside)⟩

theorem exportCodes_shaped {items : List (Text × Text)} {seen after : List Text} {records : List ExportRecord}
    (wellFormed : ∀ row ∈ items, hashPattern row.1 = true ∧ codePattern row.2 = true)
    (done : exportCodes seen items = (records, after)) : ∀ line ∈ records, line.Shaped := by
  induction items generalizing seen records with
  | nil =>
      obtain ⟨rfl, rfl⟩ := Prod.mk.inj done
      simp
  | cons row items ih =>
      obtain ⟨⟨matched, isCode⟩, wellFormedRest⟩ := List.forall_mem_cons.mp wellFormed
      rw [exportCodes] at done
      split at done
      · exact ih wellFormedRest done
      · cases more : exportCodes (row.1 :: seen) items with
        | mk others final =>
            simp only [more] at done
            obtain ⟨rfl, rfl⟩ := Prod.mk.inj done
            obtain ⟨bytes, parsed⟩ := codePattern_parsed isCode
            refine List.forall_mem_cons.mpr ⟨⟨matched, ?_⟩, ih wellFormedRest more⟩
            rw [parseData_eq_ok.mp parsed]
            simp

theorem convertBlock_parent {number : Nat} {state next : ConvertState} {block : ReplayBlock}
    (done : convertBlock number state block = .ok next) : next.parent = block.hash := by
  obtain ⟨_, _, rest⟩ := bind_eq_ok.mp done
  obtain ⟨_, _, rest⟩ := bind_eq_ok.mp rest
  cases rest
  rfl

theorem convertBlock_shaped {number : Nat} {state next : ConvertState} {block : ReplayBlock}
    (wellFormed : block.WellFormed) (shaped : ∀ line ∈ state.out, line.Shaped)
    (done : convertBlock number state block = .ok next) : ∀ line ∈ next.out, line.Shaped := by
  obtain ⟨⟨accountLines, db⟩, accountsDone, rest⟩ := bind_eq_ok.mp done
  obtain ⟨storageLines, storageDone, rest⟩ := bind_eq_ok.mp rest
  cases codesDone : exportCodes state.seenCode (sortedItems block.codes) with
  | mk codeLines seen =>
      simp only [codesDone] at rest
      cases rest
      have printable := hexNumber_printable number
      have accounts := exportAccounts_shaped printable
        (fun row member => wellFormed.accounts row (mem_sortedItems.mp member)) accountsDone
      have storage := exportStorage_shaped printable
        (fun row member => ⟨(wellFormed.storage row (mem_sortedItems.mp member)).1,
          (wellFormed.storage row (mem_sortedItems.mp member)).2.2⟩) storageDone
      have codes := exportCodes_shaped
        (fun row member => wellFormed.codes row (mem_sortedItems.mp member)) codesDone
      intro line member
      simp only [List.mem_append, List.mem_singleton] at member
      obtain ((old | rfl) | ((inside | inside) | inside)) | rfl := member
      · exact shaped line old
      · exact ⟨printable, wellFormed.hash, wellFormed.parentHash, wellFormed.stateRoot,
          quantityPattern_printable wellFormed.timestamp⟩
      · exact accounts line inside
      · exact storage line inside
      · exact codes line inside
      · exact ⟨printable, hexNumber_printable _⟩

end

/-! One block. -/

/-- The numbers of the replay fit the archive's types, and codes are named by their hash. -/
structure ReplayBlock.Bounded (env : Externals) (block : ReplayBlock) : Prop where
  timestamp : quantityValue block.timestamp < 2 ^ 64
  accounts : ∀ row ∈ block.accounts, ∀ nonce balance codeHash,
    row.2.state = some (nonce, balance, codeHash) →
      quantityValue nonce < 2 ^ 64 ∧ quantityValue balance < 2 ^ 256
  codes : ∀ row ∈ block.codes, ∀ bytes, parseData row.2 = .ok bytes →
    parseFixed 32 row.1 = .ok (env.keccak256 bytes)

def AccountEntry.call (row : Text × AccountEntry) : LifetimeCall :=
  ⟨row.1, row.2.previousExists, row.2.existing, row.2.wipedStorage⟩

/-- The calls of a block, in the order they are made. -/
def ReplayBlock.calls (block : ReplayBlock) : List LifetimeCall :=
  (sortedItems block.accounts).map AccountEntry.call

/-- An account event carries the incarnation of its lifetime call. -/
structure Numbered (number : UInt64) (entry : Lifetime) (event : AccountEvent) : Prop where
  block : event.block = number
  address : parseFixed 20 entry.address = .ok event.address
  existing : event.existing = entry.existing
  bound : entry.incarnation < sqliteIntegers
  incarnation : event.incarnation = UInt64.ofNat entry.incarnation

section

variable {env : Externals} {number : UInt64} {name : Text} {db later : Journal}

/-- The record of an account entry and the event the archive reads in it. -/
theorem account_wrote (isNumber : parseQuantity name = .ok number)
    {row : Text × AccountEntry} {incarnation : Nat} (matched : addressPattern row.1 = true)
    (formed : row.2.WellFormed)
    (small : ∀ nonce balance codeHash, row.2.state = some (nonce, balance, codeHash) →
      quantityValue nonce < 2 ^ 64 ∧ quantityValue balance < 2 ^ 256)
    (bound : incarnation < sqliteIntegers) :
    ∃ event, Numbered number ⟨AccountEntry.call row, incarnation⟩ event ∧
      Wrote env number (.account name row.1 row.2.existing (hexNumber incarnation) row.2.state)
        (.account event) := by
  obtain ⟨owner, isOwner⟩ := addressPattern_parsed matched
  have fits : incarnation < 2 ^ 64 := by
    unfold sqliteIntegers at bound
    omega
  have counted := parseQuantity_hexNumber fits
  unfold AccountEntry.WellFormed at formed
  cases existing : row.2.existing with
  | true =>
      obtain ⟨nonce, balance, codeHash, state, isNonce, isBalance, isCode⟩ := (if_pos existing ▸ formed)
      obtain ⟨nonceSmall, balanceSmall⟩ := small nonce balance codeHash state
      obtain ⟨amount, isAmount⟩ := quantityPattern_parsedU256 isBalance balanceSmall
      obtain ⟨code, isHash⟩ := hashPattern_parsed isCode
      let event : AccountEvent := ⟨number, owner, true, UInt64.ofNat incarnation,
        UInt64.ofNat (quantityValue nonce), amount, code⟩
      have fields : SpellsState (some nonce) (some balance) (some code) event :=
        ⟨⟨nonce, rfl, quantityPattern_parsed isNonce nonceSmall⟩, ⟨balance, rfl, isAmount⟩, rfl⟩
      refine ⟨event, ⟨rfl, isOwner, existing.symm, bound, rfl⟩,
        .account name owner true (hexNumber incarnation) (some nonce) (some balance) (some code), ?_,
        @SpellsEvent.account env number name _ _ _ _ event isNumber rfl counted fields⟩
      simp only [state, ExportRecord.record, isOwner, isHash, ok_bind]
  | false =>
      have state : row.2.state = none := by simpa [existing] using formed
      let event : AccountEvent := ⟨number, owner, false, UInt64.ofNat incarnation, 0, Fixed.zero, Fixed.zero⟩
      have fields : SpellsState none none none event := ⟨⟨rfl, rfl, rfl⟩, rfl, rfl, rfl⟩
      refine ⟨event, ⟨rfl, isOwner, existing.symm, bound, rfl⟩,
        .account name owner false (hexNumber incarnation) none none none, ?_,
        @SpellsEvent.account env number name _ _ _ _ event isNumber rfl counted fields⟩
      simp only [state, ExportRecord.record, isOwner, ok_bind]

theorem exportAccounts_eq_ok {items : List (Text × AccountEntry)} {records : List ExportRecord}
    (isNumber : parseQuantity name = .ok number)
    (wellFormed : ∀ row ∈ items, addressPattern row.1 = true ∧ row.2.WellFormed)
    (bounded : ∀ row ∈ items, ∀ nonce balance codeHash, row.2.state = some (nonce, balance, codeHash) →
      quantityValue nonce < 2 ^ 64 ∧ quantityValue balance < 2 ^ 256)
    (done : exportAccounts name db items = .ok (records, later)) :
    ∃ history events, db.Answers history later ∧
      history.map Lifetime.toLifetimeCall = items.map AccountEntry.call ∧
      List.Forall₂ (Numbered number) history events ∧
      List.Forall₂ (fun line event => Wrote env number line (.account event)) records events := by
  induction items generalizing db records with
  | nil =>
      cases done
      exact ⟨[], [], answers_nil.mpr rfl, rfl, .nil, .nil⟩
  | cons row items ih =>
      obtain ⟨address, entry⟩ := row
      obtain ⟨⟨incarnation, mid⟩, called, rest⟩ := bind_eq_ok.mp done
      obtain ⟨⟨others, final⟩, more, last⟩ := bind_eq_ok.mp rest
      cases last
      obtain ⟨⟨matched, formed⟩, wellFormedRest⟩ := List.forall_mem_cons.mp wellFormed
      obtain ⟨small, boundedRest⟩ := List.forall_mem_cons.mp bounded
      obtain ⟨history, events, answers, calls, numbered, wrote⟩ := ih wellFormedRest boundedRest more
      obtain ⟨owner, isOwner⟩ := addressPattern_parsed matched
      have bound : incarnation < sqliteIntegers := (lifetime_renumbers called).bound
      obtain ⟨event, numbered', wrote'⟩ := @account_wrote env number name isNumber
        (address, entry) incarnation matched formed small bound
      exact ⟨⟨AccountEntry.call (address, entry), incarnation⟩ :: history, event :: events,
        answers_cons.mpr ⟨mid, called, answers⟩, by rw [List.map_cons, calls, List.map_cons],
        .cons numbered' numbered, .cons wrote' wrote⟩

/-! Storage. -/

/-- The slots of a block in the order they are written. -/
def storageRows (items : List (Text × List (Text × Text))) : List (Text × Text × Text) :=
  items.flatMap (fun row => (sortedItems row.2).map (fun slot => (row.1, slot.1, slot.2)))

/-- A storage event carries the incarnation the journal has for its address. -/
structure Filed (number : UInt64) (db : Journal) (row : Text × Text × Text) (event : StorageEvent) :
    Prop where
  block : event.block = number
  address : parseFixed 20 row.1 = .ok event.address
  slot : parseFixed 32 row.2.1 = .ok event.slot
  value : parseFixed 32 row.2.2 = .ok event.value
  incarnation : ∃ incarnation, storageIncarnation db row.1 = .ok incarnation ∧
    incarnation < sqliteIntegers ∧ event.incarnation = UInt64.ofNat incarnation

/-- The integers of the table are signed 64-bit numbers. -/
def Journal.Stored (db : Journal) : Prop := ∀ address row, db address = some row → row.incarnation < sqliteIntegers

theorem Journal.Stored.incarnation {address : Text} {incarnation : Nat} (stored : db.Stored)
    (found : storageIncarnation db address = .ok incarnation) : incarnation < sqliteIntegers := by
  unfold storageIncarnation at found
  cases row : db address with
  | none =>
      rw [row] at found
      cases found
      decide
  | some row' =>
      rw [row] at found
      dsimp only at found
      split at found
      · cases found
        exact stored address row' row
      · cases found

theorem slot_wrote (isNumber : parseQuantity name = .ok number)
    {row : Text × Text × Text} {incarnation : Nat} (address : addressPattern row.1 = true)
    (slot : hashPattern row.2.1 = true) (value : hashPattern row.2.2 = true)
    (found : storageIncarnation db row.1 = .ok incarnation) (bound : incarnation < sqliteIntegers) :
    ∃ event, Filed number db row event ∧
      Wrote env number (.storage name row.1 (hexNumber incarnation) row.2.1 row.2.2) (.storage event) := by
  obtain ⟨owner, isOwner⟩ := addressPattern_parsed address
  obtain ⟨key, isKey⟩ := hashPattern_parsed slot
  obtain ⟨stored, isStored⟩ := hashPattern_parsed value
  have fits : incarnation < 2 ^ 64 := by
    unfold sqliteIntegers at bound
    omega
  let event : StorageEvent := ⟨number, owner, UInt64.ofNat incarnation, key, stored⟩
  refine ⟨event, ⟨rfl, isOwner, isKey, isStored, incarnation, found, bound, rfl⟩,
    .storage name owner (hexNumber incarnation) key stored, ?_,
    @SpellsEvent.storage env number name _ event isNumber rfl (parseQuantity_hexNumber fits)⟩
  simp only [ExportRecord.record, isOwner, isKey, isStored, ok_bind]

theorem exportStorage_eq_ok {items : List (Text × List (Text × Text))} {records : List ExportRecord}
    (isNumber : parseQuantity name = .ok number) (stored : db.Stored)
    (wellFormed : ∀ row ∈ items, addressPattern row.1 = true ∧
      ∀ slot ∈ row.2, hashPattern slot.1 = true ∧ hashPattern slot.2 = true)
    (done : exportStorage name db items = .ok records) :
    ∃ events, List.Forall₂ (Filed number db) (storageRows items) events ∧
      List.Forall₂ (fun line event => Wrote env number line (.storage event)) records events := by
  induction items generalizing records with
  | nil =>
      cases done
      exact ⟨[], .nil, .nil⟩
  | cons row items ih =>
      obtain ⟨address, slots⟩ := row
      obtain ⟨incarnation, found, rest⟩ := bind_eq_ok.mp done
      obtain ⟨others, more, last⟩ := bind_eq_ok.mp rest
      cases last
      obtain ⟨⟨matched, each⟩, wellFormedRest⟩ := List.forall_mem_cons.mp wellFormed
      obtain ⟨events, filed, wrote⟩ := ih wellFormedRest more
      have bound := stored.incarnation found
      have one : ∀ some : List (Text × Text), (∀ slot ∈ some, slot ∈ slots) →
          ∃ events, List.Forall₂ (Filed number db) (some.map (fun slot => (address, slot.1, slot.2))) events ∧
            List.Forall₂ (fun line event => Wrote env number line (.storage event))
              (some.map (fun slot => .storage name address (hexNumber incarnation) slot.1 slot.2)) events := by
        intro some inside
        induction some with
        | nil => exact ⟨[], .nil, .nil⟩
        | cons slot some ihSlots =>
            obtain ⟨present, insideRest⟩ := List.forall_mem_cons.mp inside
            obtain ⟨more', filed', wrote'⟩ := ihSlots insideRest
            obtain ⟨isSlot, isValue⟩ := each slot present
            obtain ⟨event, isFiled, isWrote⟩ := @slot_wrote env number name db isNumber
              (address, slot.1, slot.2) incarnation matched isSlot isValue found bound
            exact ⟨event :: more', .cons isFiled filed', .cons isWrote wrote'⟩
      obtain ⟨front, filed', wrote'⟩ := one (sortedItems slots) (fun _ => mem_sortedItems.mp)
      exact ⟨front ++ events, List.rel_append filed' filed, List.rel_append wrote' wrote⟩

/-! Code. -/

/-- Blobs that are new, and after which their hashes are known. -/
structure Fresh (seen after : List Text) (blobs : List CodeBlob) : Prop where
  distinct : (blobs.map CodeBlob.codeHash).Nodup
  unseen : ∀ blob ∈ blobs, data32 blob.codeHash ∉ seen
  known : ∀ blob ∈ blobs, data32 blob.codeHash ∈ after
  kept : ∀ digest ∈ seen, digest ∈ after

theorem exportCodes_eq {items : List (Text × Text)} {seen after : List Text} {records : List ExportRecord}
    (wellFormed : ∀ row ∈ items, hashPattern row.1 = true ∧ codePattern row.2 = true)
    (named : ∀ row ∈ items, ∀ bytes, parseData row.2 = .ok bytes →
      parseFixed 32 row.1 = .ok (env.keccak256 bytes))
    (done : exportCodes seen items = (records, after)) :
    ∃ blobs, Fresh seen after blobs ∧
      List.Forall₂ (fun line blob => Wrote env number line (.code blob)) records blobs := by
  induction items generalizing seen records with
  | nil =>
      obtain ⟨rfl, rfl⟩ := Prod.mk.inj done
      exact ⟨[], ⟨by simp, by simp, by simp, by simp⟩, .nil⟩
  | cons row items ih =>
      obtain ⟨⟨matched, isCode⟩, wellFormedRest⟩ := List.forall_mem_cons.mp wellFormed
      obtain ⟨name', namedRest⟩ := List.forall_mem_cons.mp named
      rw [exportCodes] at done
      split at done
      · exact ih wellFormedRest namedRest done
      · rename_i unseen
        cases more : exportCodes (row.1 :: seen) items with
        | mk others final =>
            simp only [more] at done
            obtain ⟨rfl, rfl⟩ := Prod.mk.inj done
            obtain ⟨blobs, fresh, wrote⟩ := ih wellFormedRest namedRest more
            obtain ⟨bytes, parsed⟩ := codePattern_parsed isCode
            have isHash := name' bytes parsed
            have digest : row.1 = data32 (env.keccak256 bytes) := parseFixed_eq_ok.mp isHash
            let blob : CodeBlob := ⟨number, env.keccak256 bytes, bytes⟩
            have spells : Wrote env number (.code row.1 row.2) (.code blob) := by
              refine ⟨.code (env.keccak256 bytes) row.2, ?_,
                @SpellsEvent.code env number row.2 blob rfl parsed rfl⟩
              simp only [ExportRecord.record, isHash, ok_bind]
            refine ⟨blob :: blobs, ⟨?_, ?_, ?_, ?_⟩, .cons spells wrote⟩
            · rw [List.map_cons, List.nodup_cons]
              refine ⟨?_, fresh.distinct⟩
              intro again
              obtain ⟨other, member, same⟩ := List.mem_map.mp again
              exact fresh.unseen other member (by rw [same, ← digest]; simp)
            · intro other member
              obtain rfl | inside := List.mem_cons.mp member
              · exact digest ▸ unseen
              · exact fun old => fresh.unseen other inside (List.mem_cons_of_mem _ old)
            · intro other member
              obtain rfl | inside := List.mem_cons.mp member
              · exact fresh.kept _ (by simp [blob, digest])
              · exact fresh.known other inside
            · intro old member
              exact fresh.kept old (List.mem_cons_of_mem _ member)

/-! A whole block. -/

/-- How the archive reads a block that was exported with the journal `db` before it. -/
structure BlockExported (number : Nat) (parent : Text) (db : Journal) (seen : List Text)
    (block : ReplayBlock) (group : BlockGroup) (later : Journal) (after : List Text) : Prop where
  number : group.block.number.toNat = number
  parent : block.parentHash = parent
  hash : parseFixed 32 block.hash = .ok group.block.hash
  parentHash : parseFixed 32 block.parentHash = .ok group.block.parentHash
  stateRoot : parseFixed 32 block.stateRoot = .ok group.block.stateRoot
  timestamp : parseQuantity block.timestamp = .ok group.block.timestamp
  accounts : ∃ history, db.Answers history later ∧
    history.map Lifetime.toLifetimeCall = block.calls ∧
    List.Forall₂ (Numbered group.block.number) history group.accounts
  storage : List.Forall₂ (Filed group.block.number later) (storageRows (sortedItems block.storage))
    group.storage
  code : Fresh seen after group.code

/-- Lines that the archive reads as the records of a group. -/
def WroteGroup (env : Externals) (lines : List ExportRecord) (group : BlockGroup) : Prop :=
  ∃ records : GroupLines,
    List.Forall₂ (fun line record => ExportRecord.record line = .ok record) lines records.records ∧
      records.Spells env group

theorem wrote_records {lines : List ExportRecord} {events : List PackageEvent}
    (wrote : List.Forall₂ (Wrote env number) lines events) :
    ∃ records, List.Forall₂ (fun line record => ExportRecord.record line = .ok record) lines records ∧
      List.Forall₂ (SpellsEvent env number) records events := by
  induction wrote with
  | nil => exact ⟨[], .nil, .nil⟩
  | cons one _ ih =>
      obtain ⟨record, read, spells⟩ := one
      obtain ⟨records, reads, spelt⟩ := ih
      exact ⟨record :: records, .cons read reads, .cons spells spelt⟩

/-- Accounts rise with their addresses. -/
theorem numbered_rising {history : List Lifetime} {events : List AccountEvent}
    (numbered : List.Forall₂ (Numbered number) history events)
    (sorted : (history.map (fun entry => entry.address)).Pairwise (· < ·)) :
    (events.map AccountEvent.address).Pairwise (· < ·) := by
  induction numbered with
  | nil => exact .nil
  | cons one rest ih =>
      rw [List.map_cons, List.pairwise_cons] at sorted ⊢
      refine ⟨?_, ih sorted.2⟩
      intro address member
      obtain ⟨event, inside, rfl⟩ := List.mem_map.mp member
      obtain ⟨entry, present, other⟩ := forall₂_exists_left rest inside
      exact parseFixed_lt one.address other.address (sorted.1 _ (List.mem_map.mpr ⟨entry, present, rfl⟩))

theorem storageRows_sorted {items : List (Text × List (Text × Text))}
    (keys : (items.map Prod.fst).Pairwise (· < ·)) (slots : ∀ row ∈ items, (row.2.map Prod.fst).Nodup) :
    (storageRows items).Pairwise (fun left right =>
      left.1 < right.1 ∨ left.1 = right.1 ∧ left.2.1 < right.2.1) := by
  unfold storageRows
  rw [List.pairwise_flatMap]
  constructor
  · intro row member
    rw [List.pairwise_map]
    refine (List.pairwise_map.mp (sortedItems_pairwise (slots row member))).imp ?_
    intro left right less
    exact .inr ⟨rfl, less⟩
  · refine (List.pairwise_map.mp keys).imp ?_
    intro left right less one isLeft two isRight
    obtain ⟨_, _, rfl⟩ := List.mem_map.mp isLeft
    obtain ⟨_, _, rfl⟩ := List.mem_map.mp isRight
    exact .inl less

/-- Storage rises with its key. -/
theorem filed_rising {rows : List (Text × Text × Text)} {events : List StorageEvent}
    (filed : List.Forall₂ (Filed number db) rows events)
    (sorted : rows.Pairwise (fun left right =>
      left.1 < right.1 ∨ left.1 = right.1 ∧ left.2.1 < right.2.1)) :
    (events.map StorageEvent.order).Pairwise (· < ·) := by
  induction filed with
  | nil => exact .nil
  | @cons row event rows events one rest ih =>
      rw [List.map_cons, List.pairwise_cons]
      obtain ⟨above, sortedRest⟩ := List.pairwise_cons.mp sorted
      refine ⟨?_, ih sortedRest⟩
      intro order member
      obtain ⟨other, inside, rfl⟩ := List.mem_map.mp member
      obtain ⟨row', present, isOther⟩ := forall₂_exists_left rest inside
      rw [StorageEvent.order, StorageEvent.order, Prod.Lex.toLex_lt_toLex, Prod.Lex.toLex_lt_toLex]
      obtain less | ⟨same, less⟩ := above row' present
      · exact .inl (parseFixed_lt one.address isOther.address less)
      · -- One address has one incarnation in a block.
        have address : event.address = other.address :=
          Except.ok.inj (one.address.symm.trans (same ▸ isOther.address))
        obtain ⟨first, isFirst, _, incarnation⟩ := one.incarnation
        obtain ⟨second, isSecond, _, incarnation'⟩ := isOther.incarnation
        have equal : first = second := Except.ok.inj (isFirst.symm.trans (same ▸ isSecond))
        refine .inr ⟨address, .inr ⟨?_, parseFixed_lt one.slot isOther.slot less⟩⟩
        rw [incarnation, incarnation', equal]

theorem lifetime_stored {call : LifetimeCall} {incarnation : Nat} (stored : db.Stored)
    (done : lifetime db call = .ok (incarnation, later)) : later.Stored := by
  obtain ⟨_, _, ⟨_, _, _, rfl⟩ | ⟨bound, rfl⟩⟩ := lifetime_eq_ok done
  · exact stored
  · intro address row found
    by_cases same : address = call.address
    · subst same
      rw [Function.update_self] at found
      cases found
      exact bound
    · rw [Function.update_of_ne same] at found
      exact stored address row found

theorem answers_stored {history : List Lifetime} (stored : db.Stored) (answers : db.Answers history later) :
    later.Stored := by
  induction history generalizing db with
  | nil => exact answers_nil.mp answers ▸ stored
  | cons entry history ih =>
      obtain ⟨mid, called, rest⟩ := answers_cons.mp answers
      exact ih (lifetime_stored stored called) rest

theorem length_le_writtenBytes (out : List ExportRecord) : out.length ≤ writtenBytes out := by
  unfold writtenBytes joinLines
  induction out with
  | nil => exact Nat.zero_le _
  | cons record out ih =>
      simp only [List.map_cons, List.flatMap_cons, List.length_append, List.length_cons] at ih ⊢
      omega

/-- A block's events as a list, one kind after the other. -/
def blockEvents (accounts : List AccountEvent) (storage : List StorageEvent) (code : List CodeBlob) :
    List PackageEvent :=
  accounts.map .account ++ storage.map .storage ++ code.map .code

theorem blockEvents_split (accounts : List AccountEvent) (storage : List StorageEvent) (code : List CodeBlob) :
    (blockEvents accounts storage code).filterMap PackageEvent.account? = accounts ∧
      (blockEvents accounts storage code).filterMap PackageEvent.storage? = storage ∧
      (blockEvents accounts storage code).filterMap PackageEvent.code? = code := by
  simp [blockEvents, List.filterMap_append, List.filterMap_map, Function.comp_def, PackageEvent.account?,
    PackageEvent.storage?, PackageEvent.code?]

theorem convertBlock_eq_ok {number : Nat} {state next : ConvertState} {block : ReplayBlock}
    (small : number < 2 ^ 64) (stored : state.db.Stored) (wellFormed : block.WellFormed)
    (bounded : block.Bounded env) (parent : block.parentHash = state.parent)
    (done : convertBlock number state block = .ok next) (fits : writtenBytes next.out ≤ maxInput) :
    next.db.Stored ∧ ∃ lines group, next.out = state.out ++ lines ∧
      WroteGroup env lines group ∧
      BlockExported number state.parent state.db state.seenCode block group next.db next.seenCode := by
  obtain ⟨⟨accountLines, db⟩, accountsDone, rest⟩ := bind_eq_ok.mp done
  obtain ⟨storageLines, storageDone, rest⟩ := bind_eq_ok.mp rest
  cases codesDone : exportCodes state.seenCode (sortedItems block.codes) with
  | mk codeLines seen =>
      simp only [codesDone] at rest
      cases rest
      have isNumber := parseQuantity_hexNumber small
      obtain ⟨history, accounts, answers, calls, numbered, accountsWrote⟩ :=
        @exportAccounts_eq_ok env _ _ _ _ _ _ isNumber
          (fun row member => wellFormed.accounts row (mem_sortedItems.mp member))
          (fun row member => bounded.accounts row (mem_sortedItems.mp member)) accountsDone
      have storedLater := answers_stored stored answers
      obtain ⟨storage, filed, storageWrote⟩ :=
        @exportStorage_eq_ok env _ _ _ _ _ isNumber storedLater
          (fun row member => ⟨(wellFormed.storage row (mem_sortedItems.mp member)).1,
            (wellFormed.storage row (mem_sortedItems.mp member)).2.2⟩) storageDone
      obtain ⟨code, fresh, codeWrote⟩ := @exportCodes_eq env (UInt64.ofNat number) _ _ _ _
        (fun row member => wellFormed.codes row (mem_sortedItems.mp member))
        (fun row member => bounded.codes row (mem_sortedItems.mp member)) codesDone
      obtain ⟨hash, isHash⟩ := hashPattern_parsed wellFormed.hash
      obtain ⟨parentHash, isParent⟩ := hashPattern_parsed wellFormed.parentHash
      obtain ⟨stateRoot, isRoot⟩ := hashPattern_parsed wellFormed.stateRoot
      have isTime := quantityPattern_parsed wellFormed.timestamp bounded.timestamp
      let group : BlockGroup := ⟨⟨UInt64.ofNat number, hash, parentHash, stateRoot,
        UInt64.ofNat (quantityValue block.timestamp)⟩, blockEvents accounts storage code⟩
      have isAccounts : group.accounts = accounts := (blockEvents_split accounts storage code).1
      have isStorage : group.storage = storage := (blockEvents_split accounts storage code).2.1
      have isCode : group.code = code := (blockEvents_split accounts storage code).2.2
      have wrote : List.Forall₂ (Wrote env (UInt64.ofNat number)) (accountLines ++ storageLines ++ codeLines)
          group.events :=
        List.rel_append (List.rel_append (List.forall₂_map_right_iff.mpr accountsWrote)
          (List.forall₂_map_right_iff.mpr storageWrote)) (List.forall₂_map_right_iff.mpr codeWrote)
      obtain ⟨records, reads, spells⟩ := wrote_records wrote
      have count : (accountLines ++ storageLines ++ codeLines).length < 2 ^ 64 := by
        have whole := (length_le_writtenBytes _).trans fits
        simp only [List.length_append, maxInput] at whole ⊢
        omega
      have counted := parseQuantity_hexNumber count
      rw [wrote.length_eq] at counted
      have addresses : (history.map (fun entry => entry.address)).Pairwise (· < ·) := by
        have keys := sortedItems_pairwise wellFormed.accountKeys
        have same : history.map (fun entry => entry.address) = (sortedItems block.accounts).map Prod.fst := by
          have mapped := congrArg (List.map LifetimeCall.address) calls
          simpa only [List.map_map, Function.comp_def, AccountEntry.call] using mapped
        rwa [same]
      have rows := storageRows_sorted (sortedItems_pairwise wellFormed.storageKeys)
        (fun row member => (wellFormed.storage row (mem_sortedItems.mp member)).2.1)
      have group' : BlockExported number state.parent state.db state.seenCode block group db seen :=
        ⟨UInt64.toNat_ofNat_of_lt' small, parent, isHash, isParent, isRoot, isTime,
          ⟨history, answers, calls, isAccounts.symm ▸ numbered⟩, isStorage.symm ▸ filed, isCode.symm ▸ fresh⟩
      refine ⟨storedLater, .block (hexNumber number) block.hash block.parentHash block.stateRoot
        block.timestamp :: (accountLines ++ storageLines ++ codeLines ++
          [.blockEnd (hexNumber number) (hexNumber (accountLines ++ storageLines ++ codeLines).length)]),
        group, by simp, ⟨⟨.block (hexNumber number) hash parentHash stateRoot block.timestamp, records,
          .blockEnd (hexNumber number) (hexNumber (accountLines ++ storageLines ++ codeLines).length)⟩,
          ?_, ?_⟩, group'⟩
      · refine .cons ?_ (List.rel_append reads (.cons rfl .nil))
        simp only [ExportRecord.record, isHash, isParent, isRoot, ok_bind]
      · refine ⟨⟨_, _, rfl, isNumber, isTime⟩, spells, ?_, ?_, ⟨_, _, rfl, isNumber, ?_⟩⟩
        · exact isAccounts.symm ▸ numbered_rising numbered addresses
        · exact isStorage.symm ▸ filed_rising filed rows
        · rw [wrote.length_eq]
          exact counted

end

/-! The blocks of an export. -/

/-- The blocks of the replay, decoded and validated one after the other. -/
def replayBlocks (loads : Text → Result Json) : Nat → Text → List Text → Result (List ReplayBlock)
  | _, _, [] => .ok []
  | number, parent, raw :: rest => do
      let value ← decode loads raw
      let block ← validateBlock value number parent
      let blocks ← replayBlocks loads (number + 1) block.hash rest
      .ok (block :: blocks)

/-- How the archive reads blocks that were exported one after the other. -/
inductive Exported : Nat → Text → Journal → List Text → List ReplayBlock → List BlockGroup → Journal →
    Text → Prop
  | nil {number : Nat} {parent : Text} {db : Journal} {seen : List Text} :
      Exported number parent db seen [] [] db parent
  | cons {number : Nat} {parent final : Text} {db mid later : Journal} {seen after : List Text}
      {block : ReplayBlock} {blocks : List ReplayBlock} {group : BlockGroup} {groups : List BlockGroup} :
      BlockExported number parent db seen block group mid after →
      Exported (number + 1) block.hash mid after blocks groups later final →
      Exported number parent db seen (block :: blocks) (group :: groups) later final

section

variable {env : Externals} {loads : Text → Result Json} {first count total : Nat} {lines : List Text}
  {state final : ConvertState}

/-- The loop decodes and validates every line, and what it writes has the right shape. -/
theorem convertLoop_replays (shaped : ∀ line ∈ state.out, line.Shaped)
    (parent : hashPattern state.parent = true)
    (done : convertLoop loads first count state lines = .ok (total, final)) :
    ∃ blocks, replayBlocks loads (first + count) state.parent lines = .ok blocks ∧
      total = count + blocks.length ∧ hashPattern final.parent = true ∧
      ∀ line ∈ final.out, line.Shaped := by
  induction lines generalizing count state with
  | nil =>
      cases done
      exact ⟨[], rfl, rfl, parent, shaped⟩
  | cons raw lines ih =>
      obtain ⟨value, decoded, rest⟩ := bind_eq_ok.mp done
      obtain ⟨block, validated, rest⟩ := bind_eq_ok.mp rest
      obtain ⟨next, converted, rest⟩ := bind_eq_ok.mp rest
      obtain ⟨_, _, rest⟩ := bind_eq_ok.mp rest
      obtain ⟨wellFormed, _⟩ := validateBlock_eq_ok (decode_eq_ok decoded) validated
      have shapedNext := convertBlock_shaped wellFormed shaped converted
      have hash := convertBlock_parent converted
      obtain ⟨blocks, replayed, counted, shapedFinal⟩ := ih shapedNext (hash ▸ wellFormed.hash) rest
      refine ⟨block :: blocks, ?_, by simp [counted]; omega, shapedFinal⟩
      rw [hash, ← Nat.add_assoc] at replayed
      simp only [replayBlocks, decoded, validated, replayed, ok_bind]

/-- What the archive reads in what the loop writes. -/
theorem convertLoop_exported {blocks : List ReplayBlock} (stored : state.db.Stored)
    (replayed : replayBlocks loads (first + count) state.parent lines = .ok blocks)
    (bounded : ∀ block ∈ blocks, block.Bounded env) (small : first + count + blocks.length ≤ 2 ^ 64)
    (done : convertLoop loads first count state lines = .ok (total, final)) :
    ∃ added groups, final.out = state.out ++ added ∧
      Exported (first + count) state.parent state.db state.seenCode blocks groups final.db final.parent ∧
      ∃ records : List GroupLines,
        List.Forall₂ (fun line record => ExportRecord.record line = .ok record) added
          (records.flatMap GroupLines.records) ∧
        List.Forall₂ (GroupLines.Spells env) records groups := by
  induction lines generalizing count state blocks with
  | nil =>
      cases done
      cases replayed
      exact ⟨[], [], by simp, .nil, [], .nil, .nil⟩
  | cons raw lines ih =>
      obtain ⟨value, decoded, rest⟩ := bind_eq_ok.mp done
      obtain ⟨block, validated, rest⟩ := bind_eq_ok.mp rest
      obtain ⟨next, converted, rest⟩ := bind_eq_ok.mp rest
      obtain ⟨_, fits, rest⟩ := bind_eq_ok.mp rest
      simp only [replayBlocks, decoded, validated, ok_bind] at replayed
      obtain ⟨others, more, same⟩ := bind_eq_ok.mp replayed
      cases same
      obtain ⟨boundedBlock, boundedRest⟩ := List.forall_mem_cons.mp bounded
      obtain ⟨wellFormed, parent⟩ := validateBlock_eq_ok (decode_eq_ok decoded) validated
      rw [List.length_cons] at small
      obtain ⟨storedNext, added, group, extended, ⟨record, reads, spells⟩, exported⟩ :=
        convertBlock_eq_ok (by omega) stored wellFormed boundedBlock parent converted
          (requires_eq_ok.mp fits)
      have hash : next.parent = block.hash := convertBlock_parent converted
      obtain ⟨more', groups, extended', exported', records, reads', spells'⟩ :=
        ih storedNext (hash ▸ more) boundedRest (by omega) rest
      refine ⟨added ++ more', group :: groups, by rw [extended', extended, List.append_assoc],
        .cons exported (hash ▸ exported'), record :: records, ?_, .cons spells spells'⟩
      rw [List.flatMap_cons]
      exact List.rel_append reads reads'

end

end Fossil
