import Fossil.Head

/-! Export packages: quantities, the line records and the package grammar.

A package is one header, groups of a block, its events and a block end, and one
trailer. `parsePackage` checks the grammar while it collects the events. -/

namespace Fossil

/-! Textual quantities. -/

def isAsciiUppercase (c : Char) : Bool := 'A' ≤ c ∧ c ≤ 'Z'

def utf8Length (text : Text) : Nat := (text.map Char.utf8Size).sum

def stripHex (message : String) : Text → Result Text
  | '0' :: 'x' :: raw => .ok raw
  | _ => bail message

def radixLoop : Text → Nat → Result UInt64
  | [], value => .ok (UInt64.ofNat value)
  | c :: rest, value =>
      match hexValue c with
      | none => bail "invalid digit found in string"
      | some digit =>
          if value * 16 + digit < 2 ^ 64 then radixLoop rest (value * 16 + digit)
          else bail "number too large to fit in target type"

/-- `u64::from_str_radix(raw, 16)`, which takes one leading plus sign. -/
def fromStrRadix16 : Text → Result UInt64
  | [] => bail "cannot parse integer from empty string"
  | ['+'] => bail "invalid digit found in string"
  | '+' :: digits => radixLoop digits 0
  | digits => radixLoop digits 0

def parseQuantity (value : Text) : Result UInt64 := do
  let raw ← stripHex "quantity must have a 0x prefix" value
  if raw = [] ∨ (utf8Length raw > 1 ∧ raw.head? = some '0') ∨ raw.any isAsciiUppercase then
    bail "quantity is not canonical"
  else context "quantity exceeds u64" (fromStrRadix16 raw)

def parseFixedRaw (n : Nat) (raw : Text) : Result (Fixed n) :=
  if utf8Length raw ≠ n * 2 ∨ raw.any isAsciiUppercase then
    bail s!"expected exactly {n} lowercase hex bytes"
  else do
    let decoded ← context "invalid hex" (hexDecode raw)
    Fixed.ofBytes s!"expected exactly {n} bytes" decoded

def parseFixed (n : Nat) (value : Text) : Result (Fixed n) := do
  let raw ← stripHex "fixed hex value must have a 0x prefix" value
  parseFixedRaw n raw

def parseU256 (value : Text) : Result Hash32 := do
  let raw ← stripHex "quantity must have a 0x prefix" value
  if raw = [] ∨ utf8Length raw > 64 ∨ (utf8Length raw > 1 ∧ raw.head? = some '0') ∨
      raw.any isAsciiUppercase then
    bail "invalid canonical U256 quantity"
  else parseFixedRaw 32 (List.replicate (64 - raw.length) '0' ++ raw)

def parseData (value : Text) : Result Bytes := do
  let raw ← stripHex "hex data must have a 0x prefix" value
  if utf8Length raw % 2 ≠ 0 ∨ raw.any isAsciiUppercase then
    bail "hex data must be lowercase and have an even number of digits"
  else context "invalid hex data" (hexDecode raw)

def quantity (value : UInt64) : Text := '0' :: 'x' :: Nat.toDigits 16 value.toNat

def quantityU256 (value : Hash32) : Text :=
  match value.bytes.dropWhile (· == 0) with
  | [] => ['0', 'x', '0']
  | significant => '0' :: 'x' :: (hexEncode significant).dropWhile (· == '0')

def data32 (value : Hash32) : Text := '0' :: 'x' :: hexEncode value.bytes

/-! Events and packages. -/

structure BlockMeta where
  number : UInt64
  hash : Hash32
  parentHash : Hash32
  stateRoot : Hash32
  timestamp : UInt64
  deriving DecidableEq

structure AccountEvent where
  block : UInt64
  address : Address
  existing : Bool
  incarnation : UInt64
  nonce : UInt64
  balance : Hash32
  codeHash : Hash32
  deriving DecidableEq

structure StorageEvent where
  block : UInt64
  address : Address
  incarnation : UInt64
  slot : Hash32
  value : Hash32
  deriving DecidableEq

structure CodeBlob where
  firstSeenBlock : UInt64
  codeHash : Hash32
  bytes : Bytes
  deriving DecidableEq

structure Segment where
  chainId : UInt64
  genesisHash : Hash32
  startBlock : UInt64
  endBlock : UInt64
  blocks : List BlockMeta
  accounts : List AccountEvent
  storage : List StorageEvent
  code : List CodeBlob
  deriving DecidableEq

inductive Mode where
  | anchor
  | delta
  deriving DecidableEq

structure Package where
  mode : Mode
  precedingNumber : Option UInt64
  precedingHash : Option Hash32
  inputSha256 : Hash32
  segment : Segment
  deriving DecidableEq

/-- One decoded line of a package. Quantities are still text; digests and
addresses are parsed by the deserialiser itself. -/
inductive LineRecord where
  | header (schema : Text) (chainId : Text) (genesisHash : Hash32) (mode : Text)
      (anchorNumber : Option Text) (anchorHash : Option Hash32)
      (precedingNumber : Option Text) (precedingHash : Option Hash32)
  | block (number : Text) (hash parentHash stateRoot : Hash32) (timestamp : Text)
  | account (block : Text) (address : Address) (existing : Bool) (incarnation : Text)
      (nonce balance : Option Text) (codeHash : Option Hash32)
  | storage (block : Text) (address : Address) (incarnation : Text) (slot value : Hash32)
  | code (codeHash : Hash32) (bytes : Text)
  | blockEnd (number eventCount : Text)
  | trailer (endNumber : Text) (endHash : Hash32) (blockCount : Text)
  deriving DecidableEq

/-- The fields of a record as `json!` orders them, by name; absent options are left out. -/
def LineRecord.fields : LineRecord → List (Text × Option Text)
  | .header schema chainId genesisHash mode anchorNumber anchorHash precedingNumber precedingHash => [
      (['a', 'n', 'c', 'h', 'o', 'r', '_', 'h', 'a', 's', 'h'], anchorHash.map jsonHash),
      (['a', 'n', 'c', 'h', 'o', 'r', '_', 'n', 'u', 'm', 'b', 'e', 'r'], anchorNumber.map jsonText),
      (['c', 'h', 'a', 'i', 'n', '_', 'i', 'd'], some (jsonText chainId)),
      (['g', 'e', 'n', 'e', 's', 'i', 's', '_', 'h', 'a', 's', 'h'], some (jsonHash genesisHash)),
      (['m', 'o', 'd', 'e'], some (jsonText mode)),
      (['p', 'r', 'e', 'c', 'e', 'd', 'i', 'n', 'g', '_', 'h', 'a', 's', 'h'], precedingHash.map jsonHash),
      (['p', 'r', 'e', 'c', 'e', 'd', 'i', 'n', 'g', '_', 'n', 'u', 'm', 'b', 'e', 'r'],
        precedingNumber.map jsonText),
      (['s', 'c', 'h', 'e', 'm', 'a'], some (jsonText schema)),
      (['t', 'y', 'p', 'e'], some (jsonText ['h', 'e', 'a', 'd', 'e', 'r']))]
  | .block number hash parentHash stateRoot timestamp => [
      (['h', 'a', 's', 'h'], some (jsonHash hash)),
      (['n', 'u', 'm', 'b', 'e', 'r'], some (jsonText number)),
      (['p', 'a', 'r', 'e', 'n', 't', '_', 'h', 'a', 's', 'h'], some (jsonHash parentHash)),
      (['s', 't', 'a', 't', 'e', '_', 'r', 'o', 'o', 't'], some (jsonHash stateRoot)),
      (['t', 'i', 'm', 'e', 's', 't', 'a', 'm', 'p'], some (jsonText timestamp)),
      (['t', 'y', 'p', 'e'], some (jsonText ['b', 'l', 'o', 'c', 'k']))]
  | .account number address existing incarnation nonce balance codeHash => [
      (['a', 'd', 'd', 'r', 'e', 's', 's'], some (jsonText ('0' :: 'x' :: hexEncode address.bytes))),
      (['b', 'a', 'l', 'a', 'n', 'c', 'e'], balance.map jsonText),
      (['b', 'l', 'o', 'c', 'k'], some (jsonText number)),
      (['c', 'o', 'd', 'e', '_', 'h', 'a', 's', 'h'], codeHash.map jsonHash),
      (['e', 'x', 'i', 's', 't', 's'], some (jsonBool existing)),
      (['i', 'n', 'c', 'a', 'r', 'n', 'a', 't', 'i', 'o', 'n'], some (jsonText incarnation)),
      (['n', 'o', 'n', 'c', 'e'], nonce.map jsonText),
      (['t', 'y', 'p', 'e'], some (jsonText ['a', 'c', 'c', 'o', 'u', 'n', 't']))]
  | .storage number address incarnation slot value => [
      (['a', 'd', 'd', 'r', 'e', 's', 's'], some (jsonText ('0' :: 'x' :: hexEncode address.bytes))),
      (['b', 'l', 'o', 'c', 'k'], some (jsonText number)),
      (['i', 'n', 'c', 'a', 'r', 'n', 'a', 't', 'i', 'o', 'n'], some (jsonText incarnation)),
      (['s', 'l', 'o', 't'], some (jsonHash slot)),
      (['t', 'y', 'p', 'e'], some (jsonText ['s', 't', 'o', 'r', 'a', 'g', 'e'])),
      (['v', 'a', 'l', 'u', 'e'], some (jsonHash value))]
  | .code codeHash bytes => [
      (['b', 'y', 't', 'e', 's'], some (jsonText bytes)),
      (['c', 'o', 'd', 'e', '_', 'h', 'a', 's', 'h'], some (jsonHash codeHash)),
      (['t', 'y', 'p', 'e'], some (jsonText ['c', 'o', 'd', 'e']))]
  | .blockEnd number eventCount => [
      (['e', 'v', 'e', 'n', 't', '_', 'c', 'o', 'u', 'n', 't'], some (jsonText eventCount)),
      (['n', 'u', 'm', 'b', 'e', 'r'], some (jsonText number)),
      (['t', 'y', 'p', 'e'], some (jsonText ['b', 'l', 'o', 'c', 'k', '_', 'e', 'n', 'd']))]
  | .trailer endNumber endHash blockCount => [
      (['b', 'l', 'o', 'c', 'k', '_', 'c', 'o', 'u', 'n', 't'], some (jsonText blockCount)),
      (['e', 'n', 'd', '_', 'h', 'a', 's', 'h'], some (jsonHash endHash)),
      (['e', 'n', 'd', '_', 'n', 'u', 'm', 'b', 'e', 'r'], some (jsonText endNumber)),
      (['t', 'y', 'p', 'e'], some (jsonText ['t', 'r', 'a', 'i', 'l', 'e', 'r']))]

/-- The line that `serde_json` writes for a record. -/
def LineRecord.json (record : LineRecord) : Text :=
  jsonObject (record.fields.filterMap (fun field => field.2.map (fun value => (field.1, value))))

/-- Code outside this repository that packages and heads go through: Keccak-256,
the streaming zstd decoder, UTF-8 validation and the JSON (de)serialisers. -/
structure Externals extends Primitives where
  keccak256 : Bytes → Hash32
  zstdDecoder : Bytes → Result (Nat → Result Bytes)
  utf8 : Bytes → Result Text
  lineRecord : Text → Result LineRecord
  headToVec : Head → Result Bytes
  headFromSlice : Bytes → Result Head

/-- The external code at the inputs of one concrete run: digests, lines and heads by
table, and text that is all ASCII. -/
def Externals.ofTables (primitives : Primitives) (keccaks : List (Bytes × Nat))
    (lines : List (Text × LineRecord)) (heads : List Head) : Externals where
  toPrimitives := primitives
  keccak256 := digestOf keccaks
  zstdDecoder _ := bail "not in the table"
  utf8 bytes := .ok (bytes.map (fun byte => Char.ofNat byte.toNat))
  lineRecord line :=
    match lines.find? (fun row => row.1 = line) with
    | some row => .ok row.2
    | none => bail "not in the table"
  headToVec head := if head ∈ heads then .ok head.jsonBytes else bail "not in the table"
  headFromSlice bytes :=
    match heads.find? (fun head => head.jsonBytes = bytes) with
    | some head => .ok head
    | none => bail "not in the table"

/-- Records written one to a line. -/
def writeLines (records : List LineRecord) : Bytes :=
  (records.flatMap (fun record => record.json ++ ['\n'])).map (fun char => UInt8.ofNat char.toNat)

/-- The external code at the inputs of a run that reads only these records. -/
def Externals.ofRecords (primitives : Primitives) (keccaks : List (Bytes × Nat))
    (records : List LineRecord) (heads : List Head) : Externals :=
  .ofTables primitives keccaks (records.map (fun record => (record.json, record))) heads

/-- `fossil-export/1` -/
def exportSchema : Text :=
  ['f', 'o', 's', 's', 'i', 'l', '-', 'e', 'x', 'p', 'o', 'r', 't', '/', '1']

def anchorText : Text := ['a', 'n', 'c', 'h', 'o', 'r']
def deltaText : Text := ['d', 'e', 'l', 't', 'a']

structure PackageHeader where
  chainId : UInt64
  genesisHash : Hash32
  mode : Mode
  anchorNumber : Option UInt64
  anchorHash : Option Hash32
  precedingNumber : Option UInt64
  precedingHash : Option Hash32

def parseMode (text : Text) : Result Mode :=
  if text = anchorText then .ok .anchor
  else if text = deltaText then .ok .delta
  else bail "mode must be anchor or delta"

def parseOptional : Option Text → Result (Option UInt64)
  | none => .ok none
  | some text => do
      let value ← parseQuantity text
      .ok (some value)

def parseHeader : LineRecord → Result PackageHeader
  | .header schema chainId genesisHash mode anchorNumber anchorHash precedingNumber precedingHash => do
      if schema ≠ exportSchema then bail ("unsupported input schema " ++ String.ofList schema)
      else do
        let mode ← parseMode mode
        let chainId ← parseQuantity chainId
        let anchorNumber ← parseOptional anchorNumber
        let precedingNumber ← parseOptional precedingNumber
        .ok ⟨chainId, genesisHash, mode, anchorNumber, anchorHash, precedingNumber, precedingHash⟩
  | _ => bail "first record must be a header"

/-- The header fields its mode requires. -/
def PackageHeader.check (header : PackageHeader) : Result Unit :=
  if header.mode = .anchor ∧ (header.anchorNumber = none ∨ header.anchorHash = none) then
    bail "anchor header requires anchor_number and anchor_hash"
  else if header.mode = .delta ∧ (header.precedingNumber = none ∨ header.precedingHash = none) then
    bail "delta header requires preceding_number and preceding_hash"
  else .ok ()

structure ParseState where
  blocks : List BlockMeta
  accounts : List AccountEvent
  storage : List StorageEvent
  code : List CodeBlob
  current : Option BlockMeta
  eventCount : UInt64
  lastAccount : Option Address
  lastStorage : Option (Address ×ₗ UInt64 ×ₗ Hash32)
  accountKeys : List Address
  storageKeys : List (Address × UInt64 × Hash32)
  codeHashes : List Hash32
  trailer : Option (UInt64 × Hash32 × UInt64)

def ParseState.start : ParseState :=
  ⟨[], [], [], [], none, 0, none, none, [], [], [], none⟩

/-- `u64::checked_add(1)` -/
def checkedSucc (n : UInt64) : Option UInt64 := if n.toNat + 1 < 2 ^ 64 then some (n + 1) else none

theorem checkedSucc_eq_some {first second : UInt64} :
    checkedSucc first = some second ↔ first.toNat + 1 = second.toNat := by
  unfold checkedSucc
  have bound := second.toNat_lt
  split
  · rename_i small
    rw [Option.some.injEq, ← UInt64.toNat_inj, UInt64.toNat_add, UInt64.toNat_one,
      Nat.mod_eq_of_lt small]
  · simp only [reduceCtorEq, false_iff]
    omega

def showU64 (n : UInt64) : String := toString n.toNat

def showHash (hash : Hash32) : String := String.ofList (data32 hash)

def checkedCurrent (current : Option BlockMeta) (value : Text) : Result UInt64 := do
  let number ← parseQuantity value
  if current.map BlockMeta.number ≠ some number then
    bail ("event block " ++ showU64 number ++ " does not match current block")
  else .ok number

/-- The order of a block against the one before it, or against the delta's parent. -/
def checkSuccession (header : PackageHeader) (state : ParseState) (number : UInt64)
    (parentHash : Hash32) : Result Unit :=
  match state.blocks.getLast? with
  | some previous =>
      if checkedSucc previous.number ≠ some number then
        bail ("noncontiguous block " ++ showU64 number ++ " after " ++ showU64 previous.number)
      else if parentHash ≠ previous.hash then
        bail ("parent hash mismatch at block " ++ showU64 number)
      else .ok ()
  | none =>
      if header.mode = .delta ∧ parentHash ≠ header.precedingHash.getD Fixed.zero then
        bail "first delta parent does not match preceding_hash"
      else .ok ()

/-- Nonce, balance and code hash: all of them for a live account, none for a tombstone. -/
def accountFields (existing : Bool) (nonce balance : Option Text) (codeHash : Option Hash32) :
    Result (UInt64 × Hash32 × Hash32) :=
  if existing then
    match nonce with
    | none => bail "live account missing nonce"
    | some nonce => do
        let nonce ← parseQuantity nonce
        match balance with
        | none => bail "live account missing balance"
        | some balance => do
            let balance ← parseU256 balance
            match codeHash with
            | none => bail "live account missing code_hash"
            | some codeHash => .ok (nonce, balance, codeHash)
  else if nonce ≠ none ∨ balance ≠ none ∨ codeHash ≠ none then
    bail "account tombstone must omit nonce, balance, and code_hash"
  else .ok (0, Fixed.zero, Fixed.zero)

section

variable (env : Externals)

/-- One record after the header. -/
def ParseState.step (header : PackageHeader) (state : ParseState) : LineRecord → Result ParseState
  | .block number hash parentHash stateRoot timestamp =>
      if state.current ≠ none then bail "block_end is required before the next block"
      else do
        let number ← parseQuantity number
        checkSuccession header state number parentHash
        let timestamp ← parseQuantity timestamp
        .ok { state with
          current := some ⟨number, hash, parentHash, stateRoot, timestamp⟩
          eventCount := 0
          lastAccount := none
          lastStorage := none
          accountKeys := []
          storageKeys := [] }
  | .account block address existing incarnation nonce balance codeHash => do
      let block ← checkedCurrent state.current block
      if ∃ last ∈ state.lastAccount, address ≤ last then
        bail ("account records are not strictly address-sorted in block " ++ showU64 block)
      else if address ∈ state.accountKeys then
        bail ("duplicate account record in block " ++ showU64 block)
      else do
        let (nonce, balance, codeHash) ← accountFields existing nonce balance codeHash
        let incarnation ← parseQuantity incarnation
        .ok { state with
          accounts := state.accounts ++
            [⟨block, address, existing, incarnation, nonce, balance, codeHash⟩]
          lastAccount := some address
          accountKeys := address :: state.accountKeys
          eventCount := state.eventCount + 1 }
  | .storage block address incarnation slot value => do
      let block ← checkedCurrent state.current block
      let incarnation ← parseQuantity incarnation
      if ∃ last ∈ state.lastStorage, toLex (address, toLex (incarnation, slot)) ≤ last then
        bail ("storage records are not strictly key-sorted in block " ++ showU64 block)
      else if (address, incarnation, slot) ∈ state.storageKeys then
        bail ("duplicate storage record in block " ++ showU64 block)
      else
        .ok { state with
          storage := state.storage ++ [⟨block, address, incarnation, slot, value⟩]
          lastStorage := some (toLex (address, toLex (incarnation, slot)))
          storageKeys := (address, incarnation, slot) :: state.storageKeys
          eventCount := state.eventCount + 1 }
  | .code codeHash bytes =>
      match state.current with
      | none => bail "code record before first block"
      | some open_ => do
          let bytes ← parseData bytes
          if env.keccak256 bytes ≠ codeHash then
            bail ("bytecode does not match code_hash " ++ showHash codeHash)
          else if codeHash ∈ state.codeHashes then
            bail ("duplicate code blob " ++ showHash codeHash)
          else
            .ok { state with
              code := state.code ++ [⟨open_.number, codeHash, bytes⟩]
              codeHashes := codeHash :: state.codeHashes
              eventCount := state.eventCount + 1 }
  | .blockEnd number expected => do
      let number ← checkedCurrent state.current number
      let expected ← parseQuantity expected
      if expected ≠ state.eventCount then
        bail ("event_count mismatch at block " ++ showU64 number)
      else
        match state.current with
        | none => bail "block_end without open block"
        | some open_ => .ok { state with blocks := state.blocks ++ [open_], current := none }
  | .trailer endNumber endHash blockCount =>
      if state.current ≠ none then bail "block_end is required before the trailer"
      else do
        let endNumber ← parseQuantity endNumber
        let blockCount ← parseQuantity blockCount
        .ok { state with trailer := some (endNumber, endHash, blockCount) }
  | .header .. => bail "header may only appear once"

def ParseState.steps (header : PackageHeader) : ParseState → List LineRecord → Result ParseState
  | state, [] => .ok state
  | state, record :: rest =>
      if state.trailer ≠ none then bail "trailer must be the final record"
      else do
        let next ← state.step env header record
        next.steps header rest

/-- The checks that need the whole package. -/
def finishPackage (header : PackageHeader) (inputSha256 : Hash32) (state : ParseState) :
    Result Package :=
  match state.trailer with
  | none => bail "missing trailer"
  | some (endNumber, endHash, blockCount) =>
      match state.blocks.head?, state.blocks.getLast? with
      | some first, some last =>
          if endNumber ≠ last.number ∨ endHash ≠ last.hash ∨
              blockCount ≠ UInt64.ofNat state.blocks.length then
            bail "trailer does not match package blocks"
          else if header.mode = .anchor ∧ (header.anchorNumber ≠ some first.number ∨
              header.anchorHash ≠ some first.hash) then
            bail "anchor header does not match first block"
          else if first.number = 0 ∧ first.hash ≠ header.genesisHash then
            bail "genesis block hash does not match genesis_hash"
          else if header.mode = .delta ∧
              header.precedingNumber.bind checkedSucc ≠ some first.number then
            bail "delta does not immediately follow preceding_number"
          else
            .ok ⟨header.mode, header.precedingNumber, header.precedingHash, inputSha256,
              ⟨header.chainId, header.genesisHash, first.number, last.number, state.blocks,
                state.accounts, state.storage, state.code⟩⟩
      | _, _ => bail "package has no blocks"

/-- The grammar over decoded records. -/
def assemblePackage (records : List LineRecord) (inputSha256 : Hash32) : Result Package :=
  if records.length < 3 then bail "package requires header, block records, and trailer"
  else
    match records with
    | [] => bail "package requires header, block records, and trailer"
    | first :: rest => do
        let header ← parseHeader first
        header.check
        let state ← ParseState.start.steps env header rest
        finishPackage header inputSha256 state

/-- `str::lines`: line feeds end lines, one carriage return before them is dropped. -/
def splitLines : Text → Text → List Text
  | [], [] => []
  | [], line => [line.reverse]
  | '\n' :: rest, '\r' :: line => line.reverse :: splitLines rest []
  | '\n' :: rest, line => line.reverse :: splitLines rest []
  | c :: rest, line => splitLines rest (c :: line)

/-- Unicode white space, as `str::trim` strips it. -/
def isWhitespace (c : Char) : Bool :=
  let n := c.toNat
  (0x9 ≤ n ∧ n ≤ 0xd) ∨ n = 0x20 ∨ n = 0x85 ∨ n = 0xa0 ∨ n = 0x1680 ∨ (0x2000 ≤ n ∧ n ≤ 0x200a) ∨
    n = 0x2028 ∨ n = 0x2029 ∨ n = 0x202f ∨ n = 0x205f ∨ n = 0x3000

def decodeLines : List Text → Nat → Result (List LineRecord)
  | [], _ => .ok []
  | line :: rest, index =>
      if line.all isWhitespace then decodeLines rest (index + 1)
      else do
        let record ← context ("invalid JSONL record on line " ++ toString (index + 1))
          (env.lineRecord line)
        let records ← decodeLines rest (index + 1)
        .ok (record :: records)

def parsePackage (decoded : Bytes) (inputSha256 : Hash32) : Result Package := do
  let text ← context "input is not UTF-8 JSONL" (env.utf8 decoded)
  let records ← decodeLines env (splitLines text []) 0
  assemblePackage env records inputSha256

def zstdMagic : Bytes := [0x28, 0xb5, 0x2f, 0xfd]

def readPackage (bytes : Bytes) : Result Package := do
  let decoded ←
    (if zstdMagic <+: bytes then do
      let decoder ← context "open zstd input" (env.zstdDecoder bytes)
      context "decode zstd input" (decoder (2 ^ 30))
    else .ok bytes)
  parsePackage env decoded (env.sha256 bytes)

end

end Fossil
