import Fossil.Rpc

/-! The Worker's own reader and dispatcher.

It answers one request at a time over a single bounded GET, counts the head GET
against the same limit and keeps summary shards for the length of the request. -/

namespace Fossil

inductive ArchiveError where
  | unavailable (message : String)
  | integrity
  | limit
  | invalidParams (message : String)
  | backend
  deriving DecidableEq

/-- One GET from the bucket, with the most bytes it may return. -/
structure BucketGet where
  key : Key
  maximum : Nat

abbrev WorkerProg := Prog BucketGet (fun _ => Except ArchiveError Bytes) ArchiveError

def maxObjectBytes : Nat := 1024 * 1024

/-- Keccak-256 of no bytes. -/
def emptyCodeHash : Hash32 :=
  ⟨[0xc5, 0xd2, 0x46, 0x01, 0x86, 0xf7, 0x23, 0x3c, 0x92, 0x7e, 0x7d, 0xb2, 0xdc, 0xc7, 0x03, 0xc0,
    0xe5, 0x00, 0xb6, 0x53, 0xca, 0x82, 0x27, 0x3b, 0x7b, 0xfa, 0xd8, 0x04, 0x5d, 0x85, 0xa4, 0x70],
    rfl⟩

/-- What a request has used and learned so far. -/
structure WorkerState where
  gets : Nat
  fetched : Nat
  shards : List (Key × Shard)

structure WorkerReader where
  head : Head
  runs : List (Run × RunReader)

def WorkerState.get (state : WorkerState) (key : Key) (maximum : Nat) :
    WorkerProg (Except ArchiveError Bytes × WorkerState) :=
  if state.gets + 1 > maxRequestGets ∨ state.fetched + maximum > maxRequestBytes then
    .ret (.error .limit, state)
  else
    .call ⟨key, maximum⟩ (fun reply =>
      .ret (reply, { state with gets := state.gets + 1, fetched := state.fetched + maximum }))

/-- Codec and store errors other than the Worker's own are integrity failures. -/
def orIntegrity {α : Type} : Result α → Except ArchiveError α
  | .ok value => .ok value
  | .error _ => .error .integrity

section

variable (env : Externals)

def WorkerState.object (state : WorkerState) (reference : ObjectRef) :
    WorkerProg (Except ArchiveError Bytes × WorkerState) :=
  let length := reference.length.toNat
  if length = 0 ∨ length > maxObjectBytes then .ret (.error .integrity, state)
  else do
    let (reply, state) ← state.get (.object reference.digest) length
    match reply with
    | .error error => .ret (.error error, state)
    | .ok bytes =>
        if bytes.length ≠ length ∨ env.sha256 bytes ≠ reference.digest then
          .ret (.error .integrity, state)
        else .ret (.ok bytes, state)

def WorkerState.shard (state : WorkerState) (run : Run) (kind : ShardKind) (index : UInt32) :
    WorkerProg (Shard × WorkerState) :=
  let path : Key := .summary run.root.digest run.shards kind index
  match state.shards.lookup path with
  | some shard => .ret (shard, state)
  | none => do
      let (reply, state) ← state.get path maxShardBytes
      let bytes ← reply
      let shard ← orIntegrity
        (Shard.decode env.toPrimitives run.root.digest kind index run.shards bytes)
      .ret (shard, { state with shards := (path, shard) :: state.shards })

def WorkerState.mayContain (state : WorkerState) (run : Run) (key : Bytes) :
    WorkerProg (Bool × WorkerState) := do
  let probe := Probe.new env.toPrimitives key run.shards
  let (address, state) ← state.shard env run .address probe.addressIndex
  if address.contains env.toPrimitives key then .ret (true, state)
  else if !address.contains env.toPrimitives probe.marker then .ret (false, state)
  else do
    let (spill, state) ← state.shard env run .spill probe.spillIndex
    .ret (spill.contains env.toPrimitives key, state)

/-- The state of a codec call: an error of the store passes through the codec unchanged. -/
def workerFetch (state : WorkerState × Option ArchiveError) (reference : ObjectRef) :
    WorkerProg (Result Bytes × WorkerState × Option ArchiveError) := do
  let (reply, used) ← state.1.object env reference
  match reply with
  | .ok bytes => .ret (.ok bytes, used, state.2)
  | .error error => .ret (bail "archive object", used, some error)

def lookupWorkerRuns (key : Bytes) (block : UInt64) :
    List (Run × RunReader) → WorkerState → WorkerProg (Option Bytes × WorkerState)
  | [], state => .ret (none, state)
  | (run, index) :: rest, state =>
      if run.start > block then lookupWorkerRuns key block rest state
      else do
        let (maybe, state) ← state.mayContain env run key
        if !maybe then lookupWorkerRuns key block rest state
        else do
          let (value, state, failure) ← Prog.handle (workerFetch env) (state, none)
            (index.lookup env.toPrimitives key (min block run.last))
          match value with
          | .error _ => .fail (failure.getD .integrity)
          | .ok (some value) => .ret (some value, state)
          | .ok none => lookupWorkerRuns key block rest state

def WorkerReader.lookup (reader : WorkerReader) (state : WorkerState) (key : Bytes)
    (block : UInt64) : WorkerProg (Option Bytes × WorkerState) :=
  lookupWorkerRuns env key block reader.runs.reverse state

/-- Tombstoned accounts are absent to the Worker. -/
def WorkerReader.accountAt (reader : WorkerReader) (state : WorkerState) (address : Address)
    (block : UInt64) : WorkerProg (Option AccountState × WorkerState) := do
  let (value, state) ← reader.lookup env state (accountKey address) block
  match value with
  | none => .ret (none, state)
  | some value => do
      let account ← orIntegrity (AccountState.decode value)
      .ret (if account.existing then some account else none, state)

def WorkerReader.storageAt (reader : WorkerReader) (state : WorkerState) (address : Address)
    (slot : Hash32) (block : UInt64) : WorkerProg Hash32 := do
  let (account, state) ← reader.accountAt env state address block
  match account with
  | none => .ret Fixed.zero
  | some account => do
      let (value, _) ← reader.lookup env state (storageKey address account.incarnation slot) block
      match value with
      | none => .ret Fixed.zero
      | some value => Prog.ofExcept (orIntegrity (Fixed.ofBytes "integrity" value))

def WorkerReader.codeAt (reader : WorkerReader) (state : WorkerState) (address : Address)
    (block : UInt64) : WorkerProg Bytes := do
  let (account, state) ← reader.accountAt env state address block
  match account with
  | none => .ret []
  | some account =>
      if account.codeHash = emptyCodeHash then .ret []
      else do
        let (value, _) ← reader.lookup env state (codeKey account.codeHash) block
        match value with
        | none => .fail .integrity
        | some bytes =>
            if bytes.length > maxObjectBytes ∨ env.keccak256 bytes ≠ account.codeHash then
              .fail .integrity
            else .ret bytes

/-- The pinned view of one request. -/
def WorkerReader.load (chainId : UInt64) : WorkerProg (WorkerReader × WorkerState) := do
  let (reply, state) ← WorkerState.get ⟨0, 0, []⟩ (.head chainId) maxHead
  let bytes ← reply
  let head ← orIntegrity (Head.decode env bytes)
  if head.chainId ≠ chainId then .fail .integrity
  else do
    let runs ← orIntegrity (decodeManifest env head.runs)
    .ret (⟨head, runs⟩, state)

end

/-! Request parameters, parsed independently of the native server. -/

def isHexDigit (c : Char) : Bool := (hexValue c).isSome

def workerQuantity (value : Text) : Except ArchiveError UInt64 :=
  match stripHex "" value with
  | .error _ => .error (.invalidParams "block number must be a canonical hex quantity")
  | .ok digits =>
      if digits = [] ∨ (utf8Length digits > 1 ∧ digits.head? = some '0') ∨
          !digits.all isHexDigit then
        .error (.invalidParams "block number must be a canonical hex quantity")
      else
        match fromStrRadix16 digits with
        | .ok value => .ok value
        | .error _ => .error (.invalidParams "block number exceeds u64")

def workerBlock (published : UInt64) : Json → Except ArchiveError UInt64
  | .string text => do
      let block ←
        (if text = latestTag ∨ text = safeTag ∨ text = finalizedTag then .ok published
        else if text = earliestTag then .ok 0
        else if text = pendingTag then .error (.invalidParams "pending is not supported")
        else workerQuantity text)
      if block > published then
        .error (.unavailable "block is outside the published archive range")
      else .ok block
  | _ => .error (.invalidParams "invalid block selector")

def isBoolean : Json → Bool
  | .bool _ => true
  | _ => false

def workerSelector (published : UInt64) : Json → Except ArchiveError UInt64
  | .object fields =>
      if fields.any (fun field => field.1 ≠ blockNumberField ∧ field.1 ≠ requireCanonicalField) then
        .error (.invalidParams "invalid EIP-1898 selector")
      else if (Json.field requireCanonicalField fields).any (fun value => !isBoolean value) then
        .error (.invalidParams "requireCanonical must be boolean")
      else
        match Json.field blockNumberField fields with
        | none => .error (.invalidParams "block-hash selectors are not supported")
        | some number => workerBlock published number
  | value => workerBlock published value

def workerAddress : Json → Except ArchiveError Address
  | .string text =>
      match text with
      | '0' :: 'x' :: raw =>
          if utf8Length text ≠ 42 then
            .error (.invalidParams "address must be 20-byte hex data")
          else
            match hexDecode raw with
            | .error _ => .error (.invalidParams "address must be 20-byte hex data")
            | .ok bytes =>
                match (Fixed.ofBytes "" bytes : Result Address) with
                | .ok address => .ok address
                | .error _ => .error (.invalidParams "address must be 20-byte hex data")
      | _ => .error (.invalidParams "address must be 20-byte hex data")
  | _ => .error (.invalidParams "address must be 20-byte hex data")

def workerSlot : Json → Except ArchiveError Hash32
  | .string text =>
      match text with
      | '0' :: 'x' :: digits =>
          if utf8Length text < 3 ∨ utf8Length text > 66 ∨ !digits.all isHexDigit then
            .error (.invalidParams "slot must be at most 32 bytes of hex")
          else
            match hexDecode (if digits.length % 2 = 1 then '0' :: digits else digits) with
            | .error _ => .error (.invalidParams "slot must be at most 32 bytes of hex")
            | .ok bytes =>
                match (Fixed.ofBytes "" (List.replicate (32 - bytes.length) 0 ++ bytes) :
                    Result Hash32) with
                | .ok slot => .ok slot
                | .error _ => .error (.invalidParams "slot must be at most 32 bytes of hex")
      | _ => .error (.invalidParams "slot must be at most 32 bytes of hex")
  | _ => .error (.invalidParams "slot must be at most 32 bytes of hex")

/-- The Worker's encoder of 256-bit quantities. -/
def quantityBytes (value : Hash32) : Text :=
  match (hexEncode value.bytes).dropWhile (· == '0') with
  | [] => ['0', 'x', '0']
  | digits => '0' :: 'x' :: digits

def requireParams (expected : Nat) : Json → Except ArchiveError Unit
  | .array values =>
      if values.length = expected then .ok ()
      else .error (.invalidParams ("expected " ++ toString expected ++ " parameters"))
  | _ => .error (.invalidParams ("expected " ++ toString expected ++ " parameters"))

def workerParams (count : Nat) : Json → Except ArchiveError (List Json)
  | .array values =>
      if values.length ≠ count then
        .error (.invalidParams ("expected " ++ toString count ++ " parameters"))
      else .ok values
  | _ => .error (.invalidParams "params must be an array")

/-- Errors of the Worker's dispatcher. -/
inductive DispatchError where
  | methodNotFound
  | archive (error : ArchiveError)

abbrev DispatchProg := Prog BucketGet (fun _ => Except ArchiveError Bytes) DispatchError

def asDispatch {α : Type} : Except ArchiveError α → Except DispatchError α
  | .ok value => .ok value
  | .error error => .error (.archive error)

/-- Run the Worker's archive code inside a request. -/
def dispatching {α : Type} (code : WorkerProg α) : DispatchProg α := do
  let (outcome, _) ← Prog.handle (fun (_ : Unit) op => (do
    let reply ← Prog.perform op
    .ret (reply, ()))) () code
  Prog.ofExcept (asDispatch outcome)

def workerVersionText : Text :=
  ['f', 'o', 's', 's', 'i', 'l', '-', 'w', 'o', 'r', 'k', 'e', 'r', '-', 'r', 's', '/',
    '0', '.', '1', '.', '0']

section

variable (env : Externals)

/-- The address and block of an account request. -/
def workerTarget (reader : WorkerReader) (params : Json) : Except ArchiveError (Address × UInt64) := do
  let values ← workerParams 2 params
  let address ← workerAddress (values.getD 0 .null)
  let block ← workerSelector reader.head.number (values.getD 1 .null)
  .ok (address, block)

/-- What the Worker answers for each method that reads the archive. -/
def workerRead (chainId : UInt64) (method : RpcMethod) (params : Json) : WorkerProg Text := do
  let (reader, state) ← WorkerReader.load env chainId
  match method with
  | .blockNumber => do
      requireParams 0 params
      .ret (quantity reader.head.number)
  | .getStorageAt => do
      let values ← workerParams 3 params
      let address ← workerAddress (values.getD 0 .null)
      let slot ← workerSlot (values.getD 1 .null)
      let block ← workerSelector reader.head.number (values.getD 2 .null)
      let value ← reader.storageAt env state address slot block
      .ret ('0' :: 'x' :: hexEncode value.bytes)
  | .getCode => do
      let (address, block) ← workerTarget reader params
      let bytes ← reader.codeAt env state address block
      .ret ('0' :: 'x' :: hexEncode bytes)
  | .getBalance => do
      let (address, block) ← workerTarget reader params
      let (account, _) ← reader.accountAt env state address block
      .ret ((account.map (fun account => quantityBytes account.balance)).getD zeroQuantity)
  | _ => do
      let (address, block) ← workerTarget reader params
      let (account, _) ← reader.accountAt env state address block
      .ret ((account.map (fun account => quantity account.nonce)).getD zeroQuantity)

def dispatchRpc (chainId : UInt64) (method : RpcMethod) (params : Json) : DispatchProg Text :=
  match method with
  | .clientVersion => do
      asDispatch (requireParams 0 params)
      .ret workerVersionText
  | .unknown => .fail .methodNotFound
  | .chainId => do
      asDispatch (requireParams 0 params)
      .ret (quantity chainId)
  | method => dispatching (workerRead env chainId method params)

end

end Fossil
