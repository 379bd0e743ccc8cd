import Fossil.RunFormat

/-! The mutable head with its inline manifest, the key layout and the account encoding. -/

namespace Fossil

/-- L0 runs folded by one compaction step. -/
def l0Trigger : Nat := 4
/-- Publication refuses to append beyond this many uncompacted L0 runs. -/
def maxL0Backlog : Nat := 16
def fanout : UInt64 := 8
def maxLevels : Nat := 8
/-- Pre-fetch bound for the head object. -/
def maxHead : Nat := 256 * 1024

/-- One run of the manifest: its block interval, its weight in packages, its
distinct keys and shards, and its root with the bytes in hex. -/
structure Run where
  start : UInt64
  last : UInt64
  weight : UInt64
  keys : UInt64
  shards : UInt32
  root : ObjectRef
  rootBytes : Text
  deriving DecidableEq

/-- Root reference and bytes, ready for `RunReader.decode`. -/
def Run.input (run : Run) : Result (ObjectRef × Bytes) := do
  let bytes ← hexDecode run.rootBytes
  .ok (run.root, bytes)

structure Head where
  magic : Text
  chainId : UInt64
  genesis : Hash32
  number : UInt64
  hash : Hash32
  stateRoot : Hash32
  inputSha256 : Hash32
  parent : Option ObjectRef
  l0 : List Run
  levels : List (Option Run)
  deriving DecidableEq

def headMagic : Text := ['F', 'T', 'V', 'H', '1']

/-- The occupied entries of a manifest, oldest first: deepest level down to level zero, then L0. -/
def manifestRuns {α : Type} (levels : List (Option α)) (l0 : List α) : List α :=
  levels.reverse.filterMap id ++ l0

/-- Runs oldest first. -/
def Head.runs (head : Head) : List Run := manifestRuns head.levels head.l0

/-- Packages folded into one unit of a level. -/
def unit (level : Nat) : UInt64 := UInt64.ofNat l0Trigger * fanout ^ level

def isPowerOfTwo (n : UInt32) : Bool := n ≠ 0 ∧ n &&& (n - 1) = 0

def levelWeightValid (index : Nat) (weight : UInt64) : Bool :=
  weight ≠ 0 ∧ weight % unit index = 0 ∧ weight < unit index * fanout

def levelsValid (levels : List (Option Run)) : Bool :=
  levels.zipIdx.all (fun level =>
    match level.1 with
    | none => true
    | some run => levelWeightValid level.2 run.weight)

section

variable (env : Primitives)

/-- Walk the runs oldest first; the result is the block after the last one. -/
def checkRuns : List Run → UInt64 → Result UInt64
  | [], expectedStart => .ok expectedStart
  | run :: rest, expectedStart => do
      let root ← hexDecode run.rootBytes
      if run.start ≠ expectedStart ∨ run.start > run.last ∨ !isPowerOfTwo run.shards ∨
          root.length ≠ run.root.length.toNat ∨ env.sha256 root ≠ run.root.digest then
        bail "invalid tiered run interval, root or summary"
      else checkRuns rest (run.last + 1)

/-- Everything `Head::decode` checks once the bytes are parsed. -/
def Head.validate (head : Head) : Result Head :=
  if head.magic ≠ headMagic ∨ head.l0.length > maxL0Backlog ∨ head.levels.length > maxLevels then
    bail "invalid tiered head"
  else if head.l0.any (fun run => run.weight ≠ 1) then bail "invalid L0 run weight"
  else if !levelsValid head.levels then bail "invalid tiered level weight"
  else do
    let expectedStart ← checkRuns env head.runs 0
    if head.runs.length = 0 ∨ expectedStart ≠ head.number + 1 then
      bail "tiered runs do not cover genesis through the head"
    else .ok head

end

/-! The text of a head, as its derived serialiser writes it. -/

def jsonText (text : Text) : Text := '"' :: (text ++ ['"'])

def jsonNumber (n : Nat) : Text := Nat.toDigits 10 n

def jsonNull : Text := ['n', 'u', 'l', 'l']

def jsonBool (value : Bool) : Text := if value then ['t', 'r', 'u', 'e'] else ['f', 'a', 'l', 's', 'e']

def jsonArray (items : List Text) : Text := '[' :: (List.intercalate [','] items ++ [']'])

def jsonObject (fields : List (Text × Text)) : Text :=
  '\x7b' :: (List.intercalate [','] (fields.map (fun field => jsonText field.1 ++ ':' :: field.2)) ++
    ['\x7d'])

def jsonHash (hash : Hash32) : Text := jsonText ('0' :: 'x' :: hexEncode hash.bytes)

def ObjectRef.json (reference : ObjectRef) : Text := jsonObject [
  (['d', 'i', 'g', 'e', 's', 't'], jsonHash reference.digest),
  (['l', 'e', 'n', 'g', 't', 'h'], jsonNumber reference.length.toNat)]

def Run.json (run : Run) : Text := jsonObject [
  (['s', 't', 'a', 'r', 't'], jsonNumber run.start.toNat),
  (['e', 'n', 'd'], jsonNumber run.last.toNat),
  (['w', 'e', 'i', 'g', 'h', 't'], jsonNumber run.weight.toNat),
  (['k', 'e', 'y', 's'], jsonNumber run.keys.toNat),
  (['s', 'h', 'a', 'r', 'd', 's'], jsonNumber run.shards.toNat),
  (['r', 'o', 'o', 't'], run.root.json),
  (['r', 'o', 'o', 't', '_', 'b', 'y', 't', 'e', 's'], jsonText run.rootBytes)]

/-- The magic and the root bytes have no character that would be escaped. -/
def Head.json (head : Head) : Text := jsonObject [
  (['m', 'a', 'g', 'i', 'c'], jsonText head.magic),
  (['c', 'h', 'a', 'i', 'n', '_', 'i', 'd'], jsonNumber head.chainId.toNat),
  (['g', 'e', 'n', 'e', 's', 'i', 's'], jsonHash head.genesis),
  (['n', 'u', 'm', 'b', 'e', 'r'], jsonNumber head.number.toNat),
  (['h', 'a', 's', 'h'], jsonHash head.hash),
  (['s', 't', 'a', 't', 'e', '_', 'r', 'o', 'o', 't'], jsonHash head.stateRoot),
  (['i', 'n', 'p', 'u', 't', '_', 's', 'h', 'a', '2', '5', '6'], jsonHash head.inputSha256),
  (['p', 'a', 'r', 'e', 'n', 't'], (head.parent.map ObjectRef.json).getD jsonNull),
  (['l', '0'], jsonArray (head.l0.map Run.json)),
  (['l', 'e', 'v', 'e', 'l', 's'], jsonArray (head.levels.map (fun level =>
    (level.map Run.json).getD jsonNull)))]

def Head.jsonBytes (head : Head) : Bytes := head.json.map (fun char => UInt8.ofNat char.toNat)

/-! Keys of the three record kinds. -/

def accountKey (address : Address) : Bytes := 1 :: address.bytes

def storageKey (address : Address) (incarnation : UInt64) (slot : Hash32) : Bytes :=
  2 :: (address.bytes ++ be64 incarnation ++ slot.bytes)

def codeKey (hash : Hash32) : Bytes := 3 :: hash.bytes

theorem accountKey_injective : Function.Injective accountKey := by
  intro left right same
  exact Fixed.bytes_injective (List.cons.inj same).2

theorem codeKey_injective : Function.Injective codeKey := by
  intro left right same
  exact Fixed.bytes_injective (List.cons.inj same).2

theorem storageKey_inj {address address' : Address} {incarnation incarnation' : UInt64}
    {slot slot' : Hash32} :
    storageKey address incarnation slot = storageKey address' incarnation' slot' ↔
      address = address' ∧ incarnation = incarnation' ∧ slot = slot' := by
  constructor
  · intro same
    have body := (List.cons.inj same).2
    have outer := List.append_inj body (by simp [address.width, address'.width])
    have inner := List.append_inj outer.1 (by rw [address.width, address'.width])
    exact ⟨Fixed.bytes_injective inner.1, be64_injective inner.2, Fixed.bytes_injective outer.2⟩
  · intro ⟨first, second, third⟩
    rw [first, second, third]

@[simp] theorem accountKey_ne_storageKey (address address' : Address) (incarnation : UInt64)
    (slot : Hash32) : accountKey address ≠ storageKey address' incarnation slot := by
  simp [accountKey, storageKey]

@[simp] theorem accountKey_ne_codeKey (address : Address) (hash : Hash32) :
    accountKey address ≠ codeKey hash := by
  simp [accountKey, codeKey]

@[simp] theorem storageKey_ne_codeKey (address : Address) (incarnation : UInt64) (slot hash : Hash32) :
    storageKey address incarnation slot ≠ codeKey hash := by
  simp [storageKey, codeKey]

/-! Account post-states. -/

structure AccountState where
  existing : Bool
  incarnation : UInt64
  nonce : UInt64
  balance : Hash32
  codeHash : Hash32
  deriving DecidableEq

def AccountState.encode (state : AccountState) : Bytes :=
  (if state.existing then 1 else 0) :: (be64 state.incarnation ++ (be64 state.nonce ++
    (state.balance.bytes ++ state.codeHash.bytes)))

/-- Tombstones have zero nonce, balance and code hash. -/
def AccountState.Canonical (state : AccountState) : Prop :=
  state.existing = false →
    state.nonce = 0 ∧ state.balance = Fixed.zero ∧ state.codeHash = Fixed.zero

def AccountState.decode (value : Bytes) : Result AccountState :=
  if value.length ≠ 81 ∨ value.getD 0 0 > 1 then bail "invalid full-key account poststate"
  else do
    let balance ← Fixed.ofBytes "could not convert slice to array" ((value.drop 17).take 32)
    let codeHash ← Fixed.ofBytes "could not convert slice to array" ((value.drop 49).take 32)
    let state : AccountState := ⟨value.getD 0 0 == 1, ofBe64 ((value.drop 1).take 8),
      ofBe64 ((value.drop 9).take 8), balance, codeHash⟩
    if !state.existing ∧ (state.nonce ≠ 0 ∨ state.balance ≠ Fixed.zero ∨
        state.codeHash ≠ Fixed.zero) then
      bail "invalid account tombstone"
    else .ok state

theorem AccountState.decode_canonical {value : Bytes} {state : AccountState}
    (decoded : AccountState.decode value = .ok state) : state.Canonical := by
  intro dead
  obtain ⟨_, decoded⟩ := guard_eq_ok.mp decoded
  obtain ⟨balance, _, decoded⟩ := bind_eq_ok.mp decoded
  obtain ⟨codeHash, _, decoded⟩ := bind_eq_ok.mp decoded
  obtain ⟨blank, same⟩ := guard_eq_ok.mp decoded
  rw [Except.ok.inj same, dead] at blank
  simpa using blank

theorem AccountState.decode_encode (state : AccountState) (canonical : state.Canonical) :
    AccountState.decode state.encode = .ok state := by
  have width : state.encode.length = 81 := by
    simp [AccountState.encode, Fixed.width]
  have body : state.encode.drop 1 = be64 state.incarnation ++ (be64 state.nonce ++
      (state.balance.bytes ++ state.codeHash.bytes)) := rfl
  have nonce : state.encode.drop 9 = be64 state.nonce ++
      (state.balance.bytes ++ state.codeHash.bytes) := by
    rw [show 9 = 1 + 8 from rfl, ← List.drop_drop, body]
    exact List.drop_left' (be64_length _)
  have balance : state.encode.drop 17 = state.balance.bytes ++ state.codeHash.bytes := by
    rw [show 17 = 9 + 8 from rfl, ← List.drop_drop, nonce]
    exact List.drop_left' (be64_length _)
  have code : state.encode.drop 49 = state.codeHash.bytes := by
    rw [show 49 = 17 + 32 from rfl, ← List.drop_drop, balance]
    exact List.drop_left' state.balance.width
  have codeTake : state.codeHash.bytes.take 32 = state.codeHash.bytes :=
    List.take_of_length_le (Nat.le_of_eq state.codeHash.width)
  have tag : state.encode.getD 0 0 = if state.existing then 1 else 0 := rfl
  have small : ¬ (state.encode.length ≠ 81 ∨ state.encode.getD 0 0 > 1) := by
    rw [width, tag]
    cases state.existing <;> decide
  unfold AccountState.decode
  rw [if_neg small, tag, body, nonce, balance, code, List.take_left' (be64_length _),
    List.take_left' (be64_length _), List.take_left' state.balance.width, codeTake]
  simp only [Fixed.ofBytes_bytes, ofBe64_be64, bind, Except.bind]
  rcases state with ⟨existing, incarnation, nonce, balance, codeHash⟩
  cases existing with
  | true => simp
  | false =>
      rcases canonical rfl with ⟨noNonce, noBalance, noCode⟩
      simp only at noNonce noBalance noCode
      simp [noNonce, noBalance, noCode]

end Fossil
