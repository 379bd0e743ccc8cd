import Mathlib.Data.Char
import Fossil.Lifetimes
import Fossil.Lines
import Fossil.ReadBack
import Fossil.Rpc

/-! The exporter, from replayed blocks to a delta package.

`convert` reads one replayed block to a line, numbers its account lifetimes with the
journal and writes a package. It is a Python program; the archive's reader is the
consumer of what it writes. -/

namespace Fossil

/-! Values of the replay. -/

def requires (condition : Prop) [Decidable condition] (message : String) : Result Unit :=
  if condition then .ok () else bail message

def inHexDigits (c : Char) : Bool := hexDigits.contains c

/-- `0x[0-9a-f]{digits}\Z` -/
def fixedPattern (digits : Nat) : Text → Bool
  | '0' :: 'x' :: raw => raw.length = digits ∧ raw.all inHexDigits
  | _ => false

def addressPattern : Text → Bool := fixedPattern 40

def hashPattern : Text → Bool := fixedPattern 64

/-- `0x(?:0|[1-9a-f][0-9a-f]*)\Z` -/
def quantityPattern : Text → Bool
  | '0' :: 'x' :: first :: raw =>
      if first = '0' then raw.isEmpty else inHexDigits first ∧ raw.all inHexDigits
  | _ => false

/-- `hex_value` -/
def patternValue (pattern : Text → Bool) : Json → Result Text
  | .string text => if pattern text then .ok text else bail "malformed hex value"
  | _ => bail "malformed hex value"

/-- A string that is matched without being a value. -/
def patternKey (pattern : Text → Bool) (text : Text) : Result Text := patternValue pattern (.string text)

/-- `value[name]` of a dictionary. -/
def item (name : Text) (value : Json) : Result Json := orContext (String.ofList name) (value.get name)

/-- An integer literal, of any size. -/
def Json.asInt : Json → Option Int
  | .number ('-' :: digits) =>
      if digits ≠ [] ∧ digits.all Char.isDigit then some (-(decimal digits : Int)) else none
  | .number digits => if digits ≠ [] ∧ digits.all Char.isDigit then some (decimal digits) else none
  | _ => none

def Json.asBool : Json → Option Bool
  | .bool value => some value
  | _ => none

def firstRepeated : List Text → Option Text
  | [] => none
  | key :: rest => if key ∈ rest then some key else firstRepeated rest

mutual

/-- A key that stands twice in one of the objects of a value. -/
def Json.repeated : Json → Option Text
  | .array items => repeatedInItems items
  | .object fields => (repeatedInFields fields).or (firstRepeated (fields.map Prod.fst))
  | _ => none

def repeatedInItems : List Json → Option Text
  | [] => none
  | item :: rest => item.repeated.or (repeatedInItems rest)

def repeatedInFields : List (Text × Json) → Option Text
  | [] => none
  | field :: rest => field.2.repeated.or (repeatedInFields rest)

end

/-- `loads` is `json.loads` without the hook that refuses repeated keys. -/
def decode (loads : Text → Result Json) (raw : Text) : Result Json := do
  let value ← loads raw
  match value.repeated with
  | some key => bail ("duplicate key: " ++ String.ofList key)
  | none => .ok value

/-- An account of a replayed block; the state is that of a live account. -/
structure AccountEntry where
  previousExists : Bool
  existing : Bool
  wipedStorage : Bool
  state : Option (Text × Text × Text)
  deriving DecidableEq

/-- A replayed block after `validate_block`. -/
structure ReplayBlock where
  hash : Text
  parentHash : Text
  stateRoot : Text
  timestamp : Text
  accounts : List (Text × AccountEntry)
  storage : List (Text × List (Text × Text))
  codes : List (Text × Text)
  deriving DecidableEq

def blockKey : Text := ['b', 'l', 'o', 'c', 'k']
def parentHashKey : Text := ['p', 'a', 'r', 'e', 'n', 't', '_', 'h', 'a', 's', 'h']
def stateRootKey : Text := ['s', 't', 'a', 't', 'e', '_', 'r', 'o', 'o', 't']
def accountsKey : Text := ['a', 'c', 'c', 'o', 'u', 'n', 't', 's']
def codesKey : Text := ['c', 'o', 'd', 'e', 's']
def stateKey : Text := ['s', 't', 'a', 't', 'e']
def existsKey : Text := ['e', 'x', 'i', 's', 't', 's']
def previousExistsKey : Text := ['p', 'r', 'e', 'v', 'i', 'o', 'u', 's', '_', 'e', 'x', 'i', 's', 't', 's']
def wipedStorageKey : Text := ['w', 'i', 'p', 'e', 'd', '_', 's', 't', 'o', 'r', 'a', 'g', 'e']
def codeHashKey : Text := ['c', 'o', 'd', 'e', '_', 'h', 'a', 's', 'h']
def hashKey : Text := ['h', 'a', 's', 'h']
def timestampKey : Text := ['t', 'i', 'm', 'e', 's', 't', 'a', 'm', 'p']
def storageKeyName : Text := ['s', 't', 'o', 'r', 'a', 'g', 'e']
def nonceKey : Text := ['n', 'o', 'n', 'c', 'e']
def balanceKey : Text := ['b', 'a', 'l', 'a', 'n', 'c', 'e']
def numberKey : Text := ['n', 'u', 'm', 'b', 'e', 'r']

def validateState (state : Json) : Result (Text × Text × Text) := do
  let nonce ← item nonceKey state
  let nonce ← patternValue quantityPattern nonce
  let balance ← item balanceKey state
  let balance ← patternValue quantityPattern balance
  let codeHash ← item codeHashKey state
  let codeHash ← patternValue hashPattern codeHash
  .ok (nonce, balance, codeHash)

def validateAccount (field : Text × Json) : Result (Text × AccountEntry) := do
  let address ← patternKey addressPattern field.1
  match field.2.get stateKey with
  | some (.object fields) =>
      let state := Json.object fields
      match (state.get existsKey).bind Json.asBool, (field.2.get previousExistsKey).bind Json.asBool,
        (field.2.get wipedStorageKey).bind Json.asBool with
      | some existing, some previousExists, some wipedStorage =>
          if existing then do
            let live ← validateState state
            .ok (address, ⟨previousExists, existing, wipedStorage, some live⟩)
          else .ok (address, ⟨previousExists, existing, wipedStorage, none⟩)
      | _, _, _ => bail "invalid account flags"
  | _ => bail "invalid account entry"

def validateSlot (field : Text × Json) : Result (Text × Text) := do
  let slot ← patternKey hashPattern field.1
  let value ← patternValue hashPattern field.2
  .ok (slot, value)

def validateStorage (field : Text × Json) : Result (Text × List (Text × Text)) := do
  let address ← patternKey addressPattern field.1
  let slots ← orContext "invalid storage map" field.2.asObject
  let slots ← slots.mapM validateSlot
  .ok (address, slots)

/-- A code starts with `0x`, is of even length and otherwise hexadecimal. -/
def codePattern : Text → Bool
  | '0' :: 'x' :: raw => raw.length % 2 = 0 ∧ raw.all inHexDigits
  | _ => false

def validateCode (field : Text × Json) : Result (Text × Text) := do
  let digest ← patternKey hashPattern field.1
  match field.2 with
  | .string code => if codePattern code then .ok (digest, code) else bail "invalid bytecode"
  | _ => bail "invalid bytecode"

def mapItem (name : Text) (block : Json) : Result (List (Text × Json)) := do
  let value ← item name block
  orContext ("invalid " ++ String.ofList name ++ " map") value.asObject

def validateBlock (block : Json) (number : Nat) (parent : Text) : Result ReplayBlock := do
  requires ((block.get blockKey).bind Json.asInt = some (number : Int)) "replayed blocks are not contiguous"
  let parentHash ← item parentHashKey block
  let parentHash ← patternValue hashPattern parentHash
  requires (parentHash = parent) "replayed parent hash differs"
  let hash ← item hashKey block
  let hash ← patternValue hashPattern hash
  let stateRoot ← item stateRootKey block
  let stateRoot ← patternValue hashPattern stateRoot
  let timestamp ← item timestampKey block
  let timestamp ← patternValue quantityPattern timestamp
  let accounts ← mapItem accountsKey block
  let storage ← mapItem storageKeyName block
  let codes ← mapItem codesKey block
  let accounts ← accounts.mapM validateAccount
  let storage ← storage.mapM validateStorage
  let codes ← codes.mapM validateCode
  .ok ⟨hash, parentHash, stateRoot, timestamp, accounts, storage, codes⟩

/-! What is written. -/

/-- `hex(number)` -/
def hexNumber (number : Nat) : Text := '0' :: 'x' :: Nat.toDigits 16 number

/-- A record as the exporter builds it, all text. -/
inductive ExportRecord where
  | header (precedingNumber precedingHash : Text)
  | block (number hash parentHash stateRoot timestamp : Text)
  | account (block address : Text) (existing : Bool) (incarnation : Text) (state : Option (Text × Text × Text))
  | storage (block address incarnation slot value : Text)
  | code (codeHash bytes : Text)
  | blockEnd (number eventCount : Text)
  | trailer (endNumber endHash blockCount : Text)
  deriving DecidableEq

/-- `0x2105` -/
def baseChainId : Text := ['0', 'x', '2', '1', '0', '5']

def exportGenesis : Hash32 := .ofNat 0xf712aa9241cc24369b143cf6dce85f0902a9731e70d66818a3a5845b296c73dd

/-- The dictionary of a record, in the order its keys are set. -/
def ExportRecord.fields : ExportRecord → List (Text × Text)
  | .header precedingNumber precedingHash => [
      (['t', 'y', 'p', 'e'], jsonText ['h', 'e', 'a', 'd', 'e', 'r']),
      (['s', 'c', 'h', 'e', 'm', 'a'], jsonText exportSchema),
      (['c', 'h', 'a', 'i', 'n', '_', 'i', 'd'], jsonText baseChainId),
      (['g', 'e', 'n', 'e', 's', 'i', 's', '_', 'h', 'a', 's', 'h'], jsonHash exportGenesis),
      (['m', 'o', 'd', 'e'], jsonText deltaText),
      (['p', 'r', 'e', 'c', 'e', 'd', 'i', 'n', 'g', '_', 'n', 'u', 'm', 'b', 'e', 'r'],
        jsonText precedingNumber),
      (['p', 'r', 'e', 'c', 'e', 'd', 'i', 'n', 'g', '_', 'h', 'a', 's', 'h'], jsonText precedingHash)]
  | .block number hash parentHash stateRoot timestamp => [
      (['t', 'y', 'p', 'e'], jsonText ['b', 'l', 'o', 'c', 'k']),
      (numberKey, jsonText number),
      (hashKey, jsonText hash),
      (parentHashKey, jsonText parentHash),
      (stateRootKey, jsonText stateRoot),
      (timestampKey, jsonText timestamp)]
  | .account number address existing incarnation state => [
      (['t', 'y', 'p', 'e'], jsonText ['a', 'c', 'c', 'o', 'u', 'n', 't']),
      (blockKey, jsonText number),
      (['a', 'd', 'd', 'r', 'e', 's', 's'], jsonText address),
      (existsKey, jsonBool existing),
      (['i', 'n', 'c', 'a', 'r', 'n', 'a', 't', 'i', 'o', 'n'], jsonText incarnation)] ++
      (match state with
      | none => []
      | some (nonce, balance, codeHash) => [
          (nonceKey, jsonText nonce), (balanceKey, jsonText balance), (codeHashKey, jsonText codeHash)])
  | .storage number address incarnation slot value => [
      (['t', 'y', 'p', 'e'], jsonText storageKeyName),
      (blockKey, jsonText number),
      (['a', 'd', 'd', 'r', 'e', 's', 's'], jsonText address),
      (['i', 'n', 'c', 'a', 'r', 'n', 'a', 't', 'i', 'o', 'n'], jsonText incarnation),
      (['s', 'l', 'o', 't'], jsonText slot),
      (['v', 'a', 'l', 'u', 'e'], jsonText value)]
  | .code codeHash bytes => [
      (['t', 'y', 'p', 'e'], jsonText ['c', 'o', 'd', 'e']),
      (codeHashKey, jsonText codeHash),
      (['b', 'y', 't', 'e', 's'], jsonText bytes)]
  | .blockEnd number eventCount => [
      (['t', 'y', 'p', 'e'], jsonText ['b', 'l', 'o', 'c', 'k', '_', 'e', 'n', 'd']),
      (numberKey, jsonText number),
      (['e', 'v', 'e', 'n', 't', '_', 'c', 'o', 'u', 'n', 't'], jsonText eventCount)]
  | .trailer endNumber endHash blockCount => [
      (['t', 'y', 'p', 'e'], jsonText ['t', 'r', 'a', 'i', 'l', 'e', 'r']),
      (['e', 'n', 'd', '_', 'n', 'u', 'm', 'b', 'e', 'r'], jsonText endNumber),
      (['e', 'n', 'd', '_', 'h', 'a', 's', 'h'], jsonText endHash),
      (['b', 'l', 'o', 'c', 'k', '_', 'c', 'o', 'u', 'n', 't'], jsonText blockCount)]

/-- `json.dumps(record, separators=(",", ":"))` -/
def ExportRecord.dumps (record : ExportRecord) : Text := jsonObject record.fields

/-- What the archive's deserialiser makes of a dictionary: digests and addresses are
parsed, quantities stay text. -/
def ExportRecord.record : ExportRecord → Result LineRecord
  | .header precedingNumber precedingHash => do
      let precedingHash ← parseFixed 32 precedingHash
      .ok (.header exportSchema baseChainId exportGenesis deltaText none none (some precedingNumber)
        (some precedingHash))
  | .block number hash parentHash stateRoot timestamp => do
      let hash ← parseFixed 32 hash
      let parentHash ← parseFixed 32 parentHash
      let stateRoot ← parseFixed 32 stateRoot
      .ok (.block number hash parentHash stateRoot timestamp)
  | .account number address existing incarnation none => do
      let address ← parseFixed 20 address
      .ok (.account number address existing incarnation none none none)
  | .account number address existing incarnation (some (nonce, balance, codeHash)) => do
      let address ← parseFixed 20 address
      let codeHash ← parseFixed 32 codeHash
      .ok (.account number address existing incarnation (some nonce) (some balance) (some codeHash))
  | .storage number address incarnation slot value => do
      let address ← parseFixed 20 address
      let slot ← parseFixed 32 slot
      let value ← parseFixed 32 value
      .ok (.storage number address incarnation slot value)
  | .code codeHash bytes => do
      let codeHash ← parseFixed 32 codeHash
      .ok (.code codeHash bytes)
  | .blockEnd number eventCount => .ok (.blockEnd number eventCount)
  | .trailer endNumber endHash blockCount => do
      let endHash ← parseFixed 32 endHash
      .ok (.trailer endNumber endHash blockCount)

/-! The conversion. -/

/-- `sorted(items)` on a dictionary, whose keys are distinct. -/
def sortedItems {α : Type} (items : List (Text × α)) : List (Text × α) :=
  items.insertionSort (fun left right => left.1 ≤ right.1)

def exportAccounts (number : Text) : Journal → List (Text × AccountEntry) →
    Result (List ExportRecord × Journal)
  | db, [] => .ok ([], db)
  | db, (address, entry) :: rest => do
      let (incarnation, db) ← lifetime db ⟨address, entry.previousExists, entry.existing, entry.wipedStorage⟩
      let (records, db) ← exportAccounts number db rest
      .ok (.account number address entry.existing (hexNumber incarnation) entry.state :: records, db)

def exportStorage (number : Text) (db : Journal) : List (Text × List (Text × Text)) →
    Result (List ExportRecord)
  | [] => .ok []
  | (address, slots) :: rest => do
      let incarnation ← storageIncarnation db address
      let records ← exportStorage number db rest
      .ok ((sortedItems slots).map (fun slot =>
        .storage number address (hexNumber incarnation) slot.1 slot.2) ++ records)

def exportCodes (seen : List Text) : List (Text × Text) → List ExportRecord × List Text
  | [] => ([], seen)
  | (digest, code) :: rest =>
      if digest ∈ seen then exportCodes seen rest
      else
        let (records, seen) := exportCodes (digest :: seen) rest
        (.code digest code :: records, seen)

/-- The state of `convert` between blocks. -/
structure ConvertState where
  db : Journal
  parent : Text
  seenCode : List Text
  out : List ExportRecord

def convertBlock (number : Nat) (state : ConvertState) (block : ReplayBlock) : Result ConvertState := do
  let name := hexNumber number
  let (accounts, db) ← exportAccounts name state.db (sortedItems block.accounts)
  let storage ← exportStorage name db (sortedItems block.storage)
  let (codes, seenCode) := exportCodes state.seenCode (sortedItems block.codes)
  let events := accounts ++ storage ++ codes
  .ok ⟨db, block.hash, seenCode, state.out ++
    [.block name block.hash block.parentHash block.stateRoot block.timestamp] ++ events ++
    [.blockEnd name (hexNumber events.length)]⟩

def maxInput : Nat := 100000000

/-- `out.tell()` -/
def writtenBytes (out : List ExportRecord) : Nat := (joinLines (out.map ExportRecord.dumps)).length

section

variable (loads : Text → Result Json)

/-- The blocks that are converted, one to a line. -/
def convertLoop (first : Nat) : Nat → ConvertState → List Text → Result (Nat × ConvertState)
  | count, state, [] => .ok (count, state)
  | count, state, raw :: rest => do
      let block ← decode loads raw
      let block ← validateBlock block (first + count) state.parent
      let state ← convertBlock (first + count) state block
      requires (writtenBytes state.out ≤ maxInput) "bounded normalized input exceeds 100 MB"
      convertLoop first (count + 1) state rest

/-- The node's answer is the block before the first. -/
def precedingNumber (int16 : Text → Result Int) (first : Nat) (previous : Json) : Result Unit :=
  match previous with
  | .object fields => do
      let number ← item numberKey (.object fields)
      let number ← orContext "int() can't convert non-string with explicit base" number.asStr
      let number ← int16 number
      requires (number = (first : Int) - 1) "missing preceding canonical Base block"
  | _ => bail "missing preceding canonical Base block"

/-- `previous` is the answer of the node for the block before the first, `int16` is
`int(text, 16)`, and `lines` are the lines of the replay. -/
def convert (int16 : Text → Result Int) (first last : Nat) (db : Journal) (previous : Json)
    (lines : List Text) : Result (List ExportRecord × Journal) := do
  precedingNumber int16 first previous
  let parent ← item hashKey previous
  let parent ← patternValue hashPattern parent
  let (count, state) ← convertLoop loads first 0 ⟨db, parent, [], [.header (hexNumber (first - 1)) parent]⟩ lines
  requires (first + count = last + 1) "replay skipped blocks"
  .ok (state.out ++ [.trailer (hexNumber last) state.parent (hexNumber count)], state.db)

end

/-! The patterns and the archive's parsers. -/

theorem inHexDigits_iff {c : Char} : inHexDigits c = true ↔ ∃ n < 16, c = hexDigit n := by
  rw [inHexDigits, List.contains_eq_mem, decide_eq_true_iff]
  constructor
  · intro member
    obtain ⟨n, bound, rfl⟩ := List.mem_iff_getElem.mp member
    exact ⟨n, bound, by simp [hexDigit, bound]⟩
  · rintro ⟨n, bound, rfl⟩
    have inside : n < hexDigits.length := bound
    simp [hexDigit, inside]

theorem all_inHexDigits {raw : Text} : raw.all inHexDigits = true ↔ Digits raw := by
  simp only [List.all_eq_true, inHexDigits_iff, Digits]

/-- Digits in pairs are bytes. -/
theorem Digits.encoded {n : Nat} {raw : Text} (digits : Digits raw) (even : raw.length = 2 * n) :
    ∃ bytes : Bytes, bytes.length = n ∧ raw = hexEncode bytes := by
  induction n generalizing raw with
  | zero => exact ⟨[], rfl, List.eq_nil_of_length_eq_zero even⟩
  | succ n ih =>
      match raw, digits, even with
      | high :: low :: rest, digits, even =>
          obtain ⟨h, highBound, rfl⟩ := digits high (by simp)
          obtain ⟨l, lowBound, rfl⟩ := digits low (by simp)
          have tail : rest.length = 2 * n := by
            simp only [List.length_cons] at even
            omega
          obtain ⟨bytes, length, rfl⟩ := ih (fun c member => digits c (by simp [member])) tail
          refine ⟨UInt8.ofNat (h * 16 + l) :: bytes, by simp [length], ?_⟩
          have value : (UInt8.ofNat (h * 16 + l)).toNat = h * 16 + l := by
            rw [UInt8.toNat_ofNat', Nat.mod_eq_of_lt (by omega)]
          rw [hexEncode_cons, value, show (h * 16 + l) / 16 = h by omega, show (h * 16 + l) % 16 = l by omega]

theorem fixedPattern_iff {n : Nat} {text : Text} :
    fixedPattern (2 * n) text = true ↔ ∃ value : Fixed n, parseFixed n text = .ok value := by
  simp only [parseFixed_eq_ok]
  unfold fixedPattern
  constructor
  · split
    · intro matched
      obtain ⟨length, digits⟩ := of_decide_eq_true matched
      obtain ⟨bytes, width, rfl⟩ := (all_inHexDigits.mp digits).encoded length
      exact ⟨⟨bytes, width⟩, rfl⟩
    · intro wrong
      cases wrong
  · rintro ⟨value, rfl⟩
    refine decide_eq_true ⟨?_, all_inHexDigits.mpr (hexEncode_digits _)⟩
    rw [hexEncode_length, value.width]

theorem codePattern_parsed {text : Text} (matched : codePattern text = true) :
    ∃ bytes, parseData text = .ok bytes := by
  simp only [parseData_eq_ok]
  unfold codePattern at matched
  split at matched
  · obtain ⟨even, digits⟩ := of_decide_eq_true matched
    rename_i raw
    obtain ⟨bytes, _, same⟩ := (all_inHexDigits.mp digits).encoded
      (show raw.length = 2 * (raw.length / 2) by omega)
    exact ⟨bytes, by rw [same]⟩
  · cases matched

/-- The number that a quantity stands for. -/
def quantityValue (text : Text) : Nat := numeral (text.drop 2) 0

theorem quantityPattern_shape {text : Text} (matched : quantityPattern text = true) :
    ∃ raw, text = '0' :: 'x' :: raw ∧ Digits raw ∧ Trimmed raw := by
  unfold quantityPattern at matched
  split at matched
  · rename_i first raw
    refine ⟨first :: raw, rfl, ?_⟩
    split at matched
    · rename_i zero
      obtain rfl := List.isEmpty_iff.mp matched
      subst zero
      exact ⟨all_inHexDigits.mp (by decide), by decide, fun _ => rfl⟩
    · rename_i nonzero
      obtain ⟨head, digits⟩ := of_decide_eq_true matched
      refine ⟨all_inHexDigits.mp (by simp [head, digits]), by simp, ?_⟩
      intro zero
      exact absurd (Option.some.inj zero) nonzero
  · cases matched

theorem quantityPattern_hexNumber {text : Text} (matched : quantityPattern text = true) :
    text = hexNumber (quantityValue text) := by
  obtain ⟨raw, rfl, digits, trimmed⟩ := quantityPattern_shape matched
  rw [hexNumber, quantityValue]
  simp only [List.drop_succ_cons, List.drop_zero]
  rw [toDigits_numeral digits trimmed]

theorem hexNumber_quantity {number : Nat} (small : number < 2 ^ 64) :
    hexNumber number = quantity (UInt64.ofNat number) := by
  rw [hexNumber, quantity, UInt64.toNat_ofNat_of_lt' small]

theorem parseQuantity_hexNumber {number : Nat} (small : number < 2 ^ 64) :
    parseQuantity (hexNumber number) = .ok (UInt64.ofNat number) := by
  rw [hexNumber_quantity small, parseQuantity_quantity]

/-- A number that the archive reads as a `u64` is one. -/
theorem hexNumber_small {number : Nat} {value : UInt64} (parsed : parseQuantity (hexNumber number) = .ok value) :
    number < 2 ^ 64 := by
  obtain ⟨digits, _, value'⟩ := toDigits_spec number
  have unsigned : ¬ Signed (hexNumber number) := by
    rintro ⟨rest, same, _⟩
    obtain ⟨_, same⟩ := List.cons.inj same
    obtain ⟨_, same⟩ := List.cons.inj same
    obtain ⟨n, small, plus⟩ := digits '+' (by rw [same]; simp)
    exact hexDigit_ne_plus n small plus.symm
  have printed := parseQuantity_of_unsigned unsigned parsed
  rw [hexNumber, quantity] at printed
  obtain ⟨_, printed⟩ := List.cons.inj printed
  obtain ⟨_, printed⟩ := List.cons.inj printed
  have one := value' []
  have other := (toDigits_spec value.toNat).2.2 []
  rw [printed, other] at one
  have same : value.toNat = number := one
  rw [← same]
  exact value.toNat_lt

theorem quantityPattern_parsed {text : Text} (matched : quantityPattern text = true)
    (small : quantityValue text < 2 ^ 64) :
    parseQuantity text = .ok (UInt64.ofNat (quantityValue text)) :=
  (congrArg parseQuantity (quantityPattern_hexNumber matched)).trans (parseQuantity_hexNumber small)

theorem quantityPattern_parsedU256 {text : Text} (matched : quantityPattern text = true)
    (small : quantityValue text < 2 ^ 256) : ∃ value, parseU256 text = .ok value := by
  obtain ⟨raw, rfl, digits, trimmed⟩ := quantityPattern_shape matched
  have short : raw.length ≤ 64 := by
    rw [← toDigits_numeral digits trimmed]
    exact Nat.toDigitsCore_length 16 _ _ 64 (by decide) small
  have zeros : Digits (List.replicate (64 - raw.length) '0') := by
    intro c member
    exact ⟨0, by decide, List.eq_of_mem_replicate member⟩
  obtain ⟨bytes, width, padded⟩ := (zeros.append digits).encoded
    (show (List.replicate (64 - raw.length) '0' ++ raw).length = 2 * 32 by simp; omega)
  refine ⟨⟨bytes, width⟩, parseU256_eq_ok.mpr ⟨raw, rfl, trimmed, ?_, digits.lower, padded⟩⟩
  rw [digits.utf8Length]
  exact short

/-! The order of text is the order of bytes. -/

theorem hexDigit_strictMono : ∀ n < 16, ∀ m < n, hexDigit m < hexDigit n := by decide

theorem hexEncode_strictMono {left right : Bytes} (less : left < right) : hexEncode left < hexEncode right := by
  induction left generalizing right with
  | nil =>
      cases right with
      | nil => exact absurd less (lt_irrefl _)
      | cons byte right =>
          rw [hexEncode_cons]
          exact List.Lex.nil
  | cons byte left ih =>
      cases right with
      | nil => exact absurd less (List.not_lt_nil _)
      | cons other right =>
          rw [hexEncode_cons, hexEncode_cons]
          have small : byte.toNat < 256 := byte.toNat_lt
          have small' : other.toNat < 256 := other.toNat_lt
          rcases List.cons_lt_cons_iff.mp less with lower | ⟨rfl, rest⟩
          · have below : byte.toNat < other.toNat := lower
            by_cases same : byte.toNat / 16 = other.toNat / 16
            · rw [same]
              refine List.cons_lt_cons_iff.mpr (.inr ⟨rfl, List.cons_lt_cons_iff.mpr (.inl ?_)⟩)
              exact hexDigit_strictMono _ (by omega) _ (by omega)
            · refine List.cons_lt_cons_iff.mpr (.inl ?_)
              exact hexDigit_strictMono _ (by omega) _ (by omega)
          · exact List.cons_lt_cons_iff.mpr (.inr ⟨rfl, List.cons_lt_cons_iff.mpr (.inr ⟨rfl, ih rest⟩)⟩)

/-- Texts of fixed width are ordered as what they are parsed to. -/
theorem parseFixed_lt {n : Nat} {left right : Text} {first second : Fixed n}
    (isFirst : parseFixed n left = .ok first) (isSecond : parseFixed n right = .ok second)
    (less : left < right) : first < second := by
  rw [parseFixed_eq_ok] at isFirst isSecond
  subst isFirst isSecond
  rcases lt_trichotomy first second with lower | same | higher
  · exact lower
  · rw [same] at less
    exact absurd less (List.lt_irrefl _)
  · have greater := hexEncode_strictMono (show second.bytes < first.bytes from higher)
    have rest := List.cons_lt_cons_self.mp (List.cons_lt_cons_self.mp less)
    exact absurd (List.lt_trans rest greater) (List.lt_irrefl _)

/-- A dictionary in order: the keys rise. -/
theorem sortedItems_pairwise {α : Type} {items : List (Text × α)} (distinct : (items.map Prod.fst).Nodup) :
    ((sortedItems items).map Prod.fst).Pairwise (· < ·) := by
  have total : Std.Total (fun left right : Text × α => left.1 ≤ right.1) :=
    ⟨fun left right => le_total left.1 right.1⟩
  have transitive : IsTrans (Text × α) (fun left right => left.1 ≤ right.1) := ⟨fun _ _ _ => le_trans⟩
  have sorted := List.pairwise_insertionSort (fun left right : Text × α => left.1 ≤ right.1) items
  have perm := (List.perm_insertionSort (fun left right : Text × α => left.1 ≤ right.1) items).map Prod.fst
  have unequal := List.pairwise_map.mp ((perm.nodup_iff).mpr distinct)
  refine List.pairwise_map.mpr ((sorted.and unequal).imp ?_)
  intro left right ⟨low, differ⟩
  exact lt_of_le_of_ne low differ

theorem mem_sortedItems {α : Type} {items : List (Text × α)} {pair : Text × α} :
    pair ∈ sortedItems items ↔ pair ∈ items := (List.perm_insertionSort _ _).mem_iff

/-! What a validated block holds. -/

theorem firstRepeated_eq_none {keys : List Text} : firstRepeated keys = none ↔ keys.Nodup := by
  induction keys with
  | nil => simp [firstRepeated]
  | cons key rest ih =>
      rw [firstRepeated, List.nodup_cons]
      split
      · simp_all
      · simp_all

theorem repeatedInFields_eq_none {fields : List (Text × Json)} :
    repeatedInFields fields = none ↔ ∀ field ∈ fields, field.2.repeated = none := by
  induction fields with
  | nil => simp [repeatedInFields]
  | cons field rest ih => simp [repeatedInFields, ih]

theorem repeated_object {fields : List (Text × Json)} (unique : (Json.object fields).repeated = none) :
    (fields.map Prod.fst).Nodup ∧ ∀ field ∈ fields, field.2.repeated = none := by
  rw [Json.repeated, Option.or_eq_none_iff, firstRepeated_eq_none, repeatedInFields_eq_none] at unique
  exact ⟨unique.2, unique.1⟩

theorem field_mem {name : Text} {fields : List (Text × Json)} {value : Json}
    (found : Json.field name fields = some value) : (name, value) ∈ fields := by
  induction fields with
  | nil => cases found
  | cons head rest ih =>
      obtain ⟨key, other⟩ := head
      rw [Json.field] at found
      split at found
      · rename_i same
        cases found
        simp [same]
      · exact List.mem_cons_of_mem _ (ih found)

theorem repeated_get {name : Text} {value found : Json} (unique : value.repeated = none)
    (present : value.get name = some found) : found.repeated = none := by
  cases value with
  | object fields => exact (repeated_object unique).2 _ (field_mem present)
  | _ => cases present

theorem mapM_eq_ok {α β : Type} {step : α → Result β} {items : List α} {results : List β}
    (done : items.mapM step = .ok results) :
    List.Forall₂ (fun item result => step item = .ok result) items results := by
  induction items generalizing results with
  | nil =>
      cases done
      exact .nil
  | cons item items ih =>
      rw [List.mapM_cons] at done
      obtain ⟨result, one, rest⟩ := bind_eq_ok.mp done
      obtain ⟨others, more, last⟩ := bind_eq_ok.mp rest
      cases last
      exact .cons one (ih more)

theorem patternValue_eq_ok {pattern : Text → Bool} {value : Json} {text : Text}
    (matched : patternValue pattern value = .ok text) : value = .string text ∧ pattern text = true := by
  cases value with
  | string found =>
      rw [patternValue] at matched
      split at matched
      · cases matched
        exact ⟨rfl, ‹_›⟩
      · cases matched
  | _ => cases matched

theorem requires_eq_ok {condition : Prop} [Decidable condition] {message : String} {value : Unit} :
    requires condition message = .ok value ↔ condition := by
  unfold requires
  split <;> simp_all

theorem asObject_eq_some {value : Json} {fields : List (Text × Json)} (found : value.asObject = some fields) :
    value = .object fields := by
  cases value <;> simp_all [Json.asObject]

/-- The state is there exactly when the account exists, and it is well formed. -/
def AccountEntry.WellFormed (entry : AccountEntry) : Prop :=
  if entry.existing then
    ∃ nonce balance codeHash, entry.state = some (nonce, balance, codeHash) ∧
      quantityPattern nonce = true ∧ quantityPattern balance = true ∧ hashPattern codeHash = true
  else entry.state = none

/-- What `validate_block` and the refusal of repeated keys make sure of. -/
structure ReplayBlock.WellFormed (block : ReplayBlock) : Prop where
  hash : hashPattern block.hash = true
  parentHash : hashPattern block.parentHash = true
  stateRoot : hashPattern block.stateRoot = true
  timestamp : quantityPattern block.timestamp = true
  accounts : ∀ row ∈ block.accounts, addressPattern row.1 = true ∧ row.2.WellFormed
  accountKeys : (block.accounts.map Prod.fst).Nodup
  storage : ∀ row ∈ block.storage, addressPattern row.1 = true ∧ (row.2.map Prod.fst).Nodup ∧
    ∀ slot ∈ row.2, hashPattern slot.1 = true ∧ hashPattern slot.2 = true
  storageKeys : (block.storage.map Prod.fst).Nodup
  codes : ∀ row ∈ block.codes, hashPattern row.1 = true ∧ codePattern row.2 = true
  codeKeys : (block.codes.map Prod.fst).Nodup

theorem validateState_eq_ok {state : Json} {nonce balance codeHash : Text}
    (done : validateState state = .ok (nonce, balance, codeHash)) :
    quantityPattern nonce = true ∧ quantityPattern balance = true ∧ hashPattern codeHash = true := by
  obtain ⟨_, _, done⟩ := bind_eq_ok.mp done
  obtain ⟨_, isNonce, done⟩ := bind_eq_ok.mp done
  obtain ⟨_, _, done⟩ := bind_eq_ok.mp done
  obtain ⟨_, isBalance, done⟩ := bind_eq_ok.mp done
  obtain ⟨_, _, done⟩ := bind_eq_ok.mp done
  obtain ⟨_, isCode, done⟩ := bind_eq_ok.mp done
  cases done
  exact ⟨(patternValue_eq_ok isNonce).2, (patternValue_eq_ok isBalance).2, (patternValue_eq_ok isCode).2⟩

theorem validateAccount_eq_ok {field : Text × Json} {row : Text × AccountEntry}
    (done : validateAccount field = .ok row) :
    row.1 = field.1 ∧ addressPattern row.1 = true ∧ row.2.WellFormed := by
  obtain ⟨address, isAddress, rest⟩ := bind_eq_ok.mp done
  obtain ⟨same, matched⟩ := patternValue_eq_ok isAddress
  obtain ⟨rfl⟩ := same
  split at rest
  · dsimp only at rest
    split at rest
    · split at rest
      · rename_i existing
        obtain ⟨⟨nonce, balance, codeHash⟩, live, last⟩ := bind_eq_ok.mp rest
        cases last
        refine ⟨rfl, matched, ?_⟩
        rw [AccountEntry.WellFormed, if_pos existing]
        exact ⟨nonce, balance, codeHash, rfl, validateState_eq_ok live⟩
      · rename_i gone
        cases rest
        refine ⟨rfl, matched, ?_⟩
        rw [AccountEntry.WellFormed, if_neg gone]
    · cases rest
  · cases rest

theorem validateSlot_eq_ok {field : Text × Json} {row : Text × Text} (done : validateSlot field = .ok row) :
    row.1 = field.1 ∧ hashPattern row.1 = true ∧ hashPattern row.2 = true := by
  obtain ⟨slot, isSlot, rest⟩ := bind_eq_ok.mp done
  obtain ⟨value, isValue, last⟩ := bind_eq_ok.mp rest
  cases last
  obtain ⟨same, matched⟩ := patternValue_eq_ok isSlot
  obtain ⟨rfl⟩ := same
  exact ⟨rfl, matched, (patternValue_eq_ok isValue).2⟩

/-- Rows keep the keys of the fields they are made from. -/
theorem forall₂_keys {α β : Type} {related : Text × α → Text × β → Prop} {fields : List (Text × α)}
    {rows : List (Text × β)} (all : List.Forall₂ related fields rows)
    (keeps : ∀ field row, related field row → row.1 = field.1) :
    rows.map Prod.fst = fields.map Prod.fst := by
  induction all with
  | nil => rfl
  | cons one _ ih => rw [List.map_cons, List.map_cons, keeps _ _ one, ih]

theorem validateStorage_eq_ok {field : Text × Json} {row : Text × List (Text × Text)}
    (unique : field.2.repeated = none) (done : validateStorage field = .ok row) :
    row.1 = field.1 ∧ addressPattern row.1 = true ∧ (row.2.map Prod.fst).Nodup ∧
      ∀ slot ∈ row.2, hashPattern slot.1 = true ∧ hashPattern slot.2 = true := by
  obtain ⟨address, isAddress, rest⟩ := bind_eq_ok.mp done
  obtain ⟨fields, isObject, rest⟩ := bind_eq_ok.mp rest
  obtain ⟨slots, validated, last⟩ := bind_eq_ok.mp rest
  cases last
  obtain ⟨same, matched⟩ := patternValue_eq_ok isAddress
  obtain ⟨rfl⟩ := same
  rw [asObject_eq_some (orContext_eq_ok.mp isObject)] at unique
  have each := mapM_eq_ok validated
  refine ⟨rfl, matched, ?_, ?_⟩
  · rw [forall₂_keys each (fun _ _ one => (validateSlot_eq_ok one).1)]
    exact (repeated_object unique).1
  · intro slot member
    obtain ⟨_, _, one⟩ := forall₂_exists_left each member
    exact (validateSlot_eq_ok one).2

theorem validateCode_eq_ok {field : Text × Json} {row : Text × Text} (done : validateCode field = .ok row) :
    row.1 = field.1 ∧ hashPattern row.1 = true ∧ codePattern row.2 = true := by
  obtain ⟨digest, isDigest, rest⟩ := bind_eq_ok.mp done
  obtain ⟨same, matched⟩ := patternValue_eq_ok isDigest
  obtain ⟨rfl⟩ := same
  split at rest
  · split at rest
    · cases rest
      exact ⟨rfl, matched, ‹_›⟩
    · cases rest
  · cases rest

/-- A map of a block, row by row. -/
theorem mapItem_rows {β : Type} {block : Json} {name : Text} {fields : List (Text × Json)}
    {validate : Text × Json → Result (Text × β)} {rows : List (Text × β)} (unique : block.repeated = none)
    (found : mapItem name block = .ok fields) (validated : fields.mapM validate = .ok rows)
    (keeps : ∀ field row, field.2.repeated = none → validate field = .ok row → row.1 = field.1) :
    (rows.map Prod.fst).Nodup ∧
      ∀ row ∈ rows, ∃ field, field.2.repeated = none ∧ validate field = .ok row := by
  obtain ⟨value, isItem, isObject⟩ := bind_eq_ok.mp found
  have object := asObject_eq_some (orContext_eq_ok.mp isObject)
  have inner := repeated_get unique (orContext_eq_ok.mp isItem)
  rw [object] at inner
  obtain ⟨distinct, fieldsUnique⟩ := repeated_object inner
  have each := mapM_eq_ok validated
  constructor
  · have keys : rows.map Prod.fst = fields.map Prod.fst := by
      have kept : List.Forall₂ (fun (field : Text × Json) (row : Text × β) => row.1 = field.1) fields rows := by
        refine List.forall₂_iff_get.mpr ⟨each.length_eq, ?_⟩
        intro i inside bound
        exact keeps _ _ (fieldsUnique _ (List.get_mem fields ⟨i, inside⟩))
          ((List.forall₂_iff_get.mp each).2 i inside bound)
      exact forall₂_keys kept (fun _ _ same => same)
    rw [keys]
    exact distinct
  · intro row member
    obtain ⟨field, inside, one⟩ := forall₂_exists_left each member
    exact ⟨field, fieldsUnique field inside, one⟩

theorem validateBlock_eq_ok {value : Json} {number : Nat} {parent : Text} {block : ReplayBlock}
    (unique : value.repeated = none) (done : validateBlock value number parent = .ok block) :
    block.WellFormed ∧ block.parentHash = parent := by
  obtain ⟨_, _, done⟩ := bind_eq_ok.mp done
  obtain ⟨_, _, done⟩ := bind_eq_ok.mp done
  obtain ⟨_, isParent, done⟩ := bind_eq_ok.mp done
  obtain ⟨_, same, done⟩ := bind_eq_ok.mp done
  obtain ⟨_, _, done⟩ := bind_eq_ok.mp done
  obtain ⟨_, isHash, done⟩ := bind_eq_ok.mp done
  obtain ⟨_, _, done⟩ := bind_eq_ok.mp done
  obtain ⟨_, isRoot, done⟩ := bind_eq_ok.mp done
  obtain ⟨_, _, done⟩ := bind_eq_ok.mp done
  obtain ⟨_, isTime, done⟩ := bind_eq_ok.mp done
  obtain ⟨accountFields, isAccounts, done⟩ := bind_eq_ok.mp done
  obtain ⟨storageFields, isStorage, done⟩ := bind_eq_ok.mp done
  obtain ⟨codeFields, isCodes, done⟩ := bind_eq_ok.mp done
  obtain ⟨accounts, validAccounts, done⟩ := bind_eq_ok.mp done
  obtain ⟨storage, validStorage, done⟩ := bind_eq_ok.mp done
  obtain ⟨codes, validCodes, done⟩ := bind_eq_ok.mp done
  cases done
  obtain ⟨accountKeys, eachAccount⟩ := mapItem_rows unique isAccounts validAccounts
    (fun _ _ _ one => (validateAccount_eq_ok one).1)
  obtain ⟨storageKeys, eachStorage⟩ := mapItem_rows unique isStorage validStorage
    (fun _ _ inner one => (validateStorage_eq_ok inner one).1)
  obtain ⟨codeKeys, eachCode⟩ := mapItem_rows unique isCodes validCodes
    (fun _ _ _ one => (validateCode_eq_ok one).1)
  refine ⟨⟨(patternValue_eq_ok isHash).2, (patternValue_eq_ok isParent).2, (patternValue_eq_ok isRoot).2,
    (patternValue_eq_ok isTime).2, ?_, accountKeys, ?_, storageKeys, ?_, codeKeys⟩, requires_eq_ok.mp same⟩
  · intro row member
    obtain ⟨_, _, one⟩ := eachAccount row member
    exact (validateAccount_eq_ok one).2
  · intro row member
    obtain ⟨_, inner, one⟩ := eachStorage row member
    exact (validateStorage_eq_ok inner one).2
  · intro row member
    obtain ⟨_, _, one⟩ := eachCode row member
    exact (validateCode_eq_ok one).2

theorem decode_eq_ok {loads : Text → Result Json} {raw : Text} {value : Json}
    (done : decode loads raw = .ok value) : value.repeated = none := by
  obtain ⟨found, _, rest⟩ := bind_eq_ok.mp done
  split at rest
  · cases rest
  · cases rest
    assumption

end Fossil
