import Fossil.Reader

/-! The JSON-RPC server over a pinned reader. -/

namespace Fossil

inductive Json where
  | null
  | bool (value : Bool)
  | number (text : Text)
  | string (text : Text)
  | array (items : List Json)
  | object (fields : List (Text × Json))

def Json.field (name : Text) : List (Text × Json) → Option Json
  | [] => none
  | (key, value) :: rest => if key = name then some value else Json.field name rest

/-- `Value::get`: values other than objects have no fields. -/
def Json.get (name : Text) : Json → Option Json
  | .object fields => Json.field name fields
  | _ => none

/-- `value[name]`: null when there is no such field. -/
def Json.index (name : Text) (value : Json) : Json := (value.get name).getD .null

def Json.asStr : Json → Option Text
  | .string text => some text
  | _ => none

def Json.asObject : Json → Option (List (Text × Json))
  | .object fields => some fields
  | _ => none

def decimal (text : Text) : Nat := text.foldl (fun value c => value * 10 + (c.toNat - 48)) 0

/-- A number is a `u64` when it is written without sign, fraction and exponent
and is not too large. -/
def Json.asU64 : Json → Option UInt64
  | .number text =>
      if text ≠ [] ∧ text.all Char.isDigit ∧ decimal text < 2 ^ 64 then some (UInt64.ofNat (decimal text))
      else none
  | _ => none

/-- `Option::context` -/
def orContext {α : Type} (message : String) : Option α → Result α
  | some value => .ok value
  | none => bail message

theorem orContext_eq_ok {α : Type} {message : String} {option : Option α} {value : α} :
    orContext message option = .ok value ↔ option = some value := by
  cases option <;> simp [orContext]

def blockNumberField : Text := ['b', 'l', 'o', 'c', 'k', 'N', 'u', 'm', 'b', 'e', 'r']
def blockHashField : Text := ['b', 'l', 'o', 'c', 'k', 'H', 'a', 's', 'h']
def requireCanonicalField : Text :=
  ['r', 'e', 'q', 'u', 'i', 'r', 'e', 'C', 'a', 'n', 'o', 'n', 'i', 'c', 'a', 'l']
def latestTag : Text := ['l', 'a', 't', 'e', 's', 't']
def safeTag : Text := ['s', 'a', 'f', 'e']
def finalizedTag : Text := ['f', 'i', 'n', 'a', 'l', 'i', 'z', 'e', 'd']
def earliestTag : Text := ['e', 'a', 'r', 'l', 'i', 'e', 's', 't']
def pendingTag : Text := ['p', 'e', 'n', 'd', 'i', 'n', 'g']

/-- The methods either server answers. -/
inductive RpcMethod where
  | clientVersion
  | chainId
  | blockNumber
  | getBalance
  | getTransactionCount
  | getCode
  | getStorageAt
  | unknown
  deriving DecidableEq

structure RpcError where
  code : Int
  message : String

def unavailableText : Text :=
  ['b', 'l', 'o', 'c', 'k', ' ', 'u', 'n', 'a', 'v', 'a', 'i', 'l', 'a', 'b', 'l', 'e']

def mentionsUnavailable (message : String) : Bool :=
  message.toList.tails.any (fun rest => unavailableText.isPrefixOf rest)

/-- Only the outermost message of an error is shown. -/
def shown (error : Error) : String := error.headD ""

def RpcError.invalid (error : Error) : RpcError := ⟨-32602, shown error⟩

def RpcError.selector (error : Error) : RpcError :=
  ⟨if mentionsUnavailable (shown error) then -32001 else -32602, shown error⟩

def RpcError.state (error : Error) : RpcError :=
  ⟨if mentionsUnavailable (shown error) then -32001 else -32603, shown error⟩

/-- Give an error the JSON-RPC form its place in the request calls for. -/
def asRpc {α : Type} (kind : Error → RpcError) : Result α → Except RpcError α
  | .ok value => .ok value
  | .error error => .error (kind error)

/-- A tag or number of the selector; the tiered archive is finalized from block zero on. -/
def resolveNumber (published : UInt64) : Json → Result UInt64
  | .string tag => do
      let number ←
        (if tag = latestTag ∨ tag = safeTag ∨ tag = finalizedTag then .ok published
        else if tag = earliestTag then .ok 0
        else if tag = pendingTag then bail "pending is unsupported"
        else parseQuantity tag)
      if number > published then bail "block unavailable" else .ok number
  | _ => bail "invalid block selector"

def resolveSelector (published : UInt64) : Json → Result UInt64
  | .object fields =>
      match Json.field blockNumberField fields with
      | some number =>
          if (Json.field blockHashField fields).isSome then
            bail "selector cannot contain blockNumber and blockHash"
          else resolveNumber published number
      | none =>
          bail "block-hash selectors are unsupported until a bounded durable hash index exists"
  | value => resolveNumber published value

def rpcParams (count : Nat) : Json → Except RpcError (List Json)
  | .array values =>
      if values.length ≠ count then
        .error (.invalid ["expected " ++ toString count ++ " parameters"])
      else .ok values
  | _ => .error (.invalid ["params must be an array"])

def rpcAddress : Json → Except RpcError Address
  | .string text => asRpc .invalid (parseFixed 20 text)
  | _ => .error (.invalid ["address must be a string"])

def rpcSlot : Json → Except RpcError Hash32
  | .string text =>
      if utf8Length text = 66 then asRpc .invalid (parseFixed 32 text)
      else
        match stripHex "slot must be hex" text with
        | .error error => .error (.invalid error)
        | .ok quantity =>
            if quantity = [] ∨ utf8Length quantity > 64 then .error (.invalid ["invalid slot"])
            else asRpc .invalid (parseFixed 32
              ('0' :: 'x' :: (List.replicate (64 - quantity.length) '0' ++ quantity)))
  | _ => .error (.invalid ["slot must be a string"])

def clientVersionText : Text :=
  ['f', 'o', 's', 's', 'i', 'l', '/', '0', '.', '1', '.', '0']

/-- RPC code stops with a JSON-RPC error. -/
abbrev RpcProg := Prog StoreOp StoreOp.Resp RpcError

/-- Run archive code inside a request. -/
def answering {α : Type} (code : StoreProg α) : RpcProg α := do
  let (outcome, _) ← Prog.handle (fun (_ : Unit) op => (do
    let reply ← Prog.perform op
    .ret (reply, ()))) () code
  Prog.ofExcept (asRpc .state outcome)

section

variable (env : Externals)

/-- The address and block of an account request. -/
def accountTarget (reader : Reader) (params : Json) : Except RpcError (Address × UInt64) := do
  let values ← rpcParams 2 params
  let address ← rpcAddress (values.getD 0 .null)
  let block ← asRpc .selector (resolveSelector reader.head.number (values.getD 1 .null))
  .ok (address, block)

def zeroQuantity : Text := ['0', 'x', '0']

def dispatch (reader : Reader) (method : RpcMethod) (params : Json) : RpcProg Text :=
  match method with
  | .clientVersion => .ret clientVersionText
  | .chainId => .ret (quantity reader.head.chainId)
  | .blockNumber => .ret (quantity reader.head.number)
  | .getBalance => do
      let (address, block) ← accountTarget reader params
      let account ← answering (reader.account env address block)
      .ret ((account.map (fun account => quantityU256 account.balance)).getD zeroQuantity)
  | .getTransactionCount => do
      let (address, block) ← accountTarget reader params
      let account ← answering (reader.account env address block)
      .ret ((account.map (fun account => quantity account.nonce)).getD zeroQuantity)
  | .getCode => do
      let (address, block) ← accountTarget reader params
      -- The account is read on a budget of its own before the code is.
      let _ ← answering (reader.account env address block)
      let bytes ← answering (reader.code env address block)
      .ret ('0' :: 'x' :: hexEncode bytes)
  | .getStorageAt => do
      let values ← rpcParams 3 params
      let address ← rpcAddress (values.getD 0 .null)
      let slot ← rpcSlot (values.getD 1 .null)
      let block ← asRpc .selector (resolveSelector reader.head.number (values.getD 2 .null))
      let value ← answering (reader.storage env address slot block)
      .ret (data32 value)
  | .unknown => .fail ⟨-32601, "method not found"⟩

end

def resultField : Text := ['r', 'e', 's', 'u', 'l', 't']
def codeField : Text := ['c', 'o', 'd', 'e']
end Fossil
