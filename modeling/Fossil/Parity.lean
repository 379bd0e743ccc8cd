import Fossil.Answers
import Fossil.Quantities
import Fossil.Worker

/-! The two servers over one store.

What is stored determines every answer: `storedLookup` and the queries over it read
a fixed content without budgets, memos or faults. Whatever the native server or the
Worker returns is what these say, so the two agree whenever both return. -/

namespace Fossil

/-! Spellings both servers accept. -/

section

variable {value : Json}

theorem asRpc_eq_ok {α : Type} {kind : Error → RpcError} {result : Result α} {found : α} :
    asRpc kind result = .ok found ↔ result = .ok found := by
  cases result <;> simp [asRpc]

theorem ofBytes_eq_ok {n : Nat} {message : String} {raw : Bytes} {fixed : Fixed n} :
    (Fixed.ofBytes message raw : Result (Fixed n)) = .ok fixed ↔ raw = fixed.bytes := by
  constructor
  · intro made
    unfold Fixed.ofBytes at made
    split at made
    · cases made
      rfl
    · cases made
  · intro same
    rw [same]
    exact Fixed.ofBytes_bytes message fixed

theorem addresses_agree {native worker : Address} (left : rpcAddress value = .ok native)
    (right : workerAddress value = .ok worker) : native = worker := by
  cases value with
  | string text =>
      have shape := parseFixed_eq_ok.mp (asRpc_eq_ok.mp left)
      subst shape
      simp only [workerAddress, hexDecode_hexEncode] at right
      split at right
      · cases right
      · split at right
        · next made =>
            cases right
            exact Fixed.bytes_injective (ofBytes_eq_ok.mp made)
        · cases right
  | null => cases left
  | bool _ => cases left
  | number _ => cases left
  | array _ => cases left
  | object _ => cases left

theorem hexEncode_append (front back : Bytes) : hexEncode (front ++ back) = hexEncode front ++ hexEncode back :=
  List.flatMap_append

theorem hexEncode_zeros (count : Nat) : hexEncode (List.replicate count 0) = List.replicate (2 * count) '0' := by
  induction count with
  | zero => rfl
  | succ count ih =>
      rw [List.replicate_succ, hexEncode_cons, ih, Nat.mul_succ, List.replicate_succ, List.replicate_succ]
      rfl

/-- The Worker's padding in bytes is the padding of the digits. -/
theorem workerPadding {digits : Text} {bytes : Bytes} {slot : Hash32}
    (padded : List.replicate (64 - digits.length) '0' ++ digits = hexEncode slot.bytes)
    (short : digits.length ≤ 64)
    (decoded : hexDecode (if digits.length % 2 = 1 then '0' :: digits else digits) = .ok bytes) :
    List.replicate (32 - bytes.length) 0 ++ bytes = slot.bytes := by
  have lower : digits.any isAsciiUppercase = false := by
    have whole := (hexEncode_digits slot.bytes).lower
    rw [← padded, List.any_append, Bool.or_eq_false_iff] at whole
    exact whole.2
  apply hexEncode_injective
  rw [hexEncode_append, hexEncode_zeros, ← padded]
  by_cases odd : digits.length % 2 = 1
  · rw [if_pos odd] at decoded
    have even := (hexDecode_eq_ok (by rw [List.any_cons, lower]; decide)).mp decoded
    have size := congrArg List.length even
    rw [hexEncode_length, List.length_cons] at size
    rw [← even]
    have zeros : 64 - digits.length = 2 * (32 - bytes.length) + 1 := by omega
    rw [zeros, List.replicate_succ', List.append_assoc]
    rfl
  · rw [if_neg odd] at decoded
    have even := (hexDecode_eq_ok lower).mp decoded
    have size := congrArg List.length even
    rw [hexEncode_length] at size
    rw [← even]
    have zeros : 64 - digits.length = 2 * (32 - bytes.length) := by omega
    rw [zeros]

theorem slots_agree {native worker : Hash32} (left : rpcSlot value = .ok native)
    (right : workerSlot value = .ok worker) : native = worker := by
  cases value with
  | string text =>
      have shape : ∃ digits, text = '0' :: 'x' :: digits ∧ digits.length ≤ 64 ∧
          List.replicate (64 - digits.length) '0' ++ digits = hexEncode native.bytes := by
        simp only [rpcSlot] at left
        split at left
        · have whole := parseFixed_eq_ok.mp (asRpc_eq_ok.mp left)
          have size : (hexEncode native.bytes).length = 64 := by rw [hexEncode_length, native.width]
          refine ⟨_, whole, Nat.le_of_eq size, ?_⟩
          rw [size]
          rfl
        · split at left
          · cases left
          · next digits stripped =>
              split at left
              · cases left
              · next checked =>
                  simp only [not_or, not_lt] at checked
                  have padded := parseFixed_eq_ok.mp (asRpc_eq_ok.mp left)
                  exact ⟨digits, stripHex_eq_ok.mp stripped, (length_le_utf8Length digits).trans checked.2,
                    (List.cons.inj (List.cons.inj padded).2).2⟩
      obtain ⟨digits, rfl, short, padded⟩ := shape
      simp only [workerSlot] at right
      split at right
      · cases right
      · split at right
        · cases right
        · next bytes decoded =>
            split at right
            · next made =>
                cases right
                apply Fixed.bytes_injective
                rw [← ofBytes_eq_ok.mp made]
                exact (workerPadding padded short decoded).symm
            · cases right
  | null => cases left
  | bool _ => cases left
  | number _ => cases left
  | array _ => cases left
  | object _ => cases left

/-- A check that lets a value through. -/
theorem check_ok {ε α : Type} {condition : Prop} [Decidable condition] {error : ε} {checked found : α}
    (passed : (if condition then .error error else .ok checked) = Except.ok found) : checked = found := by
  split at passed
  · cases passed
  · exact Except.ok.inj passed

theorem quantities_agree {raw : Text} {native worker : UInt64} (left : fromStrRadix16 raw = .ok native)
    (right : workerQuantity ('0' :: 'x' :: raw) = .ok worker) : native = worker := by
  simp only [workerQuantity, stripHex, left] at right
  split at right
  · cases right
  · cases right
    rfl

theorem blocks_agree {published native worker : UInt64} (left : resolveNumber published value = .ok native)
    (right : workerBlock published value = .ok worker) : native = worker := by
  cases value with
  | string tag =>
      obtain ⟨number, named, checked⟩ := bind_eq_ok.mp left
      obtain ⟨block, spelled, within⟩ := bind_eq_ok.mp right
      obtain rfl := check_ok checked
      obtain rfl := check_ok within
      split at named
      · next tagged =>
          rw [if_pos tagged] at spelled
          cases named
          cases spelled
          rfl
      · next tagged =>
          rw [if_neg tagged] at spelled
          split at named
          · next earliest =>
              rw [if_pos earliest] at spelled
              cases named
              cases spelled
              rfl
          · next earliest =>
              rw [if_neg earliest] at spelled
              split at named
              · cases named
              · next pending =>
                  rw [if_neg pending] at spelled
                  obtain ⟨raw, rfl, _, _, parsed⟩ := parseQuantity_eq_ok.mp named
                  exact quantities_agree parsed spelled
  | null => cases left
  | bool _ => cases left
  | number _ => cases left
  | array _ => cases left
  | object _ => cases left

theorem selectors_agree {published native worker : UInt64} (left : resolveSelector published value = .ok native)
    (right : workerSelector published value = .ok worker) : native = worker := by
  cases value with
  | object fields =>
      cases found : Json.field blockNumberField fields with
      | none =>
          simp only [resolveSelector, found] at left
          cases left
      | some number =>
          simp only [resolveSelector, found] at left
          simp only [workerSelector, found] at right
          split at left
          · cases left
          · split at right
            · cases right
            · split at right
              · cases right
              · exact blocks_agree left right
  | string tag =>
      have number : resolveNumber published (.string tag) = .ok native := left
      exact blocks_agree number right
  | null => cases left
  | bool _ => cases left
  | number _ => cases left
  | array _ => cases left

theorem params_agree {count : Nat} {native worker : List Json} (left : rpcParams count value = .ok native)
    (right : workerParams count value = .ok worker) : native = worker := by
  cases value with
  | array values =>
      simp only [rpcParams] at left
      simp only [workerParams] at right
      split at left
      · cases left
      · next fits =>
          rw [if_neg fits] at right
          cases left
          cases right
          rfl
  | null => cases left
  | bool _ => cases left
  | number _ => cases left
  | string _ => cases left
  | object _ => cases left

end

/-! The address, slot and block of a query. -/

/-- Methods that read the state of an account. -/
def RpcMethod.isQuery : RpcMethod → Bool
  | .getBalance => true
  | .getTransactionCount => true
  | .getCode => true
  | .getStorageAt => true
  | _ => false

def nativeTarget (reader : Reader) (method : RpcMethod) (params : Json) :
    Except RpcError (Address × Hash32 × UInt64) :=
  match method with
  | .getStorageAt => do
      let values ← rpcParams 3 params
      let address ← rpcAddress (values.getD 0 .null)
      let slot ← rpcSlot (values.getD 1 .null)
      let block ← asRpc .selector (resolveSelector reader.head.number (values.getD 2 .null))
      .ok (address, slot, block)
  | _ => do
      let target ← accountTarget reader params
      .ok (target.1, Fixed.zero, target.2)

def workerQuery (reader : WorkerReader) (method : RpcMethod) (params : Json) :
    Except ArchiveError (Address × Hash32 × UInt64) :=
  match method with
  | .getStorageAt => do
      let values ← workerParams 3 params
      let address ← workerAddress (values.getD 0 .null)
      let slot ← workerSlot (values.getD 1 .null)
      let block ← workerSelector reader.head.number (values.getD 2 .null)
      .ok (address, slot, block)
  | _ => do
      let target ← workerTarget reader params
      .ok (target.1, Fixed.zero, target.2)

theorem targets_agree {reader : Reader} {worker : WorkerReader} {method : RpcMethod} {params : Json}
    {left right : Address × Hash32 × UInt64} (pinned : reader.head = worker.head)
    (native : nativeTarget reader method params = .ok left)
    (replied : workerQuery worker method params = .ok right) : left = right := by
  unfold nativeTarget at native
  unfold workerQuery at replied
  split at native
  · obtain ⟨values, counted, native⟩ := bind_eq_ok.mp native
    obtain ⟨address, spelled, native⟩ := bind_eq_ok.mp native
    obtain ⟨slot, slotted, native⟩ := bind_eq_ok.mp native
    obtain ⟨block, selected, native⟩ := bind_eq_ok.mp native
    obtain ⟨values', counted', replied⟩ := bind_eq_ok.mp replied
    obtain ⟨address', spelled', replied⟩ := bind_eq_ok.mp replied
    obtain ⟨slot', slotted', replied⟩ := bind_eq_ok.mp replied
    obtain ⟨block', selected', replied⟩ := bind_eq_ok.mp replied
    cases native
    cases replied
    obtain rfl := params_agree counted counted'
    rw [← pinned] at selected'
    rw [addresses_agree spelled spelled', slots_agree slotted slotted',
      selectors_agree (asRpc_eq_ok.mp selected) selected']
  · obtain ⟨target, native, same⟩ := bind_eq_ok.mp native
    obtain ⟨values, counted, native⟩ := bind_eq_ok.mp native
    obtain ⟨address, spelled, native⟩ := bind_eq_ok.mp native
    obtain ⟨block, selected, native⟩ := bind_eq_ok.mp native
    split at replied
    · next impossible => exact absurd rfl impossible
    · obtain ⟨target', replied, same'⟩ := bind_eq_ok.mp replied
      obtain ⟨values', counted', replied⟩ := bind_eq_ok.mp replied
      obtain ⟨address', spelled', replied⟩ := bind_eq_ok.mp replied
      obtain ⟨block', selected', replied⟩ := bind_eq_ok.mp replied
      cases native
      cases replied
      cases same
      cases same'
      obtain rfl := params_agree counted counted'
      rw [← pinned] at selected'
      rw [addresses_agree spelled spelled', selectors_agree (asRpc_eq_ok.mp selected) selected']

theorem quantityBytes_eq (balance : Hash32) : quantityBytes balance = quantityU256 balance := by
  rw [quantityU256_eq]
  unfold quantityBytes trimZeros
  split
  · next empty => rw [if_pos empty]
  · next nonempty => rw [if_neg (fun empty => nonempty empty)]

theorem quantityU256_zero : quantityU256 Fixed.zero = zeroQuantity := by decide

/-! What is stored. -/

section

variable (env : Externals) (content : Key → Option Bytes)

def storedBytes (key : Key) : Result Bytes := (content key).elim (bail "absent") .ok

def storedObject (reference : ObjectRef) : Result Bytes := storedBytes content (.object reference.digest)

def storedShard (root : Hash32) (shards : UInt32) (kind : ShardKind) (index : UInt32) : Result Shard := do
  let bytes ← storedBytes content (.summary root shards kind index)
  Shard.decode env.toPrimitives root kind index shards bytes

def storedMayContain (run : Run) (key : Bytes) : Result Bool := do
  let probe := Probe.new env.toPrimitives key run.shards
  let address ← storedShard env content run.root.digest run.shards .address probe.addressIndex
  if address.contains env.toPrimitives key then .ok true
  else if !address.contains env.toPrimitives probe.marker then .ok false
  else do
    let spill ← storedShard env content run.root.digest run.shards .spill probe.spillIndex
    .ok (spill.contains env.toPrimitives key)

def storedRun (index : RunReader) (key : Bytes) (block : UInt64) : Result (Option Bytes) :=
  ((index.lookup env.toPrimitives key block).run (storedObject content)).2

/-- The newest value in the given runs, first one first. -/
def storedLookup (key : Bytes) (block : UInt64) : List (Run × RunReader) → Result (Option Bytes)
  | [] => .ok none
  | (run, index) :: rest =>
      if run.start > block then storedLookup key block rest
      else do
        let maybe ← storedMayContain env content run key
        if !maybe then storedLookup key block rest
        else do
          let value ← storedRun env content index key (min block run.last)
          match value with
          | some value => .ok (some value)
          | none => storedLookup key block rest

variable (runs : List (Run × RunReader))

def storedAccount (address : Address) (block : UInt64) : Result (Option AccountState) := do
  let value ← storedLookup env content (accountKey address) block runs.reverse
  match value with
  | none => .ok none
  | some value => do
      let account ← AccountState.decode value
      .ok (some account)

def storedSlot (address : Address) (slot : Hash32) (block : UInt64) : Result Hash32 := do
  let account ← storedAccount env content runs address block
  match account.filter AccountState.existing with
  | none => .ok Fixed.zero
  | some account => do
      let value ← storedLookup env content (storageKey address account.incarnation slot) block runs.reverse
      match value with
      | none => .ok Fixed.zero
      | some value => Fixed.ofBytes "invalid slot" value

/-- The code of an account; an account with the hash of no bytes has none. -/
def storedCode (address : Address) (block : UInt64) : Result Bytes := do
  let account ← storedAccount env content runs address block
  match account.filter AccountState.existing with
  | none => .ok []
  | some account =>
      if account.codeHash = emptyCodeHash then .ok []
      else do
        let value ← storedLookup env content (codeKey account.codeHash) block runs.reverse
        match value with
        | none => bail "no code"
        | some bytes => .ok bytes

/-- The answer to a query, as the servers print it. -/
def storedAnswer (method : RpcMethod) (target : Address × Hash32 × UInt64) : Result Text :=
  match method with
  | .getBalance => do
      let account ← storedAccount env content runs target.1 target.2.2
      .ok ((account.map (fun account => quantityU256 account.balance)).getD zeroQuantity)
  | .getTransactionCount => do
      let account ← storedAccount env content runs target.1 target.2.2
      .ok ((account.map (fun account => quantity account.nonce)).getD zeroQuantity)
  | .getCode => do
      let bytes ← storedCode env content runs target.1 target.2.2
      .ok ('0' :: 'x' :: hexEncode bytes)
  | .getStorageAt => do
      let value ← storedSlot env content runs target.1 target.2.1 target.2.2
      .ok (data32 value)
  | _ => bail "not a query"

/-- The head of a chain with its decoded runs. -/
def storedView (chainId : UInt64) : Result (Head × List (Run × RunReader)) := do
  let bytes ← storedBytes content (.head chainId)
  let head ← Head.decode env bytes
  let runs ← decodeManifest env head.runs
  .ok (head, runs)

end

theorem storedBytes_eq_ok {content : Key → Option Bytes} {key : Key} {bytes : Bytes} :
    storedBytes content key = .ok bytes ↔ content key = some bytes := by
  unfold storedBytes
  cases content key <;> simp [bail]

theorem storedAccount_canonical {env : Externals} {content : Key → Option Bytes} {runs : List (Run × RunReader)}
    {address : Address} {block : UInt64} {account : AccountState}
    (stored : storedAccount env content runs address block = .ok (some account)) : account.Canonical := by
  obtain ⟨value, _, decoded⟩ := bind_eq_ok.mp stored
  cases value with
  | none => cases decoded
  | some value =>
      obtain ⟨account', decoded, same⟩ := bind_eq_ok.mp decoded
      cases same
      exact AccountState.decode_canonical decoded

/-- Tombstones are printed as accounts that are not there. -/
theorem shown_filter {found : Option AccountState} (shown : AccountState → Text)
    (blank : ∀ account, found = some account → account.existing = false → shown account = zeroQuantity) :
    ((found.filter AccountState.existing).map shown).getD zeroQuantity =
      (found.map shown).getD zeroQuantity := by
  cases found with
  | none => rfl
  | some account =>
      cases alive : account.existing with
      | true => simp only [Option.filter, alive, if_true]
      | false =>
          simp only [Option.filter, alive, Bool.false_eq_true, if_false, Option.map_some, Option.getD_some]
          exact (blank account rfl alive).symm

/-- A lookup stops at the first object it cannot get. -/
theorem lookup_strict {env : Primitives} (index : RunReader) (key : Bytes) (block : UInt64) :
    (index.lookup env key block).Strict := by
  have stops : ∀ (message : String) (error : Error),
      ∃ stop, context message (.error error : Result Bytes) = .error stop := fun _ _ => ⟨_, rfl⟩
  have leafward : ∀ shard leafRef leafBytes expectedStart,
      (lookupLeaf env shard key block leafRef leafBytes expectedStart).Strict := by
    intro shard leafRef leafBytes expectedStart
    unfold lookupLeaf
    simp only [Prog.bind_eq, Prog.liftM_eq]
    apply Prog.strict_ofExcept_bind
    intro fences
    split
    · trivial
    · split
      · trivial
      · split
        · trivial
        · apply Prog.strict_request_bind (stops _)
          intro page
          apply Prog.strict_ofExcept_bind
          intro records
          split
          · trivial
          · split <;> trivial
  unfold RunReader.lookup
  simp only [Prog.bind_eq, Prog.liftM_eq]
  split
  · trivial
  · split
    · trivial
    · apply Prog.strict_ofExcept_bind
      intro _
      apply Prog.strict_request_bind (stops _)
      intro root
      split
      · apply Prog.strict_ofExcept_bind
        intro parents
        split
        · trivial
        · apply Prog.strict_ofExcept_bind
          intro _
          apply Prog.strict_request_bind (stops _)
          intro leaf
          exact leafward _ _ _ _
      · exact leafward _ _ _ _

/-! The native server. -/

section

variable {Owner : Type} {env : Externals} {content : Key → Option Bytes} {cache : Nat} {backend : Backend}
  {faulty : StoreOp → Prop} {owner : Owner} {system after : System Owner}

/-- The store holds the content, and the memo of a reader what is stored. -/
structure Reading (env : Externals) (content : Key → Option Bytes) (cache : Nat) (system : System Owner) :
    Prop where
  holds : system.content = content
  recalls : ∀ root shards kind index shard, system.memo cache (.summary root shards kind index) = some shard →
    storedShard env content root shards kind index = .ok shard

/-- One operation of the native server. -/
abbrev StoreStep (env : Externals) (backend : Backend) (faulty : StoreOp → Prop) (owner : Owner) :
    (op : StoreOp) → System Owner → op.Resp → System Owner → Prop :=
  (System.world env.toPrimitives backend faulty).step owner

theorem getBounded_step {key : Key} {maximum : Nat} {reply : Result Bytes}
    (reading : Reading env content cache system)
    (stepped : StoreStep env backend faulty owner (.getBounded key maximum) system reply after) :
    Reading env content cache after ∧ ∀ bytes, reply = .ok bytes → content key = some bytes := by
  obtain ⟨clock, _, outcome⟩ := stepped
  cases outcome with
  | done =>
      refine ⟨⟨reading.holds, reading.recalls⟩, ?_⟩
      intro bytes answered
      rw [← reading.holds]
      exact @System.getBounded_eq_ok _ backend (system.tick clock) _ maximum _ answered
  | lost _ _ _ failed =>
      obtain ⟨error, rfl⟩ := failed
      exact ⟨⟨reading.holds, reading.recalls⟩, fun _ wrong => nomatch wrong⟩
  | unacknowledged _ _ _ failed =>
      obtain ⟨error, rfl⟩ := failed
      exact ⟨⟨reading.holds, reading.recalls⟩, fun _ wrong => nomatch wrong⟩

/-- The code keeps the store as it is, and returns what is as told. -/
abbrev NativeTells {α : Type} (env : Externals) (content : Key → Option Bytes) (cache : Nat) (backend : Backend)
    (faulty : StoreOp → Prop) (owner : Owner) (told : α → Prop) (prog : StoreProg α) : Prop :=
  prog.Tells (StoreStep env backend faulty owner) (Reading env content cache) told

theorem getBounded_tells {α : Type} {key : Key} {maximum : Nat} {told : α → Prop} {next : Bytes → StoreProg α}
    (rest : ∀ bytes, content key = some bytes → NativeTells env content cache backend faulty owner told (next bytes)) :
    NativeTells env content cache backend faulty owner told ((getBounded key maximum).bind next) := by
  apply Prog.tells_call (fun reply => ∀ bytes, reply = .ok bytes → content key = some bytes)
    (fun _ _ _ => getBounded_step)
  intro reply stored
  apply Prog.tells_ofExcept_bind
  intro bytes answered
  exact rest bytes (stored bytes answered)

theorem shard_tells (reader : Reader) (budget : Budget) (run : Run) (kind : ShardKind) (index : UInt32) :
    NativeTells env content reader.shards backend faulty owner
      (fun result => storedShard env content run.root.digest run.shards kind index = .ok result.1)
      (reader.shard env budget run kind index) := by
  apply Prog.tells_call (fun known => ∀ shard, known = some shard →
    storedShard env content run.root.digest run.shards kind index = .ok shard)
  · intro system known after reading stepped
    obtain ⟨clock, _, outcome⟩ := stepped
    cases outcome with
    | done => exact ⟨⟨reading.holds, reading.recalls⟩, fun shard => reading.recalls _ _ _ _ shard⟩
    | evicted => exact ⟨⟨reading.holds, reading.recalls⟩, fun _ wrong => nomatch wrong⟩
    | lost _ _ _ failed => exact failed.elim
    | unacknowledged _ _ _ failed => exact failed.elim
  intro known recalled
  cases known with
  | some shard => exact Prog.tells_ret (recalled shard rfl)
  | none =>
      apply Prog.tells_ofExcept_bind
      intro paid _
      apply getBounded_tells
      intro bytes stored
      apply Prog.tells_ofExcept_bind
      intro shard decoded
      have found : storedShard env content run.root.digest run.shards kind index = .ok shard := by
        unfold storedShard
        rw [storedBytes_eq_ok.mpr stored]
        exact decoded
      apply Prog.tells_call (fun _ => True)
      · intro system _ after reading stepped
        obtain ⟨clock, _, outcome⟩ := stepped
        refine ⟨?_, trivial⟩
        cases outcome with
        | done =>
            refine ⟨reading.holds, ?_⟩
            intro root shards kind' index' shard' recalled
            simp only [System.perform, Function.update_self, Function.update_apply] at recalled
            split at recalled
            · next same =>
                cases same
                cases recalled
                exact found
            · exact reading.recalls _ _ _ _ _ recalled
        | lost _ _ _ failed => exact failed.elim
        | unacknowledged _ _ _ failed => exact failed.elim
      intro _ _
      exact Prog.tells_ret found

theorem mayContain_tells (reader : Reader) (budget : Budget) (run : Run) (key : Bytes) :
    NativeTells env content reader.shards backend faulty owner
      (fun result => storedMayContain env content run key = .ok result.1)
      (reader.mayContain env budget run key) := by
  unfold Reader.mayContain storedMayContain
  apply (shard_tells reader budget run .address _).bind
  intro result found
  dsimp only at found ⊢
  rw [found, ok_bind]
  split
  · exact Prog.tells_ret rfl
  · split
    · exact Prog.tells_ret rfl
    · apply (shard_tells reader result.2 run .spill _).bind
      intro spill found'
      rw [found']
      exact Prog.tells_ret rfl

theorem chargedFetch_tells (budget : Budget) (reference : ObjectRef) :
    NativeTells env content cache backend faulty owner (fun result => True ∧ ∀ bytes, result.1 = .ok bytes →
      storedObject content reference = .ok bytes) (chargedFetch env budget reference) := by
  have fetched : NativeTells env content cache backend faulty owner
      (fun bytes => storedObject content reference = .ok bytes) (fetch env.toPrimitives reference) := by
    unfold fetch
    dsimp only
    split
    · exact Prog.tells_fail _
    · apply getBounded_tells
      intro bytes stored
      split
      · exact Prog.tells_fail _
      · exact Prog.tells_ret (storedBytes_eq_ok.mpr stored)
  unfold chargedFetch
  split
  · exact Prog.tells_ret ⟨trivial, fun _ wrong => nomatch wrong⟩
  · apply fetched.attempt.bind
    intro outcome stored
    exact Prog.tells_ret ⟨trivial, stored⟩

theorem lookupRuns_tells (reader : Reader) (key : Bytes) (block : UInt64) (runs : List (Run × RunReader))
    (budget : Budget) :
    NativeTells env content reader.shards backend faulty owner
      (fun result => storedLookup env content key block runs = .ok result.1)
      (reader.lookupRuns env key block runs budget) := by
  induction runs generalizing budget with
  | nil => exact Prog.tells_ret rfl
  | cons pair rest ih =>
      obtain ⟨run, index⟩ := pair
      unfold Reader.lookupRuns storedLookup
      split
      · exact ih budget
      · apply (mayContain_tells reader budget run key).bind
        intro probed found
        dsimp only
        rw [found, ok_bind]
        split
        · exact ih probed.2
        · apply (Prog.Tells.handle (fun _ => True) (fun own reference _ => chargedFetch_tells own reference)
            (lookup_strict index key (min block run.last)) trivial).bind
          intro looked answered
          apply Prog.tells_ofExcept_bind
          intro value done
          have stored : storedRun env content index key (min block run.last) = .ok value :=
            answered.2 value done
          rw [stored, ok_bind]
          cases value with
          | none => exact ih looked.2
          | some bytes => exact Prog.tells_ret rfl

theorem readerLookup_tells (reader : Reader) (budget : Budget) (key : Bytes) (block : UInt64) :
    NativeTells env content reader.shards backend faulty owner
      (fun result => storedLookup env content key block reader.runs.reverse = .ok result.1)
      (reader.lookup env budget key block) := by
  unfold Reader.lookup
  split
  · exact Prog.tells_fail _
  · exact lookupRuns_tells reader key block _ budget

/-- An account as the native server reports it. -/
def AccountState.event (block : UInt64) (address : Address) (state : AccountState) : AccountEvent :=
  ⟨block, address, state.existing, state.incarnation, state.nonce, state.balance, state.codeHash⟩

theorem accountIn_tells (reader : Reader) (budget : Budget) (address : Address) (block : UInt64) :
    NativeTells env content reader.shards backend faulty owner (fun result => ∃ found,
      storedAccount env content reader.runs address block = .ok found ∧
        result.1 = found.map (AccountState.event block address))
      (reader.accountIn env budget address block) := by
  unfold Reader.accountIn storedAccount
  apply (readerLookup_tells reader budget _ block).bind
  intro looked stored
  rw [stored]
  obtain ⟨value, paid⟩ := looked
  cases value with
  | none => exact Prog.tells_ret ⟨none, rfl, rfl⟩
  | some value =>
      apply Prog.tells_ofExcept_bind
      intro state decoded
      have told : AccountState.decode value = .ok state := decoded
      refine Prog.tells_ret ⟨some state, ?_, rfl⟩
      show (AccountState.decode value >>= fun account => .ok (some account)) = .ok (some state)
      rw [told]
      rfl

theorem account_tells (reader : Reader) (address : Address) (block : UInt64) :
    NativeTells env content reader.shards backend faulty owner (fun account => ∃ found,
      storedAccount env content reader.runs address block = .ok found ∧
        account = found.map (AccountState.event block address)) (reader.account env address block) := by
  unfold Reader.account
  apply (accountIn_tells reader .default address block).bind
  intro asked found
  exact Prog.tells_ret found

theorem storage_tells (reader : Reader) (address : Address) (slot : Hash32) (block : UInt64) :
    NativeTells env content reader.shards backend faulty owner
      (fun value => storedSlot env content reader.runs address slot block = .ok value)
      (reader.storage env address slot block) := by
  unfold Reader.storage storedSlot
  apply (accountIn_tells reader .default address block).bind
  intro asked ⟨found, stored, shape⟩
  obtain ⟨account, budget⟩ := asked
  dsimp only at shape ⊢
  subst shape
  rw [stored, ok_bind]
  cases found with
  | none => exact Prog.tells_ret rfl
  | some state =>
      cases alive : state.existing with
      | false =>
          simp only [Option.map_some, AccountState.event, alive, Option.filter]
          exact Prog.tells_ret rfl
      | true =>
          simp only [Option.map_some, AccountState.event, alive, Option.filter, if_true]
          apply (readerLookup_tells reader budget _ block).bind
          intro looked stored
          rw [stored, ok_bind]
          obtain ⟨value, paid⟩ := looked
          cases value with
          | none => exact Prog.tells_ret rfl
          | some value => exact Prog.tells_ofExcept (fun _ made => ofBytes_eq_ok.mpr (ofBytes_eq_ok.mp made))

/-- The native server compares with the Keccak-256 of no bytes. -/
theorem code_tells (empty : env.keccak256 [] = emptyCodeHash) (reader : Reader) (address : Address)
    (block : UInt64) :
    NativeTells env content reader.shards backend faulty owner
      (fun bytes => storedCode env content reader.runs address block = .ok bytes)
      (reader.code env address block) := by
  unfold Reader.code storedCode
  apply (accountIn_tells reader .default address block).bind
  intro asked ⟨found, stored, shape⟩
  obtain ⟨account, budget⟩ := asked
  dsimp only at shape ⊢
  subst shape
  rw [stored, ok_bind, empty]
  cases found with
  | none => exact Prog.tells_ret rfl
  | some state =>
      cases alive : state.existing with
      | false =>
          simp only [Option.map_some, AccountState.event, alive, Option.filter]
          exact Prog.tells_ret rfl
      | true =>
          simp only [Option.map_some, AccountState.event, alive, Option.filter, if_true]
          split
          · exact Prog.tells_ret rfl
          · apply (readerLookup_tells reader budget _ block).bind
            intro looked stored
            rw [stored, ok_bind]
            obtain ⟨value, paid⟩ := looked
            cases value with
            | none => exact Prog.tells_fail _
            | some bytes =>
                dsimp only
                split
                · exact Prog.tells_fail _
                · exact Prog.tells_ret rfl

/-- The store holds the content, and no memo holds anything. -/
structure Bare (content : Key → Option Bytes) (system : System Owner) : Prop where
  holds : system.content = content
  forgets : ∀ cache path, system.memo cache path = none

theorem Bare.reading (bare : Bare content system) : Reading env content cache system := by
  refine ⟨bare.holds, ?_⟩
  intro root shards kind index shard recalled
  rw [bare.forgets] at recalled
  cases recalled

theorem readHead_step {key : Key} {maximum : Nat} {reply : Result (Option VersionedBytes)}
    (bare : Bare content system)
    (stepped : StoreStep env backend faulty owner (.readMutableBounded key maximum) system reply after) :
    Bare content after ∧ ∀ found, reply = .ok (some found) → content key = some found.bytes := by
  obtain ⟨clock, _, outcome⟩ := stepped
  cases outcome with
  | done =>
      refine ⟨⟨bare.holds, bare.forgets⟩, ?_⟩
      intro found answered
      rw [← bare.holds]
      have read : (system.tick clock).readMutableBounded env.toPrimitives backend key maximum = .ok (some found) :=
        answered
      unfold System.readMutableBounded at read
      split at read
      · cases read
      · next entry stored =>
          split at read
          · cases backend <;> cases read
          · cases read
            exact congrArg (Option.map Entry.bytes) stored
  | lost _ _ _ failed =>
      obtain ⟨error, rfl⟩ := failed
      exact ⟨⟨bare.holds, bare.forgets⟩, fun _ wrong => nomatch wrong⟩
  | unacknowledged _ _ _ failed =>
      obtain ⟨error, rfl⟩ := failed
      exact ⟨⟨bare.holds, bare.forgets⟩, fun _ wrong => nomatch wrong⟩

/-- Opening a reader pins the stored head. -/
theorem open_tells (chainId : UInt64) :
    (Reader.open env chainId).Tells (StoreStep env backend faulty owner) (Bare content)
      (fun reader => storedView env content chainId = .ok (reader.head, reader.runs)) := by
  have read : (readHead env chainId).Tells (StoreStep env backend faulty owner) (Bare content)
      (fun found => ∀ bytes head, found = some (bytes, head) → content (.head chainId) = some bytes.bytes ∧
        Head.decode env bytes.bytes = .ok head) := by
    unfold readHead
    apply Prog.tells_call (fun reply => ∀ found, reply = .ok (some found) → content (.head chainId) = some found.bytes)
      (fun _ _ _ => readHead_step)
    intro reply stored
    apply Prog.tells_ofExcept_bind
    intro found answered
    cases found with
    | none => exact Prog.tells_ret (fun _ _ wrong => nomatch wrong)
    | some bytes =>
        apply Prog.tells_ofExcept_bind
        intro head decoded
        split
        · exact Prog.tells_fail _
        · apply Prog.tells_ret
          intro bytes' head' same
          cases same
          exact ⟨stored bytes answered, decoded⟩
  unfold Reader.open
  apply read.bind
  intro found pinned
  cases found with
  | none => exact Prog.tells_fail _
  | some pair =>
      obtain ⟨bytes, head⟩ := pair
      obtain ⟨stored, decoded⟩ := pinned bytes head rfl
      apply Prog.tells_ofExcept_bind
      intro runs listed
      apply Prog.tells_call (fun _ => True)
      · intro system _ after bare stepped
        obtain ⟨clock, _, outcome⟩ := stepped
        refine ⟨?_, trivial⟩
        cases outcome with
        | done => exact ⟨bare.holds, bare.forgets⟩
        | lost _ _ _ failed => exact failed.elim
        | unacknowledged _ _ _ failed => exact failed.elim
      intro cache _
      apply Prog.tells_ret
      have told : decodeManifest env head.runs = .ok runs := listed
      unfold storedView
      rw [storedBytes_eq_ok.mpr stored, ok_bind, decoded, ok_bind, told]
      rfl

/-! One session of the native server. -/

theorem answering_tells {α : Type} {told : α → Prop} {code : StoreProg α} {inv : System Owner → Prop}
    (tells : code.Tells (StoreStep env backend faulty owner) inv told) :
    (answering code).Tells (StoreStep env backend faulty owner) inv told := by
  apply tells.relay
  · intro error
    exact Prog.tells_fail _
  · intro value said
    exact Prog.tells_ret said

theorem dispatch_tells (empty : env.keccak256 [] = emptyCodeHash) (reader : Reader) (method : RpcMethod)
    (params : Json) :
    (dispatch env reader method params).Tells (StoreStep env backend faulty owner)
      (Reading env content reader.shards) (fun text => method.isQuery = true → ∃ target,
        nativeTarget reader method params = .ok target ∧
        storedAnswer env content reader.runs method target = .ok text) := by
  cases method with
  | clientVersion => exact Prog.tells_ret (fun wrong => nomatch wrong)
  | chainId => exact Prog.tells_ret (fun wrong => nomatch wrong)
  | blockNumber => exact Prog.tells_ret (fun wrong => nomatch wrong)
  | unknown => exact Prog.tells_fail _
  | getBalance =>
      apply Prog.tells_ofExcept_bind
      intro target parsed
      apply (answering_tells (account_tells reader target.1 target.2)).bind
      intro account ⟨found, stored, shape⟩
      apply Prog.tells_ret
      intro _
      refine ⟨(target.1, Fixed.zero, target.2), bind_eq_ok.mpr ⟨target, parsed, rfl⟩,
        bind_eq_ok.mpr ⟨found, stored, ?_⟩⟩
      rw [shape, Option.map_map]
      rfl
  | getTransactionCount =>
      apply Prog.tells_ofExcept_bind
      intro target parsed
      apply (answering_tells (account_tells reader target.1 target.2)).bind
      intro account ⟨found, stored, shape⟩
      apply Prog.tells_ret
      intro _
      refine ⟨(target.1, Fixed.zero, target.2), bind_eq_ok.mpr ⟨target, parsed, rfl⟩,
        bind_eq_ok.mpr ⟨found, stored, ?_⟩⟩
      rw [shape, Option.map_map]
      rfl
  | getCode =>
      apply Prog.tells_ofExcept_bind
      intro target parsed
      apply (answering_tells (account_tells reader target.1 target.2)).bind
      intro _ _
      apply (answering_tells (code_tells empty reader target.1 target.2)).bind
      intro bytes stored
      apply Prog.tells_ret
      intro _
      exact ⟨(target.1, Fixed.zero, target.2), bind_eq_ok.mpr ⟨target, parsed, rfl⟩,
        bind_eq_ok.mpr ⟨bytes, stored, rfl⟩⟩
  | getStorageAt =>
      apply Prog.tells_ofExcept_bind
      intro values counted
      apply Prog.tells_ofExcept_bind
      intro address spelled
      apply Prog.tells_ofExcept_bind
      intro slot slotted
      apply Prog.tells_ofExcept_bind
      intro block selected
      apply (answering_tells (storage_tells reader address slot block)).bind
      intro value stored
      apply Prog.tells_ret
      intro _
      refine ⟨(address, slot, block), ?_, bind_eq_ok.mpr ⟨value, stored, rfl⟩⟩
      exact bind_eq_ok.mpr ⟨values, counted, bind_eq_ok.mpr ⟨address, spelled, bind_eq_ok.mpr ⟨slot, slotted,
        bind_eq_ok.mpr ⟨block, selected, rfl⟩⟩⟩⟩

def answerAll (env : Externals) (reader : Reader) : List (RpcMethod × Json) → RpcProg Unit
  | [] => .ret ()
  | (method, params) :: rest => do
      let _ ← Prog.attempt (dispatch env reader method params)
      answerAll env reader rest

/-- A reader is opened and answers some requests, then this one. -/
def session (env : Externals) (chainId : UInt64) (earlier : List (RpcMethod × Json)) (method : RpcMethod)
    (params : Json) : RpcProg Text := do
  let reader ← answering (Reader.open env chainId)
  answerAll env reader earlier
  dispatch env reader method params

theorem answerAll_tells (empty : env.keccak256 [] = emptyCodeHash) (reader : Reader)
    (requests : List (RpcMethod × Json)) :
    (answerAll env reader requests).Tells (StoreStep env backend faulty owner)
      (Reading env content reader.shards) (fun _ => True) := by
  induction requests with
  | nil => exact Prog.tells_ret trivial
  | cons request rest ih =>
      apply (dispatch_tells empty reader request.1 request.2).attempt.bind
      intro _ _
      exact ih

/-- Whatever a session answers to a query is what is stored under the head it pinned. -/
theorem session_reached (empty : env.keccak256 [] = emptyCodeHash) {chainId : UInt64}
    {earlier : List (RpcMethod × Json)} {method : RpcMethod} {params : Json} {text : Text}
    (query : method.isQuery = true) (bare : Bare content system)
    (reached : (session env chainId earlier method params).Reaches (StoreStep env backend faulty owner)
      system text after) :
    ∃ reader target, storedView env content chainId = .ok (reader.head, reader.runs) ∧
      nativeTarget reader method params = .ok target ∧
      storedAnswer env content reader.runs method target = .ok text := by
  obtain ⟨reader, middle, opened, rest⟩ := Prog.reaches_bind.mp reached
  obtain ⟨bare', pinned⟩ := (answering_tells (open_tells chainId)).reaches bare opened
  have serving : ((answerAll env reader earlier).bind (fun _ => dispatch env reader method params)).Tells
      (StoreStep env backend faulty owner) (Reading env content reader.shards) _ :=
    (answerAll_tells empty reader earlier).bind (fun _ _ => dispatch_tells empty reader method params)
  obtain ⟨target, parsed, stored⟩ := (serving.reaches bare'.reading rest).2 query
  exact ⟨reader, target, pinned, parsed, stored⟩

end

/-! The Worker. -/

section

variable {env : Externals} {content : Key → Option Bytes} {state : WorkerState}

/-- The bucket holds the content; it may also fail. -/
def BucketStep (content : Key → Option Bytes) (get : BucketGet) (_ : Unit) (reply : Except ArchiveError Bytes)
    (_ : Unit) : Prop :=
  ∀ bytes, reply = .ok bytes → content get.key = some bytes

theorem orIntegrity_eq_ok {α : Type} {result : Result α} {value : α} :
    orIntegrity result = .ok value ↔ result = .ok value := by
  cases result <;> simp [orIntegrity]

/-- The Worker's code returns what is as told. -/
abbrev WorkerTells {ε α : Type} (content : Key → Option Bytes) (told : α → Prop)
    (prog : Prog BucketGet (fun _ => Except ArchiveError Bytes) ε α) : Prop :=
  prog.Tells (BucketStep content) (fun _ => True) told

/-- The shards of a request are what is stored. -/
def WorkerState.Recalls (env : Externals) (content : Key → Option Bytes) (state : WorkerState) : Prop :=
  ∀ root shards kind index shard, state.shards.lookup (.summary root shards kind index) = some shard →
    storedShard env content root shards kind index = .ok shard

theorem get_answers (key : Key) (maximum : Nat) :
    WorkerTells content (fun result => (∀ bytes, result.1 = .ok bytes → content key = some bytes) ∧
      result.2.shards = state.shards) (state.get key maximum) := by
  unfold WorkerState.get
  split
  · exact Prog.tells_ret ⟨(fun _ wrong => nomatch wrong), rfl⟩
  · apply Prog.tells_call (fun reply => ∀ bytes, reply = .ok bytes → content key = some bytes)
      (fun _ _ _ _ stepped => ⟨trivial, stepped⟩)
    intro reply stored
    exact Prog.tells_ret ⟨stored, rfl⟩

theorem object_answers (reference : ObjectRef) :
    WorkerTells content (fun result => (∀ bytes, result.1 = .ok bytes → storedObject content reference = .ok bytes) ∧
      result.2.shards = state.shards) (state.object env reference) := by
  unfold WorkerState.object
  dsimp only
  split
  · exact Prog.tells_ret ⟨(fun _ wrong => nomatch wrong), rfl⟩
  · apply (get_answers _ _).bind
    intro result ⟨stored, same⟩
    obtain ⟨reply, later⟩ := result
    cases reply with
    | error error => exact Prog.tells_ret ⟨(fun _ wrong => nomatch wrong), same⟩
    | ok bytes =>
        dsimp only
        split
        · exact Prog.tells_ret ⟨(fun _ wrong => nomatch wrong), same⟩
        · refine Prog.tells_ret ⟨?_, same⟩
          intro found done
          cases done
          exact storedBytes_eq_ok.mpr (stored bytes rfl)

theorem workerShard_answers (recalls : state.Recalls env content) (run : Run) (kind : ShardKind) (index : UInt32) :
    WorkerTells content (fun result => storedShard env content run.root.digest run.shards kind index = .ok result.1 ∧
      result.2.Recalls env content) (state.shard env run kind index) := by
  unfold WorkerState.shard
  dsimp only
  split
  · next shard known => exact Prog.tells_ret ⟨recalls _ _ _ _ shard known, recalls⟩
  · apply (get_answers _ _).bind
    intro result ⟨stored, same⟩
    apply Prog.tells_ofExcept_bind
    intro bytes answered
    apply Prog.tells_ofExcept_bind
    intro shard decoded
    have read : Shard.decode env.toPrimitives run.root.digest kind index run.shards bytes = .ok shard :=
      orIntegrity_eq_ok.mp decoded
    have found : storedShard env content run.root.digest run.shards kind index = .ok shard := by
      unfold storedShard
      rw [storedBytes_eq_ok.mpr (stored bytes answered)]
      exact read
    refine Prog.tells_ret ⟨found, ?_⟩
    intro root shards kind' index' shard' recalled
    dsimp only at recalled
    rw [List.lookup_cons] at recalled
    split at recalled
    · next equal =>
        cases beq_iff_eq.mp equal
        cases recalled
        exact found
    · rw [same] at recalled
      exact recalls _ _ _ _ _ recalled

theorem workerMayContain_answers (recalls : state.Recalls env content) (run : Run) (key : Bytes) :
    WorkerTells content (fun result => storedMayContain env content run key = .ok result.1 ∧
      result.2.Recalls env content) (state.mayContain env run key) := by
  unfold WorkerState.mayContain storedMayContain
  apply (workerShard_answers recalls run .address _).bind
  intro result ⟨found, recalls⟩
  dsimp only at found ⊢
  rw [found, ok_bind]
  split
  · exact Prog.tells_ret ⟨rfl, recalls⟩
  · split
    · exact Prog.tells_ret ⟨rfl, recalls⟩
    · apply (workerShard_answers recalls run .spill _).bind
      intro spill ⟨found', recalls⟩
      rw [found']
      exact Prog.tells_ret ⟨rfl, recalls⟩

theorem workerFetch_answers {own : WorkerState × Option ArchiveError} (recalls : own.1.Recalls env content)
    (reference : ObjectRef) :
    WorkerTells content (fun result => result.2.1.Recalls env content ∧ ∀ bytes, result.1 = .ok bytes →
      storedObject content reference = .ok bytes) (workerFetch env own reference) := by
  unfold workerFetch
  apply (object_answers reference).bind
  intro result ⟨stored, same⟩
  obtain ⟨reply, used⟩ := result
  have kept : used.Recalls env content := by
    unfold WorkerState.Recalls
    rw [same]
    exact recalls
  cases reply with
  | ok bytes =>
      refine Prog.tells_ret ⟨kept, ?_⟩
      intro found done
      cases done
      exact stored bytes rfl
  | error error => exact Prog.tells_ret ⟨kept, fun _ wrong => nomatch wrong⟩

theorem lookupWorkerRuns_answers (key : Bytes) (block : UInt64) (runs : List (Run × RunReader))
    (recalls : state.Recalls env content) :
    WorkerTells content (fun result => storedLookup env content key block runs = .ok result.1 ∧
      result.2.Recalls env content) (lookupWorkerRuns env key block runs state) := by
  induction runs generalizing state with
  | nil => exact Prog.tells_ret ⟨rfl, recalls⟩
  | cons pair rest ih =>
      obtain ⟨run, index⟩ := pair
      unfold lookupWorkerRuns storedLookup
      split
      · exact ih recalls
      · apply (workerMayContain_answers recalls run key).bind
        intro probed ⟨found, recalls⟩
        dsimp only
        rw [found, ok_bind]
        split
        · exact ih recalls
        · apply (Prog.Tells.handle (fun own : WorkerState × Option ArchiveError => own.1.Recalls env content)
            (fun _ reference good => workerFetch_answers good reference)
            (lookup_strict index key (min block run.last)) recalls).bind
          intro looked ⟨recalls, answered⟩
          obtain ⟨value, last, failure⟩ := looked
          cases value with
          | error error => exact Prog.tells_fail _
          | ok value =>
              have stored : storedRun env content index key (min block run.last) = .ok value :=
                answered value rfl
              rw [stored, ok_bind]
              cases value with
              | none => exact ih recalls
              | some bytes => exact Prog.tells_ret ⟨rfl, recalls⟩

theorem accountAt_answers (recalls : state.Recalls env content) (reader : WorkerReader) (address : Address)
    (block : UInt64) :
    WorkerTells content (fun result => ∃ found, storedAccount env content reader.runs address block = .ok found ∧
      result.1 = found.filter AccountState.existing ∧ result.2.Recalls env content)
      (reader.accountAt env state address block) := by
  unfold WorkerReader.accountAt WorkerReader.lookup storedAccount
  apply (lookupWorkerRuns_answers _ block _ recalls).bind
  intro looked ⟨stored, recalls⟩
  rw [stored]
  obtain ⟨value, later⟩ := looked
  cases value with
  | none => exact Prog.tells_ret ⟨none, rfl, rfl, recalls⟩
  | some value =>
      apply Prog.tells_ofExcept_bind
      intro account decoded
      have told : AccountState.decode value = .ok account := orIntegrity_eq_ok.mp decoded
      refine Prog.tells_ret ⟨some account, ?_, ?_, recalls⟩
      · show (AccountState.decode value >>= fun account => .ok (some account)) = .ok (some account)
        rw [told]
        rfl
      · rfl

theorem storageAt_answers (recalls : state.Recalls env content) (reader : WorkerReader) (address : Address)
    (slot : Hash32) (block : UInt64) :
    WorkerTells content (fun value => storedSlot env content reader.runs address slot block = .ok value)
      (reader.storageAt env state address slot block) := by
  unfold WorkerReader.storageAt WorkerReader.lookup storedSlot
  apply (accountAt_answers recalls reader address block).bind
  intro asked ⟨found, stored, shape, recalls⟩
  dsimp only
  rw [stored, ok_bind, ← shape]
  cases asked.1 with
  | none => exact Prog.tells_ret rfl
  | some account =>
      apply (lookupWorkerRuns_answers _ block _ recalls).bind
      intro looked ⟨stored, _⟩
      dsimp only
      rw [stored]
      obtain ⟨value, later⟩ := looked
      cases value with
      | none => exact Prog.tells_ret rfl
      | some value =>
          apply Prog.tells_ofExcept
          intro slot made
          exact ofBytes_eq_ok.mpr (ofBytes_eq_ok.mp (orIntegrity_eq_ok.mp made))

theorem codeAt_answers (recalls : state.Recalls env content) (reader : WorkerReader) (address : Address)
    (block : UInt64) :
    WorkerTells content (fun bytes => storedCode env content reader.runs address block = .ok bytes)
      (reader.codeAt env state address block) := by
  unfold WorkerReader.codeAt WorkerReader.lookup storedCode
  apply (accountAt_answers recalls reader address block).bind
  intro asked ⟨found, stored, shape, recalls⟩
  dsimp only
  rw [stored, ok_bind, ← shape]
  cases asked.1 with
  | none => exact Prog.tells_ret rfl
  | some account =>
      dsimp only
      split
      · exact Prog.tells_ret rfl
      · apply (lookupWorkerRuns_answers _ block _ recalls).bind
        intro looked ⟨stored, _⟩
        rw [stored]
        obtain ⟨value, later⟩ := looked
        cases value with
        | none => exact Prog.tells_fail _
        | some bytes =>
            dsimp only
            split
            · exact Prog.tells_fail _
            · exact Prog.tells_ret rfl

theorem load_answers (chainId : UInt64) :
    WorkerTells content (fun result => storedView env content chainId = .ok (result.1.head, result.1.runs) ∧
      result.2.Recalls env content) (WorkerReader.load env chainId) := by
  unfold WorkerReader.load
  apply (get_answers _ _).bind
  intro result ⟨stored, same⟩
  apply Prog.tells_ofExcept_bind
  intro bytes answered
  apply Prog.tells_ofExcept_bind
  intro head decoded
  split
  · exact Prog.tells_fail _
  · apply Prog.tells_ofExcept_bind
    intro runs listed
    refine Prog.tells_ret ⟨?_, ?_⟩
    · have read : Head.decode env bytes = .ok head := orIntegrity_eq_ok.mp decoded
      have told : decodeManifest env head.runs = .ok runs := orIntegrity_eq_ok.mp listed
      unfold storedView
      rw [storedBytes_eq_ok.mpr (stored bytes answered), ok_bind, read, ok_bind, told]
      rfl
    · intro root shards kind index shard recalled
      rw [same] at recalled
      cases recalled

/-- What the Worker returns for a query is stored under the head it loaded. -/
theorem workerRead_answers (chainId : UInt64) {method : RpcMethod} (query : method.isQuery = true)
    (params : Json) :
    WorkerTells content (fun text => ∃ (reader : WorkerReader) (target : Address × Hash32 × UInt64),
      storedView env content chainId = .ok (reader.head, reader.runs) ∧
      workerQuery reader method params = .ok target ∧
      storedAnswer env content reader.runs method target = .ok text) (workerRead env chainId method params) := by
  unfold workerRead
  apply (load_answers chainId).bind
  intro loaded ⟨pinned, recalls⟩
  obtain ⟨reader, state⟩ := loaded
  cases method with
  | getBalance =>
      apply Prog.tells_ofExcept_bind
      intro target parsed
      apply (accountAt_answers recalls reader target.1 target.2).bind
      intro asked ⟨found, stored, shape, _⟩
      refine Prog.tells_ret ⟨reader, (target.1, Fixed.zero, target.2), pinned,
        bind_eq_ok.mpr ⟨target, parsed, rfl⟩, bind_eq_ok.mpr ⟨found, stored, congrArg Except.ok ?_⟩⟩
      simp only [quantityBytes_eq, shape]
      refine (shown_filter _ ?_).symm
      intro account same dead
      subst same
      rw [(storedAccount_canonical stored dead).2.1]
      exact quantityU256_zero
  | getTransactionCount =>
      apply Prog.tells_ofExcept_bind
      intro target parsed
      apply (accountAt_answers recalls reader target.1 target.2).bind
      intro asked ⟨found, stored, shape, _⟩
      refine Prog.tells_ret ⟨reader, (target.1, Fixed.zero, target.2), pinned,
        bind_eq_ok.mpr ⟨target, parsed, rfl⟩, bind_eq_ok.mpr ⟨found, stored, congrArg Except.ok ?_⟩⟩
      simp only [shape]
      refine (shown_filter _ ?_).symm
      intro account same dead
      subst same
      rw [(storedAccount_canonical stored dead).1]
      rfl
  | getCode =>
      apply Prog.tells_ofExcept_bind
      intro target parsed
      apply (codeAt_answers recalls reader target.1 target.2).bind
      intro bytes stored
      exact Prog.tells_ret ⟨reader, (target.1, Fixed.zero, target.2), pinned,
        bind_eq_ok.mpr ⟨target, parsed, rfl⟩, bind_eq_ok.mpr ⟨bytes, stored, rfl⟩⟩
  | getStorageAt =>
      apply Prog.tells_ofExcept_bind
      intro values counted
      apply Prog.tells_ofExcept_bind
      intro address spelled
      apply Prog.tells_ofExcept_bind
      intro slot slotted
      apply Prog.tells_ofExcept_bind
      intro block selected
      apply (storageAt_answers recalls reader address slot block).bind
      intro value stored
      refine Prog.tells_ret ⟨reader, (address, slot, block), pinned, ?_, bind_eq_ok.mpr ⟨value, stored, rfl⟩⟩
      exact bind_eq_ok.mpr ⟨values, counted, bind_eq_ok.mpr ⟨address, spelled, bind_eq_ok.mpr ⟨slot, slotted,
        bind_eq_ok.mpr ⟨block, selected, rfl⟩⟩⟩⟩
  | clientVersion => cases query
  | chainId => cases query
  | blockNumber => cases query
  | unknown => cases query

theorem dispatching_answers {α : Type} {told : α → Prop} {code : WorkerProg α} (answers : WorkerTells content told code) :
    WorkerTells content told (dispatching code) := by
  apply answers.relay
  · intro error
    exact Prog.tells_fail _
  · intro value said
    exact Prog.tells_ret said

theorem dispatchRpc_reached {chainId : UInt64} {method : RpcMethod} {params : Json} {text : Text}
    (query : method.isQuery = true)
    (reached : (dispatchRpc env chainId method params).Reaches (BucketStep content) () text ()) :
    ∃ (reader : WorkerReader) (target : Address × Hash32 × UInt64),
      storedView env content chainId = .ok (reader.head, reader.runs) ∧
      workerQuery reader method params = .ok target ∧
      storedAnswer env content reader.runs method target = .ok text := by
  have same : dispatchRpc env chainId method params = dispatching (workerRead env chainId method params) := by
    cases method <;> first | rfl | cases query
  rw [same] at reached
  exact ((dispatching_answers (workerRead_answers chainId query params)).reaches trivial reached).2

end

/-- A store with these entries and no reader opened yet. -/
def System.holding {Owner : Type} (entries : AList (fun _ : Key => Entry)) : System Owner :=
  { System.empty with entries := entries }

/-- The native server, at any point of a session, and the Worker: when both return a
result for a query of the same store, it is the same text. -/
theorem servers_agree {Owner : Type} {env : Externals} {backend : Backend} {faulty : StoreOp → Prop}
    {owner : Owner} {entries : AList (fun _ : Key => Entry)} {after : System Owner} {chainId : UInt64}
    {earlier : List (RpcMethod × Json)} {method : RpcMethod} {params : Json} {native worker : Text}
    (empty : env.keccak256 [] = emptyCodeHash) (query : method.isQuery = true)
    (answered : (session env chainId earlier method params).Reaches
      ((System.world env.toPrimitives backend faulty).step owner) (System.holding entries) native after)
    (replied : (dispatchRpc env chainId method params).Reaches
      (BucketStep (System.holding entries : System Owner).content) () worker ()) : native = worker := by
  have bare : Bare (System.holding entries : System Owner).content (System.holding entries : System Owner) :=
    ⟨rfl, fun _ _ => rfl⟩
  obtain ⟨reader, target, pinned, parsed, stored⟩ := session_reached empty query bare answered
  obtain ⟨reader', target', pinned', parsed', stored'⟩ := dispatchRpc_reached query replied
  have views := Prod.mk.inj (Except.ok.inj (pinned.symm.trans pinned'))
  have targets := targets_agree views.1 parsed parsed'
  rw [targets, views.2] at stored
  exact Except.ok.inj (stored.symm.trans stored')

/-! The anchor of two blocks, asked for its code. -/

theorem toOption_eq_some {ε α : Type} {outcome : Except ε α} {value : α} :
    outcome.toOption = some value ↔ outcome = .ok value := by
  cases outcome <;> simp [Except.toOption]

/-- A store without faults answers at once. -/
theorem reaches_perform {Owner ε α : Type} {env : Externals} {backend : Backend} {faulty : StoreOp → Prop}
    {owner : Owner} {prog : Prog StoreOp StoreOp.Resp ε α} {system : System Owner} {value : α}
    (returned : (prog.execute (System.perform env.toPrimitives backend owner) system).1.toOption = some value) :
    ∃ after, prog.Reaches ((System.world env.toPrimitives backend faulty).step owner) system value after :=
  ⟨_, Prog.reaches_execute (fun op state => ⟨state.clock, Nat.le_refl _, .done op⟩) (toOption_eq_some.mp returned)⟩

/-- A bucket without faults. -/
def bucketGet (content : Key → Option Bytes) (_ : Unit) (get : BucketGet) : Except ArchiveError Bytes × Unit :=
  (match content get.key with
    | some bytes => .ok bytes
    | none => .error .backend, ())

theorem reaches_bucketGet {ε α : Type} {content : Key → Option Bytes}
    {prog : Prog BucketGet (fun _ => Except ArchiveError Bytes) ε α} {value : α}
    (returned : (prog.execute (bucketGet content) ()).1.toOption = some value) :
    prog.Reaches (BucketStep content) () value () := by
  apply Prog.reaches_execute _ (toOption_eq_some.mp returned)
  intro get state bytes replied
  unfold bucketGet at replied
  split at replied
  · next stored =>
      cases replied
      exact stored
  · cases replied

def splitEntries : AList (fun _ : Key => Entry) :=
  (splitLaunch ⟨System.empty, []⟩ splitPublish 12).state.entries

def splitStore : System Unit := System.holding splitEntries

def splitQuery : Json := .array [.string ('0' :: 'x' :: hexEncode splitAddress.bytes), .string latestTag]

theorem splitStore_served :
    ((session splitEnv 1 [(.getBalance, splitQuery)] .getCode splitQuery).execute
      (System.perform splitEnv.toPrimitives .memory ()) splitStore).1.toOption = some ['0', 'x', '1', '2'] ∧
    ((dispatchRpc splitEnv 1 .getCode splitQuery).execute (bucketGet splitStore.content) ()).1.toOption =
      some ['0', 'x', '1', '2'] := by
  decide +kernel

/-- A session that has answered before, and the Worker. -/
theorem servers_agree_split : ∃ after,
    (session splitEnv 1 [(.getBalance, splitQuery)] .getCode splitQuery).Reaches
      ((System.world splitEnv.toPrimitives .memory (fun _ => False)).step ()) (System.holding splitEntries)
      ['0', 'x', '1', '2'] after ∧
    (dispatchRpc splitEnv 1 .getCode splitQuery).Reaches
      (BucketStep (System.holding splitEntries : System Unit).content) () ['0', 'x', '1', '2'] () ∧
    (['0', 'x', '1', '2'] : Text) = ['0', 'x', '1', '2'] := by
  obtain ⟨after, answered⟩ := reaches_perform splitStore_served.1
  have replied := reaches_bucketGet splitStore_served.2
  exact ⟨after, answered, replied, servers_agree (by decide +kernel) rfl answered replied⟩

end Fossil
