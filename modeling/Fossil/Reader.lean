import Fossil.Tiered

/-! Reads of a pinned head.

A reader fixes the head it was opened on. A lookup probes the runs from newest to
oldest: a summary shard first, then at most three objects of the run. Every GET is
charged to the budget of its request before it is issued. -/

namespace Fossil

def maxRequestGets : Nat := 192
def maxRequestBytes : Nat := 128 * 1024 * 1024

structure Budget where
  gets : Nat
  bytes : Nat
  deriving DecidableEq

def Budget.default : Budget := ⟨0, 0⟩

def budgetError : Error := ["tiered read exceeds its per-request GET or byte budget"]

def Budget.spend (budget : Budget) (maximum : Nat) : Budget :=
  ⟨budget.gets + 1, budget.bytes + maximum⟩

def Budget.exhausted (budget : Budget) : Bool :=
  budget.gets > maxRequestGets ∨ budget.bytes > maxRequestBytes

/-- Charge one GET with its maximum size. -/
def Budget.charge (budget : Budget) (maximum : Nat) : Result Budget :=
  if (budget.spend maximum).exhausted then .error budgetError else .ok (budget.spend maximum)

structure Reader where
  head : Head
  headDigest : Hash32
  runs : List (Run × RunReader)
  shards : Nat
  deriving DecidableEq

section

variable (env : Externals)

def decodeManifest : List Run → Result (List (Run × RunReader))
  | [] => .ok []
  | run :: rest => do
      let (reference, bytes) ← run.input
      let reader ← RunReader.decode env.toPrimitives reference bytes
      let readers ← decodeManifest rest
      .ok ((run, reader) :: readers)

def Reader.open (chainId : UInt64) : StoreProg Reader := do
  let found ← readHead env chainId
  match found with
  | none => .fail ["missing tiered head"]
  | some (bytes, head) => do
      let runs ← decodeManifest env head.runs
      let shards ← Prog.perform StoreOp.shardsNew
      .ret ⟨head, env.sha256 bytes.bytes, runs, shards⟩

/-- A summary shard, from the reader's memo or from the store. -/
def Reader.shard (reader : Reader) (budget : Budget) (run : Run) (kind : ShardKind)
    (index : UInt32) : StoreProg (Shard × Budget) := do
  let path : Key := .summary run.root.digest run.shards kind index
  let known ← Prog.perform (StoreOp.shardsGet reader.shards path)
  match known with
  | some shard => .ret (shard, budget)
  | none => do
      let budget ← budget.charge maxShardBytes
      let bytes ← getBounded path maxShardBytes
      let shard ← Shard.decode env.toPrimitives run.root.digest kind index run.shards bytes
      Prog.perform (StoreOp.shardsInsert reader.shards path shard)
      .ret (shard, budget)

def Reader.mayContain (reader : Reader) (budget : Budget) (run : Run) (key : Bytes) :
    StoreProg (Bool × Budget) := do
  let probe := Probe.new env.toPrimitives key run.shards
  let (address, budget) ← reader.shard env budget run .address probe.addressIndex
  if address.contains env.toPrimitives key then .ret (true, budget)
  else if !address.contains env.toPrimitives probe.marker then .ret (false, budget)
  else do
    let (spill, budget) ← reader.shard env budget run .spill probe.spillIndex
    .ret (spill.contains env.toPrimitives key, budget)

/-- Fetch one object of a run on a budget. -/
def chargedFetch (budget : Budget) (reference : ObjectRef) : StoreProg (Result Bytes × Budget) :=
  match budget.charge reference.length.toNat with
  | .error error => .ret (.error error, budget.spend reference.length.toNat)
  | .ok budget => do
      let bytes ← Prog.attempt (fetch env.toPrimitives reference)
      .ret (bytes, budget)

/-- Look a key up in the given runs, first one first. -/
def Reader.lookupRuns (reader : Reader) (key : Bytes) (block : UInt64) :
    List (Run × RunReader) → Budget → StoreProg (Option Bytes × Budget)
  | [], budget => .ret (none, budget)
  | (run, index) :: rest, budget =>
      if run.start > block then reader.lookupRuns key block rest budget
      else do
        let (maybe, budget) ← reader.mayContain env budget run key
        if !maybe then reader.lookupRuns key block rest budget
        else do
          let (value, budget) ← Prog.handle (chargedFetch env) budget
            (index.lookup env.toPrimitives key (min block run.last))
          let value ← value
          match value with
          | some value => .ret (some value, budget)
          | none => reader.lookupRuns key block rest budget

def Reader.lookup (reader : Reader) (budget : Budget) (key : Bytes) (block : UInt64) :
    StoreProg (Option Bytes × Budget) :=
  if block > reader.head.number then .fail ["block outside pinned tiered history"]
  else reader.lookupRuns env key block reader.runs.reverse budget

def Reader.accountIn (reader : Reader) (budget : Budget) (address : Address) (block : UInt64) :
    StoreProg (Option AccountEvent × Budget) := do
  let (value, budget) ← reader.lookup env budget (accountKey address) block
  match value with
  | none => .ret (none, budget)
  | some value => do
      let state ← AccountState.decode value
      .ret (some ⟨block, address, state.existing, state.incarnation, state.nonce, state.balance,
        state.codeHash⟩, budget)

def Reader.account (reader : Reader) (address : Address) (block : UInt64) :
    StoreProg (Option AccountEvent) := do
  let (account, _) ← reader.accountIn env .default address block
  .ret account

def Reader.storage (reader : Reader) (address : Address) (slot : Hash32) (block : UInt64) :
    StoreProg Hash32 := do
  let (account, budget) ← reader.accountIn env .default address block
  match account with
  | none => .ret Fixed.zero
  | some account =>
      if !account.existing then .ret Fixed.zero
      else do
        let (value, _) ← reader.lookup env budget (storageKey address account.incarnation slot) block
        match value with
        | none => .ret Fixed.zero
        | some value => Prog.ofExcept (Fixed.ofBytes "invalid full-key storage poststate" value)

def Reader.code (reader : Reader) (address : Address) (block : UInt64) : StoreProg Bytes := do
  let (account, budget) ← reader.accountIn env .default address block
  match account with
  | none => .ret []
  | some account =>
      if !account.existing then .ret []
      else if account.codeHash = env.keccak256 [] then .ret []
      else do
        let (value, _) ← reader.lookup env budget (codeKey account.codeHash) block
        match value with
        | none => .fail ["missing account code blob"]
        | some bytes =>
            if bytes.length > maxCode ∨ env.keccak256 bytes ≠ account.codeHash then
              .fail ["invalid code poststate"]
            else .ret bytes

end

end Fossil
