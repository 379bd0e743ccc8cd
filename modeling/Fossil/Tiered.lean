import Fossil.Compact
import Mathlib.Data.UInt

/-! Publication and compaction against the mutable head.

A publication appends one L0 run; a compaction folds the oldest `l0Trigger` L0
runs into the levels. Both make every object durable and then swap the head. -/

namespace Fossil

/-- Canonicality evidence for the last block of a package being published. -/
inductive PublicationGate where
  | finalized (number : UInt64) (hash : Hash32)
  | fixedOffset (observedNumber : UInt64) (observedHash : Hash32) (offset : UInt64)
  deriving DecidableEq

def maxStaged : Nat := 256 * 1024 * 1024
def maxCode : Nat := 1024 * 1024
def casAttempts : Nat := 32
def gcMinAge : Time := seconds (3 * 3600)
def mergeDeadline : Time := seconds (2 * 3600)

def newRun (start last weight : UInt64) (built : BuiltRun) : Run :=
  ⟨start, last, weight, built.keys, built.shards, built.root, hexEncode built.rootBytes⟩

def accountValue (event : AccountEvent) : Bytes :=
  AccountState.encode ⟨event.existing, event.incarnation, event.nonce, event.balance, event.codeHash⟩

/-! The records of a package. -/

/-- Records added so far, with the bytes they account for. -/
structure Staged where
  records : List Record
  inputBytes : Nat

def Staged.add (first last : UInt64) (staged : Staged) (key : Bytes) (block : UInt64)
    (value : Bytes) : Result Staged :=
  if ¬ (first ≤ block ∧ block ≤ last) then bail "event outside package interval"
  else
    let inputBytes := staged.inputBytes + (key.length + value.length + 32)
    if inputBytes > maxStaged then bail "tiered in-memory input exceeds 256 MiB"
    else .ok ⟨staged.records ++ [⟨key, block, value⟩], inputBytes⟩

def stageAccounts (first last : UInt64) : Staged → List AccountEvent → Result Staged
  | staged, [] => .ok staged
  | staged, event :: rest => do
      let next ← staged.add first last (accountKey event.address) event.block (accountValue event)
      stageAccounts first last next rest

def stageStorage (first last : UInt64) : Staged → List StorageEvent → Result Staged
  | staged, [] => .ok staged
  | staged, event :: rest => do
      let next ← staged.add first last (storageKey event.address event.incarnation event.slot)
        event.block event.value.bytes
      stageStorage first last next rest

def sortRecords (records : List Record) : List Record :=
  records.insertionSort (fun left right => left.version ≤ right.version)

section

variable (env : Externals)

def stageCode (first last : UInt64) : Staged → List CodeBlob → Result Staged
  | staged, [] => .ok staged
  | staged, blob :: rest =>
      if blob.bytes.length > maxCode ∨ env.keccak256 blob.bytes ≠ blob.codeHash then
        bail "invalid or oversized code blob"
      else do
        let next ← staged.add first last (codeKey blob.codeHash) blob.firstSeenBlock blob.bytes
        stageCode first last next rest

def packageRecords (package : Package) : Result (List Record) :=
  match package.segment.blocks.head?, package.segment.blocks.getLast? with
  | some first, some last => do
      let accounts ← stageAccounts first.number last.number ⟨[], 0⟩ package.segment.accounts
      let storage ← stageStorage first.number last.number accounts package.segment.storage
      let code ← stageCode env first.number last.number storage package.segment.code
      .ok (sortRecords code.records)
  | _, _ => bail "empty package"

/-- The account record of an address in force at a block, within one package. -/
def accountInForce (accounts : List AccountEvent) (address : Address) (block : UInt64) :
    Option AccountEvent :=
  (((accounts.filter (fun event => event.address = address)).insertionSort (fun left right =>
    left.block ≤ right.block)).reverse).find? (fun event => event.block ≤ block)

/-- Whether a storage record matches the account in force at its block. -/
def storageMatches (mode : Mode) (accounts : List AccountEvent) (event : StorageEvent) : Bool :=
  match accountInForce accounts event.address event.block with
  | some account =>
      (account.existing && account.incarnation == event.incarnation) ||
        (!account.existing && event.value == Fixed.zero)
  | none => mode ≠ .anchor

def validateLifecycle (package : Package) : Result Unit :=
  let segment := package.segment
  if ¬ segment.storage.all (storageMatches package.mode segment.accounts) then
    bail "storage record does not match its account incarnation"
  else if package.mode = .anchor ∧ segment.accounts.any (fun account =>
      account.existing && account.codeHash != env.keccak256 [] &&
        !(segment.code.map CodeBlob.codeHash).contains account.codeHash) then
    bail "anchor account references code absent from the package"
  else .ok ()

end

def isPublished (head : Head) (package : Package) : Bool :=
  match package.segment.blocks.getLast? with
  | none => false
  | some last =>
      head.chainId = package.segment.chainId ∧ head.genesis = package.segment.genesisHash ∧
        head.number = last.number ∧ head.hash = last.hash ∧ head.inputSha256 = package.inputSha256

/-- Consecutive numbers and parent hashes along a list of blocks. -/
def linked : List BlockMeta → Bool
  | first :: next :: rest =>
      (checkedSucc first.number == some next.number && first.hash == next.parentHash) &&
        linked (next :: rest)
  | _ => true

def checkInterval (segment : Segment) (first last : BlockMeta) : Result Unit :=
  if segment.startBlock ≠ first.number ∨ segment.endBlock ≠ last.number ∨
      segment.blocks.length > 1000 ∨ !linked segment.blocks then
    bail "invalid package block interval"
  else .ok ()

def checkGate (gate : PublicationGate) (last : BlockMeta) : Result Unit :=
  match gate with
  | .finalized number hash =>
      if number = last.number ∧ hash = last.hash then .ok ()
      else bail "tiered publication gate is not canonical at the package end"
  | .fixedOffset number hash offset =>
      if offset = 0 ∧ number = last.number ∧ hash = last.hash then .ok ()
      else bail "tiered publication gate is not canonical at the package end"

/-- Whether a package continues the head it was checked against. -/
def checkTransition (package : Package) (first : BlockMeta) (previous : Option Head) : Result Unit :=
  match package.mode, previous with
  | .anchor, none =>
      if first.number = 0 ∧ first.hash = package.segment.genesisHash ∧
          first.parentHash = Fixed.zero then .ok ()
      else bail "tiered chain/genesis/parent transition invalid"
  | .delta, some head =>
      if head.genesis = package.segment.genesisHash ∧ checkedSucc head.number = some first.number ∧
          package.precedingNumber = some head.number ∧ package.precedingHash = some head.hash ∧
          first.parentHash = head.hash then .ok ()
      else bail "tiered chain/genesis/parent transition invalid"
  | _, _ => bail "tiered chain/genesis/parent transition invalid"

/-- The head that appends a run, before its parent is filled in. -/
def appendHead (package : Package) (first last : BlockMeta) (run : Run) (previous : Option Head) :
    Head :=
  let base : Head :=
    match previous with
    | some head => { head with l0 := head.l0 ++ [run] }
    | none => ⟨headMagic, package.segment.chainId, package.segment.genesisHash, 0, first.hash,
        first.stateRoot, package.inputSha256, none, [run], []⟩
  { base with
    number := last.number
    hash := last.hash
    stateRoot := last.stateRoot
    inputSha256 := package.inputSha256 }

section

variable (env : Externals)

/-- Parse and fully validate head bytes. -/
def Head.decode (bytes : Bytes) : Result Head := do
  let head ← env.headFromSlice bytes
  head.validate env.toPrimitives

def stage (bytes : Bytes) : StoreProg ObjectRef := do
  let length ← tryU32 bytes.length
  putImmutable (.object (env.sha256 bytes)) bytes
  .ret ⟨env.sha256 bytes, length⟩

def readHead (chainId : UInt64) : StoreProg (Option (VersionedBytes × Head)) := do
  let found ← readMutableBounded (.head chainId) maxHead
  match found with
  | none => .ret none
  | some bytes => do
      let head ← Head.decode env bytes.bytes
      if head.chainId ≠ chainId then .fail ["tiered head chain mismatch"]
      else .ret (some (bytes, head))

def stageParent (previous : Option VersionedBytes) : StoreProg (Option ObjectRef) :=
  match previous with
  | none => .ret none
  | some previous => do
      let reference ← stage env previous.bytes
      .ret (some reference)

/-- Swap `next` over `previous`, recording `previous` as the immutable parent. -/
def swap (previous : Option VersionedBytes) (next : Head) : StoreProg Unit := do
  let parent ← stageParent env previous
  let bytes ← env.headToVec { next with parent := parent }
  if bytes.length > maxHead then .fail ["tiered head exceeds its size bound"]
  else compareAndSwap (.head next.chainId) previous bytes

/-- The swap loop of a publication: a lost race is retried only over a head that
still ends at the same block. -/
def publishLoop (package : Package) (first last : BlockMeta) (run : Run) :
    Nat → Option (VersionedBytes × Head) → StoreProg Unit
  | 0, _ => .fail ["tiered publication lost too many CAS races"]
  | attempts + 1, previous => do
      let swapped ← Prog.attempt (swap env (previous.map Prod.fst)
        (appendHead package first last run (previous.map Prod.snd)))
      match swapped with
      | .ok _ => .ret ()
      | .error error => do
          let current ← readHead env package.segment.chainId
          match current, previous with
          | some (bytes, now), some (_, before) =>
              if isPublished now package then .ret ()
              else if now.number = before.number ∧ now.hash = before.hash then
                publishLoop package first last run attempts (some (bytes, now))
              else .fail error
          | some (_, now), none => if isPublished now package then .ret () else .fail error
          | none, _ => .fail error

/-- Append one sealed package as an L0 run. -/
def publish (package : Package) (gate : PublicationGate) : StoreProg Unit :=
  match package.segment.blocks.head?, package.segment.blocks.getLast? with
  | some first, some last => do
      checkInterval package.segment first last
      checkGate gate last
      let previous ← readHead env package.segment.chainId
      if (previous.map Prod.snd).any (fun head => isPublished head package) then .ret ()
      else do
        checkTransition package first (previous.map Prod.snd)
        if (previous.map Prod.snd).any (fun head => head.l0.length ≥ maxL0Backlog) then
          .fail ["tiered L0 compaction backlog is full"]
        else do
          validateLifecycle env package
          let records ← packageRecords env package
          let built ← writeSorted env.toPrimitives records
          publishLoop env package first last (newRun first.number last.number 1 built) casAttempts
            previous
  | _, _ => .fail ["empty package"]

end

/-! Planning a compaction. -/

/-- Where a fold goes: the levels with every consumed slot emptied, the target
slot, the combined weight and the consumed deeper runs, shallowest first. -/
structure Plan (α : Type) where
  levels : List (Option α)
  target : Nat
  weight : UInt64
  deeper : List α

/-- The carry loop over the levels; the fuel is the number of levels left. -/
def planLoop {α : Type} (weightOf : α → UInt64) :
    Nat → Nat → List (Option α) → UInt64 → List α → Result (Plan α)
  | 0, _, _, _, _ => bail "tiered history exceeds the bounded level count"
  | fuel + 1, target, levels, weight, deeper =>
      let levels := if levels.length = target then levels ++ [none] else levels
      let taken := levels.getD target none
      let weight := weight + (taken.map weightOf).getD 0
      let deeper := deeper ++ taken.toList
      let levels := levels.set target none
      if weight < unit target * fanout then .ok ⟨levels, target, weight, deeper⟩
      else if weight ≠ unit target * fanout then bail "tiered level capacity exceeded"
      else planLoop weightOf fuel (target + 1) levels weight deeper

def plan {α : Type} (weightOf : α → UInt64) (levels : List (Option α)) : Result (Plan α) :=
  planLoop weightOf maxLevels 0 levels (UInt64.ofNat l0Trigger) []

/-- The runs a fold consumes, oldest first. -/
def Plan.inputs {α : Type} (plan : Plan α) (l0 : List α) : List α :=
  plan.deeper.reverse ++ l0.take l0Trigger

def contiguous : List Run → Bool
  | first :: next :: rest => checkedSucc first.last == some next.start && contiguous (next :: rest)
  | _ => true

/-- Drop empty slots at the deep end. -/
def trimLevels {α : Type} (levels : List (Option α)) : List (Option α) :=
  (levels.reverse.dropWhile Option.isNone).reverse

/-- The levels once the merged run is in place. -/
def Plan.commit {α : Type} (plan : Plan α) (merged : α) : List (Option α) :=
  trimLevels (plan.levels.set plan.target (some merged))

def runInputs : List Run → Result (List (ObjectRef × Bytes))
  | [] => .ok []
  | run :: rest => do
      let input ← run.input
      let inputs ← runInputs rest
      .ok (input :: inputs)

def sumKeys (runs : List Run) : UInt64 := (runs.map Run.keys).sum

/-- The run a fold produces, covering everything it consumed. -/
def foldedRun (inputs : List Run) (weight : UInt64) (built : BuiltRun) : Run :=
  newRun ((inputs.head?.map Run.start).getD 0) ((inputs.getLast?.map Run.last).getD 0) weight built

section

variable (env : Externals)

def compactLoop (chainId : UInt64) (planned : Head) (levels : List (Option Run)) :
    Nat → StoreProg Bool
  | 0 => .fail ["tiered compaction lost too many CAS races"]
  | attempts + 1 => do
      let found ← readHead env chainId
      match found with
      | none => .fail ["tiered head vanished"]
      | some (bytes, current) =>
          if current.levels ≠ planned.levels ∨ ¬ (planned.l0.take l0Trigger <+: current.l0) then
            .fail ["tiered head changed incompatibly during compaction"]
          else do
            let swapped ← Prog.attempt (swap env (some bytes)
              { current with l0 := current.l0.drop l0Trigger, levels := levels })
            match swapped with
            | .ok _ => .ret true
            | .error _ => compactLoop chainId planned levels attempts

/-- Fold the oldest L0 runs; the result says whether a head was committed. -/
def compactOnce (chainId : UInt64) : StoreProg Bool := do
  let found ← readHead env chainId
  match found with
  | none => .ret false
  | some (_, planned) =>
      if planned.l0.length < l0Trigger then .ret false
      else do
        let plan ← plan Run.weight planned.levels
        let inputs := plan.inputs planned.l0
        if !contiguous inputs then .fail ["noncontiguous tiered compaction inputs"]
        else do
          let refs ← runInputs inputs
          let started ← now
          let built ← mergeRuns env.toPrimitives refs (sumKeys inputs)
          let finished ← now
          if finished - started > mergeDeadline then
            .fail ["compaction exceeded its deadline; its output is left for garbage collection"]
          else
            compactLoop env chainId planned (plan.commit (foldedRun inputs plan.weight built))
              casAttempts

end

end Fossil
