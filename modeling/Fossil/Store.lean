import Fossil.Package
import Fossil.Summary
import Fossil.Interference
import Mathlib.Data.List.AList

/-! The object store and the world the archive's programs run in.

`perform` is one store operation as the in-memory and the filesystem store carry
it out. `Outcome` adds what a caller must expect besides: listings in any order,
an evicted memo entry, and operations that fail with or without their effect.
Every effective head update is recorded in a log, with the call that made it. -/

namespace Fossil

/-- What identifies the state a mutable object was read in. -/
inductive VersionTag where
  | counter (n : Nat)
  | digest (hash : Hash32)
  deriving DecidableEq

structure VersionedBytes where
  bytes : Bytes
  version : VersionTag
  deriving DecidableEq

/-- Nanoseconds since the epoch. -/
abbrev Time := Nat

structure Entry where
  bytes : Bytes
  version : Nat
  modified : Time

structure Listed where
  key : Key
  size : Nat
  modified : Time
  deriving DecidableEq

/-- The two prefixes garbage collection lists. -/
inductive Directory where
  | objects
  | summaries
  deriving DecidableEq

def Directory.holds : Directory → Key → Bool
  | .objects, .object _ => true
  | .summaries, .summary .. => true
  | _, _ => false

inductive Backend where
  | memory
  | filesystem
  deriving DecidableEq

def seconds (n : Nat) : Time := n * 1000000000

/-- An identical object older than this is re-stamped when it is written again. -/
def refreshAfter : Time := seconds 3600

inductive StoreOp where
  | getBounded (key : Key) (maximum : Nat)
  | putImmutable (key : Key) (bytes : Bytes)
  | readMutableBounded (key : Key) (maximum : Nat)
  | compareAndSwap (key : Key) (expected : Option VersionedBytes) (bytes : Bytes)
  | list (directory : Directory)
  | modified (key : Key)
  | delete (key : Key)
  | now
  | choose (bound : Nat)
  | shardsNew
  | shardsGet (cache : Nat) (path : Key)
  | shardsInsert (cache : Nat) (path : Key) (shard : Shard)
  deriving DecidableEq

/-- `choose` resolves the order in which concurrent futures of one call proceed;
`shardsNew`, `shardsGet` and `shardsInsert` are the bounded memo of a reader. -/
def StoreOp.Resp : StoreOp → Type
  | .getBounded .. => Result Bytes
  | .putImmutable .. => Result Unit
  | .readMutableBounded .. => Result (Option VersionedBytes)
  | .compareAndSwap .. => Result Unit
  | .list _ => Result (List Listed)
  | .modified _ => Result (Option Time)
  | .delete _ => Result Unit
  | .now => Time
  | .choose _ => Nat
  | .shardsNew => Nat
  | .shardsGet .. => Option Shard
  | .shardsInsert .. => Unit

/-- The reply is an error. -/
def StoreOp.Failed : (op : StoreOp) → op.Resp → Prop
  | .getBounded .., reply => ∃ error, reply = .error error
  | .putImmutable .., reply => ∃ error, reply = .error error
  | .readMutableBounded .., reply => ∃ error, reply = .error error
  | .compareAndSwap .., reply => ∃ error, reply = .error error
  | .list _, reply => ∃ error, reply = .error error
  | .modified _, reply => ∃ error, reply = .error error
  | .delete _, reply => ∃ error, reply = .error error
  | _, _ => False

/-- One effective head update. -/
structure Commit (Owner : Type) where
  owner : Owner
  key : Key
  bytes : Bytes

structure System (Owner : Type) where
  entries : AList (fun _ : Key => Entry)
  nextVersion : Nat
  clock : Time
  memo : Nat → Key → Option Shard
  nextCache : Nat
  log : List (Commit Owner)

namespace System

variable {Owner : Type}

def empty : System Owner := ⟨∅, 0, 0, fun _ _ => none, 0, []⟩

def lookup (system : System Owner) (key : Key) : Option Entry := system.entries.lookup key

/-- The bytes stored under a key. -/
def content (system : System Owner) (key : Key) : Option Bytes := (system.lookup key).map Entry.bytes

def tick (system : System Owner) (clock : Time) : System Owner := { system with clock := clock }

section

variable (env : Primitives) (backend : Backend)

def stamp (system : System Owner) : Time :=
  match backend with
  | .memory => 0
  | .filesystem => system.clock

/-- Write an entry under a fresh version. -/
def insert (system : System Owner) (key : Key) (bytes : Bytes) : System Owner :=
  { system with
    nextVersion := system.nextVersion + 1
    entries := system.entries.insert key ⟨bytes, system.nextVersion + 1, system.stamp backend⟩ }

def versionOf (entry : Entry) : VersionTag :=
  match backend with
  | .memory => .counter entry.version
  | .filesystem => .digest (env.sha256 entry.bytes)

/-- What the filesystem store says of an object longer than it was to read. -/
def streamTooLong {α : Type} : Result α := bail "object stream exceeds bounded read limit"

def notFound (key : Key) : Error := ["object not found: " ++ String.ofList key.path]

def getBounded (system : System Owner) (key : Key) (maximum : Nat) : Result Bytes :=
  match system.lookup key with
  | none => .error (notFound key)
  | some entry =>
      if entry.bytes.length > maximum then
        match backend with
        | .memory => bail "object metadata length exceeds bounded GET limit"
        | .filesystem => streamTooLong
      else .ok entry.bytes

/-- Whether an identical object is old enough to be re-stamped. -/
def stale (system : System Owner) (entry : Entry) : Bool :=
  match backend with
  | .memory => false
  | .filesystem => entry.modified + refreshAfter < system.clock

def collision (key : Key) : Error := ["immutable object collision at " ++ String.ofList key.path]

def putImmutable (system : System Owner) (key : Key) (bytes : Bytes) :
    Result Unit × System Owner :=
  match system.lookup key with
  | none => (.ok (), system.insert backend key bytes)
  | some entry =>
      -- The filesystem store reads back no more than it was given to write.
      if backend = .filesystem ∧ entry.bytes.length > bytes.length then (streamTooLong, system)
      else if entry.bytes ≠ bytes then (.error (collision key), system)
      else if system.stale backend entry then
        (.ok (), { system with
          entries := system.entries.insert key { entry with modified := system.clock } })
      else (.ok (), system)

def readMutableBounded (system : System Owner) (key : Key) (maximum : Nat) :
    Result (Option VersionedBytes) :=
  match system.lookup key with
  | none => .ok none
  | some entry =>
      if entry.bytes.length > maximum then
        match backend with
        | .memory => bail "mutable object exceeds bounded read limit"
        | .filesystem => streamTooLong
      else .ok (some ⟨entry.bytes, versionOf env backend entry⟩)

/-- Whether the current state of a key is the expected one. -/
def matching (system : System Owner) (key : Key) (expected : Option VersionedBytes) : Bool :=
  match expected, system.lookup key with
  | none, none => true
  | some expected, some entry => expected.version = versionOf env backend entry
  | _, _ => false

def compareAndSwap (owner : Owner) (system : System Owner) (key : Key)
    (expected : Option VersionedBytes) (bytes : Bytes) : Result Unit × System Owner :=
  let maximum := expected.elim bytes.length (fun found => max found.bytes.length bytes.length)
  -- The filesystem store reads the current object under its lock, with a bound.
  if backend = .filesystem ∧ ∃ entry ∈ system.lookup key, entry.bytes.length > maximum then
    (streamTooLong, system)
  else if system.matching env backend key expected then
    (.ok (), { system.insert backend key bytes with log := system.log ++ [⟨owner, key, bytes⟩] })
  else (bail "conditional head update failed", system)

def list (system : System Owner) (directory : Directory) : List Listed :=
  (system.entries.entries.filter (fun entry => directory.holds entry.1)).map (fun entry =>
    ⟨entry.1, entry.2.bytes.length, entry.2.modified⟩)

/-- One operation carried out without fault, at the current clock. -/
def perform (owner : Owner) (system : System Owner) : (op : StoreOp) → op.Resp × System Owner
  | .getBounded key maximum => (system.getBounded backend key maximum, system)
  | .putImmutable key bytes => system.putImmutable backend key bytes
  | .readMutableBounded key maximum => (system.readMutableBounded env backend key maximum, system)
  | .compareAndSwap key expected bytes => system.compareAndSwap env backend owner key expected bytes
  | .list directory => (.ok (system.list directory), system)
  | .modified key => (.ok ((system.lookup key).map Entry.modified), system)
  | .delete key => (.ok (), { system with entries := system.entries.erase key })
  | .now => (system.clock, system)
  | .choose _ => ((0 : Nat), system)
  | .shardsNew => (system.nextCache, { system with nextCache := system.nextCache + 1 })
  | .shardsGet cache path => (system.memo cache path, system)
  | .shardsInsert cache path shard =>
      ((), { system with
        memo := Function.update system.memo cache
          (Function.update (system.memo cache) path (some shard)) })

/-- The possible replies to an operation and the states they leave. -/
inductive Outcome (faulty : StoreOp → Prop) (owner : Owner) (system : System Owner) :
    (op : StoreOp) → op.Resp → System Owner → Prop where
  | done (op : StoreOp) :
      Outcome faulty owner system op (system.perform env backend owner op).1
        (system.perform env backend owner op).2
  | reordered (directory : Directory) (listed : List Listed)
      (same : listed.Perm (system.list directory)) :
      Outcome faulty owner system (.list directory) (.ok listed) system
  | chosen (bound n : Nat) : Outcome faulty owner system (.choose bound) n system
  | evicted (cache : Nat) (path : Key) : Outcome faulty owner system (.shardsGet cache path) none system
  | lost (op : StoreOp) (reply : op.Resp) (allowed : faulty op) (failed : op.Failed reply) :
      Outcome faulty owner system op reply system
  | unacknowledged (op : StoreOp) (reply : op.Resp) (allowed : faulty op) (failed : op.Failed reply) :
      Outcome faulty owner system op reply (system.perform env backend owner op).2

/-- Time passes before each operation takes effect. -/
def world (faulty : StoreOp → Prop) : World StoreOp StoreOp.Resp Owner (System Owner) where
  step owner op system reply after :=
    ∃ clock, system.clock ≤ clock ∧ Outcome env backend faulty owner (system.tick clock) op reply after

end

end System

/-! Operations as programs. -/

abbrev StoreProg := Prog StoreOp StoreOp.Resp Error

def getBounded (key : Key) (maximum : Nat) : StoreProg Bytes :=
  Prog.request (.getBounded key maximum) id

def putImmutable (key : Key) (bytes : Bytes) : StoreProg Unit :=
  Prog.request (.putImmutable key bytes) id

def readMutableBounded (key : Key) (maximum : Nat) : StoreProg (Option VersionedBytes) :=
  Prog.request (.readMutableBounded key maximum) id

def compareAndSwap (key : Key) (expected : Option VersionedBytes) (bytes : Bytes) : StoreProg Unit :=
  Prog.request (.compareAndSwap key expected bytes) id

def listDirectory (directory : Directory) : StoreProg (List Listed) :=
  Prog.request (.list directory) id

def modified (key : Key) : StoreProg (Option Time) := Prog.request (.modified key) id

def delete (key : Key) : StoreProg Unit := Prog.request (.delete key) id

theorem run_getBounded (replies : (op : StoreOp) → op.Resp) (key : Key) (maximum : Nat) :
    ((getBounded key maximum).run replies).2 = replies (.getBounded key maximum) := Prog.run_request _ _

theorem run_readMutableBounded (replies : (op : StoreOp) → op.Resp) (key : Key) (maximum : Nat) :
    ((readMutableBounded key maximum).run replies).2 = replies (.readMutableBounded key maximum) :=
  Prog.run_request _ _

def now : StoreProg Time := Prog.perform StoreOp.now

def choose (bound : Nat) : StoreProg Nat := Prog.perform (StoreOp.choose bound)

end Fossil
