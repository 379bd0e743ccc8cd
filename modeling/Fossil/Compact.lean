import Fossil.RunReader
import Fossil.RunBuilder
import Fossil.Store
import Mathlib.Data.List.Sort

/-! Writing fresh runs and the streaming merge of adjacent runs.

A merge is three concurrent tasks: a producer that reads the input runs in order,
a builder that turns the records into objects and an uploader that stores them.
The producer is a program of its own; its operations drive a `Pipeline` that
holds the builder and the objects not uploaded yet. -/

namespace Fossil

def pageLimit : Nat := 1024 * 1024
def readAhead : Nat := 8

/-- A written run: every data, index, root and summary object is durable. -/
structure BuiltRun where
  root : ObjectRef
  rootBytes : Bytes
  keys : UInt64
  shards : UInt32
  deriving DecidableEq

/-- Store every object, in whatever order the concurrent puts proceed. -/
def putAll : Nat → List (Key × Bytes) → StoreProg Unit
  | 0, _ => .ret ()
  | fuel + 1, objects => do
      let n ← choose objects.length
      match objects[n % objects.length]? with
      | none => .ret ()
      | some (key, bytes) => do
          putImmutable key bytes
          putAll fuel (objects.eraseIdx (n % objects.length))

/-- The keys of sorted records, each once. -/
def distinctKeys : List Record → List Bytes
  | [] => []
  | [record] => [record.key]
  | record :: next :: rest =>
      if record.key = next.key then distinctKeys (next :: rest)
      else record.key :: distinctKeys (next :: rest)

inductive MergeOp where
  | fetch (reference : ObjectRef)
  | send (record : Record)

def MergeOp.Resp : MergeOp → Type
  | .fetch _ => Result Bytes
  | .send _ => Result Unit

abbrev MergeProg := Prog MergeOp MergeOp.Resp Error

/-- The input runs of a merge, each with the record it would give next. -/
abbrev Sources := List (RunScanner × Option Record)

/-- The least head among the inputs; two equal versions are an error. -/
def chooseHead : List (Option Record) → Nat → Option (Nat × Record) → Result (Option (Nat × Record))
  | [], _, chosen => .ok chosen
  | none :: rest, index, chosen => chooseHead rest (index + 1) chosen
  | some record :: rest, index, none => chooseHead rest (index + 1) (some (index, record))
  | some record :: rest, index, some (best, current) =>
      if record.version = current.version then bail "duplicate (key, block) across merged runs"
      else if record.version < current.version then
        chooseHead rest (index + 1) (some (index, record))
      else chooseHead rest (index + 1) (some (best, current))

/-- What the three tasks of a merge share. -/
structure Pipeline where
  ready : AList (fun _ : Hash32 => Bytes)
  builder : Except Error BuilderState
  pending : List EncodedObject
  rootBytes : Bytes
  stopped : Option Error

def Pipeline.start : Pipeline := ⟨∅, .ok .start, [], [], none⟩

/-- Take an object from the builder, unless the uploader has stopped. -/
def Pipeline.accept (pipeline : Pipeline) (object : EncodedObject) : Result Unit × Pipeline :=
  let seen := { pipeline with
    rootBytes := if object.bytes.length < 4096 then object.bytes else pipeline.rootBytes }
  match pipeline.stopped with
  | some _ => (bail "compaction object uploader stopped", seen)
  | none => (.ok (), { seen with pending := seen.pending ++ [object] })

/-- Run a piece of the builder, queueing what it emits. -/
def Pipeline.deliver {α : Type} (pipeline : Pipeline) : Emit α → Except Error α × Pipeline
  | .ret value => (.ok value, pipeline)
  | .fail error => (.error error, pipeline)
  | .call object next =>
      Pipeline.deliver (pipeline.accept object).2 (next (pipeline.accept object).1)

/-- Uploads that happen to proceed now, in any order; a failed one ends the uploader. -/
def Pipeline.upload : Nat → Pipeline → StoreProg Pipeline
  | 0, pipeline => .ret pipeline
  | fuel + 1, pipeline => do
      let n ← choose pipeline.pending.length
      match pipeline.pending[n]? with
      | none => .ret pipeline
      | some object => do
          let stored ← Prog.attempt (putImmutable object.objectKey object.bytes)
          match stored with
          | .ok _ => Pipeline.upload fuel { pipeline with pending := pipeline.pending.eraseIdx n }
          | .error error => .ret { pipeline with pending := [], stopped := some error }

/-- The uploader runs until its queue is empty. -/
def Pipeline.uploadRest (pipeline : Pipeline) : StoreProg Pipeline := do
  let stored ← Prog.attempt (putAll pipeline.pending.length
    (pipeline.pending.map (fun object => (object.objectKey, object.bytes))))
  match stored with
  | .ok _ => .ret { pipeline with pending := [] }
  | .error error => .ret { pipeline with pending := [], stopped := some error }

/-- First place of a page digest in the per-partition lists. -/
def pagePosition (lists : List (List ObjectRef)) (digest : Hash32) : Option (Nat × Nat) :=
  match lists.findIdx? (fun pages => pages.any (fun page => page.digest = digest)) with
  | none => none
  | some list =>
      ((lists.getD list []).findIdx? (fun page => page.digest = digest)).map (fun position =>
        (list, position))

section

variable (env : Primitives)

def fetch (reference : ObjectRef) : StoreProg Bytes :=
  let limit := reference.length.toNat
  if limit = 0 ∨ limit > pageLimit ∨ reference.digest = Fixed.zero then
    .fail ["invalid run object reference"]
  else do
    let bytes ← getBounded (.object reference.digest) limit
    if bytes.length ≠ limit ∨ env.sha256 bytes ≠ reference.digest then
      .fail ["run object digest or length mismatch"]
    else .ret bytes

/-- Run codec code over the store. -/
def withFetch {α : Type} (code : Codec α) : StoreProg α :=
  code.lift (fun reference => Prog.attempt (fetch env reference))

/-- Build a run from sorted records held in memory. -/
def writeSorted (records : List Record) : StoreProg BuiltRun := do
  let keys := distinctKeys records
  let empty ← SummaryBuilder.new (UInt64.ofNat keys.length)
  let summary := empty.addAll env keys
  let (objects, built) := (RunBuilder.build env records).collect
  let root ← built
  let rootBytes := (objects.getLast?.map EncodedObject.bytes).getD []
  putAll objects.length (objects.map (fun object => (object.objectKey, object.bytes)))
  putAll (summary.finish env root.digest).length (summary.finish env root.digest)
  .ret ⟨root, rootBytes, summary.keys, summary.shards⟩

/-! The producer. -/

def mergeFetch {α : Type} (code : Codec α) : MergeProg α :=
  code.lift (fun reference => Prog.perform (MergeOp.fetch reference))

/-- The next record of one input. -/
def pull (scanner : RunScanner) : MergeProg (RunScanner × Option Record) := do
  let (result, scanner) ← mergeFetch (scanner.next env)
  let head ← result
  .ret (scanner, head)

def pullAll : List RunScanner → MergeProg Sources
  | [] => .ret []
  | scanner :: rest => do
      let first ← pull env scanner
      let others ← pullAll rest
      .ret (first :: others)

def sendRecord (record : Record) : MergeProg Unit :=
  Prog.request (MergeOp.send record) id

/-- The merge loop. The fuel bounds the records all inputs can hold together. -/
def mergeLoop : Nat → Sources → Option Bytes → SummaryBuilder → MergeProg SummaryBuilder
  | 0, _, _, _ => .fail ["merge inputs hold more records than their pages allow"]
  | fuel + 1, sources, lastKey, summary => do
      let chosen ← chooseHead (sources.map Prod.snd) 0 none
      match chosen with
      | none => .ret summary
      | some (index, record) =>
          match sources[index]? with
          | none => .ret summary
          | some (scanner, _) => do
              let source ← pull env scanner
              let summary := if lastKey = some record.key then summary else summary.add env record.key
              sendRecord record
              mergeLoop fuel (sources.set index source) (some record.key) summary

def produce (readers : List RunReader) (fuel : Nat) (expectedKeys : UInt64) :
    MergeProg SummaryBuilder := do
  let summary ← SummaryBuilder.new expectedKeys
  let sources ← pullAll env (readers.map RunReader.scanner)
  mergeLoop env fuel sources none summary

/-! The tasks around the producer. -/

/-- Fetch while uploads proceed. -/
def Pipeline.fetch (pipeline : Pipeline) (reference : ObjectRef) :
    StoreProg (Result Bytes × Pipeline) := do
  let uploaded ← Pipeline.upload pipeline.pending.length pipeline
  let bytes ← Prog.attempt (Fossil.fetch env reference)
  .ret (bytes, uploaded)

/-- The pages of a read-ahead batch, or the first error. -/
def Pipeline.fetchBatch (pipeline : Pipeline) :
    List ObjectRef → StoreProg (Result (List Bytes) × Pipeline)
  | [] => .ret (.ok [], pipeline)
  | page :: rest => do
      let (bytes, pipeline) ← pipeline.fetch env page
      match bytes with
      | .error error => .ret (.error error, pipeline)
      | .ok bytes => do
          let (others, pipeline) ← Pipeline.fetchBatch pipeline rest
          .ret (others.map (bytes :: ·), pipeline)

/-- Pages read ahead are kept by digest until they are asked for. -/
def keepReady (ready : AList (fun _ : Hash32 => Bytes)) (pages : List (ObjectRef × Bytes)) :
    AList (fun _ : Hash32 => Bytes) :=
  pages.foldl (fun ready page => ready.insert page.1.digest page.2) ready

/-- A data page is fetched with the ones that follow it in its partition. -/
def Pipeline.get (lists : List (List ObjectRef)) (pipeline : Pipeline) (reference : ObjectRef) :
    StoreProg (Result Bytes × Pipeline) :=
  match pipeline.ready.lookup reference.digest with
  | some bytes =>
      .ret (.ok bytes, { pipeline with ready := pipeline.ready.erase reference.digest })
  | none =>
      match pagePosition lists reference.digest with
      | none => pipeline.fetch env reference
      | some (list, position) => do
          let batch := ((lists.getD list []).drop position).take readAhead
          let (fetched, pipeline) ← pipeline.fetchBatch env batch
          match fetched with
          | .error error => .ret (.error error, pipeline)
          | .ok [] => .ret (bail "batch starts with the request", pipeline)
          | .ok (first :: rest) =>
              .ret (.ok first, { pipeline with
                ready := keepReady pipeline.ready (batch.tail.zip rest) })

/-- Hand a record to the builder. A builder that has failed is noticed once the
records still buffered for it are used up, so some sends may yet succeed. -/
def Pipeline.send (pipeline : Pipeline) (record : Record) : StoreProg (Result Unit × Pipeline) := do
  let uploaded ← Pipeline.upload pipeline.pending.length pipeline
  match uploaded.builder with
  | .ok state =>
      let (next, delivered) := uploaded.deliver (state.push env record)
      .ret (.ok (), { delivered with builder := next })
  | .error _ => do
      let n ← choose 2
      .ret (if n = 0 then bail "compaction record builder stopped" else .ok (), uploaded)

def Pipeline.step (lists : List (List ObjectRef)) (pipeline : Pipeline) :
    (op : MergeOp) → StoreProg (op.Resp × Pipeline)
  | .fetch reference => pipeline.get env lists reference
  | .send record => pipeline.send env record

/-- The end of the record stream lets the builder finish, however the producer ended. -/
def Pipeline.finish (pipeline : Pipeline) : Except Error ObjectRef × Pipeline :=
  match pipeline.builder with
  | .ok state => pipeline.deliver (state.finish env)
  | .error error => (.error error, pipeline)

def decodeRuns : List (ObjectRef × Bytes) → Result (List RunReader)
  | [] => .ok []
  | (reference, bytes) :: rest => do
      let reader ← RunReader.decode env reference bytes
      let readers ← decodeRuns rest
      .ok (reader :: readers)

def pageLists : List RunReader → StoreProg (List (List ObjectRef))
  | [] => .ret []
  | reader :: rest => do
      let pages ← withFetch env (reader.dataPages env)
      let others ← pageLists rest
      .ret (pages ++ others)

/-- No page holds more records than this. -/
def maxPageRecords : Nat := maxPageBytes / 17

def mergeFuel (lists : List (List ObjectRef)) : Nat := lists.flatten.length * maxPageRecords + 1

/-- K-way merge of adjacent time-disjoint runs, oldest first. -/
def mergeRuns (runs : List (ObjectRef × Bytes)) (expectedKeys : UInt64) : StoreProg BuiltRun := do
  let readers ← decodeRuns env runs
  let lists ← pageLists env readers
  let (produced, fed) ← Prog.handle (Pipeline.step env lists) Pipeline.start
    (produce env readers (mergeFuel lists) expectedKeys)
  let (built, finished) := fed.finish env
  let uploaded ← finished.uploadRest
  let summary ← produced
  let root ← built
  match uploaded.stopped with
  | some error => .fail error
  | none => do
      putAll (summary.finish env root.digest).length (summary.finish env root.digest)
      .ret ⟨root, uploaded.rootBytes, summary.keys, summary.shards⟩

end

end Fossil
