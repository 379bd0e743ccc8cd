import Fossil.EventLog
import Fossil.Queries
import Fossil.Ledger

/-! Readers among writers.

A reader opened at any moment stays pinned to the packages committed by then. What
it answers is what the event log of these packages says, whatever is published or
compacted in the meantime. -/

namespace Fossil

section

variable {env : Externals} {accepts : Package → Prop} {backend : Backend} {faulty : StoreOp → Prop} {owner : Call}
  {chainId : UInt64} {state base after : ArchiveSystem}

/-! The records of a manifest. -/

theorem Publication.mem_records (publication : Publication env accepts) {record : Record} :
    record ∈ publication.piece.records ↔ record ∈ eventRecords publication.package.segment := by
  rw [(packageRecords_eq_ok publication.front publication.back publication.records).1]
  exact (sortRecords_perm _).mem_iff

/-- The current runs hold the records of all packages. -/
theorem Manifest.mem_records (manifest : Manifest env accepts) {record : Record} :
    record ∈ manifest.current.flatMap Piece.records ↔ record ∈ logRecords manifest.packages := by
  have whole : (manifest.current.flatMap Piece.records).Perm (manifest.pieces.flatMap Piece.records) :=
    manifest.folded.records_perm
  rw [whole.mem_iff]
  unfold Manifest.pieces logRecords Manifest.packages
  simp only [List.mem_flatMap, List.mem_map, exists_exists_and_eq_and, Publication.mem_records]

/-! Opening a reader. -/

/-- A reader of the head that some commits led to. -/
structure Pinned (reader : Reader) (chainId : UInt64) (commits : List (Commit Call))
    (manifest : Manifest env accepts) (state : ArchiveSystem) : Prop where
  early : commits <+: state.commits chainId
  history : ∃ bytes, History env accepts chainId (Holds state) commits manifest bytes ∧
    Head.decode env bytes = .ok reader.head
  head : ∃ parent, reader.head = manifest.head parent
  runs : List.Forall₂ Indexed manifest.current reader.runs

theorem Pinned.later {reader : Reader} {commits : List (Commit Call)} {manifest : Manifest env accepts}
    (pinned : Pinned reader chainId commits manifest state) (kept : Kept state after) :
    Pinned reader chainId commits manifest after := by
  obtain ⟨bytes, history, decoded⟩ := pinned.history
  exact ⟨pinned.early.trans (kept.commits chainId), ⟨bytes, history.later kept, decoded⟩, pinned.head, pinned.runs⟩

theorem Piece.indexed {piece : Piece env} {reference : ObjectRef} {bytes : Bytes} {reader : RunReader}
    (input : piece.run.input = .ok (reference, bytes))
    (opened : RunReader.decode env.toPrimitives reference bytes = .ok reader) :
    Indexed piece (piece.run, reader) := by
  obtain ⟨tree, objects, stores, root, same, inside⟩ := buildRun_tree piece.build
  refine ⟨rfl, tree, objects, stores, ?_, inside⟩
  have text : hexDecode piece.run.rootBytes = .ok tree.object.bytes := by
    rw [piece.shape, ← same]
    exact hexDecode_hexEncode _
  have whole : piece.run.input = .ok (tree.object.reference, tree.object.bytes) := by
    unfold Run.input
    rw [text, ok_bind, piece.root_eq, root]
  cases input.symm.trans whole
  have readable : tree.Readable (· ∈ objects) := stores.readable (fun _ member => member)
  obtain done | ⟨_, error, failed⟩ := readable.decode
  · exact Except.ok.inj (opened.symm.trans done)
  · rw [opened] at failed
    cases failed

theorem decodeManifest_indexed {pieces : List (Piece env)} {runs : List (Run × RunReader)}
    (decoded : decodeManifest env (pieces.map Piece.run) = .ok runs) : List.Forall₂ Indexed pieces runs := by
  induction pieces generalizing runs with
  | nil =>
      cases decoded
      exact .nil
  | cons piece pieces ih =>
      obtain ⟨⟨reference, bytes⟩, input, rest⟩ := bind_eq_ok.mp decoded
      obtain ⟨reader, opened, rest⟩ := bind_eq_ok.mp rest
      obtain ⟨readers, more, done⟩ := bind_eq_ok.mp rest
      cases done
      exact .cons (piece.indexed input opened) (ih more)

/-- A reader is pinned to what was committed when it read the head. -/
theorem open_safe (codec : HeadsRoundTrip env) :
    (Reader.open env chainId).Safe (archiveWorld env backend faulty)
      (archiveProtocol env accepts backend) owner (Prog.Returns (fun reader later =>
        ∃ commits, ∃ manifest : Manifest env accepts, Pinned reader chainId commits manifest later)) state := by
  apply (readHead_safe codec).returns_bind
  intro found read _ _ seen
  rcases found with _ | ⟨bytes, head⟩
  · exact Prog.safe_fail_returns
  · obtain ⟨commits, manifest, observed, _, valid⟩ := seen bytes head rfl
    apply Prog.safe_ofExcept_bind
    intro runs decoded later moves inv cache after stepped
    have fresh := step_shardsNew inv stepped
    refine ⟨fresh.1, fresh.2, Prog.safe_ret_returns ?_⟩
    intro final moved _
    obtain ⟨parent, same⟩ := observed.head
    refine ⟨commits, manifest, ?_⟩
    have here : Pinned ⟨head, env.sha256 bytes.bytes, runs, cache⟩ chainId commits manifest read := by
      refine ⟨observed.early, ⟨bytes.bytes, observed.history, valid⟩, ⟨parent, same⟩, ?_⟩
      apply decodeManifest_indexed
      rw [← manifest.head_runs parent, ← same]
      exact decoded
    exact here.later (Kept.trans moves (Kept.trans fresh.2 moved))

/-! Queries. -/

/-- An account event as a query at a block reports it. -/
def AccountEvent.asOf (event : AccountEvent) (block : UInt64) : AccountEvent := { event with block := block }

section

variable {reader : Reader} {commits : List (Commit Call)} {manifest : Manifest env accepts} {budget : Budget}
  {gets left : Nat} {address : Address} {block : UInt64}

theorem Pinned.lookup_gives (pinned : Pinned reader chainId commits manifest base)
    (lossless : env.toPrimitives.Lossless)
    (charging : Charging base gets (left + 5 * reader.runs.length) budget state) {key : Bytes}
    (low : block ≤ reader.head.number) (nonempty : key ≠ []) :
    (reader.lookup env budget key block).Safe (archiveWorld env backend faulty)
      (archiveProtocol env accepts backend) owner (Prog.Gives (Excused faulty gets base)
        (fun result later => Newest (logRecords manifest.packages) key block result.1 ∧
          Charging base gets left result.2 later)) state := by
  obtain ⟨_, history, _⟩ := pinned.history
  have ordered : manifest.current.reverse.Pairwise (fun newer older => older.run.last < newer.run.start) := by
    rw [List.pairwise_reverse]
    exact List.pairwise_map.mp manifest.current_tiled.pairwise
  have indexed : List.Forall₂ Indexed manifest.current.reverse reader.runs.reverse :=
    List.forall₂_reverse_iff.mpr pinned.runs
  rw [← List.length_reverse] at charging
  unfold Reader.lookup
  rw [if_neg (not_lt_of_ge low)]
  have found := @lookupRuns_gives env accepts backend faulty owner state base gets reader key block _ _
    budget left lossless charging indexed
    (fun piece member => history.stored piece (List.mem_reverse.mp member)) ordered nonempty
  apply found.weaken
  intro outcome later _ _ given
  obtain ⟨result, done, newest, charged⟩ | failed := given
  · refine .inl ⟨result, done, ?_, charged⟩
    refine (newest_congr ?_).mp newest
    intro record _ _
    rw [← manifest.mem_records]
    simp
  · exact .inr failed

/-- The account in force, reported as of the block of the query. -/
theorem Pinned.accountIn_gives (pinned : Pinned reader chainId commits manifest base)
    (lossless : env.toPrimitives.Lossless) (canonical : ∀ package, accepts package → package.Canonical)
    (charging : Charging base gets (left + 5 * reader.runs.length) budget state)
    (low : block ≤ reader.head.number) :
    (reader.accountIn env budget address block).Safe (archiveWorld env backend faulty)
      (archiveProtocol env accepts backend) owner (Prog.Gives (Excused faulty gets base)
        (fun result later => (∃ found, AccountAt manifest.packages address block found ∧
          result.1 = found.map (fun event => event.asOf block)) ∧
          Charging base gets left result.2 later)) state := by
  apply (pinned.lookup_gives lossless charging low (by simp [accountKey])).gives_bind
  intro result later _ _ looked
  obtain ⟨value, spent⟩ := result
  obtain ⟨newest, charged⟩ := looked
  obtain ⟨found, latest, same⟩ := newest.latest (fun _ => accountRecords_iff)
  dsimp only at same charged
  subst same
  cases found with
  | none => exact Prog.safe_ret_gives (fun _ moves _ => ⟨⟨none, latest, rfl⟩, charged.later moves⟩)
  | some event =>
      obtain ⟨⟨package, inside, held⟩, same⟩ := mem_accountEvents.mp latest.1
      obtain ⟨publication, _, rfl⟩ := List.mem_map.mp inside
      have sound : (PackageEvent.account event).Sound env :=
        canonical _ publication.accepted event held
      have decoded : AccountState.decode (accountRecord event).value =
          .ok ⟨event.existing, event.incarnation, event.nonce, event.balance, event.codeHash⟩ :=
        decode_accountValue sound
      simp only [Option.map_some]
      rw [decoded]
      apply Prog.safe_ret_gives
      intro _ moves _
      refine ⟨⟨some event, latest, ?_⟩, charged.later moves⟩
      rw [Option.map_some, AccountEvent.asOf, same]

theorem Pinned.account_gives (pinned : Pinned reader chainId commits manifest state)
    (lossless : env.toPrimitives.Lossless) (canonical : ∀ package, accepts package → package.Canonical)
    (low : block ≤ reader.head.number) :
    (reader.account env address block).Safe (archiveWorld env backend faulty)
      (archiveProtocol env accepts backend) owner
      (Prog.Gives (Excused faulty (10 * reader.runs.length) state) (fun result _ =>
        ∃ found, AccountAt manifest.packages address block found ∧
          result = found.map (fun event => event.asOf block))) state := by
  have charging : Charging state (10 * reader.runs.length) (0 + 5 * reader.runs.length) .default state :=
    ⟨Kept.refl state, Budget.fair_default, by simp only [Budget.default]; omega⟩
  apply (pinned.accountIn_gives lossless canonical charging low).gives_bind
  intro result later _ _ answered
  exact Prog.safe_ret_gives (fun _ _ _ => answered.1)

theorem Pinned.storage_gives (pinned : Pinned reader chainId commits manifest state)
    (lossless : env.toPrimitives.Lossless) (canonical : ∀ package, accepts package → package.Canonical)
    {slot : Hash32} (low : block ≤ reader.head.number) :
    (reader.storage env address slot block).Safe (archiveWorld env backend faulty)
      (archiveProtocol env accepts backend) owner
      (Prog.Gives (Excused faulty (10 * reader.runs.length) state) (fun result _ =>
        StorageAt manifest.packages address slot block result)) state := by
  have charging : Charging state (10 * reader.runs.length)
      (5 * reader.runs.length + 5 * reader.runs.length) .default state :=
    ⟨Kept.refl state, Budget.fair_default, by simp only [Budget.default]; omega⟩
  apply (pinned.accountIn_gives lossless canonical charging low).gives_bind
  intro result later _ _ answered
  obtain ⟨account, budget⟩ := result
  obtain ⟨⟨found, latest, same⟩, charged⟩ := answered
  dsimp only at same charged
  subst same
  cases found with
  | none =>
      apply Prog.safe_ret_gives
      intro _ _ _
      exact ⟨none, latest, .inl ⟨by simp, rfl⟩⟩
  | some event =>
      simp only [Option.map_some, AccountEvent.asOf]
      split
      · next gone =>
          apply Prog.safe_ret_gives
          intro _ _ _
          refine ⟨some event, latest, .inl ⟨?_, rfl⟩⟩
          simpa using gone
      · next live =>
          have charging' : Charging state (10 * reader.runs.length) (0 + 5 * reader.runs.length) budget later :=
            charged.fewer (by omega)
          apply (pinned.lookup_gives lossless charging' low (by simp [storageKey])).gives_bind
          intro result _ _ _ looked
          obtain ⟨value, _⟩ := result
          obtain ⟨write, newest, same⟩ := looked.1.latest (fun _ => storageRecords_iff)
          dsimp only at same
          subst same
          have holds : StorageAt manifest.packages address slot block
              ((write.map StorageEvent.value).getD Fixed.zero) :=
            ⟨some event, latest, .inr ⟨event, rfl, by simpa using live, write, newest, rfl⟩⟩
          cases write with
          | none => exact Prog.safe_ret_gives (fun _ _ _ => holds)
          | some write =>
              have decoded : Fixed.ofBytes "invalid full-key storage poststate" (storageRecord write).value =
                  .ok write.value := Fixed.ofBytes_bytes _ _
              simp only [Option.map_some]
              rw [decoded]
              exact Prog.safe_ret_gives (fun _ _ _ => holds)

/-- A committed blob passed the checks of its publication. -/
theorem Manifest.blob_valid (manifest : Manifest env accepts) {hash : Hash32} {blob : CodeBlob}
    (member : blob ∈ codeBlobs manifest.packages hash) :
    blob.bytes.length ≤ maxCode ∧ env.keccak256 blob.bytes = hash := by
  obtain ⟨⟨package, inside, held⟩, same⟩ := mem_codeBlobs.mp member
  obtain ⟨publication, _, rfl⟩ := List.mem_map.mp inside
  have valid := (packageRecords_eq_ok publication.front publication.back publication.records).2.2 blob held
  exact ⟨valid.1, valid.2.trans same⟩

theorem Pinned.code_gives (pinned : Pinned reader chainId commits manifest state)
    (lossless : env.toPrimitives.Lossless) (canonical : ∀ package, accepts package → package.Canonical)
    (low : block ≤ reader.head.number) :
    (reader.code env address block).Safe (archiveWorld env backend faulty)
      (archiveProtocol env accepts backend) owner
      (Prog.Gives (fun error => CodeAt env manifest.packages address block (.error error) ∨
        Excused faulty (10 * reader.runs.length) state error)
        (fun bytes _ => CodeAt env manifest.packages address block (.ok bytes))) state := by
  have charging : Charging state (10 * reader.runs.length)
      (5 * reader.runs.length + 5 * reader.runs.length) .default state :=
    ⟨Kept.refl state, Budget.fair_default, by simp only [Budget.default]; omega⟩
  apply ((pinned.accountIn_gives lossless canonical charging low).tolerates (fun _ => .inr)).gives_bind
  intro result later _ _ answered
  obtain ⟨account, budget⟩ := result
  obtain ⟨⟨found, latest, same⟩, charged⟩ := answered
  dsimp only at same charged
  subst same
  cases found with
  | none =>
      apply Prog.safe_ret_gives
      intro _ _ _
      exact ⟨none, latest, .inl ⟨by simp, rfl⟩⟩
  | some event =>
      simp only [Option.map_some, AccountEvent.asOf]
      split
      · next gone =>
          apply Prog.safe_ret_gives
          intro _ _ _
          refine ⟨some event, latest, .inl ⟨?_, rfl⟩⟩
          intro other isEvent live
          cases isEvent
          rw [live] at gone
          cases gone
      · next live =>
          split
          · next empty =>
              apply Prog.safe_ret_gives
              intro _ _ _
              refine ⟨some event, latest, .inl ⟨?_, rfl⟩⟩
              intro other isEvent _
              cases isEvent
              exact empty
          · next hash =>
              have charging' : Charging state (10 * reader.runs.length) (0 + 5 * reader.runs.length) budget
                  later := charged.fewer (by omega)
              apply ((pinned.lookup_gives lossless charging' low (by simp [codeKey])).tolerates
                (fun _ => .inr)).gives_bind
              intro result _ _ _ looked
              obtain ⟨value, _⟩ := result
              obtain ⟨blob, newest, same⟩ := looked.1.latest (fun _ => codeRecords_iff)
              dsimp only at same
              subst same
              have holds : CodeAt env manifest.packages address block
                  (blob.elim (.error missingCode) (fun blob => .ok blob.bytes)) :=
                ⟨some event, latest, .inr ⟨event, rfl, by simpa using live, hash, blob, newest, rfl⟩⟩
              cases blob with
              | none => exact Prog.safe_fail_gives (.inl holds)
              | some blob =>
                  obtain ⟨small, digest⟩ := manifest.blob_valid newest.1
                  have valid : ¬ (blob.bytes.length > maxCode ∨ env.keccak256 blob.bytes ≠ event.codeHash) := by
                    rw [digest]
                    simpa using small
                  have same : (codeRecord blob).value = blob.bytes := rfl
                  simp only [Option.map_some, same]
                  rw [if_neg valid]
                  exact Prog.safe_ret_gives (fun _ _ _ => holds)

end

/-! Whole schedules. -/

def AccountReply (packages : List Package) (address : Address) (block : UInt64)
    (outcome : Result (Option AccountEvent)) : Prop :=
  ∃ found, AccountAt packages address block found ∧ outcome = .ok (found.map (fun event => event.asOf block))

def StorageReply (packages : List Package) (address : Address) (slot : Hash32) (block : UInt64)
    (outcome : Result Hash32) : Prop :=
  ∃ value, StorageAt packages address slot block value ∧ outcome = .ok value

/-- Accepted packages that pass the lifecycle checks: only these are committed. -/
def Sealed (env : Externals) (accepts : Package → Prop) (package : Package) : Prop :=
  accepts package ∧ validateLifecycle env package = .ok ()

/-- A query within the history of its reader has answered from it, or has an excuse. -/
def Replied {α : Type} (env : Externals) (accepts : Package → Prop) (faulty : StoreOp → Prop) (reader : Reader)
    (block : UInt64) (answer : List Package → Result α → Prop) (outcome : Result α) (state : ArchiveSystem) :
    Prop :=
  ∃ chainId commits, ∃ manifest : Manifest env accepts, Pinned reader chainId commits manifest state ∧
    (block ≤ reader.head.number → answer manifest.packages outcome ∨
      ∃ error, outcome = .error error ∧ Excused faulty (10 * reader.runs.length) state error)

/-- What a finished call promises. -/
def Replies (env : Externals) (accepts : Package → Prop) (faulty : StoreOp → Prop) :
    (call : Call) → Except Error call.Out → ArchiveSystem → Prop
  | .openReader chainId, outcome, state => ∀ reader, outcome = .ok reader →
      ∃ commits, ∃ manifest : Manifest env accepts, Pinned reader chainId commits manifest state
  | .account reader address block, outcome, state =>
      Replied env accepts faulty reader block (fun packages => AccountReply packages address block) outcome state
  | .storage reader address slot block, outcome, state =>
      Replied env accepts faulty reader block (fun packages => StorageReply packages address slot block)
        outcome state
  | .code reader address block, outcome, state =>
      Replied env accepts faulty reader block (fun packages => CodeAt env packages address block) outcome state
  | _, _, _ => True

def outsideError : Error := ["block outside pinned tiered history"]

/-- A query beyond the pinned head stops at once. -/
theorem accountIn_outside {reader : Reader} {budget : Budget} {address : Address} {block : UInt64}
    (beyond : ¬ block ≤ reader.head.number) :
    reader.accountIn env budget address block = .fail outsideError := by
  unfold Reader.accountIn Reader.lookup
  rw [if_pos (lt_of_not_ge beyond)]
  rfl

section

variable {reader : Reader} {commits : List (Commit Call)} {manifest : Manifest env accepts}
  (pinned : Pinned reader chainId commits manifest state)

include pinned

/-- What a query gives it can promise, with its reader pinned. -/
theorem Pinned.replied {α : Type} {block : UInt64} {answer : List Package → Result α → Prop}
    {prog : StoreProg α} (beyond : ¬ block ≤ reader.head.number → prog = .fail outsideError)
    (gives : block ≤ reader.head.number → prog.Safe (archiveWorld env backend faulty)
      (archiveProtocol env accepts backend) owner (fun outcome _ => answer manifest.packages outcome ∨
        ∃ error, outcome = .error error ∧ Excused faulty (10 * reader.runs.length) state error) state) :
    prog.Safe (archiveWorld env backend faulty) (archiveProtocol env accepts backend) owner
      (Replied env accepts faulty reader block answer) state := by
  by_cases low : block ≤ reader.head.number
  · apply (gives low).weaken
    intro outcome later moves _ given
    refine ⟨chainId, commits, manifest, pinned.later moves, fun _ => given.imp_right ?_⟩
    intro failed
    obtain ⟨error, same, excused⟩ := failed
    exact ⟨error, same, excused.later moves⟩
  · rw [beyond low]
    intro later moves _
    exact ⟨chainId, commits, manifest, pinned.later moves, fun inside => absurd inside low⟩

variable (lossless : env.toPrimitives.Lossless) (canonical : ∀ package, accepts package → package.Canonical)

include lossless canonical

theorem Pinned.account_safe (address : Address) (block : UInt64) :
    (reader.account env address block).Safe (archiveWorld env backend faulty)
      (archiveProtocol env accepts backend) owner
      (Replied env accepts faulty reader block (fun packages => AccountReply packages address block)) state := by
  apply pinned.replied
  · intro outside
    unfold Reader.account
    rw [accountIn_outside outside]
    rfl
  · intro low
    apply (pinned.account_gives lossless canonical low).weaken
    intro outcome later _ _ given
    obtain ⟨result, done, found, latest, same⟩ | failed := given
    · exact .inl ⟨found, latest, by rw [done, same]⟩
    · exact .inr failed

theorem Pinned.storage_safe (address : Address) (slot : Hash32) (block : UInt64) :
    (reader.storage env address slot block).Safe (archiveWorld env backend faulty)
      (archiveProtocol env accepts backend) owner
      (Replied env accepts faulty reader block (fun packages => StorageReply packages address slot block))
      state := by
  apply pinned.replied
  · intro outside
    unfold Reader.storage
    rw [accountIn_outside outside]
    rfl
  · intro low
    apply (pinned.storage_gives lossless canonical low).weaken
    intro outcome later _ _ given
    obtain ⟨value, done, holds⟩ | failed := given
    · exact .inl ⟨value, holds, done⟩
    · exact .inr failed

theorem Pinned.code_safe (address : Address) (block : UInt64) :
    (reader.code env address block).Safe (archiveWorld env backend faulty)
      (archiveProtocol env accepts backend) owner
      (Replied env accepts faulty reader block (fun packages => CodeAt env packages address block)) state := by
  apply pinned.replied
  · intro outside
    unfold Reader.code
    rw [accountIn_outside outside]
    rfl
  · intro low
    apply (pinned.code_gives lossless canonical low).weaken
    intro outcome later _ _ given
    obtain ⟨bytes, done, holds⟩ | ⟨error, done, holds | excused⟩ := given
    · exact .inl (done ▸ holds)
    · exact .inl (done ▸ holds)
    · exact .inr ⟨error, done, excused⟩

end

/-- Along every schedule, finished calls have kept their promises. -/
theorem ordinary_sound {pool : ArchivePool} (codec : HeadsRoundTrip env) (lossless : env.toPrimitives.Lossless)
    (canonical : ∀ package, accepts package → package.Canonical)
    (reached : Pool.Reachable (System.world env.toPrimitives backend faulty) (Call.body env)
      (Ordinary accepts) System.empty pool)
    (distinct : pool.state.HeadsDistinct env.toPrimitives backend) :
    Pool.Sound (archiveWorld env backend faulty) (archiveProtocol env (Sealed env accepts) backend)
      (Replies env (Sealed env accepts) faulty) pool := by
  have canonical' : ∀ package, Sealed env accepts package → package.Canonical :=
    fun package accepted => canonical package accepted.1
  apply (reachable_archive reached distinct).sound _ inv_empty
  intro pool call allowed sound
  -- a query goes to a reader whose opening has finished, and so is pinned
  have pinned : ∀ reader, Opened pool reader → ∃ chainId commits,
      ∃ manifest : Manifest env (Sealed env accepts), Pinned reader chainId commits manifest pool.state := by
    intro reader opened
    obtain ⟨chainId, done⟩ := opened
    exact ⟨chainId, sound.finished done reader rfl⟩
  cases call with
  | publish package gate =>
      exact (publish_checked codec (fun validated => ⟨allowed, validated⟩)).weaken (fun _ _ _ _ _ => trivial)
  | compactOnce chainId => exact (compactOnce_safe codec lossless).weaken (fun _ _ _ _ _ => trivial)
  | collectGarbage => exact allowed.elim
  | openReader chainId => exact open_safe codec
  | account reader address block =>
      obtain ⟨chainId, commits, manifest, pinned⟩ := pinned reader allowed
      exact pinned.account_safe lossless canonical' address block
  | storage reader address slot block =>
      obtain ⟨chainId, commits, manifest, pinned⟩ := pinned reader allowed
      exact pinned.storage_safe lossless canonical' address slot block
  | code reader address block =>
      obtain ⟨chainId, commits, manifest, pinned⟩ := pinned reader allowed
      exact pinned.code_safe lossless canonical' address block

/-- Parsed packages have no tombstones with data. -/
theorem ReadFrom.canonical {inputs : Bytes → Prop} {package : Package} (read : ReadFrom env inputs package) :
    package.Canonical := by
  obtain ⟨input, _, parsed⟩ := read
  obtain ⟨_, header, groups, first, last, spelled, rfl⟩ := readPackage_spelled parsed
  intro event member
  have isEvent : PackageEvent.account event ∈
      (packageOf header (env.sha256 input) first last groups).segment.events := by
    simp [Segment.events, member]
  obtain ⟨group, isGroup, inside⟩ := mem_events_packageOf.mp isEvent
  exact (spelled.event_sound isGroup inside).2

/-- The packages committed up to the head a reader is pinned to. -/
def PinnedTo (env : Externals) (state : ArchiveSystem) (reader : Reader) (packages : List Package) : Prop :=
  ∃ earlier commit, earlier ++ [commit] <+: state.commits reader.head.chainId ∧
    Head.decode env commit.bytes = .ok reader.head ∧
    packages = (earlier ++ [commit]).filterMap Commit.package?

theorem Pinned.pinnedTo {reader : Reader} {commits : List (Commit Call)} {manifest : Manifest env accepts}
    (pinned : Pinned reader chainId commits manifest state) :
    PinnedTo env state reader manifest.packages := by
  obtain ⟨bytes, history, decoded⟩ := pinned.history
  obtain ⟨parent, same⟩ := pinned.head
  have chain : reader.head.chainId = chainId := by
    rw [same]
    exact history.head.2.2
  obtain ⟨commit, last, ends⟩ := Option.map_eq_some_iff.mp history.last
  obtain ⟨earlier, whole⟩ := List.getLast?_eq_some_iff.mp last
  refine ⟨earlier, commit, ?_, ?_, ?_⟩
  · rw [← whole, chain]
    exact pinned.early
  · rw [ends]
    exact decoded
  · rw [← whole, history.packages]
    rfl

/-- The answer of a query at a block of its reader's history: what the packages up to
the pinned head say, unless the budget of the request is spent, for which the head must
have more than twelve runs. -/
def Answered {α : Type} (env : Externals) (state : ArchiveSystem) (reader : Reader) (block : UInt64)
    (answer : List Package → Result α → Prop) (outcome : Result α) : Prop :=
  block ≤ reader.head.number → ∃ packages, PinnedTo env state reader packages ∧
    (answer packages outcome ∨ ∃ error, outcome = .error error ∧ budgetError <:+ error ∧
      12 < reader.runs.length)

/-- What the event log makes of a finished call. -/
def Refines (env : Externals) (state : ArchiveSystem) : (call : Call) → Except Error call.Out → Prop
  | .openReader _, outcome => ∀ reader, outcome = .ok reader → ∃ packages, PinnedTo env state reader packages
  | .account reader address block, outcome =>
      Answered env state reader block (fun packages => AccountReply packages address block) outcome
  | .storage reader address slot block, outcome =>
      Answered env state reader block (fun packages => StorageReply packages address slot block) outcome
  | .code reader address block, outcome =>
      Answered env state reader block (fun packages => CodeAt env packages address block) outcome
  | _, _ => True

theorem Replied.answered {α : Type} {reader : Reader} {block : UInt64}
    {answer : List Package → Result α → Prop} {outcome : Result α}
    (replied : Replied env accepts faulty reader block answer outcome state)
    (reads : ∀ key maximum, ¬ faulty (.getBounded key maximum))
    (nameable : state.content (.object Fixed.zero) = none) :
    Answered env state reader block answer outcome := by
  intro low
  obtain ⟨chainId, commits, manifest, pinned, given⟩ := replied
  refine ⟨manifest.packages, pinned.pinnedTo, (given low).imp_right ?_⟩
  intro failed
  obtain ⟨error, same, ⟨spent, more⟩ | fails | stored⟩ := failed
  · refine ⟨error, same, spent, ?_⟩
    simp only [freeGets, maxRequestBytes, maxShardBytes] at more
    omega
  · obtain ⟨key, maximum, fault⟩ := fails
    exact absurd fault (reads key maximum)
  · exact absurd nameable stored

/-- The archive refines the event log of its packages: under every schedule of
publications, compactions and readers, every finished query has the answer of the log. -/
theorem archive_refines_log {inputs : Bytes → Prop} {pool : ArchivePool} (codec : HeadsRoundTrip env)
    (lossless : env.toPrimitives.Lossless)
    (reached : Pool.Reachable (System.world env.toPrimitives backend faulty) (Call.body env)
      (Ordinary (ReadFrom env inputs)) System.empty pool)
    (reads : ∀ key maximum, ¬ faulty (.getBounded key maximum))
    (distinct : pool.state.HeadsDistinct env.toPrimitives backend)
    (nameable : pool.state.content (.object Fixed.zero) = none) :
    ∀ call outcome, (⟨call, Prog.ofExcept outcome⟩ : Task Call Call.Out StoreOp StoreOp.Resp Error) ∈
      pool.tasks → Refines env pool.state call outcome := by
  have sound := ordinary_sound codec lossless (fun _ => ReadFrom.canonical) reached distinct
  intro call outcome done
  have promised : Replies env (Sealed env (ReadFrom env inputs)) faulty call outcome pool.state := by
    cases outcome with
    | ok value => exact sound.finished done
    | error error => exact sound.failed done
  cases call with
  | publish | compactOnce | collectGarbage => trivial
  | openReader chainId =>
      intro reader opened
      obtain ⟨commits, manifest, pinned⟩ := promised reader opened
      exact ⟨manifest.packages, pinned.pinnedTo⟩
  | account reader address block => exact Replied.answered promised reads nameable
  | storage reader address slot block => exact Replied.answered promised reads nameable
  | code reader address block => exact Replied.answered promised reads nameable

end

/-! An anchor of two blocks, on real digests: the account of the first block refers to
code that comes with the second. -/

def splitAddress : Address := .ofNat 0x11

/-- The Keccak-256 of the byte `0x12`. -/
def splitHash : Hash32 := .ofNat 0x5fa2358263196dbbf23d1ca7a509451f7a2f64c15837bfbb81298b1e3e24e4fa

def splitAnchor : List LineRecord :=
  [.header exportSchema ['0', 'x', '1'] (.ofNat 0xa0) anchorText (some ['0', 'x', '0'])
      (some (.ofNat 0xa0)) none none,
    .block ['0', 'x', '0'] (.ofNat 0xa0) .zero .zero ['0', 'x', '0'],
    .account ['0', 'x', '0'] splitAddress true ['0', 'x', '0'] (some ['0', 'x', '1'])
      (some ['0', 'x', '2']) (some splitHash),
    .storage ['0', 'x', '0'] splitAddress ['0', 'x', '0'] (.ofNat 0x8) (.ofNat 0x33),
    .blockEnd ['0', 'x', '0'] ['0', 'x', '2'],
    .block ['0', 'x', '1'] (.ofNat 0xa1) (.ofNat 0xa0) .zero ['0', 'x', '1'],
    .code splitHash ['0', 'x', '1', '2'],
    .blockEnd ['0', 'x', '1'] ['0', 'x', '1'],
    .trailer ['0', 'x', '1'] (.ofNat 0xa1) ['0', 'x', '2']]

def splitPackage : Package :=
  ⟨.anchor, none, none, .ofNat 0x4be74eb54ab04ac36afec60390a98d55395f6d4b4cf89875d4c6077e8e33ec9b,
    ⟨1, .ofNat 0xa0, 0, 1, [⟨0, .ofNat 0xa0, .zero, .zero, 0⟩, ⟨1, .ofNat 0xa1, .ofNat 0xa0, .zero, 1⟩],
      [⟨0, splitAddress, true, 0, 1, .ofNat 2, splitHash⟩],
      [⟨0, splitAddress, 0, .ofNat 0x8, .ofNat 0x33⟩], [⟨1, splitHash, [0x12]⟩]⟩⟩

/-- The page of all three records; their keys are of one partition. -/
def splitPage : Bytes := beBytes 286
  0x46544450010000000300000015010000000000000000000000000000000000000011000000000000000000000051010000000000000000000000000000000100000000000000000000000000000000000000000000000000000000000000025fa2358263196dbbf23d1ca7a509451f7a2f64c15837bfbb81298b1e3e24e4fa0000003d02000000000000000000000000000000000000001100000000000000000000000000000000000000000000000000000000000000000000000000000008000000000000000000000020000000000000000000000000000000000000000000000000000000000000003300000021035fa2358263196dbbf23d1ca7a509451f7a2f64c15837bfbb81298b1e3e24e4fa00000000000000010000000112

/-- The page as zstd compresses it. -/
def splitFrame : Bytes := beBytes 115
  0x28b52ffd0050550300940446544450010000000300000015010011005100025fa2358263196dbbf23d1ca7a509451f7a2f64c15837bfbb81298b1e3e24e4fa0000003d02080020003300000021030100000001120d0010001543162030801198c80303ae05be4a7ed0dd4c248842176c9807ea

def splitFence : Fence :=
  ⟨accountKey splitAddress, 0,
    ⟨.ofNat 0x87c28b87a1017fd5257b6c3c8c77d1b2932de69c3868c1843dac744491f349aa, 128⟩⟩

def splitRoot : Bytes :=
  encodeRoot ((List.range 16).map (fun shard => if shard = 9 then
    ⟨.ofNat 0x7a85a88dfb514791edce828561fe1bb3542444e0a55278a77cc13639c3172702, 78⟩ else .default))

def splitRun : Run :=
  ⟨0, 1, 1, 3, 1, ⟨.ofNat 0x1fe5ad8f2c19cd0c6c725eb2bae01d89ed917cf42b49c108190ff8d541cb1e84, 581⟩,
    hexEncode splitRoot⟩

def splitHead : Head :=
  ⟨headMagic, 1, .ofNat 0xa0, 1, .ofNat 0xa1, .zero, splitPackage.inputSha256, none, [splitRun], []⟩

def splitDigests : List (Bytes × Nat) := [
  (accountKey splitAddress, 0x9a04286ad58526fc686a248b8a3aa1648eb51540472f9549ee44684b1acff579),
  (splitAddress.bytes, 0x06583a4ac791ad09bc3dacc72ecfb4a9bd89a952f026fd2e6a9e3b3513705cc1),
  (storageKey splitAddress 0 (.ofNat 0x8), 0x9ef157ea09969e98a873b467299be934dbe7610af3cdfadcaa7adf7d7309931c),
  (codeKey splitHash, 0x9e3106d69911407bd1d427e31623dad1f5fe6349656d8f5ef5a8effb6f794f8c),
  (splitHash.bytes.take 20, 0xccd87fb13e6f568d55af03d22990df264f48554dee29514736b1ab8b560f59d1),
  (compressedMagic ++ [formatVersion] ++ be32 286 ++ be32 115 ++ splitFrame,
    0x87c28b87a1017fd5257b6c3c8c77d1b2932de69c3868c1843dac744491f349aa),
  (indexMagic ++ [formatVersion] ++ be32 1 ++ fenceBytes splitFence,
    0x7a85a88dfb514791edce828561fe1bb3542444e0a55278a77cc13639c3172702),
  (splitRoot, 0x1fe5ad8f2c19cd0c6c725eb2bae01d89ed917cf42b49c108190ff8d541cb1e84),
  (shardBody splitRun.root.digest 1 .address 0 (beBytes 128
    0x0000000000000400010000000200000800000100220000800000000000400000040000000000000000000000020020000000000000000000400050000000200000000020100080000000000000000000000001010004000000000000000000100808000000080000001000040010000000020000000000800020000000000000),
    0x0cb27056eaf18b28725928e3b0cf3ab022379949e7bc9f29a091483e2dcb111b),
  (shardBody splitRun.root.digest 1 .spill 0 (List.replicate 128 0),
    0x8e497c4e51754163f6aa375d08d0881b031bd36e8260561b67cdc0ebb25ef8d5),
  (writeLines splitAnchor, 0x4be74eb54ab04ac36afec60390a98d55395f6d4b4cf89875d4c6077e8e33ec9b),
  (splitHead.jsonBytes, 0x3465cb83f6a4b548e7ee659638693cc12d5c5f060bc8b01db6d6a787d172ea27)]

def splitPrimitives : Primitives where
  sha256 := digestOf splitDigests
  zstdCompress page := if page = splitPage then .ok splitFrame else bail "not in the table"
  zstdDecompress bytes _ := if bytes = splitFrame then .ok splitPage else bail "not in the table"

def splitEnv : Externals :=
  .ofRecords splitPrimitives [([], 0xc5d2460186f7233c927e7db2dcc703c0e500b653ca82273b7bfad8045d85a470),
    ([0x12], 0x5fa2358263196dbbf23d1ca7a509451f7a2f64c15837bfbb81298b1e3e24e4fa)] splitAnchor [splitHead]

def splitPublish : Call := .publish splitPackage (.finalized 1 (.ofNat 0xa1))

def splitPerform (call : Call) (state : ArchiveSystem) (op : StoreOp) : op.Resp × ArchiveSystem :=
  state.perform splitEnv.toPrimitives .memory call op

def splitLaunch (pool : ArchivePool) (call : Call) (steps : Nat) : ArchivePool :=
  pool.launch splitPerform (Call.body splitEnv) call steps

def splitReader : Reader :=
  ⟨splitHead, .ofNat 0x3465cb83f6a4b548e7ee659638693cc12d5c5f060bc8b01db6d6a787d172ea27, [(splitRun,
    ⟨(List.range 16).map (fun shard => if shard = 9 then
      ⟨.ofNat 0x7a85a88dfb514791edce828561fe1bb3542444e0a55278a77cc13639c3172702, 78⟩ else .default)⟩)], 0⟩

/-- The anchor is published and a reader is opened. -/
def splitOpened : ArchivePool :=
  splitLaunch (splitLaunch ⟨System.empty, []⟩ splitPublish 12) (.openReader 1) 4

/-- The account and its slot are asked for. -/
def splitAsked : ArchivePool := splitLaunch splitOpened (.account splitReader splitAddress 1) 16

def splitPool : ArchivePool := splitLaunch splitAsked (.storage splitReader splitAddress (.ofNat 0x8) 0) 24

/-- The account, as of the next block. -/
def splitAccount : AccountEvent := ⟨1, splitAddress, true, 0, 1, .ofNat 2, splitHash⟩

/-- What is committed, that no object has the all-zero digest, and how the calls end. -/
theorem splitPool_run :
    splitPool.state.log.map Commit.row = [(.head 1, splitHead.jsonBytes, some splitPackage)] ∧
    splitPool.state.content (.object .zero) = none ∧
    ((Reader.open splitEnv 1).advance (splitPerform (.openReader 1)) 4
      (splitLaunch ⟨System.empty, []⟩ splitPublish 12).state).2.outcome? = some (.ok splitReader) ∧
    ((splitReader.account splitEnv splitAddress 1).advance
      (splitPerform (.account splitReader splitAddress 1)) 16 splitOpened.state).2.outcome? =
        some (.ok (some splitAccount)) ∧
    ((splitReader.storage splitEnv splitAddress (.ofNat 0x8) 0).advance
      (splitPerform (.storage splitReader splitAddress (.ofNat 0x8) 0)) 24 splitAsked.state).2.outcome? =
        some (.ok (.ofNat 0x33)) ∧
    ((splitReader.code splitEnv splitAddress 0).execute (splitPerform (.code splitReader splitAddress 0))
      splitPool.state).1 = .error missingCode ∧
    Head.decode splitEnv splitHead.jsonBytes = .ok splitHead := by
  decide +kernel

theorem splitEnv_roundTrip : HeadsRoundTrip splitEnv := by
  apply ofTables_roundTrip 8
  decide +kernel

theorem splitEnv_lossless : splitEnv.toPrimitives.Lossless := by
  intro page compressed done _
  simp only [splitEnv, Externals.ofRecords, Externals.ofTables, splitPrimitives] at done ⊢
  split at done
  · next same =>
      cases done
      rw [if_pos rfl, same]
  · cases done

/-- The one package there is to read. -/
def splitInput (input : Bytes) : Prop := input = writeLines splitAnchor

theorem readPackage_split : readPackage splitEnv (writeLines splitAnchor) = .ok splitPackage := by
  decide +kernel

theorem splitLaunch_finished {pool : ArchivePool} {call : Call} {steps : Nat} {outcome : Except Error call.Out}
    (done : ((Call.body splitEnv call).advance (splitPerform call) steps pool.state).2.outcome? =
      some outcome) :
    (⟨call, .ofExcept outcome⟩ : Task Call Call.Out StoreOp StoreOp.Resp Error) ∈
      (splitLaunch pool call steps).tasks := Pool.launch_finished done

theorem splitLaunch_reachable {pool : ArchivePool} {call : Call} (steps : Nat)
    (reached : Pool.Reachable (System.world splitEnv.toPrimitives .memory (fun _ => False))
      (Call.body splitEnv) (Ordinary (ReadFrom splitEnv splitInput)) System.empty pool)
    (allowed : Ordinary (ReadFrom splitEnv splitInput) pool call) :
    Pool.Reachable (System.world splitEnv.toPrimitives .memory (fun _ => False)) (Call.body splitEnv)
      (Ordinary (ReadFrom splitEnv splitInput)) System.empty (splitLaunch pool call steps) :=
  reached.launch (@System.perform_step Call splitEnv.toPrimitives .memory (fun _ => False)) allowed steps

theorem splitOpened_opened : Opened splitOpened splitReader := by
  refine ⟨1, ?_⟩
  unfold splitOpened
  exact splitLaunch_finished splitPool_run.2.2.1

theorem splitAsked_opened : Opened splitAsked splitReader := by
  obtain ⟨chainId, member⟩ := splitOpened_opened
  exact ⟨chainId, Pool.mem_launch member _ _⟩

theorem splitPool_reachable :
    Pool.Reachable (System.world splitEnv.toPrimitives .memory (fun _ => False)) (Call.body splitEnv)
      (Ordinary (ReadFrom splitEnv splitInput)) System.empty splitPool := by
  have published := @splitLaunch_reachable _ splitPublish 12 .start ⟨_, rfl, readPackage_split⟩
  have opened := @splitLaunch_reachable _ (.openReader 1) 4 published trivial
  have asked := @splitLaunch_reachable _ (.account splitReader splitAddress 1) 16 opened splitOpened_opened
  exact splitLaunch_reachable 24 asked splitAsked_opened

theorem splitPool_opened : Opened splitPool splitReader := by
  obtain ⟨chainId, member⟩ := splitAsked_opened
  exact ⟨chainId, Pool.mem_launch member _ _⟩

theorem splitPool_account :
    (⟨.account splitReader splitAddress 1, .ofExcept (.ok (some splitAccount))⟩ :
      Task Call Call.Out StoreOp StoreOp.Resp Error) ∈ splitPool.tasks := by
  apply Pool.mem_launch
  unfold splitAsked
  exact splitLaunch_finished splitPool_run.2.2.2.1

theorem archive_refines_log_split :
    Refines splitEnv splitPool.state (.account splitReader splitAddress 1) (.ok (some splitAccount)) :=
  archive_refines_log splitEnv_roundTrip splitEnv_lossless splitPool_reachable (fun _ _ => id)
    (fun filesystem => nomatch filesystem) splitPool_run.2.1 _ _ splitPool_account

/-- The packages up to the head of the split anchor. -/
theorem splitPool_pinned : PinnedTo splitEnv splitPool.state splitReader [splitPackage] := by
  obtain ⟨commit, log, row⟩ := List.map_eq_singleton_iff.mp splitPool_run.1
  simp only [Commit.row, Prod.mk.injEq] at row
  have commits : splitPool.state.commits 1 = [commit] := by
    unfold System.commits
    rw [log]
    simp [row.1]
  refine ⟨[], commit, ?_, ?_, ?_⟩
  · have chain : splitReader.head.chainId = 1 := rfl
    rw [chain, commits]
    exact List.prefix_rfl
  · rw [row.2.1]
    exact splitPool_run.2.2.2.2.2.2
  · simp [row.2.2]

/-- A query reports the account event with the block of the query, not with its own. -/
theorem account_reported_as_of :
    PinnedTo splitEnv splitPool.state splitReader [splitPackage] ∧
    (⟨.account splitReader splitAddress 1, .ofExcept (.ok (some splitAccount))⟩ :
      Task Call Call.Out StoreOp StoreOp.Resp Error) ∈ splitPool.tasks ∧
    1 ≤ splitReader.head.number ∧ ¬ AccountAt [splitPackage] splitAddress 1 (some splitAccount) := by
  refine ⟨splitPool_pinned, splitPool_account, by decide, ?_⟩
  intro force
  have listed := force.1
  exact absurd listed (by decide)

end Fossil
