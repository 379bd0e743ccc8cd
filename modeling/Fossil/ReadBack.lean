import Fossil.Answers

/-! Published events are read back.

A publication checks the events of its package against one another. These checks
decide what a later query at the block of an event finds. -/

namespace Fossil

/-! The checks of a publication. -/

/-- The account record in force is the newest of its address within the package. -/
theorem accountInForce_latest (accounts : List AccountEvent) (address : Address) (block : UInt64) :
    Latest AccountEvent.block (accounts.filter (fun event => event.address = address)) block
      (accountInForce accounts address block) := by
  unfold accountInForce
  generalize accounts.filter (fun event => event.address = address) = events
  have total : Std.Total (fun left right : AccountEvent => left.block ≤ right.block) :=
    ⟨fun left right => le_total left.block right.block⟩
  have transitive : IsTrans AccountEvent (fun left right => left.block ≤ right.block) :=
    ⟨fun _ _ _ => le_trans⟩
  have sorted := List.pairwise_insertionSort (fun left right : AccountEvent => left.block ≤ right.block) events
  have members : ∀ event, event ∈ (events.insertionSort (fun left right => left.block ≤ right.block)).reverse ↔
      event ∈ events := by
    intro event
    rw [List.mem_reverse, (List.perm_insertionSort _ events).mem_iff]
  rw [← List.pairwise_reverse] at sorted
  cases found : (events.insertionSort (fun left right => left.block ≤ right.block)).reverse.find?
      (fun event => event.block ≤ block) with
  | none =>
      intro event member
      have high := List.find?_eq_none.mp found event ((members event).mpr member)
      simpa using high
  | some event =>
      obtain ⟨low, before, after, whole, above⟩ := List.find?_eq_some_iff_append.mp found
      have inside : event ∈ events := by
        rw [← members, whole]
        simp
      refine ⟨inside, by simpa using low, ?_⟩
      intro other member otherLow
      have placed := (members other).mpr member
      rw [whole] at placed sorted
      obtain early | rest := List.mem_append.mp placed
      · have high := above other early
        simp only [Bool.not_eq_true', decide_eq_false_iff_not] at high
        exact absurd otherLow high
      · obtain rfl | late := List.mem_cons.mp rest
        · exact le_refl _
        · exact List.rel_of_pairwise_cons (List.pairwise_append.mp sorted).2.1 late

/-- A write that passed the check belongs to the account in force, unless the package
says nothing of the account. -/
theorem validateLifecycle_storage {env : Externals} {package : Package} {event : StorageEvent}
    (valid : validateLifecycle env package = .ok ()) (member : event ∈ package.segment.storage) :
    (∃ account, accountInForce package.segment.accounts event.address event.block = some account ∧
      (account.existing = true ∧ account.incarnation = event.incarnation ∨
        account.existing = false ∧ event.value = Fixed.zero)) ∨
    accountInForce package.segment.accounts event.address event.block = none ∧ package.mode ≠ .anchor := by
  obtain ⟨passed, _⟩ := guard_eq_ok.mp valid
  have matched := List.all_eq_true.mp (not_not.mp passed) event member
  unfold storageMatches at matched
  cases found : accountInForce package.segment.accounts event.address event.block with
  | none =>
      rw [found] at matched
      exact .inr ⟨rfl, by simpa using matched⟩
  | some account =>
      rw [found] at matched
      refine .inl ⟨account, rfl, ?_⟩
      simpa using matched

/-! Events have a place of their own. -/

section

variable {env : Externals} {accepts : Package → Prop} {inputs : Bytes → Prop}

theorem mem_events_account {segment : Segment} {event : AccountEvent} (member : event ∈ segment.accounts) :
    PackageEvent.account event ∈ segment.events := by
  simp [Segment.events, member]

theorem mem_events_storage {segment : Segment} {event : StorageEvent} (member : event ∈ segment.storage) :
    PackageEvent.storage event ∈ segment.events := by
  simp [Segment.events, member]

theorem PackageEvent.record_block (event : PackageEvent) : event.record.block = event.block := by
  cases event <;> rfl

theorem Publication.inside (publication : Publication env accepts) {event : PackageEvent}
    (member : event ∈ publication.package.segment.events) :
    publication.piece.run.start ≤ event.block ∧ event.block ≤ publication.piece.run.last := by
  rw [← event.record_block]
  apply publication.piece.inside
  rw [publication.mem_records, eventRecords_eq]
  exact List.mem_map_of_mem member

/-- Publications cover blocks of their own. -/
theorem Manifest.publication_unique (manifest : Manifest env accepts) {left right : Publication env accepts}
    (inLeft : left ∈ manifest.publications) (inRight : right ∈ manifest.publications) {block : UInt64}
    (atLeft : left.piece.run.start ≤ block ∧ block ≤ left.piece.run.last)
    (atRight : right.piece.run.start ≤ block ∧ block ≤ right.piece.run.last) : left = right := by
  have tiled := manifest.publications_tiled.pairwise
  unfold Manifest.pieces at tiled
  rw [List.map_map, List.pairwise_map] at tiled
  have symmetric : Std.Symm (fun left right : Publication env accepts =>
      left.piece.run.last < right.piece.run.start ∨ right.piece.run.last < left.piece.run.start) :=
    ⟨fun _ _ => Or.symm⟩
  have apart : manifest.publications.Pairwise (fun left right =>
      left.piece.run.last < right.piece.run.start ∨ right.piece.run.last < left.piece.run.start) :=
    tiled.imp .inl
  by_contra differ
  obtain before | after := apart.forall inLeft inRight differ
  · exact absurd (atLeft.2.trans_lt (before.trans_le atRight.1)) (lt_irrefl _)
  · exact absurd (atRight.2.trans_lt (after.trans_le atLeft.1)) (lt_irrefl _)

/-- No two events of a parsed package have the same key and block. -/
theorem ReadFrom.event_unique {package : Package} (read : ReadFrom env inputs package)
    {left right : PackageEvent} (inLeft : left ∈ package.segment.events)
    (inRight : right ∈ package.segment.events) (same : left.record.version = right.record.version) :
    left = right := by
  obtain ⟨input, _, parsed⟩ := read
  obtain ⟨_, header, groups, first, last, spelled, rfl⟩ := readPackage_spelled parsed
  have distinct := spelled.nodup (env.sha256 input)
  rw [eventRecords_eq, List.map_map] at distinct
  exact List.inj_on_of_nodup_map distinct inLeft inRight same

variable (manifest : Manifest env (Sealed env (ReadFrom env inputs)))

theorem Manifest.event_unique {left right : Package} {one two : PackageEvent}
    (inLeft : left ∈ manifest.packages) (inRight : right ∈ manifest.packages)
    (isOne : one ∈ left.segment.events) (isTwo : two ∈ right.segment.events)
    (same : one.record.version = two.record.version) : one = two := by
  obtain ⟨first, isFirst, rfl⟩ := List.mem_map.mp inLeft
  obtain ⟨second, isSecond, rfl⟩ := List.mem_map.mp inRight
  have block : one.block = two.block := by
    rw [← one.record_block, ← two.record_block]
    exact (version_inj.mp same).2
  have here := second.inside isTwo
  rw [← block] at here
  have home := manifest.publication_unique isFirst isSecond (first.inside isOne) here
  subst home
  exact first.accepted.1.event_unique isOne isTwo same

theorem Manifest.account_unique {address : Address} {left right : AccountEvent}
    (inLeft : left ∈ accountEvents manifest.packages address)
    (inRight : right ∈ accountEvents manifest.packages address) (same : left.block = right.block) :
    left = right := by
  obtain ⟨⟨package, inside, held⟩, address_eq⟩ := mem_accountEvents.mp inLeft
  obtain ⟨⟨package', inside', held'⟩, address_eq'⟩ := mem_accountEvents.mp inRight
  have events : PackageEvent.account left = PackageEvent.account right := by
    apply manifest.event_unique inside inside' (mem_events_account held) (mem_events_account held')
    apply version_inj.mpr
    exact ⟨congrArg accountKey (address_eq.trans address_eq'.symm), same⟩
  exact PackageEvent.account.inj events

theorem Manifest.storage_unique {address : Address} {incarnation : UInt64} {slot : Hash32}
    {left right : StorageEvent} (inLeft : left ∈ storageEvents manifest.packages address incarnation slot)
    (inRight : right ∈ storageEvents manifest.packages address incarnation slot)
    (same : left.block = right.block) : left = right := by
  obtain ⟨⟨package, inside, held⟩, key⟩ := mem_storageEvents.mp inLeft
  obtain ⟨⟨package', inside', held'⟩, key'⟩ := mem_storageEvents.mp inRight
  have events : PackageEvent.storage left = PackageEvent.storage right := by
    apply manifest.event_unique inside inside' (mem_events_storage held) (mem_events_storage held')
    apply version_inj.mpr
    refine ⟨storageKey_inj.mpr ⟨?_, ?_, ?_⟩, same⟩
    · rw [key.1, key'.1]
    · rw [key.2.1, key'.2.1]
    · rw [key.2.2, key'.2.2]
  exact PackageEvent.storage.inj events

/-! Storage. -/

/-- An account record of a package stays in force in the log for the rest of the
package. -/
theorem Manifest.account_in_force {package : Package} {event : StorageEvent} {account : AccountEvent}
    (member : package ∈ manifest.packages) (written : event ∈ package.segment.storage)
    (found : accountInForce package.segment.accounts event.address event.block = some account) :
    AccountAt manifest.packages event.address event.block (some account) := by
  have latest := accountInForce_latest package.segment.accounts event.address event.block
  rw [found] at latest
  obtain ⟨inside, low, greatest⟩ := latest
  obtain ⟨held, address⟩ := List.mem_filter.mp inside
  refine ⟨mem_accountEvents.mpr ⟨⟨package, member, held⟩, by simpa using address⟩, low, ?_⟩
  intro other isOther otherLow
  obtain ⟨⟨package', member', held'⟩, address'⟩ := mem_accountEvents.mp isOther
  obtain ⟨publication, isPublication, rfl⟩ := List.mem_map.mp member
  obtain ⟨publication', isPublication', rfl⟩ := List.mem_map.mp member'
  by_contra later
  -- an event between the account record and the write is of the same package
  have start := publication.inside (mem_events_account held)
  have ends := publication.inside (mem_events_storage written)
  have there := publication'.inside (mem_events_account held')
  have here : publication.piece.run.start ≤ other.block ∧ other.block ≤ publication.piece.run.last :=
    ⟨start.1.trans (le_of_lt (lt_of_not_ge later)), otherLow.trans ends.2⟩
  have home := manifest.publication_unique isPublication isPublication' here there
  subst home
  exact later (greatest other (List.mem_filter.mpr ⟨held', by simpa using address'⟩) otherLow)

/-- The log gives back what a package wrote, if the package knows the account. -/
theorem Manifest.storage_written {package : Package} {event : StorageEvent} {value : Hash32}
    (member : package ∈ manifest.packages) (written : event ∈ package.segment.storage)
    (known : package.mode = .anchor ∨ ∃ account ∈ package.segment.accounts,
      account.address = event.address ∧ account.block ≤ event.block)
    (holds : StorageAt manifest.packages event.address event.slot event.block value) : value = event.value := by
  obtain ⟨publication, isPublication, rfl⟩ := List.mem_map.mp member
  have latest := accountInForce_latest publication.package.segment.accounts event.address event.block
  obtain ⟨account, found, fits⟩ | ⟨missing, delta⟩ :=
    validateLifecycle_storage publication.accepted.2 written
  · have force := manifest.account_in_force member written found
    obtain ⟨other, otherForce, outcome⟩ := holds
    have same := otherForce.unique force (fun _ one _ two => manifest.account_unique one two)
    subst same
    obtain ⟨gone, zero⟩ | ⟨other, isOther, live, write, newest, valued⟩ := outcome
    · obtain ⟨exists_, _⟩ | ⟨_, empty⟩ := fits
      · rw [gone account rfl] at exists_
        cases exists_
      · rw [zero, empty]
    · cases isOther
      obtain ⟨_, incarnation⟩ | ⟨absent, _⟩ := fits
      · have self : Latest StorageEvent.block
            (storageEvents manifest.packages event.address account.incarnation event.slot) event.block
            (some event) := by
          refine ⟨mem_storageEvents.mpr ⟨⟨_, member, written⟩, rfl, incarnation.symm, rfl⟩, le_refl _, ?_⟩
          exact fun _ _ low => low
        have same := newest.unique self (fun _ one _ two => manifest.storage_unique one two)
        rw [valued, same]
        rfl
      · rw [live] at absent
        cases absent
  · rw [missing] at latest
    obtain anchor | ⟨account, held, address, low⟩ := known
    · exact absurd anchor delta
    · have above := latest account (List.mem_filter.mpr ⟨held, by simpa using address⟩)
      exact absurd low (not_le_of_gt above)

/-! Readers. -/

variable {backend : Backend} {faulty : StoreOp → Prop} {chainId : UInt64} {state : ArchiveSystem}
  {pool : ArchivePool} {reader : Reader}

/-- A head that decodes alike is the same commit. -/
theorem commit_unique {commits early late : List (Commit Call)} {first second : Commit Call} {head : Head}
    (increasing : (commits.map Commit.bytes).Pairwise (Precedes env)) (one : early ++ [first] <+: commits)
    (two : late ++ [second] <+: commits) (decoded : Head.decode env first.bytes = .ok head)
    (decoded' : Head.decode env second.bytes = .ok head) (le : early.length ≤ late.length) :
    early ++ [first] = late ++ [second] := by
  have before : early ++ [first] <+: late ++ [second] :=
    List.prefix_of_prefix_length_le one two (by simpa using le)
  obtain whole | inside := List.prefix_concat_iff.mp before
  · exact whole
  · obtain ⟨rest, same⟩ := two
    rw [← same, List.map_append] at increasing
    have ordered := (List.pairwise_append.mp increasing).1
    rw [List.map_append] at ordered
    have precedes : Precedes env first.bytes second.bytes :=
      (List.pairwise_append.mp ordered).2.2 _ (List.mem_map_of_mem (inside.subset (by simp))) _ (by simp)
    obtain ⟨before, after, isBefore, isAfter, less⟩ := precedes
    cases decoded.symm.trans isBefore
    cases decoded'.symm.trans isAfter
    exact absurd less (lt_irrefl _)

/-- A reader is pinned to one list of packages. -/
theorem Pinned.packages_eq {commits : List (Commit Call)} {manifest : Manifest env accepts} {packages : List Package}
    (codec : HeadsRoundTrip env) (inv : Inv env accepts backend state)
    (pinned : Pinned reader chainId commits manifest state) (up : PinnedTo env state reader packages) :
    packages = manifest.packages := by
  obtain ⟨early, first, one, decoded, rfl⟩ := up
  obtain ⟨late, second, two, decoded', same⟩ := pinned.pinnedTo
  have nonempty : state.commits reader.head.chainId ≠ [] := by
    intro nothing
    rw [nothing] at one
    exact absurd (List.prefix_nil.mp one) (by simp)
  obtain ⟨_, _, history⟩ := inv.history _ nonempty
  have increasing := history.increasing codec
  rw [same]
  obtain le | le := Nat.le_total early.length late.length
  · rw [commit_unique increasing one two decoded decoded' le]
  · rw [commit_unique increasing two one decoded' decoded le]

/-- The blocks of a committed package are at or before the head. -/
theorem Pinned.block_le {commits : List (Commit Call)} {manifest : Manifest env accepts} {package : Package}
    {event : PackageEvent} (pinned : Pinned reader chainId commits manifest state)
    (member : package ∈ manifest.packages) (inside : event ∈ package.segment.events) :
    event.block ≤ reader.head.number := by
  obtain ⟨publication, isPublication, rfl⟩ := List.mem_map.mp member
  obtain ⟨parent, same⟩ := pinned.head
  have bound := manifest.publications_tiled.within.2 publication.piece.run
    (List.mem_map_of_mem (List.mem_map_of_mem isPublication))
  have number : reader.head.number = manifest.last.last.number := by
    rw [same]
    rfl
  rw [number]
  refine (publication.inside inside).2.trans ?_
  exact UInt64.le_iff_toNat_le.mpr (Nat.le_of_lt_succ bound.2.2)

/-- Whatever a committed package wrote to a slot is what a query at that block returns,
on the head of the publication and on every later one, if the package has the account. -/
theorem storage_read_back (codec : HeadsRoundTrip env) (lossless : env.toPrimitives.Lossless)
    (reached : Pool.Reachable (System.world env.toPrimitives backend faulty) (Call.body env)
      (Ordinary (ReadFrom env inputs)) System.empty pool)
    (reads : ∀ key maximum, ¬ faulty (.getBounded key maximum))
    (distinct : pool.state.HeadsDistinct env.toPrimitives backend)
    (nameable : pool.state.content (.object Fixed.zero) = none)
    {packages : List Package} {package : Package} {event : StorageEvent} {outcome : Result Hash32}
    (pinned : PinnedTo env pool.state reader packages) (member : package ∈ packages)
    (written : event ∈ package.segment.storage)
    (known : package.mode = .anchor ∨ ∃ account ∈ package.segment.accounts,
      account.address = event.address ∧ account.block ≤ event.block)
    (done : (⟨.storage reader event.address event.slot event.block, Prog.ofExcept outcome⟩ :
      Task Call Call.Out StoreOp StoreOp.Resp Error) ∈ pool.tasks) :
    outcome = .ok event.value ∨ ∃ error, outcome = .error error ∧ budgetError <:+ error := by
  have sound := ordinary_sound codec lossless (fun _ => ReadFrom.canonical) reached distinct
  have promised : Replies env (Sealed env (ReadFrom env inputs)) faulty
      (.storage reader event.address event.slot event.block) outcome pool.state := by
    cases outcome with
    | ok value => exact sound.finished done
    | error error => exact sound.failed done
  obtain ⟨chainId, commits, manifest, up, given⟩ := promised
  have same := up.packages_eq codec sound.1 pinned
  subst same
  obtain ⟨value, holds, rfl⟩ | ⟨error, failed, ⟨spent, _⟩ | fails | stored⟩ :=
    given (up.block_le member (mem_events_storage written))
  · left
    rw [manifest.storage_written member written known holds]
  · exact .inr ⟨error, failed, spent⟩
  · obtain ⟨key, maximum, fault⟩ := fails
    exact absurd fault (reads key maximum)
  · exact absurd nameable stored

end

/-- The write of the split anchor. -/
def splitWrite : StorageEvent := ⟨0, splitAddress, 0, .ofNat 0x8, .ofNat 0x33⟩

theorem storage_read_back_split :
    splitWrite ∈ splitPackage.segment.storage ∧
      ((Except.ok (.ofNat 0x33) : Result Hash32) = .ok splitWrite.value ∨
        ∃ error, (Except.ok (.ofNat 0x33) : Result Hash32) = .error error ∧ budgetError <:+ error) := by
  have written : splitWrite ∈ splitPackage.segment.storage := List.mem_singleton.mpr rfl
  have done : (⟨.storage splitReader splitAddress (.ofNat 0x8) 0, .ofExcept (.ok (.ofNat 0x33))⟩ :
      Task Call Call.Out StoreOp StoreOp.Resp Error) ∈ splitPool.tasks := by
    unfold splitPool
    exact splitLaunch_finished splitPool_run.2.2.2.2.1
  exact ⟨written, storage_read_back splitEnv_roundTrip splitEnv_lossless splitPool_reachable (fun _ _ => id)
    (fun filesystem => nomatch filesystem) splitPool_run.2.1 splitPool_pinned (List.mem_singleton.mpr rfl)
    written (.inl rfl) done⟩

/-! Queries on their own. -/

/-- The operations of a query. -/
def StoreOp.Queries : StoreOp → Prop
  | .getBounded .. => True
  | .shardsGet .. => True
  | .shardsInsert .. => True
  | _ => False

section

variable {env : Externals} {reader : Reader} {budget : Budget} {address : Address} {block : UInt64}

theorem shard_queries (run : Run) (kind : ShardKind) (index : UInt32) :
    (reader.shard env budget run kind index).Asks StoreOp.Queries := by
  refine ⟨trivial, ?_⟩
  intro known
  cases known with
  | some shard => trivial
  | none =>
      apply Prog.asks_ofExcept_bind
      intro charged _
      apply Prog.Asks.bind (Prog.asks_request (show StoreOp.Queries (.getBounded _ _) from trivial))
      intro bytes
      apply Prog.asks_ofExcept_bind
      intro shard _
      exact ⟨trivial, fun _ => trivial⟩

theorem mayContain_queries (run : Run) (key : Bytes) :
    (reader.mayContain env budget run key).Asks StoreOp.Queries := by
  apply Prog.Asks.bind (shard_queries run _ _)
  intro address
  dsimp only
  split
  · trivial
  · split
    · trivial
    · apply Prog.Asks.bind (shard_queries run _ _)
      intro spill
      trivial

theorem chargedFetch_queries (reference : ObjectRef) :
    (chargedFetch env budget reference).Asks StoreOp.Queries := by
  unfold chargedFetch
  split
  · trivial
  · have asks : (fetch env.toPrimitives reference).Asks StoreOp.Queries := by
      unfold fetch
      dsimp only
      split
      · trivial
      · apply Prog.Asks.bind (Prog.asks_request (show StoreOp.Queries (.getBounded _ _) from trivial))
        intro bytes
        split <;> trivial
    exact asks.attempt.bind (fun _ => trivial)

theorem lookupRuns_queries (key : Bytes) (pairs : List (Run × RunReader)) :
    (reader.lookupRuns env key block pairs budget).Asks StoreOp.Queries := by
  induction pairs generalizing budget with
  | nil => trivial
  | cons pair pairs ih =>
      obtain ⟨run, index⟩ := pair
      unfold Reader.lookupRuns
      split
      · exact ih
      · apply Prog.Asks.bind (mayContain_queries run key)
        intro maybe
        dsimp only
        split
        · exact ih
        · apply Prog.Asks.bind (Prog.Asks.handle (fun _ => chargedFetch_queries) _ _)
          intro found
          apply Prog.asks_ofExcept_bind
          intro value _
          cases value with
          | some value => trivial
          | none => exact ih

theorem lookup_queries (key : Bytes) : (reader.lookup env budget key block).Asks StoreOp.Queries := by
  unfold Reader.lookup
  split
  · trivial
  · exact lookupRuns_queries key _

theorem accountIn_queries : (reader.accountIn env budget address block).Asks StoreOp.Queries := by
  apply Prog.Asks.bind (lookup_queries _)
  intro result
  obtain ⟨value, _⟩ := result
  cases value with
  | none => trivial
  | some value => exact Prog.asks_ofExcept_bind (fun _ _ => trivial)

theorem code_queries : (reader.code env address block).Asks StoreOp.Queries := by
  apply Prog.Asks.bind accountIn_queries
  intro result
  obtain ⟨account, _⟩ := result
  cases account with
  | none => trivial
  | some account =>
      dsimp only
      split
      · trivial
      · split
        · trivial
        · apply Prog.Asks.bind (lookup_queries _)
          intro result
          obtain ⟨value, _⟩ := result
          cases value with
          | none => trivial
          | some bytes =>
              dsimp only
              split <;> trivial

end

section

variable {env : Externals} {accepts : Package → Prop} {backend : Backend} {faulty : StoreOp → Prop} {owner : Call}
  {state : ArchiveSystem}

/-- A query that is safe among others is right when it runs on its own. -/
theorem execute_queries {α : Type} {prog : StoreProg α} {post : Except Error α → ArchiveSystem → Prop}
    (safe : prog.Safe (archiveWorld env backend faulty) (archiveProtocol env accepts backend) owner post state)
    (inv : Inv env accepts backend state) (asks : prog.Asks StoreOp.Queries) :
    post (prog.execute (System.perform env.toPrimitives backend owner) state).1
      (prog.execute (System.perform env.toPrimitives backend owner) state).2 := by
  induction prog generalizing state with
  | ret value => exact safe state (Kept.refl state) inv
  | fail error => exact safe state (Kept.refl state) inv
  | call op next ih =>
      have log : (state.perform env.toPrimitives backend owner op).2.log = state.log := by
        have query := asks.1
        cases op with
        | getBounded | shardsGet | shardsInsert => rfl
        | _ => exact query.elim
      have stepped : (archiveWorld env backend faulty).step owner op state
          (state.perform env.toPrimitives backend owner op).1
          (state.perform env.toPrimitives backend owner op).2 := by
        intro _
        refine ⟨System.perform_step owner state op, ?_⟩
        exact inv.distinct.earlier (log ▸ List.prefix_rfl)
      obtain ⟨kept, _, rest⟩ := safe state (Kept.refl state) inv _ _ stepped
      exact ih _ rest kept (asks.2 _)

/-! Code of an anchor. -/

/-- The bytes are the code of the account in force: nothing without an account, and what
its code hash says otherwise. -/
def CodeOf (env : Externals) (account : Option AccountEvent) (bytes : Bytes) : Prop :=
  ((∀ event ∈ account, event.existing = false) → bytes = []) ∧
    ∀ event ∈ account, event.existing = true → env.keccak256 bytes = event.codeHash

/-- A query for code, carried out on its own, returns the code of the account in force. -/
def CodeServed (env : Externals) (backend : Backend) (state : ArchiveSystem) (reader : Reader)
    (packages : List Package) (address : Address) (block : UInt64) : Prop :=
  ∃ account bytes, AccountAt packages address block account ∧ CodeOf env account bytes ∧
    ((reader.code env address block).execute
      (System.perform env.toPrimitives backend (.code reader address block)) state).1 = .ok bytes

/-- Code is in the package by the time an account refers to it. -/
def Package.CodeEstablished (env : Externals) (package : Package) : Prop :=
  ∀ account ∈ package.segment.accounts, account.existing = true → account.codeHash ≠ env.keccak256 [] →
    ∃ blob ∈ package.segment.code, blob.codeHash = account.codeHash ∧ blob.firstSeenBlock ≤ account.block

/-- With one package there is one run. -/
theorem Manifest.current_single {manifest : Manifest env accepts} {package : Package}
    (single : manifest.packages = [package]) : manifest.current.length = 1 := by
  have length : manifest.pieces.length = 1 := by
    have same := congrArg List.length single
    unfold Manifest.packages at same
    unfold Manifest.pieces
    simpa using same
  have none : manifest.folds = 0 := by
    have bound := manifest.folds_le
    rw [length] at bound
    simp only [l0Trigger] at bound
    omega
  have levels : manifest.levels = [] := by
    have folded := manifest.folded
    rw [none] at folded
    exact folded.unique .start
  unfold Manifest.current Manifest.l0
  rw [levels, none]
  simpa [manifestRuns] using length

variable {reader : Reader} {commits : List (Commit Call)} {manifest : Manifest env accepts} {package : Package}
  {chainId : UInt64}

/-- A query of a reader of one package answers, within its budget. -/
theorem Pinned.code_executes (pinned : Pinned reader chainId commits manifest state)
    (single : manifest.packages = [package]) (lossless : env.toPrimitives.Lossless)
    (canonical : ∀ package, accepts package → package.Canonical) (inv : Inv env accepts backend state)
    (nameable : state.content (.object Fixed.zero) = none) {address : Address} {block : UInt64}
    (low : block ≤ reader.head.number) :
    CodeAt env [package] address block ((reader.code env address block).execute
      (System.perform env.toPrimitives backend (.code reader address block)) state).1 := by
  have safe : (reader.code env address block).Safe (archiveWorld env backend (fun _ => False))
      (archiveProtocol env accepts backend) (.code reader address block) _ state :=
    pinned.code_gives lossless canonical low
  rw [← single]
  obtain ⟨bytes, done, holds⟩ | ⟨error, done, holds | ⟨_, more⟩ | ⟨_, _, fault⟩ | stored⟩ :=
    execute_queries safe inv code_queries
  · rw [done]
    exact holds
  · rw [done]
    exact holds
  · rw [← pinned.runs.length_eq, Manifest.current_single single] at more
    exact absurd more (by decide)
  · exact fault.elim
  · exact absurd nameable stored

/-- A reader of a block-zero anchor serves the code of every account at every block
exactly if the anchor has the code by the time an account refers to it. -/
theorem anchor_code_iff {inputs : Bytes → Prop} {pool : ArchivePool} (codec : HeadsRoundTrip env)
    (lossless : env.toPrimitives.Lossless)
    (reached : Pool.Reachable (System.world env.toPrimitives backend faulty) (Call.body env)
      (Ordinary (ReadFrom env inputs)) System.empty pool)
    (distinct : pool.state.HeadsDistinct env.toPrimitives backend)
    (nameable : pool.state.content (.object Fixed.zero) = none) (opened : Opened pool reader)
    (anchored : PinnedTo env pool.state reader [package]) :
    (∀ address block, block ≤ reader.head.number →
      CodeServed env backend pool.state reader [package] address block) ↔ package.CodeEstablished env := by
  have sound := ordinary_sound codec lossless (fun _ => ReadFrom.canonical) reached distinct
  obtain ⟨chainId, done⟩ := opened
  obtain ⟨commits, manifest, pinned⟩ := sound.finished done reader rfl
  have single := (pinned.packages_eq codec sound.1 anchored).symm
  have served : ∀ address block, block ≤ reader.head.number →
      CodeAt env [package] address block ((reader.code env address block).execute
        (System.perform env.toPrimitives backend (.code reader address block)) pool.state).1 :=
    fun address block low => pinned.code_executes single lossless
      (fun _ accepted => accepted.1.canonical) sound.1 nameable low
  have member : package ∈ manifest.packages := by simp [single]
  constructor
  · intro serves account held live hash
    have low : account.block ≤ reader.head.number := pinned.block_le member (mem_events_account held)
    obtain ⟨found, bytes, force, code, ok⟩ := serves account.address account.block low
    obtain ⟨other, otherForce, outcome⟩ := served account.address account.block low
    -- at the block of the event, the event itself is in force
    have self : AccountAt manifest.packages account.address account.block (some account) :=
      ⟨mem_accountEvents.mpr ⟨⟨package, member, held⟩, rfl⟩, le_refl _, fun _ _ low => low⟩
    rw [← single] at otherForce
    have same := otherForce.unique self (fun _ one _ two => manifest.account_unique one two)
    subst same
    obtain ⟨empty, _⟩ | ⟨event, isEvent, _, _, blob, newest, done⟩ := outcome
    · exact absurd (empty account rfl live) hash
    · cases isEvent
      rw [ok] at done
      cases blob with
      | none => cases done
      | some blob =>
          obtain ⟨⟨package', isPackage, inside⟩, sameHash⟩ := mem_codeBlobs.mp newest.1
          rw [List.mem_singleton.mp isPackage] at inside
          exact ⟨blob, inside, sameHash, newest.2.1⟩
  · intro established address block low
    obtain ⟨account, force, outcome⟩ := served address block low
    obtain ⟨empty, done⟩ | ⟨event, isEvent, live, hash, blob, newest, done⟩ := outcome
    · refine ⟨account, [], force, ⟨fun _ => rfl, ?_⟩, done⟩
      intro event isEvent live
      exact (empty event isEvent live).symm
    · cases isEvent
      obtain ⟨⟨package', isPackage, held⟩, _⟩ := mem_accountEvents.mp force.1
      rw [List.mem_singleton.mp isPackage] at held
      obtain ⟨early, inside, sameHash, before⟩ := established event held live hash
      have present : early ∈ codeBlobs [package] event.codeHash :=
        mem_codeBlobs.mpr ⟨⟨package, List.mem_singleton.mpr rfl, inside⟩, sameHash⟩
      cases blob with
      | none => exact absurd (newest early present) (not_lt_of_ge (before.trans force.2.1))
      | some blob =>
          refine ⟨some event, blob.bytes, force, ⟨?_, ?_⟩, done⟩
          · intro gone
            rw [gone event rfl] at live
            cases live
          · intro other isOther _
            cases isOther
            have member' := newest.1
            rw [← single] at member'
            exact (manifest.blob_valid member').2

end

/-- The split anchor is accepted and published, and the code of its account is missing
at block zero. -/
theorem anchor_code_missing :
    readPackage splitEnv (writeLines splitAnchor) = .ok splitPackage ∧ splitPackage.mode = .anchor ∧
    PinnedTo splitEnv splitPool.state splitReader [splitPackage] ∧ 0 ≤ splitReader.head.number ∧
    ((splitReader.code splitEnv splitAddress 0).execute
      (System.perform splitEnv.toPrimitives .memory (.code splitReader splitAddress 0)) splitPool.state).1 =
        .error ["missing account code blob"] :=
  ⟨readPackage_split, rfl, splitPool_pinned, by decide, splitPool_run.2.2.2.2.2.1⟩

theorem anchor_code_iff_split :
    ¬ splitPackage.CodeEstablished splitEnv ∧ ¬ ∀ address block, block ≤ splitReader.head.number →
      CodeServed splitEnv .memory splitPool.state splitReader [splitPackage] address block := by
  have late : ¬ splitPackage.CodeEstablished splitEnv := by
    intro established
    obtain ⟨blob, member, _, before⟩ := established ⟨0, splitAddress, true, 0, 1, .ofNat 2, splitHash⟩
      (List.mem_singleton.mpr rfl) rfl (by decide +kernel)
    rw [List.mem_singleton.mp member] at before
    exact absurd before (by decide)
  refine ⟨late, ?_⟩
  intro served
  exact late ((anchor_code_iff splitEnv_roundTrip splitEnv_lossless splitPool_reachable
    (fun filesystem => nomatch filesystem) splitPool_run.2.1 splitPool_opened splitPool_pinned).mp served)

end Fossil
